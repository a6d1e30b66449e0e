/-!
# Search in a sorted table

* `bisect` looks for a number in a table of increasing numbers.

Main statements: `bisect_found` (what is found stands there) and `bisect_missing` (what is not found
belongs between two neighbours).
-/

set_option autoImplicit false

namespace SchemaLang

/-- The outcome of a search. -/
inductive Bisection where
  | found (i : Nat)
  /-- The number is not there; it belongs before index `i`. -/
  | missing (i : Nat)
deriving DecidableEq, Repr

/-- Looks for `x` from index `low` up to, not including, `high`. -/
def bisectFrom (table : Array Nat) (x low high : Nat) : Bisection :=
  if low < high then
    let middle := (low + high) / 2
    let y := table.getD middle 0
    if y = x then .found middle
    else if y < x then bisectFrom table x (middle + 1) high
    else bisectFrom table x low middle
  else .missing low
termination_by high - low

def bisect (table : Array Nat) (x : Nat) : Bisection := bisectFrom table x 0 table.size

theorem bisectFrom_found {table : Array Nat} {x low high i : Nat} (hhigh : high ≤ table.size)
    (h : bisectFrom table x low high = .found i) : table[i]? = some x := by
  fun_induction bisectFrom table x low high with
  | case1 low high hlt middle y hy =>
    obtain rfl : middle = i := Bisection.found.inj h
    have hm : middle < table.size := by omega
    rw [Array.getElem?_eq_getElem hm, ← hy]
    simp [y, hm]
  | case2 low high hlt middle y hy hyx ih => exact ih hhigh h
  | case3 low high hlt middle y hy hyx ih => exact ih (by omega) h
  | case4 low high hlt => cases h

/-- All that stands before `low` is smaller than what is looked for, and all from `high` on is
larger. -/
theorem bisectFrom_missing {table : Array Nat} (hsorted : table.toList.Pairwise (· < ·))
    {x low high i : Nat} (hle : low ≤ high) (hhigh : high ≤ table.size)
    (hlow : ∀ j y, j < low → table[j]? = some y → y < x)
    (hafter : ∀ j y, high ≤ j → table[j]? = some y → x < y)
    (h : bisectFrom table x low high = .missing i) :
    i ≤ table.size ∧ (∀ j y, j < i → table[j]? = some y → y < x) ∧
      ∀ j y, i ≤ j → table[j]? = some y → x < y := by
  have hmono {j k y z : Nat} (hj : table[j]? = some y) (hk : table[k]? = some z) (hjk : j ≤ k) :
      y ≤ z := by
    obtain ⟨hj', rfl⟩ := Array.getElem?_eq_some_iff.1 hj
    obtain ⟨hk', rfl⟩ := Array.getElem?_eq_some_iff.1 hk
    rcases Nat.eq_or_lt_of_le hjk with rfl | hlt
    · exact Nat.le_refl _
    · exact Nat.le_of_lt (List.pairwise_iff_getElem.1 hsorted j k hj' hk' hlt)
  fun_induction bisectFrom table x low high with
  | case1 low high hlt middle y hy => cases h
  | case2 low high hlt middle y hy hyx ih =>
    have hm : middle < table.size := by omega
    have hy' : table[middle]? = some y := by simp [y, hm]
    refine ih (by omega) hhigh (fun j z hj hz => ?_) hafter h
    exact Nat.lt_of_le_of_lt (hmono hz hy' (by omega)) hyx
  | case3 low high hlt middle y hy hyx ih =>
    have hm : middle < table.size := by omega
    have hy' : table[middle]? = some y := by simp [y, hm]
    refine ih (by omega) (by omega) hlow (fun j z hj hz => ?_) h
    have := hmono hy' hz hj
    omega
  | case4 low high hlt =>
    obtain rfl : low = i := Bisection.missing.inj h
    obtain rfl : low = high := by omega
    exact ⟨hhigh, hlow, hafter⟩

theorem bisect_found {table : Array Nat} {x i : Nat} (h : bisect table x = .found i) :
    table[i]? = some x :=
  bisectFrom_found (Nat.le_refl _) h

theorem bisect_missing {table : Array Nat} (hsorted : table.toList.Pairwise (· < ·)) {x i : Nat}
    (h : bisect table x = .missing i) :
    i ≤ table.size ∧ (∀ j y, j < i → table[j]? = some y → y < x) ∧
      ∀ j y, i ≤ j → table[j]? = some y → x < y := by
  refine bisectFrom_missing hsorted (Nat.zero_le _) (Nat.le_refl _) (fun j y hj => ?_)
    (fun j y hj hy => ?_) h
  · exact absurd hj (Nat.not_lt_zero j)
  · rw [Array.getElem?_eq_none hj] at hy
    cases hy

end SchemaLang
