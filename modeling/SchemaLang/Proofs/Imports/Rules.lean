import SchemaLang.Proofs.Complaints

/-!
# Rules leave the checks on imports to the body of a unit

Whether an import is late, and whether its alias can be its own, depends on what is recorded before it. No
rule knows that, so the problems of these three kinds come from `unitBody` alone.

* `Cause.isImportCheck c`: the cause is one of the three.
* `Rule.LeavesImports r items i`: from item `i` on, `r` meets no problem of these kinds.

Main statements: `leavesImports_header` and `leavesImports_entry`, and that all other problems of a unit are
those of its rules (`ofRule_of_mem_readUnit`).
-/

set_option autoImplicit false

namespace SchemaLang

variable {σ τ : Type}

/-- What is checked of an import as a whole, against the entries before it. -/
def Cause.isImportCheck : Cause σ → Bool
  | .derivedAliasReserved .. | .duplicateAlias .. | .importAfterDeclaration _ => true
  | _ => false

@[simp] theorem Cause.isImportCheck_map (f : σ → τ) (c : Cause σ) :
    (c.map f).isImportCheck = c.isImportCheck := by
  cases c <;> rfl

theorem Problem.OfRule.isImportCheck_eq_false {items : Items} {p : Problem Extent} (h : p.OfRule items) :
    p.cause.isImportCheck = false := by
  unfold OfRule at h
  split at h
  · simp [*, Cause.isImportCheck]
  · simp [*, Cause.isImportCheck]
  · exact h.elim
  · exact h.elim
  · exact h.elim
  · cases hc : p.cause <;> simp_all [Cause.isImportCheck]

namespace Rule

variable {α β : Type} {items : Items} {i : Nat}

def LeavesImports (r : Rule α) (items : Items) (i : Nat) : Prop :=
  ∀ p ∈ (r items i).problems, p.cause.isImportCheck = false

theorem LeavesImports.filter_eq_nil {r : Rule α} (h : r.LeavesImports items i) :
    (r items i).problems.filter (·.cause.isImportCheck) = [] := by
  apply List.filter_eq_nil_iff.2
  intro p hp
  simp [h p hp]

theorem Meets.leavesImports {r : Rule α} (h : r.Meets items i) : r.LeavesImports items i :=
  fun p hp => (h p hp).isImportCheck_eq_false

theorem leavesImports_header : header.LeavesImports items i :=
  meets_header.leavesImports

/-- A keyword behind `as` is reported, but that is no check against other entries. -/
theorem leavesImports_entry : entry.LeavesImports items i :=
  meets_entry.leavesImports

end Rule

/-! ## Units -/

theorem AliasTable.isImportCheck_of_mem_add (t : AliasTable) (d : Import Extent) :
    ∀ p ∈ (t.add d).1, p.cause.isImportCheck = true := by
  intro p hp
  unfold AliasTable.add at hp
  dsimp only at hp
  split at hp
  · obtain rfl := List.mem_singleton.1 hp
    rfl
  · split at hp
    · obtain rfl := List.mem_singleton.1 hp
      rfl
    · cases hp

/-- Each round adds the problems of an entry, and those that the checks on an import meet. -/
theorem ofRule_of_mem_unitBody {items : Items} {n : Nat} {aliases : AliasTable} {declared : Bool} {i : Nat} :
    ∀ p ∈ (unitBody items n aliases declared i).problems,
      p.cause.isImportCheck = false → p.OfRule items := by
  induction n generalizing aliases declared i with
  | zero =>
    intro p hp
    exact absurd hp List.not_mem_nil
  | succ n ih =>
    unfold unitBody
    split
    · intro p hp
      exact absurd hp List.not_mem_nil
    have hentry : (Rule.entry).Meets items i := Rule.meets_entry
    unfold Rule.Meets Rule.Reports at hentry
    generalize Rule.entry items i = reply at hentry
    obtain ⟨v, j, ps⟩ := reply
    cases v with
    | none =>
      intro p hp hcheck
      rcases List.mem_append.1 hp with hp | hp
      · exact hentry p hp
      · exact ih p hp hcheck
    | some e =>
      cases e with
      | declaration d =>
        intro p hp hcheck
        rcases List.mem_append.1 hp with hp | hp
        · exact hentry p hp
        · exact ih p hp hcheck
      | import_ d =>
        intro p hp hcheck
        rcases List.mem_append.1 hp with hp | hp
        · rcases List.mem_append.1 hp with hp | hclash
          · rcases List.mem_append.1 hp with hp | hlate
            · exact hentry p hp
            · cases declared with
              | false => cases hlate
              | true =>
                obtain rfl := List.mem_singleton.1 hlate
                cases hcheck
          · rw [aliases.isImportCheck_of_mem_add d p hclash] at hcheck
            cases hcheck
        · exact ih p hp hcheck

theorem ofRule_of_mem_readUnit {items : Items} :
    ∀ p ∈ (readUnit items).2, p.cause.isImportCheck = false → p.OfRule items := by
  intro p hp hcheck
  rcases List.mem_append.1 hp with hp | hp
  · exact Rule.meets_header p hp
  · exact ofRule_of_mem_unitBody p hp hcheck

end SchemaLang
