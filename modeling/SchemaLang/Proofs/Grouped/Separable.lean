import SchemaLang.Proofs.Written.Numbers
import SchemaLang.Proofs.Written.Quoted
import SchemaLang.Proofs.Written.Regexes

/-!
# Writing without ambiguity

* `Separable write good rest`: if a text starts with a good value as `write` writes it and goes on with a
  rest, then there is one such value and one such rest.
* `CutAs kind cs rest`: before the rest the characters are cut off as one token.

What stands behind a value may be taken for a part of it, so `rest` says what must not stand there. Values
in brackets and lists of values are separable if the values are, and so are parts that may be missing if
nothing behind them starts in the same way.

The lexer is a function of the text, so tokens are separable by what it cuts off (`CutAs.eq`).
-/

set_option autoImplicit false

namespace SchemaLang

variable {α : Type} {write : α → List Char} {good : α → Prop} {rest stop : List Char → Prop}

def Separable (write : α → List Char) (good : α → Prop) (rest : List Char → Prop) : Prop :=
  ∀ a b r s, good a → good b → rest r → rest s → write a ++ r = write b ++ s → a = b ∧ r = s

namespace Separable

theorem mono {good' : α → Prop} {rest' : List Char → Prop} (h : Separable write good rest)
    (hgood : ∀ a, good' a → good a) (hrest : ∀ r, rest' r → rest r) : Separable write good' rest' :=
  fun a b r s ha hb hr hs => h a b r s (hgood a ha) (hgood b hb) (hrest r hr) (hrest s hs)

/-- What stands before all values and what stands behind them can be taken away. -/
theorem enclosed {opening closing : List Char} (h : Separable write good (closing <+: ·)) :
    Separable (fun a => opening ++ (write a ++ closing)) good fun _ => True := by
  intro a b r s ha hb _ _ heq
  simp only [List.append_assoc, List.append_cancel_left_eq] at heq
  obtain ⟨hab, hrs⟩ := h a b _ _ ha hb (List.prefix_append ..) (List.prefix_append ..) heq
  exact ⟨hab, List.append_cancel_left hrs⟩

/-- A value may be missing before what does not start like one. -/
theorem optional (h : Separable write good rest) (hstop : ∀ r, stop r → rest r)
    (hends : ∀ a k, good a → ¬ stop (write a ++ k)) :
    Separable (fun o : Option α => o.elim [] write) (fun o => ∀ a ∈ o, good a) stop := by
  intro o p r s ho hp hr hs heq
  cases o with
  | none =>
    cases p with
    | none => exact ⟨rfl, heq⟩
    | some b =>
      obtain rfl : r = write b ++ s := heq
      exact absurd hr (hends b s (hp b rfl))
  | some a =>
    cases p with
    | none =>
      obtain rfl : write a ++ r = s := heq
      exact absurd hs (hends a r (ho a rfl))
    | some b =>
      obtain ⟨rfl, hrs⟩ := h a b r s (ho a rfl) (hp b rfl) (hstop r hr) (hstop s hs) heq
      exact ⟨rfl, hrs⟩

/-- Any number of values may stand one behind the other before what does not start like one. -/
theorem many (h : Separable write good rest) (hnext : ∀ a k, good a → rest (write a ++ k))
    (hstop : ∀ r, stop r → rest r) (hends : ∀ a k, good a → ¬ stop (write a ++ k)) :
    Separable (List.flatMap write) (fun as => ∀ a ∈ as, good a) stop := by
  have hrest (cs : List α) (k : List Char) (hcs : ∀ c ∈ cs, good c) (hk : stop k) :
      rest (cs.flatMap write ++ k) := by
    cases cs with
    | nil => exact hstop k hk
    | cons c cs =>
      rw [List.flatMap_cons, List.append_assoc]
      exact hnext c _ (hcs c (by simp))
  intro as
  induction as with
  | nil =>
    intro bs r s _ hbs hr _ heq
    cases bs with
    | nil => exact ⟨rfl, heq⟩
    | cons b bs =>
      rw [List.flatMap_nil, List.nil_append, List.flatMap_cons, List.append_assoc] at heq
      exact absurd (heq ▸ hr) (hends b _ (hbs b (by simp)))
  | cons a as ih =>
    intro bs r s has hbs hr hs heq
    rw [List.forall_mem_cons] at has
    rw [List.flatMap_cons, List.append_assoc] at heq
    cases bs with
    | nil =>
      rw [List.flatMap_nil, List.nil_append] at heq
      exact absurd (heq ▸ hs) (hends a _ has.1)
    | cons b bs =>
      rw [List.forall_mem_cons] at hbs
      rw [List.flatMap_cons, List.append_assoc] at heq
      obtain ⟨rfl, hbehind⟩ := h a b _ _ has.1 hbs.1 (hrest as r has.2 hr) (hrest bs s hbs.2 hs) heq
      obtain ⟨rfl, hrs⟩ := ih bs r s has.2 hbs.2 hr hs hbehind
      exact ⟨rfl, hrs⟩

end Separable

/-! ## Lists between commas -/

/-- Texts with a comma and a blank between them. -/
def commaed (ts : List (List Char)) : List Char := [',', ' '].intercalate ts

theorem commaed_cons (t : List Char) (ts : List (List Char)) :
    commaed (t :: ts) = t ++ ts.flatMap ([',', ' '] ++ ·) := by
  unfold commaed
  induction ts generalizing t with
  | nil => simp
  | cons u us ih =>
    rw [List.intercalate_cons_cons, ih, List.flatMap_cons, List.append_assoc, List.append_assoc]

/-- Before the closing character a list is read off if its values are and none of them starts with that. -/
theorem Separable.commaed {closer : Char} (h : Separable write good rest) (hcloser : closer ≠ ',')
    (hcomma : ∀ r, rest (',' :: r)) (hclose : ∀ r, rest (closer :: r))
    (hhead : ∀ a k, good a → (write a ++ k).head? ≠ some closer) :
    Separable (fun as : List α => SchemaLang.commaed (as.map write)) (fun as => ∀ a ∈ as, good a)
      ([closer] <+: ·) := by
  have hbehind : Separable (fun a => [',', ' '] ++ write a) good rest := by
    intro a b r s ha hb hr hs heq
    rw [List.append_assoc, List.append_assoc, List.append_cancel_left_eq] at heq
    exact h a b r s ha hb hr hs heq
  have hstop (r : List Char) (hr : [closer] <+: r) : rest r := by
    obtain ⟨k, rfl⟩ := hr
    exact hclose k
  have hfurther : Separable (List.flatMap fun a => [',', ' '] ++ write a)
      (fun as => ∀ a ∈ as, good a) ([closer] <+: ·) := by
    refine hbehind.many (fun _ _ _ => hcomma _) hstop fun a k _ hk => ?_
    rw [List.append_assoc, List.cons_append, List.cons_prefix_cons] at hk
    exact hcloser hk.1
  have hrest (as : List α) (k : List Char) (hk : [closer] <+: k) :
      rest ((as.flatMap fun a => [',', ' '] ++ write a) ++ k) := by
    cases as with
    | nil => exact hstop k hk
    | cons a as => exact hcomma _
  have hwrite (a : α) (as : List α) : SchemaLang.commaed ((a :: as).map write) =
      write a ++ as.flatMap fun a => [',', ' '] ++ write a := by
    rw [List.map_cons, commaed_cons, List.flatMap_map]
  have hempty (b : α) (bs : List α) (r s : List Char) (hb : good b) (hr : [closer] <+: r)
      (heq : r = SchemaLang.commaed ((b :: bs).map write) ++ s) : False := by
    obtain ⟨k, rfl⟩ := hr
    rw [hwrite, List.append_assoc] at heq
    exact hhead b _ hb (congrArg List.head? heq.symm)
  intro as bs r s has hbs hr hs heq
  cases as with
  | nil =>
    cases bs with
    | nil => exact ⟨rfl, heq⟩
    | cons b bs => exact (hempty b bs r s (hbs b (by simp)) hr heq).elim
  | cons a as =>
    cases bs with
    | nil => exact (hempty a as s r (has a (by simp)) hs heq.symm).elim
    | cons b bs =>
      rw [List.forall_mem_cons] at has hbs
      simp only [hwrite, List.append_assoc] at heq
      obtain ⟨rfl, hbehind⟩ := h a b _ _ has.1 hbs.1 (hrest as r hr) (hrest bs s hs) heq
      obtain ⟨rfl, hrs⟩ := hfurther as bs r s has.2 hbs.2 hr hs hbehind
      exact ⟨rfl, hrs⟩

/-! ## Tokens -/

def CutAs (kind : TokenKind) (cs rest : List Char) : Prop :=
  ∃ c ds, cs = c :: ds ∧ ∃ faults, Lexeme.scan false c (ds ++ rest) = ⟨kind, cs, rest, faults⟩

theorem CutAs.eq {kind kind' : TokenKind} {cs cs' r s : List Char} (h : CutAs kind cs r)
    (h' : CutAs kind' cs' s) (heq : cs ++ r = cs' ++ s) : kind = kind' ∧ cs = cs' ∧ r = s := by
  obtain ⟨c, ds, rfl, faults, hscan⟩ := h
  obtain ⟨c', ds', rfl, faults', hscan'⟩ := h'
  rw [List.cons_append, List.cons_append, List.cons.injEq] at heq
  obtain ⟨rfl, hrest⟩ := heq
  rw [hrest, hscan', Lexeme.mk.injEq] at hscan
  exact ⟨hscan.1.symm, hscan.2.1.symm, hscan.2.2.1.symm⟩

end SchemaLang
