import SchemaLang.Proofs.Grouped.Spelled
import SchemaLang.Proofs.Hereditary
import SchemaLang.Proofs.Written.Datatypes

/-!
# Whatever is read is spelled

* `SpelledOut items`: words, names behind a dollar sign and regular expressions are spelled as tokens of
  their kinds are.

Expressions that are read from such items are spelled if their parts are (`Rule.hereditary_spelled`). A minus
before an integer literal belongs to the literal, so a literal may be negative without a unary operator; a
float never is.

Main statement: an expression that is read is spelled (`Rule.ensures_spelled_expression`), so all
constraints of a unit are (`spelled_of_mem_declarations`).
-/

set_option autoImplicit false

namespace SchemaLang

structure SpelledOut (items : Items) : Prop where
  tokens : WellSpelled items
  word : ∀ i, (itemAt items i).IsSpelled
  dollar : ∀ i, kindAt items i = .varWord →
    ∃ run, IsRun run ∧ (itemAt items i).text.toList = '$' :: run
  regex : ∀ i, kindAt items i = .regexLit →
    ∃ body, RegexBody body ∧ (itemAt items i).text = String.ofList (regexText body)

/-- The expression of an invariant is spelled. -/
def Member.Spelled {σ : Type} (m : Member σ) : Prop := ∀ v, m = .invariant v → v.constraint.Spelled

def Declaration.Spelled {σ : Type} (d : Declaration σ) : Prop :=
  ∀ t, d = .type t → ∀ m ∈ t.members, m.Spelled

section

variable {σ : Type}

@[simp] theorem Member.spelled_property (p : Property σ) : (Member.property p).Spelled := by
  simp [Member.Spelled]

@[simp] theorem Member.spelled_association (a : Association σ) : (Member.association a).Spelled := by
  simp [Member.Spelled]

@[simp] theorem Member.spelled_composition (c : Composition σ) : (Member.composition c).Spelled := by
  simp [Member.Spelled]

@[simp] theorem Member.spelled_invariant {v : Invariant σ} :
    (Member.invariant v).Spelled ↔ v.constraint.Spelled := by
  simp [Member.Spelled]

@[simp] theorem Declaration.spelled_type {t : TypeDecl σ} :
    (Declaration.type t).Spelled ↔ ∀ m ∈ t.members, m.Spelled := by
  simp [Declaration.Spelled]

@[simp] theorem Declaration.spelled_datatype (d : DatatypeDecl σ) : (Declaration.datatype d).Spelled := by
  simp [Declaration.Spelled]

end

theorem Expr.Spelled.withPlace {σ : Type} (q : σ) {e : Expr σ} (h : e.Spelled) :
    (e.withPlace q).Spelled := by
  cases h with
  | atom h =>
    cases h with
    | integer n _ => exact .atom (.integer n q)
    | float _ hx => exact .atom (.float q hx)
    | string s _ => exact .atom (.string s q)
    | regex _ hs => exact .atom (.regex q hs)
    | true_ _ => exact .atom (.true_ q)
    | false_ _ => exact .atom (.false_ q)
    | nil _ => exact .atom (.nil q)
    | dollar _ hn => exact .atom (.dollar q hn)
    | property _ hn hk => exact .atom (.property q hn hk)
    | relation _ hn hk => exact .atom (.relation q hn hk)
    | datatype k _ => exact .atom (.datatype k q)
  | negative n _ => exact .negative n q
  | list _ hes => exact .list q hes
  | unary op _ he => exact .unary op q he
  | binary op _ hl hr => exact .binary op q hl hr
  | member _ he hn => exact .member q he hn
  | index _ he hes => exact .index q he hes
  | ternary _ hc ht he => exact .ternary q hc ht he
  | pipeline _ hs hf hargs hparams hbody => exact .pipeline q hs hf hargs hparams hbody

/-! ## Names -/

namespace SpelledOut

variable {items : Items} {i : Nat}

theorem isRun_withoutDollars (hs : SpelledOut items) (hk : kindAt items i = .varWord) :
    IsRun (Rule.withoutDollars (itemAt items i).text).toList := by
  obtain ⟨run, hrun, htext⟩ := hs.dollar i hk
  rwa [Rule.withoutDollars, htext, String.toList_ofList, hrun.dropWhile_dollar]

theorem hasAliasShape_memberName (hs : SpelledOut items) (hk : Rule.isMemberName (kindAt items i) = true) :
    hasAliasShape (itemAt items i).text.toList = true := by
  have hkeyword (w : Keyword) : hasAliasShape w.text.toList = true := by cases w <;> decide
  cases h : kindAt items i with
  | keyword w =>
    rw [(hs.tokens i).keyword w h]
    exact hkeyword w
  | upperWord | lowerWord => exact (hs.word i (by rw [kind_itemAt, h]; rfl)).1
  | _ =>
    rw [h] at hk
    cases hk

end SpelledOut

/-! ## Values of literals -/

namespace Binary64

theorem lt_of_decimalMagnitude? {c m : Nat} {e : Int} (h : decimalMagnitude? c e = some m) :
    m < infiniteMagnitude := by
  unfold decimalMagnitude? at h
  dsimp only at h
  split at h
  · obtain rfl : 0 = m := Option.some.inj h
    decide
  split at h
  · cases h
  · generalize (if 0 ≤ e then _ else _) = nearest at h
    by_cases hlt : nearest < infiniteMagnitude
    · rw [if_pos hlt] at h
      exact Option.some.inj h ▸ hlt
    · rw [if_neg hlt] at h
      cases h

/-- A decimal without a sign is read as a float without one. -/
theorem isNegative_of_ofDecimal? {d : Decimal} {x : Binary64} (hd : d.negative = false)
    (h : ofDecimal? d = some x) : x.isNegative = false := by
  obtain ⟨m, hm, rfl⟩ := Option.map_eq_some_iff.1 h
  have hlt := lt_of_decimalMagnitude? hm
  have hsign : infiniteMagnitude ≤ signBit := by decide
  have hsize : signBit < UInt64.size := by decide
  rw [hd, if_neg Bool.false_ne_true, isNegative, UInt64.toNat_ofNat_of_lt' (by omega),
    decide_eq_false_iff_not]
  omega

end Binary64

theorem Decimal.negative_of_read? {negative : Bool} {cs : List Char} {d : Decimal}
    (h : Decimal.read? negative cs = some d) : d.negative = negative := by
  unfold Decimal.read? at h
  dsimp only at h
  split at h
  · cases h
  · obtain ⟨e, -, rfl⟩ := Option.map_eq_some_iff.1 h
    rfl

namespace Rule

variable {items : Items} {i : Nat}

theorem hereditary_spelled (hs : SpelledOut items) : Expr.Hereditary items Expr.Spelled where
  integer v p := by
    cases v with
    | ofNat n => exact .atom (.integer n p)
    | negSucc n => exact .negative n p
  float i x p hx := by
    obtain ⟨d, hd, hx⟩ := Option.bind_eq_some_iff.1 hx
    exact .atom (.float p (Binary64.isNegative_of_ofDecimal? (Decimal.negative_of_read? hd) hx))
  string s p := .atom (.string s p)
  regex i p hk := by
    obtain ⟨body, hbody, htext⟩ := hs.regex i hk
    have hvalue : escapeSlashes (regexValue (itemAt items i).text).toList = body := by
      rw [htext, regexValue, String.toList_ofList, String.toList_ofList, betweenSlashes_regexText,
        hbody.literal.escapeSlashes_unescapeSlashes]
    exact .atom (.regex p (hvalue ▸ hbody))
  boolean b p := by
    cases b with
    | true => exact .atom (.true_ p)
    | false => exact .atom (.false_ p)
  nil p := .atom (.nil p)
  dollar i p hk := .atom (.dollar p (hs.isRun_withoutDollars hk))
  property i p hk := by
    obtain ⟨hshape, hkind⟩ := hs.word i (by rw [kind_itemAt, hk]; rfl)
    exact .atom (.property p hshape (hkind.trans (kind_itemAt.trans hk)))
  relation i p hk := by
    obtain ⟨hshape, hkind⟩ := hs.word i (by rw [kind_itemAt, hk]; rfl)
    exact .atom (.relation p hshape (hkind.trans (kind_itemAt.trans hk)))
  datatype kind p := .atom (.datatype kind p)
  list _ p hes := .list p hes
  unary op _ p he := .unary op p he
  binary op _ _ p hl hr := .binary op p hl hr
  member _ _ p he hk := .member p he (hs.hasAliasShape_memberName hk)
  index _ _ p he hes := .index p he hes
  ternary _ _ _ p hc ht he := .ternary p hc ht he
  pipeline _ i _ params _ p hsubject hk hargs hparams hbody := by
    refine .pipeline p hsubject (hs.word i (by rw [kind_itemAt]; exact hk)).1 hargs (fun ps hps => ?_) hbody
    refine ⟨(hparams ps hps).1, fun q hq => ?_⟩
    obtain ⟨j, hj, rfl⟩ := (hparams ps hps).2 q hq
    exact hs.isRun_withoutDollars hj
  withPlace _ p he := he.withPlace p

theorem ensures_spelled_expression (hs : SpelledOut items) :
    expression.Ensures items i fun e _ => e.Spelled :=
  ensures_hereditary_expression (hereditary_spelled hs)

/-! ## Members and declarations -/

theorem ensures_spelled_typeMember (hs : SpelledOut items) :
    typeMember.Ensures items i fun m _ => m.Spelled := by
  have hinvariant : invariant.Ensures items i fun v _ => (Member.invariant v).Spelled := by
    simp only [invariant, ensures_bind, ensures_position, ensures_take, ensures_expect]
    refine fun _ => (ensures_spelled_expression hs).imp fun e j hspelled => ?_
    simp only [ensures_extentFrom, ensures_pure]
    exact Member.spelled_invariant.2 hspelled
  exact ensures_typeMember_of (fun _ => ensures_of_forall fun a _ => Member.spelled_association a)
    (fun _ => ensures_of_forall fun c _ => Member.spelled_composition c) hinvariant
    fun _ => ensures_of_forall fun p _ => Member.spelled_property p

theorem ensures_spelled_declaration (hs : SpelledOut items) :
    declaration.Ensures items i fun d _ => d.Spelled := by
  refine ensures_declaration_of (ensures_of_forall fun modifier j => ensures_of_forall fun name k => ?_)
  refine ⟨ensures_of_forall fun b l => Declaration.spelled_datatype _, ensures_of_forall fun ps l => ?_⟩
  exact (ensures_forall_typeBody fun _ => ensures_spelled_typeMember hs).imp
    fun ms m hms => Declaration.spelled_type.2 hms

theorem ensures_spelled_entry (hs : SpelledOut items) :
    entry.Ensures items i fun e _ => ∀ d, e = Entry.declaration d → d.Spelled := by
  refine ensures_entry_of (fun _ => ensures_of_forall fun d j => by simp) fun _ => ?_
  exact (ensures_spelled_declaration hs).imp fun d j hd => by simpa using hd

end Rule

/-! ## Units -/

section

variable {items : Items} {i : Nat}

theorem spelled_unitBody (hs : SpelledOut items) {n : Nat} {aliases : AliasTable} {declared : Bool} :
    ∀ d ∈ (unitBody items n aliases declared i).declarations, d.Spelled :=
  fun d hd => (forall_mem_unitBody fun _ => Rule.ensures_spelled_entry hs).2 d hd d rfl

/-- Whatever is wrong with the items, the expressions of the unit are spelled. -/
theorem spelled_of_mem_declarations (hs : SpelledOut items) :
    ∀ d ∈ (readUnit items).1.declarations, d.Spelled :=
  spelled_unitBody hs

end

end SchemaLang
