import SchemaLang.Proofs.Numerals.Lengths
import SchemaLang.Proofs.Reported

/-!
# What rules complain about

* `Problem.OfRule items p`: a rule may report the problem `p`. A number is rejected where it stands, for what
  its own conversion makes of its text: the one for lengths where a length stands, and the one for numbers with a
  sign elsewhere. An import is not compared with others: that is left to the body of a unit.
* `Rule.Meets r items i`: from item `i` on, `r` reports such problems only.
* `Rule.Tracks r items i Q`: besides, `Q` holds of what `r` reads and of the item where it goes on.
* `Rule.EndsInDatatype` and `Rule.EndsInConstraint`: that item stands in a datatype, or outside of any.

Each rule has a lemma on `Meets`; steps and sequences are opened by the lemmas on `Rule.Reports`. A rule for
numbers meets such problems only where it belongs. So the rules around it have lemmas on `Tracks`: one for bounds
starts and ends in brackets behind the same item, one for datatypes starts and ends in a datatype, and one for
expressions in a constraint. Their sequences are opened by the lemmas on `Rule.Runs`.

Main statements: `meets_header` and `meets_entry`.
-/

set_option autoImplicit false

namespace SchemaLang

/-- The literal of a problem is the text of its item, behind the minus that was read with it. -/
def Problem.OfRule (items : Items) (p : Problem Extent) : Prop :=
  match p.cause with
  | .invalidInteger literal => ∃ k, p.place = .single k ∧ kindAt items k = .integerLit ∧
      if IsLength items k then
        literal = (itemAt items k).text ∧ readNat? wordLimit (itemAt items k).text.toList = none
      else ∃ negative, literal = (if negative then "-" else "") ++ (itemAt items k).text ∧
        readInt? negative (itemAt items k).text.toList = none
  | .invalidFloat literal => ∃ k negative, p.place = .single k ∧
      Rule.isNumber (kindAt items k) = true ∧
        literal = (if negative then "-" else "") ++ (itemAt items k).text ∧
          (Decimal.read? negative (itemAt items k).text.toList).bind Binary64.ofDecimal? = none
  | .derivedAliasReserved .. | .duplicateAlias .. | .importAfterDeclaration _ => False
  | _ => True

namespace Rule

variable {α β : Type} {items : Items} {i : Nat}

abbrev Meets (r : Rule α) (items : Items) (i : Nat) : Prop := r.Reports (Problem.OfRule items) items i

abbrev Tracks (r : Rule α) (items : Items) (i : Nat) (Q : α → Nat → Prop) : Prop :=
  r.Runs (Problem.OfRule items) items i Q

abbrev EndsInDatatype (r : Rule α) (items : Items) (i : Nat) : Prop :=
  r.Tracks items i fun _ j => inDatatype items j = true

abbrev EndsInConstraint (r : Rule α) (items : Items) (i : Nat) : Prop :=
  r.Tracks items i fun _ j => inDatatype items j = false

/-! ## Steps -/

@[simp] theorem meets_expect {kind : TokenKind} : (expect kind).Meets items i := by
  simp [expect, Problem.OfRule]

@[simp] theorem meets_expectName {allowed : TokenKind → Bool} {what : Expected} :
    (expectName allowed what).Meets items i := by
  simp [expectName, Problem.OfRule]

@[simp] theorem meets_close {closer : Symbol} {opened : Nat} {what : Enclosure} :
    (close closer opened what).Meets items i := by
  simp [close, Problem.OfRule]

theorem meets_block {entry : Rule α} {what : Enclosure} {opened n : Nat}
    (h : ∀ i, entry.Meets items i) : (block entry what opened n).Meets items i := by
  induction n generalizing i with
  | zero => simp [Meets, Reports, block, Problem.OfRule]
  | succ n ih =>
    unfold Meets Reports block
    split
    · simp
    · split
      · simp [Problem.OfRule]
      · have hentry := h i
        unfold Meets Reports at hentry
        generalize entry items i = reply at hentry
        obtain ⟨v, j, ps⟩ := reply
        cases v with
        | some a => exact List.forall_mem_append.2 ⟨hentry, ih⟩
        | none => exact List.forall_mem_append.2 ⟨hentry, ih⟩

/-! ## References -/

theorem meets_typeRef : typeRef.Meets items i := by
  have hqualifier : qualifier.Meets items i := by
    simp [qualifier, Problem.OfRule]
  simp [typeRef, hqualifier, Problem.OfRule]

/-- A reference is two words with a point between them, or one word. -/
theorem endsInDatatype_typeRef (h : inDatatype items i = true) : typeRef.EndsInDatatype items i := by
  have word {p : TokenKind → Bool} (hp : p (.symbol .bang) = false) {k : Nat}
      (hk : inDatatype items k = true) (hword : p (kindAt items k) = true) :
      inDatatype items (k + 1) = true := inDatatype_succ (TokenKind.ne_of_allowed hword hp) hk
  refine ⟨meets_typeRef, ?_⟩
  simp only [typeRef, qualifier, ensures_bind, ensures_position, ensures_peekKind, ensures_peekSecond,
    ensures_ite, ensures_takeName, ensures_take, ensures_pure, ensures_report, ensures_expectName,
    ensures_extentFrom, ensures_reject]
  constructor
  · rintro ⟨hdot, hk⟩
    have hname := word (p := fun k => k.isWord || k.isKeyword) rfl h hk
    have hbehind : inDatatype items (i + 1 + 1) = true := inDatatype_succ (by simp [hdot]) hname
    exact ⟨fun _ => word rfl hbehind, fun _ => word rfl hbehind⟩
  · intro _
    exact ⟨fun hk => inDatatype_succ (by simp [hk]) h, fun _ => trivial⟩

/-! ## Numbers -/

theorem tracks_integerValue {negative : Bool} (h : kindAt items i = .integerLit)
    (hl : ¬ IsLength items i) : (integerValue negative).Tracks items i fun _ j => j = i + 1 := by
  rw [integerValue_eq]
  refine runs_literalValue.2 ⟨fun hnone => ⟨i, rfl, h, ?_⟩, fun _ _ => rfl⟩
  rw [if_neg hl]
  exact ⟨negative, rfl, hnone⟩

theorem tracks_floatValue {negative : Bool} (h : isNumber (kindAt items i) = true) :
    (floatValue negative).Tracks items i fun _ j => j = i + 1 := by
  rw [floatValue_eq]
  exact runs_literalValue.2 ⟨fun hnone => ⟨i, negative, rfl, h, rfl, hnone⟩, fun _ _ => rfl⟩

theorem tracks_lengthValue (h : kindAt items i = .integerLit) (hl : IsLength items i) :
    lengthValue.Tracks items i fun _ j => j = i + 1 := by
  rw [lengthValue_eq]
  refine runs_literalValue.2 ⟨fun hnone => ⟨i, rfl, h, ?_⟩, fun _ _ => rfl⟩
  rw [if_pos hl]
  exact ⟨rfl, hnone⟩

/-! ## Bounds -/

section

variable {o : TokenKind}

theorem tracks_signedBound {isValue : TokenKind → Bool} {value : Bool → Rule α}
    {missing wanted : Expected}
    (hv : ∀ negative j, InBounds items o j → isValue (kindAt items j) = true →
      (value negative).Tracks items j fun _ k => InBounds items o k)
    (h : InBounds items o i) :
    (signedBound isValue value missing wanted).Tracks items i fun _ j => InBounds items o j := by
  have hsign (hk : isSign (kindAt items i) = true) : InBounds items o (i + 1) :=
    h.succ_of_allowed hk rfl rfl rfl
  simp +contextual [signedBound, Problem.OfRule, hv, h, hsign, h.succ]

theorem tracks_integerBound (h : InBounds items (.builtin .integer) i) :
    integerBound.Tracks items i fun _ j => InBounds items (.builtin .integer) j := by
  rw [integerBound_eq]
  refine tracks_signedBound (fun negative j hj hk => ?_) h
  have hlength : ¬ IsLength items j := hj.not_isLength (by simp) (by simp)
  refine (tracks_integerValue (beq_iff_eq.1 hk) hlength).imp ?_
  rintro v _ rfl
  exact hj.succ_of_allowed (p := (· == .integerLit)) hk rfl rfl rfl

theorem tracks_floatBound (h : InBounds items o i) :
    floatBound.Tracks items i fun _ j => InBounds items o j := by
  rw [floatBound_eq]
  refine tracks_signedBound (fun negative j hj hk => (tracks_floatValue hk).imp ?_) h
  rintro v _ rfl
  exact hj.succ_of_allowed hk rfl rfl rfl

theorem tracks_lengthBound (ho : o = .builtin .string ∨ o = .symbol .gt) (h : InBounds items o i) :
    lengthBound.Tracks items i fun _ j => InBounds items o j := by
  have hlength : IsLength items i := by
    rcases ho with rfl | rfl
    · exact .inl h
    · exact .inr h
  have hvalue (hk : kindAt items i = .integerLit) :
      lengthValue.Tracks items i fun _ j => InBounds items o j := by
    refine (tracks_lengthValue hk hlength).imp ?_
    rintro v _ rfl
    exact h.succ (by simp [hk]) (by simp [hk]) (by simp [hk])
  simp +contextual [lengthBound, Problem.OfRule, hvalue, h.succ]

/-- The bounds stand in brackets behind the item before them. -/
theorem endsInDatatype_optionalBounds {bound : Rule (Bound α)} {less : α → α → Bool}
    {write : α → String}
    (hb : ∀ j, InBounds items (kindAt items i) j →
      bound.Tracks items j fun _ k => InBounds items (kindAt items i) k)
    (h : inDatatype items (i + 1) = true) :
    (optionalBounds bound less write).EndsInDatatype items (i + 1) := by
  simp only [optionalBounds, runs_bind, runs_ite, runs_iff_ensures, reports_peekKind, reports_position,
    reports_take, reports_pure, reports_bind, reports_ite, reports_report, reports_extentFrom, meets_expect,
    meets_close, ensures_peekKind, ensures_position, ensures_take, ensures_pure, ensures_bind, ensures_ite,
    ensures_report, ensures_extentFrom, ensures_expect, ensures_close, ensures_true, Problem.OfRule, h,
    implies_true, and_true]
  intro hopen
  apply (hb _ (.of_bracket h hopen)).imp
  intro min j hmin hcomma
  have hbehind : InBounds items (kindAt items i) (j + 1) :=
    hmin.succ (by simp [hcomma]) (by simp [hcomma]) (by simp [hcomma])
  apply (hb _ hbehind).imp
  intro max k hmax hclose
  have hend : inDatatype items (k + 1) = true := inDatatype_succ (by simp [hclose]) hmax.datatype
  exact ⟨fun _ => hend, fun _ => hend⟩

end

/-! ## Datatypes -/

theorem endsInDatatype_enumValues {opened n : Nat} (h : inDatatype items i = true) :
    (enumValues opened n).EndsInDatatype items i := by
  induction n generalizing i with
  | zero => simp [enumValues, Problem.OfRule]
  | succ n ih => simp +contextual [enumValues, inDatatype_succ_eq, TokenKind.isBuiltin, h, ih]

theorem endsInDatatype_enum {keyword : Nat} (h : inDatatype items i = true) :
    (enum keyword).EndsInDatatype items i := by
  simp only [enum, runs_bind, runs_ite, runs_iff_ensures, reports_position, reports_remaining, meets_expect,
    ensures_expect, ensures_position, ensures_remaining]
  intro hopen
  have hbehind : inDatatype items (i + 1) = true := inDatatype_succ (by simp [hopen]) h
  apply (endsInDatatype_enumValues hbehind).imp
  intro values j hj
  simp [Problem.OfRule, hj]

theorem endsInDatatype_pattern (h : inDatatype items i = true) : pattern.EndsInDatatype items i := by
  simp +contextual [pattern, patternText, Problem.OfRule, inDatatype_succ_eq, TokenKind.isBuiltin, h]

theorem endsInDatatype_timestamp (h : inDatatype items i = true) : timestamp.EndsInDatatype items i := by
  simp +contextual [timestamp, inDatatype_succ_eq, TokenKind.isBuiltin, h]

theorem endsInDatatype_vector (h : inDatatype items i = true) : vector.EndsInDatatype items i := by
  simp only [vector, runs_bind, runs_iff_ensures, reports_position, meets_expect, ensures_expect,
    ensures_position]
  intro hopen hvalue
  split <;> simp +contextual [Problem.OfRule, inDatatype_succ_eq, TokenKind.isBuiltin, h, hopen, hvalue]

section

variable {element : Rule (DatatypeRef Extent)}
  (he : ∀ i, inDatatype items i = true → element.EndsInDatatype items i)

include he

/-- The bounds of a list stand behind the bracket that closes its element. -/
theorem endsInDatatype_listType (h : inDatatype items i = true) :
    (listType element).EndsInDatatype items i := by
  simp only [listType, runs_bind, runs_iff_ensures, reports_position, meets_expect, meets_close,
    ensures_expect, ensures_position, ensures_close]
  intro hopen
  apply (he _ (inDatatype_succ (by simp [hopen]) h)).imp
  intro e j hj hclose
  have hbehind : inDatatype items (j + 1) = true := inDatatype_succ (by simp [hclose]) hj
  have hbounds :
      (optionalBounds lengthBound (fun a b => decide (a < b)) toString).EndsInDatatype items (j + 1) :=
    endsInDatatype_optionalBounds (fun k hk => tracks_lengthBound (.inr hclose) hk) hbehind
  exact hbounds.imp fun bounds k hk => by simpa using hk

variable {kind : BuiltinKind} (hk : kindAt items i = .builtin kind) (h : inDatatype items (i + 1) = true)

include hk h

theorem endsInDatatype_builtinParameters {keyword : Nat} :
    (builtinParameters element keyword kind).EndsInDatatype items (i + 1) := by
  have bounded {α : Type} {bound : Rule (Bound α)} {less : α → α → Bool} {write : α → String}
      {f : Bound α × Bound α → Builtin Extent}
      (hb : ∀ j, InBounds items (.builtin kind) j →
        bound.Tracks items j fun _ k => InBounds items (.builtin kind) k) :
      (optionalBounds bound less write >>= fun b => pure (f b)).EndsInDatatype items (i + 1) := by
    rw [← hk] at hb
    exact runs_bind.2 ((endsInDatatype_optionalBounds hb h).imp fun b j hj => by simpa using hj)
  cases kind with
  | integer => exact bounded fun j hj => tracks_integerBound hj
  | float => exact bounded fun j hj => tracks_floatBound hj
  | string => exact bounded fun j hj => tracks_lengthBound (.inl rfl) hj
  | boolean | date | uuid => simp [builtinParameters, h]
  | enum => exact endsInDatatype_enum h
  | pattern => exact endsInDatatype_pattern h
  | timestamp => exact endsInDatatype_timestamp h
  | vector => exact endsInDatatype_vector h
  | list => exact endsInDatatype_listType he h

theorem endsInDatatype_builtinOf : (builtinOf element kind).EndsInDatatype items i := by
  have hparameters : (builtinParameters element i kind).EndsInDatatype items (i + 1) :=
    endsInDatatype_builtinParameters he hk h
  simpa [builtinOf] using hparameters

end

/-- A keyword starts a datatype or stands in one. A reference goes on with the datatype it stands in, if any. -/
theorem tracks_datatypeRefWithin {n : Nat}
    (h : (kindAt items i).isBuiltin = true → inDatatype items (i + 1) = true) :
    (datatypeRefWithin n).Tracks items i fun _ j => inDatatype items i = true → inDatatype items j = true := by
  induction n generalizing i with
  | zero => simp [datatypeRefWithin, Problem.OfRule]
  | succ n ih =>
    -- elements stand in the datatype of their list, so their keywords need not start one
    have helement (j : Nat) (hj : inDatatype items j = true) :
        (datatypeRefWithin n).EndsInDatatype items j :=
      (ih fun hk => inDatatype_succ (TokenKind.ne_of_allowed hk rfl) hj).imp fun d k hk => hk hj
    have hreference :
        typeRef.Tracks items i fun _ j => inDatatype items i = true → inDatatype items j = true :=
      ⟨meets_typeRef, fun r hr hi => (endsInDatatype_typeRef hi).ensures r hr⟩
    simp only [datatypeRefWithin, runs_bind, runs_iff_ensures, reports_peekKind, ensures_peekKind]
    split
    · rename_i hk
      have hkeyword : inDatatype items (i + 1) = true := h (by rw [hk]; rfl)
      exact runs_bind.2 ((endsInDatatype_builtinOf helement hk hkeyword).imp fun b j hj => by simp [hj])
    · simpa using hreference
    · simpa [Problem.OfRule] using fun _ => hreference
    · simp [Problem.OfRule]

theorem meets_datatypeRef (h : (kindAt items i).isBuiltin = true → inDatatype items (i + 1) = true) :
    datatypeRef.Meets items i := by
  simp [datatypeRef, (tracks_datatypeRefWithin h).reports]

theorem endsInDatatype_builtin {kind : BuiltinKind} (hk : kindAt items i = .builtin kind)
    (h : inDatatype items (i + 1) = true) : (builtin kind).EndsInDatatype items i := by
  have helement (j : Nat) (hj : inDatatype items j = true) : datatypeRef.EndsInDatatype items j := by
    have hkeyword (hk : (kindAt items j).isBuiltin = true) : inDatatype items (j + 1) = true :=
      inDatatype_succ (TokenKind.ne_of_allowed hk rfl) hj
    have hwithin {n : Nat} : (datatypeRefWithin n).EndsInDatatype items j :=
      (tracks_datatypeRefWithin hkeyword).imp fun d k hk => hk hj
    simpa [datatypeRef] using hwithin
  exact endsInDatatype_builtinOf helement hk h

/-! ## Expressions -/

/-- Entries behind commas stay in the constraint if each entry does. -/
theorem endsInConstraint_further {ends : TokenKind → Prop} [DecidablePred ends] {entry : Rule α}
    (he : ∀ j, kindAt items j = .symbol .comma → inDatatype items (j + 1) = false →
      entry.EndsInConstraint items (j + 1))
    {n : Nat} (h : inDatatype items i = false) : (further ends entry n).EndsInConstraint items i := by
  apply runs_further _ _ h
  · intro j hj hk
    exact not_inDatatype_succ_of_symbol hk hj
  · intro j hj hk
    exact he j hk (not_inDatatype_succ_of_symbol hk hj)

theorem endsInConstraint_optionalParams (h : inDatatype items i = false) :
    optionalParams.EndsInConstraint items i := by
  have hvar {j : Nat} (hj : inDatatype items j = false) (hk : kindAt items j = .varWord) :
      inDatatype items (j + 1) = false := not_inDatatype_succ (by rw [hk]; rfl) hj
  have hparam {j : Nat} (hj : inDatatype items j = false) : param.EndsInConstraint items j := by
    simpa [param] using hvar hj
  have hparams (hopen : kindAt items i = .symbol .pipe) (hfirst : kindAt items (i + 1) = .varWord)
      {n : Nat} : (further (fun _ => False) param n).Tracks items (i + 1 + 1) fun _ j =>
        kindAt items j = .symbol .pipe → inDatatype items (j + 1) = false := by
    have hbehind := hvar (not_inDatatype_succ_of_symbol hopen h) hfirst
    apply (endsInConstraint_further (fun j _ hj => hparam hj) hbehind).imp
    intro ps j hj hclose
    exact not_inDatatype_succ_of_symbol hclose hj
  simpa [optionalParams, params, furtherParams_eq, h] using fun hopen hfirst => hparams hopen hfirst

/-- A member is not named by the keyword of a datatype. -/
theorem endsInConstraint_member {object : Expr Extent} (h : inDatatype items i = false) :
    (member object).EndsInConstraint items i := by
  have hname (hk : isMemberName (kindAt items i) = true) : inDatatype items (i + 1) = false :=
    not_inDatatype_succ (TokenKind.isBuiltin_of_allowed hk fun _ => rfl) h
  simpa [member] using hname

section

-- The keyword of a datatype may be the first item of an expression. So what has to hold there is said of the item
-- behind it: that keyword starts no datatype, and neither does an operator or a bracket before it.
variable {expr : Within}
  (h : ∀ limit i, inDatatype items (i + 1) = false → (expr limit).EndsInConstraint items i)

include h

theorem endsInConstraint_elements {closer : Symbol} {opened : Nat} {what : Enclosure}
    (hi : inDatatype items (i + 1) = false) :
    (elements expr closer opened what).EndsInConstraint items i := by
  have hentry (j : Nat) (hk : kindAt items j = .symbol .comma) (hj : inDatatype items (j + 1) = false) :
      (expr .lowest).EndsInConstraint items (j + 1) :=
    h _ _ (not_inDatatype_behind_symbol hk (by decide) hj)
  simp only [elements, furtherElements_eq, runs_bind, runs_ite, runs_iff_ensures, reports_peekKind,
    ensures_peekKind, reports_take, ensures_take, reports_pure, ensures_pure, reports_remaining,
    ensures_remaining, meets_close, ensures_close]
  refine ⟨fun _ => hi, fun _ => ?_⟩
  apply (h _ i hi).imp
  intro e j hj
  apply (endsInConstraint_further hentry hj).imp
  intro es k hk hclose
  exact not_inDatatype_succ_of_symbol hclose hk

/-- An expression between two symbols. -/
theorem tracks_enclosed {opener closer : Symbol} (hopen : kindAt items i = .symbol opener)
    (ho : opener ≠ .assign) (hi : inDatatype items (i + 1) = false) :
    (expr .lowest).Tracks items (i + 1) fun _ j =>
      kindAt items j = .symbol closer → inDatatype items (j + 1) = false := by
  have hbehind := not_inDatatype_behind_symbol hopen ho hi
  apply (h _ _ hbehind).imp
  intro e j hj hclose
  exact not_inDatatype_succ_of_symbol hclose hj

theorem endsInConstraint_branch (hi : inDatatype items i = false) :
    (branch expr).EndsInConstraint items i := by
  have henclosed (hopen : kindAt items i = .symbol .lBrace) :
      (expr .lowest).Tracks items (i + 1) fun _ j =>
        kindAt items j = .symbol .rBrace → inDatatype items (j + 1) = false :=
    tracks_enclosed h hopen (by decide) (not_inDatatype_succ_of_symbol hopen hi)
  simpa [branch] using henclosed

theorem endsInConstraint_ternary {condition : Expr Extent} (hi : inDatatype items i = false) :
    (ternary expr condition).EndsInConstraint items i := by
  have hbranches : (branch expr).Tracks items i fun _ j =>
      kindAt items j = .symbol .colon → (branch expr).EndsInConstraint items (j + 1) := by
    apply (endsInConstraint_branch h hi).imp
    intro yes j hj hcolon
    exact endsInConstraint_branch h (not_inDatatype_succ_of_symbol hcolon hj)
  simpa [ternary] using hbranches

theorem endsInConstraint_index {object : Expr Extent} {opened : Nat} (hi : inDatatype items (i + 1) = false) :
    (index expr object opened).EndsInConstraint items i := by
  rw [index, EndsInConstraint, Tracks, runs_bind]
  apply (endsInConstraint_elements h hi).imp
  intro es j hj
  simp [Problem.OfRule, hj]

theorem endsInConstraint_optionalArguments (hi : inDatatype items i = false) :
    (optionalArguments expr).EndsInConstraint items i := by
  have harguments (hopen : kindAt items i = .symbol .lParen) :
      (elements expr .rParen i .arguments).EndsInConstraint items (i + 1) := by
    have hbehind := not_inDatatype_succ_of_symbol hopen hi
    exact endsInConstraint_elements h (not_inDatatype_behind_symbol hopen (by decide) hbehind)
  simpa [optionalArguments, hi] using harguments

theorem endsInConstraint_pipeline {subject : Expr Extent} (hi : inDatatype items i = false) :
    (pipeline expr subject).EndsInConstraint items i := by
  have hbody {j : Nat} (hj : inDatatype items j = false) : (optionalBranch expr).EndsInConstraint items j := by
    simpa [optionalBranch, hj] using fun _ => endsInConstraint_branch h hj
  have hrest (hname : isFunctionName (kindAt items i) = true) :
      (optionalArguments expr).Tracks items (i + 1) fun _ j => optionalParams.Tracks items j fun _ k =>
        (optionalBranch expr).EndsInConstraint items k := by
    have hbehind := not_inDatatype_succ (TokenKind.isBuiltin_of_allowed hname fun _ => rfl) hi
    apply (endsInConstraint_optionalArguments h hbehind).imp
    intro args j hj
    apply (endsInConstraint_optionalParams hj).imp
    intro ps k hk
    exact hbody hk
  simpa [pipeline] using hrest

theorem endsInConstraint_operatorTail {left : Expr Extent}
    (hoperator : leftPrecedence (kindAt items i) ≠ .lowest) (hi : inDatatype items i = false) :
    (operatorTail expr left).EndsInConstraint items i := by
  obtain ⟨hkeyword, hintroduces⟩ := TokenKind.starts_no_datatype_of_operator hoperator
  have hnext := not_inDatatype_succ hkeyword hi
  have hbehind := not_inDatatype_behind hintroduces hnext
  simp only [operatorTail, runs_bind, runs_iff_ensures, reports_position, reports_take,
    ensures_position, ensures_take]
  split
  · exact endsInConstraint_ternary h hnext
  · exact endsInConstraint_member hnext
  · exact endsInConstraint_index h hbehind
  · exact endsInConstraint_pipeline h hnext
  · split
    · simpa using h _ _ hbehind
    · simpa using hnext

theorem endsInConstraint_operators {limit : Precedence} {n : Nat} {left : Expr Extent}
    (hi : inDatatype items i = false) : (operators expr limit n left).EndsInConstraint items i := by
  induction n generalizing i left with
  | zero => simpa [operators] using hi
  | succ n ih =>
    have htail (hlt : limit < leftPrecedence (kindAt items i)) :
        (operatorTail expr left).Tracks items i fun e j =>
          (operators expr limit n e).EndsInConstraint items j := by
      have hoperator : leftPrecedence (kindAt items i) ≠ .lowest := by
        intro hk
        rw [hk] at hlt
        exact Nat.not_lt_zero _ hlt
      apply (endsInConstraint_operatorTail h hoperator hi).imp
      intro e j hj
      exact ih hj
    simpa [operators, hi] using htail

theorem endsInConstraint_unary {op : UnaryOp} {s : Symbol} (hk : kindAt items i = .symbol s)
    (hs : s ≠ .assign) (hi : inDatatype items (i + 1) = false) :
    (unary expr op).EndsInConstraint items i := by
  have hbehind := not_inDatatype_behind_symbol hk hs hi
  have hnumber (hk : kindAt items (i + 1) = .integerLit) :
      (negativeInteger expr i).EndsInConstraint items (i + 1) := by
    refine runs_bind.2 ((tracks_integerValue hk (not_isLength_of_not_inDatatype hi)).imp ?_)
    rintro v _ rfl
    simpa using endsInConstraint_operators h hbehind
  simp only [unary, runs_bind, runs_ite, runs_iff_ensures, reports_position, ensures_position, reports_take,
    ensures_take, reports_peekKind, ensures_peekKind, reports_extentFrom, ensures_extentFrom, reports_pure,
    ensures_pure]
  exact ⟨fun hk => hnumber hk.2, fun _ => h _ _ hbehind⟩

theorem endsInConstraint_operand (hi : inDatatype items (i + 1) = false) :
    (operand expr).EndsInConstraint items i := by
  simp only [operand, runs_bind, runs_iff_ensures, reports_position, ensures_position, reports_peek,
    ensures_peek]
  split
  case h_1 hk =>
    have hlength : ¬ IsLength items i :=
      not_isLength_of_not_inDatatype (not_inDatatype_of_succ (by simp [kindAt, hk]) hi)
    exact runs_bind.2 ((tracks_integerValue hk hlength).imp fun v j hj => by simp [hj, hi])
  case h_2 hk =>
    have hnumber : isNumber (kindAt items i) = true := congrArg isNumber hk
    exact runs_bind.2 ((tracks_floatValue hnumber).imp fun v j hj => by simp [hj, hi])
  case h_3 | h_4 | h_5 | h_6 | h_7 | h_8 => simp [literal, hi]
  case h_9 | h_10 | h_11 | h_12 => simp [hi]
  case h_13 hk | h_14 hk => exact endsInConstraint_unary h hk (by decide) hi
  case h_15 hk =>
    have henclosed : (expr .lowest).Tracks items (i + 1) fun _ j =>
        kindAt items j = .symbol .rParen → inDatatype items (j + 1) = false :=
      tracks_enclosed h hk (by decide) hi
    simpa [grouped] using henclosed
  case h_16 hk =>
    have helements : (elements expr .rBracket i .list).EndsInConstraint items (i + 1) :=
      endsInConstraint_elements h (not_inDatatype_behind_symbol hk (by decide) hi)
    simpa [list] using helements
  case h_17 => simp [Problem.OfRule]

end

theorem meets_expression (h : inDatatype items (i + 1) = false) : expression.Meets items i := by
  have within (n : Nat) (limit : Precedence) (j : Nat) (hj : inDatatype items (j + 1) = false) :
      (expressionWithin n limit).EndsInConstraint items j := by
    induction n generalizing limit j with
    | zero => simp [expressionWithin, Problem.OfRule]
    | succ n ih =>
      have hoperand : (operand (expressionWithin n)).Tracks items j fun left k =>
          ∀ m, (operators (expressionWithin n) limit m left).EndsInConstraint items k := by
        apply (endsInConstraint_operand ih hj).imp
        intro left k hk m
        exact endsInConstraint_operators ih hk
      exact runs_bind.2 (hoperand.imp fun left k hk => by simpa using hk _)
  simp [expression, (within _ _ _ h).reports]

/-! ## Members -/

/-- The datatype of a property stands behind its name. -/
theorem meets_property (h : (kindAt items i).namesProperty = true) : property.Meets items i := by
  have hdatatype : datatypeRef.Meets items (i + 1) :=
    meets_datatypeRef fun hk => inDatatype_of_keyword (by simp [TokenKind.introducesDatatype, h]) hk
  have hmodifier (j : Nat) : propertyModifier.Meets items j := by
    simp only [propertyModifier, reports_bind, reports_peekKind, ensures_peekKind, true_and]
    split <;> simp
  simp [property, hdatatype, hmodifier]

theorem meets_multiplicity : multiplicity.Meets items i := by
  have hcardinality (j : Nat) : cardinality.Meets items j := by
    simp only [cardinality, reports_bind, reports_peekKind, ensures_peekKind,
      reports_ite, reports_take, ensures_take, reports_pure, true_and, implies_true,
      and_true]
    intro _
    split <;> simp [Problem.OfRule]
  have hform (j : Nat) : multiplicityForm.Meets items j := by
    simp only [multiplicityForm, reports_bind, reports_peekKind, ensures_peekKind, true_and]
    split <;> simp [hcardinality, Problem.OfRule]
  simp [multiplicity, hform, Problem.OfRule]

theorem meets_reverseEdge : reverseEdge.Meets items i := by
  simp [reverseEdge, meets_multiplicity]

theorem meets_relationBody : relationBody.Meets items i := by
  have hentry (j : Nat) : edgeProperty.Meets items j := by
    simp +contextual [edgeProperty, meets_property, Problem.OfRule]
  simp [relationBody, meets_block hentry]

/-- A constraint stands behind its mark and its message. -/
theorem meets_invariant (h : kindAt items i = .symbol .bang) : invariant.Meets items i := by
  have hconstraint (hk : kindAt items (i + 1) = .stringLit) : expression.Meets items (i + 2) := by
    have hmessage : inDatatype items (i + 2) = false :=
      not_inDatatype_succ (by rw [hk]; rfl) (inDatatype_of_bang h)
    exact meets_expression (not_inDatatype_behind (by rw [hk]; rfl) hmessage)
  simpa [invariant] using hconstraint

theorem meets_typeMember : typeMember.Meets items i := by
  simp only [typeMember, reports_bind, reports_peekKind, ensures_peekKind, true_and]
  split
  · simp [association, meets_multiplicity, meets_typeRef, meets_reverseEdge,
      meets_relationBody]
  · simp [composition, meets_multiplicity, meets_typeRef, meets_reverseEdge,
      Problem.OfRule]
  · simp [meets_invariant ‹_›]
  · simp +contextual [meets_property, Problem.OfRule]

/-! ## Entries of units -/

theorem meets_header : header.Meets items i := by
  simp [header, Problem.OfRule]

/-- A keyword behind `as` is reported, but that is no check against other entries. -/
theorem meets_importDecl : importDecl.Meets items i := by
  simp [importDecl, aliasName, Problem.OfRule]

theorem meets_parents : parents.Meets items i := by
  simp [parents, meets_typeRef, furtherParents_eq, reports_further fun _ => meets_typeRef]

theorem meets_declaration : declaration.Meets items i := by
  have hmodifier : typeModifier.Meets items i := by
    simp only [typeModifier, reports_bind, reports_peekKind, ensures_peekKind, true_and]
    split <;> simp
  have hname (j : Nat) : declarationName.Meets items j := by
    simp [declarationName, Problem.OfRule]
  have hdatatype (j : Nat) (hassign : kindAt items j = .symbol .assign) :
      declaredDatatype.Meets items (j + 1) := by
    simp only [declaredDatatype, reports_bind, reports_peekKind, ensures_peekKind, true_and]
    split
    · rename_i hk
      have hkeyword : inDatatype items (j + 1 + 1) = true :=
        inDatatype_of_keyword (by rw [hassign]; rfl) (by rw [hk]; rfl)
      exact (endsInDatatype_builtin hk hkeyword).reports
    · simp [Problem.OfRule]
  simp only [declaration, reports_bind, reports_position, ensures_position, reports_peek,
    ensures_peek, hmodifier, true_and]
  apply ensures_of_forall
  intro modifier j
  refine ⟨hname j, ensures_of_forall fun name k => ?_⟩
  simp only [reports_peekKind, ensures_peekKind, true_and]
  split
  · simp [hdatatype _ ‹_›, Problem.OfRule]
  · simp [meets_parents, typeBody, meets_block fun _ => meets_typeMember]
  · simp [meets_parents, typeBody, meets_block fun _ => meets_typeMember]
  · simp [Problem.OfRule]

theorem meets_entry : entry.Meets items i := by
  simp only [entry, reports_bind, reports_peekKind, ensures_peekKind, true_and]
  split
  · simp [meets_importDecl]
  · simp [meets_declaration]
  · simp [meets_declaration]
  · simp [meets_declaration]
  · simp [Problem.OfRule]
  · simp [Problem.OfRule]

end Rule

end SchemaLang
