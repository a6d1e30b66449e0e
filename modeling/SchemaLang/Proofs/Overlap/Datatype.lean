import SchemaLang.Proofs.Nested.Datatype
import SchemaLang.Proofs.Overlap.Basic
import SchemaLang.Proofs.Phrase.Basic

/-!
# References and datatypes in common

Most rules for them take an item at least. Bounds may be missing; what stands for a closing brace does not
open them.
-/

set_option autoImplicit false

namespace SchemaLang.Overlap

open SchemaLang.Rule

variable {S : Overlap} {k : Nat}

/-! ## Further entries -/

theorem carries_further {α β : Type} {f : α → β} {ends : TokenKind → Prop} [DecidablePred ends]
    {entry : Rule α} {n : Nat} (hu : Unwalled ends)
    (he : S.Carries entry entry fun a a' => f a' = f a) :
    S.Carries (further ends entry n) (further ends entry n) fun as as' => as'.map f = as.map f := by
  induction n with
  | zero => exact carries_pure rfl
  | succ n ih =>
    refine carries_peekKind_ite (by simp [Unwalled]) ?_ (carries_pure rfl)
    refine carries_take_bind fun _ _ _ => carries_peekKind_ite hu (carries_pure rfl) ?_
    refine he.bind (fun _ => rfl) fun a a' ha => ih.bind (fun _ => rfl) fun as as' has => ?_
    exact carries_pure (List.cons_eq_cons.2 ⟨ha, has⟩)

/-! ## References -/

theorem carries_qualifier : S.Carries qualifier qualifier SameText := by
  refine carries_takeName.bind (fun _ => rfl) ?_
  rintro ⟨text, p⟩ ⟨_, p'⟩ rfl
  refine carries_ite (fun _ => ?_) fun _ => carries_report_bind
  exact carries_take_bind fun _ _ _ => carries_pure rfl

theorem carries_typeRef :
    S.Carries typeRef typeRef fun r r' => r'.map forget = r.map forget := by
  refine carries_of_lt (fun i => ensures_typeRef.imp fun _ _ h => h.lt) fun k hk => ?_
  refine carriesAt_position_bind fun i i' => carriesAt_peekKind_bind hk ?_
  refine carriesAt_peekSecond_bind hk fun κ κ' hκ => ?_
  have hdot := hκ.iff (p := (· = .symbol .dot)) (by simp [Unwalled])
  refine carriesAt_ite (and_congr_left' hdot) (fun _ => ?_) fun _ => ?_
  · refine (carries_qualifier k).bind (fun _ => rfl) ?_
    rintro ⟨q, p⟩ ⟨_, p'⟩ rfl
    refine carries_expectName_bind fun text p p' => carries_extentFrom_bind fun e e' => ?_
    exact carries_pure rfl
  · refine carriesAt_ite Iff.rfl (fun _ => ?_) fun _ => carries_reject k
    refine (carries_takeName k).bind (fun _ => rfl) ?_
    rintro ⟨text, p⟩ ⟨_, p'⟩ rfl
    exact carries_extentFrom_bind fun e e' => carries_pure rfl

/-! ## Numbers and bounds -/

theorem carries_literalValue {α : Type} {read? : String → Option α} {cause : String → Cause Extent} :
    S.Carries (literalValue read? cause) (literalValue read? cause) Eq := by
  have hlt (i : Nat) : (literalValue read? cause).Ensures S.left i fun _ j => i < j :=
    ensures_literalValue.2 fun _ _ => Nat.lt_succ_self i
  refine carries_of_lt hlt fun k hk => carriesAt_peek_bind hk fun t t' ht => ?_
  rw [ht.text_eq]
  split
  · exact carries_take_bind (fun _ _ _ => carries_pure rfl) k
  · exact carriesAt_position_bind fun _ _ => carries_report_bind k

theorem carries_integerValue {negative : Bool} :
    S.Carries (integerValue negative) (integerValue negative) Eq := by
  rw [integerValue_eq]
  exact carries_literalValue

theorem carries_lengthValue : S.Carries lengthValue lengthValue Eq := by
  rw [lengthValue_eq]
  exact carries_literalValue

theorem carries_floatValue {negative : Bool} :
    S.Carries (floatValue negative) (floatValue negative) Eq := by
  rw [floatValue_eq]
  exact carries_literalValue

/-- A bound is its value. -/
theorem carries_valueBound {α : Type} {value : Rule α} (h : S.Carries value value Eq) :
    S.Carries (do return Bound.value (← value)) (do return Bound.value (← value)) Eq :=
  h.bind (fun _ => rfl) fun _ _ hv => carries_pure (congrArg Bound.value hv)

theorem carries_signedBound {α : Type} {isValue : TokenKind → Bool} {value : Bool → Rule α}
    {missing wanted : Expected} (hu : Unwalled (isValue · = true))
    (hlt : ∀ negative j, (value negative).Ensures S.left j fun _ k => k = j + 1)
    (hv : ∀ negative, S.Carries (value negative) (value negative) Eq) :
    S.Carries (signedBound isValue value missing wanted) (signedBound isValue value missing wanted) Eq := by
  refine carries_of_lt (fun i => ensures_signedBound hlt) fun k hk => carriesAt_peekKind_bind hk ?_
  refine carriesAt_ite Iff.rfl (fun _ => ?_) fun _ => carriesAt_ite Iff.rfl (fun _ => ?_) fun _ =>
    carriesAt_ite Iff.rfl (fun _ => ?_) fun _ => carries_reject k
  · exact carries_take_bind (fun _ _ _ => carries_pure rfl) k
  · exact carries_valueBound (hv _) k
  · refine (carries_take k).bind Item.same_refl fun _ _ _ => ?_
    exact carries_peekKind_ite hu (carries_valueBound (hv _)) carries_rejectBehind

theorem carries_integerBound : S.Carries integerBound integerBound Eq := by
  rw [integerBound_eq]
  exact carries_signedBound (by simp [Unwalled]) (fun _ _ => ensures_integerValue)
    fun _ => carries_integerValue

theorem carries_floatBound : S.Carries floatBound floatBound Eq := by
  rw [floatBound_eq]
  exact carries_signedBound (by simp [Unwalled, isNumber]) (fun _ _ => ensures_floatValue)
    fun _ => carries_floatValue

theorem carries_lengthBound : S.Carries lengthBound lengthBound Eq := by
  refine carries_of_lt (fun i => ensures_lengthBound) fun k hk => carriesAt_peekKind_bind hk ?_
  refine carriesAt_ite Iff.rfl (fun _ => ?_) fun _ => carriesAt_ite Iff.rfl (fun _ => ?_) fun _ =>
    carries_reject k
  · exact carries_take_bind (fun _ _ _ => carries_pure rfl) k
  · exact carries_valueBound carries_lengthValue k

theorem carries_optionalBounds {α : Type} {bound : Rule (Bound α)} {less : α → α → Bool}
    {write : α → String} (hb : S.Carries bound bound Eq) :
    S.Carries (optionalBounds bound less write) (optionalBounds bound less write) Eq := by
  refine carries_peekKind_ite (by simp [Unwalled]) ?_ (carries_pure rfl)
  refine carries_position_bind fun _ _ => carries_take_bind fun _ _ _ => ?_
  refine hb.bind (fun _ => rfl) ?_
  rintro min _ rfl
  refine carries_expect_bind fun _ _ _ => hb.bind (fun _ => rfl) ?_
  rintro max _ rfl
  refine carries_close_bind (carries_ite (fun _ => ?_) fun _ => carries_pure rfl)
  exact carries_extentFrom_bind fun _ _ => carries_report_bind

/-! ## Parameters of built-in datatypes -/

theorem carries_enumValues {opened opened' n : Nat} :
    S.Carries (enumValues opened n) (enumValues opened' n) Eq := by
  induction n with
  | zero => exact carries_rejectBehind
  | succ n ih =>
    refine carries_of_lt (fun i => ensures_enumValues) fun k hk => carriesAt_peekKind_bind hk ?_
    refine carriesAt_ite Iff.rfl (fun _ => ?_) fun _ => ?_
    · exact carries_take_bind (fun _ _ _ => carries_pure rfl) k
    · refine (carries_expect k).bind Item.same_refl fun t t' ht => ?_
      dsimp only
      rw [ht.text_eq]
      refine carries_peekKind_ite (by simp [Unwalled]) ?_ ?_
      · refine carries_take_bind fun _ _ _ => ih.bind (fun _ => rfl) ?_
        rintro values _ rfl
        exact carries_pure rfl
      · exact carries_close_bind (carries_pure rfl)

/-- Built-in datatypes that only differ in their places. -/
def SameBuiltin (b b' : Builtin Extent) : Prop := b'.map forget = b.map forget

theorem carries_enum {i i' : Nat} : S.Carries (enum i) (enum i') SameBuiltin := by
  refine carries_position_bind fun _ _ => carries_expect_bind fun _ _ _ => ?_
  refine carries_remaining_bind fun n => carries_enumValues.bind (fun _ => rfl) ?_
  rintro values _ rfl
  refine carries_ite (fun _ => ?_) fun _ => carries_pure rfl
  exact carries_extentFrom_bind fun _ _ => carries_report_bind

theorem carries_patternText : S.Carries patternText patternText Eq := by
  refine carries_of_lt (fun i => ensures_patternText.imp fun _ _ h => by omega) fun k hk => ?_
  refine carriesAt_peekKind_bind hk ?_
  refine carriesAt_ite Iff.rfl (fun _ => ?_) fun _ => carriesAt_ite Iff.rfl (fun _ => ?_) fun _ =>
    carries_rejectBehind k
  · exact carries_take_bind (fun _ _ ht => carries_pure (by rw [ht.text_eq])) k
  · exact carries_take_bind (fun _ _ ht => carries_pure (by rw [ht.text_eq])) k

theorem carries_pattern : S.Carries pattern pattern SameBuiltin := by
  refine carries_position_bind fun _ _ => carries_expect_bind fun _ _ _ => ?_
  refine carries_patternText.bind (fun _ => rfl) ?_
  rintro regex _ rfl
  refine carries_peekKind_ite (by simp [Unwalled]) ?_ (carries_close_bind (carries_pure rfl))
  refine carries_take_bind fun _ _ _ => carries_expect_bind fun flags flags' hf => ?_
  rw [hf.text_eq]
  exact carries_close_bind (carries_pure rfl)

theorem carries_timestamp : S.Carries timestamp timestamp SameBuiltin := by
  refine carries_peekKind_ite (by simp [Unwalled]) ?_ (carries_pure rfl)
  refine carries_position_bind fun _ _ => carries_take_bind fun _ _ _ => ?_
  refine carries_expect_bind fun format format' hf => carries_close_bind ?_
  rw [hf.text_eq]
  exact carries_pure rfl

theorem carries_vector : S.Carries vector vector SameBuiltin := by
  refine carries_position_bind fun _ _ => carries_expect_bind fun _ _ _ => ?_
  refine carries_expect_bind fun t t' ht => ?_
  rw [ht.text_eq]
  split
  · exact carries_close_bind (carries_pure rfl)
  · exact carries_position_bind fun _ _ => carries_report_bind

/-! ## Datatypes -/

section

variable {element : Rule (DatatypeRef Extent)}
  (he : S.Carries element element fun d d' => d'.map forget = d.map forget)

include he

theorem carries_listType : S.Carries (listType element) (listType element) SameBuiltin := by
  refine carries_position_bind fun _ _ => carries_expect_bind fun _ _ _ => ?_
  refine he.bind (fun _ => rfl) fun e e' hsame => carries_close_bind ?_
  refine (carries_optionalBounds carries_lengthBound).bind (fun _ => rfl) ?_
  rintro bounds _ rfl
  exact carries_pure (by simp [SameBuiltin, Builtin.map, hsame])

theorem carries_builtinParameters {i i' : Nat} (kind : BuiltinKind) :
    S.Carries (builtinParameters element i kind) (builtinParameters element i' kind)
      SameBuiltin := by
  have bounds {α : Type} {bound : Rule (Bound α)} {less : α → α → Bool} {write : α → String}
      {b : Bound α → Bound α → Builtin Extent} (hb : S.Carries bound bound Eq) :
      S.Carries (optionalBounds bound less write >>= fun x => pure (b x.1 x.2))
        (optionalBounds bound less write >>= fun x => pure (b x.1 x.2)) SameBuiltin := by
    refine (carries_optionalBounds hb).bind (fun _ => rfl) ?_
    rintro x _ rfl
    exact carries_pure rfl
  cases kind with
  | integer => exact bounds carries_integerBound
  | float => exact bounds carries_floatBound
  | string => exact bounds carries_lengthBound
  | boolean | date | uuid => exact carries_pure rfl
  | enum => exact carries_enum
  | pattern => exact carries_pattern
  | timestamp => exact carries_timestamp
  | vector => exact carries_vector
  | list => exact carries_listType he

theorem carries_builtinOf {kind : BuiltinKind} :
    S.Carries (builtinOf element kind) (builtinOf element kind)
      fun b b' => b'.map forget = b.map forget := by
  refine carries_position_bind fun _ _ => carries_take_bind fun _ _ _ => ?_
  refine (carries_builtinParameters he kind).bind (fun _ => rfl) fun b b' hb => ?_
  refine carries_extentFrom_bind fun _ _ => carries_pure ?_
  simpa [PlacedBuiltin.map, SameBuiltin, forget] using hb

end

theorem carries_datatypeRefWithin {n : Nat} :
    S.Carries (datatypeRefWithin n) (datatypeRefWithin n)
      fun d d' => d'.map forget = d.map forget := by
  induction n with
  | zero => exact carries_reject
  | succ n ih =>
    have named : S.Carries (do return DatatypeRef.named (← typeRef))
        (do return DatatypeRef.named (← typeRef)) fun d d' => d'.map forget = d.map forget :=
      carries_typeRef.bind (fun _ => rfl) fun r r' hr => carries_pure (by simp [DatatypeRef.map, hr])
    have hlt (i : Nat) : (datatypeRefWithin (n + 1)).Ensures S.left i fun _ j => i < j :=
      ensures_datatypeRefWithin.imp fun _ _ h => h.lt
    refine carries_of_lt hlt fun k hk => carriesAt_peekKind_bind hk ?_
    split
    · refine (carries_builtinOf ih k).bind (fun _ => rfl) fun b b' hb => carries_pure ?_
      obtain ⟨type, p⟩ := b
      obtain ⟨type', p'⟩ := b'
      have htype : type'.map forget = type.map forget := congrArg PlacedBuiltin.type hb
      simp [DatatypeRef.map, htype, forget]
    · exact named k
    · refine carriesAt_peekSecond_bind hk fun κ κ' hκ => ?_
      have hdot := hκ.iff (p := (· = .symbol .dot)) (by simp [Unwalled])
      exact carriesAt_ite hdot (fun _ => named k) fun _ => carries_reject k
    · exact carries_reject k

theorem carries_datatypeRef :
    S.Carries datatypeRef datatypeRef fun d d' => d'.map forget = d.map forget :=
  carries_remaining_bind fun _ => carries_datatypeRefWithin

theorem carries_builtin {kind : BuiltinKind} :
    S.Carries (builtin kind) (builtin kind) fun b b' => b'.map forget = b.map forget :=
  carries_builtinOf carries_datatypeRef

end SchemaLang.Overlap
