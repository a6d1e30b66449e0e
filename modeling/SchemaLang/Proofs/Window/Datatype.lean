import SchemaLang.Proofs.Phrase.Basic
import SchemaLang.Proofs.Shapes
import SchemaLang.Proofs.Window.Basic

/-!
# References and datatypes in a body

No rule for them takes a brace, so they all stay at their depth. Each reads an item at least.
-/

set_option autoImplicit false

namespace SchemaLang.Window

open SchemaLang.Rule

variable {W : Window} {floor d i : Nat}

/-! ## Further entries -/

/-- There are more rounds than items left. -/
theorem alike_further {α β : Type} {f : α → β} {ends : TokenKind → Prop} [DecidablePred ends]
    {entry entry' : Rule α} {n n' : Nat}
    (he : ∀ j, i < j → W.Alike floor d d entry entry' j fun a a' k => j < k ∧ f a = f a')
    (hn : W.size < n + i) (hn' : W.size < n' + i) :
    W.Alike floor d d (further ends entry n) (further ends entry' n') i
      fun as as' j => i ≤ j ∧ as.map f = as'.map f := by
  induction n generalizing i n' with
  | zero => exact alike_of_le fun hi => by omega
  | succ n ih =>
    refine alike_of_le fun hi => ?_
    obtain ⟨n', rfl⟩ : ∃ m, n' = m + 1 := ⟨n' - 1, by omega⟩
    simp only [further, alike_peekKind_bind, alike_ite]
    refine ⟨fun hk => alike_take_bind (by simp [hk]) ?_, fun _ => alike_pure ⟨Nat.le_refl i, rfl⟩⟩
    rw [alike_peekKind_bind, alike_ite]
    refine ⟨fun _ => alike_pure ⟨by omega, rfl⟩, fun _ => ?_⟩
    refine (he _ (by omega)).bind ?_
    rintro a a' j ⟨hj, hmap⟩
    refine (ih (fun k hk => he k (by omega)) (by omega) (by omega)).bind ?_
    rintro as as' k ⟨hk, hmaps⟩
    exact alike_pure ⟨by omega, by simp [hmap, hmaps]⟩

/-! ## References -/

theorem alike_qualifier (hk : (kindAt W.body i).isPlain = true)
    (hd : kindAt W.body (i + 1) = .symbol .dot) :
    W.Alike floor d d qualifier qualifier i
      fun n n' j => n.text = n'.text ∧ j = i + 2 := by
  refine alike_takeName_bind hk fun p p' => ?_
  rw [alike_ite]
  refine ⟨fun _ => ?_, fun _ => alike_report_bind ?_⟩
  · exact alike_take_bind (by simp [hd]) (alike_pure ⟨rfl, rfl⟩)
  · exact alike_take_bind (by simp [hd]) (alike_pure ⟨rfl, rfl⟩)

theorem alike_typeRef :
    W.Alike floor d d typeRef typeRef i
      fun r r' j => i < j ∧ r.map forget = r'.map forget := by
  refine alike_of_path fun hp _ => ?_
  simp only [typeRef, alike_position_bind, alike_peekKind_bind]
  by_cases hk : kindAt W.body i = .symbol .rBrace
  · refine alike_peekSecond_bind_const fun k k' => ?_
    simp only [hk, TokenKind.isWord, TokenKind.isKeyword, Bool.or_self, Bool.false_eq_true, and_false,
      reduceCtorEq, if_false]
    exact alike_reject
  · refine alike_peekSecond_bind (lt_size hp.le_size hk) ?_
    rw [alike_ite, alike_ite]
    refine ⟨fun h => ?_, fun _ => ⟨fun hup => ?_, fun _ => alike_reject⟩⟩
    · have plain : AllowsPlain fun k => k.isWord || k.isKeyword := ⟨rfl, rfl, rfl⟩
      refine (alike_qualifier (plain.isPlain h.2) h.1).bind ?_
      rintro q q' _ ⟨hq, rfl⟩
      have hle := hp.le
      refine alike_expectName_bind (by omega) ⟨rfl, rfl, rfl⟩ fun p p' => ?_
      rw [alike_extentFrom_bind]
      exact alike_pure ⟨by omega, by simp [TypeRef.map, Name.map, hq, forget]⟩
    · refine alike_takeName_bind (by simp [hup]) fun p p' => ?_
      rw [alike_extentFrom_bind]
      exact alike_pure ⟨by omega, rfl⟩

/-! ## Numbers -/

section

variable {negative : Bool} (hk : (kindAt W.body i).isPlain = true)

include hk

theorem alike_literalValue {α : Type} {read? : String → Option α} {cause : String → Cause Extent} :
    W.Alike floor d d (literalValue read? cause) (literalValue read? cause) i
      fun v v' j => v = v' ∧ j = i + 1 := by
  refine alike_of_le fun hi => alike_peek_bind (lt_size_of_isPlain hi hk) ?_
  split
  · exact alike_take_bind hk (alike_pure ⟨rfl, rfl⟩)
  · exact alike_position_bind.2 (alike_report_bind alike_giveUp)

theorem alike_integerValue :
    W.Alike floor d d (integerValue negative) (integerValue negative) i
      fun v v' j => v = v' ∧ j = i + 1 := by
  rw [integerValue_eq]
  exact alike_literalValue hk

theorem alike_lengthValue :
    W.Alike floor d d lengthValue lengthValue i fun v v' j => v = v' ∧ j = i + 1 := by
  rw [lengthValue_eq]
  exact alike_literalValue hk

theorem alike_floatValue :
    W.Alike floor d d (floatValue negative) (floatValue negative) i
      fun v v' j => v = v' ∧ j = i + 1 := by
  rw [floatValue_eq]
  exact alike_literalValue hk

end

/-! ## Bounds -/

theorem allowsPlain_isSign : AllowsPlain isSign := ⟨rfl, rfl, rfl⟩

theorem alike_signedBound {α : Type} {isValue : TokenKind → Bool} {value : Bool → Rule α}
    {missing wanted : Expected} (hplain : AllowsPlain isValue)
    (hv : ∀ {negative j}, (kindAt W.body j).isPlain = true →
      W.Alike floor d d (value negative) (value negative) j fun v v' k => v = v' ∧ k = j + 1) :
    W.Alike floor d d (signedBound isValue value missing wanted)
      (signedBound isValue value missing wanted) i fun b b' j => b = b' ∧ i < j := by
  refine alike_of_path fun hp _ => ?_
  have hle := hp.le
  simp only [signedBound, alike_peekKind_bind, alike_ite]
  refine ⟨fun hk => ?_, fun _ => ⟨fun hk => ?_, fun _ => ⟨fun hk => ?_, fun _ => alike_reject⟩⟩⟩
  · exact alike_take_bind (by simp [hk]) (alike_pure ⟨rfl, by omega⟩)
  · refine (hv (hplain.isPlain hk)).bind ?_
    rintro v _ _ ⟨rfl, rfl⟩
    exact alike_pure ⟨rfl, by omega⟩
  · refine alike_take_bind (allowsPlain_isSign.isPlain hk) ?_
    rw [alike_peekKind_bind, alike_ite]
    refine ⟨fun hk' => ?_, fun _ => alike_rejectBehind (by omega)⟩
    refine (hv (hplain.isPlain hk')).bind ?_
    rintro v _ _ ⟨rfl, rfl⟩
    exact alike_pure ⟨rfl, by omega⟩

theorem alike_integerBound :
    W.Alike floor d d integerBound integerBound i fun b b' j => b = b' ∧ i < j := by
  rw [integerBound_eq]
  exact alike_signedBound ⟨rfl, rfl, rfl⟩ alike_integerValue

theorem alike_floatBound :
    W.Alike floor d d floatBound floatBound i fun b b' j => b = b' ∧ i < j := by
  rw [floatBound_eq]
  exact alike_signedBound ⟨rfl, rfl, rfl⟩ alike_floatValue

theorem alike_lengthBound :
    W.Alike floor d d lengthBound lengthBound i fun b b' j => b = b' ∧ i < j := by
  simp only [lengthBound, alike_peekKind_bind, alike_ite]
  refine ⟨fun hk => ?_, fun _ => ⟨fun hk => ?_, fun _ => alike_reject⟩⟩
  · exact alike_take_bind (by simp [hk]) (alike_pure ⟨rfl, by omega⟩)
  · refine (alike_lengthValue (by simp [hk])).bind ?_
    rintro v _ _ ⟨rfl, rfl⟩
    exact alike_pure ⟨rfl, by omega⟩

theorem alike_optionalBounds {α : Type} {bound : Rule (Bound α)} {less : α → α → Bool}
    {write : α → String}
    (hb : ∀ {j}, W.Alike floor d d bound bound j fun b b' k => b = b' ∧ j < k) :
    W.Alike floor d d (optionalBounds bound less write) (optionalBounds bound less write) i
      fun b b' j => b = b' ∧ i ≤ j := by
  refine alike_of_path fun hp _ => ?_
  have hle := hp.le
  simp only [optionalBounds, alike_peekKind_bind, alike_ite, alike_position_bind]
  refine ⟨fun hk => ?_, fun _ => alike_pure ⟨rfl, Nat.le_refl i⟩⟩
  refine alike_take_bind (by simp [hk]) (hb.bind ?_)
  rintro min _ j ⟨rfl, hj⟩
  refine alike_expect_bind (by omega) rfl fun _ => hb.bind ?_
  rintro max _ k ⟨rfl, hk⟩
  refine alike_close_bind (by omega) rfl ?_
  rw [alike_ite]
  refine ⟨fun _ => ?_, fun _ => alike_pure ⟨rfl, by omega⟩⟩
  rw [alike_extentFrom_bind]
  exact alike_report_bind (alike_pure ⟨rfl, by omega⟩)

/-! ## Parameters of built-in datatypes -/

/-- There are more rounds than items left. -/
theorem alike_enumValues {opened opened' n n' : Nat} (hl : floor < i) (hn : W.size < n + i)
    (hn' : W.size < n' + i) :
    W.Alike floor d d (enumValues opened n) (enumValues opened' n') i
      fun vs vs' j => vs = vs' ∧ i < j := by
  induction n generalizing i n' with
  | zero => exact alike_of_le fun hi => by omega
  | succ n ih =>
    refine alike_of_le fun hi => ?_
    obtain ⟨n', rfl⟩ : ∃ m, n' = m + 1 := ⟨n' - 1, by omega⟩
    simp only [enumValues, alike_peekKind_bind, alike_ite]
    refine ⟨fun hk => alike_take_bind (by simp [hk]) (alike_pure ⟨rfl, by omega⟩), fun _ => ?_⟩
    refine alike_expect_bind hl rfl fun _ => ?_
    rw [alike_peekKind_bind, alike_ite]
    refine ⟨fun hk => alike_take_bind (by simp [hk]) ?_, fun _ => ?_⟩
    · refine (ih (by omega) (by omega) (by omega)).bind ?_
      rintro vs _ j ⟨rfl, hj⟩
      exact alike_pure ⟨rfl, by omega⟩
    · exact alike_close_bind (by omega) rfl (alike_pure ⟨rfl, by omega⟩)

section

variable {keyword keyword' : Nat} (hl : floor < i)

include hl

theorem alike_enum :
    W.Alike floor d d (enum keyword) (enum keyword') i
      fun b b' j => i ≤ j ∧ b.map forget = b'.map forget := by
  simp only [enum, alike_position_bind]
  refine alike_expect_bind hl rfl fun _ => alike_remaining_bind fun n n' hn hn' => ?_
  refine (alike_enumValues (by omega) hn hn').bind ?_
  rintro vs _ j ⟨rfl, hj⟩
  rw [alike_ite]
  refine ⟨fun _ => ?_, fun _ => alike_pure ⟨by omega, rfl⟩⟩
  rw [alike_extentFrom_bind]
  exact alike_report_bind (alike_pure ⟨by omega, rfl⟩)

theorem alike_patternText :
    W.Alike floor d d patternText patternText i fun s s' j => s = s' ∧ j = i + 1 := by
  simp only [patternText, alike_peekKind_bind, alike_ite]
  refine ⟨fun hk => ?_, fun _ => ⟨fun hk => ?_, fun _ => alike_rejectBehind hl⟩⟩
  · exact alike_take_bind (by simp [hk]) (alike_pure ⟨rfl, rfl⟩)
  · exact alike_take_bind (by simp [hk]) (alike_pure ⟨rfl, rfl⟩)

theorem alike_pattern :
    W.Alike floor d d pattern pattern i
      fun b b' j => i ≤ j ∧ b.map forget = b'.map forget := by
  simp only [pattern, alike_position_bind]
  refine alike_expect_bind hl rfl fun _ => (alike_patternText (by omega)).bind ?_
  rintro regex _ _ ⟨rfl, rfl⟩
  rw [alike_peekKind_bind, alike_ite]
  refine ⟨fun hk => alike_take_bind (by simp [hk]) ?_, fun _ => ?_⟩
  · refine alike_expect_bind (by omega) rfl fun _ => ?_
    exact alike_close_bind (by omega) rfl (alike_pure ⟨by omega, rfl⟩)
  · exact alike_close_bind (by omega) rfl (alike_pure ⟨by omega, rfl⟩)

theorem alike_timestamp :
    W.Alike floor d d timestamp timestamp i
      fun b b' j => i ≤ j ∧ b.map forget = b'.map forget := by
  simp only [timestamp, alike_peekKind_bind, alike_ite, alike_position_bind]
  refine ⟨fun hk => alike_take_bind (by simp [hk]) ?_, fun _ => alike_pure ⟨Nat.le_refl i, rfl⟩⟩
  refine alike_expect_bind (by omega) rfl fun _ => ?_
  exact alike_close_bind (by omega) rfl (alike_pure ⟨by omega, rfl⟩)

theorem alike_vector :
    W.Alike floor d d vector vector i
      fun b b' j => i ≤ j ∧ b.map forget = b'.map forget := by
  simp only [vector, alike_position_bind]
  refine alike_expect_bind hl rfl fun _ => alike_expect_bind (by omega) rfl fun _ => ?_
  split
  · exact alike_close_bind (by omega) rfl (alike_pure ⟨by omega, rfl⟩)
  · exact alike_position_bind.2 (alike_report_bind (alike_giveUpBehind (by omega)))

end

/-! ## Datatypes -/

section

variable {element element' : Rule (DatatypeRef Extent)} {keyword keyword' : Nat}
  (he : ∀ {j}, i < j → W.Alike floor d d element element' j
    fun t t' k => j < k ∧ t.map forget = t'.map forget)

include he

theorem alike_listType (hl : floor < i + 1) :
    W.Alike floor d d (listType element) (listType element') (i + 1)
      fun b b' j => i < j ∧ b.map forget = b'.map forget := by
  simp only [listType, alike_position_bind]
  refine alike_expect_bind hl rfl fun _ => (he (by omega)).bind ?_
  rintro t t' j ⟨hj, hmap⟩
  refine alike_close_bind (by omega) rfl ((alike_optionalBounds alike_lengthBound).bind ?_)
  rintro ⟨min, max⟩ _ k ⟨rfl, hk⟩
  exact alike_pure ⟨by omega, by simp [Builtin.map, hmap]⟩

theorem alike_builtinParameters (hl : floor < i + 1) (kind : BuiltinKind) :
    W.Alike floor d d (builtinParameters element keyword kind)
      (builtinParameters element' keyword' kind) (i + 1)
      fun b b' j => i < j ∧ b.map forget = b'.map forget := by
  have weaken {b b' : Builtin Extent} {j : Nat} (h : i + 1 ≤ j ∧ b.map forget = b'.map forget) :
      i < j ∧ b.map forget = b'.map forget := h
  cases kind with
  | integer =>
    refine (alike_optionalBounds alike_integerBound).bind ?_
    rintro ⟨min, max⟩ _ j ⟨rfl, hj⟩
    exact alike_pure ⟨hj, rfl⟩
  | float =>
    refine (alike_optionalBounds alike_floatBound).bind ?_
    rintro ⟨min, max⟩ _ j ⟨rfl, hj⟩
    exact alike_pure ⟨hj, rfl⟩
  | string =>
    refine (alike_optionalBounds alike_lengthBound).bind ?_
    rintro ⟨min, max⟩ _ j ⟨rfl, hj⟩
    exact alike_pure ⟨hj, rfl⟩
  | boolean | date | uuid => exact alike_pure ⟨Nat.lt_succ_self i, rfl⟩
  | enum => exact (alike_enum hl).imp fun _ _ _ => weaken
  | pattern => exact (alike_pattern hl).imp fun _ _ _ => weaken
  | timestamp => exact (alike_timestamp hl).imp fun _ _ _ => weaken
  | vector => exact (alike_vector hl).imp fun _ _ _ => weaken
  | list => exact alike_listType he hl

theorem alike_builtinOf {kind : BuiltinKind} (hk : kindAt W.body i = .builtin kind) :
    W.Alike floor d d (builtinOf element kind) (builtinOf element' kind) i
      fun b b' j => i < j ∧ b.type.map forget = b'.type.map forget := by
  refine alike_of_path fun hp _ => ?_
  simp only [builtinOf, alike_position_bind]
  refine alike_take_bind (by simp [hk]) ?_
  refine (alike_builtinParameters he (Nat.lt_succ_of_le hp.le) kind).bind ?_
  rintro type type' j ⟨hj, hmap⟩
  exact alike_extentFrom_bind.2 (alike_pure ⟨hj, hmap⟩)

end

/-- There are more rounds than items left. -/
theorem alike_datatypeRefWithin {n n' : Nat} (hn : W.size < n + i) (hn' : W.size < n' + i) :
    W.Alike floor d d (datatypeRefWithin n) (datatypeRefWithin n') i
      fun t t' j => i < j ∧ t.map forget = t'.map forget := by
  induction n generalizing i n' with
  | zero => exact alike_of_le fun hi => by omega
  | succ n ih =>
    refine alike_of_le fun hi => ?_
    obtain ⟨n', rfl⟩ : ∃ m, n' = m + 1 := ⟨n' - 1, by omega⟩
    have named : W.Alike floor d d (typeRef >>= fun r => pure (DatatypeRef.named r))
        (typeRef >>= fun r => pure (DatatypeRef.named r)) i
        fun t t' j => i < j ∧ t.map forget = t'.map forget := by
      refine alike_typeRef.bind ?_
      rintro r r' j ⟨hj, hmap⟩
      exact alike_pure ⟨hj, by simp [DatatypeRef.map, hmap]⟩
    simp only [datatypeRefWithin, alike_peekKind_bind]
    split
    · rename_i kind hk
      refine (alike_builtinOf (fun h => ih (by omega) (by omega)) hk).bind ?_
      rintro b b' j ⟨hj, htype⟩
      exact alike_pure ⟨hj, by simp [DatatypeRef.map, htype, forget]⟩
    · exact named
    · rename_i hk
      refine alike_peekSecond_bind (lt_size hi (by simp [hk])) ?_
      rw [alike_ite]
      exact ⟨fun _ => named, fun _ => alike_reject⟩
    · exact alike_reject

theorem alike_datatypeRef :
    W.Alike floor d d datatypeRef datatypeRef i
      fun t t' j => i < j ∧ t.map forget = t'.map forget :=
  alike_remaining_bind fun _ _ hn hn' => alike_datatypeRefWithin hn hn'

end SchemaLang.Window
