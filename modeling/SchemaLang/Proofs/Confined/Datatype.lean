import SchemaLang.Proofs.Confined.Basic
import SchemaLang.Proofs.Shapes

/-!
# References and datatypes are confined

Each rule for them reads an item at least and places the tree by extents of the items it has read.
-/

set_option autoImplicit false

namespace SchemaLang.Frame

open SchemaLang.Rule

variable {τ : Type} {F : Frame τ} {floor i : Nat}

/-! ## Further entries -/

/-- There are more rounds than items left. -/
theorem confined_further {α β : Type} {m : (Extent → τ) → α → β} {ends : TokenKind → Prop}
    [DecidablePred ends] {entry entry' : Rule α} {n n' : Nat}
    (he : ∀ j, i < j → F.Confined floor entry entry' j fun a k => j < k ∧ m F.f a = m F.g a)
    (hn : F.last < n + i) (hn' : F.last < n' + i) :
    F.Confined floor (further ends entry n) (further ends entry' n') i
      fun as j => i ≤ j ∧ as.map (m F.f) = as.map (m F.g) := by
  induction n generalizing i n' with
  | zero => exact confined_of_le fun hi => by omega
  | succ n ih =>
    refine confined_of_le fun hi => ?_
    obtain ⟨n', rfl⟩ : ∃ m, n' = m + 1 := ⟨n' - 1, by omega⟩
    simp only [further, confined_peekKind_bind, confined_ite]
    refine ⟨fun hk => ?_, fun _ => confined_pure.2 fun _ => ⟨Nat.le_refl i, rfl⟩⟩
    refine confined_take_bind (by simp [hk]) ?_
    rw [confined_peekKind_bind, confined_ite]
    refine ⟨fun _ => confined_pure.2 fun _ => ⟨by omega, rfl⟩, fun _ => ?_⟩
    refine (he _ (by omega)).bind ?_
    rintro a j - ⟨hj, hmap⟩
    refine (ih (fun k hk => he k (by omega)) (by omega) (by omega)).bind ?_
    rintro as k - ⟨hk, hmaps⟩
    exact confined_pure.2 fun _ => ⟨by omega, by simp [hmap, hmaps]⟩

/-! ## References -/

theorem confined_qualifier (hk : kindAt F.items i ≠ .endOfText)
    (hd : kindAt F.items (i + 1) = .symbol .dot) :
    F.Confined floor qualifier qualifier i
      fun n j => n = ⟨(itemAt F.items i).text, .single i⟩ ∧ j = i + 2 := by
  have hd' : kindAt F.items (i + 1) ≠ .endOfText := by simp [hd]
  refine confined_takeName_bind hk ?_
  rw [confined_ite]
  refine ⟨fun _ => ?_, fun _ => ?_⟩
  · exact confined_take_bind hd' (confined_pure.2 fun _ => ⟨rfl, rfl⟩)
  · refine confined_report_bind rfl (F.place_single (Nat.le_of_lt (F.lt_last hk))) ?_
    exact confined_take_bind hd' (confined_pure.2 fun _ => ⟨rfl, rfl⟩)

theorem confined_typeRef (hl : floor ≤ i) :
    F.Confined floor typeRef typeRef i fun r j => i < j ∧ r.map F.f = r.map F.g := by
  refine confined_of_le fun hi => ?_
  have place := F.place_single hi
  simp only [typeRef, confined_position_bind, confined_peekKind_bind]
  by_cases hk : kindAt F.items i = .endOfText
  · refine confined_peekSecond_bind_const fun k k' => ?_
    simp only [hk, TokenKind.isWord, TokenKind.isKeyword, Bool.or_self, Bool.false_eq_true, and_false,
      reduceCtorEq, if_false]
    exact confined_reject (fun _ => rfl) hl
  · refine confined_peekSecond_bind hk ?_
    rw [confined_ite, confined_ite]
    refine ⟨fun hd => ?_, fun _ => ⟨fun _ => ?_, fun _ => confined_reject (fun _ => rfl) hl⟩⟩
    · refine (confined_qualifier hk hd.1).bind ?_
      rintro _ _ hj ⟨rfl, rfl⟩
      refine confined_expectName_bind (by omega) rfl fun _ => ?_
      simp only [confined_extentFrom_bind, confined_pure]
      intro hj'
      refine ⟨by omega, ?_⟩
      simp only [TypeRef.map, Name.map, Option.map, place, F.place_single hj, F.place_from hi hj']
    · refine confined_takeName_bind hk ?_
      simp only [confined_extentFrom_bind, confined_pure]
      intro hj
      refine ⟨by omega, ?_⟩
      simp only [TypeRef.map, Name.map, Option.map, place, F.place_from hi hj]

/-! ## Numbers -/

section

variable {negative : Bool} (hl : floor ≤ i) (hk : kindAt F.items i ≠ .endOfText)

include hl hk

theorem confined_literalValue {α : Type} {read? : String → Option α} {cause : String → Cause Extent}
    (hc : ∀ s, (cause s).map F.f = (cause s).map F.g) :
    F.Confined floor (literalValue read? cause) (literalValue read? cause) i fun _ j => j = i + 1 := by
  have place := F.place_single (Nat.le_of_lt (F.lt_last hk))
  simp only [literalValue, confined_peek_bind]
  split
  · exact confined_take_bind hk (confined_pure.2 fun _ => rfl)
  · rw [confined_position_bind]
    exact confined_report_bind (hc _) place (confined_giveUp.2 fun _ => hl)

theorem confined_integerValue :
    F.Confined floor (integerValue negative) (integerValue negative) i fun _ j => j = i + 1 := by
  rw [integerValue_eq]
  exact confined_literalValue hl hk fun _ => rfl

theorem confined_lengthValue :
    F.Confined floor lengthValue lengthValue i fun _ j => j = i + 1 := by
  rw [lengthValue_eq]
  exact confined_literalValue hl hk fun _ => rfl

theorem confined_floatValue :
    F.Confined floor (floatValue negative) (floatValue negative) i fun _ j => j = i + 1 := by
  rw [floatValue_eq]
  exact confined_literalValue hl hk fun _ => rfl

end

/-! ## Bounds -/

theorem confined_signedBound {α : Type} {isValue : TokenKind → Bool} {value : Bool → Rule α}
    {missing wanted : Expected} (hend : isValue .endOfText = false)
    (hv : ∀ {negative j}, floor ≤ j → kindAt F.items j ≠ .endOfText →
      F.Confined floor (value negative) (value negative) j fun _ k => k = j + 1) (hl : floor ≤ i) :
    F.Confined floor (signedBound isValue value missing wanted)
      (signedBound isValue value missing wanted) i fun _ j => i < j := by
  simp only [signedBound, confined_peekKind_bind, confined_ite]
  refine ⟨fun hk => ?_, fun _ => ⟨fun hk => ?_, fun _ => ⟨fun hk => ?_, fun _ => ?_⟩⟩⟩
  · exact confined_take_bind (by simp [hk]) (confined_pure.2 fun _ => by omega)
  · refine (hv hl (TokenKind.ne_of_allowed hk hend)).bind ?_
    rintro _ _ - rfl
    exact confined_pure.2 fun _ => by omega
  · refine confined_take_bind (TokenKind.ne_of_allowed hk rfl) ?_
    rw [confined_peekKind_bind, confined_ite]
    refine ⟨fun hk' => ?_, fun _ => confined_rejectBehind (fun _ => rfl) (by omega)⟩
    refine (hv (by omega) (TokenKind.ne_of_allowed hk' hend)).bind ?_
    rintro _ _ - rfl
    exact confined_pure.2 fun _ => by omega
  · exact confined_reject (fun _ => rfl) hl

theorem confined_integerBound (hl : floor ≤ i) :
    F.Confined floor integerBound integerBound i fun _ j => i < j := by
  rw [integerBound_eq]
  exact confined_signedBound rfl confined_integerValue hl

theorem confined_floatBound (hl : floor ≤ i) :
    F.Confined floor floatBound floatBound i fun _ j => i < j := by
  rw [floatBound_eq]
  exact confined_signedBound rfl confined_floatValue hl

theorem confined_lengthBound (hl : floor ≤ i) :
    F.Confined floor lengthBound lengthBound i fun _ j => i < j := by
  simp only [lengthBound, confined_peekKind_bind, confined_ite]
  refine ⟨fun hk => ?_, fun _ => ⟨fun hk => ?_, fun _ => confined_reject (fun _ => rfl) hl⟩⟩
  · exact confined_take_bind (by simp [hk]) (confined_pure.2 fun _ => by omega)
  · refine (confined_lengthValue hl (by simp [hk])).bind ?_
    rintro _ _ - rfl
    exact confined_pure.2 fun _ => by omega

theorem confined_optionalBounds {α : Type} {bound : Rule (Bound α)} {less : α → α → Bool}
    {write : α → String} (hb : ∀ {j}, floor ≤ j → F.Confined floor bound bound j fun _ k => j < k)
    (hl : floor < i) :
    F.Confined floor (optionalBounds bound less write) (optionalBounds bound less write) i
      fun _ j => i ≤ j := by
  refine confined_of_le fun hi => ?_
  simp only [optionalBounds, confined_peekKind_bind, confined_ite, confined_position_bind]
  refine ⟨fun hk => ?_, fun _ => confined_pure.2 fun _ => Nat.le_refl i⟩
  refine confined_take_bind (by simp [hk]) ((hb (by omega)).bind fun min j _ hj => ?_)
  refine confined_expect_bind (by omega) (by simp) fun _ => (hb (by omega)).bind fun max k _ hk => ?_
  refine confined_close_bind (by omega) hi fun _ => ?_
  rw [confined_ite]
  refine ⟨fun _ => ?_, fun _ => confined_pure.2 fun _ => by omega⟩
  refine confined_of_le fun hk' => ?_
  rw [confined_extentFrom_bind]
  exact confined_report_bind rfl (F.place_from hi hk') (confined_pure.2 fun _ => by omega)

/-! ## Parameters of built-in datatypes -/

/-- There are more rounds than items left. -/
theorem confined_enumValues {opened n n' : Nat} (ho : opened ≤ F.last) (hl : floor < i)
    (hn : F.last < n + i) (hn' : F.last < n' + i) :
    F.Confined floor (enumValues opened n) (enumValues opened n') i fun _ j => i < j := by
  induction n generalizing i n' with
  | zero => exact confined_of_le fun hi => by omega
  | succ n ih =>
    refine confined_of_le fun hi => ?_
    obtain ⟨n', rfl⟩ : ∃ m, n' = m + 1 := ⟨n' - 1, by omega⟩
    simp only [enumValues, confined_peekKind_bind, confined_ite]
    refine ⟨fun hk => ?_, fun _ => ?_⟩
    · exact confined_take_bind (by simp [hk]) (confined_pure.2 fun _ => by omega)
    · refine confined_expect_bind hl (by simp) fun _ => ?_
      rw [confined_peekKind_bind, confined_ite]
      refine ⟨fun hk => confined_take_bind (by simp [hk]) ?_, fun _ => ?_⟩
      · refine (ih (by omega) (by omega) (by omega)).bind fun values j _ hj => ?_
        exact confined_pure.2 fun _ => by omega
      · exact confined_close_bind (by omega) ho fun _ => confined_pure.2 fun _ => by omega

theorem confined_enum {keyword : Nat} (hkw : keyword ≤ F.last) (hl : floor < i) :
    F.Confined floor (enum keyword) (enum keyword) i
      fun b j => i < j ∧ b.map F.f = b.map F.g := by
  refine confined_of_le fun hi => ?_
  simp only [enum, confined_position_bind]
  refine confined_expect_bind hl (by simp) fun _ => ?_
  rw [confined_remaining_bind]
  have hsize := F.size_eq
  have hle := F.size_le
  refine (confined_enumValues hi (by omega) (by omega) (by omega)).bind fun values j _ hj => ?_
  rw [confined_ite]
  refine ⟨fun _ => confined_of_le fun hj' => ?_, fun _ => confined_pure.2 fun _ => ⟨by omega, rfl⟩⟩
  rw [confined_extentFrom_bind]
  exact confined_report_bind rfl (F.place_from hkw hj')
    (confined_pure.2 fun _ => ⟨by omega, rfl⟩)

theorem confined_patternText (hl : floor < i) :
    F.Confined floor patternText patternText i fun _ j => j = i + 1 := by
  simp only [patternText, confined_peekKind_bind, confined_ite]
  refine ⟨fun hk => ?_, fun _ => ⟨fun hk => ?_, fun _ => confined_rejectBehind (fun _ => rfl) hl⟩⟩
  · exact confined_take_bind (by simp [hk]) (confined_pure.2 fun _ => rfl)
  · exact confined_take_bind (by simp [hk]) (confined_pure.2 fun _ => rfl)

theorem confined_pattern (hl : floor < i) :
    F.Confined floor pattern pattern i fun b j => i < j ∧ b.map F.f = b.map F.g := by
  refine confined_of_le fun hi => ?_
  simp only [pattern, confined_position_bind]
  refine confined_expect_bind hl (by simp) fun _ => ?_
  refine (confined_patternText (by omega)).bind ?_
  rintro regex _ - rfl
  rw [confined_peekKind_bind, confined_ite]
  refine ⟨fun hk => confined_take_bind (by simp [hk]) ?_, fun _ => ?_⟩
  · refine confined_expect_bind (by omega) (by simp) fun _ => ?_
    exact confined_close_bind (by omega) hi fun _ => confined_pure.2 fun _ => ⟨by omega, rfl⟩
  · exact confined_close_bind (by omega) hi fun _ => confined_pure.2 fun _ => ⟨by omega, rfl⟩

theorem confined_timestamp (hl : floor < i) :
    F.Confined floor timestamp timestamp i fun b j => i ≤ j ∧ b.map F.f = b.map F.g := by
  refine confined_of_le fun hi => ?_
  simp only [timestamp, confined_peekKind_bind, confined_ite, confined_position_bind]
  refine ⟨fun hk => ?_, fun _ => confined_pure.2 fun _ => ⟨Nat.le_refl i, rfl⟩⟩
  refine confined_take_bind (by simp [hk]) ?_
  refine confined_expect_bind (by omega) (by simp) fun _ => ?_
  exact confined_close_bind (by omega) hi fun _ => confined_pure.2 fun _ => ⟨by omega, rfl⟩

theorem confined_vector (hl : floor < i) :
    F.Confined floor vector vector i fun b j => i < j ∧ b.map F.f = b.map F.g := by
  refine confined_of_le fun hi => ?_
  simp only [vector, confined_position_bind]
  refine confined_expect_bind hl (by simp) fun _ => ?_
  refine confined_expect_bind (by omega) (by simp) fun _ => ?_
  split
  · exact confined_close_bind (by omega) hi fun _ => confined_pure.2 fun _ => ⟨by omega, rfl⟩
  · refine confined_of_le fun hj => ?_
    rw [confined_position_bind]
    refine confined_report_bind rfl (F.place_single (by omega)) ?_
    exact confined_giveUpBehind.2 fun _ => by omega

/-! ## Datatypes -/

section

variable {element element' : Rule (DatatypeRef Extent)} (hl : floor < i)
  (he : ∀ {j}, i ≤ j → F.Confined floor element element' j
    fun d k => j < k ∧ d.map F.f = d.map F.g)

include hl he

theorem confined_listType :
    F.Confined floor (listType element) (listType element') i
      fun b j => i < j ∧ b.map F.f = b.map F.g := by
  refine confined_of_le fun hi => ?_
  simp only [listType, confined_position_bind]
  refine confined_expect_bind hl (by simp) fun _ => ?_
  refine (he (by omega)).bind ?_
  rintro e j - ⟨hj, hmap⟩
  refine confined_close_bind (by omega) hi fun _ => ?_
  refine (confined_optionalBounds (fun h => confined_lengthBound h) (by omega)).bind ?_
  rintro ⟨min, max⟩ k - hk
  exact confined_pure.2 fun _ => ⟨by omega, by simp [Builtin.map, hmap]⟩

theorem confined_builtinParameters {keyword : Nat} (hkw : keyword ≤ F.last) (kind : BuiltinKind) :
    F.Confined floor (builtinParameters element keyword kind)
      (builtinParameters element' keyword kind) i fun b j => i ≤ j ∧ b.map F.f = b.map F.g := by
  have weaken {b : Builtin Extent} {j : Nat} (h : i < j ∧ b.map F.f = b.map F.g) :
      i ≤ j ∧ b.map F.f = b.map F.g := ⟨Nat.le_of_lt h.1, h.2⟩
  cases kind with
  | integer =>
    refine (confined_optionalBounds (fun h => confined_integerBound h) hl).bind ?_
    rintro ⟨min, max⟩ j - hj
    exact confined_pure.2 fun _ => ⟨hj, rfl⟩
  | float =>
    refine (confined_optionalBounds (fun h => confined_floatBound h) hl).bind ?_
    rintro ⟨min, max⟩ j - hj
    exact confined_pure.2 fun _ => ⟨hj, rfl⟩
  | string =>
    refine (confined_optionalBounds (fun h => confined_lengthBound h) hl).bind ?_
    rintro ⟨min, max⟩ j - hj
    exact confined_pure.2 fun _ => ⟨hj, rfl⟩
  | boolean | date | uuid => exact confined_pure.2 fun _ => ⟨Nat.le_refl i, rfl⟩
  | enum => exact (confined_enum hkw hl).imp fun _ _ => weaken
  | pattern => exact (confined_pattern hl).imp fun _ _ => weaken
  | timestamp => exact confined_timestamp hl
  | vector => exact (confined_vector hl).imp fun _ _ => weaken
  | list => exact (confined_listType hl he).imp fun _ _ => weaken

end

theorem confined_builtinOf {element element' : Rule (DatatypeRef Extent)} {kind : BuiltinKind}
    (hl : floor ≤ i) (hk : kindAt F.items i ≠ .endOfText)
    (he : ∀ {j}, i < j → F.Confined floor element element' j
      fun d k => j < k ∧ d.map F.f = d.map F.g) :
    F.Confined floor (builtinOf element kind) (builtinOf element' kind) i
      fun b j => i < j ∧ b.type.map F.f = b.type.map F.g ∧ F.f b.place = F.g b.place := by
  refine confined_of_le fun hi => ?_
  simp only [builtinOf, confined_position_bind]
  refine confined_take_bind hk ?_
  refine (confined_builtinParameters (by omega) (fun h => he h) hi kind).bind ?_
  rintro type j - ⟨hj, hmap⟩
  rw [confined_extentFrom_bind, confined_pure]
  exact fun hj' => ⟨by omega, hmap, F.place_from hi hj'⟩

theorem confined_datatypeRefWithin {n n' : Nat} (hl : floor ≤ i) (hn : F.last < n + i)
    (hn' : F.last < n' + i) :
    F.Confined floor (datatypeRefWithin n) (datatypeRefWithin n') i
      fun d j => i < j ∧ d.map F.f = d.map F.g := by
  induction n generalizing i n' with
  | zero => exact confined_of_le fun hi => by omega
  | succ n ih =>
    refine confined_of_le fun hi => ?_
    obtain ⟨n', rfl⟩ : ∃ m, n' = m + 1 := ⟨n' - 1, by omega⟩
    have named : F.Confined floor (typeRef >>= fun r => pure (DatatypeRef.named r))
        (typeRef >>= fun r => pure (DatatypeRef.named r)) i fun d j => i < j ∧ d.map F.f = d.map F.g := by
      refine (confined_typeRef hl).bind ?_
      rintro r j - ⟨hj, hmap⟩
      exact confined_pure.2 fun _ => ⟨hj, by simp [DatatypeRef.map, hmap]⟩
    simp only [datatypeRefWithin, confined_peekKind_bind]
    split
    · rename_i kind hk
      refine (confined_builtinOf hl (by simp [hk])
        fun h => ih (by omega) (by omega) (by omega)).bind ?_
      rintro b j - ⟨hj, htype, hplace⟩
      exact confined_pure.2 fun _ => ⟨hj, by simp [DatatypeRef.map, htype, hplace]⟩
    · exact named
    · rename_i hk
      refine confined_peekSecond_bind (by simp [hk]) ?_
      rw [confined_ite]
      exact ⟨fun _ => named, fun _ => confined_reject (fun _ => rfl) hl⟩
    · exact confined_reject (fun _ => rfl) hl

theorem confined_datatypeRef (hl : floor ≤ i) :
    F.Confined floor datatypeRef datatypeRef i fun d j => i < j ∧ d.map F.f = d.map F.g := by
  refine confined_of_le fun hi => ?_
  have hsize := F.size_eq
  have hle := F.size_le
  exact confined_remaining_bind.2 (confined_datatypeRefWithin hl (by omega) (by omega))

theorem confined_builtin {kind : BuiltinKind} (hl : floor ≤ i)
    (hk : kindAt F.items i ≠ .endOfText) :
    F.Confined floor (builtin kind) (builtin kind) i
      fun b j => i < j ∧ b.type.map F.f = b.type.map F.g ∧ F.f b.place = F.g b.place :=
  confined_builtinOf hl hk fun h => confined_datatypeRef (by omega)

end SchemaLang.Frame
