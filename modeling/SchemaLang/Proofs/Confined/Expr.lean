import SchemaLang.Grammar.Expr
import SchemaLang.Proofs.Confined.Datatype

/-!
# Expressions are confined

* `Frame.Holds e`: an expression that has only such places, as far as placements tell.
* `Frame.ConfinedFrom`: what a rule within needs to know of the rule for expressions, by limit.

The rounds of `expressionWithin` and the rounds of its loops only have to be more than the items left.
-/

set_option autoImplicit false

namespace SchemaLang

theorem ne_endOfText_of_lt_leftPrecedence {limit : Precedence} {k : TokenKind}
    (h : limit < leftPrecedence k) : k ≠ .endOfText := by
  rintro rfl
  exact absurd h (Nat.not_lt_zero _)

theorem Expr.map_withPlace {σ τ : Type} (f : σ → τ) (q : σ) (e : Expr σ) :
    (e.withPlace q).map f = (e.map f).withPlace (f q) := by
  cases e <;> simp [Expr.withPlace, Expr.map]

namespace Frame

open SchemaLang.Rule

variable {τ : Type} {F : Frame τ} {floor i : Nat}

/-! ## Places -/

structure Holds (F : Frame τ) (e : Expr Extent) : Prop where
  map_eq : e.map F.f = e.map F.g
  place : F.Inside e.place

theorem Holds.withPlace {e : Expr Extent} {q : Extent} (h : F.Holds e) (hq : F.Inside q) :
    F.Holds (e.withPlace q) :=
  ⟨by rw [Expr.map_withPlace, Expr.map_withPlace, h.map_eq, hq.eq], by simpa using hq⟩

def ConfinedFrom (F : Frame τ) (floor i : Nat) (expr expr' : Within) : Prop :=
  ∀ limit j, i ≤ j → F.Confined floor (expr limit) (expr' limit) j fun e k => j < k ∧ F.Holds e

variable {expr expr' : Within}

theorem ConfinedFrom.mono {j : Nat} (h : F.ConfinedFrom floor i expr expr') (hij : i ≤ j) :
    F.ConfinedFrom floor j expr expr' := fun limit k hk => h limit k (Nat.le_trans hij hk)

/-! ## Lists of expressions -/

section

variable (hl : floor < i) (he : F.ConfinedFrom floor i expr expr')

include hl he

omit hl in
theorem confined_furtherElements {closer : Symbol} {n n' : Nat} (hn : F.last < n + i)
    (hn' : F.last < n' + i) :
    F.Confined floor (furtherElements expr closer n) (furtherElements expr' closer n') i
      fun es j => i ≤ j ∧ Expr.mapAll F.f es = Expr.mapAll F.g es := by
  simp only [furtherElements_eq, Expr.mapAll_eq_map]
  refine confined_further (m := Expr.map) (fun j hj => ?_) hn hn'
  exact (he _ j (Nat.le_of_lt hj)).imp fun e k h => ⟨h.1, h.2.1⟩

theorem confined_elements {closer : Symbol} {opened : Nat} {what : Enclosure}
    (ho : opened ≤ F.last) :
    F.Confined floor (elements expr closer opened what) (elements expr' closer opened what) i
      fun es j => i < j ∧ Expr.mapAll F.f es = Expr.mapAll F.g es := by
  have hsize := F.size_eq
  have hle := F.size_le
  simp only [elements, confined_peekKind_bind, confined_ite]
  refine ⟨fun hk => ?_, fun _ => ?_⟩
  · exact confined_take_bind (by simp [hk]) (confined_pure.2 fun _ => ⟨by omega, rfl⟩)
  · refine (he _ _ (Nat.le_refl i)).bind ?_
    rintro e j hj' ⟨hj, hmap, -⟩
    rw [confined_remaining_bind]
    refine (confined_furtherElements (he.mono (by omega)) (by omega) (by omega)).bind ?_
    rintro es k - ⟨hk, hmaps⟩
    refine confined_close_bind (by omega) ho fun _ => ?_
    exact confined_pure.2 fun _ => ⟨by omega, by simp [Expr.mapAll, hmap, hmaps]⟩

/-! ## What belongs to an operator -/

theorem confined_branch :
    F.Confined floor (branch expr) (branch expr') i fun e j => i < j ∧ F.Holds e := by
  refine confined_of_le fun hi => ?_
  simp only [branch, confined_position_bind]
  refine confined_expect_bind hl (by simp) fun _ => ?_
  refine (he _ _ (by omega)).bind ?_
  rintro e j - ⟨hj, hholds⟩
  exact confined_close_bind (by omega) hi fun _ => confined_pure.2 fun _ => ⟨by omega, hholds⟩

theorem confined_ternary {condition : Expr Extent} (hc : F.Holds condition) :
    F.Confined floor (ternary expr condition) (ternary expr' condition) i
      fun e j => i < j ∧ F.Holds e := by
  refine (confined_branch hl he).bind ?_
  rintro t j - ⟨hj, ht⟩
  refine confined_expect_bind (by omega) (by simp) fun _ => ?_
  refine (confined_branch (by omega) (he.mono (by omega))).bind ?_
  rintro e k hk' ⟨hk, he⟩
  simp only [confined_position_bind, confined_extentFrom_bind, confined_pure]
  have read : F.Inside ⟨k - 1, k - 1⟩ := F.inside_from (by omega) hk'
  have place := hc.place.merge read
  exact fun _ => ⟨by omega, by simp [Expr.map, hc.map_eq, ht.map_eq, he.map_eq, place.eq], place⟩

omit he in
theorem confined_member {object : Expr Extent} (ho : F.Holds object) :
    F.Confined floor (member object) (member object) i fun e j => i < j ∧ F.Holds e := by
  refine confined_of_le fun hi => ?_
  refine confined_expectName_bind hl rfl fun _ => confined_pure.2 fun _ => ?_
  have place := ho.place.merge (F.inside_single hi)
  refine ⟨by omega, ?_, place⟩
  simp [Expr.map, Name.map, ho.map_eq, place.eq, F.place_single hi]

theorem confined_index {object : Expr Extent} {opened : Nat} (ho : F.Holds object)
    (hopened : opened ≤ F.last) :
    F.Confined floor (index expr object opened) (index expr' object opened) i
      fun e j => i < j ∧ F.Holds e := by
  refine (confined_elements hl he hopened).bind ?_
  rintro es j hj' ⟨hj, hmaps⟩
  have last : F.Inside (.single (j - 1)) := F.inside_single (by omega)
  simp only [confined_position_bind, confined_ite]
  refine ⟨fun _ => ?_, fun _ => ?_⟩
  · exact confined_report_bind rfl last.eq (confined_giveUpBehind.2 fun _ => by omega)
  · have place := ho.place.merge last
    exact confined_pure.2 fun _ => ⟨hj, by simp [Expr.map, ho.map_eq, hmaps, place.eq], place⟩

/-! ## Pipelines -/

omit he in
theorem confined_furtherParams {n n' : Nat} (hn : F.last < n + i) (hn' : F.last < n' + i) :
    F.Confined floor (furtherParams n) (furtherParams n') i
      fun ps j => i ≤ j ∧ ps.map (Name.map F.f) = ps.map (Name.map F.g) := by
  simp only [furtherParams_eq]
  refine confined_further (m := Name.map) (fun j hj => confined_of_le fun hj' => ?_) hn hn'
  refine confined_expectName_bind (by omega) rfl fun _ => confined_pure.2 fun _ => ?_
  exact ⟨by omega, by simp [Name.map, F.place_single hj']⟩

omit he in
theorem confined_params :
    F.Confined floor params params i
      fun ps j => i < j ∧ ps.map (Name.map F.f) = ps.map (Name.map F.g) := by
  have hsize := F.size_eq
  have hle := F.size_le
  refine confined_of_le fun hi => ?_
  refine confined_expectName_bind hl rfl fun _ => ?_
  rw [confined_remaining_bind]
  refine (confined_furtherParams (by omega) (by omega) (by omega)).bind ?_
  rintro ps j - ⟨hj, hmaps⟩
  refine confined_expect_bind (by omega) (by simp) fun _ => ?_
  exact confined_pure.2 fun _ => ⟨by omega, by simp [Name.map, F.place_single hi, hmaps]⟩

theorem confined_optionalArguments :
    F.Confined floor (optionalArguments expr) (optionalArguments expr') i
      fun args j => i ≤ j ∧ Expr.mapArgs F.f args = Expr.mapArgs F.g args := by
  refine confined_of_le fun hi => ?_
  simp only [optionalArguments, confined_peekKind_bind, confined_ite, confined_position_bind]
  refine ⟨fun hk => ?_, fun _ => confined_pure.2 fun _ => ⟨Nat.le_refl i, rfl⟩⟩
  refine confined_take_bind (by simp [hk]) ?_
  refine (confined_elements (by omega) (he.mono (by omega)) hi).bind ?_
  rintro es j - ⟨hj, hmaps⟩
  exact confined_pure.2 fun _ => ⟨by omega, by simp [Expr.mapArgs, hmaps]⟩

omit he in
theorem confined_optionalParams :
    F.Confined floor optionalParams optionalParams i fun ps j =>
      i ≤ j ∧ ps.map (List.map (Name.map F.f)) = ps.map (List.map (Name.map F.g)) := by
  simp only [optionalParams, confined_peekKind_bind, confined_ite]
  refine ⟨fun hk => ?_, fun _ => confined_pure.2 fun _ => ⟨Nat.le_refl i, rfl⟩⟩
  refine confined_take_bind (by simp [hk]) ((confined_params (by omega)).bind ?_)
  rintro ps j - ⟨hj, hmaps⟩
  exact confined_pure.2 fun _ => ⟨by omega, congrArg some hmaps⟩

theorem confined_optionalBranch :
    F.Confined floor (optionalBranch expr) (optionalBranch expr') i
      fun body j => i ≤ j ∧ Expr.mapBody F.f body = Expr.mapBody F.g body := by
  simp only [optionalBranch, confined_peekKind_bind, confined_ite]
  refine ⟨fun _ => ?_, fun _ => confined_pure.2 fun _ => ⟨Nat.le_refl i, rfl⟩⟩
  refine (confined_branch hl he).bind ?_
  rintro e j - ⟨hj, hholds⟩
  exact confined_pure.2 fun _ => ⟨by omega, congrArg some hholds.map_eq⟩

theorem confined_pipeline {subject : Expr Extent} (hs : F.Holds subject) :
    F.Confined floor (pipeline expr subject) (pipeline expr' subject) i
      fun e j => i < j ∧ F.Holds e := by
  refine confined_of_le fun hi => ?_
  refine confined_expectName_bind hl rfl fun _ => ?_
  refine (confined_optionalArguments (by omega) (he.mono (by omega))).bind ?_
  rintro args j - ⟨hj, hargs⟩
  refine (confined_optionalParams (by omega)).bind ?_
  rintro ps k - ⟨hk, hps⟩
  refine (confined_optionalBranch (by omega) (he.mono (by omega))).bind ?_
  rintro body l hl' ⟨hl, hbody⟩
  rw [confined_position_bind, confined_pure]
  have place := hs.place.merge (F.inside_single (i := l - 1) (by omega))
  refine fun _ => ⟨by omega, ?_, place⟩
  simp [Expr.map, Name.map, hs.map_eq, F.place_single hi, hargs, hps, hbody, place.eq]

/-! ## Operators -/

theorem confined_operatorTail {left : Expr Extent} (hleft : F.Holds left)
    (hk : kindAt F.items i ≠ .endOfText) :
    F.Confined floor (operatorTail expr left) (operatorTail expr' left) i
      fun e j => i < j ∧ F.Holds e := by
  have weaken {e : Expr Extent} {j : Nat} (h : i + 1 < j ∧ F.Holds e) : i < j ∧ F.Holds e :=
    ⟨by omega, h.2⟩
  have hi := Nat.le_of_lt (F.lt_last hk)
  have he' := he.mono (Nat.le_succ i)
  simp only [operatorTail, confined_position_bind]
  refine confined_take_bind hk ?_
  split
  · exact (confined_ternary (by omega) he' hleft).imp fun _ _ => weaken
  · exact (confined_member (by omega) hleft).imp fun _ _ => weaken
  · exact (confined_index (by omega) he' hleft hi).imp fun _ _ => weaken
  · exact (confined_pipeline (by omega) he' hleft).imp fun _ _ => weaken
  · split
    · refine (he' _ _ (Nat.le_refl _)).bind ?_
      rintro right j - ⟨hj, hright⟩
      have place := hleft.place.merge hright.place
      exact confined_pure.2 fun _ =>
        ⟨by omega, by simp [Expr.map, hleft.map_eq, hright.map_eq, place.eq], place⟩
    · exact confined_pure.2 fun _ => ⟨by omega, hleft⟩

/-- There are more rounds than items left. -/
theorem confined_operators {limit : Precedence} {n n' : Nat} {left : Expr Extent}
    (hleft : F.Holds left) (hn : F.last < n + i) (hn' : F.last < n' + i) :
    F.Confined floor (operators expr limit n left) (operators expr' limit n' left) i
      fun e j => i ≤ j ∧ F.Holds e := by
  induction n generalizing i n' left with
  | zero => exact confined_of_le fun hi => by omega
  | succ n ih =>
    refine confined_of_le fun hi => ?_
    obtain ⟨n', rfl⟩ : ∃ m, n' = m + 1 := ⟨n' - 1, by omega⟩
    simp only [operators, confined_peekKind_bind, confined_ite]
    refine ⟨fun hk => ?_, fun _ => confined_pure.2 fun _ => ⟨Nat.le_refl i, hleft⟩⟩
    refine (confined_operatorTail hl he hleft (ne_endOfText_of_lt_leftPrecedence hk)).bind ?_
    rintro e j - ⟨hj, hholds⟩
    refine (ih (by omega) (he.mono (by omega)) hholds (by omega) (by omega)).imp ?_
    rintro _ _ ⟨hle, hholds⟩
    exact ⟨by omega, hholds⟩

end

/-! ## Operands -/

section

variable (hl : floor ≤ i) (he : F.ConfinedFrom floor (i + 1) expr expr')

include hl he

omit hl he in
theorem confined_literal {value : Literal} (hk : kindAt F.items i ≠ .endOfText) :
    F.Confined floor (literal value) (literal value) i fun e j => i < j ∧ F.Holds e := by
  have place : F.Inside (.single i) := F.inside_single (Nat.le_of_lt (F.lt_last hk))
  simp only [literal, confined_position_bind]
  exact confined_take_bind hk
    (confined_pure.2 fun _ => ⟨by omega, by simp [Expr.map, place.eq], place⟩)

theorem confined_grouped (hk : kindAt F.items i ≠ .endOfText) :
    F.Confined floor (grouped expr) (grouped expr') i fun e j => i < j ∧ F.Holds e := by
  have hi := Nat.le_of_lt (F.lt_last hk)
  simp only [grouped, confined_position_bind]
  refine confined_take_bind hk ((he _ _ (Nat.le_refl _)).bind ?_)
  rintro e j - ⟨hj, hholds⟩
  refine confined_close_bind (by omega) hi fun _ => ?_
  rw [confined_extentFrom_bind, confined_pure]
  exact fun hj' => ⟨by omega, hholds.withPlace (F.inside_from hi hj')⟩

theorem confined_list (hk : kindAt F.items i ≠ .endOfText) :
    F.Confined floor (list expr) (list expr') i fun e j => i < j ∧ F.Holds e := by
  have hi := Nat.le_of_lt (F.lt_last hk)
  simp only [list, confined_position_bind]
  refine confined_take_bind hk ((confined_elements (by omega) he hi).bind ?_)
  rintro es j hj' ⟨hj, hmaps⟩
  have place := F.inside_from hi hj'
  exact confined_extentFrom_bind.2 (confined_pure.2 fun _ =>
    ⟨by omega, by simp [Expr.map, hmaps, place.eq], place⟩)

omit hl in
theorem confined_negativeInteger {start : Nat} (hl : floor < i) (hk : kindAt F.items i = .integerLit)
    (hs : start ≤ F.last) :
    F.Confined floor (negativeInteger expr start) (negativeInteger expr' start) i
      fun e j => i < j ∧ F.Holds e := by
  have hsize := F.size_eq
  have hle := F.size_le
  refine (confined_integerValue (by omega) (by simp [hk])).bind ?_
  rintro v _ hj rfl
  have place := F.inside_from hs hj
  have holds : F.Holds (.literal (.integer v) ⟨start, i + 1 - 1⟩) :=
    ⟨congrArg (Expr.literal (.integer v)) place.eq, place⟩
  rw [confined_extentFrom_bind, confined_remaining_bind]
  refine (confined_operators (by omega) he holds (by omega) (by omega)).imp ?_
  rintro _ _ ⟨hle, hholds⟩
  exact ⟨by omega, hholds⟩

theorem confined_unary {op : UnaryOp} (hk : kindAt F.items i ≠ .endOfText) :
    F.Confined floor (unary expr op) (unary expr' op) i fun e j => i < j ∧ F.Holds e := by
  have hi := Nat.le_of_lt (F.lt_last hk)
  simp only [unary, confined_position_bind]
  refine confined_take_bind hk ?_
  rw [confined_peekKind_bind, confined_ite]
  refine ⟨fun h => ?_, fun _ => ?_⟩
  · refine (confined_negativeInteger (he.mono (by omega)) (by omega) h.2 hi).imp ?_
    rintro _ _ ⟨hle, hholds⟩
    exact ⟨by omega, hholds⟩
  · refine (he _ _ (Nat.le_refl _)).bind ?_
    rintro e j hj' ⟨hj, hholds⟩
    have place := F.inside_from hi hj'
    exact confined_extentFrom_bind.2 (confined_pure.2 fun _ =>
      ⟨by omega, by simp [Expr.map, hholds.map_eq, place.eq], place⟩)

theorem confined_operand :
    F.Confined floor (operand expr) (operand expr') i fun e j => i < j ∧ F.Holds e := by
  refine confined_of_le fun hi => ?_
  have place := F.inside_single hi
  -- an expression of one item
  have leaf {e : Expr Extent} (hp : e.place = .single i) (he : e.map F.f = e.map F.g) :
      i < i + 1 ∧ F.Holds e := ⟨Nat.lt_succ_self i, he, hp ▸ place⟩
  have eq := place.eq
  have read {k : TokenKind} (hk : (itemAt F.items i).kind = k) (hne : k ≠ .endOfText) :
      kindAt F.items i ≠ .endOfText := fun h => hne (hk.symm.trans h)
  simp only [operand, confined_position_bind, confined_peek_bind]
  split
  · rename_i hk
    refine (confined_integerValue hl (read hk (by simp))).bind ?_
    rintro v _ - rfl
    exact confined_pure.2 fun _ => leaf rfl (congrArg (Expr.literal _) eq)
  · rename_i hk
    refine (confined_floatValue hl (read hk (by simp))).bind ?_
    rintro v _ - rfl
    exact confined_pure.2 fun _ => leaf rfl (congrArg (Expr.literal _) eq)
  · rename_i hk
    exact confined_literal (read hk (by simp))
  · rename_i hk
    exact confined_literal (read hk (by simp))
  · rename_i hk
    exact confined_literal (read hk (by simp))
  · rename_i hk
    exact confined_literal (read hk (by simp))
  · rename_i hk
    exact confined_literal (read hk (by simp))
  · rename_i hk
    exact confined_literal (read hk (by simp))
  · rename_i hk
    exact confined_take_bind (read hk (by simp))
      (confined_pure.2 fun _ => leaf rfl (congrArg (Expr.dollar _) eq))
  · rename_i hk
    exact confined_take_bind (read hk (by simp))
      (confined_pure.2 fun _ => leaf rfl (congrArg (Expr.property _) eq))
  · rename_i hk
    exact confined_take_bind (read hk (by simp))
      (confined_pure.2 fun _ => leaf rfl (congrArg (Expr.relation _) eq))
  · rename_i hk
    exact confined_take_bind (read hk (by simp))
      (confined_pure.2 fun _ => leaf rfl (congrArg (Expr.datatype _) eq))
  · rename_i hk
    exact confined_unary hl he (read hk (by simp))
  · rename_i hk
    exact confined_unary hl he (read hk (by simp))
  · rename_i hk
    exact confined_grouped hl he (read hk (by simp))
  · rename_i hk
    exact confined_list hl he (read hk (by simp))
  · exact confined_reject (fun _ => rfl) hl

end

/-! ## Whole expressions -/

/-- There are more rounds than items left. -/
theorem confined_expressionWithin {limit : Precedence} {n n' : Nat} (hl : floor ≤ i)
    (hn : F.last < n + i) (hn' : F.last < n' + i) :
    F.Confined floor (expressionWithin n limit) (expressionWithin n' limit) i
      fun e j => i < j ∧ F.Holds e := by
  induction n generalizing i n' limit with
  | zero => exact confined_of_le fun hi => by omega
  | succ n ih =>
    refine confined_of_le fun hi => ?_
    obtain ⟨n', rfl⟩ : ∃ m, n' = m + 1 := ⟨n' - 1, by omega⟩
    have he : F.ConfinedFrom floor (i + 1) (expressionWithin n) (expressionWithin n') :=
      fun _ _ hj => ih (by omega) (by omega) (by omega)
    have hsize := F.size_eq
    have hle := F.size_le
    simp only [expressionWithin]
    refine (confined_operand hl he).bind ?_
    rintro left j - ⟨hj, hleft⟩
    rw [confined_remaining_bind]
    refine (confined_operators (by omega) (he.mono hj) hleft (by omega) (by omega)).imp ?_
    rintro _ _ ⟨hle, hholds⟩
    exact ⟨by omega, hholds⟩

theorem confined_expression (hl : floor ≤ i) :
    F.Confined floor expression expression i fun e j => i < j ∧ F.Holds e := by
  refine confined_of_le fun hi => ?_
  have hsize := F.size_eq
  have hle := F.size_le
  exact confined_remaining_bind.2 (confined_expressionWithin hl (by omega) (by omega))

end Frame

end SchemaLang
