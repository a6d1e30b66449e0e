import Mathlib.Data.Nat.Nth
import SchemaLang.Proofs.Overlap.Unit

/-!
# Leaving out closing braces

* `Thinning` is a text without a problem, and the same text without some of the closing braces.
* `Thinning.rank i` is where item `i` stands once these are left out, or what stands behind it.

If only last items of types are left out, the rest has the same entries, and each type that has lost its
closing brace costs one problem (`Thinning.unitBody_rest`). Behind such a type stands a declaration or the end
of the text, or else the text had a problem.
-/

set_option autoImplicit false

namespace SchemaLang

theorem SchemaUnit.mem_types {σ : Type} {u : SchemaUnit σ} {t : TypeDecl σ} :
    t ∈ u.types ↔ .type t ∈ u.declarations := by
  unfold SchemaUnit.types
  rw [List.mem_filterMap]
  constructor
  · rintro ⟨_ | _, hd, h⟩
    · cases h
      exact hd
    · cases h
  · exact fun hd => ⟨.type t, hd, rfl⟩

structure Thinning where
  whole : Items
  rest : Items
  /-- The items left out. -/
  gone : Finset Nat
  ended : Ended whole
  noInvalid : NoInvalid whole
  size_eq : rest.size = Nat.count (· ∉ gone) whole.size
  same : ∀ i ∉ gone, (itemAt whole i).Same (itemAt rest (Nat.count (· ∉ gone) i))
  brace : ∀ i ∈ gone, kindAt whole i = .symbol .rBrace

namespace Thinning

variable (T : Thinning) {i j k : Nat}

def rank (i : Nat) : Nat := Nat.count (· ∉ T.gone) i

variable {T}

theorem rank_succ (h : i ∉ T.gone) : T.rank (i + 1) = T.rank i + 1 :=
  Nat.count_succ_eq_succ_count h

theorem rank_succ_gone (h : i ∈ T.gone) : T.rank (i + 1) = T.rank i :=
  Nat.count_succ_eq_count (not_not.2 h)

theorem rank_add (h : ∀ l < k, i + l ∉ T.gone) : T.rank (i + k) = T.rank i + k := by
  induction k with
  | zero => rfl
  | succ k ih =>
    rw [← Nat.add_assoc, rank_succ (h k (Nat.lt_succ_self k)),
      ih fun l hl => h l (Nat.lt_succ_of_lt hl), Nat.add_assoc]

theorem not_gone (h : kindAt T.whole i ≠ .symbol .rBrace) : i ∉ T.gone :=
  fun hi => h (T.brace i hi)

theorem same_rank (h : i ∉ T.gone) : (itemAt T.whole i).Same (itemAt T.rest (T.rank i)) := T.same i h

theorem kindAt_rank (h : i ∉ T.gone) : kindAt T.rest (T.rank i) = kindAt T.whole i :=
  (same_rank h).kind_eq

/-- No more items are left out than there are. -/
theorem rank_size_le (hi : i ≤ T.whole.size) :
    T.rest.size + i ≤ T.whole.size + T.rank i := by
  have hle : T.rank (i + (T.whole.size - i)) ≤ T.rank i + (T.whole.size - i) := by
    unfold rank
    rw [Nat.count_add]
    exact Nat.add_le_add_left (Nat.count_le _) _
  rw [Nat.add_sub_cancel' hi] at hle
  have hsize : T.rest.size = T.rank T.whole.size := T.size_eq
  omega

theorem ended_rest : Ended T.rest := by
  have hpos := T.ended.pos
  have hlast : T.whole.size - 1 ∉ T.gone :=
    not_gone (by rw [(T.ended.end_iff _).2 (by omega)]; simp)
  have hsize : T.rest.size = T.rank (T.whole.size - 1) + 1 := by
    rw [← rank_succ hlast, Nat.sub_add_cancel hpos]
    exact T.size_eq
  refine ⟨by omega, fun r => ?_⟩
  -- every position is that of an item that is still there
  have hinf : (Set.ofPred (· ∉ T.gone)).Infinite := T.gone.finite_toSet.infinite_compl
  obtain ⟨i, hi, rfl⟩ : ∃ i, i ∉ T.gone ∧ T.rank i = r :=
    ⟨Nat.nth (· ∉ T.gone) r, Nat.nth_mem_of_infinite hinf r, Nat.count_nth_of_infinite hinf r⟩
  rw [kindAt_rank hi, T.ended.end_iff, hsize]
  constructor
  · intro hle
    have := Nat.count_monotone (· ∉ T.gone) (show T.whole.size - 1 ≤ i by omega)
    exact Nat.succ_le_succ this
  · intro hle
    by_contra hlt
    have : T.rank i < T.rank (T.whole.size - 1) := Nat.count_strict_mono hi (by omega)
    omega

/-! ## Entries -/

/-- What may stand behind a type ends it if its closing brace is missing. -/
theorem halts_of_next {items : Items} {i : Nat}
    (h : kindAt items i = .endOfText ∨ atDeclaration items i = true) : (kindAt items i).Halts := by
  rcases h with h | h
  · exact .inl h
  · rcases Rule.atDeclaration_iff.1 h with ⟨h, -⟩ | ⟨h, -⟩ | ⟨h, -⟩
    · exact .inr (.inr (.inl h))
    · exact .inr (.inr (.inr h))
    · exact .inr (.inl h)

theorem atDeclaration_rank (h : atDeclaration T.whole i = true) :
    atDeclaration T.rest (T.rank i) = true := by
  have keep {l : Nat} {κ : TokenKind} (hκ : κ ≠ .symbol .rBrace) (hl : kindAt T.whole l = κ) :
      kindAt T.rest (T.rank l) = κ ∧ T.rank (l + 1) = T.rank l + 1 :=
    have hl' : l ∉ T.gone := not_gone (hl ▸ hκ)
    ⟨(kindAt_rank hl').trans hl, rank_succ hl'⟩
  rcases Rule.atDeclaration_iff.1 h with ⟨h0, h1⟩ | ⟨h0, h1⟩ | ⟨h0, h1, h2⟩
  · obtain ⟨h0, hs⟩ := keep (by simp) h0
    exact Rule.atDeclaration_iff.2 (.inl ⟨h0, hs ▸ (keep (by simp) h1).1⟩)
  · obtain ⟨h0, hs⟩ := keep (by simp) h0
    exact Rule.atDeclaration_iff.2 (.inr (.inl ⟨h0, hs ▸ (keep (by simp) h1).1⟩))
  · obtain ⟨h0, hs⟩ := keep (by simp) h0
    obtain ⟨h1, hs'⟩ := keep (by simp) h1
    rw [hs] at h1 hs'
    have hk : kindAt T.whole (i + 2) ≠ .symbol .rBrace := by
      rcases h2 with h2 | h2 | h2 <;> simp [h2]
    rw [← (keep hk rfl).1, show T.rank (i + 2) = T.rank i + 2 from hs'] at h2
    exact Rule.atDeclaration_iff.2 (.inr (.inr ⟨h0, h1, h2⟩))

variable (T) in
/-- Items that are all still there, and what is next then. -/
def overlap (i k : Nat) (hi : i ≤ T.whole.size) (hk : ∀ l < k, i + l ∉ T.gone)
    (hwall : Wall (kindAt T.whole (i + k)) (kindAt T.rest (T.rank i + k))) : Overlap where
  left := T.whole
  right := T.rest ++ Array.replicate (T.whole.size + T.rank i - (T.rest.size + i)) (Item.atEnd false)
  start := i
  start' := T.rank i
  size := k
  same := fun l hl => by
    rw [itemAt_pad, ← rank_add fun l' hl' => hk l' (Nat.lt_trans hl' hl)]
    exact T.same _ (hk l hl)
  wall := by
    rwa [kindAt_pad]
  sizes := by
    have := rank_size_le hi
    rw [Array.size_append, Array.size_replicate]
    omega
  ended := T.ended
  noInvalid := T.noInvalid

/-- Nothing behind the end is used. -/
theorem entry_pad (n : Nat) (h : kindAt T.whole i ≠ .endOfText) (hi : i ∉ T.gone) :
    Rule.entry (T.rest ++ Array.replicate n (Item.atEnd false)) (T.rank i) =
      Rule.entry T.rest (T.rank i) := by
  let frame : Frame Unit := T.ended_rest.frame (Array.replicate n (Item.atEnd false)) forget forget
    fun _ _ _ => rfl
  rw [← kindAt_rank hi] at h
  exact (Frame.confined_entry (frame.lt_last h).le).1

theorem entry_rest {e : Entry} (he : Rule.entry.Yields T.whole i e j)
    (hj : j ∉ T.gone) (hk : ∀ l, i ≤ l → l < j → l ∉ T.gone) :
    ∃ e', Rule.entry.Yields T.rest (T.rank i) e' (T.rank j) ∧ Overlap.SameEntry e e' := by
  have hne : kindAt T.whole i ≠ .endOfText := by
    rcases Rule.kindAt_of_yields_entry he with ⟨h, -⟩ | ⟨h | h | h, -⟩ <;> simp [h]
  have hlt : i < j := ((Rule.ensures_entry T.ended.readWithin).of_yields he).lt
  have hrank : T.rank i + (j - i) = T.rank j := by
    rw [← rank_add fun l hl => hk _ (by omega) (by omega), Nat.add_sub_cancel' hlt.le]
  have hwall : Wall (kindAt T.whole (i + (j - i))) (kindAt T.rest (T.rank i + (j - i))) := by
    rw [hrank, Nat.add_sub_cancel' hlt.le]
    exact .inl (kindAt_rank hj)
  let S := T.overlap i (j - i) (lt_size_of_kindAt_ne hne).le
    (fun l hl => hk _ (by omega) (by omega)) hwall
  rcases S.carries_entry 0 e j he with hcross | ⟨m, e', -, -, hm, he', hsame⟩
  · have : i + (j - i) < j := hcross
    omega
  · have hpad : Rule.entry S.right (T.rank i) = Rule.entry T.rest (T.rank i) :=
      entry_pad _ hne (hk i (Nat.le_refl i) hlt)
    have hm : j = i + m := hm
    have hrest : Rule.entry T.rest (T.rank i) = ⟨some e', T.rank i + m, []⟩ := hpad.symm.trans he'
    rw [show m = j - i by omega, hrank] at hrest
    exact ⟨e', hrest, hsame⟩

/-- A type that has lost its closing brace, before a declaration or the end of the text. -/
theorem entry_unclosed {t : TypeDecl Extent}
    (he : Rule.entry.Yields T.whole i (.declaration (.type t)) (j + 1))
    (hk : ∀ l, i ≤ l → l < j → l ∉ T.gone) (hj : j ∈ T.gone) (hij : i < j)
    (hnext : kindAt T.whole (j + 1) = .endOfText ∨ atDeclaration T.whole (j + 1) = true) :
    ∃ d' opened, Rule.entry T.rest (T.rank i) = ⟨some (.declaration d'), T.rank (j + 1),
        [⟨.unclosed .rBrace (.typeBody t.name.text) (.single opened), .single (T.rank j)⟩]⟩ ∧
      Overlap.SameDeclaration (.type t) d' := by
  rcases Rule.kindAt_of_yields_entry he with ⟨-, d, hd⟩ | ⟨hstart, d, hd, ht⟩
  · cases hd
  · cases hd
    have hne : kindAt T.whole i ≠ .endOfText := by
      rcases hstart with h | h | h <;> simp [h]
    have hclose := T.brace j hj
    have hjnext : kindAt T.whole (j + 1) ≠ .symbol .rBrace := by
      intro hr
      simp [atDeclaration, hr] at hnext
    have hrank : T.rank i + (j - i) = T.rank j := by
      rw [← rank_add fun l hl => hk _ (by omega) (by omega), Nat.add_sub_cancel' hij.le]
    have hkind : kindAt T.rest (T.rank j) = kindAt T.whole (j + 1) := by
      rw [← rank_succ_gone hj]
      exact kindAt_rank (not_gone hjnext)
    have hdecl (h : atDeclaration T.whole (j + 1) = true) : atDeclaration T.rest (T.rank j) = true := by
      rw [← rank_succ_gone hj]
      exact atDeclaration_rank h
    have hwall : Wall (kindAt T.whole (i + (j - i))) (kindAt T.rest (T.rank i + (j - i))) := by
      rw [hrank, Nat.add_sub_cancel' hij.le, hkind]
      exact .inr ⟨hclose, halts_of_next hnext⟩
    let S := T.overlap i (j - i) (lt_size_of_kindAt_ne hne).le
      (fun l hl => hk _ (by omega) (by omega)) hwall
    have hend : kindAt S.right (S.start' + S.size) = .endOfText ∨
        atDeclaration S.right (S.start' + S.size) = true := by
      show kindAt (T.rest ++ Array.replicate _ _) (T.rank i + (j - i)) = .endOfText ∨
        atDeclaration (T.rest ++ Array.replicate _ _) (T.rank i + (j - i)) = true
      rw [kindAt_pad, atDeclaration_pad, hrank, hkind]
      exact hnext.imp_right hdecl
    have hsize : S.start + S.size = j := Nat.add_sub_cancel' hij.le
    obtain ⟨d', opened, hd', hsame⟩ :=
      S.endsAt_declaration (k := 0) hend (hsize ▸ hclose) (hsize ▸ ht)
    have hends : S.start' + S.size = T.rank j := hrank
    rw [hends] at hd'
    have hi : i ∉ T.gone := hk i (Nat.le_refl i) hij
    have hpad : Rule.entry S.right (T.rank i) = Rule.entry T.rest (T.rank i) := entry_pad _ hne hi
    have hfirst : Rule.startsDeclaration (kindAt S.right (T.rank i)) := by
      show Rule.startsDeclaration (kindAt (T.rest ++ Array.replicate _ _) (T.rank i))
      rwa [kindAt_pad, kindAt_rank hi]
    refine ⟨d', opened, ?_, hsame⟩
    rw [rank_succ_gone hj, ← hpad, Rule.entry_of_startsDeclaration hfirst]
    show Rule.andThen Rule.declaration _ S.right (S.start' + 0) = _
    rw [Rule.andThen, hd']
    rfl

/-! ## The rest of a unit -/

variable (T) in
/-- The problem with a type that has lost its closing brace is at what is next. -/
structure Unclosed (t : TypeDecl Extent) (p : Problem Extent) : Prop where
  gone : t.place.last ∈ T.gone
  next : kindAt T.whole (t.place.last + 1) = .endOfText ∨
    atDeclaration T.whole (t.place.last + 1) = true
  problem : ∃ opened, p = ⟨.unclosed .rBrace (.typeBody t.name.text) (.single opened),
    .single (T.rank t.place.last)⟩

variable (T) in
/-- The types that have lost their closing braces. -/
def opened (ds : List (Declaration Extent)) : List (TypeDecl Extent) :=
  (ds.filterMap fun | .type t => some t | .datatype _ => none).filter (·.place.last ∈ T.gone)

theorem opened_declarations (u : SchemaUnit Extent) :
    T.opened u.declarations = u.types.filter (·.place.last ∈ T.gone) := by
  unfold opened SchemaUnit.types
  congr 2
  funext d
  cases d <;> rfl

variable (T) in
structure Rest (b b' : UnitBody) : Prop where
  imports : b'.imports.map (Import.map forget) = b.imports.map (Import.map forget)
  declarations : b'.declarations.map (Declaration.map forget) =
    b.declarations.map (Declaration.map forget)
  problems : List.Forall₂ T.Unclosed (T.opened b.declarations) b'.problems

theorem rest_empty (i i' : Nat) : T.Rest (.empty i) (.empty i') := ⟨rfl, rfl, .nil⟩

theorem Rest.addImport {b b' : UnitBody} {d d' : Import Extent} (h : T.Rest b b')
    (hd : d'.map forget = d.map forget) : T.Rest (b.addImport d) (b'.addImport d') :=
  ⟨List.cons_eq_cons.2 ⟨hd, h.imports⟩, h.declarations, h.problems⟩

theorem Rest.addDeclaration {b b' : UnitBody} {d d' : Declaration Extent} (h : T.Rest b b')
    (hd : d'.map forget = d.map forget) (hk : d.place.last ∉ T.gone) :
    T.Rest (b.addDeclaration d) (b'.addDeclaration d') := by
  refine ⟨h.imports, List.cons_eq_cons.2 ⟨hd, h.declarations⟩, ?_⟩
  have hopened : T.opened (d :: b.declarations) = T.opened b.declarations := by
    cases d with
    | type t => exact List.filter_cons_of_neg (by simpa [Declaration.place] using hk)
    | datatype _ => rfl
  show List.Forall₂ T.Unclosed (T.opened (d :: b.declarations)) b'.problems
  rw [hopened]
  exact h.problems

theorem Rest.addUnclosed {b b' : UnitBody} {t : TypeDecl Extent} {d' : Declaration Extent}
    {p : Problem Extent} (h : T.Rest b b') (hd : d'.map forget = (Declaration.type t).map forget)
    (hp : T.Unclosed t p) :
    T.Rest (b.addDeclaration (.type t)) ((b'.addDeclaration d').addProblems [p]) := by
  refine ⟨h.imports, List.cons_eq_cons.2 ⟨hd, h.declarations⟩, ?_⟩
  have hopened : T.opened (.type t :: b.declarations) = t :: T.opened b.declarations :=
    List.filter_cons_of_pos (by simpa using hp.gone)
  show List.Forall₂ T.Unclosed (T.opened (.type t :: b.declarations)) (p :: b'.problems)
  rw [hopened]
  exact .cons hp h.problems

/-! ### Aliases -/

end Thinning

/-- The same imports have the same aliases, and so have they no problem with those of the same imports
before them. -/
theorem AliasTable.exists_add_eq {t t' u : AliasTable} {d d' : Import Extent}
    (h : t.add d = ([], t')) (hd : d'.map forget = d.map forget)
    (hf : ∀ name, u.find? name = none ↔ t.find? name = none) :
    ∃ u', u.add d' = ([], u') ∧ ∀ name, u'.find? name = none ↔ t'.find? name = none := by
  obtain ⟨hnew, hreserved, hfind⟩ := of_add_eq_nil h
  have hname : d'.effectiveAlias = d.effectiveAlias := by
    rw [← Import.effectiveAlias_map forget, hd, Import.effectiveAlias_map]
  have halias : d'.alias_.isNone = d.alias_.isNone := by
    have := congrArg (fun d => d.alias_.isNone) hd
    simpa [Import.map] using this
  have hadd : u.add d' = ([], ⟨(d'.effectiveAlias, d'.aliasPlace) :: u.entries⟩) := by
    have hno : (d'.alias_.isNone && isReserved d'.effectiveAlias) = false := by
      rw [halias, hname]
      cases ha : d.alias_ with
      | none => simp [hreserved ha]
      | some _ => rfl
    unfold add
    dsimp only
    rw [hno, if_neg (by simp), hname, (hf _).2 hnew]
  refine ⟨_, hadd, fun name => ?_⟩
  rw [(of_add_eq_nil hadd).2.2, hfind, hname, hf]

namespace Thinning

variable {T : Thinning} {i : Nat}

/-! ### The loop -/

/-- Declarations lie behind the item from which reading goes on. -/
theorem le_last_of_mem {n j : Nat} {aliases : AliasTable} {declared : Bool} {d : Declaration Extent}
    (hd : d ∈ (unitBody T.whole n aliases declared j).declarations) : j ≤ d.place.last := by
  obtain ⟨entries, hfill⟩ : ∃ entries, (unitBody T.whole n aliases declared j).FilledBy entries j :=
    exists_filledBy_unitBody T.ended.readWithin
  exact hfill.le_declaration d hd

/-- What is next where nothing is wrong. -/
theorem next_cases {n j : Nat} {aliases : AliasTable} {declared : Bool} (hn : T.whole.size ≤ n + j)
    (h : (unitBody T.whole n aliases declared j).problems = []) :
    kindAt T.whole j ≠ .symbol .rBrace ∧
      (declared = true → kindAt T.whole j = .endOfText ∨ atDeclaration T.whole j = true) := by
  by_cases hk : kindAt T.whole j = .endOfText
  · exact ⟨by simp [hk], fun _ => .inl hk⟩
  · have hlt := lt_size_of_kindAt_ne hk
    obtain ⟨n, rfl⟩ : ∃ m, n = m + 1 := ⟨n - 1, by omega⟩
    rcases unitBody_cases T.noInvalid hk h with ⟨d, l, -, hd, rfl, -, -⟩ | ⟨d, l, hd, -⟩
    · rcases Rule.kindAt_of_yields_entry hd with ⟨hk, -⟩ | ⟨-, d', hd', -⟩
      · exact ⟨by simp [hk], nofun⟩
      · cases hd'
    · rcases Rule.kindAt_of_yields_entry hd with ⟨-, d', hd'⟩ | ⟨hs, d', -, hd'⟩
      · cases hd'
      · have hdecl := Rule.atDeclaration_of_yields hs hd'
        refine ⟨?_, fun _ => .inr hdecl⟩
        rcases hs with hs | hs | hs <;> simp [hs]

variable (T) in
/-- From item `i` on, only last items of types are left out. -/
def Losses (i : Nat) (b : UnitBody) : Prop :=
  ∀ g ∈ T.gone, i ≤ g → ∃ t, .type t ∈ b.declarations ∧ t.place.last = g

theorem Losses.mono {b : UnitBody} {j : Nat} (h : T.Losses i b) (hij : i ≤ j) : T.Losses j b :=
  fun g hg hjg => h g hg (Nat.le_trans hij hjg)

/-- Before the declarations of a body, nothing is left out. -/
theorem Losses.not_gone {b : UnitBody} {j l : Nat} (h : T.Losses i b)
    (hb : ∀ d ∈ b.declarations, j ≤ d.place.last) (hil : i ≤ l) (hlj : l < j) : l ∉ T.gone := by
  intro hl
  obtain ⟨t, ht, rfl⟩ := h l hl hil
  have hle : j ≤ t.place.last := hb _ ht
  omega

/-- Of a declaration before the others, only the last item may be left out, if it is a type. -/
theorem Losses.of_addDeclaration {b : UnitBody} {j : Nat} {d : Declaration Extent}
    (h : T.Losses i (b.addDeclaration d)) (hd : d.place = ⟨i, j - 1⟩) (hij : i < j)
    (hb : ∀ d ∈ b.declarations, j ≤ d.place.last) :
    T.Losses j b ∧ ∀ g ∈ T.gone, i ≤ g → g < j → g = j - 1 ∧ ∃ t, d = .type t := by
  constructor
  · intro g hg hjg
    obtain ⟨t, ht, rfl⟩ := h g hg (by omega)
    rcases List.mem_cons.1 ht with rfl | ht
    · have hlast : t.place.last = j - 1 := congrArg Extent.last hd
      omega
    · exact ⟨t, ht, rfl⟩
  · intro g hg hig hgj
    obtain ⟨t, ht, rfl⟩ := h g hg hig
    rcases List.mem_cons.1 ht with rfl | ht
    · exact ⟨congrArg Extent.last hd, t, rfl⟩
    · have hle : j ≤ t.place.last := hb _ ht
      omega

/-- Of a type that has lost its closing brace, all the same is read; it costs a problem. -/
theorem exists_unclosed {t : TypeDecl Extent} {j : Nat}
    (ht : Rule.entry.Yields T.whole i (.declaration (.type t)) j) (hi : i ∉ T.gone)
    (hlost : ∀ l ∈ T.gone, i ≤ l → l < j → l = j - 1) (hj : j - 1 ∈ T.gone)
    (hnext : kindAt T.whole j = .endOfText ∨ atDeclaration T.whole j = true) :
    ∃ d' p, Rule.entry T.rest (T.rank i) = ⟨some (.declaration d'), T.rank j, [p]⟩ ∧
      Overlap.SameDeclaration (.type t) d' ∧ T.Unclosed t p := by
  obtain ⟨hlt, hplace⟩ := Rule.place_of_yields_entry T.ended.readWithin ht
  have hij : i ≠ j - 1 := fun h => hi (h ▸ hj)
  have hsucc : j - 1 + 1 = j := Nat.sub_add_cancel (by omega)
  have hkept (l : Nat) (hil : i ≤ l) (hlj : l < j - 1) : l ∉ T.gone := by
    intro hl
    have := hlost l hl hil (by omega)
    omega
  obtain ⟨d', opened, hd', hsame⟩ :=
    entry_unclosed (j := j - 1) (hsucc ▸ ht) hkept hj (by omega) (hsucc ▸ hnext)
  have hlast : t.place.last = j - 1 := congrArg Extent.last hplace
  rw [hsucc] at hd'
  refine ⟨d', _, hd', hsame, hlast ▸ hj, ?_, opened, by rw [hlast]⟩
  rwa [hlast, hsucc]

theorem unitBody_rest {n : Nat} {aliases aliases' : AliasTable} {declared : Bool}
    (hn : T.whole.size ≤ n + i)
    (halias : ∀ name, aliases'.find? name = none ↔ aliases.find? name = none)
    (hclean : (unitBody T.whole n aliases declared i).problems = [])
    (hgone : T.Losses i (unitBody T.whole n aliases declared i)) :
    T.Rest (unitBody T.whole n aliases declared i) (unitBody T.rest n aliases' declared (T.rank i)) := by
  induction n generalizing i aliases aliases' declared with
  | zero => exact rest_empty _ _
  | succ n ih =>
    by_cases hk : kindAt T.whole i = .endOfText
    · have hi : i ∉ T.gone := not_gone (by simp [hk])
      rw [unitBody_of_end hk, unitBody_of_end ((kindAt_rank hi).trans hk)]
      exact rest_empty _ _
    · have hi : i ∉ T.gone := not_gone (next_cases hn hclean).1
      rcases unitBody_cases T.noInvalid hk hclean with
        ⟨d, j, aliases₁, hd, rfl, hadd, hb⟩ | ⟨d, j, hd, hb⟩
      · rw [hb] at hclean hgone ⊢
        have hlt : i < j := ((Rule.ensures_entry T.ended.readWithin).of_yields hd).lt
        have hj := not_gone (next_cases (by omega) hclean).1
        obtain ⟨e', he', hsame⟩ := entry_rest hd hj fun l => hgone.not_gone fun _ => le_last_of_mem
        cases e' with
        | declaration d' => exact hsame.elim
        | import_ d' =>
          obtain ⟨aliases₁', hadd', halias'⟩ := AliasTable.exists_add_eq hadd hsame halias
          rw [unitBody_of_import he' hadd']
          exact (ih (by omega) halias' hclean (hgone.mono hlt.le)).addImport hsame
      · rw [hb] at hclean hgone ⊢
        obtain ⟨hlt, hplace⟩ := Rule.place_of_yields_entry T.ended.readWithin hd
        have hnext := next_cases (by omega) hclean
        have hne : kindAt T.rest (T.rank i) ≠ .endOfText := by
          rwa [kindAt_rank hi]
        obtain ⟨hbehind, hown⟩ := hgone.of_addDeclaration hplace hlt fun _ => le_last_of_mem
        have hrest := ih (by omega) halias hclean hbehind
        by_cases hg : j - 1 ∈ T.gone
        · -- the type has lost its closing brace
          obtain ⟨-, t, rfl⟩ := hown _ hg (by omega) (by omega)
          obtain ⟨d', p, hd', hsame, hp⟩ :=
            exists_unclosed hd hi (fun l hl hil hlj => (hown l hl hil hlj).1) hg (hnext.2 rfl)
          rw [unitBody_of_declaration hne hd']
          exact hrest.addUnclosed hsame hp
        · obtain ⟨e', he', hsame⟩ := entry_rest hd (not_gone hnext.1) fun l hil hlj hl =>
            hg ((hown l hl hil hlj).1 ▸ hl)
          cases e' with
          | import_ d' => exact hsame.elim
          | declaration d' =>
            rw [unitBody_of_declaration hne he']
            refine hrest.addDeclaration hsame ?_
            rwa [hplace]

/-! ### Whole units -/

/-- Without some closing braces of types, the same unit is read, and every type that has lost its closing
brace costs one problem. -/
theorem readUnit_rest (hclean : (readUnit T.whole).2 = [])
    (hgone : ∀ g ∈ T.gone, ∃ t ∈ (readUnit T.whole).1.types, t.place.last = g) :
    (readUnit T.rest).1.map forget = (readUnit T.whole).1.map forget ∧
      List.Forall₂ T.Unclosed ((readUnit T.whole).1.types.filter (·.place.last ∈ T.gone))
        (readUnit T.rest).2 := by
  have hproblems : (Rule.header T.whole 0).problems = [] ∧ (wholeBody T.whole).problems = [] :=
    List.append_eq_nil_iff.1 hclean
  obtain ⟨h0, h1, hheader⟩ := Rule.header_eq_of_problems_eq_nil T.noInvalid hproblems.1
  have hi0 : 0 ∉ T.gone := not_gone (by simp [h0])
  have hi1 : 1 ∉ T.gone := not_gone (by simp [h1])
  have hrank1 : T.rank 1 = 1 := rank_succ hi0
  have hrank2 : T.rank 2 = 2 := by
    rw [rank_succ hi1, hrank1]
  have hheader' := Rule.yields_header ((kindAt_rank hi0).trans h0)
    (hrank1 ▸ (kindAt_rank hi1).trans h1)
  have hle : T.rest.size ≤ T.whole.size := T.size_eq ▸ Nat.count_le _
  have hwhole : wholeBody T.whole = unitBody T.whole T.whole.size .empty false 2 := by
    rw [wholeBody, hheader]
  have hrest : wholeBody T.rest = unitBody T.rest T.whole.size .empty false (T.rank 2) := by
    rw [← T.ended_rest.readWithin.rounds _ hle, hheader', hrank2]
  have hlosses : T.Losses 2 (wholeBody T.whole) := fun g hg _ => by
    obtain ⟨t, ht, rfl⟩ := hgone g hg
    exact ⟨t, SchemaUnit.mem_types.1 ht, rfl⟩
  have hbody : T.Rest (wholeBody T.whole) (wholeBody T.rest) := by
    rw [hwhole] at hproblems hlosses ⊢
    rw [hrest]
    exact unitBody_rest (by omega) (fun _ => Iff.rfl) hproblems.2 hlosses
  constructor
  · have hdoc : (itemAt T.rest 0).doc = (itemAt T.whole 0).doc := (same_rank hi0).doc_eq
    have hname : (itemAt T.rest 1).text = (itemAt T.whole 1).text := by
      have hsame := same_rank hi1
      rw [hrank1] at hsame
      exact hsame.text_eq
    unfold readUnit
    rw [hheader, hheader']
    simp only [SchemaUnit.map, Option.getD_some, hname, hdoc, hbody.imports, hbody.declarations]
  · have hproblems' : (readUnit T.rest).2 = (wholeBody T.rest).problems := by
      unfold readUnit
      rw [hheader']
      rfl
    rw [hproblems', ← opened_declarations]
    exact hbody.problems

end Thinning

end SchemaLang
