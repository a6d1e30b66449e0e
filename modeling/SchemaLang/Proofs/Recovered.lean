import Mathlib.Data.List.Forall2
import SchemaLang.Proofs.Cut.Unit
import SchemaLang.Proofs.Overlap.Unit

/-!
# Declarations behind malformed text

* `ReadsAlone type d`: behind a header, the items `type` are read without a problem, as the declaration `d`.

Main statement: behind any items, they are read as the same declaration, unless reading the items before
alone complains that a member name or an alias is missing at their end (`ReadsAlone.exists_readUnit_append`).
Such a name may be any keyword, so it would be the first word of the type.
-/

set_option autoImplicit false

namespace SchemaLang

section

variable (us vs : List Item) {i : Nat}

theorem itemAt_append_left (h : i < us.length) :
    itemAt (us ++ vs).toArray i = itemAt us.toArray i := by
  rw [itemAt, itemAt, Array.getD_eq_getD_getElem?, Array.getD_eq_getD_getElem?, List.getElem?_toArray,
    List.getElem?_toArray, List.getElem?_append_left h]

theorem itemAt_append_right (k : Nat) :
    itemAt (us ++ vs).toArray (us.length + k) = itemAt vs.toArray k := by
  rw [itemAt, itemAt, Array.getD_eq_getD_getElem?, Array.getD_eq_getD_getElem?, List.getElem?_toArray,
    List.getElem?_toArray, List.getElem?_append_right (Nat.le_add_right ..), Nat.add_sub_cancel_left]

end

/-! ## The same items behind others -/

section

variable (us : List Item) {ts : List Item} {e : Item} {k : Nat}

theorem itemAt_middle (hk : k < ts.length) :
    itemAt (us ++ (ts ++ [e])).toArray (us.length + k) = ts[k] := by
  rw [itemAt_append_right, itemAt_append_left _ _ hk]
  exact itemAt_of_getElem? (by simp [hk])

theorem kindAt_last (he : e.kind = .endOfText) :
    kindAt (us ++ (ts ++ [e])).toArray (us.length + ts.length) = .endOfText := by
  rw [kindAt, itemAt_append_right, itemAt_of_getElem? (t := e) (by simp), he]

/-- Items that stand behind different ones, up to the end of the text. -/
def Overlap.ofAppend (us' : List Item) {ts' : List Item} (hsame : List.Forall₂ Item.Same ts ts')
    {e' : Item} (he : e.kind = .endOfText) (he' : e'.kind = .endOfText)
    (hended : Ended (us ++ (ts ++ [e])).toArray) (hi : NoInvalid (us ++ (ts ++ [e])).toArray) :
    Overlap where
  left := (us ++ (ts ++ [e])).toArray
  right := (us' ++ (ts' ++ [e'])).toArray
  start := us.length
  start' := us'.length
  size := ts.length
  same := fun k hk => by
    have hk' : k < ts'.length := hsame.length_eq ▸ hk
    rw [itemAt_middle us hk, itemAt_middle us' hk']
    exact hsame.get hk hk'
  wall := .inl (by rw [kindAt_last us he, hsame.length_eq, kindAt_last us' he'])
  sizes := by
    have hlength := hsame.length_eq
    simp only [List.size_toArray, List.length_append, List.length_singleton]
    omega
  ended := hended
  noInvalid := hi

end

/-- Units with the same header. -/
theorem readUnit_of_header_eq {items items' : Items}
    (h : (Rule.header items' 0).value = (Rule.header items 0).value) :
    (readUnit items').1 = ⟨(readUnit items).1.name, (readUnit items).1.header, (readUnit items).1.doc,
      (wholeBody items').imports, (wholeBody items').declarations, unitExtent items'⟩ := by
  simp only [readUnit, h]

/-! ## Declarations that are read alone -/

structure ReadsAlone (type : List Item) (d : Declaration Extent) : Prop where
  starts : type.head?.map (·.kind) = some (.keyword .typeWord)
  plain : ∀ t ∈ type, t.kind ≠ .endOfText ∧ t.kind ≠ .invalid
  alone : ∃ s n e : Item, s.kind = .keyword .schemaWord ∧ n.kind = .stringLit ∧
    e.kind = .endOfText ∧ (readUnit (s :: n :: (type ++ [e])).toArray).2 = [] ∧
    (readUnit (s :: n :: (type ++ [e])).toArray).1.declarations = [d]

section

variable {items : Items} {d : Declaration Extent} (hi : NoInvalid items)

include hi

/-- The only entry of a body without problems reaches up to the end. -/
theorem entry_of_declarations_eq {n i : Nat} {aliases : AliasTable} {declared : Bool}
    (hk : kindAt items i = .keyword .typeWord)
    (hclean : (unitBody items (n + 2) aliases declared i).problems = [])
    (hd : (unitBody items (n + 2) aliases declared i).declarations = [d]) :
    ∃ j, Rule.entry.Yields items i (.declaration d) j ∧ kindAt items j = .endOfText := by
  rcases unitBody_cases hi (by simp [hk]) hclean with ⟨_, j, _, he, -⟩ | ⟨d', j, he, hb⟩
  · rcases Rule.kindAt_of_yields_entry he with ⟨hk', -⟩ | ⟨-, _, hcase, -⟩
    · simp [hk] at hk'
    · cases hcase
  · rw [hb] at hclean hd
    obtain ⟨rfl, hrest⟩ := List.cons_eq_cons.1 hd
    refine ⟨j, he, Classical.byContradiction fun hk => ?_⟩
    rcases unitBody_cases hi hk hclean with ⟨_, _, _, -, hdeclared, -⟩ | ⟨_, _, -, hb⟩
    · cases hdeclared
    · rw [hb] at hrest
      cases hrest

/-- A unit of one declaration is its header and that. -/
theorem entry_of_readUnit (hended : Ended items) (hk : kindAt items 2 = .keyword .typeWord)
    (hclean : (readUnit items).2 = []) (hd : (readUnit items).1.declarations = [d]) :
    Rule.entry.Yields items 2 (.declaration d) (items.size - 1) := by
  obtain ⟨hheader, hbody⟩ := List.append_eq_nil_iff.1 hclean
  obtain ⟨-, -, hheader⟩ := Rule.header_eq_of_problems_eq_nil hi hheader
  obtain ⟨n, hn⟩ : ∃ n, items.size = n + 2 := by
    have hlt : 2 < items.size := lt_size_of_kindAt_ne (by simp [hk])
    exact ⟨items.size - 2, by omega⟩
  have hwhole : wholeBody items = unitBody items (n + 2) .empty false 2 := by
    rw [wholeBody, hheader, hn]
  have hdecls : (wholeBody items).declarations = [d] := hd
  rw [hwhole] at hbody hdecls
  obtain ⟨j, hj, hend⟩ := entry_of_declarations_eq hi hk hbody hdecls
  have hle : items.size ≤ j + 1 := (hended.end_iff j).1 hend
  have hlt : j < items.size := by
    have hnext := (hended.next_entry (i := 2) (by simp [hk])).2.2
    rwa [hj] at hnext
  rwa [show items.size - 1 = j by omega]

end

namespace ReadsAlone

section

variable {type type' : List Item} {d : Declaration Extent} (h : ReadsAlone type d)

include h

theorem exists_cons : ∃ t ts, type = t :: ts ∧ t.kind = .keyword .typeWord := by
  obtain ⟨t, ht, hkind⟩ := Option.map_eq_some_iff.1 h.starts
  obtain ⟨ts, hts⟩ := List.head?_eq_some_iff.1 ht
  exact ⟨t, ts, hts, hkind⟩

/-- Alone, the items behind the header are the declaration. -/
theorem exists_alone : ∃ s n e : Item,
    Ended ([s, n] ++ (type ++ [e])).toArray ∧ NoInvalid ([s, n] ++ (type ++ [e])).toArray ∧
      e.kind = .endOfText ∧
      Rule.entry.Yields ([s, n] ++ (type ++ [e])).toArray 2 (.declaration d) (2 + type.length) := by
  obtain ⟨s, n, e, hs, hn, he, hclean, hd⟩ := h.alone
  have hplain : ∀ t ∈ [s, n] ++ type, t.kind ≠ .endOfText ∧ t.kind ≠ .invalid := by
    intro t ht
    rcases List.mem_append.1 ht with ht | ht
    · rcases List.mem_pair.1 ht with rfl | rfl
      · simp [hs]
      · simp [hn]
    · exact h.plain t ht
  refine ⟨s, n, e, ?_⟩
  rw [← List.append_assoc]
  have hended : Ended ([s, n] ++ type ++ [e]).toArray := ended_toArray (fun t ht => (hplain t ht).1) he
  have hi : NoInvalid ([s, n] ++ type ++ [e]).toArray := by
    refine noInvalid_toArray fun t ht => ?_
    rcases List.mem_append.1 ht with ht | ht
    · exact (hplain t ht).2
    · rw [List.mem_singleton.1 ht, he]
      decide
  have hfirst : kindAt ([s, n] ++ type ++ [e]).toArray 2 = .keyword .typeWord := by
    obtain ⟨t, ts, rfl, hkind⟩ := h.exists_cons
    exact (kindAt_of_getElem? (by simp)).trans hkind
  have hentry := entry_of_readUnit hi hended hfirst hclean hd
  rw [show ([s, n] ++ type ++ [e]).toArray.size - 1 = 2 + type.length by simp; omega] at hentry
  exact ⟨hended, hi, he, hentry⟩

variable (hsame : List.Forall₂ Item.Same type type') {e' : Item} (he' : e'.kind = .endOfText)

include hsame he'

/-- The declaration is read behind any other items, up to the end of the text. -/
theorem exists_entry (before : List Item) : ∃ d',
    Rule.entry.Yields (before ++ (type' ++ [e'])).toArray before.length (.declaration d')
      (before.length + type.length) ∧ d'.map forget = d.map forget := by
  obtain ⟨s, n, e, hended, hi, he, hentry⟩ := h.exists_alone
  let S := Overlap.ofAppend [s, n] before hsame he he' hended hi
  rcases S.carries_entry 0 _ _ hentry with hcross | ⟨m, e', -, -, hm, hyields, hd'⟩
  · exact absurd hcross (Nat.lt_irrefl _)
  · obtain rfl : m = type.length := by
      have hm : 2 + type.length = 2 + m := hm
      omega
    cases e' with
    | import_ _ => cases hd'
    | declaration d' => exact ⟨d', hyields, hd'⟩

variable {before : List Item}

omit he' in
theorem kind_ne_of_same : ∀ t ∈ type', t.kind ≠ .endOfText := by
  intro t ht
  obtain ⟨i, hi, rfl⟩ := List.getElem_of_mem ht
  have hi' : i < type.length := hsame.length_eq ▸ hi
  have hkind : type'[i].kind = type[i].kind := (hsame.get hi' hi).kind_eq
  rw [hkind]
  exact (h.plain _ (List.getElem_mem hi')).1

omit he' in
theorem kindAt_start :
    kindAt (before ++ (type' ++ [e'])).toArray before.length = .keyword .typeWord := by
  obtain ⟨t, ts, rfl, hkind⟩ := h.exists_cons
  obtain ⟨t', ts', ht', -, rfl⟩ := List.forall₂_cons_left_iff.1 hsame
  exact (kindAt_of_getElem? (by simp)).trans (ht'.kind_eq.trans hkind)

variable {e : Item} (he : e.kind = .endOfText) (hbefore : ∀ t ∈ before, t.kind ≠ .endOfText)
  (hlast : ∀ t ∈ before.getLast?, t.kind ≠ .keyword .abstractWord ∧ t.kind ≠ .keyword .partWord)

/-- A text that is cut off before the declaration, filled up to the same length. -/
def cut : Cut where
  left := (before ++ [e]).toArray ++ Array.replicate type.length (Item.atEnd false)
  right := (before ++ (type' ++ [e'])).toArray
  wall := before.length
  same := fun i hi => by rw [itemAt_pad, itemAt_append_left _ _ hi, itemAt_append_left _ _ hi]
  size_eq := by
    have hlength := hsame.length_eq
    simp only [Array.size_append, Array.size_replicate, List.size_toArray, List.length_append,
      List.length_singleton]
    omega
  end_iff := fun i => by
    rw [kindAt_pad, (ended_toArray hbefore he).end_iff, List.size_toArray, List.length_append,
      List.length_singleton]
    exact Nat.add_le_add_iff_right
  ended := by
    rw [← List.append_assoc]
    refine ended_toArray (fun t ht => ?_) he'
    exact (List.mem_append.1 ht).elim (hbefore t) (h.kind_ne_of_same hsame t)
  starts := h.kindAt_start hsame
  declares := by
    obtain ⟨d', hd', -⟩ := h.exists_entry hsame he' before
    rcases Rule.kindAt_of_yields_entry hd' with ⟨-, _, hcase⟩ | ⟨hk, _, -, hyields⟩
    · cases hcase
    · exact Rule.atDeclaration_of_yields hk hyields
  unmodified := fun i hi => by
    have hlt : i < before.length := by omega
    have hget : before.getLast? = some before[i] := by
      rw [List.getLast?_eq_getElem?, ← hi, Nat.add_sub_cancel, List.getElem?_eq_getElem hlt]
    rw [kindAt_pad, kindAt, itemAt_append_left _ _ hlt, itemAt_of_getElem? (t := before[i]) (by simp)]
    exact hlast _ hget

theorem exists_unitBody {n : Nat} {aliases : AliasTable} {declared : Bool}
    (hn : (before ++ (type' ++ [e'])).toArray.size ≤ n + before.length) :
    let b := unitBody (before ++ (type' ++ [e'])).toArray n aliases declared before.length
    b.imports = [] ∧ ∃ d', b.declarations = [d'] ∧ d'.map forget = d.map forget := by
  intro b
  obtain ⟨n, rfl⟩ : ∃ m, n = m + 1 := by
    refine ⟨n - 1, ?_⟩
    simp only [List.size_toArray, List.length_append, List.length_singleton] at hn
    omega
  obtain ⟨d', hentry, hd'⟩ := h.exists_entry hsame he' before
  have hk : kindAt (before ++ (type' ++ [e'])).toArray before.length ≠ .endOfText := by
    simp [h.kindAt_start hsame]
  have hend : kindAt (before ++ (type' ++ [e'])).toArray (before.length + type'.length) =
      .endOfText := kindAt_last before he'
  rw [← hsame.length_eq] at hend
  have hb : b = ((UnitBody.empty (before.length + type.length)).addDeclaration d').addProblems [] := by
    rw [← unitBody_of_end hend]
    exact unitBody_of_declaration hk hentry
  rw [hb]
  exact ⟨rfl, d', rfl, hd'⟩

include he hbefore hlast

/-- **Declarations are recovered behind malformed text.** Whatever stands before a type, the type is read
as it is alone, and what stands before it is read as if nothing stood behind. This is so unless a member
name or an alias is missing at the end of what stands before; and `abstract` or `part` at that end would
belong to the type. -/
theorem exists_readUnit_append (hname : ¬ Lacks before.length (readUnit (before ++ [e]).toArray).2) :
    ∃ d', d'.map forget = d.map forget ∧
      let whole := (before ++ (type' ++ [e'])).toArray
      let u := (readUnit (before ++ [e]).toArray).1
      (readUnit whole).1 =
        ⟨u.name, u.header, u.doc, u.imports, u.declarations ++ [d'], unitExtent whole⟩ := by
  let C := h.cut hsame he' he hbefore hlast
  obtain ⟨hheader, hbody⟩ : Rule.header C.left 0 = Rule.header (before ++ [e]).toArray 0 ∧
      wholeBody C.left = wholeBody (before ++ [e]).toArray :=
    (ended_toArray hbefore he).readWithin.unread _
  have hproblems : (readUnit C.left).2 = (readUnit (before ++ [e]).toArray).2 := by
    simp only [readUnit, hheader, hbody]
  rcases C.exists_wholeBody_wall with hlacks | ⟨hvalue, n, aliases, declared, hn, himports, hdecls⟩
  · exact absurd (hproblems ▸ hlacks) hname
  · obtain ⟨hnone, d', hd', hsame⟩ : (unitBody C.right n aliases declared C.wall).imports = [] ∧
        ∃ d', (unitBody C.right n aliases declared C.wall).declarations = [d'] ∧
          d'.map forget = d.map forget := h.exists_unitBody hsame he' hn
    rw [hnone, List.append_nil, hbody] at himports
    rw [hd', hbody] at hdecls
    have hunit := readUnit_of_header_eq (hvalue.trans (congrArg Reply.value hheader))
    rw [himports, hdecls] at hunit
    exact ⟨d', hsame, hunit⟩

end

end ReadsAlone

/-- A type without members. -/
def emptyType : List Item :=
  [⟨.keyword .typeWord, "type", none, false⟩, ⟨.upperWord, "U", none, false⟩,
    ⟨.symbol .lBrace, "\x7b", none, false⟩, ⟨.symbol .rBrace, "\x7d", none, false⟩]

/-- A type that ends within a constraint. -/
def openType : List Item :=
  [⟨.keyword .schemaWord, "schema", none, true⟩, ⟨.stringLit, "\"\"", none, false⟩,
    ⟨.keyword .typeWord, "type", none, true⟩, ⟨.upperWord, "T", none, false⟩,
    ⟨.symbol .lBrace, "\x7b", none, false⟩, ⟨.symbol .bang, "!", none, false⟩,
    ⟨.stringLit, "\"\"", none, false⟩, ⟨.lowerWord, "a", none, false⟩]

theorem readsAlone_emptyType :
    ReadsAlone emptyType (.type ⟨none, ⟨"U", .single 3⟩, .none, [], [], ⟨2, 5⟩⟩) where
  starts := rfl
  plain := by decide
  alone := ⟨⟨.keyword .schemaWord, "schema", none, true⟩, ⟨.stringLit, "\"\"", none, false⟩,
    Item.atEnd false, rfl, rfl, rfl, by rfl, by rfl⟩

theorem exists_readUnit_append_openType :
    let before := openType ++ [⟨.symbol .plus, "+", none, false⟩]
    ¬ Lacks before.length (readUnit (before ++ [Item.atEnd false]).toArray).2 ∧
      ∃ d' : Declaration Extent, d'.map forget = .type ⟨none, ⟨"U", ()⟩, .none, [], [], ()⟩ ∧
        (readUnit (before ++ (emptyType ++ [Item.atEnd false])).toArray).1.declarations =
          (readUnit (before ++ [Item.atEnd false]).toArray).1.declarations ++ [d'] := by
  intro before
  have hend : (Item.atEnd false).kind = .endOfText := rfl
  have hsame : List.Forall₂ Item.Same emptyType emptyType :=
    List.forall₂_same.2 fun t _ => Item.same_refl t
  have hname : ¬ Lacks before.length (readUnit (before ++ [Item.atEnd false]).toArray).2 := by
    decide +kernel
  obtain ⟨d', hd', hunit⟩ := readsAlone_emptyType.exists_readUnit_append hsame hend hend (by decide)
    (by decide) hname
  have hdecls := congrArg SchemaUnit.declarations hunit
  refine ⟨hname, d', ?_, ?_⟩
  · exact hd'
  · exact hdecls

/-- The first word of a type is taken for the name of a member if a point stands before it. -/
theorem not_forall_exists_readUnit_append :
    ¬ ∀ (before type : List Item) (d : Declaration Extent) (e : Item),
      (∀ t ∈ before, t.kind ≠ .endOfText) →
      (∀ t ∈ before.getLast?, t.kind ≠ .keyword .abstractWord ∧ t.kind ≠ .keyword .partWord) →
      ReadsAlone type d → e.kind = .endOfText →
      ∃ d' ∈ (readUnit (before ++ (type ++ [e])).toArray).1.declarations.getLast?,
        d'.map forget = d.map forget := by
  intro h
  let before := openType ++ [⟨.symbol .dot, ".", none, false⟩]
  obtain ⟨d', hd', hsame⟩ := h before emptyType _ (Item.atEnd false) (by decide) (by decide)
    readsAlone_emptyType rfl
  have hnames : (readUnit (before ++ (emptyType ++ [Item.atEnd false])).toArray).1.declarations.map
      (fun d => d.name.text) = ["T"] := by decide +kernel
  have hmem := List.mem_map_of_mem (f := fun d => d.name.text) (List.mem_of_mem_getLast? hd')
  rw [hnames] at hmem
  have hname : d'.name.text = "U" := by
    have htext : (d'.map forget).name.text = d'.name.text := by cases d' <;> rfl
    rw [← htext, hsame]
    rfl
  simp [hname] at hmem

end SchemaLang
