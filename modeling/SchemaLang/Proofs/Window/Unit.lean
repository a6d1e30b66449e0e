import Mathlib
import SchemaLang.Proofs.Streams
import SchemaLang.Proofs.Units
import SchemaLang.Proofs.Window.Member

/-!
# Units of types with any bodies

* `depthBehind?` counts the braces that are open behind items.
* `BodyText` are the items of a body, right or wrong: its braces match, and no declaration starts in it.
* `TypeText` are the items of a type with such a body.

Main statement: a unit of such types is read as these types, each with its own place and with members that
only depend on its own body (`readUnit_types`).
-/

set_option autoImplicit false

namespace SchemaLang

/-- The braces open behind items, if none closes more than are open. -/
def depthBehind? (d : Nat) : List Item → Option Nat
  | [] => some d
  | t :: ts =>
    match t.kind with
    | .symbol .lBrace => depthBehind? (d + 1) ts
    | .symbol .rBrace => if d = 0 then none else depthBehind? (d - 1) ts
    | _ => depthBehind? d ts

/-- What may stand between the braces of a type. -/
structure BodyText where
  items : List Item
  balanced : depthBehind? 0 items = some 0
  noEnd : ∀ t ∈ items, t.kind ≠ .endOfText
  noDeclaration : ∀ i < items.length, atDeclaration items.toArray i = false

namespace BodyText

/-- Some closing brace. -/
def closingBrace : Item := ⟨.symbol .rBrace, "\x7d", none, false⟩

/-- The items of the body alone, and a brace behind them. -/
def closedItems (b : BodyText) : Items := (b.items ++ [closingBrace]).toArray

/-- The members that are read from the body alone. -/
def members (b : BodyText) : List (Member Unit) :=
  ((Rule.typeBody "" 0 b.closedItems 0).value.getD []).map (Member.map forget)

end BodyText

/-- `(abstract | part)? type Name { body }` -/
structure TypeText where
  modifier : TypeModifier
  words : List Item
  name : Item
  opening : Item
  body : BodyText
  closing : Item
  derives : TypeModifier.Derives words modifier
  kind_name : name.kind = .upperWord
  kind_opening : opening.kind = .symbol .lBrace
  kind_closing : closing.kind = .symbol .rBrace

namespace TypeText

def items (t : TypeText) : List Item :=
  t.words ++ t.name :: t.opening :: (t.body.items ++ [t.closing])

def doc (t : TypeText) : Option String := t.words.head?.bind Item.doc

/-- What is read of it. -/
def declaration (t : TypeText) : Declaration Unit :=
  .type ⟨t.doc, ⟨t.name.text, ()⟩, t.modifier, [], t.body.members, ()⟩

/-- The places of types side by side, the first one at item `i`. -/
def extents : Nat → List TypeText → List Extent
  | _, [] => []
  | i, t :: ts => ⟨i, i + t.items.length - 1⟩ :: extents (i + t.items.length) ts

end TypeText

/-! ## Depths -/

theorem depthBehind?_append (d : Nat) (ts us : List Item) :
    depthBehind? d (ts ++ us) = (depthBehind? d ts).bind fun e => depthBehind? e us := by
  induction ts generalizing d with
  | nil => rfl
  | cons t ts ih =>
    simp only [List.cons_append, depthBehind?]
    split
    · exact ih _
    · split
      · rfl
      · exact ih _
    · exact ih _

namespace BodyText

variable (b : BodyText) {i : Nat}

/-- The depth before an item. -/
def depth (i : Nat) : Nat := (depthBehind? 0 (b.items.take i)).getD 0

/-- The braces match, so the depth is there all the way. -/
theorem depthBehind?_take (i : Nat) : depthBehind? 0 (b.items.take i) = some (b.depth i) := by
  have h := b.balanced
  rw [← List.take_append_drop i b.items, depthBehind?_append] at h
  obtain ⟨e, he, -⟩ := Option.bind_eq_some_iff.1 h
  simp [depth, he]

theorem depthBehind?_getElem (h : i < b.items.length) :
    depthBehind? (b.depth i) [b.items[i]] = some (b.depth (i + 1)) := by
  have hsucc := b.depthBehind?_take (i + 1)
  rw [List.take_succ_eq_append_getElem h, depthBehind?_append, b.depthBehind?_take,
    Option.bind_some] at hsucc
  exact hsucc

theorem itemAt_closedItems (h : i < b.items.length) :
    itemAt b.closedItems i = b.items[i] :=
  itemAt_of_getElem? (by simp [closedItems, List.getElem?_append_left h])

theorem kindAt_closedItems_length : kindAt b.closedItems b.items.length = .symbol .rBrace :=
  kindAt_of_getElem? (t := closingBrace) (by simp [closedItems])

theorem kindAt_items (h : i < b.items.length) :
    kindAt b.items.toArray i = kindAt b.closedItems i := by
  rw [kindAt, kindAt, b.itemAt_closedItems h, itemAt_of_getElem? (t := b.items[i]) (by simp [h])]

/-- Whatever is no brace stands in the body itself. -/
theorem kindAt_items_of_ne (hr : kindAt b.closedItems i ≠ .symbol .rBrace)
    (he : kindAt b.closedItems i ≠ .endOfText) :
    kindAt b.items.toArray i = kindAt b.closedItems i := by
  have hsize : i < b.closedItems.size := lt_size_of_kindAt_ne he
  rcases Nat.lt_or_eq_of_le (Nat.le_of_lt_succ (by simpa [closedItems] using hsize)) with h | rfl
  · exact b.kindAt_items h
  · exact absurd b.kindAt_closedItems_length hr

/-- A brace behind the body starts no declaration. -/
theorem atDeclaration_closedItems (h : i < b.items.length) :
    atDeclaration b.closedItems i = false := by
  have hn := b.noDeclaration i h
  have second (hk : kindAt b.closedItems (i + 1) = .keyword .typeWord) :
      kindAt b.items.toArray (i + 1) = .keyword .typeWord := by
    rw [b.kindAt_items_of_ne (by simp [hk]) (by simp [hk]), hk]
  unfold atDeclaration at hn ⊢
  rw [b.kindAt_items h] at hn
  split
  · rename_i hk
    simp only [hk, decide_eq_false_iff_not] at hn ⊢
    exact fun htype => hn (second htype)
  · rename_i hk
    simp only [hk, decide_eq_false_iff_not] at hn ⊢
    exact fun htype => hn (second htype)
  · rename_i hk
    simp only [hk, decide_eq_false_iff_not] at hn ⊢
    rintro ⟨hup, hbehind⟩
    apply hn
    rw [b.kindAt_items_of_ne (by simp [hup]) (by simp [hup]),
      b.kindAt_items_of_ne (i := i + 2) (by rintro h; simp [h] at hbehind)
        (by rintro h; simp [h] at hbehind)]
    exact ⟨hup, hbehind⟩
  · rfl

/-- The body within a text. -/
def window {items : Items} {start : Nat} {closing : Item}
    (h : Stretch items start (b.items ++ [closing]) (start + b.items.length + 1))
    (hc : closing.kind = .symbol .rBrace) : Window where
  text := items
  start := start
  body := b.closedItems
  size := b.items.length
  depth := b.depth
  itemAt_eq i hi := by
    rw [b.itemAt_closedItems hi]
    refine itemAt_of_getElem? ?_
    rw [h.getElem? (by simp; omega), List.getElem?_append_left hi, List.getElem?_eq_getElem hi]
  closed_text := by
    rw [← hc]
    exact kindAt_of_getElem? (by rw [h.getElem? (by simp)]; simp)
  closed_body := b.kindAt_closedItems_length
  noEnd i hi := by
    rw [kindAt, b.itemAt_closedItems hi]
    exact b.noEnd _ (List.getElem_mem hi)
  noDeclaration i hi := b.atDeclaration_closedItems hi
  depth_plain i hi hk := by
    have hd := b.depthBehind?_getElem hi
    rw [kindAt, b.itemAt_closedItems hi] at hk
    simp only [depthBehind?] at hd
    split at hd <;> simp_all
  depth_open i hi hk := by
    have hd := b.depthBehind?_getElem hi
    rw [kindAt, b.itemAt_closedItems hi] at hk
    simpa [depthBehind?, hk, eq_comm] using hd
  depth_close i hi hk := by
    have hd := b.depthBehind?_getElem hi
    rw [kindAt, b.itemAt_closedItems hi] at hk
    simp only [depthBehind?, hk] at hd
    split at hd
    · cases hd
    · have := Option.some.inj hd
      omega
  depth_zero := rfl
  depth_size := by
    have h := b.depthBehind?_take b.items.length
    rw [List.take_length, b.balanced] at h
    exact (Option.some.inj h).symm

end BodyText

/-! ## Declarations -/

theorem TypeModifier.Derives.exists_cons {ts : List Item} {m : TypeModifier}
    (h : TypeModifier.Derives ts m) :
    ∃ f fs, ts = f :: fs ∧ Rule.startsDeclaration f.kind := by
  cases h with
  | none hk => exact ⟨_, _, rfl, .inl hk⟩
  | abstract_ hk => exact ⟨_, _, rfl, .inr (.inl hk)⟩
  | part hk => exact ⟨_, _, rfl, .inr (.inr hk)⟩

namespace TypeText

variable (t : TypeText) {items : Items} {i : Nat}

theorem length_items : t.items.length = t.words.length + t.body.items.length + 3 := by
  simp [items]
  omega

theorem yields_typeModifier {j : Nat} {ts : List Item} {m : TypeModifier}
    (h : Stretch items i ts j) (hm : TypeModifier.Derives ts m) :
    Rule.typeModifier.Yields items i m j := by
  cases hm with
  | none hk =>
    obtain ⟨h0, rfl⟩ := h
    simp [Rule.typeModifier, (kindAt_of_getElem? h0).trans hk]
  | abstract_ hk ht =>
    obtain ⟨h0, h1, rfl⟩ := h
    simp [Rule.typeModifier, (kindAt_of_getElem? h0).trans hk, (kindAt_of_getElem? h1).trans ht]
  | part hk ht =>
    obtain ⟨h0, h1, rfl⟩ := h
    simp [Rule.typeModifier, (kindAt_of_getElem? h0).trans hk, (kindAt_of_getElem? h1).trans ht]

theorem doc_itemAt {j : Nat} (h : Stretch items i t.words j) : (itemAt items i).doc = t.doc := by
  obtain ⟨f, fs, hwords, -⟩ := t.derives.exists_cons
  rw [hwords] at h
  rw [doc, hwords, itemAt_of_getElem? h.1]
  rfl

theorem startsDeclaration_kindAt {j : Nat} (h : Stretch items i t.words j) :
    Rule.startsDeclaration (kindAt items i) := by
  obtain ⟨f, fs, hwords, hk⟩ := t.derives.exists_cons
  rw [hwords] at h
  rwa [kindAt_of_getElem? h.1]

theorem declaration_reads (h : Stretch items i t.items (i + t.items.length)) :
    ∃ d : Declaration Extent, (Rule.declaration items i).value = some d ∧
      (Rule.declaration items i).next = i + t.items.length ∧ d.map forget = t.declaration ∧
      d.place = ⟨i, i + t.items.length - 1⟩ := by
  obtain ⟨j, hwords, hrest⟩ := stretch_append.1 h
  obtain ⟨hname, hopening, hbody⟩ := hrest
  have hj := hwords.end_eq
  have hlength := t.length_items
  have hend : i + t.items.length = j + 1 + 1 + t.body.items.length + 1 := by omega
  rw [hend] at hbody
  obtain ⟨ms, ms', hmaps, hvalue, hnext, hvalue'⟩ :=
    (t.body.window hbody t.kind_closing).typeBody_ends t.name.text "" (j + 1) 0
  have hvalue : (Rule.typeBody t.name.text (j + 1) items (j + 1 + 1)).value = some ms := hvalue
  have hnext : (Rule.typeBody t.name.text (j + 1) items (j + 1 + 1)).next =
    j + 1 + 1 + t.body.items.length + 1 := hnext
  have hmembers : ms.map (Member.map forget) = t.body.members := by
    have hvalue' : (Rule.typeBody "" 0 t.body.closedItems 0).value = some ms' := hvalue'
    rw [hmaps, BodyText.members, hvalue', Option.getD_some]
  have hk : kindAt items j = .upperWord := (kindAt_of_getElem? hname).trans t.kind_name
  have hk' : kindAt items (j + 1) = .symbol .lBrace :=
    (kindAt_of_getElem? hopening).trans t.kind_opening
  have hname : Rule.declarationName.Yields items j ⟨t.name.text, .single j⟩ (j + 1) := by
    simp [Rule.yields_declarationName, hk, itemAt_of_getElem? hname]
  have hdeclaration : Rule.declaration items i =
      (Rule.typeBody t.name.text (j + 1) >>= fun members => Rule.extentFrom i >>= fun place =>
        pure (.type ⟨(itemAt items i).doc, ⟨t.name.text, .single j⟩, t.modifier, [], members,
          place⟩)) items (j + 1 + 1) := by
    have hmodifier := yields_typeModifier hwords t.derives
    have hparents : Rule.parents.Yields items (j + 1) [] (j + 1) := by simp [Rule.parents, hk']
    have hexpect : (Rule.expect (.symbol .lBrace)).Yields items (j + 1) (itemAt items (j + 1))
        (j + 1 + 1) := by simp [hk']
    have hstart : Rule.position.Yields items i i i := rfl
    have hpeek : Rule.peek.Yields items i (itemAt items i) i := rfl
    have hkind : Rule.peekKind.Yields items (j + 1) (.symbol .lBrace) (j + 1) := by
      rw [← hk']
      rfl
    have hopened : Rule.position.Yields items (j + 1) (j + 1) (j + 1) := rfl
    rw [Rule.declaration, hstart.bind_eq, hpeek.bind_eq, hmodifier.bind_eq, hname.bind_eq,
      hkind.bind_eq]
    dsimp only
    rw [hparents.bind_eq, hopened.bind_eq, hexpect.bind_eq]
  refine ⟨.type ⟨t.doc, ⟨t.name.text, .single j⟩, t.modifier, [], ms,
    ⟨i, i + t.items.length - 1⟩⟩, ?_, ?_, ?_, rfl⟩
  · rw [hdeclaration, Rule.value_bind, hvalue, hnext, ← hend, t.doc_itemAt hwords]
    rfl
  · rw [hdeclaration, Rule.next_bind, hvalue, hnext, ← hend]
    rfl
  · simp [Declaration.map, TypeDecl.map, declaration, Name.map, hmembers, forget]

theorem entry_reads (h : Stretch items i t.items (i + t.items.length)) :
    ∃ d : Declaration Extent, kindAt items i ≠ .endOfText ∧
      (Rule.entry items i).value = some (.declaration d) ∧
      (Rule.entry items i).next = i + t.items.length ∧ d.map forget = t.declaration ∧
      d.place = ⟨i, i + t.items.length - 1⟩ := by
  obtain ⟨d, hvalue, hnext, hmap, hplace⟩ := t.declaration_reads h
  obtain ⟨j, hwords, -⟩ := stretch_append.1 h
  have hk := t.startsDeclaration_kindAt hwords
  have hentry : Rule.entry items i =
      (Rule.declaration >>= fun d => pure (Entry.declaration d)) items i := by
    have hkind : Rule.peekKind.Yields items i (kindAt items i) i := rfl
    rw [Rule.entry, hkind.bind_eq]
    rcases hk with hk | hk | hk <;> rw [hk]
  refine ⟨d, ?_, ?_, ?_, hmap, hplace⟩
  · rcases hk with hk | hk | hk <;> simp [hk]
  · rw [hentry, Rule.value_bind, hvalue]
    rfl
  · rw [hentry, Rule.next_bind, hvalue, hnext]
    rfl

end TypeText

/-! ## Units -/

/-- Each round reads the type that is next. There are more rounds than items left. -/
theorem unitBody_types {items : Items} {ts : List TypeText} {i j n : Nat} {aliases : AliasTable}
    {declared : Bool} (h : Stretch items i (ts.flatMap TypeText.items) j)
    (hend : kindAt items j = .endOfText) (hn : j < n + i) :
    (unitBody items n aliases declared i).imports = [] ∧
      (unitBody items n aliases declared i).declarations.map (Declaration.map forget) =
        ts.map TypeText.declaration ∧
      (unitBody items n aliases declared i).declarations.map Declaration.place =
        TypeText.extents i ts := by
  induction ts generalizing i n aliases declared with
  | nil =>
    obtain rfl : j = i := h
    obtain ⟨n, rfl⟩ : ∃ m, n = m + 1 := ⟨n - 1, by omega⟩
    simp [unitBody, hend, UnitBody.empty, TypeText.extents]
  | cons t ts ih =>
    obtain ⟨k, ht, hts⟩ := stretch_append.1 h
    obtain rfl := ht.end_eq
    have hlength := t.length_items
    have hle := hts.le
    obtain ⟨n, rfl⟩ : ∃ m, n = m + 1 := ⟨n - 1, by omega⟩
    obtain ⟨d, hk, hvalue, hnext, hmap, hplace⟩ := t.entry_reads ht
    obtain ⟨himports, hdeclarations, hplaces⟩ :=
      @ih (i + t.items.length) n aliases true hts (by omega)
    rw [unitBody, if_neg hk]
    generalize Rule.entry items i = reply at hvalue hnext
    obtain ⟨v, m, ps⟩ := reply
    dsimp only at hvalue hnext
    subst hvalue hnext
    exact ⟨himports, by simp [UnitBody.addProblems, UnitBody.addDeclaration, hmap, hdeclarations],
      by simp [UnitBody.addProblems, UnitBody.addDeclaration, hplace, hplaces, TypeText.extents]⟩

/-- **Errors stay in their bodies.** A unit of types with any bodies whose braces match, and in which no
declaration starts, is read as these types, in their order and each with the place it is written at.
Whatever is wrong in the bodies, the members of each type are those of its body alone. -/
theorem readUnit_types (s n e : Item) (ts : List TypeText) (hs : s.kind = .keyword .schemaWord)
    (hn : n.kind = .stringLit) (he : e.kind = .endOfText) :
    let unit := (readUnit (s :: n :: (ts.flatMap TypeText.items ++ [e])).toArray).1
    unit.map forget =
        ⟨stringValue n.text, some (), s.doc, [], ts.map TypeText.declaration, ()⟩ ∧
      unit.declarations.map Declaration.place = TypeText.extents 2 ts := by
  have hall := stretch_toArray [] (s :: n :: (ts.flatMap TypeText.items ++ [e])) []
  rw [List.nil_append, List.append_nil] at hall
  generalize (s :: n :: (ts.flatMap TypeText.items ++ [e])).toArray = items at hall ⊢
  obtain ⟨h0, h1, hrest⟩ : items[0]? = some s ∧ items[1]? = some n ∧
    Stretch items 2 (ts.flatMap TypeText.items ++ [e]) _ := hall
  obtain ⟨j, hts, hend, -⟩ := stretch_append.1 hrest
  have hsize := lt_size_of_getElem? hend
  have hheader : Rule.header.Yields items 0 ⟨stringValue n.text, some ⟨0, 1⟩, s.doc⟩ 2 := by
    simp [Rule.header, (kindAt_of_getElem? h0).trans hs, (kindAt_of_getElem? h1).trans hn,
      itemAt_of_getElem? h0, itemAt_of_getElem? h1]
  obtain ⟨himports, hdeclarations, hplaces⟩ :=
    @unitBody_types items ts 2 j items.size .empty false hts ((kindAt_of_getElem? hend).trans he)
      (by omega)
  intro unit
  have hunit : unit = ⟨stringValue n.text, some ⟨0, 1⟩, s.doc,
      (unitBody items items.size .empty false 2).imports,
      (unitBody items items.size .empty false 2).declarations, unitExtent items⟩ := by
    simp only [unit, readUnit, wholeBody]
    rw [hheader]
    rfl
  rw [hunit]
  exact ⟨by simp [SchemaUnit.map, himports, hdeclarations, forget], hplaces⟩

/-- An association without a name, with a stray parenthesis in a body of its own. -/
def strayType : TypeText where
  modifier := .abstract_
  words := [⟨.keyword .abstractWord, "abstract", none, false⟩, ⟨.keyword .typeWord, "type", none, false⟩]
  name := ⟨.upperWord, "T", none, false⟩
  opening := ⟨.symbol .lBrace, "\x7b", none, false⟩
  body := {
    items := [⟨.symbol .association, "-->", none, false⟩, ⟨.symbol .lBrace, "\x7b", none, false⟩,
      ⟨.symbol .rParen, ")", none, false⟩, ⟨.symbol .rBrace, "\x7d", none, false⟩]
    balanced := rfl
    noEnd := by decide
    noDeclaration := by decide }
  closing := ⟨.symbol .rBrace, "\x7d", none, false⟩
  derives := .abstract_ rfl rfl
  kind_name := rfl
  kind_opening := rfl
  kind_closing := rfl

def datedType : TypeText where
  modifier := .none
  words := [⟨.keyword .typeWord, "type", none, false⟩]
  name := ⟨.upperWord, "U", none, false⟩
  opening := ⟨.symbol .lBrace, "\x7b", none, false⟩
  body := {
    items := [⟨.lowerWord, "a", none, false⟩, ⟨.builtin .date, "Date", none, false⟩]
    balanced := rfl
    noEnd := by decide
    noDeclaration := by decide }
  closing := ⟨.symbol .rBrace, "\x7d", none, false⟩
  derives := .none rfl
  kind_name := rfl
  kind_opening := rfl
  kind_closing := rfl

def strayText : String := "schema\"\"abstract type T\x7b-->\x7b)\x7d\x7dtype U\x7ba Date\x7d"

theorem itemsOf_strayText :
    itemsOf (tokenize strayText).1 =
      (⟨.keyword .schemaWord, "schema", none, true⟩ :: ⟨.stringLit, "\"\"", none, false⟩ ::
        ([strayType, datedType].flatMap TypeText.items ++
          [⟨.endOfText, "", none, false⟩])).toArray := by
  decide +kernel

theorem readUnit_types_strayText :
    let unit := (readUnit (itemsOf (tokenize strayText).1)).1
    unit.map forget =
        ⟨"", some (), none, [],
          [.type ⟨none, ⟨"T", ()⟩, .abstract_, [], [], ()⟩,
            .type ⟨none, ⟨"U", ()⟩, .none, [],
              [.property ⟨none, ⟨"a", ()⟩, .builtin .date (), .none, ()⟩], ()⟩], ()⟩ ∧
      unit.declarations.map Declaration.place = [⟨2, 10⟩, ⟨11, 16⟩] := by
  have hstray : strayType.declaration = .type ⟨none, ⟨"T", ()⟩, .abstract_, [], [], ()⟩ := by cbv
  have hdated : datedType.declaration = .type ⟨none, ⟨"U", ()⟩, .none, [],
      [.property ⟨none, ⟨"a", ()⟩, .builtin .date (), .none, ()⟩], ()⟩ := by cbv
  have hextents : TypeText.extents 2 [strayType, datedType] = [⟨2, 10⟩, ⟨11, 16⟩] := rfl
  have hempty : stringValue "\"\"" = "" := by cbv
  have h := readUnit_types ⟨.keyword .schemaWord, "schema", none, true⟩
    ⟨.stringLit, "\"\"", none, false⟩ ⟨.endOfText, "", none, false⟩ [strayType, datedType] rfl rfl rfl
  rw [← itemsOf_strayText, hextents] at h
  simpa [hstray, hdated, hempty] using h

end SchemaLang
