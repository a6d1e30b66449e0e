import SchemaLang.Proofs.Shapes

/-!
# What holds of whatever is read

* `Rule.Ensures r items i Q`: if `r` reads something from item `i` on, with problems or without, then `Q`
  holds of that and of the position where it goes on.

Each step that rules are made of has a lemma on `Ensures` that opens it, and a sequence is opened by
`ensures_bind`. So `simp` turns what a rule ensures into what has to hold of its last step; a rule within
is left, and `Ensures.imp` closes that by what is known of it.

Of entries behind commas and of bodies, this is what each entry ensures (`ensures_forall_further`,
`ensures_forall_block`). Members, declarations and entries of units are one of several; what they ensure is
put together from what each of these does (`ensures_typeMember_of`, `ensures_declaration_of`,
`ensures_entry_of`).
-/

set_option autoImplicit false

namespace SchemaLang

namespace Rule

variable {α β : Type} {items : Items} {i : Nat} {Q : α → Nat → Prop}

def Ensures (r : Rule α) (items : Items) (i : Nat) (Q : α → Nat → Prop) : Prop :=
  ∀ a, (r items i).value = some a → Q a (r items i).next

theorem Ensures.imp {r : Rule α} {P : α → Nat → Prop} (h : r.Ensures items i P)
    (hP : ∀ a j, P a j → Q a j) : r.Ensures items i Q := fun a ha => hP a _ (h a ha)

/-- A fact that no reading depends on. -/
theorem ensures_of_forall {r : Rule α} (h : ∀ a j, Q a j) : r.Ensures items i Q := fun a _ => h a _

/-- What is said of nothing holds of everything that is read. -/
@[simp] theorem ensures_true {r : Rule α} : r.Ensures items i fun _ _ => True :=
  ensures_of_forall fun _ _ => trivial

@[simp] theorem ensures_bind {r : Rule β} {f : β → Rule α} :
    (r >>= f).Ensures items i Q ↔ r.Ensures items i fun b j => (f b).Ensures items j Q := by
  unfold Ensures
  simp only [value_bind, next_bind, Option.bind_eq_some_iff]
  constructor
  · intro h b hb a ha
    simpa [hb] using h a ⟨b, hb, ha⟩
  · rintro h a ⟨b, hb, ha⟩
    simpa [hb] using h b hb a ha

/-! ## Steps -/

@[simp] theorem ensures_pure {a : α} : (pure a : Rule α).Ensures items i Q ↔ Q a i :=
  ⟨fun h => h a rfl, fun h _ ha => by cases ha; exact h⟩

@[simp] theorem ensures_giveUp : (giveUp : Rule α).Ensures items i Q := nofun

@[simp] theorem ensures_giveUpBehind : (giveUpBehind : Rule α).Ensures items i Q := nofun

@[simp] theorem ensures_peek {Q : Item → Nat → Prop} :
    peek.Ensures items i Q ↔ Q (itemAt items i) i := by
  simp [Ensures, peek]

@[simp] theorem ensures_peekKind {Q : TokenKind → Nat → Prop} :
    peekKind.Ensures items i Q ↔ Q (kindAt items i) i := by
  simp [Ensures, peekKind]

@[simp] theorem ensures_peekSecond {Q : TokenKind → Nat → Prop} :
    peekSecond.Ensures items i Q ↔ Q (kindAt items (i + 1)) i := by
  simp [Ensures, peekSecond]

@[simp] theorem ensures_nextDoc {Q : Option String → Nat → Prop} :
    nextDoc.Ensures items i Q ↔ Q (itemAt items i).doc i := by
  simp [Ensures, nextDoc]

@[simp] theorem ensures_position {Q : Nat → Nat → Prop} : position.Ensures items i Q ↔ Q i i := by
  simp [Ensures, position]

@[simp] theorem ensures_extentFrom {first : Nat} {Q : Extent → Nat → Prop} :
    (extentFrom first).Ensures items i Q ↔ Q ⟨first, i - 1⟩ i := by
  simp [Ensures, extentFrom]

@[simp] theorem ensures_remaining {Q : Nat → Nat → Prop} :
    remaining.Ensures items i Q ↔ Q (items.size - i) i := by
  simp [Ensures, remaining]

@[simp] theorem ensures_take {Q : Item → Nat → Prop} :
    take.Ensures items i Q ↔ Q (itemAt items i) (i + 1) := by
  simp [Ensures, take]

@[simp] theorem ensures_report {cause : Cause Extent} {place : Extent} {Q : Unit → Nat → Prop} :
    (report cause place).Ensures items i Q ↔ Q () i :=
  ⟨fun h => h () rfl, fun h _ _ => h⟩

@[simp] theorem ensures_blame {cause : Found → Cause Extent} {Q : Unit → Nat → Prop} :
    (blame cause).Ensures items i Q ↔ Q () i :=
  ⟨fun h => h () rfl, fun h _ _ => h⟩

@[simp] theorem ensures_reject {cause : Found → Cause Extent} :
    (reject cause : Rule α).Ensures items i Q := by
  simp [reject]

@[simp] theorem ensures_rejectBehind {cause : Found → Cause Extent} :
    (rejectBehind cause : Rule α).Ensures items i Q := by
  simp [rejectBehind]

@[simp] theorem ensures_ite {p : Prop} [Decidable p] {r s : Rule α} :
    (if p then r else s).Ensures items i Q ↔
      (p → r.Ensures items i Q) ∧ (¬ p → s.Ensures items i Q) := by
  split <;> simp_all

/-! ## Single items -/

@[simp] theorem ensures_expect {kind : TokenKind} {Q : Item → Nat → Prop} :
    (expect kind).Ensures items i Q ↔
      (kindAt items i = kind → Q (itemAt items i) (i + 1)) := by
  simp [expect]

@[simp] theorem ensures_takeName {Q : Name Extent → Nat → Prop} :
    takeName.Ensures items i Q ↔ Q ⟨(itemAt items i).text, .single i⟩ (i + 1) := by
  simp [takeName]

@[simp] theorem ensures_expectName {allowed : TokenKind → Bool} {what : Expected}
    {Q : Name Extent → Nat → Prop} :
    (expectName allowed what).Ensures items i Q ↔
      (allowed (kindAt items i) = true → Q ⟨(itemAt items i).text, .single i⟩ (i + 1)) := by
  simp [expectName]

@[simp] theorem ensures_close {closer : Symbol} {opened : Nat} {what : Enclosure}
    {Q : Unit → Nat → Prop} :
    (close closer opened what).Ensures items i Q ↔
      (kindAt items i = .symbol closer → Q () (i + 1)) := by
  simp [close]

/-! ## Shapes -/

@[simp] theorem ensures_literalValue {read? : String → Option α} {cause : String → Cause Extent} :
    (literalValue read? cause).Ensures items i Q ↔
      ∀ v, read? (itemAt items i).text = some v → Q v (i + 1) := by
  rw [literalValue, ensures_bind, ensures_peek]
  split
  · rename_i v hv
    simp [hv]
  · rename_i hnone
    simp [hnone]

/-- Whatever an entry ensures wherever it is read holds of all entries behind commas. -/
theorem ensures_forall_further {ends : TokenKind → Prop} [DecidablePred ends] {entry : Rule α}
    {P : α → Prop} (he : ∀ j, entry.Ensures items j fun a _ => P a) {n : Nat} :
    (further ends entry n).Ensures items i fun as _ => ∀ a ∈ as, P a := by
  induction n generalizing i with
  | zero => simp [further]
  | succ n ih =>
    simp only [further, ensures_bind, ensures_peekKind, ensures_ite, ensures_take, ensures_pure]
    refine ⟨fun _ => ⟨fun _ => List.forall_mem_nil P, fun _ => ?_⟩, fun _ => List.forall_mem_nil P⟩
    exact (he _).imp fun a j ha => ih.imp fun as k has => List.forall_mem_cons.2 ⟨ha, has⟩

/-! ## Bodies -/

/-- Whatever an entry ensures wherever it is read holds of all entries of a body. -/
theorem ensures_forall_block {entry : Rule α} {P : α → Prop} {what : Enclosure} {opened n : Nat}
    (he : ∀ j, entry.Ensures items j fun a _ => P a) :
    (block entry what opened n).Ensures items i fun as _ => ∀ a ∈ as, P a := by
  induction n generalizing i with
  | zero =>
    rintro as ⟨⟩
    exact List.forall_mem_nil P
  | succ n ih =>
    unfold Ensures block
    split
    · rintro as ⟨⟩
      exact List.forall_mem_nil P
    · split
      · rintro as ⟨⟩
        exact List.forall_mem_nil P
      · have hentry := he i
        unfold Ensures at hentry
        generalize entry items i = reply at hentry
        obtain ⟨v, j, ps⟩ := reply
        intro as has
        cases v with
        | some a =>
          obtain ⟨rest, hrest, rfl⟩ := Option.map_eq_some_iff.1 has
          exact List.forall_mem_cons.2 ⟨hentry a rfl, ih rest hrest⟩
        | none => exact ih as has

/-- An edge property is a property whose name is next. -/
theorem ensures_forall_relationBody {P : Property Extent → Prop}
    (hp : ∀ j, (kindAt items j).namesProperty = true → property.Ensures items j fun p _ => P p) :
    relationBody.Ensures items i fun b _ => ∀ r ∈ b, ∀ p ∈ r.properties, P p := by
  have hentry (j : Nat) : edgeProperty.Ensures items j fun p _ => P p := by
    simpa [edgeProperty] using hp j
  simp only [relationBody, ensures_bind, ensures_peekKind, ensures_ite, ensures_position, ensures_take,
    ensures_remaining, ensures_extentFrom, ensures_pure]
  exact ⟨fun _ => (ensures_forall_block hentry).imp fun ps j hps => by simpa using hps, nofun⟩

theorem ensures_forall_typeBody {P : Member Extent → Prop} {name : String} {opened : Nat}
    (hm : ∀ j, typeMember.Ensures items j fun m _ => P m) :
    (typeBody name opened).Ensures items i fun ms _ => ∀ m ∈ ms, P m := by
  simp only [typeBody, ensures_bind, ensures_remaining]
  exact ensures_forall_block hm

/-! ## One of several -/

/-- A member is read by the rule for its kind. -/
theorem ensures_typeMember_of {Q : Member Extent → Nat → Prop}
    (ha : kindAt items i = .symbol .association →
      association.Ensures items i fun a j => Q (.association a) j)
    (hc : kindAt items i = .symbol .composition →
      composition.Ensures items i fun c j => Q (.composition c) j)
    (hv : invariant.Ensures items i fun v j => Q (.invariant v) j)
    (hp : (kindAt items i).namesProperty = true → property.Ensures items i fun p j => Q (.property p) j) :
    typeMember.Ensures items i Q := by
  simp only [typeMember, ensures_bind, ensures_peekKind]
  split
  · exact ensures_bind.2 ((ha ‹_›).imp fun _ _ h => ensures_pure.2 h)
  · exact ensures_bind.2 ((hc ‹_›).imp fun _ _ h => ensures_pure.2 h)
  · exact ensures_bind.2 (hv.imp fun _ _ h => ensures_pure.2 h)
  · rw [ensures_ite]
    exact ⟨fun hnames => ensures_bind.2 ((hp hnames).imp fun _ _ h => ensures_pure.2 h),
      fun _ => ensures_reject⟩

/-- Behind its name, a declaration has a datatype behind a sign, or parents and a body in braces. -/
theorem ensures_declaration_of {Q : Declaration Extent → Nat → Prop}
    (h : typeModifier.Ensures items i fun modifier j => declarationName.Ensures items j fun name k =>
      (declaredDatatype.Ensures items (k + 1) fun b l =>
        Q (.datatype ⟨(itemAt items i).doc, name, b, ⟨i, l - 1⟩⟩) l) ∧
      parents.Ensures items k fun ps l => (typeBody name.text l).Ensures items (l + 1) fun ms m =>
        Q (.type ⟨(itemAt items i).doc, name, modifier, ps, ms, ⟨i, m - 1⟩⟩) m) :
    declaration.Ensures items i Q := by
  simp only [declaration, ensures_bind, ensures_position, ensures_peek]
  refine h.imp fun modifier j hname => hname.imp fun name k ⟨hdatatype, htype⟩ => ?_
  rw [ensures_peekKind]
  have type : (do
      let ps ← parents
      let opened ← position
      let _ ← expect (.symbol .lBrace)
      let members ← typeBody name.text opened
      return (.type ⟨(itemAt items i).doc, name, modifier, ps, members, ← extentFrom i⟩ :
        Declaration Extent)).Ensures items k Q := by
    refine ensures_bind.2 (htype.imp fun ps l hbody => ?_)
    simp only [ensures_bind, ensures_position, ensures_expect]
    exact fun _ => hbody.imp fun ms m hQ => ensures_extentFrom.2 (ensures_pure.2 hQ)
  split
  · split <;> simpa using hdatatype
  · exact type
  · exact type
  · exact ensures_rejectBehind

theorem ensures_entry_of {Q : Entry → Nat → Prop}
    (hi : kindAt items i ≠ .invalid → importDecl.Ensures items i fun d j => Q (.import_ d) j)
    (hd : kindAt items i ≠ .endOfText → declaration.Ensures items i fun d j => Q (.declaration d) j) :
    entry.Ensures items i Q := by
  have declared (hk : kindAt items i ≠ .endOfText) :
      (do return Entry.declaration (← declaration)).Ensures items i Q :=
    ensures_bind.2 ((hd hk).imp fun _ _ h => ensures_pure.2 h)
  simp only [entry, ensures_bind, ensures_peekKind]
  split
  case h_1 hk => exact ensures_bind.2 ((hi (by simp [hk])).imp fun _ _ h => ensures_pure.2 h)
  case h_2 hk | h_3 hk | h_4 hk => exact declared (by simp [hk])
  case h_5 | h_6 => exact ensures_reject

end Rule

/-- Whatever an entry of a unit ensures wherever it is read holds of all entries of its body. -/
theorem forall_mem_unitBody {items : Items} {i : Nat} {P : Entry → Prop}
    (he : ∀ j, Rule.entry.Ensures items j fun e _ => P e) {n : Nat} {aliases : AliasTable} {declared : Bool} :
    (∀ d ∈ (unitBody items n aliases declared i).imports, P (.import_ d)) ∧
      ∀ d ∈ (unitBody items n aliases declared i).declarations, P (.declaration d) := by
  induction n generalizing i aliases declared with
  | zero => exact ⟨nofun, nofun⟩
  | succ n ih =>
    unfold unitBody
    split
    · exact ⟨nofun, nofun⟩
    · have hentry := he i
      unfold Rule.Ensures at hentry
      generalize Rule.entry items i = reply at hentry
      obtain ⟨v, j, ps⟩ := reply
      cases v with
      | none => exact ih
      | some e =>
        cases e with
        | import_ d => exact ⟨List.forall_mem_cons.2 ⟨hentry _ rfl, ih.1⟩, ih.2⟩
        | declaration d => exact ⟨ih.1, List.forall_mem_cons.2 ⟨hentry _ rfl, ih.2⟩⟩

end SchemaLang
