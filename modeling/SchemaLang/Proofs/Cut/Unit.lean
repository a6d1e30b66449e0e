import SchemaLang.Proofs.Cut.Member
import SchemaLang.Proofs.Units

/-!
# Units before a declaration

What is read before the wall is what is read of the text that ends there. Reading goes on at the wall then
(`Cut.exists_unitBody_wall`).
-/

set_option autoImplicit false

namespace SchemaLang

/-- An entry is read from its first item on, and recovery starts there or behind that. -/
theorem Ended.next_entry {items : Items} {i : Nat} (h : Ended items)
    (hk : kindAt items i ≠ .endOfText) :
    (∀ e, (Rule.entry items i).value = some e → i < (Rule.entry items i).next) ∧
      ((Rule.entry items i).value = none → i ≤ (Rule.entry items i).next) ∧
      (Rule.entry items i).next < items.size := by
  let frame : Frame Unit := h.frame #[] forget forget fun _ _ _ => rfl
  have hout := (Frame.confined_entry (F := frame) (Nat.le_of_lt (frame.lt_last hk))).2
  refine ⟨fun e he => (hout.value e he).1, hout.floor_le, ?_⟩
  exact Nat.lt_of_le_of_lt hout.next_le (Nat.sub_one_lt_of_lt h.pos)

/-- The problems of an entry are problems of the body that it is in. -/
theorem problems_entry_subset {items : Items} {n i : Nat} {aliases : AliasTable} {declared : Bool}
    (hk : kindAt items i ≠ .endOfText) :
    (Rule.entry items i).problems ⊆ (unitBody items (n + 1) aliases declared i).problems := by
  intro p hp
  rw [unitBody, if_neg hk]
  generalize Rule.entry items i = x at hp
  obtain ⟨v, j, ps⟩ := x
  cases v with
  | none => exact List.mem_append_left _ hp
  | some e =>
    cases e with
    | import_ d => exact List.mem_append_left _ (List.mem_append_left _ (List.mem_append_left _ hp))
    | declaration d => exact List.mem_append_left _ hp

namespace Cut

open SchemaLang.Rule

variable {C : Cut} {i : Nat}

/-! ## Imports -/

/-- An alias may be any keyword; it is reported and dropped. At the end of the text the alias is missing. -/
theorem stops_aliasName : C.Stops aliasName := by
  refine stops_peekKind_bind (fun κ => ?_) (.inl lacks_aliasName)
  refine stopsBelow_ite (fun _ => stopsBelow_takeName.bind fun _ => stops_pure) fun _ => ?_
  refine stopsBelow_ite (fun _ => stopsBelow_takeName.bind fun name => ?_) fun _ => stops_reject.below
  exact stops_ite (fun _ => stops_pure) fun _ => stops_report_bind stops_pure

theorem stopsBelow_importDecl : C.StopsBelow importDecl := by
  refine stopsBelow_position_bind fun _ => stopsBelow_take_bind fun _ => ?_
  refine (stops_expect ⟨by simp, by simp⟩).bind fun path => stops_peekKind_ite ⟨by simp, by simp⟩ ?_ ?_
  · refine stopsBelow_take_bind fun _ => stops_aliasName.bind fun name => ?_
    exact stops_extentFrom_bind fun _ => stops_pure
  · exact stops_extentFrom_bind fun _ => stops_pure

/-! ## Declarations -/

/-- The word behind a modifier is before the wall, since no modifier is next to it. -/
theorem stopsBelow_typeModifier : C.StopsBelow typeModifier := by
  intro i hi
  have hmodifier (m : TypeModifier) (hne : i + 1 ≠ C.wall) : C.StopsAt i
      (do let _ ← take; let _ ← expect (.keyword .typeWord); return m)
      (do let _ ← take; let _ ← expect (.keyword .typeWord); return m) :=
    stopsAt_take_bind hi fun _ =>
      (stopsBelow_expect.bind fun _ => stops_pure) _ (Nat.lt_of_le_of_ne hi hne)
  refine stopsAt_peekKind_bind hi ?_
  split
  · exact hmodifier .abstract_ fun hwall => (C.unmodified i hwall).1 ‹_›
  · exact hmodifier .part fun hwall => (C.unmodified i hwall).2 ‹_›
  · exact stopsBelow_take_bind (fun _ => stops_pure) i hi

theorem stops_declarationName : C.Stops declarationName := by
  refine stops_peek_bind (fun t => ?_) fun t t' ht ht' => ?_
  · exact stopsBelow_ite (fun _ => stops_rejectBehind.below) fun _ => stops_isUpperWord.below
  · rw [ht, ht']
    show C.StopsAt C.wall (if isUpperWord (kindAt C.left C.wall) = true then takeName else _)
      (rejectBehind fun _ => .reservedName t'.text)
    rw [C.kindAt_of_le (Nat.le_refl _)]
    exact .inr ⟨rfl, rfl, Nat.sub_le _ 1⟩

theorem stops_furtherParents {n : Nat} : C.Stops (furtherParents n) := by
  rw [furtherParents_eq]
  exact stops_further ⟨by simp, by simp⟩ stops_typeRef

theorem stops_parents : C.Stops parents := by
  refine stops_peekKind_ite ⟨by simp, by simp⟩ (stopsBelow_take_bind fun _ => ?_) stops_pure
  refine stops_typeRef.bind fun r => stops_remaining_bind fun n => ?_
  exact stops_furtherParents.bind fun rs => stops_pure

theorem stops_declaredDatatype : C.Stops declaredDatatype := by
  refine stops_peekKind_bind (fun κ => ?_) (.inr ⟨rfl, rfl, Nat.sub_le _ 1⟩)
  split
  · exact stopsBelow_builtin
  · exact stops_rejectBehind.below

theorem stops_typeRest {doc : Option String} {name : Name Extent} {m : TypeModifier} {start : Nat} :
    C.Stops (do
      let ps ← parents
      let opened ← position
      let _ ← expect (.symbol .lBrace)
      let members ← typeBody name.text opened
      return (.type ⟨doc, name, m, ps, members, ← extentFrom start⟩ : Declaration Extent)) := by
  refine stops_parents.bind fun ps => stops_position_bind fun opened => ?_
  refine (stops_expect ⟨by simp, by simp⟩).bind fun _ => stops_typeBody.bind fun members => ?_
  exact stops_extentFrom_bind fun _ => stops_pure

theorem stopsBelow_declaration : C.StopsBelow declaration := by
  refine stopsBelow_position_bind fun start => stopsBelow_peek_bind fun first => ?_
  refine stopsBelow_typeModifier.bind fun m => stops_declarationName.bind fun name => ?_
  refine stops_peekKind_bind (fun κ => ?_) (.inr ⟨rfl, rfl, Nat.sub_le _ 1⟩)
  split
  · have hdatatype : C.StopsBelow (do
        let _ ← take
        let datatype ← declaredDatatype
        return (.datatype ⟨first.doc, name, datatype, ← extentFrom start⟩ : Declaration Extent)) :=
      stopsBelow_take_bind fun _ => stops_declaredDatatype.bind fun d =>
        stops_extentFrom_bind fun _ => stops_pure
    exact stopsBelow_ite (fun _ i hi => stopsAt_report_bind (hdatatype i hi)) fun _ => hdatatype
  · exact stops_typeRest.below
  · exact stops_typeRest.below
  · exact stops_rejectBehind.below

/-! ## Entries -/

theorem stopsBelow_entry : C.StopsBelow entry := by
  have hdeclaration : C.StopsBelow (do return Entry.declaration (← declaration)) :=
    stopsBelow_declaration.bind fun _ => stops_pure
  refine stopsBelow_peekKind_bind fun κ => ?_
  split
  · exact stopsBelow_importDecl.bind fun _ => stops_pure
  · exact hdeclaration
  · exact hdeclaration
  · exact hdeclaration
  · exact stops_reject.below
  · exact stops_reject.below

theorem stops_header : C.Stops header := by
  refine stops_peekKind_ite ⟨by simp, by simp⟩ ?_ (stops_blame.bind fun _ => stops_pure)
  refine stopsBelow_position_bind fun _ => stopsBelow_nextDoc_bind fun doc => ?_
  refine stopsBelow_take_bind fun _ => stops_peekKind_ite ⟨by simp, by simp⟩ ?_ ?_
  · exact stopsBelow_take_bind fun _ => stops_extentFrom_bind fun _ => stops_pure
  · exact stops_blame.bind fun _ => stops_extentFrom_bind fun _ => stops_pure

/-! ## Units -/

variable (C) in
/-- The second body is the first one and then what is read from the wall on, problems apart. -/
def GoesOn (b b' : UnitBody) : Prop :=
  ∃ n aliases declared, C.right.size ≤ n + C.wall ∧
    b'.imports = b.imports ++ (unitBody C.right n aliases declared C.wall).imports ∧
    b'.declarations = b.declarations ++ (unitBody C.right n aliases declared C.wall).declarations

section

variable {b b' : UnitBody} (h : C.GoesOn b b')

include h

theorem GoesOn.addProblems {ps qs : List (Problem Extent)} :
    C.GoesOn (b.addProblems ps) (b'.addProblems qs) := h

theorem GoesOn.addImport {d : Import Extent} : C.GoesOn (b.addImport d) (b'.addImport d) := by
  obtain ⟨n, aliases, declared, hn, himports, hdecls⟩ := h
  exact ⟨n, aliases, declared, hn, congrArg (d :: ·) himports, hdecls⟩

theorem GoesOn.addDeclaration {d : Declaration Extent} :
    C.GoesOn (b.addDeclaration d) (b'.addDeclaration d) := by
  obtain ⟨n, aliases, declared, hn, himports, hdecls⟩ := h
  exact ⟨n, aliases, declared, hn, himports, congrArg (d :: ·) hdecls⟩

end

/-- The rounds before the wall are the same, and each of them reads an item or skips one. -/
theorem exists_unitBody_wall (aliases : AliasTable) (declared : Bool) {n : Nat} (hi : i ≤ C.wall)
    (hn : C.right.size ≤ n + i) :
    Lacks C.wall (unitBody C.left n aliases declared i).problems ∨
      C.GoesOn (unitBody C.left n aliases declared i) (unitBody C.right n aliases declared i) := by
  induction n generalizing i aliases declared with
  | zero =>
    have hlt : C.wall < C.right.size := lt_size_of_kindAt_ne (by simp [C.starts])
    omega
  | succ n ih =>
    rcases Nat.lt_or_eq_of_le hi with hlt | rfl
    · have hk : kindAt C.left i ≠ .endOfText := by
        rw [Ne, C.end_iff]
        omega
      have hk' : kindAt C.right i ≠ .endOfText := by rwa [C.kindAt_eq hlt]
      obtain ⟨hvalue, hfloor, -⟩ := C.ended.next_entry hk'
      rcases stopsBelow_entry (C := C) i hlt with hlacks | halike
      · exact .inl (hlacks.mono (problems_entry_subset hk))
      · rw [unitBody, if_neg hk, unitBody, if_neg hk']
        generalize entry C.left i = x at halike
        generalize entry C.right i = x' at halike hvalue hfloor
        obtain ⟨v, j, ps⟩ := x
        obtain ⟨v', j', ps'⟩ := x'
        obtain ⟨rfl, rfl, hle⟩ := halike
        replace hle : j' ≤ C.wall := hle
        cases v' with
        | none =>
          obtain ⟨hskip, hle⟩ := C.skip_eq .declaration hlt hle
          have hforward : i < skip C.left .declaration i j' := lt_skip _ _ (hfloor rfl)
          dsimp only
          rw [hskip]
          exact (ih _ _ hle (by omega)).imp (·.mono (List.subset_append_right ..)) (·.addProblems)
        | some e =>
          have hforward : i < j' := hvalue e rfl
          cases e with
          | import_ d =>
            refine (ih _ _ hle (by omega)).imp (·.mono (List.subset_append_right ..)) ?_
            exact fun h => h.addImport.addProblems
          | declaration d =>
            refine (ih _ _ hle (by omega)).imp (·.mono (List.subset_append_right ..)) ?_
            exact fun h => h.addDeclaration.addProblems
    · rw [unitBody_of_end (C.kindAt_of_le hi)]
      exact .inr ⟨n + 1, aliases, declared, hn, rfl, rfl⟩

/-- The whole text is read as far as the text up to the wall is, and then on from the wall. -/
theorem exists_wholeBody_wall : Lacks C.wall (readUnit C.left).2 ∨
    (header C.right 0).value = (header C.left 0).value ∧
      C.GoesOn (wholeBody C.left) (wholeBody C.right) := by
  rcases stops_header (C := C) 0 (Nat.zero_le _) with hlacks | ⟨hvalue, hnext, hle⟩
  · exact .inl (hlacks.mono (List.subset_append_left ..))
  · have hbody := C.exists_unitBody_wall .empty false hle (Nat.le_add_right C.right.size _)
    have hleft : unitBody C.left C.right.size .empty false (header C.left 0).next =
        wholeBody C.left := by rw [C.size_eq, wholeBody]
    have hright : unitBody C.right C.right.size .empty false (header C.left 0).next =
        wholeBody C.right := by rw [← hnext, wholeBody]
    rw [hleft, hright] at hbody
    exact hbody.imp (·.mono (List.subset_append_right ..)) fun h => ⟨hvalue, h⟩

end Cut

end SchemaLang
