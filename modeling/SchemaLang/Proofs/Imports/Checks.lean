import SchemaLang.Proofs.Imports.Rules
import SchemaLang.Proofs.Nested.Unit
import SchemaLang.Proofs.Units

/-!
# The checks on the imports of a unit

* `Import.checks late before d`: the problems of the import `d`, given the imports recorded before it and
  whether a declaration is.
* `Import.Aliased d`: an alias that stands in the import is a word and no keyword.
* `AliasTable.Records t past`: for each name that may be taken, the table has the first import of `past`
  with that alias.
* `importChecks late past ds`: the problems of the imports `ds`, one import after the other.

A keyword is never entered into the table. It needs no entry either, for it is always a derived alias and is
rejected before the table is asked; so the table records the imports so far, whatever their aliases
(`AliasTable.Records.add`). Whether an import is late is told by the places of the declarations, since each
round of `unitBody` reads behind the rounds before it.

Main statement: of these three kinds, a unit has the problems of its imports and no other ones
(`filter_problems_readUnit`).
-/

set_option autoImplicit false

namespace SchemaLang

variable {σ : Type}

/-! ## One import -/

namespace Import

/-- The problem that the import has with its alias, if any. -/
def clash (before : List (Import σ)) (d : Import σ) : List (Problem σ) :=
  if isReserved d.effectiveAlias then [⟨.derivedAliasReserved d.path d.effectiveAlias, d.place⟩]
  else (before.find? fun e => e.effectiveAlias == d.effectiveAlias).toList.map fun e =>
    ⟨.duplicateAlias d.effectiveAlias e.aliasPlace, d.aliasPlace⟩

def checks (late : Bool) (before : List (Import σ)) (d : Import σ) : List (Problem σ) :=
  (if late then [⟨.importAfterDeclaration d.path, d.place⟩] else []) ++ d.clash before

def Aliased (d : Import σ) : Prop := ∀ a ∈ d.alias_, checkAlias a.text = .ok ()

variable {d : Import σ} {before : List (Import σ)} {late : Bool}

/-- Only an alias that is derived can be reserved. -/
theorem Aliased.eq_none (h : d.Aliased) (hr : isReserved d.effectiveAlias = true) :
    d.alias_ = none := by
  cases ha : d.alias_ with
  | none => rfl
  | some a =>
    rw [effectiveAlias, ha] at hr
    exact absurd hr (by simp [Rule.isReserved_eq_false_of_checkAlias (h a ha)])

theorem Aliased.hasAliasShape (h : d.Aliased) : hasAliasShape d.effectiveAlias.toList = true := by
  unfold effectiveAlias
  split
  · rename_i a ha
    exact Rule.hasAliasShape_of_checkAlias (h a ha)
  · exact hasAliasShape_derivedAlias d.path

theorem mem_clash {p : Problem σ} : p ∈ d.clash before ↔
    (isReserved d.effectiveAlias = true ∧
        p = ⟨.derivedAliasReserved d.path d.effectiveAlias, d.place⟩) ∨
      (isReserved d.effectiveAlias = false ∧
        ∃ e, before.find? (fun e => e.effectiveAlias == d.effectiveAlias) = some e ∧
          p = ⟨.duplicateAlias d.effectiveAlias e.aliasPlace, d.aliasPlace⟩) := by
  unfold clash
  cases hr : isReserved d.effectiveAlias <;> simp [eq_comm]

theorem mem_checks {p : Problem σ} : p ∈ d.checks late before ↔
    (late = true ∧ p = ⟨.importAfterDeclaration d.path, d.place⟩) ∨
      (isReserved d.effectiveAlias = true ∧
        p = ⟨.derivedAliasReserved d.path d.effectiveAlias, d.place⟩) ∨
      (isReserved d.effectiveAlias = false ∧
        ∃ e, before.find? (fun e => e.effectiveAlias == d.effectiveAlias) = some e ∧
          p = ⟨.duplicateAlias d.effectiveAlias e.aliasPlace, d.aliasPlace⟩) := by
  rw [checks, List.mem_append, mem_clash]
  cases late <;> simp

theorem isImportCheck_of_mem_checks {p : Problem σ} (h : p ∈ d.checks late before) :
    p.cause.isImportCheck = true := by
  obtain ⟨-, rfl⟩ | ⟨-, rfl⟩ | ⟨-, e, -, rfl⟩ := mem_checks.1 h
  · rfl
  · rfl
  · rfl

end Import

variable {items : Items} {i : Nat}

/-- What is taken for an alias is a word; a keyword in its place is dropped. -/
theorem Rule.ensures_aliased_importDecl (hw : WellSpelled items) :
    importDecl.Ensures items i fun d _ => d.Aliased := by
  have hnone : ∀ n ∈ (none : Option (Name Extent)), checkAlias n.text = .ok () := by simp
  have hname (j : Nat) : aliasName.Ensures items j fun a _ => ∀ n ∈ a, checkAlias n.text = .ok () := by
    simp only [aliasName, ensures_bind, ensures_peekKind, ensures_ite, ensures_takeName, ensures_report,
      ensures_reject, ensures_pure, implies_true, and_true]
    refine ⟨fun hk n hn => ?_, fun _ _ => ⟨fun _ => hnone, fun _ => hnone⟩⟩
    obtain rfl := Option.some.inj hn
    exact (hw j).word hk
  simp only [importDecl, ensures_bind, ensures_position, ensures_take, ensures_expect, ensures_peekKind,
    ensures_ite, ensures_extentFrom, ensures_pure]
  exact fun _ => ⟨fun _ => (hname _).imp fun _ _ h => h, fun _ => hnone⟩

def Entry.Aliased : Entry → Prop
  | .import_ d => d.Aliased
  | .declaration _ => True

theorem Rule.ensures_aliased_entry (hw : WellSpelled items) :
    entry.Ensures items i fun e _ => e.Aliased :=
  ensures_entry_of (fun _ => ensures_aliased_importDecl hw) fun _ => ensures_of_forall fun _ _ => trivial

/-! ## The table of aliases -/

namespace AliasTable

variable {t : AliasTable} {past : List (Import Extent)} {d : Import Extent}

def Records (t : AliasTable) (past : List (Import Extent)) : Prop :=
  ∀ name, isReserved name = false →
    t.find? name = (past.find? fun e => e.effectiveAlias == name).map Import.aliasPlace

theorem records_empty : empty.Records [] := fun _ _ => rfl

/-- An import does not change what is found for other names. -/
theorem find?_append_of_ne {name : String} (hne : d.effectiveAlias ≠ name) :
    (past ++ [d]).find? (fun e => e.effectiveAlias == name) =
      past.find? fun e => e.effectiveAlias == name := by
  rw [List.find?_append, List.find?_cons_of_neg (by simpa using hne), List.find?_nil, Option.or_none]

/-- The check of an import against the table is one against the imports so far. -/
theorem Records.add (h : t.Records past) (hd : d.Aliased) :
    (t.add d).1 = d.clash past ∧ (t.add d).2.Records (past ++ [d]) := by
  unfold AliasTable.add Import.clash
  cases hr : isReserved d.effectiveAlias with
  | true =>
    -- no other import is in search of this alias
    rw [if_pos (by simp [hd.eq_none hr, hr]), if_pos rfl]
    refine ⟨rfl, fun name hname => ?_⟩
    have hne : d.effectiveAlias ≠ name := by
      rintro rfl
      rw [hr] at hname
      cases hname
    rw [find?_append_of_ne hne]
    exact h name hname
  | false =>
    rw [if_neg (by simp [hr]), if_neg (by simp), h _ hr]
    cases hfirst : past.find? fun e => e.effectiveAlias == d.effectiveAlias with
    | some e =>
      refine ⟨rfl, fun name hname => ?_⟩
      by_cases hne : d.effectiveAlias = name
      · rw [List.find?_append, ← hne, hfirst]
        exact (h _ hr).trans (congrArg _ hfirst)
      · rw [find?_append_of_ne hne]
        exact h name hname
    | none =>
      refine ⟨rfl, fun name hname => ?_⟩
      by_cases hne : d.effectiveAlias = name
      · rw [List.find?_append, ← hne, hfirst, List.find?_cons_of_pos (by simp)]
        simp [find?]
      · rw [find?_append_of_ne hne, ← h name hname]
        have hname : (name == d.effectiveAlias) = false := by simpa using Ne.symm hne
        simp [find?, List.lookup_cons, hname]

end AliasTable

/-! ## Many imports -/

/-- The problems of imports that are recorded behind the imports `past`. -/
def importChecks (late : Import Extent → Bool) (past : List (Import Extent)) :
    List (Import Extent) → List (Problem Extent)
  | [] => []
  | d :: ds => d.checks (late d) past ++ importChecks late (past ++ [d]) ds

theorem importChecks_congr {late late' : Import Extent → Bool} {past ds : List (Import Extent)}
    (h : ∀ d ∈ ds, late d = late' d) : importChecks late past ds = importChecks late' past ds := by
  induction ds generalizing past with
  | nil => rfl
  | cons d ds ih =>
    rw [List.forall_mem_cons] at h
    rw [importChecks, importChecks, h.1, ih h.2]

theorem mem_importChecks {late : Import Extent → Bool} {past ds : List (Import Extent)}
    {p : Problem Extent} : p ∈ importChecks late past ds ↔
      ∃ k, ∃ hk : k < ds.length, p ∈ ds[k].checks (late ds[k]) (past ++ ds.take k) := by
  induction ds generalizing past with
  | nil => simp [importChecks]
  | cons d ds ih =>
    rw [importChecks, List.mem_append, ih]
    constructor
    · rintro (h | ⟨k, hk, h⟩)
      · exact ⟨0, Nat.zero_lt_succ _, by simpa using h⟩
      · exact ⟨k + 1, Nat.succ_lt_succ hk, by simpa using h⟩
    · rintro ⟨k, hk, h⟩
      cases k with
      | zero => exact .inl (by simpa using h)
      | succ k => exact .inr ⟨k, Nat.lt_of_succ_lt_succ hk, by simpa using h⟩

theorem pairwise_importChecks {R : Problem Extent → Problem Extent → Prop} {late : Import Extent → Bool}
    {past ds : List (Import Extent)}
    (hone : ∀ d ∈ ds, ∀ l before, (d.checks l before).Pairwise R)
    (htwo : ds.Pairwise fun d e => ∀ l before, ∀ p ∈ d.checks l before, ∀ l' before',
      ∀ q ∈ e.checks l' before', R p q) :
    (importChecks late past ds).Pairwise R := by
  induction ds generalizing past with
  | nil => exact List.Pairwise.nil
  | cons d ds ih =>
    rw [List.forall_mem_cons] at hone
    rw [List.pairwise_cons] at htwo
    rw [importChecks, List.pairwise_append]
    refine ⟨hone.1 _ _, ih hone.2 htwo.2, fun p hp q hq => ?_⟩
    obtain ⟨k, hk, hq⟩ := mem_importChecks.1 hq
    exact htwo.1 _ (List.getElem_mem hk) _ _ p hp _ _ q hq

/-! ## Bodies of units -/

/-- One of the declarations is before the import. -/
def Import.isLate (es : List (Declaration Extent)) (d : Import Extent) : Bool :=
  es.any fun e => decide (e.place.last < d.place.first)

namespace UnitBody

/-- Of these kinds, the body has the problems of its imports, which are recorded behind the imports `past`
and perhaps behind a declaration, and no other ones. -/
def Checked (b : UnitBody) (declared : Bool) (past : List (Import Extent)) : Prop :=
  b.problems.filter (·.cause.isImportCheck) =
    importChecks (fun d => declared || d.isLate b.declarations) past b.imports

variable {b : UnitBody} {declared : Bool} {past : List (Import Extent)} {entries : List (PlaceTree Extent)}
  {d : Import Extent} {e : Declaration Extent} {ps : List (Problem Extent)}

theorem checked_empty (declared : Bool) (past : List (Import Extent)) (i : Nat) :
    (empty i).Checked declared past := rfl

theorem Checked.addProblems (h : b.Checked declared past)
    (hps : ps.filter (·.cause.isImportCheck) = []) : (b.addProblems ps).Checked declared past := by
  show (ps ++ b.problems).filter _ = importChecks _ past b.imports
  rw [List.filter_append, hps, List.nil_append]
  exact h

theorem Checked.addImport (h : b.Checked declared (past ++ [d]))
    (hbehind : ∀ e ∈ b.declarations, d.place.first ≤ e.place.last) :
    ((b.addImport d).addProblems (d.checks declared past)).Checked declared past := by
  have hlate : d.isLate b.declarations = false := by
    simpa [Import.isLate] using hbehind
  show (d.checks declared past ++ b.problems).filter _ =
    d.checks (declared || d.isLate b.declarations) past ++ importChecks _ (past ++ [d]) b.imports
  rw [List.filter_append, hlate, Bool.or_false,
    List.filter_eq_self.2 fun p hp => Import.isImportCheck_of_mem_checks hp]
  exact congrArg _ h

theorem Checked.addDeclaration (h : b.Checked true past)
    (hbehind : ∀ d ∈ b.imports, e.place.last < d.place.first) :
    (b.addDeclaration e).Checked declared past := by
  refine Eq.trans h (importChecks_congr fun d hd => ?_)
  simp [Import.isLate, UnitBody.addDeclaration, hbehind d hd]

theorem addProblems_append (b : UnitBody) (ps qs : List (Problem Extent)) :
    b.addProblems (ps ++ qs) = (b.addProblems qs).addProblems ps := by
  simp [UnitBody.addProblems]

end UnitBody

/-- Each round adds the problems of what it records, or none of these kinds. -/
theorem checked_unitBody (hw : WellSpelled items) (h : ReadWithin items) {n : Nat} {aliases : AliasTable}
    {declared : Bool} {past : List (Import Extent)} (ht : aliases.Records past) :
    (unitBody items n aliases declared i).Checked declared past := by
  induction n generalizing i aliases declared past with
  | zero => exact UnitBody.checked_empty ..
  | succ n ih =>
    unfold unitBody
    split
    · exact UnitBody.checked_empty ..
    have hleaves : (Rule.entry items i).problems.filter (·.cause.isImportCheck) = [] :=
      Rule.leavesImports_entry.filter_eq_nil
    have hcover := Rule.ensures_entry (i := i) h
    have haliased := Rule.ensures_aliased_entry (i := i) hw
    unfold Rule.Ensures at hcover haliased
    generalize Rule.entry items i = reply at hleaves hcover haliased
    obtain ⟨v, j, ps⟩ := reply
    cases v with
    | none => exact (ih ht).addProblems hleaves
    | some e =>
      have hcover : e.placeTree.Covers i j := hcover e rfl
      have hlt := hcover.lt
      cases e with
      | import_ d =>
        obtain ⟨hclash, hrecords⟩ := ht.add (haliased _ rfl)
        obtain ⟨entries, hrest⟩ :
            ∃ entries, (unitBody items n (aliases.add d).2 declared j).FilledBy entries j :=
          exists_filledBy_unitBody h
        have hplace : d.place = ⟨i, j - 1⟩ := hcover.place_eq
        have hchecks : ps ++ (if declared then [⟨.importAfterDeclaration d.path, d.place⟩] else []) ++
            (aliases.add d).1 = ps ++ d.checks declared past := by
          rw [hclash, Import.checks, List.append_assoc]
        show UnitBody.Checked (UnitBody.addProblems (ps ++ _ ++ (aliases.add d).1) _) declared past
        rw [hchecks, UnitBody.addProblems_append]
        refine ((ih hrecords).addImport fun e he => ?_).addProblems hleaves
        rw [hplace]
        exact hlt.le.trans (hrest.le_declaration e he)
      | declaration e =>
        obtain ⟨entries, hrest⟩ :
            ∃ entries, (unitBody items n aliases true j).FilledBy entries j :=
          exists_filledBy_unitBody h
        have hplace : e.place = ⟨i, j - 1⟩ := e.place_placeTree.symm.trans hcover.place_eq
        refine ((ih ht).addDeclaration fun d hd => ?_).addProblems hleaves
        have := hrest.le_import d hd
        rw [hplace]
        show j - 1 < d.place.first
        omega

/-! ## Units -/

theorem aliased_of_mem_readUnit (hw : WellSpelled items) :
    ∀ d ∈ (readUnit items).1.imports, d.Aliased :=
  (forall_mem_unitBody fun _ => Rule.ensures_aliased_entry hw).1

/-- The problems of these kinds are those of the imports, in their order. -/
theorem filter_problems_readUnit (hw : WellSpelled items) (h : ReadWithin items) :
    (readUnit items).2.filter (·.cause.isImportCheck) =
      importChecks (Import.isLate (readUnit items).1.declarations) [] (readUnit items).1.imports := by
  have hbody : (wholeBody items).Checked false [] := checked_unitBody hw h AliasTable.records_empty
  show ((Rule.header items 0).problems ++ (wholeBody items).problems).filter _ = _
  rw [List.filter_append, Rule.leavesImports_header.filter_eq_nil, List.nil_append]
  exact hbody

end SchemaLang
