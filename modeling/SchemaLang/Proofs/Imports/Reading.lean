import SchemaLang.Proofs.Imports.Checks
import SchemaLang.Proofs.Located.Reading
import SchemaLang.Proofs.Spared.Reading

/-!
# Imports are checked against the entries before them

* `Reading.Reports x code s`: a diagnostic with this code is placed at the span.
* `Reading.ChecksImport x before d`: what is reported of the import `d`, behind the imports `before`.
* `Reading.ChecksImports x`: that holds of all imports, and nothing of the kind is reported elsewhere or
  twice.

The places of two imports are apart, and so are their aliases, so a diagnostic tells by its span which import
it is about.

Main statement: whatever a source holds, all imports that are read from it are checked
(`Registry.checksImports_of_find`).
-/

set_option autoImplicit false

namespace SchemaLang

/-- The codes of the problems that an import has with the entries before it. -/
def importCodes : List String := ["E205", "E206", "E207"]

def Diagnostic.isImportCheck (g : Diagnostic) : Bool := g.code.any importCodes.contains

namespace Reading

def Reports (x : Reading) (code : String) (s : Span) : Prop :=
  ∃ g ∈ x.diagnostics, g.code = some code ∧ g.span = some s

structure ChecksImport (x : Reading) (before : List (Import Span)) (d : Import Span) : Prop where
  reserved : x.Reports "E205" d.place ↔ isReserved d.effectiveAlias = true
  duplicate : x.Reports "E206" d.aliasPlace ↔
    isReserved d.effectiveAlias = false ∧ ∃ e ∈ before, e.effectiveAlias = d.effectiveAlias
  /-- The hint points at the alias of the first import that has it. -/
  first : ∀ g ∈ x.diagnostics, g.code = some "E206" → g.span = some d.aliasPlace →
    ∃ e, before.find? (fun e => e.effectiveAlias == d.effectiveAlias) = some e ∧
      g.hints.filterMap Hint.span = [e.aliasPlace]
  late : x.Reports "E207" d.place ↔
    ∃ e ∈ x.unit.declarations, e.place.stop.byte ≤ d.place.start.byte
  shape : hasAliasShape d.effectiveAlias.toList = true

structure ChecksImports (x : Reading) : Prop where
  each : ∀ k, (hk : k < x.unit.imports.length) →
    x.ChecksImport (x.unit.imports.take k) x.unit.imports[k]
  only : ∀ g ∈ x.diagnostics,
    (g.code = some "E205" ∨ g.code = some "E207" → ∃ d ∈ x.unit.imports, g.span = some d.place) ∧
      (g.code = some "E206" → ∃ d ∈ x.unit.imports, g.span = some d.aliasPlace)
  /-- No two diagnostics with the same one of the codes are at one span. -/
  once : ∀ code ∈ importCodes, ((x.diagnostics.filter (·.code == some code)).map Diagnostic.span).Nodup

end Reading

/-! ## Codes -/

@[simp] theorem Problem.isImportCheck_diagnostic (p : Problem Span) :
    p.diagnostic.isImportCheck = p.cause.isImportCheck := by
  obtain ⟨c, place⟩ := p
  cases c <;> rfl

@[simp] theorem FaultCause.isImportCheck_diagnostic (c : FaultCause) (s : Span) :
    (c.diagnostic s).isImportCheck = false := by
  cases c <;> rfl

namespace Import

variable {d e : Import Extent} {late late' : Bool} {before before' : List (Import Extent)}
  {p q : Problem Extent} (f : Extent → Span)

/-- The code of a problem tells whether it is placed at the import or at its alias. -/
theorem place_cases (hp : p ∈ d.checks late before) :
    ((p.map f).diagnostic.code = some "E206" ∧ p.place = d.aliasPlace) ∨
      ((p.map f).diagnostic.code ≠ some "E206" ∧ p.place = d.place) := by
  obtain ⟨-, rfl⟩ | ⟨-, rfl⟩ | ⟨-, e, -, rfl⟩ := mem_checks.1 hp
  · exact .inr ⟨fun h => absurd (Option.some.inj h) (by decide), rfl⟩
  · exact .inr ⟨fun h => absurd (Option.some.inj h) (by decide), rfl⟩
  · exact .inl ⟨rfl, rfl⟩

/-- One import is reported for each reason once. -/
theorem pairwise_checks : (d.checks late before).Pairwise fun p q =>
    (p.map f).diagnostic.code ≠ (q.map f).diagnostic.code := by
  unfold checks
  rw [List.pairwise_append]
  refine ⟨by cases late <;> simp, ?_, fun p hp q hq => ?_⟩
  · unfold clash
    split
    · simp
    · cases before.find? _ <;> simp
  · obtain ⟨rfl, rfl⟩ : late = true ∧ p = ⟨.importAfterDeclaration d.path, d.place⟩ := by
      cases late <;> simp_all
    obtain ⟨-, rfl⟩ | ⟨-, e, -, rfl⟩ := mem_clash.1 hq
    · exact fun h => absurd (Option.some.inj h) (by decide)
    · exact fun h => absurd (Option.some.inj h) (by decide)

/-- Two imports are reported at places of their own. -/
theorem span_ne (hp : p ∈ d.checks late before) (hq : q ∈ e.checks late' before')
    (hplace : f d.place ≠ f e.place) (halias : f d.aliasPlace ≠ f e.aliasPlace)
    (hcode : (p.map f).diagnostic.code = (q.map f).diagnostic.code) :
    (p.map f).diagnostic.span ≠ (q.map f).diagnostic.span := by
  rw [Problem.span_diagnostic, Problem.span_diagnostic, Ne, Option.some.injEq]
  show f p.place ≠ f q.place
  rcases place_cases f hp with ⟨hp, hpp⟩ | ⟨hp, hpp⟩
  · rcases place_cases f hq with ⟨-, hqq⟩ | ⟨hq, -⟩
    · rwa [hpp, hqq]
    · exact absurd (hcode.symm.trans hp) hq
  · rcases place_cases f hq with ⟨hq, -⟩ | ⟨-, hqq⟩
    · exact absurd (hcode.trans hq) hp
    · rwa [hpp, hqq]

end Import

/-! ## Places -/

namespace SchemaUnit.Nested

variable {σ : Type} {o : PlaceOrder σ} {u : SchemaUnit σ}

/-- The entries of a unit are one behind the other, in an order of their own. -/
theorem pairwise_entries (h : u.Nested o) : ∃ entries : List (PlaceTree σ),
    entries.Perm (u.imports.map Import.placeTree ++ u.declarations.map Declaration.placeTree) ∧
      (u.imports.map Import.placeTree).Sublist entries ∧
        (∀ t ∈ entries, t.Nested o ∧ o.within t.place u.place) ∧
          entries.Pairwise fun t v => o.before t.place v.place := by
  obtain ⟨entries, hperm, himports, -, hnested⟩ := h
  cases hnested with | node hparts hwithin hpairwise =>
  exact ⟨entries, hperm, himports,
    fun t ht => ⟨hparts t (List.mem_append_right _ ht), hwithin t (List.mem_append_right _ ht)⟩,
    (List.pairwise_append.1 hpairwise).2.1⟩

theorem within_of_import (h : u.Nested o) : ∀ d ∈ u.imports, o.within d.place u.place := by
  intro d hd
  obtain ⟨entries, hperm, -, hparts, -⟩ := h.pairwise_entries
  exact (hparts _ (hperm.mem_iff.2 (List.mem_append_left _ (List.mem_map_of_mem hd)))).2

theorem within_of_declaration (h : u.Nested o) : ∀ e ∈ u.declarations, o.within e.place u.place := by
  intro e he
  obtain ⟨entries, hperm, -, hparts, -⟩ := h.pairwise_entries
  rw [← e.place_placeTree]
  exact (hparts _ (hperm.mem_iff.2 (List.mem_append_right _ (List.mem_map_of_mem he)))).2

theorem pairwise_imports (h : u.Nested o) : u.imports.Pairwise fun d e => o.before d.place e.place := by
  obtain ⟨entries, -, himports, -, hpairwise⟩ := h.pairwise_entries
  have hplaces := hpairwise.sublist himports
  rwa [List.pairwise_map] at hplaces

theorem before_or_before (h : u.Nested o) : ∀ d ∈ u.imports, ∀ e ∈ u.declarations,
    o.before d.place e.place ∨ o.before e.place d.place := by
  obtain ⟨entries, hperm, -, -, hpairwise⟩ := h.pairwise_entries
  have hapart : entries.Pairwise fun t v => o.before t.place v.place ∨ o.before v.place t.place :=
    hpairwise.imp .inl
  have hsymm {t v : PlaceTree σ} : o.before t.place v.place ∨ o.before v.place t.place →
      o.before v.place t.place ∨ o.before t.place v.place := Or.symm
  rw [hperm.pairwise_iff hsymm, List.pairwise_append] at hapart
  intro d hd e he
  have := hapart.2.2 _ (List.mem_map_of_mem hd) _ (List.mem_map_of_mem he)
  rwa [e.place_placeTree] at this

theorem within_of_alias (h : u.Nested o) : ∀ d ∈ u.imports, ∀ a ∈ d.alias_, o.within a.place d.place := by
  intro d hd a ha
  obtain ⟨entries, -, himports, hparts, -⟩ := h.pairwise_entries
  have hd := (hparts _ (himports.subset (List.mem_map_of_mem hd))).1
  cases hd with | node _ hwithin _ =>
  exact hwithin _ (List.mem_map_of_mem (Option.mem_toList.2 ha))

end SchemaUnit.Nested

theorem Declaration.place_map {σ τ : Type} (f : σ → τ) (d : Declaration σ) :
    (d.map f).place = f d.place := by
  cases d <;> rfl

@[simp] theorem Import.aliasPlace_map {σ τ : Type} (f : σ → τ) (d : Import σ) :
    (d.map f).aliasPlace = f d.aliasPlace := by
  unfold Import.aliasPlace Import.map
  cases d.alias_ <;> rfl

/-- The place of the alias starts within the import. -/
theorem SchemaUnit.Nested.aliasPlace_within {u : SchemaUnit Extent} (h : u.Nested Extent.order) :
    ∀ d ∈ u.imports, d.place.first ≤ d.aliasPlace.first ∧ d.aliasPlace.first ≤ d.place.last := by
  intro d hd
  unfold Import.aliasPlace
  split
  · rename_i a ha
    obtain ⟨hfirst, horder, hlast⟩ := h.within_of_alias d hd a ha
    exact ⟨hfirst, horder.trans hlast⟩
  · obtain ⟨-, hle, -⟩ := h.within_of_import d hd
    exact ⟨Nat.le_refl _, hle⟩

/-- Imports are told apart by an item in each of them. -/
theorem SchemaUnit.Nested.eq_of_first_eq {u : SchemaUnit Extent} (h : u.Nested Extent.order)
    {item : Import Extent → Nat} (hitem : ∀ d ∈ u.imports, d.place.first ≤ item d ∧ item d ≤ d.place.last)
    {j k : Nat} (hj : j < u.imports.length) (hk : k < u.imports.length)
    (heq : item u.imports[j] = item u.imports[k]) : j = k := by
  have hlt (j k : Nat) (hj : j < u.imports.length) (hk : k < u.imports.length) (hjk : j < k) :
      item u.imports[j] < item u.imports[k] := by
    have hbefore : u.imports[j].place.last < u.imports[k].place.first :=
      List.pairwise_iff_getElem.1 h.pairwise_imports j k hj hk hjk
    have := hitem _ (List.getElem_mem hj)
    have := hitem _ (List.getElem_mem hk)
    omega
  rcases Nat.lt_trichotomy j k with hjk | rfl | hkj
  · exact absurd heq (Nat.ne_of_lt (hlt j k hj hk hjk))
  · rfl
  · exact absurd heq.symm (Nat.ne_of_lt (hlt k j hk hj hkj))

namespace SpanTable.Spaced

variable {t : SpanTable} {id : SourceId} {size : Nat} {d e : Extent}

/-- Spans that start together start at one item. -/
theorem first_eq (h : t.Spaced id size) (hd : d.first < size) (he : e.first < size)
    (heq : t.span d = t.span e) : d.first = e.first := by
  have hstart : (t.span d).start.byte = (t.span e).start.byte := by rw [heq]
  change (t.at_ d.first).start.byte = (t.at_ e.first).start.byte at hstart
  rcases Nat.lt_trichotomy d.first e.first with hlt | heq | hlt
  · have := h.lt d.first e.first hlt he
    omega
  · exact heq
  · have := h.lt e.first d.first hlt hd
    omega

/-- Of two extents that are apart, one ends before the other starts exactly if its span does. -/
theorem stop_le_start_iff (h : t.Spaced id size) (hd : d.first ≤ d.last) (hdsize : d.last < size)
    (he : e.first ≤ e.last) (hesize : e.last < size) (hapart : d.last < e.first ∨ e.last < d.first) :
    (t.span e).stop.byte ≤ (t.span d).start.byte ↔ e.last < d.first := by
  rw [h.stop_span he hesize]
  show _ ≤ (t.at_ d.first).start.byte ↔ _
  constructor
  · intro hle
    refine hapart.resolve_left fun hlt => ?_
    have := h.lt d.first e.first (by omega) (by omega)
    have := h.stop_mono he hesize
    have := h.le e.first (by omega)
    omega
  · intro hlt
    exact (h.lt e.last d.first hlt (by omega)).2

variable {u : SchemaUnit Extent} (h : t.Spaced id size) (hu : u.Nested Extent.order)
  (hsize : u.place.last < size)

include h hu hsize

/-- The spans of imports, or of their aliases, are told apart by where they start. -/
theorem eq_of_span_eq {place : Import Extent → Extent} (hplace : ∀ d ∈ u.imports,
    d.place.first ≤ (place d).first ∧ (place d).first ≤ d.place.last) {j k : Nat}
    (hj : j < u.imports.length) (hk : k < u.imports.length)
    (heq : t.span (place u.imports[j]) = t.span (place u.imports[k])) : j = k := by
  have hlt : ∀ d ∈ u.imports, (place d).first < size := by
    intro d hd
    obtain ⟨-, -, hlast⟩ := hu.within_of_import d hd
    exact Nat.lt_of_le_of_lt ((hplace d hd).2.trans hlast) hsize
  apply hu.eq_of_first_eq hplace hj hk
  exact h.first_eq (hlt _ (List.getElem_mem hj)) (hlt _ (List.getElem_mem hk)) heq

/-- A declaration is before an import exactly if its span is. -/
theorem isLate_iff : ∀ d ∈ u.imports, d.isLate u.declarations = true ↔
    ∃ e ∈ u.declarations, (t.span e.place).stop.byte ≤ (t.span d.place).start.byte := by
  intro d hd
  obtain ⟨-, hd', hdlast⟩ := hu.within_of_import d hd
  rw [Import.isLate, List.any_eq_true]
  apply exists_congr
  intro e
  apply and_congr_right
  intro he
  obtain ⟨-, he', helast⟩ := hu.within_of_declaration e he
  rw [decide_eq_true_iff, h.stop_le_start_iff hd' (Nat.lt_of_le_of_lt hdlast hsize) he'
    (Nat.lt_of_le_of_lt helast hsize) (hu.before_or_before d hd e he)]

end SpanTable.Spaced

/-! ## Readings -/

/-- What a reading says of the imports of a unit whose extents are placed by `f`. -/
structure Reading.ReportsChecks (x : Reading) (u : SchemaUnit Extent) (f : Extent → Span) : Prop where
  unit_eq : x.unit = u.map f
  checks_eq : x.diagnostics.filter Diagnostic.isImportCheck =
    (importChecks (Import.isLate u.declarations) [] u.imports).map fun p => (p.map f).diagnostic
  aliased : ∀ d ∈ u.imports, d.Aliased
  place_injective : ∀ j k, (hj : j < u.imports.length) → (hk : k < u.imports.length) →
    f u.imports[j].place = f u.imports[k].place → j = k
  aliasPlace_injective : ∀ j k, (hj : j < u.imports.length) → (hk : k < u.imports.length) →
    f u.imports[j].aliasPlace = f u.imports[k].aliasPlace → j = k
  isLate_iff : ∀ d ∈ u.imports, d.isLate u.declarations = true ↔
    ∃ e ∈ u.declarations, (f e.place).stop.byte ≤ (f d.place).start.byte

namespace Reading.ReportsChecks

variable {x : Reading} {u : SchemaUnit Extent} {f : Extent → Span} {k : Nat}

theorem complete (h : x.ReportsChecks u f) (hk : k < u.imports.length) {p : Problem Extent}
    (hp : p ∈ u.imports[k].checks (u.imports[k].isLate u.declarations) (u.imports.take k)) :
    (p.map f).diagnostic ∈ x.diagnostics := by
  have hmem : (p.map f).diagnostic ∈ x.diagnostics.filter Diagnostic.isImportCheck := by
    rw [h.checks_eq]
    exact List.mem_map_of_mem (mem_importChecks.2 ⟨k, hk, by rwa [List.nil_append]⟩)
  exact List.mem_of_mem_filter hmem

theorem sound (h : x.ReportsChecks u f) {g : Diagnostic} (hg : g ∈ x.diagnostics) {code : String}
    (hmem : code ∈ importCodes) (hcode : g.code = some code) : ∃ k, ∃ hk : k < u.imports.length,
      ∃ p ∈ u.imports[k].checks (u.imports[k].isLate u.declarations) (u.imports.take k),
        g = (p.map f).diagnostic := by
  have hcheck : g ∈ x.diagnostics.filter Diagnostic.isImportCheck :=
    List.mem_filter.2 ⟨hg, by simpa [Diagnostic.isImportCheck, hcode] using hmem⟩
  rw [h.checks_eq] at hcheck
  obtain ⟨p, hp, rfl⟩ := List.mem_map.1 hcheck
  obtain ⟨k, hk, hp⟩ := mem_importChecks.1 hp
  rw [List.nil_append] at hp
  exact ⟨k, hk, p, hp, rfl⟩

/-- Diagnostics with the same one of the codes are placed at spans of their own. -/
theorem pairwise_diagnostics (h : x.ReportsChecks u f) : x.diagnostics.Pairwise fun g g' =>
    g.isImportCheck → g'.isImportCheck → g.code = g'.code → g.span ≠ g'.span := by
  rw [← List.pairwise_filter, h.checks_eq, List.pairwise_map]
  apply pairwise_importChecks
  · intro d _ l before
    exact (Import.pairwise_checks f).imp fun hne heq => absurd heq hne
  · refine List.pairwise_iff_getElem.2 fun j k hj hk hjk l before p hp l' before' q hq => ?_
    apply Import.span_ne f hp hq
    · exact fun heq => hjk.ne (h.place_injective j k hj hk heq)
    · exact fun heq => hjk.ne (h.aliasPlace_injective j k hj hk heq)

/-- What is reported at an import is one of its own problems. -/
theorem reports_iff (h : x.ReportsChecks u f) (hk : k < u.imports.length) {code : String}
    (hmem : code ∈ importCodes) (hne : code ≠ "E206") :
    x.Reports code (f u.imports[k].place) ↔
      ∃ p ∈ u.imports[k].checks (u.imports[k].isLate u.declarations) (u.imports.take k),
        (p.map f).diagnostic.code = some code := by
  have hplace {j : Nat} (hj : j < u.imports.length) {p : Problem Extent}
      (hp : p ∈ u.imports[j].checks (u.imports[j].isLate u.declarations) (u.imports.take j))
      (hcode : (p.map f).diagnostic.code = some code) :
      (p.map f).diagnostic.span = some (f u.imports[j].place) := by
    rw [Problem.span_diagnostic]
    rcases Import.place_cases f hp with ⟨halias, -⟩ | ⟨-, hplace⟩
    · exact absurd (Option.some.inj (hcode.symm.trans halias)) hne
    · exact congrArg (some ∘ f) hplace
  constructor
  · rintro ⟨g, hg, hcode, hspan⟩
    obtain ⟨j, hj, p, hp, rfl⟩ := h.sound hg hmem hcode
    obtain rfl := h.place_injective j k hj hk (Option.some.inj ((hplace hj hp hcode).symm.trans hspan))
    exact ⟨p, hp, hcode⟩
  · rintro ⟨p, hp, hcode⟩
    exact ⟨_, h.complete hk hp, hcode, hplace hk hp hcode⟩

theorem reserved_iff (h : x.ReportsChecks u f) (hk : k < u.imports.length) :
    x.Reports "E205" (f u.imports[k].place) ↔ isReserved u.imports[k].effectiveAlias = true := by
  rw [h.reports_iff hk (by decide) (by decide)]
  constructor
  · rintro ⟨p, hp, hcode⟩
    obtain ⟨-, rfl⟩ | ⟨hr, rfl⟩ | ⟨-, e, -, rfl⟩ := Import.mem_checks.1 hp
    · exact absurd (Option.some.inj hcode) (by decide)
    · exact hr
    · exact absurd (Option.some.inj hcode) (by decide)
  · intro hr
    exact ⟨_, Import.mem_checks.2 (.inr (.inl ⟨hr, rfl⟩)), rfl⟩

theorem late_iff (h : x.ReportsChecks u f) (hk : k < u.imports.length) :
    x.Reports "E207" (f u.imports[k].place) ↔ u.imports[k].isLate u.declarations = true := by
  rw [h.reports_iff hk (by decide) (by decide)]
  constructor
  · rintro ⟨p, hp, hcode⟩
    obtain ⟨hlate, rfl⟩ | ⟨-, rfl⟩ | ⟨-, e, -, rfl⟩ := Import.mem_checks.1 hp
    · exact hlate
    · exact absurd (Option.some.inj hcode) (by decide)
    · exact absurd (Option.some.inj hcode) (by decide)
  · intro hlate
    exact ⟨_, Import.mem_checks.2 (.inl ⟨hlate, rfl⟩), rfl⟩

/-- What is reported at the alias of an import with the code for duplicates. -/
theorem duplicate_cases (h : x.ReportsChecks u f) (hk : k < u.imports.length) {g : Diagnostic}
    (hg : g ∈ x.diagnostics) (hcode : g.code = some "E206")
    (hspan : g.span = some (f u.imports[k].aliasPlace)) :
    isReserved u.imports[k].effectiveAlias = false ∧
      ∃ e, (u.imports.take k).find? (fun e => e.effectiveAlias == u.imports[k].effectiveAlias) = some e ∧
        g.hints.filterMap Hint.span = [f e.aliasPlace] := by
  obtain ⟨j, hj, p, hp, rfl⟩ := h.sound hg (by decide) hcode
  obtain ⟨-, rfl⟩ | ⟨-, rfl⟩ | ⟨hr, e, he, rfl⟩ := Import.mem_checks.1 hp
  · exact absurd (Option.some.inj hcode) (by decide)
  · exact absurd (Option.some.inj hcode) (by decide)
  · rw [Problem.span_diagnostic] at hspan
    obtain rfl := h.aliasPlace_injective j k hj hk (Option.some.inj hspan)
    exact ⟨hr, e, he, rfl⟩

theorem duplicate_iff (h : x.ReportsChecks u f) (hk : k < u.imports.length) :
    x.Reports "E206" (f u.imports[k].aliasPlace) ↔ isReserved u.imports[k].effectiveAlias = false ∧
      ∃ e ∈ u.imports.take k, e.effectiveAlias = u.imports[k].effectiveAlias := by
  constructor
  · rintro ⟨g, hg, hcode, hspan⟩
    obtain ⟨hr, e, he, -⟩ := h.duplicate_cases hk hg hcode hspan
    exact ⟨hr, e, List.mem_of_find?_eq_some he, by simpa using List.find?_some he⟩
  · rintro ⟨hr, e, he, halias⟩
    have hsome : ((u.imports.take k).find? fun e =>
        e.effectiveAlias == u.imports[k].effectiveAlias).isSome = true :=
      List.find?_isSome.2 ⟨e, he, by simpa using halias⟩
    obtain ⟨first, hfirst⟩ := Option.isSome_iff_exists.1 hsome
    exact ⟨_, h.complete hk (Import.mem_checks.2 (.inr (.inr ⟨hr, first, hfirst, rfl⟩))), rfl,
      Problem.span_diagnostic _⟩

theorem checksImport (h : x.ReportsChecks u f) (hk : k < u.imports.length) :
    x.ChecksImport ((u.imports.take k).map (Import.map f)) (u.imports[k].map f) := by
  constructor
  · rw [Import.effectiveAlias_map]
    exact h.reserved_iff hk
  · rw [Import.effectiveAlias_map, Import.aliasPlace_map, h.duplicate_iff hk]
    simp only [List.mem_map, exists_exists_and_eq_and, Import.effectiveAlias_map]
  · intro g hg hcode hspan
    rw [Import.aliasPlace_map] at hspan
    obtain ⟨-, e, he, hhints⟩ := h.duplicate_cases hk hg hcode hspan
    refine ⟨e.map f, ?_, by rw [Import.aliasPlace_map]; exact hhints⟩
    simp only [List.find?_map, Function.comp_def, Import.effectiveAlias_map, he, Option.map_some]
  · rw [h.unit_eq]
    refine (h.late_iff hk).trans ((h.isLate_iff _ (List.getElem_mem hk)).trans ?_)
    simp only [SchemaUnit.map, List.mem_map, exists_exists_and_eq_and, Declaration.place_map]
    rfl
  · rw [Import.effectiveAlias_map]
    exact (h.aliased _ (List.getElem_mem hk)).hasAliasShape

/-- Where a diagnostic with one of the codes is placed. -/
theorem span_cases (h : x.ReportsChecks u f) {g : Diagnostic} (hg : g ∈ x.diagnostics) {code : String}
    (hcode : g.code = some code) (hmem : code ∈ importCodes) : ∃ d ∈ x.unit.imports,
      (code = "E206" ∧ g.span = some d.aliasPlace) ∨ (code ≠ "E206" ∧ g.span = some d.place) := by
  obtain ⟨k, hk, p, hp, rfl⟩ := h.sound hg hmem hcode
  refine ⟨u.imports[k].map f, ?_, ?_⟩
  · rw [h.unit_eq]
    exact List.mem_map_of_mem (List.getElem_mem hk)
  · rw [Problem.span_diagnostic, Import.aliasPlace_map]
    rcases Import.place_cases f hp with ⟨hc, hplace⟩ | ⟨hc, hplace⟩
    · exact .inl ⟨Option.some.inj (hcode.symm.trans hc), congrArg (some ∘ f) hplace⟩
    · exact .inr ⟨fun h => hc (h ▸ hcode), congrArg (some ∘ f) hplace⟩

theorem checksImports (h : x.ReportsChecks u f) : x.ChecksImports := by
  have himports : x.unit.imports = u.imports.map (Import.map f) := by rw [h.unit_eq]; rfl
  constructor
  · intro k hk
    have hk' : k < u.imports.length := by simpa [himports] using hk
    have hget : x.unit.imports[k] = u.imports[k].map f := by simp [himports]
    rw [hget, himports, ← List.map_take]
    exact h.checksImport hk'
  · intro g hg
    constructor
    · rintro (hcode | hcode)
      all_goals
        obtain ⟨d, hd, ⟨heq, -⟩ | ⟨-, hspan⟩⟩ := h.span_cases hg hcode (by decide)
        · exact absurd heq (by decide)
        · exact ⟨d, hd, hspan⟩
    · intro hcode
      obtain ⟨d, hd, ⟨-, hspan⟩ | ⟨hne, -⟩⟩ := h.span_cases hg hcode (by decide)
      · exact ⟨d, hd, hspan⟩
      · exact absurd rfl hne
  · intro code hmem
    have hcheck {g : Diagnostic} (hcode : (g.code == some code) = true) : g.isImportCheck = true := by
      simpa [Diagnostic.isImportCheck, eq_of_beq hcode] using hmem
    rw [List.Nodup, List.pairwise_map, List.pairwise_filter]
    refine h.pairwise_diagnostics.imp fun hne hcode hcode' => ?_
    exact hne (hcheck hcode) (hcheck hcode') ((eq_of_beq hcode).trans (eq_of_beq hcode').symm)

end Reading.ReportsChecks

namespace Registry

theorem exists_cause_of_mem_lexical {r : Registry} {id : SourceId} {faults : List Fault}
    {lexical : List Diagnostic} (h : faults.mapM (r.faultDiagnostic id) = .ok lexical) :
    ∀ g ∈ lexical, ∃ (c : FaultCause) (s : Span), g = c.diagnostic s := by
  have hall := forall₂_of_mapM h
  intro g hg
  obtain ⟨i, hi, rfl⟩ := List.getElem_of_mem hg
  obtain ⟨s, -, heq⟩ := exists_spanOf_of_faultDiagnostic (hall.get (hall.length_eq ▸ hi) hi)
  exact ⟨_, s, heq⟩

/-- What is read from a source reports the checks of its imports. -/
theorem exists_reportsChecks {r : Registry} {id : SourceId} {source : Source}
    (h : r.find id = .ok source) : ∃ reading, r.read id = .ok reading ∧ ∃ f,
      reading.ReportsChecks (readUnit (itemsOf (tokenize source.text).1)).1 f := by
  obtain ⟨lexical, table, hlexical, htable, hread⟩ := exists_read_eq h
  refine ⟨_, hread, table.span, ?_⟩
  have hended := ended_itemsOf (tokenize source.text).1
  have hspelled := wellSpelled_itemsOf source.text
  have hspaced := spaced_spanTable h (spaced_placedItems source.text) htable
  have hsize : (itemsOf (tokenize source.text).1).size =
      (placedItems (tokenize source.text).1).length := by simp [itemsOf]
  rw [← hsize] at hspaced
  have hnested := hended.nested
  have hlast := (unitExtent_le hended.pos).2
  have hchecks := filter_problems_readUnit hspelled hended.readWithin
  constructor
  case unit_eq => rfl
  case checks_eq =>
    have hfaults : lexical.filter Diagnostic.isImportCheck = [] :=
      List.filter_eq_nil_iff.2 fun g hg => by
        obtain ⟨c, s, rfl⟩ := exists_cause_of_mem_lexical hlexical g hg
        simp
    rw [List.filter_append, hfaults, List.nil_append, List.filter_map, ← hchecks]
    simp only [Function.comp_def, Problem.isImportCheck_diagnostic, Problem.map,
      Cause.isImportCheck_map]
  case aliased => exact aliased_of_mem_readUnit hspelled
  case place_injective =>
    intro j k hj hk
    apply hspaced.eq_of_span_eq hnested hlast _ hj hk
    intro d hd
    obtain ⟨-, hle, -⟩ := hnested.within_of_import d hd
    exact ⟨Nat.le_refl _, hle⟩
  case aliasPlace_injective =>
    intro j k hj hk
    exact hspaced.eq_of_span_eq hnested hlast hnested.aliasPlace_within hj hk
  case isLate_iff => exact hspaced.isLate_iff hnested hlast

/-- **Checked imports.** Whatever a registered source holds, it is read, and each of its imports is reported
for a reserved alias, for an alias that an import before it has, and for a declaration before it, exactly if
that is so, and once. No other diagnostic has one of these codes. -/
theorem checksImports_of_find (r : Registry) (id : SourceId) (source : Source)
    (h : r.find id = .ok source) : ∃ reading, r.read id = .ok reading ∧ reading.ChecksImports := by
  obtain ⟨reading, hread, f, hchecks⟩ := exists_reportsChecks h
  exact ⟨reading, hread, hchecks.checksImports⟩

/-- A keyword behind `as` is dropped, so the first two imports have derived aliases. One is a keyword, and the
other is used again, first before a declaration and then behind it. -/
theorem checksImports_of_find_dropped :
    let source := Source.ofText ""
      "import \"p\" as type import \"x/type\" as in import \"q/p\" type T \x7b \x7d import \"r\" as p"
    let r : Registry := ⟨#[source]⟩
    r.find ⟨1⟩ = .ok source ∧ ∃ reading, r.read ⟨1⟩ = .ok reading ∧
      reading.unit.imports.map Import.effectiveAlias = ["p", "type", "p", "p"] ∧
        reading.diagnostics.map Diagnostic.code =
          ["E202", "E204", "E204", "E205", "E206", "E207", "E206"].map some ∧
        reading.ChecksImports := by
  intro source r
  have hfind : r.find ⟨1⟩ = .ok source := rfl
  have hread : (r.read ⟨1⟩).map (fun x => (x.unit.imports.map Import.effectiveAlias,
      x.diagnostics.map Diagnostic.code)) = .ok (["p", "type", "p", "p"],
        ["E202", "E204", "E204", "E205", "E206", "E207", "E206"].map some) := by decide +kernel
  obtain ⟨reading, hreading, hchecks⟩ := checksImports_of_find r ⟨1⟩ source hfind
  rw [hreading] at hread
  obtain ⟨haliases, hcodes⟩ := Prod.mk.inj (Except.ok.inj hread)
  exact ⟨hfind, reading, hreading, haliases, hcodes, hchecks⟩

end Registry

end SchemaLang
