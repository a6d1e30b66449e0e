import SchemaLang.Proofs.Located.Lexical

/-!
# Renumbered sources

* `SourceId.renumber id old new`: the number `new` in place of `old`. `Span.renumber` and `SpanError.renumber` put it
  in the place of the number that a span or an error is about.
* `Hint.map f` and `Diagnostic.map f`: the same texts at other spans.
* `Reading.renumber old new`: a reading with the number replaced throughout, in its unit, its diagnostics and
  their hints.

A registry looks a source up for its text and the tables of that text. So sources that share a text have the same
places whatever their numbers are, and a number goes through a reading as it is.

Main statements: spans of a renumbered source are renumbered (`Registry.spanOf_renumber`), and so is all that is
read from it (`Registry.read_renumber`).
-/

set_option autoImplicit false

namespace SchemaLang

/-! ## Numbers, spans and diagnostics -/

def SourceId.renumber (id old new : SourceId) : SourceId := if id = old then new else id

def Span.renumber (old new : SourceId) (s : Span) : Span := { s with source := s.source.renumber old new }

def SpanError.renumber (old new : SourceId) : SpanError → SpanError
  | .unresolvedOffset source offset => .unresolvedOffset (source.renumber old new) offset
  | .unresolvedPosition source byte => .unresolvedPosition (source.renumber old new) byte
  | .inverted source start stop => .inverted (source.renumber old new) start stop

def Hint.map (f : Span → Span) (h : Hint) : Hint := { h with span := h.span.map f }

def Diagnostic.map (f : Span → Span) (d : Diagnostic) : Diagnostic :=
  { d with span := d.span.map f, hints := d.hints.map (Hint.map f) }

def Reading.renumber (old new : SourceId) (x : Reading) : Reading :=
  ⟨x.source.renumber old new, x.unit.map (Span.renumber old new),
    x.diagnostics.map (Diagnostic.map (Span.renumber old new))⟩

@[simp] theorem SourceId.renumber_self (old new : SourceId) : old.renumber old new = new := if_pos rfl

theorem SourceId.renumber_of_ne {old new id : SourceId} (h : id ≠ old) : id.renumber old new = id := if_neg h

/-! ### Wordings -/

namespace Diagnostic

variable (f : Span → Span)

@[simp] theorem map_addHint (d : Diagnostic) (h : Hint) :
    (d.addHint h).map f = (d.map f).addHint (h.map f) := by
  simp [map, addHint]

@[simp] theorem map_ofCode (c : ErrorCode) (values : List String) (s : Span) :
    (ofCode c values s).map f = ofCode c values (f s) := by
  unfold ofCode
  dsimp only
  split
  · exact map_addHint f _ _
  · rfl

end Diagnostic

theorem FaultCause.map_diagnostic (f : Span → Span) (c : FaultCause) (s : Span) :
    (c.diagnostic s).map f = c.diagnostic (f s) := by
  cases c <;> exact Diagnostic.map_ofCode ..

/-- A diagnostic takes its spans from its problem. -/
theorem Problem.map_diagnostic (f : Span → Span) (p : Problem Span) :
    p.diagnostic.map f = (p.map f).diagnostic := by
  obtain ⟨cause, place⟩ := p
  cases cause <;>
    simp [diagnostic, Problem.map, Cause.map, Diagnostic.withHint, Diagnostic.withHintAt, Diagnostic.withNote,
      Diagnostic.withHelp, Hint.map, Diagnostic.map_ofCode]
  rfl

theorem Cause.map_map {σ τ υ : Type} (f : σ → τ) (g : τ → υ) (c : Cause σ) :
    (c.map f).map g = c.map (g ∘ f) := by
  cases c <;> rfl

theorem Problem.map_map {σ τ υ : Type} (f : σ → τ) (g : τ → υ) (p : Problem σ) :
    (p.map f).map g = p.map (g ∘ f) := by
  simp [Problem.map, Cause.map_map]

/-! ### Tables of spans -/

namespace SpanTable

def renumber (old new : SourceId) (t : SpanTable) : SpanTable := ⟨t.spans.map (Span.renumber old new)⟩

variable {old : SourceId} (new : SourceId) (t : SpanTable)

/-- No span stands for one of no source, before and behind. -/
theorem at_renumber (h : old ≠ .none) (i : Nat) :
    (t.renumber old new).at_ i = (t.at_ i).renumber old new := by
  have hzero : Span.zero.renumber old new = Span.zero := by
    show Span.mk (SourceId.none.renumber old new) _ _ = _
    rw [SourceId.renumber_of_ne h.symm]
    rfl
  unfold at_ renumber
  rw [Array.getD_eq_getD_getElem?, Array.getD_eq_getD_getElem?, Array.getElem?_map]
  cases t.spans[i]? with
  | none => exact hzero.symm
  | some s => rfl

theorem span_renumber (h : old ≠ .none) (e : Extent) :
    (t.renumber old new).span e = (t.span e).renumber old new := by
  unfold span
  dsimp only
  rw [at_renumber new t h, at_renumber new t h]
  rfl

end SpanTable

/-! ## Sources of one text -/

namespace Source

variable {s t : Source}

theorem byteOf?_congr (h : s.text = t.text) (offset : Nat) : s.byteOf? offset = t.byteOf? offset := by
  have hbytes : s.codePointBytes = t.codePointBytes := by
    rw [s.codePointBytes_eq, t.codePointBytes_eq, h]
  have hcount : s.codePointCount = t.codePointCount := by
    rw [s.codePointCount_eq, t.codePointCount_eq, h, hbytes]
  unfold byteOf?
  rw [hbytes, hcount]

theorem positionAt?_congr (h : s.text = t.text) (byte : Nat) : s.positionAt? byte = t.positionAt? byte := by
  have hlines : s.lineStarts = t.lineStarts := by
    rw [s.lineStarts_eq, t.lineStarts_eq, h]
  unfold positionAt? lineOf
  rw [h, hlines]

end Source

/-! ## Places in registries -/

/-- A function that maps the values of another one maps the values of a whole run. -/
theorem mapM_eq_ok_map {α β γ ε : Type} {f : α → Except ε β} {g : α → Except ε γ} {m : β → γ} {as : List α}
    {bs : List β} (hg : ∀ a b, f a = .ok b → g a = .ok (m b)) (h : as.mapM f = .ok bs) :
    as.mapM g = .ok (bs.map m) := by
  induction as generalizing bs with
  | nil =>
    cases h
    rfl
  | cons a as ih =>
    rw [List.mapM_cons] at h ⊢
    cases hf : f a with
    | error e => simp [hf, bind, Except.bind] at h
    | ok b =>
      cases hm : as.mapM f with
      | error e => simp [hf, hm, bind, Except.bind] at h
      | ok bs' =>
        obtain rfl : b :: bs' = bs := by simpa [hf, hm, bind, Except.bind, pure, Except.pure] using h
        rw [hg a b hf, ih hm]
        rfl

namespace Registry

variable {r r' : Registry} {old new : SourceId} {source source' : Source}

theorem ne_none_of_find (h : r.find old = .ok source) : old ≠ .none := by
  rintro rfl
  cases h

section

variable (h : r.find old = .ok source) (h' : r'.find new = .ok source') (htext : source.text = source'.text)

include h h' htext

theorem resolve_renumber (offset : Nat) :
    r'.resolve new offset = (r.resolve old offset).mapError (SpanError.renumber old new) := by
  have hbyte : r'.byteOf? new offset = r.byteOf? old offset := by
    rw [byteOf?, byteOf?, find?_of_find h, find?_of_find h', Option.bind_some, Option.bind_some,
      Source.byteOf?_congr htext]
  have hposition (byte : Nat) : r'.positionAt? new byte = r.positionAt? old byte := by
    rw [positionAt?, positionAt?, find?_of_find h, find?_of_find h', Option.bind_some, Option.bind_some,
      Source.positionAt?_congr htext]
  unfold resolve
  rw [hbyte]
  cases r.byteOf? old offset with
  | none => simp [Except.mapError, SpanError.renumber]
  | some byte =>
    dsimp only
    rw [hposition]
    cases r.positionAt? old byte with
    | none => simp [Except.mapError, SpanError.renumber]
    | some p => rfl

theorem spanOf_renumber (start stop : Nat) : r'.spanOf new start stop =
    ((r.spanOf old start stop).map (Span.renumber old new)).mapError (SpanError.renumber old new) := by
  unfold spanOf
  rw [resolve_renumber h h' htext, resolve_renumber h h' htext]
  split
  · simp [Except.map, Except.mapError, SpanError.renumber]
  · cases r.resolve old start with
    | error e => rfl
    | ok p =>
      cases r.resolve old stop with
      | error e => rfl
      | ok q => simp [Except.map, Except.mapError, Span.renumber]

theorem spanOf_renumber_of_ok {start stop : Nat} {s : Span} (hs : r.spanOf old start stop = .ok s) :
    r'.spanOf new start stop = .ok (s.renumber old new) := by
  rw [spanOf_renumber h h' htext, hs]
  rfl

theorem spanTable_renumber {items : List PlacedItem} {table : SpanTable}
    (ht : r.spanTable old items = .ok table) :
    r'.spanTable new items = .ok (table.renumber old new) := by
  unfold spanTable at ht ⊢
  cases hm : items.mapM fun i => r.spanOf old i.start i.stop with
  | error e => simp [hm, Except.map] at ht
  | ok spans =>
    obtain rfl : ⟨spans.toArray⟩ = table := by simpa [hm, Except.map] using ht
    have hmap := mapM_eq_ok_map (fun (i : PlacedItem) _ => spanOf_renumber_of_ok h h' htext) hm
    rw [hmap]
    simp [Except.map, SpanTable.renumber]

theorem faultDiagnostic_renumber {f : Fault} {d : Diagnostic} (hd : r.faultDiagnostic old f = .ok d) :
    r'.faultDiagnostic new f = .ok (d.map (Span.renumber old new)) := by
  obtain ⟨s, hs, rfl⟩ := exists_spanOf_of_faultDiagnostic hd
  rw [faultDiagnostic, spanOf_renumber_of_ok h h' htext hs, FaultCause.map_diagnostic]
  rfl

/-- What is read from a source is read from any source with its text, but for the number. -/
theorem read_renumber : ∃ x, r.read old = .ok x ∧ r'.read new = .ok (x.renumber old new) := by
  obtain ⟨lexical, table, hlexical, htable, hread⟩ := exists_read_eq h
  obtain ⟨lexical', table', hlexical', htable', hread'⟩ := exists_read_eq h'
  rw [← htext] at hlexical' htable' hread'
  have hmapped := mapM_eq_ok_map (fun _ _ => faultDiagnostic_renumber h h' htext) hlexical
  obtain rfl := Except.ok.inj (hlexical'.symm.trans hmapped)
  obtain rfl := Except.ok.inj (htable'.symm.trans (spanTable_renumber h h' htext htable))
  have hspan : (table.renumber old new).span = Span.renumber old new ∘ table.span :=
    funext fun e => SpanTable.span_renumber new table (ne_none_of_find h) e
  have hproblem : (Diagnostic.map (Span.renumber old new) ∘ fun p => (p.map table.span).diagnostic) =
      fun p : Problem Extent => (p.map (Span.renumber old new ∘ table.span)).diagnostic := by
    funext p
    rw [Function.comp_apply, Problem.map_diagnostic, Problem.map_map]
  refine ⟨_, hread, ?_⟩
  rw [hread', hspan]
  simp only [Reading.renumber, SourceId.renumber_self, SchemaUnit.map_map, List.map_append, List.map_map,
    hproblem]

end

end Registry

end SchemaLang
