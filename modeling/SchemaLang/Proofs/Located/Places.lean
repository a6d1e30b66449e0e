import SchemaLang.Proofs.Nested.Tree
import SchemaLang.Proofs.Totality

/-!
# All places

* `PlaceTree.places`, `SchemaUnit.places`: the places of all nodes of a tree, of a unit.
* `Problem.places`: the place of a problem, and those that its cause refers to.
* `Diagnostic.spans`: the place of a diagnostic, and those that its hints refer to.

What is read from items up to an end is placed by these items alone, whatever the places are taken for
(`ReadWithin.places`). So all places are extents within the items.

Main statements: `ReadWithin.lt_of_mem_places` and `ReadWithin.lt_of_mem_problems`; a diagnostic refers to
no place but those of its problem (`Problem.spans_diagnostic`).
-/

set_option autoImplicit false

namespace SchemaLang

variable {σ τ : Type}

/-! ## Trees -/

namespace PlaceTree

def places : PlaceTree σ → List σ
  | node p ts => p :: ts.flatMap places

theorem places_node (p : σ) (ts : List (PlaceTree σ)) :
    (node p ts).places = p :: ts.flatMap places := by
  rw [places]

theorem places_map (f : σ → τ) : (t : PlaceTree σ) → (t.map f).places = t.places.map f
  | node p ts => by
    rw [map_node, places_node, places_node, List.map_cons, List.map_flatMap, List.flatMap_map]
    congr 1
    exact List.flatMap_congr fun t _ => places_map f t

end PlaceTree

/-- The places of all nodes of a unit. -/
def SchemaUnit.places (u : SchemaUnit σ) : List σ :=
  (u.placeTree (u.imports.map Import.placeTree ++
    u.declarations.map Declaration.placeTree)).places

theorem SchemaUnit.places_map (f : σ → τ) (u : SchemaUnit σ) :
    (u.map f).places = u.places.map f := by
  unfold SchemaUnit.places
  rw [← PlaceTree.places_map]
  congr 1
  cases h : u.header <;> simp [SchemaUnit.placeTree, SchemaUnit.map, h, Function.comp_def]

/-! ## Problems and diagnostics -/

/-- What a cause refers to. -/
def Cause.places : Cause σ → List σ
  | .notClosed _ _ _ opened => [opened]
  | .unclosed _ _ opened => [opened]
  | .duplicateAlias _ first => [first]
  | _ => []

def Problem.places (p : Problem σ) : List σ := p.place :: p.cause.places

theorem Cause.places_map (f : σ → τ) (c : Cause σ) : (c.map f).places = c.places.map f := by
  cases c <;> rfl

theorem Problem.places_map (f : σ → τ) (p : Problem σ) : (p.map f).places = p.places.map f := by
  show f p.place :: (p.cause.map f).places = _
  rw [Cause.places_map]
  rfl

namespace Diagnostic

def spans (d : Diagnostic) : List Span := d.span.toList ++ d.hints.filterMap Hint.span

@[simp] theorem spans_ofCode (c : ErrorCode) (values : List String) (s : Span) :
    (ofCode c values s).spans = [s] := by
  unfold ofCode
  split <;> rfl

@[simp] theorem spans_addHint (d : Diagnostic) (h : Hint) :
    (d.addHint h).spans = d.spans ++ h.span.toList := by
  cases hs : h.span <;> simp [spans, addHint, hs]

@[simp] theorem spans_bare (c : ErrorCode) (s : Span) (message : Option String) :
    ({ bare c with span := some s, message := message }).spans = [s] := rfl

end Diagnostic

/-- A diagnostic on grammar refers to the places of its problem. -/
theorem Problem.spans_diagnostic (p : Problem Span) : p.diagnostic.spans = p.places := by
  obtain ⟨c, place⟩ := p
  cases c <;>
    simp [Problem.diagnostic, Problem.places, Cause.places, Diagnostic.withHintAt,
      Diagnostic.withHelp, Diagnostic.withNote, Diagnostic.withHint]

theorem FaultCause.spans_diagnostic (c : FaultCause) (s : Span) : (c.diagnostic s).spans = [s] := by
  cases c <;> exact Diagnostic.spans_ofCode ..

/-! ## Extents within the items -/

/-- Placements that agree on the extents of the items tell them from all others. -/
theorem lt_size_of_map_eq {items : Items} {es : List Extent}
    (hes : ∀ f g : Extent → Span,
      (∀ e : Extent, e.first < items.size → e.last < items.size → f e = g e) →
        es.map f = es.map g) :
    ∀ e ∈ es, e.first < items.size ∧ e.last < items.size := by
  have hne : Span.zero ≠ ⟨⟨1⟩, Position.zero, Position.zero⟩ := by decide
  have hmap := hes (fun _ => Span.zero)
    (fun e => if e.first < items.size ∧ e.last < items.size then Span.zero
      else ⟨⟨1⟩, Position.zero, Position.zero⟩)
    fun e hf hl => (if_pos ⟨hf, hl⟩).symm
  intro e he
  by_contra hn
  have heq := (List.map_inj_left.1 hmap) e he
  rw [if_neg hn] at heq
  exact hne heq

namespace ReadWithin

variable {items : Items}

theorem lt_of_mem_places (h : ReadWithin items) :
    ∀ e ∈ (readUnit items).1.places, e.first < items.size ∧ e.last < items.size := by
  refine lt_size_of_map_eq fun f g hfg => ?_
  rw [← SchemaUnit.places_map, ← SchemaUnit.places_map, (h.places f g hfg).1]

theorem lt_of_mem_problems (h : ReadWithin items) :
    ∀ p ∈ (readUnit items).2, ∀ e ∈ p.places, e.first < items.size ∧ e.last < items.size := by
  intro p hp
  refine lt_size_of_map_eq fun f g hfg => ?_
  have hmap : p.map f = p.map g := (List.map_inj_left.1 (h.places f g hfg).2) p hp
  rw [← Problem.places_map, ← Problem.places_map, hmap]

end ReadWithin

end SchemaLang
