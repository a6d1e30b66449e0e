import SchemaLang.Proofs.Phrase.Unit
import SchemaLang.Schema.Walk

/-!
# Datatypes that a walk meets

* `Visit.Meets P v`: if the visit is one of a built-in datatype, `P` holds of that.
* `HoldsOfDerived P ts`: `P` holds of all built-in datatypes that some of the items derive.

Main statement: then a walk of a unit that the items derive meets no other built-in datatypes
(`SchemaUnit.Derives.meets_of_mem_walk`).
-/

set_option autoImplicit false

namespace SchemaLang

variable {σ : Type} {P : Builtin σ → Prop}

def Visit.Meets (P : Builtin σ → Prop) (v : Visit σ) : Prop := ∀ b, v.node = .builtin b → P b

@[simp] theorem Visit.meets_builtin {depth : Nat} {b : Builtin σ} :
    Visit.Meets P ⟨depth, .builtin b⟩ ↔ P b := by
  simp [Visit.Meets]

/-! ## Nodes without datatypes -/

theorem Name.meets_of_mem_walk {depth : Nat} {n : Name σ} : ∀ v ∈ n.walk depth, v.Meets P := by
  simp [Name.walk, Visit.Meets]

theorem TypeRef.meets_of_mem_walk {depth : Nat} {r : TypeRef σ} :
    ∀ v ∈ r.walk depth, v.Meets P := by
  simp [TypeRef.walk, Visit.Meets]

theorem meets_of_mem_walkReverse {depth : Nat} {r : Option (ReverseEdge σ)} :
    ∀ v ∈ walkReverse depth r, v.Meets P := by
  cases r with
  | none => exact fun _ hv => nomatch hv
  | some r => exact Name.meets_of_mem_walk

theorem meets_of_mem_flatMap {α : Type} {as : List α} {walk : α → List (Visit σ)}
    (h : ∀ a ∈ as, ∀ v ∈ walk a, v.Meets P) : ∀ v ∈ as.flatMap walk, v.Meets P := by
  intro v hv
  obtain ⟨a, ha, hv⟩ := List.mem_flatMap.1 hv
  exact h a ha v hv

mutual

/-- Expressions name datatypes but hold none. -/
theorem Expr.meets_of_mem_walk (depth : Nat) : (e : Expr σ) → ∀ v ∈ e.walk depth, v.Meets P
  | .literal .. | .dollar .. | .property .. | .relation .. | .datatype .. => by
    simp [Expr.walk, Visit.Meets]
  | .list es _ => by
    rw [Expr.walk, List.forall_mem_cons]
    exact ⟨nofun, Expr.meets_of_mem_walkAll (depth + 1) es⟩
  | .unary _ x _ => by
    rw [Expr.walk, List.forall_mem_cons]
    exact ⟨nofun, Expr.meets_of_mem_walk (depth + 1) x⟩
  | .binary _ l r _ => by
    rw [Expr.walk, List.forall_mem_cons, List.forall_mem_append]
    exact ⟨nofun, Expr.meets_of_mem_walk (depth + 1) l, Expr.meets_of_mem_walk (depth + 1) r⟩
  | .member x n _ => by
    rw [Expr.walk, List.forall_mem_cons, List.forall_mem_append]
    exact ⟨nofun, Expr.meets_of_mem_walk (depth + 1) x, Name.meets_of_mem_walk⟩
  | .index x es _ => by
    rw [Expr.walk, List.forall_mem_cons, List.forall_mem_append]
    exact ⟨nofun, Expr.meets_of_mem_walk (depth + 1) x,
      Expr.meets_of_mem_walkAll (depth + 1) es⟩
  | .ternary c t x _ => by
    rw [Expr.walk, List.forall_mem_cons, List.forall_mem_append, List.forall_mem_append]
    exact ⟨nofun, ⟨Expr.meets_of_mem_walk (depth + 1) c, Expr.meets_of_mem_walk (depth + 1) t⟩,
      Expr.meets_of_mem_walk (depth + 1) x⟩
  | .pipeline s f args params body _ => by
    have ha : ∀ v ∈ Expr.walkArgs (depth + 1) args, v.Meets P := by
      cases args with
      | none => exact fun _ hv => nomatch hv
      | some es => exact Expr.meets_of_mem_walkAll (depth + 1) es
    have hb : ∀ v ∈ Expr.walkBody (depth + 1) body, v.Meets P := by
      cases body with
      | none => exact fun _ hv => nomatch hv
      | some e => exact Expr.meets_of_mem_walk (depth + 1) e
    simp only [Expr.walk, List.forall_mem_cons, List.forall_mem_append]
    exact ⟨nofun, ⟨⟨⟨Expr.meets_of_mem_walk (depth + 1) s, Name.meets_of_mem_walk⟩, ha⟩,
      meets_of_mem_flatMap fun _ _ => Name.meets_of_mem_walk⟩, hb⟩

theorem Expr.meets_of_mem_walkAll (depth : Nat) :
    (es : List (Expr σ)) → ∀ v ∈ Expr.walkAll depth es, v.Meets P
  | [] => nofun
  | e :: es => by
    rw [Expr.walkAll, List.forall_mem_append]
    exact ⟨Expr.meets_of_mem_walk depth e, Expr.meets_of_mem_walkAll depth es⟩

end

/-! ## Datatypes -/

namespace Phrase

variable {ts : List Item}

theorem Many.exists_of_mem {α : Type} {R : Phrase α} {as : List α} (h : Many R ts as) {a : α}
    (ha : a ∈ as) : ∃ us, us ⊆ ts ∧ R us a := by
  induction h with
  | nil => cases ha
  | @cons us vs b bs hr _ ih =>
    rcases List.mem_cons.1 ha with rfl | ha
    · exact ⟨us, List.subset_append_left us vs, hr⟩
    · obtain ⟨ws, hws, hr⟩ := ih ha
      exact ⟨ws, fun t ht => List.mem_append_right us (hws ht), hr⟩

theorem Parameters.imp {E F : Phrase (DatatypeRef Unit)} (hE : ∀ us d, E us d → F us d)
    {kind : BuiltinKind} {b : Builtin Unit} (h : Parameters E kind ts b) : Parameters F kind ts b := by
  cases h with
  | integer h => exact .integer h
  | float h => exact .float h
  | string h => exact .string h
  | boolean => exact .boolean
  | date => exact .date
  | uuid => exact .uuid
  | enum h hn => exact .enum h hn
  | pattern h => exact .pattern h
  | timestamp h => exact .timestamp h
  | vector h => exact .vector h
  | list h hr =>
    obtain ⟨hl, hd, hc⟩ := h
    exact .list (.mk hl (hE _ _ hd) hc) hr

end Phrase

open Phrase

def HoldsOfDerived (P : Builtin Unit → Prop) (ts : List Item) : Prop :=
  ∀ us kind b, us ⊆ ts → Parameters DatatypeRef.Derives kind us b → P b

section

variable {P : Builtin Unit → Prop} {us ts : List Item} {lenient : Bool} {depth : Nat}

theorem HoldsOfDerived.mono (h : HoldsOfDerived P ts) (hus : us ⊆ ts) : HoldsOfDerived P us :=
  fun vs kind b hvs => h vs kind b (List.Subset.trans hvs hus)

theorem HoldsOfDerived.meets_of_mem_flatMap {α : Type} {R : Phrase α} {walk : α → List (Visit Unit)}
    (hP : HoldsOfDerived P ts) (hR : ∀ us a, R us a → HoldsOfDerived P us → ∀ v ∈ walk a, v.Meets P)
    {as : List α} (h : Many R ts as) : ∀ v ∈ as.flatMap walk, v.Meets P :=
  SchemaLang.meets_of_mem_flatMap fun _ ha =>
    have ⟨_, hus, hr⟩ := h.exists_of_mem ha
    hR _ _ hr (hP.mono hus)

theorem Phrase.Parameters.meets_of_mem_walk {E : Phrase (DatatypeRef Unit)} {kind : BuiltinKind}
    {b : Builtin Unit} (h : Parameters E kind ts b) (hP : HoldsOfDerived P ts)
    (hE : ∀ us d, E us d → DatatypeRef.Derives us d)
    (hd : ∀ us d, E us d → HoldsOfDerived P us → ∀ depth, ∀ v ∈ d.walk depth, v.Meets P) :
    ∀ v ∈ b.walk depth, v.Meets P := by
  have hb : P b := hP _ _ _ (List.Subset.refl ts) (h.imp hE)
  cases h with
  | list he _ =>
    obtain ⟨-, he, -⟩ := he
    rw [Builtin.walk, List.forall_mem_cons, Visit.meets_builtin]
    exact ⟨hb, hd _ _ he (hP.mono fun t ht => by simp [ht]) _⟩
  | _ =>
    rw [Builtin.walk, List.forall_mem_singleton, Visit.meets_builtin]
    · exact hb
    · simp

theorem DatatypeRef.Derives.meets_of_mem_walk {d : DatatypeRef Unit} (h : DatatypeRef.Derives ts d)
    (hP : HoldsOfDerived P ts) (depth : Nat) : ∀ v ∈ d.walk depth, v.Meets P := by
  induction h generalizing depth with
  | @builtin k kind ts b R hR _ hp ih =>
    rw [DatatypeRef.walk, List.forall_mem_cons]
    exact ⟨by simp [Visit.Meets], hp.meets_of_mem_walk (hP.mono (List.subset_cons_self k ts)) hR ih⟩
  | named _ =>
    rw [DatatypeRef.walk, List.forall_mem_cons]
    exact ⟨by simp [Visit.Meets], TypeRef.meets_of_mem_walk⟩

/-! ## Members and declarations -/

theorem Property.Derives.meets_of_mem_walk {p : Property Unit} (h : Property.Derives ts p)
    (hP : HoldsOfDerived P ts) : ∀ v ∈ p.walk depth, v.Meets P := by
  cases h with
  | mk _ hd _ =>
    rw [Property.walk, List.forall_mem_cons, List.forall_mem_append]
    exact ⟨nofun, Name.meets_of_mem_walk,
      hd.meets_of_mem_walk (hP.mono fun t ht => by simp [ht]) _⟩

theorem Association.Derives.meets_of_mem_walk {a : Association Unit} (h : Association.Derives ts a)
    (hP : HoldsOfDerived P ts) : ∀ v ∈ a.walk depth, v.Meets P := by
  cases h with
  | mk _ _ _ _ _ hb =>
    simp only [Association.walk, List.forall_mem_cons, List.forall_mem_append]
    refine ⟨nofun, ⟨⟨Name.meets_of_mem_walk, TypeRef.meets_of_mem_walk⟩,
      meets_of_mem_walkReverse⟩, ?_⟩
    cases hb with
    | absent => exact fun _ hv => nomatch hv
    | present hb =>
      obtain ⟨_, hps, _⟩ := hb
      exact (hP.mono fun t ht => by simp [ht]).meets_of_mem_flatMap
        (fun _ _ hp hus => hp.meets_of_mem_walk hus) hps

theorem Member.Derives.meets_of_mem_walk {m : Member Unit} (h : Member.Derives lenient ts m)
    (hP : HoldsOfDerived P ts) : ∀ v ∈ m.walk depth, v.Meets P := by
  unfold Member.walk
  rw [List.forall_mem_cons]
  refine ⟨nofun, ?_⟩
  cases h with
  | property h => exact h.meets_of_mem_walk hP
  | association h => exact h.meets_of_mem_walk hP
  | composition h =>
    simp only [Composition.walk, List.forall_mem_cons, List.forall_mem_append]
    exact ⟨nofun, ⟨Name.meets_of_mem_walk, TypeRef.meets_of_mem_walk⟩,
      meets_of_mem_walkReverse⟩
  | invariant h =>
    simp only [Invariant.walk, List.forall_mem_cons]
    exact ⟨nofun, Expr.meets_of_mem_walk _ _⟩

theorem Declaration.Derives.meets_of_mem_walk {d : Declaration Unit}
    (h : Declaration.Derives lenient ts d) (hP : HoldsOfDerived P ts) :
    ∀ v ∈ d.walk depth, v.Meets P := by
  unfold Declaration.walk
  rw [List.forall_mem_cons]
  refine ⟨nofun, ?_⟩
  cases h with
  | type h =>
    obtain ⟨-, -, -, _, hms, _⟩ := h
    simp only [TypeDecl.walk, List.forall_mem_cons, List.forall_mem_append]
    exact ⟨nofun, ⟨Name.meets_of_mem_walk,
      meets_of_mem_flatMap fun _ _ => TypeRef.meets_of_mem_walk⟩,
      (hP.mono fun t ht => by simp [ht]).meets_of_mem_flatMap
        (fun _ _ hm hus => hm.meets_of_mem_walk hus) hms⟩
  | datatype h =>
    obtain ⟨-, -, -, -, hp⟩ := h
    simp only [DatatypeDecl.walk, List.forall_mem_cons, List.forall_mem_append]
    exact ⟨nofun, Name.meets_of_mem_walk,
      hp.meets_of_mem_walk (hP.mono fun t ht => by simp [ht]) (fun _ _ h => h)
        fun _ _ hd hus => hd.meets_of_mem_walk hus⟩

theorem SchemaUnit.Derives.meets_of_mem_walk {u : SchemaUnit Unit}
    (h : SchemaUnit.Derives lenient ts u) (hP : HoldsOfDerived P ts) : ∀ v ∈ u.walk, v.Meets P := by
  obtain ⟨-, -, -, hd⟩ := h
  simp only [SchemaUnit.walk, List.forall_mem_cons, List.forall_mem_append]
  exact ⟨nofun, meets_of_mem_flatMap fun _ _ => by simp [Import.walk, Visit.Meets],
    (hP.mono fun t ht => by simp [ht]).meets_of_mem_flatMap
      (fun _ _ hd hus => hd.meets_of_mem_walk hus) hd⟩

end

end SchemaLang
