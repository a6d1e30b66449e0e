import SchemaLang.Proofs.Grouped.Heads
import SchemaLang.Proofs.Grouped.Parsed
import SchemaLang.Proofs.Walked.Parts
import SchemaLang.Proofs.Written.Reading
import SchemaLang.Proofs.Written.Regexes

/-!
# The text of an expression tells the expression

Items of a text are spelled as tokens are, so whatever expressions a source has are spelled, and the
expressions in them too. No two of those have the same text.

Main statement: expressions of any two readings with the same text are the same up to their places
(`Registry.eq_of_text_of_read`).
-/

set_option autoImplicit false

namespace SchemaLang

/-! ## Items of a text -/

theorem spelledOut_itemsOf (text : String) : SpelledOut (itemsOf (tokenize text).1) where
  tokens := wellSpelled_itemsOf text
  word := isSpelled_itemsOf text
  dollar _ := exists_isRun_itemAt text
  regex i hk := by
    rcases itemAt_itemsOf (tokenize text).1 i with he | ⟨t, ht, hkind, htext⟩
    · rw [he] at hk
      cases hk
    · rw [htext]
      exact exists_regexBody_of_mem_tokenize (mem_visibleTokens ht).1 (hkind ▸ hk)

/-! ## Expressions of a unit -/

section

variable {σ τ : Type} {e : Expr σ}

theorem exprs_walkAll (depth : Nat) (es : List (Expr σ)) :
    picked Node.expr? (Expr.walkAll depth es) = es.flatMap fun e => picked Node.expr? (e.walk depth) := by
  induction es with
  | nil => rfl
  | cons e es ih => rw [Expr.walkAll, picked_append, List.flatMap_cons, ih]

/-- Whatever is in a spelled expression is spelled. -/
theorem Expr.Spelled.of_mem_walk (h : e.Spelled) (depth : Nat) :
    ∀ x ∈ picked Node.expr? (e.walk depth), x.Spelled := by
  have cons {e : Expr σ} {vs : List (Visit σ)} {depth : Nat} (he : e.Spelled)
      (hvs : ∀ x ∈ picked Node.expr? vs, x.Spelled) :
      ∀ x ∈ picked Node.expr? (⟨depth, .expr e⟩ :: vs), x.Spelled := by
    rw [picked_cons]
    exact List.forall_mem_cons.2 ⟨he, hvs⟩
  have all {es : List (Expr σ)} {depth : Nat}
      (ih : ∀ e ∈ es, ∀ depth, ∀ x ∈ picked Node.expr? (Expr.walk depth e), x.Spelled) :
      ∀ x ∈ picked Node.expr? (Expr.walkAll depth es), x.Spelled := by
    intro x hx
    rw [exprs_walkAll] at hx
    obtain ⟨e, he, hx⟩ := List.mem_flatMap.1 hx
    exact ih e he depth x hx
  induction h generalizing depth with
  | atom h =>
    have hself := Expr.Spelled.atom h
    cases h <;> exact cons hself nofun
  | negative n p => exact cons (.negative n p) nofun
  | list p hes ih => exact cons (.list p hes) (all ih)
  | unary op p he ih => exact cons (.unary op p he) (ih _)
  | binary op p hl hr ihl ihr =>
    refine cons (.binary op p hl hr) ?_
    rw [picked_append]
    exact List.forall_mem_append.2 ⟨ihl _, ihr _⟩
  | member p he hn ih =>
    refine cons (.member p he hn) ?_
    rw [picked_append, exprs_name, List.append_nil]
    exact ih _
  | index p he hes ih ihs =>
    refine cons (.index p he hes) ?_
    rw [picked_append]
    exact List.forall_mem_append.2 ⟨ih _, all ihs⟩
  | ternary p hc ht he ihc iht ihe =>
    refine cons (.ternary p hc ht he) ?_
    rw [picked_append, picked_append]
    exact List.forall_mem_append.2 ⟨List.forall_mem_append.2 ⟨ihc _, iht _⟩, ihe _⟩
  | @pipeline s f args params body p hs hf hargs hparams hbody ihs ihargs ihbody =>
    have ha : ∀ x ∈ picked Node.expr? (Expr.walkArgs (depth + 1) args), x.Spelled := by
      cases args with
      | none => nofun
      | some es => exact all (ihargs es rfl)
    have hb : ∀ x ∈ picked Node.expr? (Expr.walkBody (depth + 1) body), x.Spelled := by
      cases body with
      | none => nofun
      | some e => exact ihbody e rfl _
    have hnames : picked Node.expr? ((params.getD []).flatMap (Name.walk (depth + 1))) = [] :=
      filterMap_expr?_names (depth + 1) (params.getD [])
    refine cons (.pipeline p hs hf hargs hparams hbody) ?_
    simp only [picked_append, exprs_name, hnames, List.append_nil]
    exact List.forall_mem_append.2 ⟨List.forall_mem_append.2 ⟨ihs _, ha⟩, hb⟩

/-- The expression of an invariant is met. -/
theorem SchemaUnit.exists_mem_walk {u : SchemaUnit σ} {v : Invariant σ} (hv : v ∈ u.invariants) :
    ∃ depth, ⟨depth, .expr v.constraint⟩ ∈ u.walk := by
  have hpicked : v.constraint ∈ picked Node.expr? u.walk := by
    rw [exprs_walk]
    refine List.mem_flatMap.2 ⟨v, hv, ?_⟩
    rw [Expr.walk.eq_def, picked_cons]
    exact List.mem_cons_self
  obtain ⟨⟨depth, node⟩, hvisit, hnode⟩ := List.mem_filterMap.1 hpicked
  cases node with
  | expr e => exact ⟨depth, Option.some.inj hnode ▸ hvisit⟩
  | _ => cases hnode

theorem TypeDecl.invariants_map (f : σ → τ) (t : TypeDecl σ) :
    (t.map f).invariants = t.invariants.map (Invariant.map f) := by
  simp only [TypeDecl.invariants, TypeDecl.map, List.filterMap_map, List.map_filterMap]
  congr 1
  funext m
  cases m <;> rfl

theorem SchemaUnit.invariants_map (f : σ → τ) (u : SchemaUnit σ) :
    (u.map f).invariants = u.invariants.map (Invariant.map f) := by
  have htypes : (u.map f).types = u.types.map (TypeDecl.map f) := by
    simp only [SchemaUnit.types, SchemaUnit.map, List.filterMap_map, List.map_filterMap]
    congr 1
    funext d
    cases d <;> rfl
  simp only [SchemaUnit.invariants, htypes, List.flatMap_map, List.map_flatMap, TypeDecl.invariants_map]

end

theorem spelled_of_mem_invariants {items : Items} (hs : SpelledOut items) :
    ∀ v ∈ (readUnit items).1.invariants, v.constraint.Spelled := by
  intro v hv
  obtain ⟨t, ht, hv⟩ := List.mem_flatMap.1 hv
  obtain ⟨d, hd, ht⟩ := List.mem_filterMap.1 ht
  obtain ⟨m, hm, hv⟩ := List.mem_filterMap.1 hv
  cases d with
  | datatype d => cases ht
  | type t' =>
    cases ht
    cases m with
    | invariant v' =>
      cases hv
      exact spelled_of_mem_declarations hs _ hd t rfl _ hm v rfl
    | _ => cases hv

namespace Registry

variable {r : Registry} {id : SourceId} {reading : Reading}

theorem spelled_of_mem_walk (h : r.read id = .ok reading) {depth : Nat} {e : Expr Span}
    (he : ⟨depth, .expr e⟩ ∈ reading.unit.walk) : e.Spelled := by
  cases hfind : r.find id with
  | error e => simp [read, hfind] at h
  | ok source =>
    obtain ⟨lexical, table, -, -, hread⟩ := exists_read_eq hfind
    obtain rfl := Except.ok.inj (hread.symm.trans h)
    have hpicked : e ∈ picked Node.expr? ((readUnit (itemsOf (tokenize source.text).1)).1.map table.span).walk :=
      List.mem_filterMap.2 ⟨_, he, rfl⟩
    rw [SchemaUnit.exprs_walk, SchemaUnit.invariants_map] at hpicked
    obtain ⟨v, hv, hpicked⟩ := List.mem_flatMap.1 hpicked
    obtain ⟨w, hw, rfl⟩ := List.mem_map.1 hv
    have hspelled := spelled_of_mem_invariants (spelledOut_itemsOf source.text) w hw
    exact (hspelled.map table.span).of_mem_walk 5 e hpicked

/-- **Texts show the grouping.** Two expressions stand anywhere in the constraints of two units, whatever
texts those are read from and with whatever diagnostics. If the expressions have the same text, they are the
same expression: they only differ in their places. -/
theorem eq_of_text_of_read (r r' : Registry) (id id' : SourceId) (reading reading' : Reading)
    (h : r.read id = .ok reading) (h' : r'.read id' = .ok reading') (depth depth' : Nat)
    (e e' : Expr Span) (he : ⟨depth, .expr e⟩ ∈ reading.unit.walk)
    (he' : ⟨depth', .expr e'⟩ ∈ reading'.unit.walk) (htext : e.text = e'.text) :
    e.map forget = e'.map forget := by
  refine ((spelled_of_mem_walk h he).map forget).eq_of_text ((spelled_of_mem_walk h' he').map forget) ?_
  rw [Expr.text_map, Expr.text_map, htext]

theorem exists_of_texts_eq {text : String}
    (h : (r.read id).toOption.map (fun x => x.unit.invariants.map fun v => v.constraint.text) =
      some [text]) :
    ∃ reading depth e, r.read id = .ok reading ∧ ⟨depth, .expr e⟩ ∈ reading.unit.walk ∧
      e.text = text := by
  cases hread : r.read id with
  | error e => simp [hread, Except.toOption] at h
  | ok reading =>
    rw [hread] at h
    obtain ⟨v, hv, htext⟩ := List.map_eq_singleton_iff.1 (Option.some.inj h)
    obtain ⟨depth, he⟩ := SchemaUnit.exists_mem_walk (u := reading.unit) (v := v) (by simp [hv])
    exact ⟨reading, depth, v.constraint, rfl, he, htext⟩

/-- A negative literal and a negation, with the precedence of all operators left to the reader and with
parentheses for it. -/
theorem eq_of_text_of_read_parentheses :
    let r : Registry := ⟨#[Source.ofText ""
      "schema\"\"type T\x7b!\"\"-1--a.b->f(/x\\//,1.50e300)|$p|\x7bb?\x7bc\x7d:\x7b_\x7d\x7d[0]\x7d"]⟩
    let r' : Registry := ⟨#[Source.ofText "" ("schema\"\"type T\x7b!\"\"(-1)-(-(((a).b)->f(/x\\//,15E+299,)" ++
      "|$p|\x7b(b?\x7bc\x7d:\x7bnil\x7d)\x7d)[0])\x7d")]⟩
    ∃ reading reading' depth depth' e e', r.read ⟨1⟩ = .ok reading ∧ r'.read ⟨1⟩ = .ok reading' ∧
      ⟨depth, .expr e⟩ ∈ reading.unit.walk ∧ ⟨depth', .expr e'⟩ ∈ reading'.unit.walk ∧
        e.text = "(-1 - (-a.b -> f(/x\\//, 1.5e300) |$p| \x7b(b ? \x7bc\x7d : \x7bnil\x7d)\x7d[0]))" ∧
          e.text = e'.text ∧ e.map forget = e'.map forget := by
  intro r r'
  have hread : (r.read ⟨1⟩).toOption.map (fun x => x.unit.invariants.map fun v => v.constraint.text) =
      some ["(-1 - (-a.b -> f(/x\\//, 1.5e300) |$p| \x7b(b ? \x7bc\x7d : \x7bnil\x7d)\x7d[0]))"] := by
    decide +kernel
  have hread' : (r'.read ⟨1⟩).toOption.map (fun x => x.unit.invariants.map fun v => v.constraint.text) =
      some ["(-1 - (-a.b -> f(/x\\//, 1.5e300) |$p| \x7b(b ? \x7bc\x7d : \x7bnil\x7d)\x7d[0]))"] := by
    decide +kernel
  obtain ⟨reading, depth, e, h, he, htext⟩ := exists_of_texts_eq hread
  obtain ⟨reading', depth', e', h', he', htext'⟩ := exists_of_texts_eq hread'
  have heq := htext.trans htext'.symm
  exact ⟨reading, reading', depth, depth', e, e', h, h', he, he', htext, heq,
    eq_of_text_of_read r r' ⟨1⟩ ⟨1⟩ reading reading' h h' depth depth' e e' he he' heq⟩

end Registry

end SchemaLang
