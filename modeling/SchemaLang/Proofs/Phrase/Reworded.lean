import SchemaLang.Proofs.Phrase.Expr

/-!
# Phrases in the same words

Comments and line breaks before an item say nothing in an expression.

* `Reworded us ts`: the items `us` have the kinds and texts of `ts`.
* `Phrase.Rewords R S`: what the items of a phrase of `R` say, all items in the same words say in `S`.

Main statement: expressions are phrases of that kind (`Expr.Derives.reworded`).
-/

set_option autoImplicit false

namespace SchemaLang

/-- What an item is without comments and line breaks before it. -/
def Item.word (t : Item) : TokenKind × String := (t.kind, t.text)

def Reworded (us ts : List Item) : Prop := us.map Item.word = ts.map Item.word

section

variable {us ts vs : List Item} {t : Item}

@[simp] theorem reworded_nil : Reworded us [] ↔ us = [] := by
  simp [Reworded]

@[simp] theorem reworded_cons : Reworded us (t :: ts) ↔
    ∃ u vs, us = u :: vs ∧ (u.kind = t.kind ∧ u.text = t.text) ∧ Reworded vs ts := by
  simp only [Reworded, List.map_cons, List.map_eq_cons_iff, Item.word, Prod.mk.injEq]

@[simp] theorem reworded_append : Reworded us (ts ++ vs) ↔
    ∃ us₁ us₂, us = us₁ ++ us₂ ∧ Reworded us₁ ts ∧ Reworded us₂ vs := by
  simp only [Reworded, List.map_append, List.map_eq_append_iff]

theorem Reworded.length_eq (h : Reworded us ts) : us.length = ts.length := by
  simpa using congrArg List.length h

end

namespace Phrase

variable {α : Type} {R S : Phrase α}

def Rewords (R S : Phrase α) : Prop := ∀ ts us a, R ts a → Reworded us ts → S us a

namespace Rewords

variable (h : Rewords R S)

include h

theorem elements : Rewords (Elements R) (Elements S) := by
  intro ts us as he
  induction he generalizing us with
  | one hr => exact fun hu => .one (h _ _ _ hr hu)
  | ended hr hc =>
    simp only [reworded_append, reworded_cons, reworded_nil]
    rintro ⟨vs, _, rfl, hv, c, _, rfl, ⟨hk, -⟩, rfl⟩
    exact .ended (h _ _ _ hr hv) (hk.trans hc)
  | more hr hc _ ih =>
    simp only [reworded_append, reworded_cons]
    rintro ⟨vs, _, rfl, hv, c, ws, rfl, ⟨hk, -⟩, hw⟩
    exact .more (h _ _ _ hr hv) (hk.trans hc) (ih _ hw)

theorem listing : Rewords (Listing R) (Listing S) := by
  intro ts us as hl hu
  cases hl with
  | empty => exact reworded_nil.1 hu ▸ .empty
  | filled he => exact .filled (h.elements _ _ _ he hu)

theorem enclosed {opener closer : Symbol} :
    Rewords (Enclosed opener closer R) (Enclosed opener closer S) := by
  rintro _ us a ⟨hl, hr, hk⟩
  simp only [reworded_append, reworded_cons, reworded_nil]
  rintro ⟨l, _, rfl, ⟨hl', -⟩, vs, _, rfl, hv, r, _, rfl, ⟨hk', -⟩, rfl⟩
  exact .mk (hl'.trans hl) (h _ _ _ hr hv) (hk'.trans hk)

theorem optional : Rewords (Optional R) (Optional S) := by
  intro ts us a ho hu
  cases ho with
  | absent => exact reworded_nil.1 hu ▸ .absent
  | present hr => exact .present (h _ _ _ hr hu)

end Rewords

end Phrase

namespace Expr

open SchemaLang.Phrase

variable {lenient head : Bool} {level : Precedence} {ts us : List Item} {e : Expr Unit}

theorem Operand.reworded {t u : Item} (h : Operand t e) (hk : u.kind = t.kind)
    (ht : u.text = t.text) : Operand u e := by
  obtain ⟨k, s, d, l⟩ := u
  obtain rfl : k = t.kind := hk
  obtain rfl : s = t.text := ht
  cases h <;> constructor <;> assumption

theorem rewords_paramNames : Rewords ParamNames ParamNames := by
  intro ts us ps h
  induction h generalizing us with
  | one ht =>
    simp only [reworded_cons, reworded_nil]
    rintro ⟨t, _, rfl, ⟨hk, hw⟩, rfl⟩
    rw [← hw]
    exact .one (hk.trans ht)
  | more ht hc _ ih =>
    simp only [reworded_cons]
    rintro ⟨t, _, rfl, ⟨hk, hw⟩, c, vs, rfl, ⟨hk', -⟩, hv⟩
    rw [← hw]
    exact .more (hk.trans ht) (hk'.trans hc) (ih _ hv)

theorem Derives.reworded (h : Derives lenient head level ts e) (hu : Reworded us ts) :
    Derives lenient head level us e := by
  have inner {R : Phrase (Expr Unit)} (ih : ∀ ts e, R ts e → ∀ {us : List Item}, Reworded us ts →
      Derives lenient lenient .ternary us e) : Rewords R (Derives lenient lenient .ternary) :=
    fun ts _ e hr hu => ih ts e hr hu
  induction h generalizing us with
  | operand ho =>
    simp only [reworded_cons, reworded_nil] at hu
    obtain ⟨u, _, rfl, ⟨hk, ht⟩, rfl⟩ := hu
    exact .operand (ho.reworded hk ht)
  | negative hs ht hv =>
    simp only [reworded_cons, reworded_nil] at hu
    obtain ⟨s, _, rfl, ⟨hs', -⟩, t, _, rfl, ⟨ht', hw⟩, rfl⟩ := hu
    exact .negative (hs'.trans hs) (ht'.trans ht) (hw ▸ hv)
  | grouped hl _ hr ih =>
    simp only [reworded_append, reworded_cons, reworded_nil] at hu
    obtain ⟨l, _, rfl, ⟨hl', -⟩, vs, _, rfl, hv, r, _, rfl, ⟨hr', -⟩, rfl⟩ := hu
    exact .grouped (hl'.trans hl) (ih hv) (hr'.trans hr)
  | list _ he ih =>
    exact .list (fun _ _ h => h) ((inner ih).listing.enclosed _ _ _ he hu)
  | unary hl hs hn _ ih =>
    rw [reworded_cons] at hu
    obtain ⟨s, vs, rfl, ⟨hs', -⟩, hv⟩ := hu
    have he := ih hv
    rw [reworded_cons] at hv
    obtain ⟨t, ws, rfl, ⟨ht', -⟩, -⟩ := hv
    exact .unary hl (hs'.trans hs) (ht' ▸ hn) he
  | binary hl _ ht hlt _ ihl ihr =>
    simp only [reworded_append, reworded_cons] at hu
    obtain ⟨ls, _, rfl, hls, t, rs, rfl, ⟨ht', -⟩, hrs⟩ := hu
    exact .binary hl (ihl hls) (ht'.trans ht) hlt (ihr hrs)
  | ternary hl _ hq _ ht hc he ihc ih =>
    simp only [reworded_append, reworded_cons] at hu
    obtain ⟨cs, _, rfl, hcs, q, _, rfl, ⟨hq', -⟩, ts, _, rfl, hts, c, es, rfl, ⟨hc', -⟩, hes⟩ := hu
    have branch := @Rewords.enclosed _ _ _ (inner ih) .lBrace .rBrace
    exact .ternary hl (ihc hcs) (hq'.trans hq) (fun _ _ h => h) (branch _ _ _ ht hts)
      (hc'.trans hc) (branch _ _ _ he hes)
  | member _ hd hn ih =>
    simp only [reworded_append, reworded_cons, reworded_nil] at hu
    obtain ⟨os, _, rfl, hos, d, _, rfl, ⟨hd', -⟩, n, _, rfl, ⟨hn', hw⟩, rfl⟩ := hu
    rw [← hw]
    exact .member (ih hos) (hd'.trans hd) (hn' ▸ hn)
  | index _ _ he iho ih =>
    rw [reworded_append] at hu
    obtain ⟨os, is, rfl, hos, his⟩ := hu
    exact .index (iho hos) (fun _ _ h => h) ((inner ih).elements.enclosed _ _ _ he his)
  | pipeline _ ha hf _ has hps hbs ihs ih =>
    simp only [reworded_append, reworded_cons] at hu
    obtain ⟨ss, _, rfl, hss, a, _, rfl, ⟨ha', -⟩, f, _, rfl, ⟨hf', hw⟩, _, bs, rfl,
      ⟨as, ps, rfl, has', hps'⟩, hbs'⟩ := hu
    rw [← hw]
    exact .pipeline (ihs hss) (ha'.trans ha) (hf' ▸ hf) (fun _ _ h => h)
      ((inner ih).listing.enclosed.optional _ _ _ has has')
      (rewords_paramNames.enclosed.optional _ _ _ hps hps')
      ((inner ih).enclosed.optional _ _ _ hbs hbs')

end Expr

end SchemaLang
