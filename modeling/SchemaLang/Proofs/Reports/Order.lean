import Mathlib.Data.List.Sort
import Mathlib.Data.Prod.Lex
import SchemaLang.Report.Summary

/-!
# The order of a report

* `Diagnostic.key d`: the source, the line, the column and the severity of a diagnostic, in the order in
  which they count.
* `Diagnostic.rankIn ds d`: the key, and then where the diagnostic is first in `ds`. No two members of `ds`
  have the same rank.
* `reportOrder ds`: the distinct members of `ds`, sorted for a report.
* `Reorders ds es`: `es` is `ds` in another order, in which diagnostics of one key stand as they do in `ds`.

The sort of a report only looks at keys. It is stable, so diagnostics of one key stay in the order in which
they are distinct (`filter_mergeSort_before`), which is the order in which they are first.

Main statements: the members of a list in the order of a report are ordered by rank
(`pairwise_reportOrder`), and they are the same for a list in another order (`Reorders.reportOrder_eq`).
-/

set_option autoImplicit false

namespace SchemaLang

/-! ## Distinct members -/

section Distinct

variable {α : Type} [DecidableEq α]

theorem distinct_filter (p : α → Bool) (as : List α) :
    distinct (as.filter p) = (distinct as).filter p := by
  induction as with
  | nil => rfl
  | cons a as ih =>
    rw [distinct, List.filter_cons, List.filter_cons, List.filter_comm p]
    split
    · rw [distinct, ih]
    · rename_i ha
      -- what `p` rejects is not among what it keeps
      rw [ih, List.filter_filter]
      refine List.filter_congr fun b _ => ?_
      by_cases hb : b = a
      · simp [hb, ha]
      · simp [hb]

/-- A copy of an earlier member does not count. -/
theorem distinct_append_cons {a : α} {as : List α} (h : a ∈ as) (bs : List α) :
    distinct (as ++ a :: bs) = distinct (as ++ bs) := by
  induction as with
  | nil => cases h
  | cons b as ih =>
    rw [List.cons_append, List.cons_append, distinct, distinct]
    rcases List.mem_cons.1 h with rfl | h
    · rw [← distinct_filter, ← distinct_filter]
      simp
    · rw [ih h]

/-- Distinct members stand in the order in which they are first. -/
theorem pairwise_distinct (as : List α) :
    (distinct as).Pairwise fun a b => as.idxOf a < as.idxOf b := by
  induction as with
  | nil => exact .nil
  | cons a as ih =>
    have hne : ∀ b ∈ (distinct as).filter (· ≠ a), a ≠ b := by
      intro b hb
      have := (List.mem_filter.1 hb).2
      simpa using Ne.symm (of_decide_eq_true this)
    rw [distinct, List.pairwise_cons]
    constructor
    · intro b hb
      simp [List.idxOf_cons_ne _ (hne b hb)]
    · refine (ih.filter _).imp_of_mem fun {b c} hb hc hbc => ?_
      rw [List.idxOf_cons_ne _ (hne b hb), List.idxOf_cons_ne _ (hne c hc)]
      exact Nat.succ_lt_succ hbc

end Distinct

/-! ## Keys -/

namespace Diagnostic

variable {d e : Diagnostic}

def key (d : Diagnostic) : ℕ ×ₗ ℕ ×ₗ ℕ ×ₗ ℕ :=
  toLex (d.source.index, toLex (d.placeKey.1, toLex (d.placeKey.2, d.severity.rank)))

theorem before_iff : d.before e = true ↔ d.key ≤ e.key := by
  simp only [before, sortKey, keyLe, key, Prod.Lex.toLex_le_toLex, Bool.or_eq_true, Bool.and_eq_true,
    decide_eq_true_eq, beq_iff_eq, and_true, Nat.le_iff_lt_or_eq]

theorem before_trans (c d e : Diagnostic) (hcd : c.before d = true) (hde : d.before e = true) :
    c.before e = true :=
  before_iff.2 (le_trans (before_iff.1 hcd) (before_iff.1 hde))

theorem before_total (d e : Diagnostic) : (d.before e || e.before d) = true := by
  rw [Bool.or_eq_true, before_iff, before_iff]
  exact le_total _ _

/-- Diagnostics of one key have the source, the place and the severity in common. -/
theorem key_eq_iff : d.key = e.key ↔
    d.source = e.source ∧ d.placeKey = e.placeKey ∧ d.severity = e.severity := by
  have hsource : d.source.index = e.source.index ↔ d.source = e.source :=
    ⟨congrArg SourceId.mk, congrArg SourceId.index⟩
  have hrank : d.severity.rank = e.severity.rank ↔ d.severity = e.severity := by
    cases d.severity <;> cases e.severity <;> decide
  simp only [key, EmbeddingLike.apply_eq_iff_eq, hsource, hrank, Prod.ext_iff, and_assoc]

def rankIn (ds : List Diagnostic) (d : Diagnostic) : (ℕ ×ₗ ℕ ×ₗ ℕ ×ₗ ℕ) ×ₗ ℕ :=
  toLex (d.key, ds.idxOf d)

end Diagnostic

/-! ## The sorted list -/

variable {ds es : List Diagnostic}

/-- Sorting keeps the order of diagnostics of one key. -/
theorem filter_mergeSort_before (ds : List Diagnostic) (d : Diagnostic) :
    (ds.mergeSort Diagnostic.before).filter (·.key = d.key) = ds.filter (·.key = d.key) := by
  have hsorted : (ds.filter (·.key = d.key)).Pairwise fun a b => a.before b = true := by
    refine List.pairwise_of_forall_mem_list fun a ha b hb => ?_
    have ha : a.key = d.key := by simpa using (List.mem_filter.1 ha).2
    have hb : b.key = d.key := by simpa using (List.mem_filter.1 hb).2
    exact Diagnostic.before_iff.2 (le_of_eq (ha.trans hb.symm))
  have hsublist := List.sublist_mergeSort Diagnostic.before_trans Diagnostic.before_total hsorted
    List.filter_sublist
  have hfilter := hsublist.filter (·.key = d.key)
  simp only [List.filter_filter, Bool.and_self] at hfilter
  exact (hfilter.eq_of_length
    ((List.mergeSort_perm ds _).filter _).length_eq.symm).symm

/-- The members of a list in the order of a report. -/
def reportOrder (ds : List Diagnostic) : List Diagnostic :=
  (distinct ds).mergeSort Diagnostic.before

theorem mem_reportOrder {d : Diagnostic} : d ∈ reportOrder ds ↔ d ∈ ds := by
  rw [reportOrder, (List.mergeSort_perm _ _).mem_iff, mem_distinct]

theorem nodup_reportOrder (ds : List Diagnostic) : (reportOrder ds).Nodup :=
  (List.mergeSort_perm _ _).nodup_iff.2 (nodup_distinct ds)

theorem pairwise_key_reportOrder (ds : List Diagnostic) :
    (reportOrder ds).Pairwise fun d e => d.key ≤ e.key :=
  (List.pairwise_mergeSort Diagnostic.before_trans Diagnostic.before_total (distinct ds)).imp
    Diagnostic.before_iff.1

/-- Diagnostics of one key stand in the order in which they are first. -/
theorem filter_reportOrder (ds : List Diagnostic) (d : Diagnostic) :
    (reportOrder ds).filter (·.key = d.key) = distinct (ds.filter (·.key = d.key)) := by
  rw [reportOrder, filter_mergeSort_before, distinct_filter]

/-- A list is in the order of its ranks if it is in that of its keys, and diagnostics of one key stand in it
as they are first. -/
theorem pairwise_rankIn {ls : List Diagnostic} (hkeys : ls.Pairwise fun d e => d.key ≤ e.key)
    (hties : ∀ d : Diagnostic, ls.filter (·.key = d.key) = distinct (ds.filter (·.key = d.key))) :
    ls.Pairwise fun d e => d.rankIn ds < e.rankIn ds := by
  rw [List.pairwise_iff_forall_sublist] at hkeys ⊢
  intro d e hde
  rw [Diagnostic.rankIn, Diagnostic.rankIn, Prod.Lex.toLex_lt_toLex]
  rcases lt_or_eq_of_le (hkeys hde) with hlt | heq
  · exact .inl hlt
  · refine .inr ⟨heq, ?_⟩
    have hfilter := hde.filter (·.key = d.key)
    rw [hties d, distinct_filter] at hfilter
    have hpair : [d, e].filter (·.key = d.key) = [d, e] := by simp [heq]
    rw [hpair] at hfilter
    exact List.pairwise_iff_forall_sublist.1 (pairwise_distinct ds)
      (hfilter.trans List.filter_sublist)

theorem pairwise_reportOrder (ds : List Diagnostic) :
    (reportOrder ds).Pairwise fun d e => d.rankIn ds < e.rankIn ds :=
  pairwise_rankIn (pairwise_key_reportOrder ds) (filter_reportOrder ds)

/-! ## Other orders -/

/-- Reordering a list, but not diagnostics of one source, one place and one severity. -/
structure Reorders (ds es : List Diagnostic) : Prop where
  perm : ds.Perm es
  ties : ∀ d : Diagnostic,
    ds.filter (fun e => e.source = d.source ∧ e.placeKey = d.placeKey ∧ e.severity = d.severity) =
      es.filter fun e => e.source = d.source ∧ e.placeKey = d.placeKey ∧ e.severity = d.severity

theorem Reorders.reportOrder_eq (h : Reorders ds es) : reportOrder ds = reportOrder es := by
  have hties (d : Diagnostic) : ds.filter (·.key = d.key) = es.filter (·.key = d.key) := by
    simpa only [Diagnostic.key_eq_iff] using h.ties d
  -- both are in the order of the ranks in `ds`
  have hes : (reportOrder es).Pairwise fun d e => d.rankIn ds < e.rankIn ds :=
    pairwise_rankIn (pairwise_key_reportOrder es) fun d => by rw [filter_reportOrder, hties]
  have hperm : (reportOrder ds).Perm (reportOrder es) := by
    rw [List.perm_ext_iff_of_nodup (nodup_reportOrder ds) (nodup_reportOrder es)]
    intro d
    rw [mem_reportOrder, mem_reportOrder, h.perm.mem_iff]
  exact hperm.eq_of_pairwise (fun d e _ _ hde hed => absurd hed (lt_asymm hde))
    (pairwise_reportOrder ds) hes

end SchemaLang
