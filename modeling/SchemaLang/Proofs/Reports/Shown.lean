import Mathlib.Data.Finset.Card
import SchemaLang.Proofs.Reports.Order

/-!
# What a report shows

* `LosesCopies ds es`: `es` is `ds` without some copies of earlier members.
* `Diagnostic.count ds s`: how many distinct diagnostics of a severity are in `ds`.
* `Reported ds cap shown`: `shown` are the diagnostics of `ds` in the order of a report, all warnings and
  notes among them, and the first errors up to the cap.

A report is made from the distinct diagnostics in their order alone. So it does not see copies, nor does it
see in which order diagnostics of different keys arrive.

A diagnostic without a place has the key of the last line and column there are. Only there can another
diagnostic of its source be behind it (`Reported.unplaced_last`, `not_forall_placed_first`).

Main statement: `report_reported`.
-/

set_option autoImplicit false

namespace SchemaLang

variable {ds es shown : List Diagnostic} {cap : Option Nat}

inductive LosesCopies : List Diagnostic → List Diagnostic → Prop where
  | refl (ds : List Diagnostic) : LosesCopies ds ds
  | step {as bs es : List Diagnostic} {d : Diagnostic} :
      d ∈ as → LosesCopies (as ++ bs) es → LosesCopies (as ++ d :: bs) es

theorem LosesCopies.distinct_eq (h : LosesCopies ds es) : distinct es = distinct ds := by
  induction h with
  | refl => rfl
  | step hd _ ih => rw [ih, distinct_append_cons hd]

namespace Diagnostic

/-- The place by which a diagnostic is ordered, if it has one. -/
def located? (d : Diagnostic) : Option Position := d.position?.filter (0 < ·.line)

def count (ds : List Diagnostic) (s : Severity) : Nat := (ds.toFinset.filter (·.severity = s)).card

/-- The errors of `ds` before `d` in the order of a report. -/
def errorsBefore (ds : List Diagnostic) (d : Diagnostic) : Finset Diagnostic :=
  ds.toFinset.filter fun e => e.isError = true ∧ e.rankIn ds < d.rankIn ds

end Diagnostic

/-! ## Counts -/

theorem card_filter_toFinset {ls : List Diagnostic} (hnodup : ls.Nodup) (hmem : ∀ d, d ∈ ls ↔ d ∈ ds)
    (p : Diagnostic → Bool) : (ds.toFinset.filter fun d => p d = true).card = (ls.filter p).length := by
  have hset : ds.toFinset = ls.toFinset := by
    ext d
    rw [List.mem_toFinset, List.mem_toFinset, hmem]
  rw [hset, ← List.toFinset_filter, List.toFinset_card_of_nodup (hnodup.filter p)]

theorem length_filter_distinct (s : Severity) :
    ((distinct ds).filter (·.severity = s)).length = Diagnostic.count ds s := by
  have h := card_filter_toFinset (nodup_distinct ds) (fun _ => mem_distinct) (·.severity = s)
  simpa [Diagnostic.count] using h.symm

theorem counts_distinct (ds : List Diagnostic) : Counts.of (distinct ds) =
    ⟨Diagnostic.count ds .error, Diagnostic.count ds .warning, Diagnostic.count ds .note⟩ := by
  simp only [Counts.of, length_filter_distinct]

/-! ## The cap -/

theorem capErrors_sublist (n : Nat) (ls : List Diagnostic) : (capErrors n ls).Sublist ls := by
  induction ls generalizing n with
  | nil => exact .slnil
  | cons d ls ih =>
    unfold capErrors
    split
    · split
      · exact (ih 0).cons d
      · exact (ih _).cons_cons d
    · exact (ih n).cons_cons d

theorem length_filter_isError_capErrors (n : Nat) (ls : List Diagnostic) :
    ((capErrors n ls).filter Diagnostic.isError).length =
      min n (ls.filter Diagnostic.isError).length := by
  induction ls generalizing n with
  | nil => simp [capErrors]
  | cons d ls ih =>
    cases hd : d.isError with
    | false => simp [capErrors, hd, ih]
    | true =>
      cases n with
      | zero => simp [capErrors, hd, ih]
      | succ n => simp [capErrors, hd, ih, Nat.succ_min_succ]

/-- Of a list in order, an error stays if there are fewer errors before it than the cap allows. -/
theorem mem_capErrors {ls : List Diagnostic}
    (hls : ls.Pairwise fun d e => d.rankIn ds < e.rankIn ds) (n : Nat) (d : Diagnostic) :
    d ∈ capErrors n ls ↔ d ∈ ls ∧ (d.isError = true →
      (ls.filter fun e => e.isError && e.rankIn ds < d.rankIn ds).length < n) := by
  induction ls generalizing n with
  | nil => simp [capErrors]
  | cons a ls ih =>
    rw [List.pairwise_cons] at hls
    have ih := ih hls.2
    -- nothing behind `a` is before it
    have hnone : (ls.filter fun e => e.isError && e.rankIn ds < a.rankIn ds) = [] := by
      refine List.filter_eq_nil_iff.2 fun e he h => lt_asymm (hls.1 e he) ?_
      exact of_decide_eq_true (Bool.and_eq_true_iff.1 h).2
    have hmem : a ∉ ls := fun ha => lt_irrefl _ (hls.1 a ha)
    by_cases hd : d = a
    · subst hd
      cases hd : d.isError with
      | false => simp [capErrors, hd]
      | true =>
        cases n with
        | zero => simp [capErrors, hd, ih, hmem]
        | succ n => simp [capErrors, hd, hnone]
    · cases ha : a.isError with
      | false => simp [capErrors, ha, hd, ih]
      | true =>
        by_cases hdls : d ∈ ls
        · have hlt := hls.1 d hdls
          cases n with
          | zero => simp [capErrors, ha, hd, hdls, ih, hlt]
          | succ n => simp [capErrors, ha, hd, hdls, ih, hlt]
        · cases n with
          | zero => simp [capErrors, ha, hd, hdls, ih]
          | succ n => simp [capErrors, ha, hd, hdls, ih]

/-! ## Reports -/

structure Reported (ds : List Diagnostic) (cap : Option Nat) (shown : List Diagnostic) : Prop where
  /-- By source, line, column, severity and first occurrence. -/
  ordered : shown.Pairwise fun d e => d.rankIn ds < e.rankIn ds
  /-- Behind a diagnostic without a place no other of its source has one, unless at the last line and column
  there are. -/
  unplaced_last : shown.Pairwise fun d e => d.source = e.source → d.located? = none →
    ∀ p ∈ e.located?, lastWord < p.line ∨ p.line = lastWord ∧ lastWord ≤ p.column
  mem_iff : ∀ d, d ∈ shown ↔
    d ∈ ds ∧ (d.isError = true → ∀ n ∈ cap, (Diagnostic.errorsBefore ds d).card < n)
  length_errors : (shown.filter Diagnostic.isError).length =
    cap.elim (Diagnostic.count ds .error) fun n => min n (Diagnostic.count ds .error)

theorem shownDiagnostics_eq (ds : List Diagnostic) (cap : Option Nat) :
    shownDiagnostics ds cap = cap.elim (reportOrder ds) fun n => capErrors n (reportOrder ds) := by
  cases cap <;> rfl

theorem shownDiagnostics_sublist (ds : List Diagnostic) (cap : Option Nat) :
    (shownDiagnostics ds cap).Sublist (reportOrder ds) := by
  rw [shownDiagnostics_eq]
  cases cap with
  | none => exact .refl _
  | some n => exact capErrors_sublist n _

/-- What has no place has the last key of its source. -/
theorem last_of_key_le {d e : Diagnostic} (h : d.key ≤ e.key) (hsource : d.source = e.source)
    (hd : d.located? = none) {p : Position} (hp : p ∈ e.located?) :
    lastWord < p.line ∨ p.line = lastWord ∧ lastWord ≤ p.column := by
  have hdkey : d.placeKey = (lastWord, lastWord) := by
    rw [Diagnostic.placeKey, show d.position?.filter (0 < ·.line) = none from hd]
  have hekey : e.placeKey = (p.line, p.column) := by
    rw [Diagnostic.placeKey, show e.position?.filter (0 < ·.line) = some p from hp]
  simp only [Diagnostic.key, Prod.Lex.toLex_le_toLex, hsource, hdkey, hekey] at h
  omega

theorem card_errorsBefore (ds : List Diagnostic) (d : Diagnostic) :
    (Diagnostic.errorsBefore ds d).card =
      ((reportOrder ds).filter fun e => e.isError && e.rankIn ds < d.rankIn ds).length := by
  rw [← card_filter_toFinset (nodup_reportOrder ds) fun _ => mem_reportOrder]
  simp [Diagnostic.errorsBefore]

theorem length_filter_isError_reportOrder (ds : List Diagnostic) :
    ((reportOrder ds).filter Diagnostic.isError).length = Diagnostic.count ds .error := by
  rw [← card_filter_toFinset (nodup_reportOrder ds) fun _ => mem_reportOrder]
  simp [Diagnostic.count, Diagnostic.isError]

theorem reported_shownDiagnostics (ds : List Diagnostic) (cap : Option Nat) :
    Reported ds cap (shownDiagnostics ds cap) where
  ordered := (pairwise_reportOrder ds).sublist (shownDiagnostics_sublist ds cap)
  unplaced_last := by
    refine ((pairwise_key_reportOrder ds).sublist (shownDiagnostics_sublist ds cap)).imp ?_
    intro d e hkey hsource hd p hp
    exact last_of_key_le hkey hsource hd hp
  mem_iff := by
    intro d
    rw [shownDiagnostics_eq]
    cases cap with
    | none => simp [mem_reportOrder]
    | some n =>
      rw [Option.elim_some, mem_capErrors (pairwise_reportOrder ds), mem_reportOrder, card_errorsBefore]
      simp
  length_errors := by
    rw [shownDiagnostics_eq]
    cases cap with
    | none => exact length_filter_isError_reportOrder ds
    | some n =>
      rw [Option.elim_some, length_filter_isError_capErrors, length_filter_isError_reportOrder]
      rfl

/-- The line that tells how many errors are not shown. -/
def hiddenLine (n : Nat) : String :=
  s!"... and {n} more errors not shown (use --max-errors to increase).\n"

/-- The summary, if there is one, with an empty line below. -/
def Counts.heading (c : Counts) : String :=
  match c.summary? with
  | some line => line ++ "\n\n"
  | none => ""

def Diagnostic.block (r : Registry) (color : Bool) (d : Diagnostic) : String :=
  d.render ((r.find? d.source).map Source.text) (r.nameOf d.source) color

/-- What a report has above that line. -/
def reportBody (ds : List Diagnostic) (r : Registry) (cap : Option Nat) (color : Bool) : String :=
  (Counts.of (distinct ds)).heading ++
    "\n".intercalate ((shownDiagnostics ds cap).map (Diagnostic.block r color))

theorem text_report (ds : List Diagnostic) (r : Registry) (cap : Option Nat) (color : Bool) :
    (report ds r cap color).text = reportBody ds r cap color ++
      if Diagnostic.count ds .error ≤ cap.getD (Diagnostic.count ds .error) then ""
      else (if (reportBody ds r cap color).endsWith "\n" then "" else "\n") ++
        hiddenLine (Diagnostic.count ds .error - cap.getD (Diagnostic.count ds .error)) := by
  have hhidden : (Counts.of (distinct ds)).errors -
      ((shownDiagnostics ds cap).filter Diagnostic.isError).length =
        Diagnostic.count ds .error - cap.getD (Diagnostic.count ds .error) := by
    rw [counts_distinct, (reported_shownDiagnostics ds cap).length_errors]
    cases cap with
    | none => rfl
    | some n =>
      simp only [Option.elim_some, Option.getD_some]
      omega
  have htext : (report ds r cap color).text = reportBody ds r cap color ++
      let hidden := (Counts.of (distinct ds)).errors -
        ((shownDiagnostics ds cap).filter Diagnostic.isError).length
      if hidden = 0 then ""
      else (if (reportBody ds r cap color).endsWith "\n" then "" else "\n") ++ hiddenLine hidden := rfl
  rw [htext, hhidden]
  simp only [Nat.sub_eq_zero_iff_le]

/-- A report is made from the counts and the order of its diagnostics. -/
theorem report_congr (hcounts : Counts.of (distinct es) = Counts.of (distinct ds))
    (horder : reportOrder es = reportOrder ds) (r : Registry) (cap : Option Nat) (color : Bool) :
    report es r cap color = report ds r cap color := by
  simp only [report, shownDiagnostics_eq, hcounts, horder]

theorem Reorders.report_eq (h : Reorders ds es) (r : Registry) (cap : Option Nat) (color : Bool) :
    report es r cap color = report ds r cap color := by
  refine report_congr ?_ h.reportOrder_eq.symm r cap color
  have hset : es.toFinset = ds.toFinset := (List.toFinset_eq_of_perm _ _ h.perm).symm
  simp only [counts_distinct, Diagnostic.count, hset]

theorem LosesCopies.report_eq (h : LosesCopies ds es) (r : Registry) (cap : Option Nat) (color : Bool) :
    report es r cap color = report ds r cap color :=
  report_congr (by rw [h.distinct_eq]) (by rw [reportOrder, reportOrder, h.distinct_eq]) r cap color

/-- **Reports do not depend on how diagnostics arrive.** Copies of earlier diagnostics do not change a report,
nor does another order in which diagnostics of one source, one place and one severity stay as they are. The
counts are those of the distinct diagnostics. Below a summary of them stand the blocks of those shown, in
their order, and if there are more errors than the cap allows, a line with the number of the others. -/
theorem report_reported (ds : List Diagnostic) (r : Registry) (cap : Option Nat) (color : Bool) :
    (∀ es, LosesCopies ds es → report es r cap color = report ds r cap color) ∧
      (∀ es, Reorders ds es → report es r cap color = report ds r cap color) ∧
      (report ds r cap color).counts =
        ⟨Diagnostic.count ds .error, Diagnostic.count ds .warning, Diagnostic.count ds .note⟩ ∧
      ∃ shown body, Reported ds cap shown ∧
        body = (report ds r cap color).counts.heading ++
          "\n".intercalate (shown.map (Diagnostic.block r color)) ∧
        ((∀ n ∈ cap, Diagnostic.count ds .error ≤ n) → (report ds r cap color).text = body) ∧
        ∀ n ∈ cap, n < Diagnostic.count ds .error → (report ds r cap color).text =
          body ++ ((if body.endsWith "\n" then "" else "\n") ++
            hiddenLine (Diagnostic.count ds .error - n)) := by
  have htext := text_report ds r cap color
  refine ⟨fun es h => h.report_eq r cap color, fun es h => h.report_eq r cap color,
    counts_distinct ds, shownDiagnostics ds cap, reportBody ds r cap color,
    reported_shownDiagnostics ds cap, rfl, ?_, ?_⟩
  · intro hall
    have hle : Diagnostic.count ds .error ≤ cap.getD (Diagnostic.count ds .error) := by
      cases cap with
      | none => exact Nat.le_refl _
      | some n => exact hall n rfl
    rw [htext, if_pos hle, String.append_empty]
  · rintro n rfl hlt
    rw [htext, Option.getD_some, if_neg (Nat.not_le_of_lt hlt)]

/-- Two errors at different places, the later one reported twice and first, and a cap of one. -/
theorem report_reported_twoErrors :
    let late : Diagnostic :=
      { Diagnostic.titled .error "late" with span := some ⟨⟨1⟩, ⟨2, 0, 5⟩, ⟨2, 1, 6⟩⟩ }
    let early : Diagnostic :=
      { Diagnostic.titled .error "early" with span := some ⟨⟨1⟩, ⟨1, 3, 3⟩, ⟨1, 4, 4⟩⟩ }
    let r := Registry.empty
    report [late, early] r (some 1) false = report [late, early, late] r (some 1) false ∧
      report [early, late, late] r (some 1) false = report [late, early, late] r (some 1) false ∧
      (report [late, early, late] r (some 1) false).counts = ⟨2, 0, 0⟩ ∧
      ∃ shown body, Reported [late, early, late] (some 1) shown ∧ early ∈ shown ∧ late ∉ shown ∧
        (report [late, early, late] r (some 1) false).text =
          body ++ ((if body.endsWith "\n" then "" else "\n") ++ hiddenLine 1) := by
  intro late early r
  have hcopies : LosesCopies [late, early, late] [late, early] :=
    @LosesCopies.step [late, early] [] _ late (List.mem_cons_self ..) (.refl _)
  have hreorders : Reorders [late, early, late] [early, late, late] := by
    refine ⟨List.Perm.swap .., fun d => ?_⟩
    have hplace : late.placeKey ≠ early.placeKey := by decide
    by_cases hlate : late.placeKey = d.placeKey
    · have hearly : early.placeKey ≠ d.placeKey := fun h => hplace (hlate.trans h.symm)
      simp [List.filter_cons, hearly]
    · simp [List.filter_cons, hlate]
  obtain ⟨hdrop, hmove, hcounts, shown, body, hshown, -, -, htext⟩ :=
    report_reported [late, early, late] r (some 1) false
  have htwo : Diagnostic.count [late, early, late] .error = 2 := by decide
  refine ⟨hdrop _ hcopies, hmove _ hreorders, by rw [hcounts]; decide, shown, body, hshown, ?_, ?_, ?_⟩
  · refine (hshown.mem_iff early).2 ⟨by simp, fun _ n hn => ?_⟩
    obtain rfl := Option.some.inj hn
    decide
  · intro hmem
    have := ((hshown.mem_iff late).1 hmem).2 rfl 1 rfl
    revert this
    decide
  · have := htext 1 rfl (by rw [htwo]; decide)
    rwa [htwo] at this

/-- At the last line and column there are, an error does not come before one without a place. -/
theorem not_forall_placed_first : ¬ ∀ (r : Registry) (d e : Diagnostic), d.source = e.source →
    d.isError = true → e.isError = true → d.located? ≠ none → e.located? = none →
      (report [e, d] r (some 1) false).text =
        "Found 2 errors.\n\n" ++ d.block r false ++ hiddenLine 1 := by
  intro hall
  obtain ⟨e, he⟩ : ∃ e, e = Diagnostic.titled .error "noplace" := ⟨_, rfl⟩
  obtain ⟨d, hd⟩ : ∃ d : Diagnostic, d = { Diagnostic.titled .error "far" with
    span := some ⟨SourceId.none, ⟨lastWord, lastWord, 0⟩, ⟨lastWord, lastWord, 0⟩⟩ } := ⟨_, rfl⟩
  have hfirst := hall Registry.empty d e (by rw [hd, he]; rfl) (by rw [hd]; rfl) (by rw [he]; rfl)
    (by rw [hd]; decide) (by rw [he]; rfl)
  have horder : reportOrder [e, d] = [e, d] := by
    have hdistinct : distinct [e, d] = [e, d] := by
      rw [hd, he]
      decide
    rw [reportOrder, hdistinct]
    refine List.mergeSort_of_pairwise ?_
    rw [hd, he]
    decide
  have hshown : shownDiagnostics [e, d] (some 1) = [e] := by
    rw [shownDiagnostics_eq, Option.elim_some, horder, hd, he]
    rfl
  rw [text_report, reportBody, hshown, hd, he] at hfirst
  revert hfirst
  decide +kernel

end SchemaLang
