import SchemaLang.Report.Render
import SchemaLang.Source.Registry

/-!
# Reports on many diagnostics

A report drops repeated diagnostics, sorts the others by source and place, shows no more errors than
asked for, and counts all of them.

* `distinct` keeps the first of equal members.
* `Diagnostic.before` is the order of a report; sorting is stable, so ties keep their order.
* `report` is the whole.
-/

set_option autoImplicit false

namespace SchemaLang

structure Counts where
  errors : Nat
  warnings : Nat
  notes : Nat
deriving DecidableEq, Repr

namespace Counts

def of (ds : List Diagnostic) : Counts :=
  let count (s : Severity) := (ds.filter (·.severity = s)).length
  ⟨count .error, count .warning, count .note⟩

def total (c : Counts) : Nat := c.errors + c.warnings + c.notes

def counted (n : Nat) (what : String) : List String :=
  if n = 0 then [] else [s!"{n} {what}" ++ if n = 1 then "" else "s"]

/-- A line for more than one diagnostic. -/
def summary? (c : Counts) : Option String :=
  if c.total ≤ 1 then none
  else some <| "Found " ++ " and ".intercalate
    (counted c.errors "error" ++ counted c.warnings "warning" ++ counted c.notes "note") ++ "."

end Counts

/-- The members of a list, each where it is first. -/
def distinct {α : Type} [DecidableEq α] : List α → List α
  | [] => []
  | a :: as => a :: (distinct as).filter (· ≠ a)

namespace Diagnostic

/-- Line and column; a diagnostic without a place stands at the last line and column there are. -/
def placeKey (d : Diagnostic) : Nat × Nat :=
  match d.position?.filter (0 < ·.line) with
  | some p => (p.line, p.column)
  | none => (lastWord, lastWord)

/-- Numbers that order diagnostics: the source, the line, the column and the severity. -/
def sortKey (d : Diagnostic) : List Nat :=
  [d.source.index, d.placeKey.1, d.placeKey.2, d.severity.rank]

/-- Lists of numbers in the order of words. -/
def keyLe : List Nat → List Nat → Bool
  | [], _ => true
  | _ :: _, [] => false
  | a :: as, b :: bs => a < b || (a == b && keyLe as bs)

def before (d e : Diagnostic) : Bool := keyLe d.sortKey e.sortKey

end Diagnostic

/-- The diagnostics without the errors behind the first `cap`. -/
def capErrors : Nat → List Diagnostic → List Diagnostic
  | _, [] => []
  | cap, d :: ds =>
    if d.isError then
      match cap with
      | 0 => capErrors 0 ds
      | cap + 1 => d :: capErrors cap ds
    else d :: capErrors cap ds

/-- What a report shows, in order. -/
def shownDiagnostics (ds : List Diagnostic) (cap : Option Nat) : List Diagnostic :=
  let sorted := (distinct ds).mergeSort Diagnostic.before
  match cap with
  | some n => capErrors n sorted
  | none => sorted

structure Report where
  counts : Counts
  text : String

/-- The name of a source in a report. -/
def Registry.nameOf (r : Registry) (id : SourceId) : String :=
  match r.find? id with
  | some s => s.name
  | none => "<unknown>"

def report (ds : List Diagnostic) (r : Registry) (cap : Option Nat) (color : Bool) : Report :=
  let counts := Counts.of (distinct ds)
  let shown := shownDiagnostics ds cap
  let head := match counts.summary? with
    | some line => line ++ "\n\n"
    | none => ""
  let blocks := shown.map fun d =>
    d.render ((r.find? d.source).map Source.text) (r.nameOf d.source) color
  let hidden := counts.errors - (shown.filter Diagnostic.isError).length
  let body := head ++ "\n".intercalate blocks
  let tail :=
    if hidden = 0 then ""
    else (if body.endsWith "\n" then "" else "\n") ++
      s!"... and {hidden} more errors not shown (use --max-errors to increase).\n"
  ⟨counts, body ++ tail⟩

/-- The number of errors shown if no other is asked for. -/
def defaultErrorCap : Nat := 50

theorem mem_distinct {α : Type} [DecidableEq α] {a : α} {as : List α} :
    a ∈ distinct as ↔ a ∈ as := by
  induction as with
  | nil => simp [distinct]
  | cons b bs ih =>
    by_cases h : a = b <;> simp [distinct, h, ih]

theorem nodup_distinct {α : Type} [DecidableEq α] (as : List α) : (distinct as).Nodup := by
  induction as with
  | nil => simp [distinct]
  | cons b bs ih =>
    rw [distinct, List.nodup_cons]
    exact ⟨by simp, ih.sublist List.filter_sublist⟩

end SchemaLang
