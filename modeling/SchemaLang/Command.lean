import SchemaLang.Json.Reading
import SchemaLang.Report.Summary
import SchemaLang.Schema.Walk
import SchemaLang.Step

/-!
# The command

The command reads schema files, reports on all of them together, and prints a summary, the tokens or
the units. What it does is a function of its arguments and of the files.

* `Invocation.ofArgs` is what a list of arguments asks for.
* `loadFiles`, `showTokens` and `readAll` are the steps that may end a run.
* `runCommand` is the whole run, with everything that it prints and its exit code.

Main statement: `stdout_of_refused`, a run that cannot start prints nothing but an error.
-/

set_option autoImplicit false

namespace SchemaLang

/-- Why a list of arguments asks for nothing. -/
inductive UsageError where
  | missingCap
  | malformedCap
  | unknownFlag (flag : String)
  | noFiles
deriving DecidableEq, Repr

def UsageError.message : UsageError → String
  | missingCap => "Usage: yammm <file.yammm> --max-errors <n>"
  | malformedCap => "Error: --max-errors expects a non-negative integer."
  | unknownFlag flag => s!"Error: unknown flag {flag}"
  | noFiles => "Usage: yammm [--json] [--tokens] [--max-errors <n>] <file.yammm>..."

/-- Files to check, and what to print of them. -/
structure Request where
  json : Bool
  tokens : Bool
  errorCap : Nat
  files : List String
deriving DecidableEq, Repr

inductive Invocation where
  | help
  | check (request : Request)
deriving DecidableEq, Repr

namespace Invocation

/-- A count of errors as an argument; it may have a plus sign. -/
def readCap? (arg : String) : Option Nat := readNat? wordLimit (dropOne '+' arg.toList)

/-- The last cap that is asked for, `cap` if there is none, and the arguments without the caps. -/
def takeCaps (cap : Nat) : List String → Except UsageError (Nat × List String)
  | [] => .ok (cap, [])
  | [arg] => if arg = "--max-errors" then .error .missingCap else .ok (cap, [arg])
  | arg :: value :: rest =>
    if arg = "--max-errors" then
      match readCap? value with
      | some n => takeCaps n rest
      | none => .error .malformedCap
    else
      match takeCaps cap (value :: rest) with
      | .ok (n, others) => .ok (n, arg :: others)
      | .error e => .error e

def isFlag (arg : String) : Bool := ['-', '-'].isPrefixOf arg.toList

def ofArgs (args : List String) : Except UsageError Invocation :=
  if args.isEmpty || args.any (fun a => a = "-h" || a = "--help") then .ok .help
  else
    match takeCaps defaultErrorCap (args.filter fun a => a ≠ "--json" && a ≠ "--tokens") with
    | .error e => .error e
    | .ok (cap, files) =>
      match files.find? isFlag with
      | some flag => .error (.unknownFlag flag)
      | none =>
        if files.isEmpty then .error .noFiles
        else .ok (.check ⟨args.contains "--json", args.contains "--tokens", cap, files⟩)

end Invocation

structure Outcome where
  exitCode : Nat
  stdout : String
  stderr : String
deriving DecidableEq, Repr

def helpText : String := "\n".intercalate
  ["yammm schema checker",
   "",
   "Usage:",
   "  yammm [flags] <file.yammm>...",
   "",
   "Flags:",
   "  --json             Print the parsed schema units as JSON",
   "  --tokens           Print the token stream of each file",
   "  --max-errors <n>   Limit displayed errors (default: 50)",
   "  -h, --help         Show this help message",
   "",
   "Environment:",
   "  NO_COLOR           Disable colored diagnostics",
   "  YAMMM_LOG          Log filter, e.g. `yammm=debug`",
   "",
   ""]

/-- A token with its place. -/
def tokenLine (p : Position) (t : Token) : String :=
  alignRight 3 (toString p.line) ++ ":" ++ alignLeft 3 (toString p.column) ++ " " ++
    alignLeft 16 t.kind.name ++ " " ++ Text.quoted t.text ++ "\n"

def tokenHeader (name : String) : String :=
  s!"Tokens from {name}:\n" ++ String.ofList (List.replicate 50 '─') ++ "\n"

/-- Prints the tokens of a source that the grammar sees. -/
def showTokens (r : Registry) (id : SourceId) : Step Unit :=
  match r.find? id with
  | none => pure ()
  | some source => do
    Step.print (tokenHeader source.name)
    Step.each (fun t =>
      match r.spanOf id t.start t.stop with
      | .error e => Step.breakOff e.message
      | .ok span => Step.print (tokenLine span.start t))
      ((tokenize source.text).1.filter (!·.isHidden))

def summaryLine (r : Registry) (reading : Reading) : String :=
  let unit := reading.unit
  let digest := ((r.find? reading.source).map Source.digest).getD ""
  s!"{r.nameOf reading.source}: schema {Text.quoted unit.name}, {unit.imports.length} imports, " ++
    s!"{unit.types.length} types, {unit.datatypes.length} datatypes, " ++
    s!"{unit.typeRefs.length} type references, {unit.exprCount} expression nodes " ++
    s!"(sha256 {digest})\n"

/-- Reads files and registers their texts, one after the other. `read` is the text of a file, or why it
cannot be read. -/
def loadFiles (read : String → Except String String) :
    Registry → List String → Step (Registry × List SourceId)
  | r, [] => pure (r, [])
  | r, file :: files =>
    match read file with
    | .error e => Step.refuse s!"Error reading {file}: {e}"
    | .ok text =>
      match r.register file text with
      | .error e => Step.refuse s!"Error: {e.message}"
      | .ok (id, r) => do
        let (r, ids) ← loadFiles read r files
        pure (r, id :: ids)

def readAll (r : Registry) : List SourceId → Step (List Reading)
  | [] => pure []
  | id :: ids =>
    match r.read id with
    | .error (.registry e) => Step.refuse s!"Error: {e.message}"
    | .error (.misplaced e) => Step.breakOff e.message
    | .ok reading => do
      let readings ← readAll r ids
      pure (reading :: readings)

/-- What is printed of all that is read. -/
def resultText (request : Request) (r : Registry) (readings : List Reading) : String :=
  if request.json then (Json.ofList (Reading.toJson Span.toJson) readings).pretty ++ "\n"
  else if request.tokens then ""
  else String.join (readings.map (summaryLine r))

/-- The tokens of all sources, if they are asked for. -/
def listTokens (request : Request) (r : Registry) (ids : List SourceId) : Step Unit :=
  if request.tokens then Step.each (showTokens r) ids else pure ()

/-- The report and the results; the value is the exit code. -/
def conclude (request : Request) (r : Registry) (readings : List Reading) (color : Bool) : Step Nat :=
  let rep := report (readings.flatMap (·.diagnostics)) r (some request.errorCap) color
  do
    Step.complain (if rep.text = "" then "" else rep.text ++ "\n")
    Step.print (resultText request r readings)
    pure (if 0 < rep.counts.errors then 1 else 0)

def checkFiles (request : Request) (read : String → Except String String) (color : Bool) :
    Step Nat := do
  let (r, ids) ← loadFiles read Registry.empty request.files
  listTokens request r ids
  let readings ← readAll r ids
  conclude request r readings color

def command (args : List String) (read : String → Except String String) (color : Bool) : Step Nat :=
  match Invocation.ofArgs args with
  | .error e => Step.refuse e.message
  | .ok .help => do
    Step.print helpText
    pure 0
  | .ok (.check request) => checkFiles request read color

/-- A run of the command. `read` is the text of a file, or why it cannot be read. -/
def runCommand (args : List String) (read : String → Except String String) (color : Bool) :
    Outcome :=
  match command args read color ⟨"", ""⟩ with
  | (.ok code, p) => ⟨code, p.stdout, p.stderr⟩
  | (.error code, p) => ⟨code, p.stdout, p.stderr⟩

theorem stdout_of_refused {args : List String} {e : UsageError}
    (h : Invocation.ofArgs args = .error e) (read : String → Except String String)
    (color : Bool) : runCommand args read color = ⟨2, "", e.message ++ "\n"⟩ := by
  simp [runCommand, command, h, Step.refuse]

end SchemaLang
