import SchemaLang.Command

/-!
# The program

`runProgram` reads the files that the arguments name and prints the outcome of `runCommand`; `main`
is the entry.
-/

set_option autoImplicit false

namespace SchemaLang

/-- What the system says of a file that it cannot read. -/
def failureText : IO.Error → String
  | .noFileOrDirectory _ code details => s!"{details} (os error {code})"
  | .permissionDenied _ code details => s!"{details} (os error {code})"
  | .inappropriateType _ code details => s!"{details} (os error {code})"
  | .invalidArgument _ code details => s!"{details} (os error {code})"
  | e => toString e

def readTextFile (path : String) : IO (Except String String) := do
  try
    let bytes ← IO.FS.readBinFile path
    match String.fromUTF8? bytes with
    | some text => return .ok text
    | none => return .error "stream did not contain valid UTF-8"
  catch e => return .error (failureText e)

/-- The files that a run asks for, each with its text or the reason why there is none. -/
def readNamedFiles (args : List String) : IO (List (String × Except String String)) :=
  match Invocation.ofArgs args with
  | .ok (.check request) => request.files.mapM fun path => return (path, ← readTextFile path)
  | _ => return []

/-- Reads, checks and prints; the result is the exit code. -/
def runProgram (args : List String) : IO UInt32 := do
  let files ← readNamedFiles args
  let color := (← IO.getEnv "NO_COLOR").isNone
  let outcome := runCommand args (fun path => (files.lookup path).getD (.error "not read")) color
  IO.print outcome.stdout
  IO.eprint outcome.stderr
  return outcome.exitCode.toUInt32

end SchemaLang

def main (args : List String) : IO UInt32 := SchemaLang.runProgram args
