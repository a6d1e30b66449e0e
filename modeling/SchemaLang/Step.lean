/-!
# Steps of a run

A step prints on standard output and on standard error. Then it goes on with a value, or it ends the
run with an exit code. What has been printed stays printed.

* `Printed` and `Step` are what is printed and the steps, with `pure` and `bind` one after the other.
* `Step.print` and `Step.complain` print; `Step.refuse` and `Step.breakOff` end the run.
* `Step.each` does a step for each member of a list.

Main statements: `bind_of_ok` and `bind_of_error` open a sequence of two steps.
-/

set_option autoImplicit false

namespace SchemaLang

structure Printed where
  stdout : String
  stderr : String
deriving DecidableEq, Repr

/-- From what has been printed to a value or an exit code, and what has been printed then. -/
def Step (α : Type) : Type := Printed → Except Nat α × Printed

namespace Step

variable {α β : Type}

def andThen (x : Step α) (f : α → Step β) : Step β := fun p =>
  match x p with
  | (.ok a, p) => f a p
  | (.error code, p) => (.error code, p)

instance : Monad Step where
  pure a := fun p => (.ok a, p)
  bind := andThen

def print (text : String) : Step Unit := fun p => (.ok (), ⟨p.stdout ++ text, p.stderr⟩)

def complain (text : String) : Step Unit := fun p => (.ok (), ⟨p.stdout, p.stderr ++ text⟩)

/-- Ends a run that cannot do what it is asked for. -/
def refuse (message : String) : Step α := fun p =>
  (.error 2, ⟨p.stdout, p.stderr ++ message ++ "\n"⟩)

/-- Ends a run that finds itself in the wrong. -/
def breakOff (message : String) : Step α := fun p =>
  (.error 101, ⟨p.stdout, p.stderr ++ message ++ "\n"⟩)

def each (f : α → Step Unit) : List α → Step Unit
  | [] => pure ()
  | a :: as => do
    f a
    each f as

/-! ## Sequences -/

theorem bind_of_ok {x : Step α} {f : α → Step β} {p q : Printed} {a : α} (h : x p = (.ok a, q)) :
    (x >>= f) p = f a q := by
  show andThen x f p = f a q
  rw [andThen, h]

theorem bind_of_error {x : Step α} {f : α → Step β} {p q : Printed} {code : Nat}
    (h : x p = (.error code, q)) : (x >>= f) p = (.error code, q) := by
  show andThen x f p = _
  rw [andThen, h]

@[simp] theorem print_bind (text : String) (f : Unit → Step β) (p : Printed) :
    (print text >>= f) p = f () ⟨p.stdout ++ text, p.stderr⟩ := rfl

@[simp] theorem complain_bind (text : String) (f : Unit → Step β) (p : Printed) :
    (complain text >>= f) p = f () ⟨p.stdout, p.stderr ++ text⟩ := rfl

end Step

end SchemaLang
