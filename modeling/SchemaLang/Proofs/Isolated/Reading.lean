import SchemaLang.Proofs.Isolated.Renumbered
import SchemaLang.Report.Summary

/-!
# Sources are isolated

A registry is filled by calls, each with a name and a text. A call never fails but for a full registry, and a
failed one leaves the registry as it was.

* `Registry.registerStep r call`: the answer to a call and the registry behind it; `Registry.registerAll r calls`
  does all calls one after another.
* `Registry.Extends r r'`: what `r` answers for its sources, `r'` answers too.
* `Registry.SameAnswers r r' id`: all that can be asked of the source `id` has one answer in both registries.

A step extends a registry, and so does a run of calls. Whatever is asked of a number goes by the source found for
it, so sources registered before it or behind it change no answer. The number itself goes into spans and errors
and nothing else.

Main statement: `Registry.isolated_of_registerAll`.
-/

set_option autoImplicit false

namespace SchemaLang

namespace Registry

/-! ## Calls -/

def registerStep (r : Registry) (call : String × String) : Except RegistryError SourceId × Registry :=
  match r.register call.1 call.2 with
  | .ok (id, r') => (.ok id, r')
  | .error e => (.error e, r)

def registerAll (r : Registry) : List (String × String) → List (Except RegistryError SourceId) × Registry
  | [] => ([], r)
  | call :: calls =>
    let (answer, r') := r.registerStep call
    let (answers, last) := r'.registerAll calls
    (answer :: answers, last)

/-- The answer to a call when there are `n` sources. -/
def answerAt (n : Nat) : Except RegistryError SourceId :=
  if n < capacity then .ok ⟨n + 1⟩ else .error .full

/-- What one call does. -/
theorem registerStep_cases (r : Registry) (call : String × String) :
    (r.size < capacity ∧ r.registerStep call =
      (.ok ⟨r.size + 1⟩, ⟨r.sources.push (Source.ofText call.1 call.2)⟩)) ∨
    (capacity ≤ r.size ∧ r.registerStep call = (.error .full, r)) := by
  unfold registerStep register
  by_cases h : r.sources.size < capacity
  · rw [if_pos h]
    exact .inl ⟨h, rfl⟩
  · rw [if_neg h]
    exact .inr ⟨Nat.le_of_not_lt h, rfl⟩

structure Extends (r r' : Registry) : Prop where
  size_le : r.size ≤ r'.size
  find?_eq : ∀ id : SourceId, id.index ≤ r.size → r'.find? id = r.find? id

theorem Extends.refl (r : Registry) : r.Extends r := ⟨Nat.le_refl _, fun _ _ => rfl⟩

theorem Extends.trans {r r' r'' : Registry} (h : r.Extends r') (h' : r'.Extends r'') : r.Extends r'' := by
  refine ⟨Nat.le_trans h.size_le h'.size_le, ?_⟩
  intro id hid
  rw [h'.find?_eq id (Nat.le_trans hid h.size_le), h.find?_eq id hid]

theorem size_push (r : Registry) (s : Source) : Registry.size ⟨r.sources.push s⟩ = r.size + 1 :=
  Array.size_push ..

theorem extends_registerStep (r : Registry) (call : String × String) : r.Extends (r.registerStep call).2 := by
  rcases r.registerStep_cases call with ⟨hlt, hstep⟩ | ⟨-, hstep⟩
  · have hregister : r.register call.1 call.2 = .ok (⟨r.size + 1⟩, (r.registerStep call).2) := by
      rw [hstep]
      exact if_pos hlt
    obtain ⟨-, -, hold⟩ := find?_register hregister
    rw [hstep] at hold ⊢
    refine ⟨?_, hold⟩
    rw [size_push]
    exact Nat.le_succ _
  · rw [hstep]
    exact .refl r

theorem extends_registerAll (r : Registry) (calls : List (String × String)) :
    r.Extends (r.registerAll calls).2 := by
  induction calls generalizing r with
  | nil => exact .refl r
  | cons call calls ih => exact (r.extends_registerStep call).trans (ih _)

theorem getElem?_answers (r : Registry) {calls : List (String × String)} {i : Nat} (hi : i < calls.length) :
    (r.registerAll calls).1[i]? = some (answerAt (r.size + i)) := by
  induction calls generalizing r i with
  | nil => cases hi
  | cons call calls ih =>
    show ((r.registerStep call).1 :: ((r.registerStep call).2.registerAll calls).1)[i]? = _
    rcases r.registerStep_cases call with ⟨hlt, hstep⟩ | ⟨hfull, hstep⟩
    · cases i with
      | zero =>
        rw [hstep, List.getElem?_cons_zero]
        exact congrArg some (if_pos hlt).symm
      | succ i =>
        rw [hstep, List.getElem?_cons_succ, ih _ (Nat.lt_of_succ_lt_succ hi), size_push]
        congr 2
        omega
    · cases i with
      | zero =>
        rw [hstep, List.getElem?_cons_zero]
        exact congrArg some (if_neg (Nat.not_lt.2 hfull)).symm
      | succ i =>
        rw [hstep, List.getElem?_cons_succ, ih _ (Nat.lt_of_succ_lt_succ hi)]
        show some (answerAt (r.size + i)) = _
        unfold answerAt
        rw [if_neg (by omega), if_neg (by omega)]

/-- The source of a call is found from then on. -/
theorem find?_registerAll (r : Registry) {calls : List (String × String)} {i : Nat} {name text : String}
    (h : calls[i]? = some (name, text)) (hi : r.size + i < capacity) :
    (r.registerAll calls).2.find? ⟨r.size + i + 1⟩ = some (Source.ofText name text) := by
  induction calls generalizing r i with
  | nil => cases h
  | cons call calls ih =>
    show ((r.registerStep call).2.registerAll calls).2.find? _ = _
    rcases r.registerStep_cases call with ⟨hlt, hstep⟩ | ⟨hfull, -⟩
    · rw [hstep]
      cases i with
      | zero =>
        obtain rfl : call = (name, text) := Option.some.inj h
        have hextends := extends_registerAll ⟨r.sources.push (Source.ofText name text)⟩ calls
        rw [hextends.find?_eq ⟨r.size + 0 + 1⟩ (Nat.le_of_eq (size_push ..).symm)]
        exact (find?_register (if_pos hlt)).2.1
      | succ i =>
        have hrest := ih ⟨r.sources.push (Source.ofText call.1 call.2)⟩ h (by rw [size_push]; omega)
        rw [size_push] at hrest
        rw [← hrest]
        congr 2
        omega
    · omega

/-! ## Answers -/

structure SameAnswers (r r' : Registry) (id : SourceId) : Prop where
  contains : r.contains id = r'.contains id
  /-- With it the name, the text, the lines and the digest. -/
  find : r.find id = r'.find id
  nameOf : r.nameOf id = r'.nameOf id
  byteOf? : ∀ offset, r.byteOf? id offset = r'.byteOf? id offset
  positionAt? : ∀ byte, r.positionAt? id byte = r'.positionAt? id byte
  resolve : ∀ offset, r.resolve id offset = r'.resolve id offset
  spanOf : ∀ start stop, r.spanOf id start stop = r'.spanOf id start stop
  spanThrough : ∀ start last, r.spanThrough id start last = r'.spanThrough id start last
  readTokens : ∀ stream, r.readTokens id stream = r'.readTokens id stream
  read : r.read id = r'.read id

theorem sameAnswers_of_find? {r r' : Registry} {id : SourceId} (h : r.find? id = r'.find? id) :
    r.SameAnswers r' id := by
  have hfind : r.find id = r'.find id := by
    unfold find
    rw [h]
  have hbyte (offset : Nat) : r.byteOf? id offset = r'.byteOf? id offset := by
    unfold byteOf?
    rw [h]
  have hposition (byte : Nat) : r.positionAt? id byte = r'.positionAt? id byte := by
    unfold positionAt?
    rw [h]
  have hresolve (offset : Nat) : r.resolve id offset = r'.resolve id offset := by
    unfold resolve
    rw [hbyte]
    cases r'.byteOf? id offset with
    | none => rfl
    | some byte =>
      dsimp only
      rw [hposition]
  have hspan (start stop : Nat) : r.spanOf id start stop = r'.spanOf id start stop := by
    unfold spanOf
    rw [hresolve, hresolve]
  have htable (items : List PlacedItem) : r.spanTable id items = r'.spanTable id items := by
    unfold spanTable
    simp only [hspan]
  have htokens (stream : List Token) : r.readTokens id stream = r'.readTokens id stream := by
    unfold readTokens
    dsimp only
    rw [htable]
  have hfault : r.faultDiagnostic id = r'.faultDiagnostic id := by
    funext f
    unfold faultDiagnostic
    rw [hspan]
  refine ⟨?_, hfind, ?_, hbyte, hposition, hresolve, hspan, fun _ _ => hspan .., htokens, ?_⟩
  · unfold contains
    rw [h]
  · unfold nameOf
    rw [h]
  · unfold read
    rw [hfind, hfault]
    simp only [htokens]

/-! ## Isolation -/

/-- Of a text alone, one registry is made in which it has the first number. -/
theorem readText_eq {name text : String} {r : Registry} {id : SourceId} {source : Source}
    (h : r.find id = .ok source) (htext : source.text = text) :
    ∃ reading, readText name text = .ok (⟨#[Source.ofText name text]⟩, reading) ∧
      r.read id = .ok (reading.renumber ⟨1⟩ id) := by
  have hfind : Registry.find ⟨#[Source.ofText name text]⟩ ⟨1⟩ = .ok (Source.ofText name text) := rfl
  obtain ⟨reading, hread, hrenumbered⟩ := read_renumber hfind h htext.symm
  have hregister : empty.register name text = .ok (⟨1⟩, ⟨#[Source.ofText name text]⟩) :=
    if_pos (show 0 < capacity by decide)
  refine ⟨reading, ?_, hrenumbered⟩
  unfold readText
  rw [hregister]
  dsimp only
  rw [hread]

/-- **Isolated sources.** The calls are answered by the numbers from one on, until the registry is full. The number
of a call finds its text, and all that is asked of the number has one answer whatever other calls there are. What
is read from the number is what is read from the text alone, with the number replaced throughout. -/
theorem isolated_of_registerAll (calls : List (String × String)) (i : Nat) (name text : String)
    (h : calls[i]? = some (name, text)) :
    (empty.registerAll calls).1[i]? = some (if i < capacity then .ok ⟨i + 1⟩ else .error .full) ∧
      (i < capacity →
        (empty.registerAll calls).2.find ⟨i + 1⟩ = .ok (Source.ofText name text) ∧
        (∀ calls' : List (String × String), calls'[i]? = some (name, text) →
          (empty.registerAll calls).2.SameAnswers (empty.registerAll calls').2 ⟨i + 1⟩) ∧
        ∀ name' : String, ∃ alone reading, readText name' text = .ok (alone, reading) ∧
          (empty.registerAll calls).2.read ⟨i + 1⟩ = .ok (reading.renumber ⟨1⟩ ⟨i + 1⟩)) := by
  have hsize : empty.size + i = i := Nat.zero_add i
  have hfound {calls' : List (String × String)} (h' : calls'[i]? = some (name, text)) (hi : i < capacity) :
      (empty.registerAll calls').2.find? ⟨i + 1⟩ = some (Source.ofText name text) := by
    have hfind := empty.find?_registerAll h' (by rwa [hsize])
    rwa [hsize] at hfind
  constructor
  · have hlt : i < calls.length := (List.getElem?_eq_some_iff.1 h).1
    rw [empty.getElem?_answers hlt, hsize]
    rfl
  · intro hi
    have hfind : (empty.registerAll calls).2.find ⟨i + 1⟩ = .ok (Source.ofText name text) := by
      unfold find
      rw [hfound h hi]
    refine ⟨hfind, ?_, ?_⟩
    · intro calls' h'
      apply sameAnswers_of_find?
      rw [hfound h hi, hfound h' hi]
    · intro name'
      obtain ⟨reading, halone, hread⟩ := @readText_eq name' _ _ _ _ hfind rfl
      exact ⟨_, reading, halone, hread⟩

/-- The text has a fault, and a problem with a hint at a place of its own. -/
theorem isolated_of_registerAll_second :
    let text := "schema \"ü\\q\" type T \x7b"
    let calls := [("a", "schema \"A\""), ("b", text), ("c", "schema \"A\"")]
    let others := [("", "\n"), ("b", text)]
    calls[1]? = some ("b", text) ∧ 1 < capacity ∧ others[1]? = some ("b", text) ∧
      (empty.registerAll calls).1[1]? = some (.ok ⟨2⟩) ∧
        (empty.registerAll calls).2.SameAnswers (empty.registerAll others).2 ⟨2⟩ ∧
          ∃ alone reading, readText "" text = .ok (alone, reading) ∧
            (empty.registerAll calls).2.read ⟨2⟩ = .ok (reading.renumber ⟨1⟩ ⟨2⟩) := by
  intro text calls others
  have hcall : calls[1]? = some ("b", text) := rfl
  have hcapacity : 1 < capacity := by decide
  have hother : others[1]? = some ("b", text) := rfl
  obtain ⟨hanswer, hisolated⟩ := isolated_of_registerAll calls 1 "b" text hcall
  obtain ⟨-, hsame, halone⟩ := hisolated hcapacity
  rw [if_pos hcapacity] at hanswer
  exact ⟨hcall, hcapacity, hother, hanswer, hsame others hother, halone ""⟩

end Registry

end SchemaLang
