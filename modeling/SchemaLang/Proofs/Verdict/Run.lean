import SchemaLang.Proofs.Located.Reading
import SchemaLang.Proofs.Verdict.Arguments

/-!
# The verdict of a run

* `Faulty file text`: a text that has diagnostics when it is read.
* `Refused read ps`: what keeps a run on the pieces `ps` of its arguments from starting.
* `Loaded read r id file`: the source `id` is the text of the file.
* `Step.Prints x`: a step that only prints, whatever has been printed before.

A run registers all of its files before it prints anything. From then on nothing fails: each token has a
span, and each source is read. All diagnostics of a reading are errors, so the first is counted.

Main statement: a run that is refused prints nothing, any other tells by its exit code whether a file is
faulty, and where flags and caps stand and which numbers the caps have does not matter
(`verdict_of_run`).
-/

set_option autoImplicit false

namespace SchemaLang

/-! ## Texts with diagnostics -/

/-- A text that has diagnostics when it is read on its own. -/
def Faulty (file text : String) : Prop :=
  ∃ r reading, Registry.readText file text = .ok (r, reading) ∧ reading.diagnostics ≠ []

theorem Diagnostic.severity_ofCode (c : ErrorCode) (values : List String) (s : Span) :
    (ofCode c values s).severity = .error := by
  unfold ofCode
  split <;> rfl

theorem FaultCause.isError_diagnostic (c : FaultCause) (s : Span) : (c.diagnostic s).isError = true := by
  cases c <;> simp [FaultCause.diagnostic, Diagnostic.isError, Diagnostic.severity_ofCode]

theorem Problem.isError_diagnostic (p : Problem Span) : p.diagnostic.isError = true := by
  obtain ⟨c, place⟩ := p
  cases c <;>
    simp [Problem.diagnostic, Diagnostic.withHintAt, Diagnostic.withHelp, Diagnostic.withNote,
      Diagnostic.withHint, Diagnostic.addHint, Diagnostic.isError, Diagnostic.severity_ofCode,
      Diagnostic.bare]

namespace Registry

variable {r : Registry} {id : SourceId} {source : Source}

/-- A registered source is read; there are diagnostics exactly if something is wrong with the text, and
all of them are errors. -/
theorem exists_read (h : r.find id = .ok source) : ∃ reading, r.read id = .ok reading ∧
    (∀ d ∈ reading.diagnostics, d.isError = true) ∧
      (reading.diagnostics = [] ↔ FaultFree source.text) := by
  obtain ⟨table, reading, -, hread, hreports, hnil⟩ := exists_read_reports h
  refine ⟨reading, hread, fun d hd => ?_, hnil⟩
  cases hreports d hd with
  | fault => exact FaultCause.isError_diagnostic ..
  | problem => exact Problem.isError_diagnostic _

theorem exists_register (h : r.size < capacity) (name text : String) :
    ∃ id r', r.register name text = .ok (id, r') ∧ r'.size = r.size + 1 := by
  refine ⟨_, _, if_pos h, ?_⟩
  simp [size]

end Registry

theorem faulty_iff {file text : String} : Faulty file text ↔ ¬ FaultFree text := by
  obtain ⟨id, r, hr, -⟩ := Registry.exists_register (r := .empty) (by decide) file text
  have hfind : r.find id = .ok (Source.ofText file text) := by
    rw [Registry.find, (Registry.find?_register hr).2.1]
  obtain ⟨reading, hread, -, hiff⟩ := Registry.exists_read hfind
  have htext : Registry.readText file text = .ok (r, reading) := by
    simp only [Registry.readText, hr, hread]
  rw [show FaultFree text ↔ reading.diagnostics = [] from hiff.symm]
  constructor
  · rintro ⟨r', reading', h, hne⟩
    rw [htext] at h
    cases h
    exact hne
  · exact fun hne => ⟨r, reading, htext, hne⟩

/-! ## Files -/

/-- The source is the text of the file. -/
def Loaded (read : String → Except String String) (r : Registry) (id : SourceId) (file : String) :
    Prop :=
  ∃ text, read file = .ok text ∧ r.find? id = some (Source.ofText file text)

/-- A file cannot be read, or there are more files than numbers for them. -/
def Unloadable (read : String → Except String String) (size : Nat) (files : List String) : Prop :=
  (∃ file ∈ files, ∃ e, read file = .error e) ∨ Registry.capacity < size + files.length

/-- Files are all registered, or the run is refused. Nothing is printed before. -/
theorem loadFiles_cases (read : String → Except String String) {r : Registry}
    (hr : r.size ≤ Registry.capacity) (files : List String) (p : Printed) :
    (Unloadable read r.size files ∧
      ∃ err, loadFiles read r files p = (.error 2, ⟨p.stdout, err⟩)) ∨
    (¬ Unloadable read r.size files ∧
      ∃ r' ids, loadFiles read r files p = (.ok (r', ids), p) ∧
        (∀ old : SourceId, old.index ≤ r.size → r'.find? old = r.find? old) ∧
          List.Forall₂ (Loaded read r') ids files) := by
  induction files generalizing r with
  | nil =>
    refine .inr ⟨?_, r, [], rfl, fun _ _ => rfl, .nil⟩
    rintro (⟨file, hfile, -⟩ | hcap)
    · cases hfile
    · exact absurd hcap (Nat.not_lt.2 hr)
  | cons file files ih =>
    cases hread : read file with
    | error e =>
      have hrun : loadFiles read r (file :: files) p =
          Step.refuse s!"Error reading {file}: {e}" p := by
        rw [loadFiles, hread]
      exact .inl ⟨.inl ⟨file, List.mem_cons_self .., e, hread⟩, _, hrun⟩
    | ok text =>
      by_cases hlt : r.size < Registry.capacity
      · obtain ⟨id, r₁, hreg, hsize⟩ := Registry.exists_register hlt file text
        obtain ⟨hid, hfind, hold⟩ := Registry.find?_register hreg
        have hrun : loadFiles read r (file :: files) p =
            (loadFiles read r₁ files >>= fun x => pure (x.1, id :: x.2)) p := by
          rw [loadFiles, hread]
          dsimp only
          rw [hreg]
        have hunloadable : Unloadable read r₁.size files ↔ Unloadable read r.size (file :: files) := by
          have hlen : r₁.size + files.length = r.size + (file :: files).length := by
            rw [hsize, List.length_cons]
            omega
          rw [Unloadable, Unloadable, hlen]
          simp [hread]
        rcases ih (r := r₁) (by omega) with ⟨hno, err, hload⟩ | ⟨hyes, r', ids, hload, hkeep, hloaded⟩
        · exact .inl ⟨hunloadable.1 hno, err, hrun.trans (Step.bind_of_error hload)⟩
        · refine .inr ⟨fun h => hyes (hunloadable.2 h), r', id :: ids,
            hrun.trans (Step.bind_of_ok hload), fun old hle => ?_, .cons ⟨text, hread, ?_⟩ hloaded⟩
          · rw [hkeep old (by omega), hold old hle]
          · rw [hkeep id (by omega), hfind]
      · have hreg : r.register file text = .error .full := if_neg hlt
        have hrun : loadFiles read r (file :: files) p =
            Step.refuse s!"Error: {RegistryError.full.message}" p := by
          rw [loadFiles, hread]
          dsimp only
          rw [hreg]
        refine .inl ⟨.inr ?_, _, hrun⟩
        rw [List.length_cons]
        omega

/-! ## Steps that only print -/

namespace Step

/-- The step prints and goes on. -/
def Prints (x : Step Unit) : Prop :=
  ∀ p, ∃ text, x p = (.ok (), ⟨p.stdout ++ text, p.stderr⟩)

theorem prints_print (text : String) : (print text).Prints := fun _ => ⟨text, rfl⟩

theorem prints_pure : (pure () : Step Unit).Prints := fun p =>
  ⟨"", by rw [String.append_empty]; rfl⟩

theorem Prints.bind {x y : Step Unit} (hx : x.Prints) (hy : y.Prints) :
    (x >>= fun _ => y).Prints := by
  intro p
  obtain ⟨s, hs⟩ := hx p
  obtain ⟨t, ht⟩ := hy ⟨p.stdout ++ s, p.stderr⟩
  refine ⟨s ++ t, ?_⟩
  rw [bind_of_ok hs, ht, String.append_assoc]

theorem prints_each {α : Type} {f : α → Step Unit} {as : List α} (h : ∀ a ∈ as, (f a).Prints) :
    (each f as).Prints := by
  induction as with
  | nil => exact prints_pure
  | cons a as ih =>
    exact (h a (List.mem_cons_self ..)).bind (ih fun b hb => h b (List.mem_cons_of_mem a hb))

end Step

/-- Each token lies in its text. -/
theorem bounds_of_mem_tokenize {text : String} {t : Token} (ht : t ∈ (tokenize text).1) :
    t.start ≤ t.stop ∧ t.stop ≤ text.length := by
  obtain ⟨s, hs, rfl⟩ := List.mem_map.1 ht
  rcases (Lexer.reads_ofText text).token_cases s hs with ⟨-, hslice⟩ | hend
  · exact ⟨Nat.le_of_lt hslice.start_lt, hslice.stop_le⟩
  · rw [hend]
    exact ⟨Nat.le_refl _, Nat.le_refl _⟩

/-- Each token has a span, so a listing is printed to its end. -/
theorem prints_showTokens {r : Registry} {id : SourceId} {source : Source}
    (h : r.find? id = some source) : (showTokens r id).Prints := by
  have hfind : r.find id = .ok source := by rw [Registry.find, h]
  rw [showTokens, h]
  refine (Step.prints_print _).bind (Step.prints_each fun t ht => ?_)
  obtain ⟨hle, hstop⟩ := bounds_of_mem_tokenize (List.mem_filter.1 ht).1
  obtain ⟨span, hspan⟩ := Registry.exists_spanOf hfind hle hstop
  rw [hspan]
  exact Step.prints_print _

theorem exists_readAll {r : Registry} {ids : List SourceId}
    (h : ∀ id ∈ ids, ∃ source, r.find id = .ok source) (p : Printed) :
    ∃ readings, readAll r ids p = (.ok readings, p) ∧
      List.Forall₂ (fun id reading => r.read id = .ok reading) ids readings := by
  induction ids with
  | nil => exact ⟨[], rfl, .nil⟩
  | cons id ids ih =>
    obtain ⟨source, hsource⟩ := h id (List.mem_cons_self ..)
    obtain ⟨reading, hreading, -⟩ := Registry.exists_read hsource
    obtain ⟨readings, hrun, hall⟩ := ih fun id' hid' => h id' (List.mem_cons_of_mem id hid')
    refine ⟨reading :: readings, ?_, .cons hreading hall⟩
    rw [readAll, hreading]
    dsimp only
    rw [Step.bind_of_ok hrun]
    rfl

/-! ## The exit code -/

theorem counts_errors_pos_iff {ds : List Diagnostic} (h : ∀ d ∈ ds, d.isError = true) :
    0 < (Counts.of (distinct ds)).errors ↔ ds ≠ [] := by
  rw [Counts.of, List.length_pos_iff_exists_mem]
  constructor
  · rintro ⟨d, hd⟩
    exact List.ne_nil_of_mem (mem_distinct.1 (List.mem_filter.1 hd).1)
  · intro hne
    obtain ⟨d, hd⟩ := List.exists_mem_of_ne_nil ds hne
    exact ⟨d, List.mem_filter.2 ⟨mem_distinct.2 hd, h d hd⟩⟩

/-- Some file has a text with diagnostics. -/
def AnyFaulty (read : String → Except String String) (files : List String) : Prop :=
  ∃ file ∈ files, ∃ text, read file = .ok text ∧ Faulty file text

/-- The reading tells whether the file is faulty, and all that it reports are errors. -/
def Judges (read : String → Except String String) (reading : Reading) (file : String) : Prop :=
  (∀ d ∈ reading.diagnostics, d.isError = true) ∧
    (reading.diagnostics ≠ [] ↔ ∃ text, read file = .ok text ∧ Faulty file text)

theorem judges_of_read {read : String → Except String String} {r : Registry} {id : SourceId}
    {file : String} {reading : Reading} (h : Loaded read r id file) (hr : r.read id = .ok reading) :
    Judges read reading file := by
  obtain ⟨text, htext, hfind⟩ := h
  obtain ⟨reading', hreading, herrors, hiff⟩ :=
    Registry.exists_read (show r.find id = .ok (.ofText file text) by rw [Registry.find, hfind])
  obtain rfl : reading' = reading := by
    rw [hreading] at hr
    exact Except.ok.inj hr
  have hfree : reading'.diagnostics = [] ↔ FaultFree text := hiff
  exact ⟨herrors, by simp [htext, faulty_iff, hfree]⟩

theorem forall₂_judges {read : String → Except String String} {r : Registry} {ids : List SourceId}
    {files : List String} {readings : List Reading} (h : List.Forall₂ (Loaded read r) ids files)
    (hr : List.Forall₂ (fun id reading => r.read id = .ok reading) ids readings) :
    List.Forall₂ (Judges read) readings files := by
  induction h generalizing readings with
  | nil =>
    cases hr
    exact .nil
  | cons hload _ ih =>
    cases hr with
    | cons hread hrest => exact .cons (judges_of_read hload hread) (ih hrest)

theorem flatMap_diagnostics_ne_nil_iff {read : String → Except String String}
    {readings : List Reading} {files : List String}
    (h : List.Forall₂ (Judges read) readings files) :
    readings.flatMap (·.diagnostics) ≠ [] ↔ AnyFaulty read files := by
  induction h with
  | nil => simp [AnyFaulty]
  | cons hjudges _ ih =>
    rw [List.flatMap_cons, ne_eq, List.append_eq_nil_iff, not_and_or, ← ne_eq, ← ne_eq, hjudges.2, ih]
    simp [AnyFaulty]

theorem isError_of_mem_flatMap {read : String → Except String String} {readings : List Reading}
    {files : List String} (h : List.Forall₂ (Judges read) readings files) :
    ∀ d ∈ readings.flatMap (·.diagnostics), d.isError = true := by
  induction h with
  | nil => nofun
  | cons hjudges _ ih =>
    intro d hd
    rcases List.mem_append.1 (List.flatMap_cons ▸ hd) with hd | hd
    · exact hjudges.1 d hd
    · exact ih d hd

theorem conclude_eq (request : Request) (r : Registry) (readings : List Reading) (color : Bool)
    (p : Printed) : ∃ err, conclude request r readings color p =
      (.ok (if 0 < (Counts.of (distinct (readings.flatMap (·.diagnostics)))).errors then 1 else 0),
        ⟨p.stdout ++ resultText request r readings, err⟩) :=
  ⟨_, rfl⟩

/-- Once the files are loaded, nothing fails. -/
theorem checkFiles_cases (request : Request) (read : String → Except String String) (color : Bool)
    (p : Printed) :
    (Unloadable read 0 request.files ∧
      ∃ err, checkFiles request read color p = (.error 2, ⟨p.stdout, err⟩)) ∨
    (¬ Unloadable read 0 request.files ∧
      ∃ code q, checkFiles request read color p = (.ok code, q) ∧
        (code = 0 ∨ code = 1) ∧ (code = 1 ↔ AnyFaulty read request.files)) := by
  rcases loadFiles_cases read (r := .empty) (Nat.zero_le _) request.files p with
    ⟨hno, err, hload⟩ | ⟨hyes, r, ids, hload, -, hloaded⟩
  · exact .inl ⟨hno, err, Step.bind_of_error hload⟩
  refine .inr ⟨hyes, ?_⟩
  have hfind : ∀ id ∈ ids, ∃ source, r.find? id = some source := by
    intro id hid
    obtain ⟨i, hi, rfl⟩ := List.getElem_of_mem hid
    obtain ⟨text, -, hfind⟩ := hloaded.get hi (hloaded.length_eq ▸ hi)
    exact ⟨_, hfind⟩
  have hlist : (listTokens request r ids).Prints := by
    unfold listTokens
    split
    · refine Step.prints_each fun id hid => ?_
      obtain ⟨source, hsource⟩ := hfind id hid
      exact prints_showTokens hsource
    · exact Step.prints_pure
  obtain ⟨listing, hlisting⟩ := hlist p
  obtain ⟨readings, hreadings, hall⟩ := exists_readAll (fun id hid => by
    obtain ⟨source, hsource⟩ := hfind id hid
    exact ⟨source, by rw [Registry.find, hsource]⟩) ⟨p.stdout ++ listing, p.stderr⟩
  have hjudges := forall₂_judges hloaded hall
  obtain ⟨err, hconclude⟩ := conclude_eq request r readings color ⟨p.stdout ++ listing, p.stderr⟩
  refine ⟨_, _, (Step.bind_of_ok hload).trans ((Step.bind_of_ok hlisting).trans
    ((Step.bind_of_ok hreadings).trans hconclude)), ?_, ?_⟩
  · split
    · exact .inr rfl
    · exact .inl rfl
  · rw [← flatMap_diagnostics_ne_nil_iff hjudges,
      ← counts_errors_pos_iff (isError_of_mem_flatMap hjudges)]
    split <;> simp_all

/-! ## Other caps -/

namespace Step

variable {α β : Type}

/-- Two steps end alike and print the same on standard output. -/
def Alike (x y : Step α) : Prop := ∀ p, (x p).1 = (y p).1 ∧ (x p).2.stdout = (y p).2.stdout

theorem alike_bind (x : Step α) {f g : α → Step β} (h : ∀ a, (f a).Alike (g a)) :
    (x >>= f).Alike (x >>= g) := by
  intro p
  cases hx : x p with
  | mk result q =>
    cases result with
    | error code => rw [bind_of_error hx, bind_of_error hx]; exact ⟨rfl, rfl⟩
    | ok a => rw [bind_of_ok hx, bind_of_ok hx]; exact h a q

end Step

theorem alike_checkFiles (json tokens : Bool) (cap cap' : Nat) (files : List String)
    (read : String → Except String String) (color : Bool) :
    (checkFiles ⟨json, tokens, cap, files⟩ read color).Alike
      (checkFiles ⟨json, tokens, cap', files⟩ read color) :=
  Step.alike_bind _ fun _ => Step.alike_bind _ fun _ => Step.alike_bind _ fun _ _ => ⟨rfl, rfl⟩

/-! ## Runs -/

/-- What keeps a run from starting: a cap without a number, an unknown flag, no file, or files that cannot
be loaded. A cap without a value is a word that looks like a flag. -/
def Refused (read : String → Except String String) (ps : List Piece) : Prop :=
  (∃ v ∈ Piece.caps ps, Invocation.readCap? v = none) ∨
    (∃ w ∈ Piece.words ps, Invocation.isFlag w = true) ∨ Piece.words ps = [] ∨
      Unloadable read 0 (Piece.words ps)

theorem refused_iff {read : String → Except String String} {ps : List Piece} :
    Refused read ps ↔ ¬ Usable ps ∨ Unloadable read 0 (Piece.words ps) := by
  have husable : Usable ps ↔ (∀ v ∈ Piece.caps ps, Invocation.readCap? v ≠ none) ∧
      (∀ w ∈ Piece.words ps, Invocation.isFlag w ≠ true) ∧ Piece.words ps ≠ [] := by
    constructor
    · intro h
      exact ⟨fun v hv => Option.isSome_iff_ne_none.1 (h.caps v hv),
        fun w hw => by simp [h.flags w hw], h.words⟩
    · rintro ⟨hcaps, hflags, hwords⟩
      exact ⟨fun v hv => Option.isSome_iff_ne_none.2 (hcaps v hv),
        fun w hw => by simpa using hflags w hw, hwords⟩
  rw [husable, Refused, not_and_or, not_and_or]
  simp only [ne_eq, not_forall, not_not, exists_prop, or_assoc]

section

variable {args args' : List String} {read : String → Except String String} {color : Bool}

theorem runCommand_of_error (read : String → Except String String) (color : Bool) {e : UsageError}
    (h : Invocation.ofArgs args = .error e) :
    (runCommand args read color).exitCode = 2 ∧ (runCommand args read color).stdout = "" := by
  rw [stdout_of_refused h]
  exact ⟨rfl, rfl⟩

theorem runCommand_nil : (runCommand [] read color).exitCode = 0 := rfl

/-- A run on usable arguments is refused before it prints, or ends with the verdict on its files. -/
theorem runCommand_of_check (read : String → Except String String) (color : Bool) {request : Request}
    (h : Invocation.ofArgs args = .ok (.check request)) :
    (Unloadable read 0 request.files ∧ (runCommand args read color).exitCode = 2 ∧
      (runCommand args read color).stdout = "") ∨
    (¬ Unloadable read 0 request.files ∧
      ((runCommand args read color).exitCode = 0 ∨ (runCommand args read color).exitCode = 1) ∧
        ((runCommand args read color).exitCode = 1 ↔ AnyFaulty read request.files)) := by
  have hrun : command args read color = checkFiles request read color := by rw [command, h]
  rcases checkFiles_cases request read color ⟨"", ""⟩ with
    ⟨hno, err, hcheck⟩ | ⟨hyes, code, q, hcheck, hcode, hiff⟩
  · left
    rw [runCommand, hrun, hcheck]
    exact ⟨hno, rfl, rfl⟩
  · right
    rw [runCommand, hrun, hcheck]
    exact ⟨hyes, hcode, hiff⟩

theorem AskAlike.run_eq (h : AskAlike args args') (hhelp : NoHelp args) :
    (runCommand args' read color).exitCode = (runCommand args read color).exitCode ∧
      (runCommand args' read color).stdout = (runCommand args read color).stdout := by
  rcases h.ofArgs_cases hhelp with
    ⟨rfl, rfl⟩ | ⟨e, e', he, he'⟩ | ⟨json, tokens, cap, cap', files, hcheck, hcheck'⟩
  · exact ⟨rfl, rfl⟩
  · obtain ⟨hcode, hout⟩ := runCommand_of_error read color he
    obtain ⟨hcode', hout'⟩ := runCommand_of_error read color he'
    rw [hcode, hcode', hout, hout']
    exact ⟨rfl, rfl⟩
  · obtain ⟨hvalue, hout⟩ := alike_checkFiles json tokens cap' cap files read color ⟨"", ""⟩
    rw [runCommand, runCommand, command, command, hcheck, hcheck']
    dsimp only
    revert hvalue hout
    cases checkFiles ⟨json, tokens, cap', files⟩ read color ⟨"", ""⟩ with
    | mk value' q' =>
      cases checkFiles ⟨json, tokens, cap, files⟩ read color ⟨"", ""⟩ with
      | mk value q =>
        rintro rfl hout
        cases value' <;> exact ⟨rfl, hout⟩

end

/-- **The verdict.** Words and caps spell any arguments. A run without a flag for help is refused exactly
if a cap has no number, a flag is unknown, no file is named or one cannot be loaded; then it prints nothing.
Any other run ends with 1 if one of its files has a diagnostic and with 0 if none has. Neither the exit code
nor what is printed on standard output depends on where flags and caps stand and on the numbers of the
caps. -/
theorem verdict_of_run (args : List String) (read : String → Except String String) (color : Bool)
    (hhelp : NoHelp args) :
    (∃ ps, Spells ps args) ∧ ∀ ps, Spells ps args →
      ((runCommand args read color).exitCode = 2 → (runCommand args read color).stdout = "") ∧
      (args ≠ [] → ((runCommand args read color).exitCode = 2 ↔ Refused read ps)) ∧
      ((runCommand args read color).exitCode ≠ 2 →
        ((runCommand args read color).exitCode = 1 ↔
          ∃ file ∈ Piece.words ps, ∃ text, read file = .ok text ∧ Faulty file text) ∧
        ((runCommand args read color).exitCode = 0 ↔
          ¬ ∃ file ∈ Piece.words ps, ∃ text, read file = .ok text ∧ Faulty file text)) ∧
      ∀ args', Moved args args' ∨ Recapped args args' →
        (runCommand args' read color).exitCode = (runCommand args read color).exitCode ∧
          (runCommand args' read color).stdout = (runCommand args read color).stdout := by
  refine ⟨exists_spells args, fun ps hs => ?_⟩
  have hmoved : ∀ args', Moved args args' ∨ Recapped args args' →
      (runCommand args' read color).exitCode = (runCommand args read color).exitCode ∧
        (runCommand args' read color).stdout = (runCommand args read color).stdout := by
    rintro args' (h | h)
    · exact h.askAlike.run_eq hhelp
    · exact h.askAlike.run_eq hhelp
  by_cases hne : args = []
  · subst hne
    obtain ⟨-, -, hwords, -⟩ := hs.eq_nil_iff.1 rfl
    have hcode : (runCommand [] read color).exitCode = 0 := runCommand_nil
    refine ⟨fun h => ?_, fun h => absurd rfl h, fun _ => ⟨?_, ?_⟩, hmoved⟩
    · rw [hcode] at h
      cases h
    · simp [hcode, hwords]
    · simp [hcode, hwords]
  by_cases hu : Usable ps
  · obtain ⟨cap, hcheck⟩ := Invocation.exists_ofArgs_eq_check hs hhelp hu
    rcases runCommand_of_check read color hcheck with
      ⟨hno, hcode, hout⟩ | ⟨hyes, hcode, hiff⟩
    · refine ⟨fun _ => hout, fun _ => ?_, fun h => absurd hcode h, hmoved⟩
      exact ⟨fun _ => refused_iff.2 (.inr hno), fun _ => hcode⟩
    · have hiff' : (runCommand args read color).exitCode = 1 ↔
          ∃ file ∈ Piece.words ps, ∃ text, read file = .ok text ∧ Faulty file text := hiff
      refine ⟨fun h => ?_, fun _ => ⟨fun h => ?_, fun h => ?_⟩, fun _ => ⟨hiff', ?_⟩, hmoved⟩
      · omega
      · omega
      · rcases refused_iff.1 h with h | h
        · exact absurd hu h
        · exact absurd h hyes
      · rw [← hiff']
        omega
  · obtain ⟨e, he⟩ := Invocation.exists_ofArgs_eq_error hs hne hhelp hu
    obtain ⟨hcode, hout⟩ := runCommand_of_error read color he
    refine ⟨fun _ => hout, fun _ => ?_, fun h => absurd hcode h, hmoved⟩
    exact ⟨fun _ => refused_iff.2 (.inl hu), fun _ => hcode⟩

/-- An empty file has no header. The run on it ends with 1, and so does the one with its cap at the end. -/
theorem verdict_of_run_emptyFile :
    let read : String → Except String String := fun file =>
      if file = "f" then .ok "" else .error "not found"
    let args := ["--max-errors", "1", "f"]
    Spells [.cap "1", .word "f"] args ∧ NoHelp args ∧ Moved args ["f", "--max-errors", "1"] ∧
      (runCommand args read false).exitCode = 1 ∧
        (runCommand ["f", "--max-errors", "1"] read false).exitCode = 1 := by
  intro read args
  have hs : Spells [.cap "1", .word "f"] args := ⟨by decide +kernel, nofun⟩
  have hs' : Spells [.word "f", .cap "1"] ["f", "--max-errors", "1"] := ⟨by decide +kernel, nofun⟩
  have hhelp : NoHelp args := by
    unfold NoHelp
    decide +kernel
  have hmoved : Moved args ["f", "--max-errors", "1"] :=
    ⟨by decide, by decide, _, _, hs, hs', rfl, .refl _, rfl⟩
  obtain ⟨-, hrefused, hcode, hsame⟩ :=
    (verdict_of_run args read false hhelp).2 [.cap "1", .word "f"] hs
  have hfree : ¬ FaultFree "" := fun h => by
    have hproblems : ((readUnit (itemsOf (tokenize "").1)).2.isEmpty) = false := by decide +kernel
    rw [h.2] at hproblems
    cases hproblems
  have hstarts : ¬ Refused read [.cap "1", .word "f"] := by
    rintro (⟨v, hv, hnone⟩ | ⟨w, hw, hflag⟩ | hnil | ⟨w, hw, e, he⟩ | hcap)
    · obtain rfl := List.mem_singleton.1 hv
      revert hnone
      decide +kernel
    · obtain rfl := List.mem_singleton.1 hw
      revert hflag
      decide +kernel
    · cases hnil
    · obtain rfl := List.mem_singleton.1 hw
      cases he
    · revert hcap
      decide +kernel
  have hone : (runCommand args read false).exitCode = 1 :=
    (hcode fun h => hstarts ((hrefused nofun).1 h)).1.2
      ⟨"f", List.mem_singleton.2 rfl, "", rfl, faulty_iff.2 hfree⟩
  exact ⟨hs, hhelp, hmoved, hone, (hsame _ (.inl hmoved)).1.trans hone⟩

end SchemaLang
