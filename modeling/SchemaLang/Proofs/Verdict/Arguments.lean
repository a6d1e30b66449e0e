import Mathlib.Data.List.Forall2
import SchemaLang.Command

/-!
# What arguments ask for

Beside the flags, a list of arguments has words, which name files, and caps of errors with their values.

* `Piece`: a word, or a cap with its value; `Piece.words` and `Piece.caps` are those of a list.
* `Spells ps args`: apart from the flags, the arguments are the pieces `ps`.
* `Usable ps`: nothing keeps a run on these pieces from starting.
* `Moved args args'`, `Recapped args args'`: the same arguments in other places, and other caps.
* `AskAlike args args'`: what both of these have in common.

Every list of arguments is spelled by some pieces (`exists_spells`). A cap without a value can only be the
last word.

Main statements: arguments are understood exactly if their pieces are usable
(`Invocation.exists_ofArgs_eq_check`, `Invocation.exists_ofArgs_eq_error`), and arguments that ask alike
are usable alike (`AskAlike.usable_iff`).
-/

set_option autoImplicit false

namespace SchemaLang

inductive Piece where
  | word (arg : String)
  | cap (value : String)

namespace Piece

def args : Piece → List String
  | word arg => [arg]
  | cap value => ["--max-errors", value]

def word? : Piece → Option String
  | word arg => some arg
  | cap _ => none

def cap? : Piece → Option String
  | word _ => none
  | cap value => some value

def words (ps : List Piece) : List String := ps.filterMap word?

def caps (ps : List Piece) : List String := ps.filterMap cap?

@[simp] theorem words_nil : words [] = [] := rfl

@[simp] theorem words_word (arg : String) (ps : List Piece) :
    words (word arg :: ps) = arg :: words ps := rfl

@[simp] theorem words_cap (value : String) (ps : List Piece) : words (cap value :: ps) = words ps := rfl

@[simp] theorem caps_nil : caps [] = [] := rfl

@[simp] theorem caps_word (arg : String) (ps : List Piece) : caps (word arg :: ps) = caps ps := rfl

@[simp] theorem caps_cap (value : String) (ps : List Piece) :
    caps (cap value :: ps) = value :: caps ps := rfl

/-- An argument is a word, a cap or the value of one. -/
theorem mem_flatMap_args {a : String} {ps : List Piece} :
    a ∈ ps.flatMap args ↔ a ∈ words ps ∨ a ∈ caps ps ∨ (a = "--max-errors" ∧ caps ps ≠ []) := by
  induction ps with
  | nil => simp
  | cons p ps ih =>
    cases p with
    | word arg => simp only [List.flatMap_cons, args, List.mem_append, ih, words_word, caps_word]; simp; tauto
    | cap value => simp only [List.flatMap_cons, args, List.mem_append, ih, words_cap, caps_cap]; simp; tauto

end Piece

def isPlain (arg : String) : Bool := arg ≠ "--json" && arg ≠ "--tokens"

/-- A cap that has no value is the last word. -/
structure Spells (ps : List Piece) (args : List String) : Prop where
  plain_eq : args.filter isPlain = ps.flatMap Piece.args
  lone : ∀ w ∈ (Piece.words ps).dropLast, w ≠ "--max-errors"

structure Usable (ps : List Piece) : Prop where
  caps : ∀ v ∈ Piece.caps ps, (Invocation.readCap? v).isSome
  flags : ∀ w ∈ Piece.words ps, Invocation.isFlag w = false
  words : Piece.words ps ≠ []

/-- No argument asks for help. -/
def NoHelp (args : List String) : Prop := ∀ a ∈ args, a ≠ "-h" ∧ a ≠ "--help"

/-- `args'` has the arguments of `args`: the flags and the caps may stand elsewhere, but the last cap is
still the last one. -/
structure Moved (args args' : List String) : Prop where
  json : "--json" ∈ args' ↔ "--json" ∈ args
  tokens : "--tokens" ∈ args' ↔ "--tokens" ∈ args
  pieces : ∃ ps ps', Spells ps args ∧ Spells ps' args' ∧ Piece.words ps' = Piece.words ps ∧
    (Piece.caps ps').Perm (Piece.caps ps) ∧ (Piece.caps ps').getLast? = (Piece.caps ps).getLast?

/-- `args'` has other numbers as the values of caps of `args`. -/
structure Recapped (args args' : List String) : Prop where
  json : "--json" ∈ args' ↔ "--json" ∈ args
  tokens : "--tokens" ∈ args' ↔ "--tokens" ∈ args
  pieces : ∃ ps ps', Spells ps args ∧ Spells ps' args' ∧ Piece.words ps' = Piece.words ps ∧
    List.Forall₂ (fun v v' => v' = v ∨
      ((Invocation.readCap? v).isSome ∧ (Invocation.readCap? v').isSome))
      (Piece.caps ps) (Piece.caps ps')

/-- The same flags and words, and all caps have numbers in both lists or in none. -/
structure AskAlike (args args' : List String) : Prop where
  json : "--json" ∈ args' ↔ "--json" ∈ args
  tokens : "--tokens" ∈ args' ↔ "--tokens" ∈ args
  help : NoHelp args → NoHelp args'
  pieces : ∃ ps ps', Spells ps args ∧ Spells ps' args' ∧ Piece.words ps' = Piece.words ps ∧
    (Piece.caps ps' = [] ↔ Piece.caps ps = []) ∧
    ((∀ v ∈ Piece.caps ps', (Invocation.readCap? v).isSome) ↔
      ∀ v ∈ Piece.caps ps, (Invocation.readCap? v).isSome)

/-! ## Pieces of an argument list -/

theorem mem_dropLast_cons {α : Type} {a b : α} {l : List α} :
    b ∈ (a :: l).dropLast ↔ l ≠ [] ∧ (b = a ∨ b ∈ l.dropLast) := by
  cases l <;> simp

theorem exists_pieces : (as : List String) → ∃ ps, as = ps.flatMap Piece.args ∧
    ∀ w ∈ (Piece.words ps).dropLast, w ≠ "--max-errors"
  | [] => ⟨[], rfl, nofun⟩
  | [arg] => ⟨[.word arg], rfl, nofun⟩
  | arg :: value :: rest => by
    by_cases harg : arg = "--max-errors"
    · obtain ⟨ps, rfl, hlone⟩ := exists_pieces rest
      exact ⟨.cap value :: ps, by rw [harg]; rfl, hlone⟩
    · obtain ⟨ps, hps, hlone⟩ := exists_pieces (value :: rest)
      refine ⟨.word arg :: ps, by rw [hps]; rfl, fun w hw => ?_⟩
      rcases (mem_dropLast_cons.1 hw).2 with rfl | hw
      · exact harg
      · exact hlone w hw

theorem exists_spells (args : List String) : ∃ ps, Spells ps args := by
  obtain ⟨ps, hps, hlone⟩ := exists_pieces (args.filter isPlain)
  exact ⟨ps, hps, hlone⟩

/-! ## Caps -/

namespace Invocation

theorem takeCaps_cons_of_ne {arg : String} (h : arg ≠ "--max-errors") (cap : Nat)
    (rest : List String) :
    takeCaps cap (arg :: rest) = (takeCaps cap rest).map fun r => (r.1, arg :: r.2) := by
  cases rest with
  | nil => simp [takeCaps, h, Except.map]
  | cons value rest =>
    rw [takeCaps, if_neg h]
    cases takeCaps cap (value :: rest) <;> rfl

theorem takeCaps_cap (cap : Nat) (value : String) (rest : List String) :
    takeCaps cap ("--max-errors" :: value :: rest) =
      match readCap? value with
      | some n => takeCaps n rest
      | none => .error .malformedCap := by
  rw [takeCaps]
  exact if_pos rfl

theorem readCap?_maxErrors : readCap? "--max-errors" = none := by decide +kernel

/-- With numbers for all caps, the words are left. -/
theorem exists_takeCaps {ps : List Piece} (hcaps : ∀ v ∈ Piece.caps ps, (readCap? v).isSome)
    (hwords : ∀ w ∈ Piece.words ps, w ≠ "--max-errors") (cap : Nat) :
    ∃ n, takeCaps cap (ps.flatMap Piece.args) = .ok (n, Piece.words ps) := by
  induction ps generalizing cap with
  | nil => exact ⟨cap, rfl⟩
  | cons p ps ih =>
    cases p with
    | word arg =>
      obtain ⟨n, hn⟩ := ih hcaps (fun w hw => hwords w (List.mem_cons_of_mem arg hw)) cap
      refine ⟨n, ?_⟩
      show takeCaps cap (arg :: ps.flatMap Piece.args) = _
      rw [takeCaps_cons_of_ne (hwords arg (List.mem_cons_self ..)), hn]
      rfl
    | cap value =>
      obtain ⟨m, hm⟩ := Option.isSome_iff_exists.1 (hcaps value (List.mem_cons_self ..))
      obtain ⟨n, hn⟩ := ih (fun v hv => hcaps v (List.mem_cons_of_mem value hv)) hwords m
      refine ⟨n, ?_⟩
      show takeCaps cap ("--max-errors" :: value :: ps.flatMap Piece.args) = _
      rw [takeCaps_cap, hm]
      exact hn

/-- A cap that has no number ends it, and so does a cap that has no value. -/
theorem exists_takeCaps_eq_error {ps : List Piece}
    (hlone : ∀ w ∈ (Piece.words ps).dropLast, w ≠ "--max-errors")
    (h : (∃ v ∈ Piece.caps ps, readCap? v = none) ∨ "--max-errors" ∈ Piece.words ps) (cap : Nat) :
    ∃ e, takeCaps cap (ps.flatMap Piece.args) = .error e := by
  induction ps generalizing cap with
  | nil => simp at h
  | cons p ps ih =>
    cases p with
    | cap value =>
      show ∃ e, takeCaps cap ("--max-errors" :: value :: ps.flatMap Piece.args) = .error e
      rw [takeCaps_cap]
      cases hvalue : readCap? value with
      | none => exact ⟨_, rfl⟩
      | some n =>
        refine ih hlone (h.imp ?_ id) n
        rintro ⟨v, hv, hnone⟩
        rcases List.mem_cons.1 hv with rfl | hv
        · rw [hvalue] at hnone
          cases hnone
        · exact ⟨v, hv, hnone⟩
    | word arg =>
      show ∃ e, takeCaps cap (arg :: ps.flatMap Piece.args) = .error e
      by_cases harg : arg = "--max-errors"
      · subst harg
        -- behind a cap without a value there is nothing, or another cap
        have hnil : Piece.words ps = [] := by
          by_contra hne
          exact hlone "--max-errors" (mem_dropLast_cons.2 ⟨hne, .inl rfl⟩) rfl
        cases ps with
        | nil => exact ⟨.missingCap, by simp [takeCaps]⟩
        | cons q qs =>
          cases q with
          | word other => cases hnil
          | cap value =>
            show ∃ e, takeCaps cap ("--max-errors" :: "--max-errors" :: _) = .error e
            rw [takeCaps_cap, readCap?_maxErrors]
            exact ⟨_, rfl⟩
      · rw [takeCaps_cons_of_ne harg]
        have hlone' : ∀ w ∈ (Piece.words ps).dropLast, w ≠ "--max-errors" := by
          intro w hw
          have hne : Piece.words ps ≠ [] := by
            intro hnil
            rw [hnil] at hw
            cases hw
          exact hlone w (mem_dropLast_cons.2 ⟨hne, .inr hw⟩)
        have h' : (∃ v ∈ Piece.caps ps, readCap? v = none) ∨ "--max-errors" ∈ Piece.words ps := by
          refine h.imp id fun hm => ?_
          rcases List.mem_cons.1 hm with hm | hm
          · exact absurd hm.symm harg
          · exact hm
        obtain ⟨e, he⟩ := ih hlone' h' cap
        exact ⟨e, by rw [he]; rfl⟩

/-! ## Requests -/

theorem ofArgs_of_noHelp {args : List String} (hne : args ≠ []) (hhelp : NoHelp args) :
    ofArgs args =
      match takeCaps defaultErrorCap (args.filter isPlain) with
      | .error e => .error e
      | .ok (cap, files) =>
        match files.find? isFlag with
        | some flag => .error (.unknownFlag flag)
        | none =>
          if files.isEmpty then .error .noFiles
          else .ok (.check ⟨args.contains "--json", args.contains "--tokens", cap, files⟩) := by
  have hany : (args.any fun a => a = "-h" || a = "--help") = false := by
    rw [List.any_eq_false]
    intro a ha
    simp [hhelp a ha]
  have hempty : args.isEmpty = false := by simpa using hne
  rw [ofArgs, hany, hempty]
  rfl

theorem isFlag_maxErrors : isFlag "--max-errors" = true := by decide +kernel

/-- Usable pieces are a request for the files that the words name. -/
theorem exists_ofArgs_eq_check {args : List String} {ps : List Piece} (hs : Spells ps args)
    (hhelp : NoHelp args) (hu : Usable ps) : ∃ cap, ofArgs args =
      .ok (.check ⟨args.contains "--json", args.contains "--tokens", cap, Piece.words ps⟩) := by
  have hne : args ≠ [] := by
    rintro rfl
    obtain ⟨w, hw⟩ := List.exists_mem_of_ne_nil _ hu.words
    have hw' : w ∈ ps.flatMap Piece.args := Piece.mem_flatMap_args.2 (.inl hw)
    rw [← hs.plain_eq] at hw'
    cases hw'
  have hwords : ∀ w ∈ Piece.words ps, w ≠ "--max-errors" := by
    rintro w hw rfl
    have hflag := hu.flags _ hw
    rw [isFlag_maxErrors] at hflag
    cases hflag
  obtain ⟨cap, hcap⟩ := exists_takeCaps hu.caps hwords defaultErrorCap
  have hfind : (Piece.words ps).find? isFlag = none :=
    List.find?_eq_none.2 fun w hw => by simp [hu.flags w hw]
  have hempty : (Piece.words ps).isEmpty = false := by simpa using hu.words
  refine ⟨cap, ?_⟩
  rw [ofArgs_of_noHelp hne hhelp, hs.plain_eq, hcap]
  simp only [hfind, hempty]
  rfl

/-- Other arguments are refused. -/
theorem exists_ofArgs_eq_error {args : List String} {ps : List Piece} (hs : Spells ps args)
    (hne : args ≠ []) (hhelp : NoHelp args) (hu : ¬ Usable ps) : ∃ e, ofArgs args = .error e := by
  rw [ofArgs_of_noHelp hne hhelp, hs.plain_eq]
  by_cases hbad : (∃ v ∈ Piece.caps ps, readCap? v = none) ∨ "--max-errors" ∈ Piece.words ps
  · obtain ⟨e, he⟩ := exists_takeCaps_eq_error hs.lone hbad defaultErrorCap
    exact ⟨e, by rw [he]⟩
  have hcaps : ∀ v ∈ Piece.caps ps, (readCap? v).isSome := by
    intro v hv
    rw [Option.isSome_iff_ne_none]
    exact fun hnone => hbad (.inl ⟨v, hv, hnone⟩)
  have hwords : ∀ w ∈ Piece.words ps, w ≠ "--max-errors" := by
    rintro w hw rfl
    exact hbad (.inr hw)
  obtain ⟨cap, hcap⟩ := exists_takeCaps hcaps hwords defaultErrorCap
  rw [hcap]
  dsimp only
  cases hfind : (Piece.words ps).find? isFlag with
  | some flag => exact ⟨_, rfl⟩
  | none =>
    by_cases hempty : (Piece.words ps).isEmpty = true
    · exact ⟨.noFiles, by rw [if_pos hempty]⟩
    · refine absurd ⟨hcaps, fun w hw => ?_, by simpa using hempty⟩ hu
      simpa using List.find?_eq_none.1 hfind w hw

end Invocation

/-! ## Arguments that ask alike -/

/-- An empty list has no flags, no words and no caps. -/
theorem Spells.eq_nil_iff {ps : List Piece} {args : List String} (h : Spells ps args) :
    args = [] ↔
      "--json" ∉ args ∧ "--tokens" ∉ args ∧ Piece.words ps = [] ∧ Piece.caps ps = [] := by
  constructor
  · rintro rfl
    have hps := h.plain_eq
    cases ps with
    | nil => exact ⟨nofun, nofun, rfl, rfl⟩
    | cons p ps => cases p <;> simp [Piece.args] at hps
  · rintro ⟨hjson, htokens, hwords, hcaps⟩
    refine List.eq_nil_iff_forall_not_mem.2 fun a ha => ?_
    have hplain : isPlain a = true := by
      have hj : a ≠ "--json" := fun he => hjson (he ▸ ha)
      have ht : a ≠ "--tokens" := fun he => htokens (he ▸ ha)
      simp [isPlain, hj, ht]
    have hmem : a ∈ ps.flatMap Piece.args := by
      rw [← h.plain_eq]
      exact List.mem_filter.2 ⟨ha, hplain⟩
    rcases Piece.mem_flatMap_args.1 hmem with hw | hc | ⟨-, hne⟩
    · rw [hwords] at hw
      cases hw
    · rw [hcaps] at hc
      cases hc
    · exact hne hcaps

/-- A list of arguments asks for help where one of its pieces does. -/
theorem Spells.noHelp_iff {ps : List Piece} {args : List String} (h : Spells ps args) :
    NoHelp args ↔ NoHelp (Piece.words ps) ∧ NoHelp (Piece.caps ps) := by
  have mem_iff {a : String} (ha : isPlain a = true) : a ∈ args ↔ a ∈ ps.flatMap Piece.args := by
    rw [← h.plain_eq, List.mem_filter]
    simp [ha]
  constructor
  · intro hhelp
    refine ⟨fun a ha => ?_, fun a ha => ?_⟩
    · have hmem : a ∈ args.filter isPlain := by
        rw [h.plain_eq]
        exact Piece.mem_flatMap_args.2 (.inl ha)
      exact hhelp a (List.mem_filter.1 hmem).1
    · have hmem : a ∈ args.filter isPlain := by
        rw [h.plain_eq]
        exact Piece.mem_flatMap_args.2 (.inr (.inl ha))
      exact hhelp a (List.mem_filter.1 hmem).1
  · rintro ⟨hwords, hcaps⟩ a ha
    have key (hplain : isPlain a = true) (hne : a ≠ "--max-errors") : a ≠ "-h" ∧ a ≠ "--help" := by
      rcases Piece.mem_flatMap_args.1 ((mem_iff hplain).1 ha) with hw | hc | ⟨hmax, -⟩
      · exact hwords a hw
      · exact hcaps a hc
      · exact absurd hmax hne
    constructor
    · rintro rfl
      exact (key (by decide) (by decide)).1 rfl
    · rintro rfl
      exact (key (by decide) (by decide)).2 rfl

theorem Moved.askAlike {args args' : List String} (h : Moved args args') : AskAlike args args' := by
  obtain ⟨ps, ps', hs, hs', hwords, hperm, -⟩ := h.pieces
  refine ⟨h.json, h.tokens, fun hhelp => ?_, ps, ps', hs, hs', hwords, ?_, ?_⟩
  · obtain ⟨hw, hc⟩ := hs.noHelp_iff.1 hhelp
    exact hs'.noHelp_iff.2 ⟨hwords ▸ hw, fun v hv => hc v (hperm.mem_iff.1 hv)⟩
  · constructor <;> intro hnil
    · rw [hnil] at hperm
      exact hperm.nil_eq.symm
    · rw [hnil] at hperm
      exact hperm.eq_nil
  · exact ⟨fun hv v hmem => hv v (hperm.mem_iff.2 hmem), fun hv v hmem => hv v (hperm.mem_iff.1 hmem)⟩

theorem Recapped.askAlike {args args' : List String} (h : Recapped args args') :
    AskAlike args args' := by
  obtain ⟨ps, ps', hs, hs', hwords, hcaps⟩ := h.pieces
  have hvalid {v : String} (hv : (Invocation.readCap? v).isSome) : v ≠ "-h" ∧ v ≠ "--help" := by
    constructor <;> rintro rfl <;> revert hv <;> decide +kernel
  refine ⟨h.json, h.tokens, fun hhelp => ?_, ps, ps', hs, hs', hwords, ?_, ?_⟩
  · obtain ⟨hw, hc⟩ := hs.noHelp_iff.1 hhelp
    refine hs'.noHelp_iff.2 ⟨hwords ▸ hw, fun v hv => ?_⟩
    obtain ⟨i, hi, rfl⟩ := List.getElem_of_mem hv
    rcases hcaps.get (hcaps.length_eq ▸ hi) hi with heq | ⟨-, hsome⟩
    · simp only [List.get_eq_getElem] at heq
      rw [heq]
      exact hc _ (List.getElem_mem _)
    · exact hvalid hsome
  · constructor <;> intro hnil
    · rw [hnil] at hcaps
      exact List.forall₂_nil_right_iff.1 hcaps
    · rw [hnil] at hcaps
      exact List.forall₂_nil_left_iff.1 hcaps
  · constructor <;> intro hv v hmem
    · obtain ⟨i, hi, rfl⟩ := List.getElem_of_mem hmem
      rcases hcaps.get hi (hcaps.length_eq ▸ hi) with heq | ⟨hsome, -⟩
      · simp only [List.get_eq_getElem] at heq
        rw [← heq]
        exact hv _ (List.getElem_mem _)
      · exact hsome
    · obtain ⟨i, hi, rfl⟩ := List.getElem_of_mem hmem
      rcases hcaps.get (hcaps.length_eq ▸ hi) hi with heq | ⟨-, hsome⟩
      · simp only [List.get_eq_getElem] at heq
        rw [heq]
        exact hv _ (List.getElem_mem _)
      · exact hsome

namespace AskAlike

variable {args args' : List String}

theorem eq_nil_iff (h : AskAlike args args') : args' = [] ↔ args = [] := by
  obtain ⟨ps, ps', hs, hs', hwords, hcaps, -⟩ := h.pieces
  rw [hs'.eq_nil_iff, hs.eq_nil_iff, h.json, h.tokens, hwords, hcaps]

/-- Arguments that ask alike are refused alike, and are requests for the same but for the cap. -/
theorem ofArgs_cases (h : AskAlike args args') (hhelp : NoHelp args) :
    (args = [] ∧ args' = []) ∨
      (∃ e e', Invocation.ofArgs args = .error e ∧ Invocation.ofArgs args' = .error e') ∨
        ∃ json tokens cap cap' files,
          Invocation.ofArgs args = .ok (.check ⟨json, tokens, cap, files⟩) ∧
            Invocation.ofArgs args' = .ok (.check ⟨json, tokens, cap', files⟩) := by
  by_cases hne : args = []
  · exact .inl ⟨hne, h.eq_nil_iff.2 hne⟩
  have hne' : args' ≠ [] := fun hnil => hne (h.eq_nil_iff.1 hnil)
  obtain ⟨ps, ps', hs, hs', hwords, -, hcaps⟩ := h.pieces
  have husable : Usable ps' ↔ Usable ps :=
    ⟨fun hu => ⟨hcaps.1 hu.caps, hwords ▸ hu.flags, hwords ▸ hu.words⟩,
      fun hu => ⟨hcaps.2 hu.caps, hwords ▸ hu.flags, hwords ▸ hu.words⟩⟩
  right
  by_cases hu : Usable ps
  · right
    obtain ⟨cap, hcap⟩ := Invocation.exists_ofArgs_eq_check hs hhelp hu
    obtain ⟨cap', hcap'⟩ := Invocation.exists_ofArgs_eq_check hs' (h.help hhelp) (husable.2 hu)
    have hcontains (flag : String) (hflag : flag ∈ args' ↔ flag ∈ args) :
        args'.contains flag = args.contains flag := by
      rw [Bool.eq_iff_iff, List.contains_iff_mem, List.contains_iff_mem, hflag]
    rw [hcontains _ h.json, hcontains _ h.tokens, hwords] at hcap'
    exact ⟨_, _, cap, cap', _, hcap, hcap'⟩
  · left
    obtain ⟨e, he⟩ := Invocation.exists_ofArgs_eq_error hs hne hhelp hu
    obtain ⟨e', he'⟩ := Invocation.exists_ofArgs_eq_error hs' hne' (h.help hhelp)
      fun hu' => hu (husable.1 hu')
    exact ⟨e, e', he, he'⟩

end AskAlike

end SchemaLang
