import SchemaLang.Proofs.Shown.Lines
import SchemaLang.Proofs.Written.Strings
import SchemaLang.Token.Value

/-!
# Documentation in a comment

* `documentation ls`: a block comment with the lines `ls` in it, each behind a gutter of one asterisk.
* `Unclosed cs`: the end of a comment is nowhere in `cs`.
* `Documents ls`: what the lines may be. A blank at the end of a line and an empty line at either end of the
  comment are not kept.

A gutter is dropped with one blank behind it, so what follows it may be blanks or asterisks again
(`gutterless_behindGutter`). The lines of the comment are those with gutters between two that are blank.

Main statement: lines in a comment are one token, and its text is these lines (`docText_documentation`).
-/

set_option autoImplicit false

namespace SchemaLang

/-! ## Lines behind each other -/

namespace Text

theorem joinLines_cons_cons (l m : List Char) (ms : List (List Char)) :
    joinLines (l :: m :: ms) = l ++ '\n' :: joinLines (m :: ms) := rfl

theorem joinLines_eq_intercalate (ls : List (List Char)) : joinLines ls = ['\n'].intercalate ls := by
  induction ls with
  | nil => rfl
  | cons l ls ih =>
    cases ls with
    | nil => simp [joinLines]
    | cons m ms =>
      rw [joinLines_cons_cons, ih, List.intercalate_cons_cons, List.append_assoc, List.singleton_append]

theorem joinLines_cons (l : List Char) (ls : List (List Char)) :
    joinLines (l :: ls) = l ++ ls.flatMap fun m => '\n' :: m := by
  induction ls generalizing l with
  | nil => simp [joinLines]
  | cons m ms ih =>
    rw [joinLines_cons_cons, ih, List.flatMap_cons, List.cons_append]

theorem pieces_joinLines {l : List Char} {ls : List (List Char)} (h : ∀ m ∈ l :: ls, '\n' ∉ m) :
    pieces (joinLines (l :: ls)) = l :: ls := by
  induction ls generalizing l with
  | nil => exact pieces_of_notMem (h l (List.mem_singleton_self l))
  | cons m ms ih =>
    rw [List.forall_mem_cons] at h
    rw [joinLines_cons_cons, pieces_append_newline, pieces_of_notMem h.1, ih h.2]
    rfl

theorem dropEndWhile_of_getLast? {α : Type} {p : α → Bool} {l : List α}
    (h : ∀ a ∈ l.getLast?, p a = false) : dropEndWhile p l = l := by
  rcases List.eq_nil_or_concat l with rfl | ⟨front, a, rfl⟩
  · rfl
  · rw [List.concat_eq_append] at h ⊢
    exact dropEndWhile_append_of_neg front (h a (by simp))

end Text

/-! ## Gutters -/

def behindGutter (line : List Char) : List Char := ' ' :: '*' :: ' ' :: line

/-- A line is what stands behind its gutter, if no blank ends it. -/
theorem gutterless_behindGutter {line : List Char} (h : ∀ c ∈ line.getLast?, Text.isBlank c = false) :
    gutterless (behindGutter line) = line := by
  have hstart : Text.trimStart (behindGutter line) = '*' :: ' ' :: line := by
    rw [behindGutter, Text.trimStart, List.dropWhile_cons_of_pos (by decide),
      List.dropWhile_cons_of_neg (by decide)]
  cases line with
  | nil => decide +kernel
  | cons c cs =>
    have hend : Text.trimEnd ('*' :: ' ' :: c :: cs) = '*' :: ' ' :: c :: cs := by
      apply Text.dropEndWhile_of_getLast?
      simpa using h
    rw [gutterless, Text.trim, hstart, hend]
    exact Text.dropEndWhile_of_getLast? h

/-- Only a blank at the end of a line could be a carriage return. -/
theorem dropReturn_behindGutter {line : List Char} (h : ∀ c ∈ line.getLast?, Text.isBlank c = false) :
    Text.dropReturn (behindGutter line) = behindGutter line := by
  have hlast : (behindGutter line).getLast? ≠ some '\r' := by
    cases line with
    | nil => decide
    | cons c cs =>
      intro hreturn
      have hblank := h '\r' (by simpa [behindGutter] using hreturn)
      exact absurd hblank (by decide)
  rw [Text.dropReturn, if_neg hlast]

/-! ## The end of a comment -/

def Unclosed (cs : List Char) : Prop := cs.IsChain fun c d => c = '*' → d ≠ '/'

theorem unclosed_of_notInfix {cs : List Char} (h : ¬ ['*', '/'] <:+: cs) : Unclosed cs := by
  induction cs with
  | nil => exact .nil
  | cons c cs ih =>
    have hrest : Unclosed cs := ih fun hclosed => h (hclosed.trans (List.suffix_cons c cs).isInfix)
    cases cs with
    | nil => exact .singleton c
    | cons d ds =>
      apply List.isChain_cons_cons.2
      refine ⟨?_, hrest⟩
      rintro rfl rfl
      exact h ⟨[], ds, rfl⟩

/-- Texts without an end have none where they meet, if the second one does not start with a slash. -/
theorem Unclosed.append {cs ds : List Char} (hcs : Unclosed cs) (hds : Unclosed ds)
    (hhead : ds.head? ≠ some '/') : Unclosed (cs ++ ds) := by
  apply List.isChain_append.2
  refine ⟨hcs, hds, ?_⟩
  rintro c - d hd - rfl
  exact hhead hd

/-- The first end behind a text without one is the next. -/
theorem untilCommentEnd_of_unclosed {cs : List Char} (h : Unclosed (cs ++ ['*'])) (rest : List Char) :
    untilCommentEnd? (cs ++ '*' :: '/' :: rest) = some (cs ++ ['*', '/'], rest) := by
  induction cs with
  | nil => rfl
  | cons c cs ih =>
    have hrest : Unclosed (cs ++ ['*']) := h.tail
    rw [List.cons_append, untilCommentEnd?.eq_def]
    split
    · rename_i ds heq
      obtain ⟨rfl, hslash⟩ := List.cons.inj heq
      cases cs with
      | nil => simp at hslash
      | cons d cs =>
        obtain ⟨rfl, -⟩ := List.cons.inj hslash
        exact absurd rfl ((List.isChain_cons_cons.1 h).1 rfl)
    · rename_i heq
      obtain ⟨rfl, rfl⟩ := List.cons.inj heq
      rw [ih hrest]
      rfl
    · rename_i heq
      cases heq

/-- A comment without an end in it is cut off whole. -/
theorem Lexeme.scan_blockComment {body : List Char} (h : Unclosed (body ++ ['*'])) (rest : List Char) :
    scan false '/' ('*' :: (body ++ '*' :: '/' :: rest)) =
      ⟨.docComment, '/' :: '*' :: (body ++ ['*', '/']), rest, []⟩ := by
  have hspace : isSpace '/' = false := by decide
  simp [scan, hspace, blockComment, untilCommentEnd_of_unclosed h]

theorem commentBody_enclosed (body : List Char) :
    commentBody ('/' :: '*' :: (body ++ ['*', '/'])) = body.dropWhile (· == '*') := by
  have hend : ['*', '/'].isSuffixOf (body ++ ['*', '/']) = true :=
    List.isSuffixOf_iff_suffix.2 (List.suffix_append ..)
  simp [commentBody, hend]

/-! ## Comments -/

/-- Each line stands on a line of its own behind a gutter, and so does the end of the comment. -/
def documentation (ls : List String) : String :=
  "/**" ++ String.join (ls.map fun l => "\n * " ++ l) ++ "\n */"

structure Documents (ls : List String) : Prop where
  newline_notMem : ∀ l ∈ ls, '\n' ∉ l.toList
  last_notBlank : ∀ l ∈ ls, ∀ c ∈ l.toList.getLast?, Text.isBlank c = false
  end_notInfix : ∀ l ∈ ls, ¬ "*/".toList <:+: l.toList
  head_ne : ∀ l ∈ ls.head?, l ≠ ""
  last_ne : ∀ l ∈ ls.getLast?, l ≠ ""

/-- The comment behind the asterisks of its opening, up to its end. -/
def documentationBody (ls : List String) : List Char :=
  ls.flatMap (fun l => '\n' :: behindGutter l.toList) ++ ['\n', ' ']

theorem toList_documentation (ls : List String) :
    (documentation ls).toList = '/' :: '*' :: ('*' :: documentationBody ls ++ ['*', '/']) := by
  have hlines : (String.join (ls.map fun l => "\n * " ++ l)).toList =
      ls.flatMap fun l => '\n' :: behindGutter l.toList := by
    rw [String.toList_join, List.flatMap_map]
    apply List.flatMap_congr
    intro l _
    rw [String.toList_append]
    rfl
  rw [documentation, String.toList_append, String.toList_append, hlines, documentationBody]
  simp

theorem exists_documentationBody (ls : List String) :
    ∃ rest, documentationBody ls = '\n' :: rest := by
  cases ls with
  | nil => exact ⟨_, rfl⟩
  | cons l ls => exact ⟨_, rfl⟩

theorem unclosed_documentationBody {ls : List String} (h : ∀ l ∈ ls, ¬ "*/".toList <:+: l.toList) :
    Unclosed ('*' :: documentationBody ls ++ ['*']) := by
  have hlines : Unclosed (ls.flatMap fun l => '\n' :: behindGutter l.toList) := by
    induction ls with
    | nil => exact .nil
    | cons l ls ih =>
      rw [List.forall_mem_cons] at h
      have hline : Unclosed ('\n' :: behindGutter l.toList) := by
        have hl : Unclosed l.toList := unclosed_of_notInfix h.1
        unfold Unclosed behindGutter at *
        simp [List.isChain_cons, hl]
      rw [List.flatMap_cons]
      apply hline.append (ih h.2)
      cases ls <;> simp
  have hbody : Unclosed (documentationBody ls ++ ['*']) := by
    rw [documentationBody, List.append_assoc]
    apply hlines.append
    · simp [Unclosed, List.isChain_cons]
    · simp
  obtain ⟨rest, hrest⟩ := exists_documentationBody ls
  rw [hrest] at hbody ⊢
  exact List.isChain_cons_cons.2 ⟨by simp, hbody⟩

theorem commentBody_documentation (ls : List String) :
    commentBody (documentation ls).toList = documentationBody ls := by
  obtain ⟨rest, hrest⟩ := exists_documentationBody ls
  rw [toList_documentation, commentBody_enclosed, hrest]
  rfl

/-- A line ends behind the opening, and the last one is a blank before the end. -/
theorem lines_documentationBody {ls : List String} (h : Documents ls) :
    Text.lines (documentationBody ls) = [] :: ls.map (fun l => behindGutter l.toList) ++ [[' ']] := by
  have hnewline : ∀ l ∈ [] :: ls.map (fun l => behindGutter l.toList), '\n' ∉ l := by
    simpa [behindGutter] using h.newline_notMem
  have hbody : documentationBody ls =
      Text.joinLines ([] :: ls.map (fun l => behindGutter l.toList)) ++ '\n' :: [' '] := by
    rw [Text.joinLines_cons, List.flatMap_map]
    rfl
  have hreturn : (ls.map fun l => behindGutter l.toList).map Text.dropReturn =
      ls.map fun l => behindGutter l.toList := by
    rw [List.map_map]
    apply List.map_congr_left
    intro l hl
    exact dropReturn_behindGutter (h.last_notBlank l hl)
  rw [hbody, Text.lines_append_newline, Text.pieces_joinLines hnewline, List.map_cons, hreturn]
  rfl

theorem map_gutterless_lines {ls : List String} (h : Documents ls) :
    (Text.lines (documentationBody ls)).map gutterless = [] :: (ls.map String.toList ++ [[]]) := by
  have hlines : (ls.map fun l => behindGutter l.toList).map gutterless = ls.map String.toList := by
    rw [List.map_map]
    apply List.map_congr_left
    intro l hl
    exact gutterless_behindGutter (h.last_notBlank l hl)
  have hend : gutterless [' '] = [] := by decide +kernel
  rw [lines_documentationBody h, List.cons_append, List.map_cons, List.map_append, hlines,
    List.map_singleton, hend]
  rfl

/-- Of the lines that are left only those at both ends are empty. -/
theorem dropEmptyEnds {ls : List String} (h : Documents ls) :
    Text.dropEndWhile List.isEmpty (([] :: (ls.map String.toList ++ [[]])).dropWhile List.isEmpty) =
      ls.map String.toList := by
  have hend : Text.dropEndWhile List.isEmpty (ls.map String.toList ++ [[]]) = ls.map String.toList := by
    have hlast : Text.dropEndWhile List.isEmpty (ls.map String.toList ++ [[]]) =
        Text.dropEndWhile List.isEmpty (ls.map String.toList) := by
      simp [Text.dropEndWhile]
    rw [hlast]
    apply Text.dropEndWhile_of_getLast?
    intro l hl
    rw [List.getLast?_map] at hl
    obtain ⟨s, hs, rfl⟩ := Option.map_eq_some_iff.1 hl
    have hne := h.last_ne s hs
    simpa using hne
  cases ls with
  | nil => rfl
  | cons l ls =>
    have hl : l.toList.isEmpty = false := by
      have hne := h.head_ne l rfl
      simpa using hne
    rw [List.dropWhile_cons_of_pos rfl, List.map_cons, List.cons_append,
      List.dropWhile_cons_of_neg (by simp [hl])]
    exact hend

/-- **Documentation is kept.** Lines that are written into a comment, each behind a gutter, are one token
without a fault, and its text is the lines as they were. -/
theorem docText_documentation (ls : List String) (h : Documents ls) :
    tokenize (documentation ls) =
        ([⟨.docComment, documentation ls, 0, (documentation ls).length⟩,
          Token.atEnd (documentation ls).length], []) ∧
      docText (documentation ls) = "\n".intercalate ls := by
  have hscan := Lexeme.scan_blockComment (unclosed_documentationBody h.end_notInfix) []
  refine ⟨tokenize_of_scan (toList_documentation ls) hscan, ?_⟩
  apply String.toList_injective
  calc (docText (documentation ls)).toList
      = Text.joinLines (Text.dropEndWhile List.isEmpty
          (((Text.lines (documentationBody ls)).map gutterless).dropWhile List.isEmpty)) := by
        rw [docText, commentBody_documentation, String.toList_ofList]
    _ = Text.joinLines (ls.map String.toList) := by rw [map_gutterless_lines h, dropEmptyEnds h]
    _ = ("\n".intercalate ls).toList := by
        rw [Text.joinLines_eq_intercalate, String.toList_intercalate]
        rfl

/-- A line that begins with blanks and asterisks, an empty one, and a slash behind a gutter. -/
theorem docText_documentation_asterisks :
    Documents ["  ** a", "", "/ b *"] ∧
      documentation ["  ** a", "", "/ b *"] = "/**\n *   ** a\n * \n * / b *\n */" ∧
      tokenize "/**\n *   ** a\n * \n * / b *\n */" =
        ([⟨.docComment, "/**\n *   ** a\n * \n * / b *\n */", 0, 30⟩, Token.atEnd 30], []) ∧
      docText "/**\n *   ** a\n * \n * / b *\n */" = "  ** a\n\n/ b *" := by
  have h : Documents ["  ** a", "", "/ b *"] := by
    have hends : ∀ l ∈ ["  ** a", "", "/ b *"], l.toList.getLast?.any Text.isBlank = false := by
      decide
    refine ⟨by decide, fun l hl c hc => ?_, by decide, by decide, by decide⟩
    have hend := hends l hl
    rwa [Option.mem_def.1 hc] at hend
  have htext : documentation ["  ** a", "", "/ b *"] = "/**\n *   ** a\n * \n * / b *\n */" := by
    decide +kernel
  obtain ⟨htokens, hdoc⟩ := docText_documentation _ h
  rw [htext] at htokens hdoc
  exact ⟨h, htext, htokens, hdoc⟩

end SchemaLang
