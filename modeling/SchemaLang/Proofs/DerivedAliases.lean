import Mathlib.Data.List.Induction
import SchemaLang.Schema.Alias

/-!
# Aliases that paths give

* `segments path`: what stands between the slashes of a path, less what is empty; `lastName path` is the
  last of them.
* `IsStem name stem`: the name of a file, and that name without the suffix of schema files.
* `plain`: a text with an underscore for each character that no word has.

Where a slash cuts a path in two, the segments of both parts stand one behind the other
(`segments_append_slash`). So a slash at the end adds no segment, and of two parts only the second one
counts if there is a name in it.

Main statement: the alias of any path is made of the stem of its last name, and it is refused only if it is a
keyword (`derivedAlias_of_path`).
-/

set_option autoImplicit false

namespace SchemaLang

/-! ## Segments -/

def segments (path : List Char) : List (List Char) := (path.splitOn '/').filter (!·.isEmpty)

/-- The empty text, if the path has no name in it. -/
def lastName (path : List Char) : List Char := (segments path).getLastD []

theorem segments_append_slash (front rest : List Char) :
    segments (front ++ '/' :: rest) = segments front ++ segments rest := by
  unfold segments
  rw [List.splitOn_append_cons_self, List.filter_append]

theorem segments_concat_slash (path : List Char) : segments (path ++ ['/']) = segments path := by
  rw [segments_append_slash]
  exact List.append_nil _

theorem segments_of_notMem {name : List Char} (h : '/' ∉ name) (hne : name ≠ []) :
    segments name = [name] := by
  unfold segments
  rw [List.splitOn_eq_singleton h]
  simp [hne]

/-- Back to the last slash that stands before it. -/
def behindLastSlash (path : List Char) : List Char := (path.reverse.takeWhile (· != '/')).reverse

theorem slash_notMem_behindLastSlash (path : List Char) : '/' ∉ behindLastSlash path := by
  intro h
  have hall := List.all_eq_true.1 (List.all_takeWhile (p := (· != '/')) (l := path.reverse))
  simpa using hall '/' (List.mem_reverse.1 h)

theorem behindLastSlash_cases (path : List Char) :
    path = behindLastSlash path ∨ ∃ front, path = front ++ '/' :: behindLastSlash path := by
  have hpath : path = (path.reverse.dropWhile (· != '/')).reverse ++ behindLastSlash path := by
    rw [behindLastSlash, ← List.reverse_append, List.takeWhile_append_dropWhile, List.reverse_reverse]
  cases hfront : path.reverse.dropWhile (· != '/') with
  | nil =>
    rw [hfront] at hpath
    exact .inl hpath
  | cons c front =>
    have hc : c = '/' := by
      have := List.head?_dropWhile_not (· != '/') path.reverse
      simpa [hfront] using this
    rw [hfront, List.reverse_cons, List.append_assoc, hc] at hpath
    exact .inr ⟨front.reverse, hpath⟩

/-- A character that is no slash ends the last segment. -/
theorem exists_segments_concat (path : List Char) {c : Char} (hc : c ≠ '/') :
    ∃ before, segments (path ++ [c]) = before ++ [behindLastSlash path ++ [c]] := by
  have hname : '/' ∉ behindLastSlash path ++ [c] := by
    rw [List.mem_append, List.mem_singleton]
    exact not_or.2 ⟨slash_notMem_behindLastSlash path, hc.symm⟩
  have hlast := segments_of_notMem hname (by simp)
  rcases behindLastSlash_cases path with hpath | ⟨front, hpath⟩
  · refine ⟨[], ?_⟩
    rw [← hpath] at hlast ⊢
    exact hlast
  · refine ⟨segments front, ?_⟩
    have hcut : path ++ [c] = front ++ '/' :: (behindLastSlash path ++ [c]) := by
      conv_lhs => rw [hpath]
      rw [List.append_assoc, List.cons_append]
    rw [hcut, segments_append_slash, hlast]

theorem segments_ne_nil {path : List Char} (h : ∃ c ∈ path, c ≠ '/') : segments path ≠ [] := by
  induction path using List.reverseRecOn with
  | nil => simp at h
  | append_singleton path c ih =>
    by_cases hc : c = '/'
    · subst hc
      rw [segments_concat_slash]
      apply ih
      simpa using h
    · obtain ⟨before, hsegments⟩ := exists_segments_concat path hc
      rw [hsegments]
      simp

theorem lastName_append_slash {rest : List Char} (h : ∃ c ∈ rest, c ≠ '/') (front : List Char) :
    lastName (front ++ '/' :: rest) = lastName rest := by
  obtain ⟨before, name, hrest⟩ :=
    (List.eq_nil_or_concat (segments rest)).resolve_left (segments_ne_nil h)
  unfold lastName
  rw [segments_append_slash, hrest]
  simp

/-- The name behind the last slash that has one behind it is the last segment. -/
theorem lastSegment_eq_lastName (path : List Char) : lastSegment path = lastName path := by
  induction path using List.reverseRecOn with
  | nil => rfl
  | append_singleton path c ih =>
    by_cases hc : c = '/'
    · subst hc
      have htrim : lastSegment (path ++ ['/']) = lastSegment path := by
        simp [lastSegment, Text.dropEndWhile]
      rw [htrim, ih, lastName, lastName, segments_concat_slash]
    · have hword : lastSegment (path ++ [c]) = behindLastSlash path ++ [c] := by
        rw [lastSegment, Text.dropEndWhile_append_of_neg path (by simpa using hc)]
        simp [behindLastSlash, hc]
      obtain ⟨before, hsegments⟩ := exists_segments_concat path hc
      rw [hword, lastName, hsegments]
      simp

/-! ## Stems -/

def IsStem (name stem : List Char) : Prop :=
  name = stem ++ schemaSuffix ∨ (name = stem ∧ ¬ schemaSuffix <:+ name)

theorem isStem_withoutSuffix (name : List Char) : IsStem name (withoutSuffix name) := by
  unfold withoutSuffix
  split
  · rename_i h
    obtain ⟨stem, rfl⟩ := List.isSuffixOf_iff_suffix.1 h
    left
    simp
  · rename_i h
    right
    exact ⟨rfl, fun hsuffix => h (List.isSuffixOf_iff_suffix.2 hsuffix)⟩

/-! ## Words -/

def plain (stem : List Char) : List Char :=
  stem.map fun c => if c.isAlphanum || c == '_' then c else '_'

/-- What stands before a text that is to be a word. -/
def wordStart (text : List Char) : List Char := if text.head?.any Char.isAlpha then [] else ['n']

theorem toWord_eq (stem : List Char) : toWord stem = wordStart (plain stem) ++ plain stem := by
  have hplain : (stem.map fun c => if isAliasPart c then c else '_') = plain stem := rfl
  unfold toWord wordStart
  rw [hplain]
  cases plain stem with
  | nil => rfl
  | cons c cs =>
    by_cases hc : c.isAlpha = true
    · simp [hc]
    · simp [hc]

theorem toList_derivedAlias (path : String) :
    (derivedAlias path).toList =
      toWord (withoutSuffix (lastName path.toList)) := by
  rw [derivedAlias, String.toList_ofList, lastSegment_eq_lastName]

/-- Only the last name of a path counts. -/
theorem derivedAlias_congr {path other : String} (h : lastName path.toList = lastName other.toList) :
    derivedAlias path = derivedAlias other := by
  apply String.toList_injective
  rw [toList_derivedAlias, toList_derivedAlias, h]

/-- A word is the alias of itself: no character in it is a slash, a point or to be replaced. -/
theorem derivedAlias_of_hasAliasShape {word : String} (h : hasAliasShape word.toList = true) :
    derivedAlias word = word := by
  apply String.toList_injective
  rw [toList_derivedAlias]
  cases hword : word.toList with
  | nil =>
    rw [hword] at h
    cases h
  | cons c cs =>
    rw [hword] at h
    obtain ⟨hc, hcs⟩ : c.isAlpha = true ∧ ∀ d ∈ cs, isAliasPart d = true := by
      simpa [hasAliasShape] using h
    have hall : ∀ d ∈ c :: cs, isAliasPart d = true := by
      intro d hd
      rcases List.mem_cons.1 hd with rfl | hd
      · simp [isAliasPart, Char.isAlphanum, hc]
      · exact hcs d hd
    have hname : lastName (c :: cs) = c :: cs := by
      have hslash : '/' ∉ c :: cs := fun hmem => absurd (hall '/' hmem) (by decide)
      rw [lastName, segments_of_notMem hslash (by simp)]
      rfl
    have hstem : withoutSuffix (c :: cs) = c :: cs := by
      have hsuffix : ¬ schemaSuffix <:+ c :: cs := by
        intro hsuffix
        have hpoint := hsuffix.subset (show '.' ∈ schemaSuffix by decide)
        exact absurd (hall '.' hpoint) (by decide)
      rw [withoutSuffix, if_neg fun h => hsuffix (List.isSuffixOf_iff_suffix.1 h)]
    have hplain : plain (c :: cs) = c :: cs := by
      have hkeep : ∀ d ∈ c :: cs, (if d.isAlphanum || d == '_' then d else '_') = d :=
        fun d hd => if_pos (hall d hd)
      unfold plain
      rw [List.map_congr_left hkeep, List.map_id']
    rw [hname, hstem, toWord_eq, hplain, wordStart]
    simp [hc]

/-! ## Paths -/

/-- **The alias of a path.** It is a word, so that it is accepted or refused as a keyword, and its own alias.
A slash behind the path does not change it, nor does a path before one that has a name in it. It is the stem
of the last name in the path, with an underscore for each character that no word has, and with an `n` before
it exactly if no letter starts it. -/
theorem derivedAlias_of_path (path : String) :
    hasAliasShape (derivedAlias path).toList = true ∧
      (checkAlias (derivedAlias path) = .ok () ∨
        checkAlias (derivedAlias path) = .error (.reservedKeyword (derivedAlias path))) ∧
      derivedAlias (derivedAlias path) = derivedAlias path ∧
      derivedAlias (path ++ "/") = derivedAlias path ∧
      (∀ front rest : String, (∃ c ∈ rest.toList, c ≠ '/') →
        derivedAlias (front ++ "/" ++ rest) = derivedAlias rest) ∧
      ∃ stem, IsStem (lastName path.toList) stem ∧
        (derivedAlias path).toList = wordStart (plain stem) ++ plain stem := by
  have hshape := hasAliasShape_derivedAlias path
  refine ⟨hshape, ?_, derivedAlias_of_hasAliasShape hshape, ?_, ?_, ?_⟩
  · unfold checkAlias
    rw [hshape]
    by_cases hr : isReserved (derivedAlias path) = true
    · simp [hr]
    · simp [hr]
  · apply derivedAlias_congr
    have hpath : (path ++ "/").toList = path.toList ++ ['/'] := String.toList_append ..
    rw [hpath, lastName, lastName, segments_concat_slash]
  · intro front rest hrest
    apply derivedAlias_congr
    have hpath : (front ++ "/" ++ rest).toList = front.toList ++ '/' :: rest.toList := by
      simp [String.toList_append]
    rw [hpath, lastName_append_slash hrest]
  · refine ⟨withoutSuffix (lastName path.toList), isStem_withoutSuffix _, ?_⟩
    rw [toList_derivedAlias, toWord_eq]

/-- Only the slashes at the end are left out, and one suffix; the name behind them is a keyword. -/
theorem derivedAlias_of_path_keyword :
    (∃ c ∈ "type.yammm/".toList, c ≠ '/') ∧
      derivedAlias ("a.yammm" ++ "/" ++ "type.yammm/") = derivedAlias "type.yammm/" ∧
      derivedAlias ("type.yammm" ++ "/") = derivedAlias "type.yammm" ∧
      checkAlias (derivedAlias "type.yammm") = .error (.reservedKeyword "type") := by
  have hname : ∃ c ∈ "type.yammm/".toList, c ≠ '/' := ⟨'t', by decide, by decide⟩
  obtain ⟨-, -, -, hslash, hfront, -⟩ := derivedAlias_of_path "type.yammm"
  exact ⟨hname, hfront _ _ hname, hslash, by decide +kernel⟩

end SchemaLang
