import Mathlib.Data.String.Basic
import SchemaLang.Source.Text

/-!
# The tables of a text

* `newlineEnds`: the byte offsets behind the newlines, by going over code points.

Newlines are looked for in bytes. A code point that is no newline has no byte of a newline
(`newlineEndsIn_utf8EncodeChar`), so this finds the ends of the newline characters.

Main statements: the table of byte offsets holds the UTF-8 lengths of what stands before the places
(`getElem?_byteOffsets`), which in ASCII are the numbers of code points (`utf8Len_eq_length`); the table
of lines holds the ends of the newlines (`lineStarts_textBytes`), and a newline of a part of a text is
one of the text (`newlineEnds_append`).
-/

set_option autoImplicit false

namespace SchemaLang

/-! ## Byte offsets of code points -/

theorem length_byteOffsets (n : Nat) (cs : List Char) :
    (byteOffsets n cs).length = cs.length + 1 := by
  induction cs generalizing n with
  | nil => rfl
  | cons c cs ih => simp [byteOffsets, ih]

theorem getElem?_byteOffsets (n : Nat) (cs : List Char) (i : Nat) :
    (byteOffsets n cs)[i]? =
      if i ≤ cs.length then some (n + String.utf8Len (cs.take i)) else none := by
  induction cs generalizing n i with
  | nil => cases i <;> simp [byteOffsets]
  | cons c cs ih =>
    cases i with
    | zero => simp [byteOffsets]
    | succ i =>
      simp only [byteOffsets, List.getElem?_cons_succ, ih, List.length_cons,
        Nat.add_le_add_iff_right, List.take_succ_cons, String.utf8Len_cons]
      split
      · simp only [Option.some.injEq]
        omega
      · rfl

theorem isAscii_iff {text : String} : isAscii text = true ↔ ∀ c ∈ text.toList, c.toNat < 0x80 := by
  simp [isAscii]

theorem utf8Size_of_lt {c : Char} (h : c.toNat < 0x80) : c.utf8Size = 1 := by
  have hle : c.val ≤ 0x7F := by
    rw [UInt32.le_iff_toNat_le]
    show c.toNat ≤ 0x7F
    omega
  simp [Char.utf8Size, hle]

/-- ASCII characters have one byte each. -/
theorem utf8Len_eq_length {cs : List Char} (h : ∀ c ∈ cs, c.toNat < 0x80) :
    String.utf8Len cs = cs.length := by
  induction cs with
  | nil => rfl
  | cons c cs ih =>
    rw [String.utf8Len_cons, ih fun d hd => h d (List.mem_cons_of_mem c hd),
      utf8Size_of_lt (h c (List.mem_cons_self ..)), List.length_cons]

theorem utf8Len_toList (text : String) : String.utf8Len text.toList = text.utf8ByteSize := by
  rw [← String.utf8ByteSize_ofList, String.ofList_toList]

/-! ## Line starts -/

/-- Where newlines end in bytes of which the first has offset `n`. -/
def newlineEndsIn (n : Nat) (bytes : List UInt8) : List Nat :=
  ((bytes.zipIdx n).filter fun b => b.1 = 0x0A).map fun b => b.2 + 1

theorem newlineEndsIn_append (n : Nat) (as bs : List UInt8) :
    newlineEndsIn n (as ++ bs) = newlineEndsIn n as ++ newlineEndsIn (n + as.length) bs := by
  simp [newlineEndsIn, List.zipIdx_append]

theorem newlineEndsIn_eq_nil {n : Nat} {bytes : List UInt8} (h : ∀ b ∈ bytes, b ≠ 0x0A) :
    newlineEndsIn n bytes = [] := by
  simp only [newlineEndsIn, List.map_eq_nil_iff, List.filter_eq_nil_iff, decide_eq_true_eq]
  exact fun b hb => h b.1 (List.fst_mem_of_mem_zipIdx hb)

/-- Only the newline has a byte of a newline. -/
theorem ne_of_mem_utf8EncodeChar {c : Char} (hc : c ≠ '\n') :
    ∀ b ∈ String.utf8EncodeChar c, b ≠ 0x0A := by
  have hcode : c.toNat ≠ 10 := fun h => hc (Char.toNat_inj.1 h)
  have hne (n : Nat) (h : n % 256 ≠ 10) : UInt8.ofNat n ≠ 0x0A := by
    intro heq
    have := congrArg UInt8.toNat heq
    rw [UInt8.toNat_ofNat'] at this
    exact h this
  intro b hb
  unfold String.utf8EncodeChar at hb
  have hval : c.val.toNat = c.toNat := rfl
  simp only [hval] at hb
  split at hb
  · obtain rfl := List.mem_singleton.1 hb
    exact hne _ (by omega)
  split at hb
  · rcases List.mem_pair.1 hb with rfl | rfl <;> exact hne _ (by omega)
  split at hb <;> simp only [List.mem_cons, List.not_mem_nil, or_false] at hb
  · rcases hb with rfl | rfl | rfl <;> exact hne _ (by omega)
  · rcases hb with rfl | rfl | rfl | rfl <;> exact hne _ (by omega)

theorem newlineEndsIn_utf8EncodeChar (n : Nat) (c : Char) :
    newlineEndsIn n (String.utf8EncodeChar c) = if c = '\n' then [n + 1] else [] := by
  split
  · rename_i h
    subst h
    rfl
  · rename_i h
    exact newlineEndsIn_eq_nil (ne_of_mem_utf8EncodeChar h)

/-- Where newlines end in a text that starts at byte `n`. -/
def newlineEnds (n : Nat) : List Char → List Nat
  | [] => []
  | c :: cs => (if c = '\n' then [n + 1] else []) ++ newlineEnds (n + c.utf8Size) cs

theorem newlineEndsIn_flatMap (n : Nat) (cs : List Char) :
    newlineEndsIn n (cs.flatMap String.utf8EncodeChar) = newlineEnds n cs := by
  induction cs generalizing n with
  | nil => rfl
  | cons c cs ih =>
    rw [List.flatMap_cons, newlineEndsIn_append, newlineEndsIn_utf8EncodeChar,
      String.length_utf8EncodeChar, ih, newlineEnds]

theorem textBytes_eq (text : String) :
    textBytes text = text.toList.flatMap String.utf8EncodeChar := by
  conv_lhs => rw [← String.ofList_toList (s := text)]
  rw [textBytes, String.toByteArray_ofList, List.utf8Encode, List.data_toByteArray]

theorem lineStarts_textBytes (text : String) :
    lineStarts (textBytes text) = 0 :: newlineEnds 0 text.toList := by
  rw [textBytes_eq, ← newlineEndsIn_flatMap]
  rfl

theorem newlineEnds_append (n : Nat) (cs ds : List Char) :
    newlineEnds n (cs ++ ds) = newlineEnds n cs ++ newlineEnds (n + String.utf8Len cs) ds := by
  induction cs generalizing n with
  | nil => simp [newlineEnds]
  | cons c cs ih =>
    rw [List.cons_append, newlineEnds, ih, newlineEnds, List.append_assoc, String.utf8Len_cons]
    congr 3
    omega

theorem length_newlineEnds (n : Nat) (cs : List Char) :
    (newlineEnds n cs).length = cs.count '\n' := by
  induction cs generalizing n with
  | nil => rfl
  | cons c cs ih =>
    rw [newlineEnds, List.length_append, ih, List.count_cons]
    by_cases hc : c = '\n'
    · simp [hc, Nat.add_comm]
    · simp [hc]

/-- A newline ends behind the start of a text and not behind its end. -/
theorem bounds_of_mem_newlineEnds {n x : Nat} {cs : List Char} (h : x ∈ newlineEnds n cs) :
    n < x ∧ x ≤ n + String.utf8Len cs := by
  induction cs generalizing n with
  | nil => cases h
  | cons c cs ih =>
    have hpos := c.utf8Size_pos
    rw [newlineEnds, List.mem_append] at h
    rw [String.utf8Len_cons]
    rcases h with h | h
    · split at h
      · obtain rfl := List.mem_singleton.1 h
        omega
      · cases h
    · have := ih h
      omega

theorem pairwise_newlineEnds (n : Nat) (cs : List Char) :
    (newlineEnds n cs).Pairwise (· < ·) := by
  induction cs generalizing n with
  | nil => exact .nil
  | cons c cs ih =>
    have hpos := c.utf8Size_pos
    rw [newlineEnds]
    refine List.pairwise_append.2 ⟨?_, ih _, fun x hx y hy => ?_⟩
    · split <;> simp
    · have := (bounds_of_mem_newlineEnds hy).1
      split at hx
      · obtain rfl := List.mem_singleton.1 hx
        omega
      · cases hx

end SchemaLang
