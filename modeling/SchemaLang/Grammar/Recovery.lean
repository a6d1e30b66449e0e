import SchemaLang.Grammar.Rule

/-!
# Recovery

When a rule gives up, reading goes on at the next boundary behind it.

* `atDeclaration` and `atMember` are the boundaries: the start of a declaration, and the start of a
  member or the end of a body.
* `skip` goes to the next boundary. A member boundary counts only outside the braces opened since
  the start of the member that failed; an import counts where declarations are read.
* `block` reads the entries of a body up to its closing brace, skipping from those that give up.

Main statements: `lt_skip` and `skip_le` (skipping goes forward, and not beyond the end).
-/

set_option autoImplicit false

namespace SchemaLang

/-- What recovery looks for. -/
inductive Boundary where
  | declaration
  | member
deriving DecidableEq, Repr

/-- `abstract type`, `part type`, or `type Name` and what may follow it. -/
def atDeclaration (items : Items) (i : Nat) : Bool :=
  match kindAt items i with
  | .keyword .abstractWord | .keyword .partWord => kindAt items (i + 1) = .keyword .typeWord
  | .keyword .typeWord =>
    kindAt items (i + 1) = .upperWord ∧
      kindAt items (i + 2) ∈
        [.symbol .lBrace, .symbol .assign, .keyword .extendsWord]
  | _ => false

/-- The start of a relation or an invariant, a property name at the start of a line, or a closing
brace. -/
def atMember (items : Items) (i : Nat) : Bool :=
  match kindAt items i with
  | .symbol .association | .symbol .composition | .symbol .rBrace => true
  | .symbol .bang => kindAt items (i + 1) = .stringLit
  | k => k.namesProperty && (itemAt items i).lineStart

/-- The depth of braces behind an item; a brace too many closes nothing. -/
def braceDepth (depth : Nat) (k : TokenKind) : Nat :=
  match k with
  | .symbol .lBrace => depth + 1
  | .symbol .rBrace => depth - 1
  | _ => depth

/-- The depth of braces before item `i`, counted from item `start`. -/
def depthFrom (items : Items) (start i : Nat) : Nat :=
  (List.range' start (i - start)).foldl (fun d j => braceDepth d (kindAt items j)) 0

/-- Whether recovery stops at item `i`, at a given depth of braces. -/
def isBoundary (items : Items) (goal : Boundary) (depth i : Nat) : Bool :=
  kindAt items i = .endOfText || atDeclaration items i ||
    match goal with
    | .declaration =>
      kindAt items i = .keyword .importWord || kindAt items i = .keyword .datatypeWord
    | .member => depth == 0 && atMember items i

/-- The first boundary from item `i` on, among the next `count` items. -/
def skipFrom (items : Items) (goal : Boundary) : Nat → Nat → Nat → Nat
  | 0, _, i => i
  | count + 1, depth, i =>
    if isBoundary items goal depth i then i
    else skipFrom items goal count (braceDepth depth (kindAt items i)) (i + 1)

/-- Where reading goes on after the rule that started at `start` gave up, leaving `resume`. At least
one item is skipped, as long as the rule has not gone back behind its start. -/
def skip (items : Items) (goal : Boundary) (start resume : Nat) : Nat :=
  let i := if resume ≤ start then resume + 1 else resume
  skipFrom items goal (items.size - i) (depthFrom items start i) i

theorem depthFrom_succ (items : Items) {start i : Nat} (h : start ≤ i) :
    depthFrom items start (i + 1) = braceDepth (depthFrom items start i) (kindAt items i) := by
  unfold depthFrom
  rw [Nat.succ_sub h, List.range'_concat, List.foldl_append]
  simp [Nat.add_sub_of_le h]

/-- Only the kinds of the items matter. -/
theorem depthFrom_congr {items items' : Items} {start i : Nat}
    (h : ∀ k < i, kindAt items' k = kindAt items k) :
    depthFrom items' start i = depthFrom items start i := by
  induction i with
  | zero => simp [depthFrom]
  | succ i ih =>
    by_cases hi : start ≤ i
    · rw [depthFrom_succ _ hi, depthFrom_succ _ hi, h i (Nat.lt_succ_self i),
        ih fun k hk => h k (Nat.lt_succ_of_lt hk)]
    · simp [depthFrom, Nat.sub_eq_zero_of_le (Nat.lt_of_not_le hi)]

theorem le_skipFrom (items : Items) (goal : Boundary) (count depth i : Nat) :
    i ≤ skipFrom items goal count depth i := by
  induction count generalizing depth i with
  | zero => exact Nat.le_refl _
  | succ count ih =>
    unfold skipFrom
    split
    · exact Nat.le_refl _
    · exact Nat.le_trans (Nat.le_succ i) (ih _ _)

theorem skipFrom_le (items : Items) (goal : Boundary) (count depth i : Nat) :
    skipFrom items goal count depth i ≤ i + count := by
  induction count generalizing depth i with
  | zero => exact Nat.le_refl _
  | succ count ih =>
    unfold skipFrom
    split
    · omega
    · have := ih (braceDepth depth (kindAt items i)) (i + 1)
      omega

/-- Skipping leaves the start behind. -/
theorem lt_skip (items : Items) (goal : Boundary) {start resume : Nat} (h : start ≤ resume) :
    start < skip items goal start resume := by
  unfold skip
  dsimp only
  split
  · exact Nat.lt_of_lt_of_le (by omega) (le_skipFrom ..)
  · exact Nat.lt_of_lt_of_le (by omega) (le_skipFrom ..)

/-- Skipping does not leave the items. -/
theorem skip_le {items : Items} (goal : Boundary) {start resume : Nat} (hs : start < items.size)
    (hr : resume ≤ items.size) : skip items goal start resume ≤ items.size := by
  unfold skip
  dsimp only
  split
  · have := skipFrom_le items goal (items.size - (resume + 1)) (depthFrom items start (resume + 1))
      (resume + 1)
    omega
  · have := skipFrom_le items goal (items.size - resume) (depthFrom items start resume) resume
    omega

namespace Rule

variable {α : Type}

/-- What a loop over entries replies once one of them has replied: the entry, if it has a value, and
then the rest from the next boundary on. -/
def thenRest (goal : Boundary) (items : Items) (start : Nat) (reply : Reply α)
    (rest : Nat → Reply (List α)) : Reply (List α) :=
  match reply with
  | ⟨some a, j, ps⟩ =>
    let r := rest j
    ⟨r.value.map (a :: ·), r.next, ps ++ r.problems⟩
  | ⟨none, j, ps⟩ =>
    let r := rest (skip items goal start j)
    ⟨r.value, r.next, ps ++ r.problems⟩

/-- The entries of a body behind its opening brace, up to the closing one. The body also ends before
a declaration and at the end of the text, which is a problem. -/
def block (entry : Rule α) (what : Enclosure) (opened : Nat) : Nat → Rule (List α)
  | 0 => fun _ i => ⟨some [], i, [⟨.unclosed .rBrace what (.single opened), .single i⟩]⟩
  | n + 1 => fun items i =>
    if kindAt items i = .symbol .rBrace then ⟨some [], i + 1, []⟩
    else if kindAt items i = .endOfText ∨ atDeclaration items i = true then
      ⟨some [], i, [⟨.unclosed .rBrace what (.single opened), .single i⟩]⟩
    else thenRest .member items i (entry items i) (block entry what opened n items)

end Rule

end SchemaLang
