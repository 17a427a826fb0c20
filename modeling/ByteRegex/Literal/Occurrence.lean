import ByteRegex.Literal.ByteScan

/-!
# Occurrences of a Word

A word occurs in a text at a position when the bytes from there on are the bytes
of the word. When letter case is ignored the text is folded byte by byte as it
is read and the word is taken as it is, so a word that is meant to be found in
any case has to be folded beforehand.

`Occurs` is the definition, `occursAt` the test, and `occursAt_iff` says that
they agree. The searches go from one byte with which the word can begin to the
next and put the test there: `firstOccurrence?` from a position on to the end of
the text, `lastOccurrence?` back from a position, in a window of the text whose
end moves down to each position that fails. The empty word occurs at every
position of the text, its end included.

## Main definitions

* `Byte.canonical`: A byte as it is compared, folded when case is ignored.
* `Occurs`: The word stands in the text at a position.
* `occursAt`: The test for it.
* `firstOccurrence?`, `find?`: The first occurrence from a position on.
* `lastOccurrence?`, `findLast?`: The last occurrence up to a position.

## Theorems

* `occursAt_iff`: The test decides `Occurs`.
* `le_of_firstOccurrence?`: An occurrence found forward is not before the start.
* `lastOccurrence?_le`: An occurrence found backward is not after the start.
-/

namespace ByteRegex

/-- A byte as it is compared: itself, or its lower case when case is ignored. -/
def Byte.canonical (ignoreCase : Bool) (c : UInt8) : UInt8 := if ignoreCase then fold c else c

namespace Literal

/-- The word stands in the text at position `s`. -/
def Occurs (ignoreCase : Bool) (word text : Bytes) (s : Nat) : Prop :=
  s + word.size ≤ text.size ∧
    ∀ i, i < word.size → (text[s + i]?).map (Byte.canonical ignoreCase) = word[i]?

/-- The bytes of the word from index `i` on stand in the text, when the word is
    laid at position `s`. -/
def occursFrom (ignoreCase : Bool) (word text : Bytes) (s i : Nat) : Bool :=
  if i < word.size then
    (text[s + i]?).map (Byte.canonical ignoreCase) == word[i]? &&
      occursFrom ignoreCase word text s (i + 1)
  else true
  termination_by word.size - i

/-- Whether the word stands in the text at position `s`. -/
def occursAt (ignoreCase : Bool) (word text : Bytes) (s : Nat) : Bool :=
  s + word.size ≤ text.size && occursFrom ignoreCase word text s 0

/-- Goes from one byte that can begin the word to the next, from `s` on, and compares
    the word there. -/
def firstFrom? (scan : ByteScan) (ignoreCase : Bool) (word text : Bytes) (head : UInt8)
    (s : Nat) : Option Nat :=
  if s < text.size then
    match scan.firstHead? ignoreCase head (text.extract s text.size) with
    | none => none
    | some hit =>
      if occursAt ignoreCase word text (s + hit) then some (s + hit)
      else firstFrom? scan ignoreCase word text head (s + hit + 1)
  else none
  termination_by text.size - s

/-- The first position from `s` on at which the word stands. -/
def firstOccurrence? (scan : ByteScan) (ignoreCase : Bool) (word text : Bytes) (s : Nat) :
    Option Nat :=
  match word[0]? with
  | none => if s ≤ text.size then some s else none
  | some head => firstFrom? scan ignoreCase word text head s

/-- Goes back from one byte that can begin the word to the one before it, in the first
    `stop` bytes of the text, and compares the word there. -/
def lastBelow? (scan : ByteScan) (ignoreCase : Bool) (word text : Bytes) (head : UInt8)
    (stop : Nat) : Option Nat :=
  if 0 < stop then
    match scan.lastHead? ignoreCase head (text.extract 0 stop) with
    | none => none
    | some hit =>
      -- What is found in the window lies below its end.
      if hit < stop then
        if occursAt ignoreCase word text hit then some hit
        else lastBelow? scan ignoreCase word text head hit
      else none
  else none
  termination_by stop

/-- The last position up to `s` at which the word stands. The word fits into the text
    nowhere behind the position where the search begins. -/
def lastOccurrence? (scan : ByteScan) (ignoreCase : Bool) (word text : Bytes) (s : Nat) :
    Option Nat :=
  if text.size < word.size then none
  else
    let lastStart := min s (text.size - word.size)
    match word[0]? with
    | none => some lastStart
    | some head => lastBelow? scan ignoreCase word text head (lastStart + 1)

/-- The first position from `s` on at which the word stands, with plain scans. -/
def find? (ignoreCase : Bool) (word text : Bytes) (s : Nat) : Option Nat :=
  firstOccurrence? .walk ignoreCase word text s

/-- The last position up to `s` at which the word stands, with plain scans. -/
def findLast? (ignoreCase : Bool) (word text : Bytes) (s : Nat) : Option Nat :=
  lastOccurrence? .walk ignoreCase word text s

theorem occursFrom_iff (ignoreCase : Bool) (word text : Bytes) (s i : Nat) :
    occursFrom ignoreCase word text s i = true ↔
      ∀ j, i ≤ j → j < word.size →
        (text[s + j]?).map (Byte.canonical ignoreCase) = word[j]? := by
  fun_induction occursFrom ignoreCase word text s i with
  | case1 i hi ih =>
    rw [Bool.and_eq_true, ih, beq_iff_eq]
    constructor
    · rintro ⟨hhere, hrest⟩ j hij hj
      by_cases h : j = i
      · exact h ▸ hhere
      · exact hrest j (by omega) hj
    · intro h
      exact ⟨h i (Nat.le_refl i) hi, fun j hij hj => h j (by omega) hj⟩
  | case2 i hi =>
    simp only [true_iff]
    intro j hij hj
    omega

theorem occursAt_iff {ignoreCase : Bool} {word text : Bytes} {s : Nat} :
    occursAt ignoreCase word text s = true ↔ Occurs ignoreCase word text s := by
  rw [occursAt, Bool.and_eq_true, decide_eq_true_eq, occursFrom_iff, Occurs]
  exact ⟨fun h => ⟨h.1, fun i hi => h.2 i (Nat.zero_le i) hi⟩,
    fun h => ⟨h.1, fun i _ hi => h.2 i hi⟩⟩

theorem le_of_firstOccurrence? {scan : ByteScan} {ignoreCase : Bool} {word text : Bytes}
    {s t : Nat} (h : firstOccurrence? scan ignoreCase word text s = some t) : s ≤ t := by
  have hscan : ∀ head s, firstFrom? scan ignoreCase word text head s = some t → s ≤ t := by
    intro head s h
    fun_induction firstFrom? scan ignoreCase word text head s with
    | case1 => simp at h
    | case2 s _ hit _ _ =>
      simp only [Option.some.injEq] at h
      omega
    | case3 s _ hit _ _ ih =>
      have hle := ih h
      omega
    | case4 => simp at h
  unfold firstOccurrence? at h
  split at h
  · simp_all
  · exact hscan _ s h

theorem lastOccurrence?_le {scan : ByteScan} {ignoreCase : Bool} {word text : Bytes}
    {s t : Nat} (h : lastOccurrence? scan ignoreCase word text s = some t) : t ≤ s := by
  have hscan : ∀ head stop, lastBelow? scan ignoreCase word text head stop = some t →
      t < stop := by
    intro head stop h
    fun_induction lastBelow? scan ignoreCase word text head stop with
    | case2 stop _ hit _ hlt _ => simp_all
    | case3 stop _ hit _ hlt _ ih => exact Nat.lt_trans (ih h) hlt
    | _ => simp at h
  unfold lastOccurrence? at h
  split at h
  · simp at h
  · split at h
    · simp only [Option.some.injEq] at h
      omega
    · have hlt := hscan _ _ h
      omega

end Literal

end ByteRegex
