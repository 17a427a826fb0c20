import ByteRegex.Machine.Run

/-!
# Where a Match Can Start

A search does not have to run the program at every position. What the program
starts with decides where a match can start at all: where a word stands, or
where a line begins. `nextStart?` gives the first such position from a position
on and `previousStart?` the last one up to it, so the search can move from one
to the next.

With nothing known about the program, or when the caller asks for every
position, each position can start a match.

## Main definitions

* `nextLineBegin?`: The first begin of a later line from a position on.
* `lastLineBegin?`: The last begin of a later line up to a position.
* `nextStart?`, `previousStart?`: The nearest position where a match can start.

## Theorems

* `le_of_nextStart?`: The next start is not before the position.
* `previousStart?_le`: The previous start is not after the position.
-/

namespace ByteRegex

namespace Machine

/-- The first position from `pos` on that stands behind a line feed. -/
def nextLineBegin? (scan : ExactScan) (text : Bytes) (pos : Nat) : Option Nat :=
  let start := pos - 1
  (scan.first? Byte.lineFeed (text.extract start text.size)).map (start + · + 1)

/-- The last position up to `pos` that stands behind a line feed. -/
def lastLineBegin? (scan : ExactScan) (text : Bytes) (pos : Nat) : Option Nat :=
  (scan.last? Byte.lineFeed (text.extract 0 pos)).map (· + 1)

/-- The first position from `pos` on where a match can start. -/
def nextStart? (env : Env) (pos : Nat) : Option Nat :=
  if env.flags.everyPosition then some pos
  else
    match env.program.strategy with
    | .everywhere => some pos
    | .literal _ word table =>
      Literal.nextOccurrence? env.scan.toByteScan env.ignoreCase word table env.text pos
    | .lineBegin =>
      if pos = 0 ∧ env.flags.notLineBegin = false then some 0
      else if env.multiline then nextLineBegin? env.scan env.text pos
      else none

/-- The last position up to `pos` where a match can start. -/
def previousStart? (env : Env) (pos : Nat) : Option Nat :=
  if env.flags.everyPosition then some pos
  else
    match env.program.strategy with
    | .everywhere => some pos
    | .literal _ word _ =>
      Literal.lastOccurrence? env.scan.toByteScan env.ignoreCase word env.text pos
    | .lineBegin =>
      match if env.multiline then lastLineBegin? env.scan env.text pos else none with
      | some s => some s
      | none => if env.flags.notLineBegin then none else some 0

-- What stands behind a line feed of the stretch is not behind the stretch.
theorem lastLineBegin?_le {scan : ExactScan} {text : Bytes} {pos s : Nat}
    (h : lastLineBegin? scan text pos = some s) : s ≤ pos := by
  rcases Option.map_eq_some_iff.1 h with ⟨i, hi, rfl⟩
  have hlast := scan.exact.last Byte.lineFeed (text.extract 0 pos)
  rw [hi] at hlast
  have hlt := (Array.getElem?_eq_some_iff.1 hlast.2.1).1
  rw [Array.size_extract] at hlt
  omega

theorem le_of_nextStart? {env : Env} {pos s : Nat} (h : nextStart? env pos = some s) :
    pos ≤ s := by
  unfold nextStart? at h
  split at h
  · simp_all
  · split at h
    · simp_all
    · exact Literal.le_of_nextOccurrence? h
    · split at h
      · simp_all
      · split at h
        · rcases Option.map_eq_some_iff.1 h with ⟨i, _, rfl⟩
          omega
        · simp at h

theorem previousStart?_le {env : Env} {pos s : Nat} (h : previousStart? env pos = some s) :
    s ≤ pos := by
  unfold previousStart? at h
  split at h
  · simp_all
  · split at h
    · simp_all
    · exact Literal.lastOccurrence?_le h
    · split at h
      · rename_i s' hs
        split at hs
        · rw [← Option.some.inj h]
          exact lastLineBegin?_le hs
        · simp at hs
      · split at h
        · simp at h
        · rw [← Option.some.inj h]
          exact Nat.zero_le pos

end Machine

end ByteRegex
