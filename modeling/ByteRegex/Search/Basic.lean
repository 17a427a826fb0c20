import ByteRegex.Search.Start

/-!
# Searching

A search runs the program at one position after another until it matches: from
the offset to the end of the text, or from the offset back to its begin. Only the
positions where a match can start are tried. An anchored search tries the offset
alone.

An offset behind the end of the text leaves nothing to search forward; a
backward search then begins at the end.

How bytes are looked for is a parameter of a search. Unless it is given, the search looks
at one byte after the other.

## Main definitions

* `Match`: What a successful search found.
* `matchAt`: The match that starts at a position.
* `searchForward`, `searchBackward`: The first match in a direction.
* `Program.search`: A search with all its options.
-/

namespace ByteRegex

/-- What a successful search found, as offsets in the text. -/
structure Match where
  start : Nat
  stop : Nat
  /-- The span of each group that took part, that of the whole match included. -/
  groups : Vector (Option Span) slots
  /-- The highest group that has closed, or zero. -/
  highest : Nat
  /-- The position that the cursor mark recorded. -/
  cursor : Option Nat
  deriving DecidableEq, Repr

namespace Match

/-- The span of a group, if the group exists and took part. -/
def group? (m : Match) (n : Nat) : Option Span := (m.groups[n]?).join

def span (m : Match) : Span := ⟨m.start, m.stop⟩

def length (m : Match) : Nat := m.stop - m.start

def isEmpty (m : Match) : Bool := m.start == m.stop

/-- Where to look for the next match: behind this one, and one byte further on
    if this one is empty, so that it is not found again. -/
def resume (m : Match) : Nat := if m.isEmpty then m.stop + 1 else m.stop

end Match

namespace Machine

/-- The match that starts at a position. -/
def matchAt (env : Env) (pos : Nat) : Option Match :=
  match Machine.start env pos with
  | .matched stop st =>
    some {
      start := pos
      stop := stop
      groups := st.registers.closed.set 0 (some ⟨pos, stop⟩)
      highest := st.registers.highest
      cursor := st.registers.cursor }
  | .failed _ => none
  | .fault _ => none

/-- The match with the first start from `pos` on. -/
def searchForward (env : Env) (pos : Nat) : Option Match :=
  if pos ≤ env.text.size then
    match _h : nextStart? env pos with
    | none => none
    | some s =>
      match matchAt env s with
      | some m => some m
      | none => searchForward env (s + 1)
  else none
  termination_by env.text.size + 1 - pos
  decreasing_by
    have := le_of_nextStart? _h
    omega

/-- The match with the last start up to `pos`. -/
def searchBackward (env : Env) (pos : Nat) : Option Match :=
  match _h : previousStart? env pos with
  | none => none
  | some s =>
    match matchAt env s with
    | some m => some m
    | none => if 0 < s then searchBackward env (s - 1) else none
  termination_by pos
  decreasing_by
    have := previousStart?_le _h
    omega

end Machine

/-- Searches a text from an offset. -/
def Program.search (p : Program) (text : Bytes) (offset : Nat) (options : SearchOptions)
    (scan : ExactScan := .walk) : Option Match :=
  let env : Machine.Env := ⟨p, text, options.flags, scan⟩
  let direction := options.direction.getD
    (if p.options.flags.backward then .backward else .forward)
  match direction with
  | .backward =>
    let pos := min offset text.size
    if options.flags.anchored then Machine.matchAt env pos else Machine.searchBackward env pos
  | .forward =>
    if options.flags.anchored then
      if offset ≤ text.size then Machine.matchAt env offset else none
    else Machine.searchForward env offset

end ByteRegex
