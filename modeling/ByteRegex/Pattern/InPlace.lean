import ByteRegex.Pattern.Bracket
import ByteRegex.Pattern.Interval

/-!
# The Lexer in Place

A scanner sees what is left of the pattern and cannot look elsewhere. The lexer that works in
place has the whole pattern and a cursor, and nothing holds it back: it looks bytes up by
their index, cuts slices out by their ends, moves the cursor as far as it likes and
subtracts from it.

So it can go astray. An index or the end of a slice may be out of range, the ends of a slice
may be the wrong way round, there may be nothing in front of an offset, and a loop may come
back to where it has been. A walk that goes astray has no outcome. All others end with a
value or an error, and either way the cursor stands somewhere.

A named class is where the walk is least careful. Whether one opens here is decided by the
first closing bracket and the byte in front of it, and the class is then read up to its
first colon, and one byte further without a look.

## Main definitions

* `Walk`: What is done with a cursor.
* `byteAt`, `slice`, `before`: The steps that may go astray.
* `digitsFrom`: Digits, read one after the other.
* `escapeValue`: The byte of an escape.
* `opensNamedClass`, `namedClass`: A named class, recognised and read.
* `bracketItems`: The loop through the items of a bracket expression.
* `bracketSet`: A bracket expression.
* `interval`: An interval.
-/

namespace ByteRegex

namespace Pattern

namespace InPlace

/-- A walk along a pattern takes a cursor and ends with a value or an error and the cursor
    behind it. It has no outcome if it goes astray. -/
abbrev Walk (α : Type) : Type := ExceptT PatternError (StateT Nat (ReaderT Bytes Option)) α

def astray {α : Type} : Walk α := fun _ _ => none

/-- The byte at the cursor, if there is one. -/
def peek : Walk (Option UInt8) := do
  let pattern ← read
  let p ← get
  return pattern[p]?

/-- Moves the cursor on, also past the end. -/
def advance (n : Nat) : Walk Unit := modify (· + n)

/-- The byte at the cursor, used if there is one. -/
def fetch : Walk (Option UInt8) := do
  match ← peek with
  | none => return none
  | some c =>
    advance 1
    return some c

/-- Uses the byte at the cursor if it passes a test, and tells whether it did. -/
def acceptsIf (test : UInt8 → Bool) : Walk Bool := do
  if (← peek).any test then
    advance 1
    return true
  else return false

/-- The byte at an index, which has to be there. -/
def byteAt (i : Nat) : Walk UInt8 := do
  match (← read)[i]? with
  | some c => return c
  | none => astray

/-- The bytes between two ends, which have to be in order and in the pattern. -/
def slice (start stop : Nat) : Walk (List UInt8) := do
  let pattern ← read
  if start ≤ stop ∧ stop ≤ pattern.size then return (pattern.extract start stop).toList
  else astray

/-- The bytes from `start` on. -/
def sliceFrom (start : Nat) : Walk (List UInt8) := do
  let pattern ← read
  slice start pattern.size

/-- The offset in front of another one. -/
def before (offset : Nat) : Walk Nat :=
  if offset = 0 then astray else return offset - 1

/-- The digits from the cursor on, up to a limit if there is one, and the cursor behind
    them. -/
def digitsFrom (base : Nat) (limit : Option Nat) (pattern : Bytes) (p : Nat) : List Nat × Nat :=
  if limit = some 0 then ([], p)
  else if p < pattern.size then
    match (pattern[p]?).bind (Byte.digitValue? base) with
    | none => ([], p)
    | some v =>
      let (ds, q) := digitsFrom base (limit.map (· - 1)) pattern (p + 1)
      (v :: ds, q)
  else ([], p)
  termination_by pattern.size - p

/-- Uses the digits at the cursor. -/
def digits (base : Nat) (limit : Option Nat) : Walk (List Nat) := do
  let pattern ← read
  let p ← get
  let (ds, q) := digitsFrom base limit pattern p
  set q
  return ds

/-- A number of at least `least` digits, read as far as the limit allows. -/
def boundedNumber (base least : Nat) (limit : Option Nat) : Walk (Option Nat) := do
  let ds ← digits base limit
  return if least ≤ ds.length then some (cappedValueOf base ds) else none

/-- A decimal number of any length. -/
def number : Walk (Option Nat) := boundedNumber 10 1 none

/-- A number that has to be there. -/
def requiredNumber (base most escapeAt : Nat) : Walk Nat := do
  match ← boundedNumber base 1 (some most) with
  | some code => return code
  | none => throw ⟨.badEscape, escapeAt⟩

/-- A number of at most eleven digits and the brace that closes it. -/
def bracedNumber (base escapeAt : Nat) : Walk Nat := do
  let code ← requiredNumber base 11 escapeAt
  let close ← fetch
  if close.any (Byte.is '\x7D') then return code
  else throw ⟨.badEscape, escapeAt⟩

/-- The code that an escape letter introduces, if it introduces one. -/
def escapeCode (letter : UInt8) (escapeAt : Nat) : Walk (Option Nat) := do
  match Byte.char letter with
  | 'x' =>
    if ← acceptsIf (Byte.is '\x7B') then return some (← bracedNumber 16 escapeAt)
    else return some (← requiredNumber 16 2 escapeAt)
  | 'X' => return some (← requiredNumber 16 4 escapeAt)
  | 'o' =>
    let brace ← fetch
    if brace.any (Byte.is '\x7B') then return some (← bracedNumber 8 escapeAt)
    else throw ⟨.badEscape, escapeAt⟩
  | '0' => boundedNumber 8 0 (some 3)
  | _ =>
    if Byte.isDigit letter then
      let tail ← digits 10 (some 2)
      return some (valueOf 10 ((letter.toNat - 0x30) :: tail))
    else return none

/-- The byte of an escape whose letter has been read. -/
def escapeValue (letter : UInt8) (escapeAt : Nat) : Walk (Option UInt8) := do
  match controlEscape? letter with
  | some c => return some c
  | none => return (← escapeCode letter escapeAt).map cappedByte

/-- Reads one member of a bracket expression. -/
def bracketMember (d : Dialect) (openAt : Nat) : Walk Member := do
  let start ← get
  match ← fetch with
  | none => throw ⟨.unmatchedBracket, openAt⟩
  | some c =>
    if Byte.is '\\' c then
      match ← fetch with
      | none => throw ⟨.badEscape, start⟩
      | some letter =>
        match if d.has .classShorthands then classShorthand? letter else none with
        | some s => return .set s
        | none => return .byte ((← escapeValue letter start).getD letter)
    else return .byte c

/-- Whether a named class opens with the bracket in front of `p`: there is a colon at `p`,
    and one in front of the first closing bracket, with something between them. -/
def opensNamedClass (p : Nat) : Walk Bool := do
  let pattern ← read
  if (pattern[p]?).any (Byte.is ':') then
    match (← sliceFrom (p + 1)).findIdx? (Byte.is ']') with
    | some i => if 1 < i then return Byte.is ':' (← byteAt (p + i)) else return false
    | none => return false
  else return false

/-- Reads a named class whose bracket has been used. The byte behind the colon that ends the
    name is skipped. -/
def namedClass : Walk ByteSet := do
  let openAt ← before (← get)
  advance 1
  let start ← get
  match (← sliceFrom start).findIdx? (Byte.is ':') with
  | none => throw ⟨.invalidClassName, openAt⟩
  | some i =>
    match CharClass.ofSpelling? (← slice start (start + i)) with
    | none => throw ⟨.invalidClassName, openAt⟩
    | some k =>
      set (start + i + 2)
      return k.members

/-- Whether a hyphen and something other than the closing bracket stand at the cursor. -/
def continuesRange : Walk Bool := do
  let pattern ← read
  let p ← get
  return (pattern[p]?).any (Byte.is '-') && (pattern[p + 1]?).any fun c => !Byte.is ']' c

/-- Reads a byte, a range or a class shorthand. -/
def bracketRange (d : Dialect) (openAt : Nat) : Walk ByteSet := do
  let start ← get
  match ← bracketMember d openAt with
  | .set s => return s
  | .byte low =>
    if ← continuesRange then
      advance 1
      match ← bracketMember d openAt with
      | .set _ => throw ⟨.invalidRange, start⟩
      | .byte high =>
        if high < low then throw ⟨.invalidRange, start⟩
        else return ByteSet.range low.toNat high.toNat
    else return ByteSet.singleton low

/-- Whether a named class opens at the cursor. -/
def atNamedClass : Walk Bool := do
  let p ← get
  if (← peek).any (Byte.is '[') then opensNamedClass (p + 1) else return false

/-- Reads one item of the list. -/
def bracketItem (d : Dialect) (openAt : Nat) : Walk ByteSet := do
  if ← atNamedClass then
    advance 1
    namedClass
  else bracketRange d openAt

/-- Reads items up to the closing bracket. An item that leaves the cursor where it was would
    be read forever. -/
def bracketItems (d : Dialect) (openAt : Nat) (s : ByteSet) (p : Nat) (pattern : Bytes) :
    Option (Except PatternError ByteSet × Nat) :=
  if p < pattern.size then
    if (pattern[p]?).any (Byte.is ']') then some (.ok s, p + 1)
    else
      match bracketItem d openAt p pattern with
      | none => none
      | some (.error e, q) => some (.error e, q)
      | some (.ok t, q) => if p < q then bracketItems d openAt (s ∪ t) q pattern else none
  else some (.error ⟨.unmatchedBracket, openAt⟩, p)
  termination_by pattern.size - p

/-- Reads a bracket expression whose opening bracket has just been read. -/
def bracketSet (d : Dialect) (ignoreCase : Bool) : Walk ByteSet := do
  let openAt ← before (← get)
  let negated ← acceptsIf fun c => Byte.is '^' c || Byte.is '~' c
  let leading ← acceptsIf (Byte.is ']')
  let listed ← bracketItems d openAt (if leading then ByteSet.singleton 0x5D else ∅)
  let closed := if ignoreCase then listed.caseClosure else listed
  return if negated then closed.complement else closed

/-- Reads the bounds of an interval as written. -/
def intervalBounds (openAt : Nat) : Walk (Option Nat × Option Nat) := do
  let low ← number
  if ← acceptsIf (Byte.is ',') then
    let high ← number
    if low.isNone && high.isNone then throw ⟨.invalidInterval, openAt⟩
    else return (low, high)
  else if low.isNone then throw ⟨.invalidInterval, openAt⟩
  else return (low, low)

/-- Reads an interval whose opening brace has just been read. -/
def interval : Walk (Nat × Option Nat) := do
  let openAt ← before (← get)
  let (low, high) ← intervalBounds openAt
  let low := low.getD 0
  match ← fetch with
  | none => throw ⟨.unmatchedBrace, openAt⟩
  | some c =>
    if !Byte.is '\x7D' c then throw ⟨.invalidInterval, openAt⟩
    else if maxRepeat < low || high.any (fun h => maxRepeat < h || h < low) then
      throw ⟨.invalidInterval, openAt⟩
    else return (low, high)

end InPlace

end Pattern

end ByteRegex
