import ByteRegex.Pattern.Escape

/-!
# Bracket Expressions

A bracket expression spells a set of bytes by listing its members: bytes,
escapes, ranges and named classes. A caret or a tilde in front asks for the
bytes that are not listed. A closing bracket in first place is a member, so the
expression ends at the next one.

A named class is recognised by its end. The scanner looks ahead to the first
closing bracket, and `[:` opens a named class when a colon stands just before
that bracket and something stands between the colons. The name itself is what
precedes the first colon, and reading goes on two bytes after it; for a
name without colons that is the byte after the closing bracket.

A hyphen makes a range of the bytes on its sides unless it stands last. Its
right end may not be a class, nor sort before its left end.

When letter case is ignored the listed set is closed under it first, and only
then complemented.

## Main definitions

* `opensNamedClass`: Whether a named class starts here.
* `Member`: A member as it is written: a byte or a set.
* `bracketMember`: Reads one member.
* `bracketItem`: Reads one item of the list, a range included.
* `bracketItems`: Reads items up to the closing bracket.
* `bracketSet`: Reads a bracket expression after its opening bracket.
-/

namespace ByteRegex

namespace Pattern

/-- Whether the bytes start with `[:`, and the first closing bracket after that
    has a colon just before it which is not the first thing after `[:`. -/
def opensNamedClass : List UInt8 → Bool
  | bracket :: colon :: rest =>
    let inner := rest.takeWhile fun c => !Byte.is ']' c
    Byte.is '[' bracket && Byte.is ':' colon && inner.length < rest.length &&
      2 ≤ inner.length && inner.getLast?.any (Byte.is ':')
  | _ => false

/-- A member of a bracket expression as it is written. -/
inductive Member where
  /-- A byte, which may start or end a range. -/
  | byte (c : UInt8)
  /-- A class shorthand. -/
  | set (s : ByteSet)

/-- Reads one member. Where the input ends, the bracket at `openAt` is not
    closed. -/
def bracketMember (d : Dialect) (openAt : Nat) : Scan Member := do
  let start ← Scan.here
  match ← Scan.fetch with
  | none => Scan.fail .unmatchedBracket openAt
  | some c =>
    if Byte.is '\\' c then
      match ← Scan.fetch with
      | none => Scan.fail .badEscape start
      | some letter =>
        match if d.has .classShorthands then classShorthand? letter else none with
        | some s => return .set s
        | none => return .byte ((← escapeValue letter start).getD letter)
    else return .byte c

/-- Reads a named class, standing at its opening bracket. -/
def namedClass : Scan ByteSet := fun offset input =>
  let inner := input.drop 2
  let name := inner.takeWhile fun c => !Byte.is ':' c
  match CharClass.ofSpelling? name with
  | some k =>
    -- The four bytes are `[:`, the colon and the byte after it.
    if name.length < inner.length then ⟨name.length + 4, .ok k.members⟩
    else ⟨2, .error ⟨.invalidClassName, offset⟩⟩
  | none => ⟨2, .error ⟨.invalidClassName, offset⟩⟩

/-- Whether the bytes go on as the right part of a range: a hyphen, and after it
    something other than the closing bracket. -/
def continuesRange : List UInt8 → Bool
  | hyphen :: next :: _ => Byte.is '-' hyphen && !Byte.is ']' next
  | _ => false

/-- Reads a byte, a range or a class shorthand. -/
def bracketRange (d : Dialect) (openAt : Nat) : Scan ByteSet := do
  let start ← Scan.here
  match ← bracketMember d openAt with
  | .set s => return s
  | .byte low =>
    if ← Scan.ahead continuesRange then
      Scan.skip 1
      match ← bracketMember d openAt with
      | .set _ => Scan.fail .invalidRange start
      | .byte high =>
        if high < low then Scan.fail .invalidRange start
        else return ByteSet.range low.toNat high.toNat
    else return ByteSet.singleton low

/-- Reads one item of the list: a named class, or what `bracketRange` reads. -/
def bracketItem (d : Dialect) (openAt : Nat) : Scan ByteSet := fun offset input =>
  if opensNamedClass input then namedClass offset input
  else bracketRange d openAt offset input

/-- Reads items up to the closing bracket and adds their bytes to `s`. -/
def bracketItems (d : Dialect) (openAt : Nat) (s : ByteSet) : Scan ByteSet
  | _, [] => ⟨0, .error ⟨.unmatchedBracket, openAt⟩⟩
  | offset, c :: rest =>
    if Byte.is ']' c then ⟨1, .ok s⟩
    else
      match bracketItem d openAt offset (c :: rest) with
      | ⟨used, .error e⟩ => ⟨used, .error e⟩
      | ⟨used, .ok t⟩ =>
        let more := bracketItems d openAt (s ∪ t) (offset + used) (rest.drop (used - 1))
        ⟨used + more.used, more.value⟩
  termination_by _ input => input.length
  decreasing_by simp only [List.length_drop, List.length_cons]; omega

/-- Reads a bracket expression whose opening bracket has just been read. -/
def bracketSet (d : Dialect) (ignoreCase : Bool) : Scan ByteSet := do
  let openAt := (← Scan.here) - 1
  let negated ← Scan.acceptsIf fun c => Byte.is '^' c || Byte.is '~' c
  let leading ← Scan.accepts ']'
  let listed ← bracketItems d openAt (if leading then ByteSet.singleton 0x5D else ∅)
  let closed := if ignoreCase then listed.caseClosure else listed
  return if negated then closed.complement else closed

end Pattern

end ByteRegex
