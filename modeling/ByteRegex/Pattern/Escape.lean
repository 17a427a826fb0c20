import ByteRegex.ByteSet
import ByteRegex.Dialect
import ByteRegex.Pattern.Scan

/-!
# Escapes

What a backslash and the bytes after it stand for. Six letters stand for
control bytes. A number names a byte by its code: in hexadecimal after `x` or
`X`, in octal after `o` or a leading zero, in decimal after any other digit. A
code above 255 names byte 255. Three letters, where the dialect has them, stand
for the classes of digits, word bytes and spaces, and their capitals for the
rest of the bytes.

Any other byte after a backslash introduces no value, and the reader who meets
it decides what it means; mostly it stands for itself.

## Main definitions

* `controlEscape?`: The control byte of an escape letter.
* `escapeValue`: The byte of an escape whose letter has been read.
* `classShorthand?`: The class of a shorthand letter.
-/

namespace ByteRegex

namespace Pattern

/-- The control bytes that have an escape letter. -/
def controlEscape? (letter : UInt8) : Option UInt8 :=
  match Byte.char letter with
  | 'e' => some 0x1B
  | 'f' => some 0x0C
  | 'n' => some 0x0A
  | 'r' => some 0x0D
  | 't' => some 0x09
  | 'v' => some 0x0B
  | _ => none

/-- The byte with the given code, or the last byte for a code past it. -/
def cappedByte (code : Nat) : UInt8 := UInt8.ofNat (min code 0xFF)

/-- A number that has to be there; the escape at `escapeAt` is to blame when it
    is not. -/
def requiredNumber (base most escapeAt : Nat) : Scan Nat := do
  match ← Scan.boundedNumber base 1 most with
  | some code => return code
  | none => Scan.fail .badEscape escapeAt

/-- A number of at most eleven digits and the brace that closes it; the opening
    brace has been read. -/
def bracedNumber (base escapeAt : Nat) : Scan Nat := do
  let code ← requiredNumber base 11 escapeAt
  let close ← Scan.fetch
  if close.any (Byte.is '}') then return code
  else Scan.fail .badEscape escapeAt

/-- The code that an escape letter introduces, if it introduces one. -/
def escapeCode (letter : UInt8) (escapeAt : Nat) : Scan (Option Nat) := do
  match Byte.char letter with
  | 'x' =>
    if ← Scan.accepts '{' then return some (← bracedNumber 16 escapeAt)
    else return some (← requiredNumber 16 2 escapeAt)
  | 'X' => return some (← requiredNumber 16 4 escapeAt)
  | 'o' =>
    let brace ← Scan.fetch
    if brace.any (Byte.is '{') then return some (← bracedNumber 8 escapeAt)
    else Scan.fail .badEscape escapeAt
  | '0' => Scan.boundedNumber 8 0 3
  | _ =>
    if Byte.isDigit letter then
      let tail ← Scan.digits 10 2
      return some (valueOf 10 ((letter.toNat - 0x30) :: tail))
    else return none

/-- The byte of an escape whose letter has been read. There is none when the
    letter introduces no value. -/
def escapeValue (letter : UInt8) (escapeAt : Nat) : Scan (Option UInt8) := do
  match controlEscape? letter with
  | some c => return some c
  | none => return (← escapeCode letter escapeAt).map cappedByte

/-- The class that a shorthand letter stands for; a capital letter stands for
    the complement. -/
def classShorthand? (letter : UInt8) : Option ByteSet :=
  match Byte.char letter with
  | 'd' => some CharClass.digit.members
  | 'w' => some CharClass.word.members
  | 's' => some CharClass.space.members
  | 'D' => some CharClass.digit.members.complement
  | 'W' => some CharClass.word.members.complement
  | 'S' => some CharClass.space.members.complement
  | _ => none

end Pattern

end ByteRegex
