import ByteRegex.Text.Unprintable

/-!
# Quoted Text

How a text is shown inside a listing or a log record: between double quotes,
with a backslash before a double quote or a backslash, with a short escape for
the five controls that have one, and with the code point in hexadecimal digits
for every other character that is not printed. A single quote needs no escape.

## Main definitions

* `Text.escape`: One character as it stands between the quotes.
* `Text.quoted`: The text between double quotes.
-/

namespace ByteRegex

namespace Text

/-- The digits of a number in lower-case hexadecimal, without leading zeros. -/
def hexDigits (n : Nat) : List Char := Nat.toDigits 16 n

/-- One character as it stands between the quotes. -/
def escape (c : Char) : List Char :=
  match c with
  | '\x00' => ['\\', '0']
  | '\t' => ['\\', 't']
  | '\r' => ['\\', 'r']
  | '\n' => ['\\', 'n']
  | '\\' => ['\\', '\\']
  | '"' => ['\\', '"']
  | c =>
    if isUnprintable c then ['\\', 'u', '{'] ++ hexDigits c.toNat ++ ['}'] else [c]

/-- The text between double quotes. -/
def quoted (s : String) : String :=
  String.ofList ('"' :: s.toList.flatMap escape ++ ['"'])

end Text

end ByteRegex
