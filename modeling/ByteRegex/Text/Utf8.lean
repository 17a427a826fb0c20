import ByteRegex.Byte

/-!
# UTF-8

Reading bytes as text. The library itself works on bytes, so text is made only
where bytes are shown to a person: in listings, in log records and in the
results of a replacement.

A lead byte fixes how many continuation bytes must follow and how the first of
them is restricted; the restriction is what keeps overlong forms, surrogates
and code points past the last one out. `decode` reads one character after
another. Where the bytes stop being a prefix of any character, the bytes read
so far make one malformed piece, and reading goes on after it: the piece is as
long as it can be, so a byte that might start a character is never lost.

`lossy` shows every malformed piece as the replacement character, and `strict?`
refuses a text that has one.

## Main definitions

* `Utf8.Lead`: What a lead byte promises.
* `Utf8.decode`: The characters of a byte sequence, malformed pieces as `none`.
* `Utf8.lossy`: The text with malformed pieces replaced.
* `Utf8.strict?`: The text, if nothing in it is malformed.
-/

namespace ByteRegex

namespace Utf8

/-- What a lead byte promises: the number of continuation bytes, the range of
    the first of them, and the leading bits of the code point. -/
structure Lead where
  count : Nat
  low : UInt8
  high : UInt8
  bits : Nat

/-- The promise of a byte that can start a character. -/
def lead? (b : UInt8) : Option Lead :=
  if b < 0x80 then some ⟨0, 0x80, 0xBF, b.toNat⟩
  else if b < 0xC2 then none
  else if b < 0xE0 then some ⟨1, 0x80, 0xBF, b.toNat - 0xC0⟩
  else if b = 0xE0 then some ⟨2, 0xA0, 0xBF, 0⟩
  else if b = 0xED then some ⟨2, 0x80, 0x9F, 0xD⟩
  else if b < 0xF0 then some ⟨2, 0x80, 0xBF, b.toNat - 0xE0⟩
  else if b = 0xF0 then some ⟨3, 0x90, 0xBF, 0⟩
  else if b < 0xF4 then some ⟨3, 0x80, 0xBF, b.toNat - 0xF0⟩
  else if b = 0xF4 then some ⟨3, 0x80, 0x8F, 4⟩
  else none

/-- Reads `count` continuation bytes, the first of them from `low` to `high`,
    and appends their bits to `bits`. The result tells how many bytes fitted,
    and the code point if all of them did. -/
def continuation : (count : Nat) → (low high : UInt8) → (bits : Nat) → List UInt8 →
    Nat × Option Nat
  | 0, _, _, bits, _ => (0, some bits)
  | _ + 1, _, _, _, [] => (0, none)
  | count + 1, low, high, bits, b :: rest =>
    if low ≤ b && b ≤ high then
      let (used, point) := continuation count 0x80 0xBF (bits * 64 + b.toNat % 64) rest
      (used + 1, point)
    else (0, none)

/-- Reads the character that starts with `b`: how many bytes after `b` belong to
    it, and the character, or `none` for a malformed piece. -/
def character (b : UInt8) (rest : List UInt8) : Nat × Option Char :=
  match lead? b with
  | none => (0, none)
  | some l =>
    let (used, point) := continuation l.count l.low l.high l.bits rest
    (used, point.map Char.ofNat)

/-- The characters of a byte sequence; each malformed piece gives one `none`. -/
def decode : List UInt8 → List (Option Char)
  | [] => []
  | b :: rest => (character b rest).2 :: decode (rest.drop (character b rest).1)
  termination_by bytes => bytes.length
  decreasing_by simp only [List.length_drop, List.length_cons]; omega

/-- The replacement character, which stands for a malformed piece. -/
def replacement : Char := Char.ofNat 0xFFFD

/-- The text with each malformed piece shown as the replacement character. -/
def lossy (bytes : Bytes) : String :=
  String.ofList ((decode bytes.toList).map fun c => c.getD replacement)

/-- The text, unless a piece of it is malformed. -/
def strict? (bytes : Bytes) : Option String :=
  let chars := decode bytes.toList
  if chars.all Option.isSome then some (String.ofList chars.reduceOption) else none

end Utf8

end ByteRegex
