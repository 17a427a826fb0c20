import ByteRegex.Byte
import ByteRegex.PatternError

/-!
# Scanning a Pattern

The pieces of a pattern are read by scanners. A scanner stands at an offset,
sees the bytes from there on, and answers how many of them it used together
with a value or an error. It cannot move back, and it holds no position of its
own: the offset only serves to say where an error is. What a scanner sees after
another is the input less what the first one used, so the place of every byte
is accounted for, also when the scan fails.

Two scanners are joined by `bind`, and the law to keep in mind is that uses add
up. `InBounds` states that a scanner never uses more bytes than there are; the
lemmas below show it for the basic scanners and for `bind`, so it holds of
every scanner built from them.

Digits are read greedily, and the number they spell is capped at the largest
number of 32 bits. No bound that a pattern can state comes near it.

## Main definitions

* `Scanned`: How many bytes a scanner used, and its value or error.
* `Scan`: A scanner.
* `Scan.fetch`, `Scan.skip`: The next bytes, used.
* `Scan.ahead`, `Scan.acceptsIf`: The next bytes, tested.
* `Scan.InBounds`: A scanner uses only bytes that are there.
* `digits`: The values of the digits at the front of a byte sequence.
* `cappedValueOf`: The number that digits spell, capped on the way.
* `Scan.number`: A decimal number.
* `Scan.boundedNumber`: A number of a limited count of digits.

## Theorems

* `cappedValueOf_eq`: To cap on the way is to cap the result.
* `inBounds_bind`: Scanners in bounds compose.
* `inBounds_digits`: Reading digits stays in bounds.
-/

namespace ByteRegex

namespace Pattern

/-- The outcome of a scan: how many bytes were used, and a value or an error. -/
structure Scanned (α : Type) where
  used : Nat
  value : Except PatternError α

/-- A scanner takes its offset in the pattern and the bytes from there on. -/
def Scan (α : Type) : Type := Nat → List UInt8 → Scanned α

namespace Scan

/-- The value `a`, using nothing. -/
def pure {α : Type} (a : α) : Scan α := fun _ _ => ⟨0, .ok a⟩

/-- The second scanner goes on where the first one stopped. -/
def bind {α β : Type} (x : Scan α) (f : α → Scan β) : Scan β := fun offset input =>
  match x offset input with
  | ⟨used, .error e⟩ => ⟨used, .error e⟩
  | ⟨used, .ok a⟩ =>
    let rest := f a (offset + used) (input.drop used)
    ⟨used + rest.used, rest.value⟩

instance : Monad Scan where
  pure := pure
  bind := bind

/-- The offset at which the scanner stands. -/
def here : Scan Nat := fun offset _ => ⟨0, .ok offset⟩

/-- The next byte, used if there is one. -/
def fetch : Scan (Option UInt8) := fun _ input => ⟨min 1 input.length, .ok input.head?⟩

/-- Uses the next bytes, as many as asked for and there. -/
def skip (n : Nat) : Scan Unit := fun _ input => ⟨min n input.length, .ok ()⟩

/-- Fails, blaming the construct at the given offset. -/
def fail {α : Type} (cause : PatternError.Cause) (offset : Nat) : Scan α :=
  fun _ _ => ⟨0, .error ⟨cause, offset⟩⟩

/-- Whether the bytes from here on pass a test; none is used. -/
def ahead (test : List UInt8 → Bool) : Scan Bool := fun _ input => ⟨0, .ok (test input)⟩

/-- Uses the next byte if it passes a test, and tells whether it did. -/
def acceptsIf (test : UInt8 → Bool) : Scan Bool := fun _ input =>
  if input.head?.any test then ⟨1, .ok true⟩ else ⟨0, .ok false⟩

/-- Uses the next byte if it is the given character, and tells whether it was. -/
def accepts (ch : Char) : Scan Bool := acceptsIf (Byte.is ch)

/-- Runs a scanner that stands at an offset of a pattern. -/
def runAt {α : Type} (x : Scan α) (pattern : Bytes) (offset : Nat) : Scanned α :=
  x offset (pattern.toList.drop offset)

/-- A scanner never uses bytes that are not there. -/
def InBounds {α : Type} (x : Scan α) : Prop :=
  ∀ offset input, (x offset input).used ≤ input.length

end Scan

/-- The values of the digits at the front of a byte sequence. -/
def digits (base : Nat) : List UInt8 → List Nat
  | [] => []
  | c :: rest =>
    match Byte.digitValue? base c with
    | some v => v :: digits base rest
    | none => []

/-- The number that digits spell, most significant digit first. -/
def valueOf (base : Nat) (ds : List Nat) : Nat := ds.foldl (fun n d => n * base + d) 0

/-- The largest number of 32 bits, to which larger ones are capped. -/
def maxNumber : Nat := 0xFFFFFFFF

/-- The number that digits spell, as far as 32 bits can hold it: digit by digit, with
    the product and the sum each stopping at the largest number. -/
def cappedValueOf (base : Nat) (ds : List Nat) : Nat :=
  ds.foldl (fun n d => min (min (n * base) maxNumber + d) maxNumber) 0

/-- To stop at the largest number on the way is to cap the result. -/
theorem cappedValueOf_eq (base : Nat) (ds : List Nat) :
    cappedValueOf base ds = min (valueOf base ds) maxNumber := by
  -- A number that has stopped stays there, if the base is not zero.
  have hstep (n d : Nat) : min (min (min n maxNumber * base) maxNumber + d) maxNumber
      = min (n * base + d) maxNumber := by
    rcases Nat.eq_zero_or_pos base with rfl | hbase
    · omega
    · rcases Nat.le_total n maxNumber with hn | hn
      · rw [Nat.min_eq_left hn]
        omega
      · have hcapped : maxNumber ≤ maxNumber * base := Nat.le_mul_of_pos_right _ hbase
        have hexact : n ≤ n * base := Nat.le_mul_of_pos_right _ hbase
        rw [Nat.min_eq_right hn]
        omega
  have hfold (n : Nat) : ds.foldl (fun n d => min (min (n * base) maxNumber + d) maxNumber)
      (min n maxNumber) = min (ds.foldl (fun n d => n * base + d) n) maxNumber := by
    induction ds generalizing n with
    | nil => rfl
    | cons d ds ih => rw [List.foldl_cons, List.foldl_cons, hstep, ih]
  exact hfold 0

theorem length_digits_le (base : Nat) (input : List UInt8) :
    (digits base input).length ≤ input.length := by
  induction input with
  | nil => simp [digits]
  | cons c rest ih =>
    rw [digits]
    split
    · simpa using ih
    · simp

namespace Scan

/-- The digits at the front of the input, at most `most` of them. -/
def digits (base most : Nat) : Scan (List Nat) := fun _ input =>
  let ds := Pattern.digits base (input.take most)
  ⟨ds.length, .ok ds⟩

/-- A number of at most `most` digits, read as far as they go; there is none
    when fewer than `least` are found, though those found are used. -/
def boundedNumber (base least most : Nat) : Scan (Option Nat) := do
  let ds ← digits base most
  return if least ≤ ds.length then some (cappedValueOf base ds) else none

/-- A decimal number of any length; there is none without a digit. -/
def number : Scan (Option Nat) := fun offset input =>
  boundedNumber 10 1 input.length offset input

theorem inBounds_pure {α : Type} (a : α) : InBounds (Scan.pure a) := fun _ _ => Nat.zero_le _

theorem inBounds_fail {α : Type} (cause : PatternError.Cause) (offset : Nat) :
    InBounds (fail cause offset : Scan α) := fun _ _ => Nat.zero_le _

theorem inBounds_fetch : InBounds fetch := fun _ _ => Nat.min_le_right _ _

theorem inBounds_acceptsIf (test : UInt8 → Bool) : InBounds (acceptsIf test) := by
  intro offset input
  cases input with
  | nil => simp [acceptsIf]
  | cons c rest =>
    simp only [acceptsIf]
    split <;> simp

theorem inBounds_bind {α β : Type} {x : Scan α} {f : α → Scan β} (hx : InBounds x)
    (hf : ∀ a, InBounds (f a)) : InBounds (Scan.bind x f) := by
  intro offset input
  have h := hx offset input
  unfold Scan.bind
  split
  · rename_i used e he
    simpa [he] using h
  · rename_i used a ha
    have hr := hf a (offset + used) (input.drop used)
    simp only [ha] at h
    simp only [List.length_drop] at hr ⊢
    omega

theorem inBounds_digits (base most : Nat) : InBounds (digits base most) := by
  intro offset input
  have h := length_digits_le base (input.take most)
  rw [List.length_take] at h
  exact Nat.le_trans h (Nat.min_le_right _ _)

end Scan

end Pattern

end ByteRegex
