import ByteRegex.Pattern.Escape
import Mathlib.Data.List.Induction
import Mathlib.Data.Nat.Digits.Defs
import Mathlib.Data.Set.List

/-!
# Numbers in a Pattern

What a scanner makes of a number that is written out. `Scan.Reads` is the shape
of every statement about a scanner in this theory: at some offset, with some bytes
behind, it uses exactly the bytes in question and its value is the one they
stand for. Such statements join along `bind`, with the bytes of the two scanners
one after the other, so what is proved of the parts of a spelling carries over to
the whole.

Every input begins with a run of digits, perhaps an empty one, that ends at the limit of
the scanner or where something else follows. This is how a number is found that nobody
has written out beforehand: the run is read, and what is read is the capped value of its
digits.

A pattern has two kinds of number. A byte may be written by its code in two
hexadecimal digits, and the bounds of an interval are decimal numerals of any
length, leading zeros included.

## Main definitions

* `Scan.Reads`: A scanner uses given bytes and yields a given value.
* `HexByte`: A byte written by its code.
* `Numeral`: A decimal numeral.

## Theorems

* `reads_bind`: Readings join along `bind`.
* `bind_ok`, `bind_error`: What came of a sequence came of one part after the other.
* `exists_digits`: Every input begins with a run of digits.
* `valueOf_eq_ofDigits`: Digits spell the number that they are the digits of.
* `reads_digits`: Digits are read up to something that is none.
* `escapeValue_hex`: A byte that is written by its code is read.
* `exists_numeral`: Decimal digits are those of a numeral.
* `number_numeral`: A numeral is read, and its value capped.
-/

namespace ByteRegex

namespace Pattern

/-- The scanner, at the offset and with `rest` behind the bytes, uses the bytes and
    yields the value. -/
def Scan.Reads {α : Type} (x : Scan α) (offset : Nat) (bytes : List UInt8) (a : α)
    (rest : List UInt8) : Prop :=
  x offset (bytes ++ rest) = ⟨bytes.length, .ok a⟩

theorem reads_pure {α : Type} (a : α) (offset : Nat) (rest : List UInt8) :
    (Scan.pure a).Reads offset [] a rest := rfl

/-- The second scanner reads what stands behind the bytes of the first. -/
theorem reads_bind {α β : Type} (x : Scan α) (f : α → Scan β) (offset : Nat)
    (bytes more rest : List UInt8) (a : α) (b : β) (hx : x.Reads offset bytes a (more ++ rest))
    (hf : (f a).Reads (offset + bytes.length) more b rest) :
    (x >>= f).Reads offset (bytes ++ more) b rest := by
  change Scan.bind x f offset (bytes ++ more ++ rest) = _
  rw [Scan.Reads] at hx hf
  simp only [Scan.bind, List.append_assoc, hx, List.drop_left, hf, List.length_append]

-- A scanner that uses nothing leaves all the bytes to the next one.
theorem reads_bind_nil {α β : Type} (x : Scan α) (f : α → Scan β) (offset : Nat)
    (bytes rest : List UInt8) (a : α) (b : β) (hx : x.Reads offset [] a (bytes ++ rest))
    (hf : (f a).Reads offset bytes b rest) : (x >>= f).Reads offset bytes b rest :=
  reads_bind x f offset [] bytes rest a b hx hf

-- The last scanner of a sequence may use nothing.
theorem reads_bind_end {α β : Type} (x : Scan α) (f : α → Scan β) (offset : Nat)
    (bytes rest : List UInt8) (a : α) (b : β) (hx : x.Reads offset bytes a rest)
    (hf : (f a).Reads (offset + bytes.length) [] b rest) :
    (x >>= f).Reads offset bytes b rest := by
  have h := reads_bind x f offset bytes [] rest a b hx hf
  rwa [List.append_nil] at h

/-- What a sequence does once the first scanner has read its bytes. -/
theorem bind_of_reads {α β : Type} (x : Scan α) (f : α → Scan β) (offset : Nat)
    (bytes rest : List UInt8) (a : α) (hx : x.Reads offset bytes a rest) :
    (x >>= f) offset (bytes ++ rest) =
      ⟨bytes.length + (f a (offset + bytes.length) rest).used,
        (f a (offset + bytes.length) rest).value⟩ := by
  change Scan.bind x f offset (bytes ++ rest) = _
  rw [Scan.Reads] at hx
  simp only [Scan.bind, hx, List.drop_left]

theorem bind_of_reads_nil {α β : Type} (x : Scan α) (f : α → Scan β) (offset : Nat)
    (rest : List UInt8) (a : α) (hx : x.Reads offset [] a rest) :
    (x >>= f) offset rest = f a offset rest := by
  have h := bind_of_reads x f offset [] rest a hx
  rw [List.nil_append, List.length_nil, Nat.add_zero, Nat.zero_add] at h
  exact h

-- Nothing is done behind a scan that has failed.
theorem bind_of_error {α β : Type} (x : Scan α) (f : α → Scan β) (offset : Nat)
    (input : List UInt8) (e : PatternError) (hx : (x offset input).value = .error e) :
    ((x >>= f) offset input).value = .error e := by
  change (Scan.bind x f offset input).value = _
  unfold Scan.bind
  split
  · rename_i used e' h
    rw [h] at hx
    exact congrArg Except.error (Except.error.inj hx)
  · rename_i used a h
    rw [h] at hx
    exact absurd hx (by simp only [reduceCtorEq, not_false_eq_true])

-- A sequence that has been read was read in two parts,
theorem bind_ok {α β : Type} (x : Scan α) (f : α → Scan β) (offset : Nat) (input : List UInt8)
    (b : β) (h : ((x >>= f) offset input).value = .ok b) :
    ∃ n a m, x offset input = ⟨n, .ok a⟩ ∧
      f a (offset + n) (input.drop n) = ⟨m, .ok b⟩ ∧ ((x >>= f) offset input).used = n + m := by
  change (Scan.bind x f offset input).value = _ at h
  change ∃ n a m, _ ∧ _ ∧ (Scan.bind x f offset input).used = _
  unfold Scan.bind at h ⊢
  cases hread : x offset input with
  | mk n value =>
      cases value with
      | error e =>
          simp only [hread] at h
          exact absurd h (by simp only [reduceCtorEq, not_false_eq_true])
      | ok a =>
          simp only [hread] at h ⊢
          exact ⟨n, a, _, rfl, congrArg (Scanned.mk _) h, rfl⟩

-- and one that has failed failed in the first part or in the second.
theorem bind_error {α β : Type} (x : Scan α) (f : α → Scan β) (offset : Nat)
    (input : List UInt8) (e : PatternError) (h : ((x >>= f) offset input).value = .error e) :
    (x offset input).value = .error e ∨
      ∃ n a, x offset input = ⟨n, .ok a⟩ ∧
        (f a (offset + n) (input.drop n)).value = .error e := by
  change (Scan.bind x f offset input).value = _ at h
  unfold Scan.bind at h
  cases hread : x offset input with
  | mk n value =>
      cases value with
      | error e' =>
          simp only [hread] at h
          exact Or.inl (congrArg Except.error (Except.error.inj h))
      | ok a =>
          simp only [hread] at h
          exact Or.inr ⟨n, a, rfl, h⟩

/-- What a scanner in bounds has read is at the front of its input. -/
theorem reads_of_inBounds {α : Type} (x : Scan α) (offset : Nat) (input : List UInt8)
    (hx : x.InBounds) (used : Nat) (a : α) (h : x offset input = ⟨used, .ok a⟩) :
    ∃ bytes rest, input = bytes ++ rest ∧ used = bytes.length ∧ x.Reads offset bytes a rest := by
  have hused : used ≤ input.length := by
    have hbound := hx offset input
    rwa [h] at hbound
  have hlength : used = (input.take used).length := by
    rw [List.length_take, Nat.min_eq_left hused]
  refine ⟨input.take used, input.drop used, (List.take_append_drop _ _).symm, hlength, ?_⟩
  rw [Scan.Reads, List.take_append_drop, h, ← hlength]

theorem reads_here (offset : Nat) (rest : List UInt8) :
    Scan.here.Reads offset [] offset rest := rfl

theorem reads_fetch (offset : Nat) (c : UInt8) (rest : List UInt8) :
    Scan.fetch.Reads offset [c] (some c) rest := by
  rw [Scan.Reads, Scan.fetch]
  have hmin : min 1 ([c] ++ rest).length = 1 := by
    rw [List.length_append, List.length_singleton]
    omega
  rw [hmin]
  rfl

-- A byte that passes the test is used.
theorem reads_acceptsIf (test : UInt8 → Bool) (offset : Nat) (c : UInt8) (rest : List UInt8)
    (h : test c = true) : (Scan.acceptsIf test).Reads offset [c] true rest := by
  rw [Scan.Reads, Scan.acceptsIf, List.cons_append, List.head?_cons, Option.any_some, if_pos h]
  rfl

-- What a sequence does once a byte has been used.
theorem bind_fetch_cons {β : Type} (f : Option UInt8 → Scan β) (offset : Nat) (c : UInt8)
    (rest : List UInt8) :
    (Scan.fetch >>= f) offset (c :: rest) =
      ⟨1 + (f (some c) (offset + 1) rest).used, (f (some c) (offset + 1) rest).value⟩ :=
  bind_of_reads Scan.fetch f offset [c] rest (some c) (reads_fetch offset c rest)

theorem bind_acceptsIf_cons {β : Type} (test : UInt8 → Bool) (f : Bool → Scan β) (offset : Nat)
    (c : UInt8) (rest : List UInt8) (h : test c = true) :
    (Scan.acceptsIf test >>= f) offset (c :: rest) =
      ⟨1 + (f true (offset + 1) rest).used, (f true (offset + 1) rest).value⟩ :=
  bind_of_reads (Scan.acceptsIf test) f offset [c] rest true (reads_acceptsIf test offset c rest h)

-- Without a byte that passes, nothing is used.
theorem reads_acceptsIf_not (test : UInt8 → Bool) (offset : Nat) (rest : List UInt8)
    (h : rest.head?.any test = false) : (Scan.acceptsIf test).Reads offset [] false rest := by
  rw [Scan.Reads, Scan.acceptsIf, List.nil_append, h, if_neg Bool.false_ne_true]
  rfl

-- A character stands at the front, or it does not.
theorem head_is (ch : Char) (input : List UInt8) :
    input.head?.any (Byte.is ch) = false ∨ ∃ rest, input = UInt8.ofNat ch.toNat :: rest := by
  cases input with
  | nil => exact Or.inl rfl
  | cons c rest =>
      by_cases hc : Byte.is ch c = true
      · exact Or.inr ⟨rest, by rw [Byte.eq_of_char c ch (eq_of_beq hc)]⟩
      · exact Or.inl (Bool.eq_false_iff.2 hc)

/-- Digits spell the number that they are the digits of. -/
theorem valueOf_eq_ofDigits (base : Nat) (ds : List Nat) :
    valueOf base ds = Nat.ofDigits base ds.reverse := by
  -- The last digit is the one that both sides treat alone.
  induction ds using List.reverseRecOn with
  | nil => rfl
  | append_singleton ds d ih =>
      rw [valueOf, List.foldl_append, List.foldl_cons, List.foldl_nil]
      rw [valueOf] at ih
      rw [ih, List.reverse_append, List.reverse_singleton, List.singleton_append,
        Nat.ofDigits_cons, Nat.mul_comm, Nat.add_comm]

-- Digits stop where something follows that is none.
theorem digits_append (base : Nat) (bytes : List UInt8) (values : List Nat) (rest : List UInt8)
    (hbytes : bytes.map (Byte.digitValue? base) = values.map some)
    (hrest : digits base rest = []) : digits base (bytes ++ rest) = values := by
  induction bytes generalizing values with
  | nil =>
      rw [List.map_nil, eq_comm, List.map_eq_nil_iff] at hbytes
      rw [hbytes]
      exact hrest
  | cons c more ih =>
      cases values with
      | nil => exact absurd hbytes (List.cons_ne_nil _ _)
      | cons v vs =>
          rw [List.map_cons, List.map_cons, List.cons.injEq] at hbytes
          rw [List.cons_append, digits, hbytes.1, ih vs hbytes.2]

/-- Every input begins with as many digits as there are up to a limit, and what follows them
    is no digit unless the limit is reached. -/
theorem exists_digits (base most : Nat) (input : List UInt8) :
    ∃ bytes rest, ∃ values : List Nat, input = bytes ++ rest ∧
      bytes.map (Byte.digitValue? base) = values.map some ∧ bytes.length ≤ most ∧
      digits base (rest.take (most - bytes.length)) = [] := by
  induction input generalizing most with
  | nil => exact ⟨[], [], [], rfl, rfl, Nat.zero_le _, by rw [List.take_nil, digits]⟩
  | cons c more ih =>
      cases most with
      | zero => exact ⟨[], c :: more, [], rfl, rfl, Nat.le_refl _, rfl⟩
      | succ most =>
          cases hc : Byte.digitValue? base c with
          | none =>
              refine ⟨[], c :: more, [], rfl, rfl, Nat.zero_le _, ?_⟩
              rw [List.length_nil, Nat.sub_zero, List.take_succ_cons, digits, hc]
          | some v =>
              rcases ih most with ⟨bytes, rest, values, hinput, hbytes, hmost, hrest⟩
              refine ⟨c :: bytes, rest, v :: values, by rw [hinput, List.cons_append],
                by rw [List.map_cons, List.map_cons, hc, hbytes], Nat.succ_le_succ hmost, ?_⟩
              rw [List.length_cons, Nat.add_sub_add_right]
              exact hrest

/-- Digits are read up to their limit or up to something that is none. -/
theorem reads_digits (base most offset : Nat) (bytes : List UInt8) (values : List Nat)
    (rest : List UInt8) (hbytes : bytes.map (Byte.digitValue? base) = values.map some)
    (hmost : bytes.length ≤ most)
    (hrest : digits base (rest.take (most - bytes.length)) = []) :
    (Scan.digits base most).Reads offset bytes values rest := by
  have htake : (bytes ++ rest).take most = bytes ++ rest.take (most - bytes.length) := by
    rw [List.take_append, List.take_of_length_le hmost]
  have hlength : values.length = bytes.length := by
    rw [← List.length_map some, ← hbytes, List.length_map]
  rw [Scan.Reads, Scan.digits, htake, digits_append base bytes values _ hbytes hrest, hlength]

theorem reads_boundedNumber (base least most offset : Nat) (bytes : List UInt8)
    (values : List Nat) (rest : List UInt8)
    (hbytes : bytes.map (Byte.digitValue? base) = values.map some)
    (hleast : least ≤ bytes.length) (hmost : bytes.length ≤ most)
    (hrest : digits base (rest.take (most - bytes.length)) = []) :
    (Scan.boundedNumber base least most).Reads offset bytes
      (some (min (valueOf base values) maxNumber)) rest := by
  have hlength : values.length = bytes.length := by
    rw [← List.length_map some, ← hbytes, List.length_map]
  refine reads_bind_end _ _ offset bytes rest values _
    (reads_digits base most offset bytes values rest hbytes hmost hrest) ?_
  rw [if_pos (by omega : least ≤ values.length), cappedValueOf_eq]
  exact reads_pure _ _ _

-- Without a digit there is no number that needs one.
theorem reads_boundedNumber_none (base least most offset : Nat) (rest : List UInt8)
    (hleast : 0 < least) (hrest : digits base (rest.take most) = []) :
    (Scan.boundedNumber base least most).Reads offset [] none rest := by
  refine reads_bind_end _ _ offset [] rest [] _
    (reads_digits base most offset [] [] rest rfl (Nat.zero_le _) hrest) ?_
  rw [if_neg (by rw [List.length_nil]; omega)]
  exact reads_pure _ _ _

/-- A hexadecimal digit as it is written; those above nine have two forms. -/
structure HexDigit where
  value : Fin 16
  capital : Bool
  deriving DecidableEq, Repr

/-- The byte of a hexadecimal digit. -/
def HexDigit.byte (h : HexDigit) : UInt8 :=
  if h.value < 10 then UInt8.ofNat (0x30 + h.value)
  else UInt8.ofNat ((if h.capital then 0x41 else 0x61) + (h.value - 10))

theorem HexDigit.digitValue?_byte (h : HexDigit) :
    Byte.digitValue? 16 h.byte = some h.value.val := by
  rcases h with ⟨value, capital⟩
  revert value capital
  decide

theorem HexDigit.is_brace_byte (h : HexDigit) : Byte.is '\x7B' h.byte = false := by
  rcases h with ⟨value, capital⟩
  revert value capital
  decide

/-- A byte written by its code, as in `\x7D`. -/
structure HexByte where
  high : HexDigit
  low : HexDigit
  deriving DecidableEq, Repr

namespace HexByte

/-- The byte that is written. -/
def value (b : HexByte) : UInt8 := UInt8.ofNat (16 * b.high.value + b.low.value)

/-- The digits of the code. -/
def digits (b : HexByte) : List UInt8 := [b.high.byte, b.low.byte]

/-- The bytes that write it. -/
def spelled (b : HexByte) : List UInt8 := 0x5C :: 0x78 :: b.digits

end HexByte

/-- A byte that is written by its code is read, whatever stands behind. -/
theorem escapeValue_hex (b : HexByte) (escapeAt offset : Nat) (rest : List UInt8) :
    (escapeValue 0x78 escapeAt).Reads offset b.digits (some b.value) rest := by
  have hbytes : b.digits.map (Byte.digitValue? 16)
      = [b.high.value.val, b.low.value.val].map some := by
    rw [HexByte.digits, List.map_cons, List.map_cons, List.map_nil, b.high.digitValue?_byte,
      b.low.digitValue?_byte]
    rfl
  -- Two digits are all that the limit allows, so what stands behind does not matter.
  have hdigits := reads_boundedNumber 16 1 2 offset b.digits _ rest hbytes
    (Nat.le_succ 1) (Nat.le_refl 2) rfl
  -- Two digits make a code that fits a byte and needs no cap.
  have hhigh := b.high.value.isLt
  have hlow := b.low.value.isLt
  have hvalue : min (valueOf 16 [b.high.value.val, b.low.value.val]) maxNumber
      = 16 * b.high.value + b.low.value := by
    simp only [valueOf, List.foldl_cons, List.foldl_nil, maxNumber]
    omega
  rw [hvalue] at hdigits
  have hnumber : (requiredNumber 16 2 escapeAt).Reads offset b.digits
      (16 * b.high.value + b.low.value) rest :=
    reads_bind_end _ _ offset b.digits rest _ _ hdigits (reads_pure _ _ _)
  -- A digit is not the brace that would open a longer number.
  have hbrace : (Scan.accepts '\x7B').Reads offset [] false (b.digits ++ rest) :=
    reads_acceptsIf_not _ offset _ b.high.is_brace_byte
  have hcode : (escapeCode 0x78 escapeAt).Reads offset b.digits
      (some (16 * b.high.value + b.low.value)) rest :=
    reads_bind_nil _ _ offset b.digits rest _ _ hbrace
      (reads_bind_end _ _ offset b.digits rest _ _ hnumber (reads_pure _ _ _))
  have hcapped : cappedByte (16 * b.high.value + b.low.value) = b.value := by
    rw [cappedByte, HexByte.value, Nat.min_eq_left (by omega)]
  rw [← hcapped]
  exact reads_bind_end _ _ offset b.digits rest _ _ hcode (reads_pure _ _ _)

/-- A decimal numeral as it is written, of at least one digit. -/
structure Numeral where
  digits : List (Fin 10)
  nonempty : digits ≠ []

namespace Numeral

/-- The number that is written. -/
def value (n : Numeral) : Nat := Nat.ofDigits 10 (n.digits.map Fin.val).reverse

/-- The bytes that write it. -/
def spelled (n : Numeral) : List UInt8 := n.digits.map fun d => UInt8.ofNat (0x30 + d.val)

end Numeral

theorem digitValue?_decimal (d : Fin 10) :
    Byte.digitValue? 10 (UInt8.ofNat (0x30 + d.val)) = some d.val := by
  revert d
  decide

/-- A digit that has a decimal value is the digit of that value. -/
theorem exists_decimal (c : UInt8) (h : (Byte.digitValue? 10 c).isSome = true) :
    ∃ d : Fin 10, UInt8.ofNat (0x30 + d.val) = c := by
  revert c
  exact Byte.forall_byte (by decide +kernel)

-- Bytes that are decimal digits are those of a numeral.
theorem exists_numeral (bytes : List UInt8) (values : List Nat)
    (hbytes : bytes.map (Byte.digitValue? 10) = values.map some) (hne : bytes ≠ []) :
    ∃ n : Numeral, n.spelled = bytes := by
  have hrange : bytes ∈ Set.range (List.map fun d : Fin 10 => UInt8.ofNat (0x30 + d.val)) := by
    rw [Set.range_list_map]
    intro c hc
    have hvalue : Byte.digitValue? 10 c ∈ values.map some := by
      rw [← hbytes]
      exact List.mem_map_of_mem hc
    rcases List.mem_map.1 hvalue with ⟨v, _, hv⟩
    exact exists_decimal c (by rw [← hv, Option.isSome_some])
  rcases hrange with ⟨ds, hds⟩
  refine ⟨⟨ds, fun hnil => hne ?_⟩, hds⟩
  rw [← hds, hnil, List.map_nil]

/-- A numeral is read up to something that is no digit. Its value is capped. -/
theorem number_numeral (n : Numeral) (offset : Nat) (rest : List UInt8)
    (hrest : digits 10 rest = []) :
    Scan.number.Reads offset n.spelled (some (min n.value maxNumber)) rest := by
  have hbytes : n.spelled.map (Byte.digitValue? 10) = (n.digits.map Fin.val).map some := by
    rw [Numeral.spelled, List.map_map, List.map_map]
    exact List.map_congr_left fun d _ => digitValue?_decimal d
  have hleast : 1 ≤ n.spelled.length := by
    rw [Numeral.spelled, List.length_map]
    exact List.length_pos_iff.2 n.nonempty
  have hlength : (n.spelled ++ rest).length = n.spelled.length + rest.length :=
    List.length_append
  -- The limit is the length of the input, so it cuts nothing off.
  have htake : rest.take ((n.spelled ++ rest).length - n.spelled.length) = rest := by
    rw [hlength, Nat.add_sub_cancel_left, List.take_length]
  have h := reads_boundedNumber 10 1 (n.spelled ++ rest).length offset n.spelled _ rest hbytes
    hleast (by omega) (by rw [htake]; exact hrest)
  rw [valueOf_eq_ofDigits] at h
  exact h

-- Where no digit stands there is no number.
theorem number_none (offset : Nat) (rest : List UInt8) (hrest : digits 10 rest = []) :
    Scan.number.Reads offset [] none rest :=
  reads_boundedNumber_none 10 1 rest.length offset rest Nat.one_pos
    (by rw [List.take_length]; exact hrest)

end Pattern

end ByteRegex
