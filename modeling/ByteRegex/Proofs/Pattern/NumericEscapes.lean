import ByteRegex.Proofs.Pattern.Numerals

/-!
# Numeric Escapes

A byte can be written by its code, and the letter behind the backslash says how. There
are six forms, which differ in their base, in how many digits they take and in whether
braces enclose them; `NumericForm` lists them with these data, and a `NumericEscape` is
an escape in one of them. Without braces the digits are a run that ends at the limit of
the form or where something else follows, so the same bytes cannot be read in two ways.
With braces they end at the closing one.

The code of an escape is an exact number here, and `escapeValue_exact` says that the byte
is this number, capped at the last byte. That is not how it is computed. The digits are
added up in 32 bits, one after the other, and only the two forms in braces have digits
enough to reach the end of these. There the sum stops at the largest number, which is
capped to the same byte.

An input that has none of the forms of its letter at the front is an error. It cannot
happen to the letters that are digits, since these need no digits behind them.

## Main definitions

* `NumericForm`: The forms of a numeric escape.
* `NumericEscape`: A numeric escape as it is written.
* `NumericEscape.value`: The code that it denotes.
* `NumericEscape.Heads`: An input begins with the escape.

## Theorems

* `value_fits`: A code without braces fits 32 bits, digit by digit.
* `escapeCode_written`: The code of a numeric escape is read.
* `escapeCode_cases`: What is not in one of the forms is an error.
* `escapeValue_exact`: What is read behind a numeric letter.
-/

namespace ByteRegex

namespace Pattern

/-- The forms of a numeric escape. -/
inductive NumericForm where
  | hex
  | bracedHex
  | wideHex
  | bracedOctal
  | octal
  | decimal
  deriving DecidableEq, Repr

namespace NumericForm

/-- Whether a letter introduces the form. -/
def introducedBy : NumericForm → UInt8 → Bool
  | hex, letter => Byte.is 'x' letter
  | bracedHex, letter => Byte.is 'x' letter
  | wideHex, letter => Byte.is 'X' letter
  | bracedOctal, letter => Byte.is 'o' letter
  | octal, letter => Byte.is '0' letter
  | decimal, letter => Byte.isDigit letter && !Byte.is '0' letter

def base : NumericForm → Nat
  | hex => 16
  | bracedHex => 16
  | wideHex => 16
  | bracedOctal => 8
  | octal => 8
  | decimal => 10

/-- How many digits there have to be behind the letter. -/
def least : NumericForm → Nat
  | hex => 1
  | bracedHex => 1
  | wideHex => 1
  | bracedOctal => 1
  | octal => 0
  | decimal => 0

/-- How many digits there can be behind the letter. -/
def most : NumericForm → Nat
  | hex => 2
  | bracedHex => 11
  | wideHex => 4
  | bracedOctal => 11
  | octal => 3
  | decimal => 2

/-- Whether braces enclose the digits. -/
def braced : NumericForm → Bool
  | hex => false
  | bracedHex => true
  | wideHex => false
  | bracedOctal => true
  | octal => false
  | decimal => false

end NumericForm

/-- A numeric escape as it is written, the backslash excluded. -/
structure NumericEscape where
  form : NumericForm
  letter : UInt8
  /-- The digits behind the letter. -/
  digits : List UInt8
  /-- What these digits are worth. -/
  values : List Nat
  introduced : form.introducedBy letter = true
  valued : digits.map (Byte.digitValue? form.base) = values.map some
  least_le : form.least ≤ digits.length
  le_most : digits.length ≤ form.most

namespace NumericEscape

/-- What all digits of the code are worth; the first one of a decimal code is the letter. -/
def allValues (e : NumericEscape) : List Nat :=
  match e.form with
  | .decimal => (e.letter.toNat - 0x30) :: e.values
  | _ => e.values

/-- The code that is written. -/
def value (e : NumericEscape) : Nat := Nat.ofDigits e.form.base e.allValues.reverse

/-- The bytes behind the letter. -/
def spelled (e : NumericEscape) : List UInt8 :=
  if e.form.braced then 0x7B :: (e.digits ++ [0x7D]) else e.digits

/-- The run of digits ends in front of `rest`: at the closing brace, at the limit of the
    form or at something that is no digit. -/
def EndsBefore (e : NumericEscape) (rest : List UInt8) : Prop :=
  e.form.braced = true ∨ e.digits.length = e.form.most ∨
    rest.head?.bind (Byte.digitValue? e.form.base) = none

/-- An input begins with what stands behind the letter. -/
def Heads (e : NumericEscape) (input : List UInt8) : Prop :=
  ∃ rest, input = e.spelled ++ rest ∧ e.EndsBefore rest

end NumericEscape

/-- A letter that introduces one of the forms. -/
def IsNumericLetter (letter : UInt8) : Prop := ∃ f : NumericForm, f.introducedBy letter = true

-- A run of digits ends where the scanner stops.
theorem run_ends_iff (base most length : Nat) (rest : List UInt8) (hmost : length ≤ most) :
    Pattern.digits base (rest.take (most - length)) = [] ↔
      length = most ∨ rest.head?.bind (Byte.digitValue? base) = none := by
  rcases Nat.eq_or_lt_of_le hmost with rfl | hlt
  · rw [Nat.sub_self, List.take_zero]
    exact iff_of_true rfl (Or.inl rfl)
  · rw [or_iff_right (Nat.ne_of_lt hlt), ← Nat.succ_pred_eq_of_pos (Nat.sub_pos_of_lt hlt)]
    cases rest with
    | nil => exact iff_of_true rfl rfl
    | cons c more =>
        rw [List.take_succ_cons, Pattern.digits, List.head?_cons, Option.bind_some]
        cases Byte.digitValue? base c with
        | none => exact iff_of_true rfl rfl
        | some v => exact iff_of_false (List.cons_ne_nil _ _) (Option.some_ne_none _)

-- No brace is a digit.
theorem digitValue?_brace (base : Nat) (c : UInt8)
    (hc : c = 0x7B ∨ c = 0x7D) : Byte.digitValue? base c = none := by
  rcases hc with rfl | rfl
  · exact if_neg (Nat.lt_irrefl base)
  · exact if_neg (Nat.lt_irrefl base)

-- Digits are worth less than the base.
theorem digitValue?_lt (base v : Nat) (c : UInt8) (h : Byte.digitValue? base c = some v) :
    v < base := by
  rw [Byte.digitValue?, Option.ite_none_right_eq_some] at h
  rw [← Option.some.inj h.2]
  exact h.1

theorem decimal_letter_lt (letter : UInt8) (h : NumericForm.decimal.introducedBy letter = true) :
    letter.toNat - 0x30 < 10 := by
  revert letter
  exact Byte.forall_byte (by decide +kernel)

-- Where a digit stands there is no brace.
theorem head_ne_brace (base : Nat) (bytes : List UInt8) (values : List Nat) (rest : List UInt8)
    (hbytes : bytes.map (Byte.digitValue? base) = values.map some) (hleast : 1 ≤ bytes.length) :
    (bytes ++ rest).head?.any (Byte.is '\x7B') = false := by
  cases bytes with
  | nil => exact absurd hleast (Nat.not_succ_le_zero 0)
  | cons c more =>
      cases values with
      | nil => exact absurd hbytes (List.cons_ne_nil _ _)
      | cons v vs =>
          rw [List.map_cons, List.map_cons, List.cons.injEq] at hbytes
          rw [List.cons_append, List.head?_cons, Option.any_some]
          by_contra hbrace
          rw [Bool.not_eq_false] at hbrace
          have hc := digitValue?_brace base c (Or.inl (Byte.eq_of_char c '\x7B' (eq_of_beq hbrace)))
          rw [hc] at hbytes
          exact absurd hbytes.1.symm (Option.some_ne_none v)

-- The two letters behind which a brace may stand.
theorem escapeCode_x (escapeAt : Nat) :
    escapeCode 0x78 escapeAt = Scan.accepts '\x7B' >>= fun brace =>
      if brace then bracedNumber 16 escapeAt >>= fun code => Scan.pure (some code)
      else requiredNumber 16 2 escapeAt >>= fun code => Scan.pure (some code) := rfl

theorem escapeCode_o (escapeAt : Nat) :
    escapeCode 0x6F escapeAt = Scan.fetch >>= fun brace =>
      if brace.any (Byte.is '\x7B') then
        bracedNumber 8 escapeAt >>= fun code => Scan.pure (some code)
      else Scan.fail .badEscape escapeAt := rfl

-- A digit other than zero is the first one of a decimal code.
theorem escapeCode_decimal (letter : UInt8) (escapeAt : Nat)
    (h : NumericForm.decimal.introducedBy letter = true) :
    escapeCode letter escapeAt = Scan.digits 10 2 >>= fun tail =>
      Scan.pure (some (valueOf 10 ((letter.toNat - 0x30) :: tail))) := by
  have hother (ch : Char) (hchar : Byte.char letter = ch)
      (hnot : NumericForm.decimal.introducedBy (UInt8.ofNat ch.toNat) = false) : False := by
    rw [← Byte.eq_of_char letter ch hchar, h] at hnot
    exact Bool.false_ne_true hnot.symm
  rw [NumericForm.introducedBy, Bool.and_eq_true] at h
  unfold escapeCode
  split
  · rename_i hchar
    exact (hother _ hchar (by decide)).elim
  · rename_i hchar
    exact (hother _ hchar (by decide)).elim
  · rename_i hchar
    exact (hother _ hchar (by decide)).elim
  · rename_i hchar
    exact (hother _ hchar (by decide)).elim
  · rw [if_pos h.1]
    rfl

-- The largest code that a scanner yields is capped to the last byte as well.
theorem cappedByte_toNat (code : Nat) :
    (cappedByte (min code maxNumber)).toNat = min code 0xFF := by
  have hcap : 0xFF ≤ maxNumber := by decide
  rw [cappedByte, UInt8.toNat_ofNat_of_lt' (Nat.lt_of_le_of_lt (Nat.min_le_right _ _) (by decide)),
    Nat.min_assoc, Nat.min_eq_right hcap]

-- None of the letters stands for a control byte.
theorem controlEscape?_numeric (letter : UInt8) (f : NumericForm)
    (h : f.introducedBy letter = true) : controlEscape? letter = none := by
  revert letter
  cases f <;> exact Byte.forall_byte (by decide +kernel)

section Numbers

variable (base most escapeAt offset : Nat)

-- A number that has to be there is read with all its digits,
theorem requiredNumber_digits (bytes : List UInt8) (values : List Nat) (rest : List UInt8)
    (hbytes : bytes.map (Byte.digitValue? base) = values.map some) (hleast : 1 ≤ bytes.length)
    (hmost : bytes.length ≤ most)
    (hrest : Pattern.digits base (rest.take (most - bytes.length)) = []) :
    (requiredNumber base most escapeAt).Reads offset bytes
      (min (valueOf base values) maxNumber) rest :=
  reads_bind_end _ _ offset bytes rest _ _
    (reads_boundedNumber base 1 most offset bytes values rest hbytes hleast hmost hrest)
    (reads_pure _ _ _)

-- and where no digit stands the escape is to blame.
theorem requiredNumber_none (rest : List UInt8)
    (hrest : Pattern.digits base (rest.take most) = []) :
    (requiredNumber base most escapeAt offset rest).value = .error ⟨.badEscape, escapeAt⟩ := by
  rw [requiredNumber, bind_of_reads_nil _ _ offset rest none
    (reads_boundedNumber_none base 1 most offset rest Nat.one_pos hrest)]
  rfl

-- Every input begins with the digits of the number, or the escape is to blame.
theorem requiredNumber_cases (input : List UInt8) :
    (∃ bytes rest, ∃ values : List Nat, input = bytes ++ rest ∧
      bytes.map (Byte.digitValue? base) = values.map some ∧ 1 ≤ bytes.length ∧
      bytes.length ≤ most ∧ Pattern.digits base (rest.take (most - bytes.length)) = []) ∨
    (requiredNumber base most escapeAt offset input).value = .error ⟨.badEscape, escapeAt⟩ := by
  rcases exists_digits base most input with ⟨bytes, rest, values, rfl, hbytes, hmost, hrest⟩
  cases bytes with
  | nil => exact Or.inr (requiredNumber_none base most escapeAt offset rest hrest)
  | cons c more =>
      exact Or.inl ⟨c :: more, rest, values, rfl, hbytes, Nat.le_add_left 1 _, hmost, hrest⟩

-- The brace behind the digits is used as well,
theorem bracedNumber_digits (bytes : List UInt8) (values : List Nat) (rest : List UInt8)
    (hbytes : bytes.map (Byte.digitValue? base) = values.map some) (hleast : 1 ≤ bytes.length)
    (hmost : bytes.length ≤ 11) :
    (bracedNumber base escapeAt).Reads offset (bytes ++ [0x7D])
      (min (valueOf base values) maxNumber) rest := by
  have hrest : Pattern.digits base ((0x7D :: rest).take (11 - bytes.length)) = [] := by
    rw [run_ends_iff _ _ _ _ hmost]
    exact Or.inr (digitValue?_brace base 0x7D (Or.inr rfl))
  refine reads_bind _ _ offset bytes [0x7D] rest _ _
    (requiredNumber_digits base 11 escapeAt offset bytes values _ hbytes hleast hmost hrest) ?_
  exact reads_bind_end _ _ _ [0x7D] rest (some 0x7D) _ (reads_fetch _ _ _) (reads_pure _ _ _)

-- and where it is missing the escape is to blame.
theorem bracedNumber_cases (input : List UInt8) :
    (∃ bytes rest, ∃ values : List Nat, input = bytes ++ 0x7D :: rest ∧
      bytes.map (Byte.digitValue? base) = values.map some ∧ 1 ≤ bytes.length ∧
      bytes.length ≤ 11) ∨
    (bracedNumber base escapeAt offset input).value = .error ⟨.badEscape, escapeAt⟩ := by
  rcases requiredNumber_cases base 11 escapeAt offset input with
    ⟨bytes, rest, values, rfl, hbytes, hleast, hmost, hrest⟩ | hnone
  · have hnumber := requiredNumber_digits base 11 escapeAt offset bytes values rest hbytes hleast
      hmost hrest
    by_cases hclosed : rest.head?.any (Byte.is '\x7D') = true
    · cases rest with
      | nil => exact absurd hclosed Bool.false_ne_true
      | cons c more =>
          rw [List.head?_cons, Option.any_some] at hclosed
          refine Or.inl ⟨bytes, more, values, ?_, hbytes, hleast, hmost⟩
          rw [Byte.eq_of_char c '\x7D' (eq_of_beq hclosed)]
          rfl
    · refine Or.inr ?_
      rw [bracedNumber, bind_of_reads _ _ offset bytes rest _ hnumber]
      cases rest with
      | nil => rfl
      | cons c more =>
          rw [List.head?_cons, Option.any_some] at hclosed
          rw [bind_fetch_cons, Option.any_some, if_neg hclosed]
          rfl
  · exact Or.inr (bind_of_error _ _ offset input _ hnone)

end Numbers

namespace NumericEscape

theorem lt_base (e : NumericEscape) : ∀ v ∈ e.allValues, v < e.form.base := by
  have hvalues (v : Nat) (hv : v ∈ e.values) : v < e.form.base := by
    have hdigit : some v ∈ e.digits.map (Byte.digitValue? e.form.base) := by
      rw [e.valued]
      exact List.mem_map_of_mem hv
    rcases List.mem_map.1 hdigit with ⟨c, _, hc⟩
    exact digitValue?_lt e.form.base v c hc
  intro v hv
  unfold allValues at hv
  split at hv
  · rename_i hdecimal
    rcases List.mem_cons.1 hv with rfl | hv
    · rw [hdecimal]
      exact decimal_letter_lt e.letter (by rw [← hdecimal]; exact e.introduced)
    · exact hvalues v hv
  · exact hvalues v hv

-- Behind the letter there are no more digits than the form allows.
theorem length_allValues_le (e : NumericEscape) : e.allValues.length ≤ e.form.most + 1 := by
  have hvalues : e.values.length = e.digits.length := by
    rw [← List.length_map some, ← e.valued, List.length_map]
  have hmost := e.le_most
  unfold allValues
  split
  · rw [List.length_cons]
    omega
  · omega

/-- Up to each of its digits a code without braces fits 32 bits. -/
theorem value_fits (e : NumericEscape) (hbraced : e.form.braced = false) (vs : List Nat)
    (h : vs <+: e.allValues) : valueOf e.form.base vs ≤ maxNumber := by
  have hbase : 1 < e.form.base := by cases e.form <;> decide
  have hlt : valueOf e.form.base vs < e.form.base ^ vs.length := by
    rw [valueOf_eq_ofDigits, ← List.length_reverse]
    exact Nat.ofDigits_lt_base_pow_length hbase fun v hv =>
      e.lt_base v (h.mem (List.mem_reverse.1 hv))
  have hlength : vs.length ≤ e.form.most + 1 :=
    Nat.le_trans h.length_le e.length_allValues_le
  have hmax : e.form.base ^ (e.form.most + 1) ≤ maxNumber := by
    revert hbraced
    cases e.form <;> decide
  calc valueOf e.form.base vs
      ≤ e.form.base ^ vs.length := Nat.le_of_lt hlt
    _ ≤ e.form.base ^ (e.form.most + 1) := Nat.pow_le_pow_right (Nat.lt_of_succ_lt hbase) hlength
    _ ≤ maxNumber := hmax

variable (escapeAt offset : Nat)

/-- Where a numeric escape stands behind its letter, its code is read. -/
theorem escapeCode_written (e : NumericEscape) (rest : List UInt8) (h : e.EndsBefore rest) :
    (escapeCode e.letter escapeAt).Reads offset e.spelled (some (min e.value maxNumber)) rest := by
  have hfits := e.value_fits
  have hvalue : e.value = valueOf e.form.base e.allValues := (valueOf_eq_ofDigits _ _).symm
  rw [hvalue]
  rcases e with ⟨form, letter, digits, values, introduced, valued, least_le, le_most⟩
  have hends (hbraced : form.braced = false) : Pattern.digits form.base
      (rest.take (form.most - digits.length)) = [] := by
    rw [run_ends_iff _ _ _ _ le_most]
    exact h.resolve_left (by rw [hbraced]; exact Bool.false_ne_true)
  cases form with
  | hex =>
      obtain rfl : letter = 0x78 := Byte.eq_of_char letter 'x' (eq_of_beq introduced)
      rw [escapeCode_x]
      have hbrace : (Scan.accepts '\x7B').Reads offset [] false (digits ++ rest) :=
        reads_acceptsIf_not _ offset _ (head_ne_brace 16 digits values rest valued least_le)
      exact reads_bind_nil _ _ offset digits rest _ _ hbrace
        (reads_bind_end _ _ offset digits rest _ _
          (requiredNumber_digits 16 2 escapeAt offset digits values rest valued least_le le_most
            (hends rfl)) (reads_pure _ _ _))
  | bracedHex =>
      obtain rfl : letter = 0x78 := Byte.eq_of_char letter 'x' (eq_of_beq introduced)
      rw [escapeCode_x]
      change Scan.Reads _ offset ([0x7B] ++ (digits ++ [0x7D]))
        (some (min (valueOf 16 values) maxNumber)) rest
      refine reads_bind (Scan.accepts '\x7B') _ offset [0x7B] (digits ++ [0x7D]) rest true _
        (reads_acceptsIf _ offset 0x7B _ rfl) ?_
      exact reads_bind_end _ _ _ _ rest _ _
        (bracedNumber_digits 16 escapeAt _ digits values rest valued least_le le_most)
        (reads_pure _ _ _)
  | wideHex =>
      obtain rfl := Byte.eq_of_char letter 'X' (eq_of_beq introduced)
      exact reads_bind_end _ _ offset digits rest _ _
        (requiredNumber_digits 16 4 escapeAt offset digits values rest valued least_le le_most
          (hends rfl)) (reads_pure _ _ _)
  | bracedOctal =>
      obtain rfl : letter = 0x6F := Byte.eq_of_char letter 'o' (eq_of_beq introduced)
      rw [escapeCode_o]
      change Scan.Reads _ offset ([0x7B] ++ (digits ++ [0x7D]))
        (some (min (valueOf 8 values) maxNumber)) rest
      refine reads_bind _ _ offset [0x7B] (digits ++ [0x7D]) rest (some 0x7B) _
        (reads_fetch offset 0x7B _) ?_
      exact reads_bind_end _ _ _ _ rest _ _
        (bracedNumber_digits 8 escapeAt _ digits values rest valued least_le le_most)
        (reads_pure _ _ _)
  | octal =>
      obtain rfl := Byte.eq_of_char letter '0' (eq_of_beq introduced)
      exact reads_boundedNumber 8 0 3 offset digits values rest valued least_le le_most (hends rfl)
  | decimal =>
      -- The code is not capped, as it need not be.
      rw [Nat.min_eq_left (hfits rfl _ List.prefix_rfl),
        escapeCode_decimal letter escapeAt introduced]
      exact reads_bind_end _ _ offset digits rest values _
        (reads_digits 10 2 offset digits values rest valued le_most (hends rfl)) (reads_pure _ _ _)

end NumericEscape

section Heads

variable (f : NumericForm) (letter : UInt8) (bytes rest : List UInt8) (values : List Nat)
  (hf : f.introducedBy letter = true)
  (hbytes : bytes.map (Byte.digitValue? f.base) = values.map some)
  (hleast : f.least ≤ bytes.length) (hmost : bytes.length ≤ f.most)

include hf hbytes hleast hmost

-- A run of digits that ends is an escape, if there are enough of them,
theorem heads_run (hbraced : f.braced = false)
    (hrest : Pattern.digits f.base (rest.take (f.most - bytes.length)) = []) :
    ∃ e : NumericEscape, e.letter = letter ∧ e.Heads (bytes ++ rest) := by
  refine ⟨⟨f, letter, bytes, values, hf, hbytes, hleast, hmost⟩, rfl, rest, ?_, Or.inr ?_⟩
  · rw [NumericEscape.spelled, if_neg (by rw [hbraced]; exact Bool.false_ne_true)]
  · rwa [run_ends_iff _ _ _ _ hmost] at hrest

-- and so are digits in braces.
theorem heads_braced (hbraced : f.braced = true) :
    ∃ e : NumericEscape, e.letter = letter ∧ e.Heads (0x7B :: (bytes ++ 0x7D :: rest)) := by
  refine ⟨⟨f, letter, bytes, values, hf, hbytes, hleast, hmost⟩, rfl, rest, ?_, Or.inl hbraced⟩
  rw [NumericEscape.spelled, if_pos hbraced, List.cons_append, List.append_assoc,
    List.singleton_append]

end Heads

/-- An input has one of the forms of its letter at the front, or the escape is to blame and
    the letter is no digit. -/
theorem escapeCode_cases (letter : UInt8) (hletter : IsNumericLetter letter)
    (escapeAt offset : Nat) (input : List UInt8) :
    (∃ e : NumericEscape, e.letter = letter ∧ e.Heads input) ∨
      Byte.isDigit letter = false ∧
        (escapeCode letter escapeAt offset input).value = .error ⟨.badEscape, escapeAt⟩ := by
  -- The letter `x` has two forms, which the brace tells apart.
  have hhex (h : letter = 0x78) : (∃ e : NumericEscape, e.letter = letter ∧ e.Heads input) ∨
      Byte.isDigit letter = false ∧
        (escapeCode letter escapeAt offset input).value = .error ⟨.badEscape, escapeAt⟩ := by
    subst h
    rw [escapeCode_x]
    rcases head_is '\x7B' input with hbrace | ⟨more, rfl⟩
    · rcases requiredNumber_cases 16 2 escapeAt offset input with
        ⟨bytes, rest, values, rfl, hbytes, hleast, hmost, hrest⟩ | hnone
      · exact Or.inl (heads_run .hex _ bytes rest values rfl hbytes hleast hmost rfl hrest)
      · refine Or.inr ⟨rfl, ?_⟩
        rw [bind_of_reads_nil (Scan.accepts '\x7B') _ offset input false
          (reads_acceptsIf_not _ offset input hbrace)]
        exact bind_of_error _ _ offset input _ hnone
    · rcases bracedNumber_cases 16 escapeAt (offset + 1) more with
        ⟨bytes, rest, values, rfl, hbytes, hleast, hmost⟩ | hnone
      · exact Or.inl (heads_braced .bracedHex _ bytes rest values rfl hbytes hleast hmost rfl)
      · refine Or.inr ⟨rfl, ?_⟩
        rw [Scan.accepts, bind_acceptsIf_cons (Byte.is '\x7B') _ offset _ more rfl]
        exact bind_of_error _ _ _ more _ hnone
  rcases hletter with ⟨f, hf⟩
  cases f with
  | hex => exact hhex (Byte.eq_of_char letter 'x' (eq_of_beq hf))
  | bracedHex => exact hhex (Byte.eq_of_char letter 'x' (eq_of_beq hf))
  | wideHex =>
      obtain rfl := Byte.eq_of_char letter 'X' (eq_of_beq hf)
      rcases requiredNumber_cases 16 4 escapeAt offset input with
        ⟨bytes, rest, values, rfl, hbytes, hleast, hmost, hrest⟩ | hnone
      · exact Or.inl (heads_run .wideHex _ bytes rest values rfl hbytes hleast hmost rfl hrest)
      · exact Or.inr ⟨rfl, bind_of_error _ _ offset input _ hnone⟩
  | bracedOctal =>
      obtain rfl : letter = 0x6F := Byte.eq_of_char letter 'o' (eq_of_beq hf)
      rw [escapeCode_o]
      rcases head_is '\x7B' input with hbrace | ⟨more, rfl⟩
      · -- Whatever is fetched, it is not the brace.
        refine Or.inr ⟨rfl, ?_⟩
        change (Scan.bind Scan.fetch _ offset input).value = _
        simp only [Scan.bind, Scan.fetch, hbrace, Bool.false_eq_true, if_false]
        rfl
      · rcases bracedNumber_cases 8 escapeAt (offset + 1) more with
          ⟨bytes, rest, values, rfl, hbytes, hleast, hmost⟩ | hnone
        · exact Or.inl (heads_braced .bracedOctal _ bytes rest values rfl hbytes hleast hmost rfl)
        · refine Or.inr ⟨rfl, ?_⟩
          rw [bind_fetch_cons]
          exact bind_of_error _ _ _ more _ hnone
  | octal =>
      rcases exists_digits 8 3 input with ⟨bytes, rest, values, rfl, hbytes, hmost, hrest⟩
      exact Or.inl (heads_run .octal letter bytes rest values hf hbytes (Nat.zero_le _) hmost rfl
        hrest)
  | decimal =>
      rcases exists_digits 10 2 input with ⟨bytes, rest, values, rfl, hbytes, hmost, hrest⟩
      exact Or.inl (heads_run .decimal letter bytes rest values hf hbytes (Nat.zero_le _) hmost rfl
        hrest)

/-- Behind a numeric letter, an escape in one of the forms of the letter is read as the byte
    of its code, which is exact up to the cap, and exactly its bytes are used. The code is
    added up in 32 bits without loss: digit by digit the sum is the exact number, or stops
    at the largest one, and it has no occasion to stop unless there are braces. An input
    that begins with none of the forms is an error at the escape, which cannot happen behind
    a digit. -/
theorem escapeValue_exact (letter : UInt8) (hletter : IsNumericLetter letter)
    (escapeAt offset : Nat) (input : List UInt8) :
    (∀ e : NumericEscape, e.letter = letter → e.Heads input →
      (∃ b : UInt8,
        escapeValue letter escapeAt offset input = ⟨e.spelled.length, .ok (some b)⟩ ∧
          b.toNat = min e.value 0xFF) ∧
        ∀ vs, vs <+: e.allValues →
          cappedValueOf e.form.base vs = min (valueOf e.form.base vs) maxNumber ∧
            (e.form.braced = false → valueOf e.form.base vs ≤ maxNumber)) ∧
    ((∀ e : NumericEscape, e.letter = letter → ¬ e.Heads input) →
      Byte.isDigit letter = false ∧
        (escapeValue letter escapeAt offset input).value = .error ⟨.badEscape, escapeAt⟩) := by
  have hcontrol : controlEscape? letter = none := by
    rcases hletter with ⟨f, hf⟩
    exact controlEscape?_numeric letter f hf
  -- What the letter introduces is its code, as it stands for no control byte.
  have hvalue : escapeValue letter escapeAt =
      escapeCode letter escapeAt >>= fun code => Scan.pure (code.map cappedByte) := by
    rw [escapeValue, hcontrol]
    rfl
  rw [hvalue]
  constructor
  · rintro e rfl ⟨rest, rfl, hends⟩
    refine ⟨⟨_, ?_, cappedByte_toNat e.value⟩, fun vs hvs =>
      ⟨cappedValueOf_eq _ vs, fun hbraced => e.value_fits hbraced vs hvs⟩⟩
    exact reads_bind_end _ _ offset e.spelled rest _ _
      (e.escapeCode_written escapeAt offset rest hends) (reads_pure _ _ _)
  · intro hnone
    rcases escapeCode_cases letter hletter escapeAt offset input with
      ⟨e, he, hheads⟩ | ⟨hdigit, herror⟩
    · exact absurd hheads (hnone e he)
    · exact ⟨hdigit, bind_of_error _ _ offset input _ herror⟩

-- The code in `x\x7B100000041\x7D` does not fit 32 bits, and the last byte is read. Behind the
-- letter `o` a brace is missing in front of `A`.
theorem escapeValue_exact_capped :
    IsNumericLetter 0x78 ∧ IsNumericLetter 0x6F ∧
      (∃ b : UInt8,
        escapeValue 0x78 0 2
            [0x7B, 0x31, 0x30, 0x30, 0x30, 0x30, 0x30, 0x30, 0x34, 0x31, 0x7D, 0x41] =
          ⟨11, .ok (some b)⟩ ∧ b.toNat = 0xFF) ∧
      (escapeValue 0x6F 0 2 [0x41]).value = .error ⟨.badEscape, 0⟩ := by
  have hx : IsNumericLetter 0x78 := ⟨.bracedHex, by decide⟩
  have ho : IsNumericLetter 0x6F := ⟨.bracedOctal, by decide⟩
  let e : NumericEscape := ⟨.bracedHex, 0x78,
    [0x31, 0x30, 0x30, 0x30, 0x30, 0x30, 0x30, 0x34, 0x31], [1, 0, 0, 0, 0, 0, 0, 4, 1],
    by decide, by decide, by decide, by decide⟩
  have hvalue : e.value = 0x100000041 := by decide
  refine ⟨hx, ho, ?_, ?_⟩
  · rcases ((escapeValue_exact 0x78 hx 0 2 _).1 e rfl ⟨[0x41], rfl, Or.inl rfl⟩).1 with
      ⟨b, hread, hb⟩
    exact ⟨b, hread, by rw [hb, hvalue]; rfl⟩
  · refine ((escapeValue_exact 0x6F ho 0 2 [0x41]).2 ?_).2
    rintro ⟨form, letter, digits, values, introduced, _, _, _⟩ rfl ⟨rest, hinput, _⟩
    cases form with
    | bracedOctal => exact absurd (List.cons.inj hinput).1 (by decide)
    | _ => exact absurd introduced (by decide)

end Pattern

end ByteRegex
