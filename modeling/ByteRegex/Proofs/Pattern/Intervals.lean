import ByteRegex.Pattern.Interval
import ByteRegex.Proofs.Pattern.Numerals

/-!
# Intervals

An interval is read by its bounds. `Bounds` has the four forms in which they can be
written, and whatever the pattern holds behind an opening brace, either it begins with
bounds in one of these forms or it begins with none: neither with a number nor with a
comma and a number. `interval_read` says what is read in the first case. The bounds are
used up to the end of their digits, and then the next byte decides. If there is none, the
closing brace is missing; if it is the closing brace, the bounds are returned or refused
for their values; any other byte is refused.

Numbers are capped when they are read, and the check that follows sees the capped ones.
This makes no difference. The cap lies far above the largest bound, so bounds in order
are not touched by it, and a number that it changes is too large before and after.

## Main definitions

* `Bounds`: The bounds of an interval as they are written.
* `Bounds.inOrder`: The bounds can be stated, and they are in order.
* `Bounds.EndsBefore`: What follows does not belong to the bounds.
* `Bounds.closedBy`: What becomes of bounds with the next byte behind them.

## Theorems

* `capped_check`: Capped bounds pass the check if the bounds are in order.
* `interval_read`: What is read where an input begins with bounds.
* `interval_spelled`: An interval that is written out is read.
* `exists_bounds`: Where an input begins with bounds.
* `interval_ok_iff`, `interval_error_iff`: What is read, and what is an error.
* `interval_exact`: What is read, and what is wrong with the rest.
-/

namespace ByteRegex

namespace Pattern

/-- The bounds of an interval as they are written, the closing brace excluded. -/
inductive Bounds where
  /-- One number stands for both bounds. -/
  | exactly (n : Numeral)
  | atLeast (n : Numeral)
  | atMost (m : Numeral)
  | between (n m : Numeral)

namespace Bounds

def min : Bounds → Nat
  | exactly n => n.value
  | atLeast n => n.value
  | atMost _ => 0
  | between n _ => n.value

/-- The upper bound, unless there is none. -/
def max : Bounds → Option Nat
  | exactly n => some n.value
  | atLeast _ => none
  | atMost m => some m.value
  | between _ m => some m.value

/-- The bytes between the braces. -/
def spelled : Bounds → List UInt8
  | exactly n => n.spelled
  | atLeast n => n.spelled ++ [0x2C]
  | atMost m => 0x2C :: m.spelled
  | between n m => n.spelled ++ 0x2C :: m.spelled

/-- The bounds are in order, and each can be stated. -/
def inOrder (b : Bounds) : Bool :=
  b.min ≤ maxRepeat && b.max.all fun m => b.min ≤ m && m ≤ maxRepeat

end Bounds

/-- What follows does not belong to the bounds: no digit, and behind a number that stands
    for both of them no comma. -/
def Bounds.EndsBefore (b : Bounds) (rest : List UInt8) : Prop :=
  digits 10 rest = [] ∧
    match b with
    | .exactly _ => rest.head?.any (Byte.is ',') = false
    | _ => True

/-- Bounds are read up to something that does not belong to them. They are capped, as all
    numbers are. -/
theorem intervalBounds_read (b : Bounds) (openAt offset : Nat) (rest : List UInt8)
    (h : b.EndsBefore rest) :
    ∃ low : Option Nat, low.getD 0 = min b.min maxNumber ∧
      (intervalBounds openAt).Reads offset b.spelled (low, b.max.map (min · maxNumber))
        rest := by
  rcases h with ⟨hdigits, hcomma⟩
  -- A comma is no digit, so the number before it ends there.
  have haccept (offset : Nat) (bytes : List UInt8) :
      (Scan.accepts ',').Reads offset [0x2C] true bytes :=
    reads_acceptsIf _ offset _ bytes rfl
  cases b with
  | exactly n =>
      refine ⟨some (min n.value maxNumber), rfl,
        reads_bind_end _ _ offset _ _ (some (min n.value maxNumber)) _ ?_ ?_⟩
      · exact number_numeral n offset _ hdigits
      · exact reads_bind_nil _ _ _ [] _ false _ (reads_acceptsIf_not _ _ _ hcomma)
          (reads_pure _ _ _)
  | atLeast n =>
      refine ⟨some (min n.value maxNumber), rfl, reads_bind _ _ offset n.spelled [0x2C] _
        (some (min n.value maxNumber)) _ ?_ ?_⟩
      · exact number_numeral n offset _ rfl
      · exact reads_bind_end _ _ _ _ _ true _ (haccept _ _)
          (reads_bind_end _ _ _ [] _ none _ (number_none _ _ hdigits) (reads_pure _ _ _))
  | atMost m =>
      refine ⟨none, rfl, reads_bind_nil _ _ offset _ _ none _ (number_none _ _ rfl) ?_⟩
      refine reads_bind _ _ _ [0x2C] m.spelled _ true _ (haccept _ _) ?_
      exact reads_bind_end _ _ _ _ _ (some (min m.value maxNumber)) _
        (number_numeral m _ _ hdigits) (reads_pure _ _ _)
  | between n m =>
      refine ⟨some (min n.value maxNumber), rfl, reads_bind _ _ offset n.spelled
        (0x2C :: m.spelled) _ (some (min n.value maxNumber)) _
        (number_numeral n offset _ rfl) ?_⟩
      refine reads_bind _ _ _ [0x2C] m.spelled _ true _ (haccept _ _) ?_
      exact reads_bind_end _ _ _ _ _ (some (min m.value maxNumber)) _
        (number_numeral m _ _ hdigits) (reads_pure _ _ _)

-- The cap is out of reach of a bound, so it changes nothing about bounds in order,
theorem capped_eq (b : Bounds) (h : b.inOrder = true) :
    (min b.min maxNumber, b.max.map (min · maxNumber)) = (b.min, b.max) := by
  have hcap : maxRepeat < maxNumber := by decide
  simp only [Bounds.inOrder, Bool.and_eq_true, decide_eq_true_eq] at h
  congr 1
  · omega
  · cases hmax : b.max with
    | none => rfl
    | some m =>
        rw [hmax, Option.all_some, Bool.and_eq_true, decide_eq_true_eq, decide_eq_true_eq] at h
        rw [Option.map_some, Nat.min_eq_left (by omega)]

-- and capped bounds pass the check exactly if the bounds are in order.
theorem capped_check (b : Bounds) :
    (maxRepeat < min b.min maxNumber || (b.max.map (min · maxNumber)).any fun h =>
        maxRepeat < h || h < min b.min maxNumber) = !b.inOrder := by
  have hcap : maxRepeat < maxNumber := by decide
  rw [Bool.eq_iff_iff, Bounds.inOrder]
  cases b.max <;> simp <;> omega

/-- What becomes of bounds with the next byte behind them, or none: they are returned if
    they are closed and in order. -/
def Bounds.closedBy (b : Bounds) (openAt : Nat) :
    Option UInt8 → Except PatternError (Nat × Option Nat)
  | none => .error ⟨.unmatchedBrace, openAt⟩
  | some c =>
    if Byte.is '\x7D' c && b.inOrder then .ok (b.min, b.max)
    else .error ⟨.invalidInterval, openAt⟩

/-- An interval is read up to the end of its bounds, and what follows them decides. -/
theorem interval_read (b : Bounds) (offset : Nat) (rest : List UInt8) (h : b.EndsBefore rest) :
    interval offset (b.spelled ++ rest) =
      ⟨b.spelled.length + min 1 rest.length, b.closedBy (offset - 1) rest.head?⟩ := by
  rcases intervalBounds_read b (offset - 1) offset rest h with ⟨low, hlow, hbounds⟩
  rw [interval, bind_of_reads_nil _ _ offset _ offset (reads_here _ _),
    bind_of_reads _ _ offset b.spelled rest _ hbounds]
  cases rest with
  | nil => rfl
  | cons c more =>
      have hlength : min 1 (c :: more).length = 1 := by rw [List.length_cons]; omega
      simp only [bind_fetch_cons, hlow, capped_check, List.head?_cons, hlength, Bounds.closedBy]
      -- The brace is asked for first, and then the order of the bounds.
      cases Byte.is '\x7D' c
      · rfl
      · by_cases horder : b.inOrder = true
        · simp only [horder, Bool.not_true, Bool.false_eq_true, if_false, Bool.and_self, if_true,
            capped_eq b horder]
          rfl
        · rw [Bool.not_eq_true] at horder
          simp only [horder, Bool.not_true, Bool.not_false, Bool.false_eq_true, if_false, if_true,
            Bool.and_false]
          rfl

/-- An interval that is written out is read, whatever stands behind. -/
theorem interval_spelled (b : Bounds) (offset : Nat) (rest : List UInt8)
    (h : b.inOrder = true) :
    interval.Reads offset (b.spelled ++ [0x7D]) (b.min, b.max) rest := by
  have hends : b.EndsBefore (0x7D :: rest) := ⟨rfl, by cases b <;> trivial⟩
  have hread := interval_read b offset (0x7D :: rest) hends
  have hlength : min 1 (0x7D :: rest).length = 1 := by rw [List.length_cons]; omega
  simp only [Bounds.closedBy, List.head?_cons, h, hlength] at hread
  rw [Scan.Reads, List.append_assoc, List.singleton_append, hread, List.length_append]
  rfl

-- Every input begins with a number, unless it does not begin with a digit.
theorem exists_number (input : List UInt8) :
    digits 10 input = [] ∨
      ∃ (n : Numeral) (rest : List UInt8), input = n.spelled ++ rest ∧ digits 10 rest = [] := by
  rcases exists_digits 10 input.length input with ⟨bytes, rest, values, rfl, hbytes, _, hrest⟩
  -- The limit is the length of the input, so it cuts nothing off.
  rw [List.length_append, Nat.add_sub_cancel_left, List.take_length] at hrest
  by_cases hne : bytes = []
  · rw [hne, List.nil_append]
    exact Or.inl hrest
  · rcases exists_numeral bytes values hbytes hne with ⟨n, hn⟩
    exact Or.inr ⟨n, rest, by rw [hn], hrest⟩

/-- There are no bounds at the front: no number, and no comma with a number behind it. -/
def Unbounded (input : List UInt8) : Prop :=
  digits 10 input = [] ∧
    (input.head?.any (Byte.is ',') = false ∨ ∃ rest, input = 0x2C :: rest ∧ digits 10 rest = [])

/-- Every input begins with bounds, or there are none at its front. -/
theorem exists_bounds (input : List UInt8) :
    (∃ (b : Bounds) (rest : List UInt8), input = b.spelled ++ rest ∧ b.EndsBefore rest) ∨
      Unbounded input := by
  rcases exists_number input with hnone | ⟨n, rest, rfl, hrest⟩
  · rcases head_is ',' input with hcomma | ⟨more, rfl⟩
    · exact Or.inr ⟨hnone, Or.inl hcomma⟩
    · rcases exists_number more with hmore | ⟨m, last, rfl, hlast⟩
      · exact Or.inr ⟨hnone, Or.inr ⟨more, rfl, hmore⟩⟩
      · exact Or.inl ⟨.atMost m, last, rfl, hlast, trivial⟩
  · rcases head_is ',' rest with hcomma | ⟨more, rfl⟩
    · exact Or.inl ⟨.exactly n, rest, rfl, hrest, hcomma⟩
    · rcases exists_number more with hmore | ⟨m, last, rfl, hlast⟩
      · exact Or.inl ⟨.atLeast n, more, (List.append_assoc _ [0x2C] _).symm, hmore, trivial⟩
      · exact Or.inl ⟨.between n m, last, (List.append_assoc _ (0x2C :: m.spelled) _).symm, hlast,
          trivial⟩

-- Without bounds there is no interval.
theorem interval_unbounded (offset : Nat) (input : List UInt8) (h : Unbounded input) :
    (interval offset input).value = .error ⟨.invalidInterval, offset - 1⟩ := by
  rcases h with ⟨hnone, hcomma⟩
  have hbounds : (intervalBounds (offset - 1) offset input).value =
      .error ⟨.invalidInterval, offset - 1⟩ := by
    rw [intervalBounds, bind_of_reads_nil _ _ offset _ none (number_none offset input hnone)]
    rcases hcomma with hcomma | ⟨rest, rfl, hrest⟩
    · rw [bind_of_reads_nil (Scan.accepts ',') _ offset _ false
        (reads_acceptsIf_not _ offset input hcomma)]
      rfl
    · -- The comma is used, but no number follows it.
      rw [Scan.accepts, bind_acceptsIf_cons (Byte.is ',') _ offset 0x2C rest rfl]
      simp only [if_true]
      rw [bind_of_reads_nil _ _ _ _ none (number_none _ rest hrest)]
      rfl
  rw [interval, bind_of_reads_nil _ _ offset _ offset (reads_here _ _)]
  exact bind_of_error _ _ offset input _ hbounds

section Ends

variable (b : Bounds) (offset : Nat) (input : List UInt8)

-- Bounds in order that are closed are read.
theorem interval_closed (horder : b.inOrder = true) (h : b.spelled ++ [0x7D] <+: input) :
    interval offset input = ⟨b.spelled.length + 1, .ok (b.min, b.max)⟩ := by
  rcases h with ⟨rest, rfl⟩
  have hread := interval_spelled b offset rest horder
  rwa [Scan.Reads, List.length_append] at hread

-- Bounds at the end of the input are not closed.
theorem interval_unclosed (h : input = b.spelled) :
    (interval offset input).value = .error ⟨.unmatchedBrace, offset - 1⟩ := by
  have hread := interval_read b offset [] ⟨rfl, by cases b <;> trivial⟩
  rw [List.append_nil, ← h] at hread
  rw [hread]
  rfl

end Ends

section Outcomes

variable (offset : Nat) (input : List UInt8)

/-- An interval is read, or its bounds are not closed, or it is invalid. -/
theorem interval_cases :
    (∃ b : Bounds, b.inOrder = true ∧ b.spelled ++ [0x7D] <+: input ∧
      interval offset input = ⟨b.spelled.length + 1, .ok (b.min, b.max)⟩) ∨
    (∃ b : Bounds, input = b.spelled ∧
      (interval offset input).value = .error ⟨.unmatchedBrace, offset - 1⟩) ∨
    (¬ ∃ b : Bounds, input = b.spelled) ∧
      (interval offset input).value = .error ⟨.invalidInterval, offset - 1⟩ := by
  -- What is invalid does not end with bounds, for then it would not be closed.
  have hinvalid (h : (interval offset input).value = .error ⟨.invalidInterval, offset - 1⟩) :
      ¬ ∃ b : Bounds, input = b.spelled := by
    rintro ⟨b, hinput⟩
    rw [interval_unclosed b offset input hinput] at h
    exact absurd h (by simp only [Except.error.injEq, PatternError.mk.injEq, reduceCtorEq,
      false_and, not_false_eq_true])
  rcases exists_bounds input with ⟨b, rest, rfl, hends⟩ | hnone
  · have hread := interval_read b offset rest hends
    cases rest with
    | nil =>
        rw [List.append_nil] at hread ⊢
        exact Or.inr (Or.inl ⟨b, rfl, by rw [hread]; rfl⟩)
    | cons c more =>
        rw [List.head?_cons, Bounds.closedBy] at hread
        by_cases hgood : (Byte.is '\x7D' c && b.inOrder) = true
        · have hc : c = 0x7D :=
            Byte.eq_of_char c '\x7D' (eq_of_beq (Bool.and_eq_true_iff.1 hgood).1)
          have hclosed : b.spelled ++ [0x7D] <+: b.spelled ++ c :: more :=
            ⟨more, by rw [hc, List.append_assoc, List.singleton_append]⟩
          have horder := (Bool.and_eq_true_iff.1 hgood).2
          exact Or.inl ⟨b, horder, hclosed, interval_closed b offset _ horder hclosed⟩
        · rw [if_neg hgood] at hread
          have herror : (interval offset (b.spelled ++ c :: more)).value =
              .error ⟨.invalidInterval, offset - 1⟩ := by
            rw [hread]
          exact Or.inr (Or.inr ⟨hinvalid herror, herror⟩)
  · have herror := interval_unbounded offset input hnone
    exact Or.inr (Or.inr ⟨hinvalid herror, herror⟩)

-- The bounds that are read are those that the input begins with.
theorem interval_ok_iff (used low : Nat) (high : Option Nat) :
    interval offset input = ⟨used, .ok (low, high)⟩ ↔
      ∃ b : Bounds, b.inOrder = true ∧ b.spelled ++ [0x7D] <+: input ∧
        used = b.spelled.length + 1 ∧ low = b.min ∧ high = b.max := by
  constructor
  · intro hread
    rcases interval_cases offset input with ⟨b, horder, hclosed, hb⟩ | ⟨b, _, hb⟩ | ⟨_, hb⟩
    · rw [hread, Scanned.mk.injEq, Except.ok.injEq, Prod.mk.injEq] at hb
      exact ⟨b, horder, hclosed, hb⟩
    all_goals
      rw [hread] at hb
      exact absurd hb (by simp only [reduceCtorEq, not_false_eq_true])
  · rintro ⟨b, horder, hclosed, rfl, rfl, rfl⟩
    exact interval_closed b offset input horder hclosed

-- Where there are none, what the input ends with tells the two errors apart.
theorem interval_error_iff (e : PatternError) :
    (interval offset input).value = .error e ↔
      (∀ b : Bounds, b.inOrder = true → ¬ b.spelled ++ [0x7D] <+: input) ∧
      e.offset = offset - 1 ∧
      (e.cause = .unmatchedBrace ∧ (∃ b : Bounds, input = b.spelled) ∨
        e.cause = .invalidInterval ∧ ¬ ∃ b : Bounds, input = b.spelled) := by
  constructor
  · intro hread
    constructor
    · intro b horder hclosed
      rw [interval_closed b offset input horder hclosed] at hread
      exact absurd hread (by simp only [reduceCtorEq, not_false_eq_true])
    · rcases interval_cases offset input with ⟨b, _, _, hb⟩ | ⟨b, hinput, hb⟩ | ⟨hnone, hb⟩
      · rw [hb] at hread
        exact absurd hread (by simp only [reduceCtorEq, not_false_eq_true])
      · rw [hb, Except.error.injEq] at hread
        rw [← hread]
        exact ⟨rfl, Or.inl ⟨rfl, b, hinput⟩⟩
      · rw [hb, Except.error.injEq] at hread
        rw [← hread]
        exact ⟨rfl, Or.inr ⟨rfl, hnone⟩⟩
  · rcases e with ⟨cause, at'⟩
    rintro ⟨hnot, rfl, hcause⟩
    rcases interval_cases offset input with ⟨b, horder, hclosed, _⟩ | ⟨b, hinput, hb⟩ | ⟨hnone, hb⟩
    · exact absurd hclosed (hnot b horder)
    · rcases hcause with ⟨rfl, _⟩ | ⟨_, hnone⟩
      · exact hb
      · exact absurd ⟨b, hinput⟩ hnone
    · rcases hcause with ⟨_, hinput⟩ | ⟨rfl, _⟩
      · exact absurd hinput hnone
      · exact hb

end Outcomes

/-- Behind an opening brace, bounds in order that are closed are read, and nothing else is:
    the result is the bounds, and reading stops right behind the closing brace. What is
    wrong otherwise is reported at the opening brace. The closing brace is missing if the
    pattern ends with bounds, and in all other cases the interval is invalid. -/
theorem interval_exact (pattern : Bytes) (openAt : Nat) :
    (∀ used low high, interval.runAt pattern (openAt + 1) = ⟨used, .ok (low, high)⟩ ↔
      ∃ b : Bounds, b.inOrder = true ∧
        b.spelled ++ [0x7D] <+: pattern.toList.drop (openAt + 1) ∧
        used = b.spelled.length + 1 ∧ low = b.min ∧ high = b.max) ∧
    ∀ e, (interval.runAt pattern (openAt + 1)).value = .error e ↔
      (∀ b : Bounds, b.inOrder = true →
        ¬ b.spelled ++ [0x7D] <+: pattern.toList.drop (openAt + 1)) ∧
      e.offset = openAt ∧
      (e.cause = .unmatchedBrace ∧
          (∃ b : Bounds, pattern.toList.drop (openAt + 1) = b.spelled) ∨
        e.cause = .invalidInterval ∧
          ¬ ∃ b : Bounds, pattern.toList.drop (openAt + 1) = b.spelled) := by
  rw [Scan.runAt]
  exact ⟨interval_ok_iff (openAt + 1) _, interval_error_iff (openAt + 1) _⟩

end Pattern

end ByteRegex
