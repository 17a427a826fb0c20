import ByteRegex.Program.Basic
import ByteRegex.Proofs.Pattern.Intervals
import ByteRegex.Proofs.Pattern.OpenGroups
import ByteRegex.Proofs.Pattern.WellFormed

/-!
# Where Errors Are

An error names an offset, and the construct that cannot be read starts there: the byte at
the offset introduces it. Which bytes can do so depends on the cause. Only a range can start
with any byte, so of a range that is refused it is said how it is written. Its left end is
a byte or an escape with a hyphen right behind, and its right end is a class or sorts before
the left one.

Offsets are taken at many places. A scanner blames the place where it stands or one it has
been told, a token blames its own start, and a group that is not closed is reported long
after it was opened. What all of them have in common is that they look at the same pattern,
and `Scan.Locates` says so: the input of a scanner is the pattern from its offset on, and
whatever error it reports is located in the pattern. That passes from the parts of a scanner
to the whole, so it is enough to see for each error that its byte has been seen. The tokens
do the rest, since a token is read behind the byte that introduces it.

## Main definitions

* `Member.WrittenAs`: How a member of a bracket expression is written.
* `RefusedRange`: A range that is written so that it has to be refused.
* `PatternError.Located`: What is wrong stands where the error says.
* `Scan.Locates`: The errors of a scanner are located in the pattern.

## Theorems

* `locates_bind`: Scanners whose errors are located compose.
* `bracketMember_written`: A member that is read is written at the front of the input.
* `bracketSet_locates`: The errors in a bracket expression are located.
* `starting_introduced`: A token is read behind a byte that introduces it.
* `starting_locates`: The errors in a token are located.
* `accept_located`: The errors in the use of a token are located.
* `run_located`: So are the errors in all tokens.
* `finish_located`: So is a group that is not closed.
* `compile_error_located`: An error is where the pattern is wrong.
-/

namespace ByteRegex

namespace Pattern

/-- How a member of a bracket expression is written at an offset, if `rest` stands behind
    it. A byte other than the backslash stands for itself, an escape for its value or, if it
    has none, for its letter, and a shorthand for its class. -/
def Member.WrittenAs (d : Dialect) (offset : Nat) (written rest : List UInt8) : Member → Prop
  | .byte c =>
    (written = [c] ∧ Byte.is '\\' c = false) ∨
      ∃ letter digits v, written = 0x5C :: letter :: digits ∧
        (if d.has .classShorthands then classShorthand? letter else none) = none ∧
        (escapeValue letter offset).Reads (offset + 2) digits v rest ∧ c = v.getD letter
  | .set s =>
    ∃ letter, written = [0x5C, letter] ∧ d.has .classShorthands = true ∧
      classShorthand? letter = some s

/-- Whether a range that starts with the byte `low` can end with a member. -/
def Member.endsRange (low : UInt8) : Member → Bool
  | .byte high => low ≤ high
  | .set _ => false

/-- Behind an opening bracket, at `offset`, starts a range that is refused: one byte as it
    is written, a hyphen right behind, and then a member that the range cannot end with. -/
def RefusedRange (d : Dialect) (pattern : List UInt8) (offset : Nat) : Prop :=
  ∃ (openAt : Nat) (low high rest : List UInt8) (c : UInt8) (m : Member),
    openAt < offset ∧ pattern[openAt]? = some 0x5B ∧
    pattern.drop offset = low ++ 0x2D :: (high ++ rest) ∧
    (Member.byte c).WrittenAs d offset low (0x2D :: (high ++ rest)) ∧
    m.WrittenAs d (offset + low.length + 1) high rest ∧
    high.head? ≠ some 0x5D ∧ m.endsRange c = false

end Pattern

/-- What is wrong with a pattern stands where the error says: the byte there introduces the
    construct that cannot be read. -/
def PatternError.Located (d : Dialect) (pattern : List UInt8) (e : PatternError) : Prop :=
  ∃ c, pattern[e.offset]? = some c ∧
    match e.cause with
    | .unmatchedBracket => Byte.char c = '['
    | .unmatchedBrace => Byte.char c ∈ ['\x7B', '\x7D']
    | .unmatchedParen => Byte.char c ∈ ['(', ')', '\\']
    | .emptyExpression => Byte.char c ∈ ['*', '+', '?', '@', '\x7B']
    | .invalidClassName => Byte.char c = '['
    | .invalidRange => Pattern.RefusedRange d pattern e.offset
    | .invalidInterval => Byte.char c = '\x7B'
    | .levelOverflow => Byte.char c ∈ ['(', '\x7B', '\\']
    | .badEscape => Byte.char c = '\\'

namespace Pattern

-- A scan with a value has no error,
theorem ne_error_of_isOk {α : Type} (x : Scan α) (offset : Nat) (input : List UInt8)
    (e : PatternError) (h : (x offset input).value.isOk = true) :
    (x offset input).value ≠ .error e := by
  intro he
  rw [he] at h
  exact Bool.false_ne_true h

-- and to test for a byte always has a value.
theorem isOk_acceptsIf (test : UInt8 → Bool) (offset : Nat) (input : List UInt8) :
    (Scan.acceptsIf test offset input).value.isOk = true := by
  rw [Scan.acceptsIf]
  split <;> rfl

/-- A scanner uses only bytes that are there, and it has no error but one. -/
structure Scan.FailsOnly {α : Type} (e : PatternError) (x : Scan α) : Prop where
  inBounds : x.InBounds
  error : ∀ offset input e', (x offset input).value = .error e' → e' = e

section Escapes

variable {α β : Type} {e : PatternError}

theorem failsOnly_of_isOk {x : Scan α} (hx : x.InBounds)
    (h : ∀ offset input, (x offset input).value.isOk = true) : x.FailsOnly e :=
  ⟨hx, fun offset input e' he =>
    absurd he (ne_error_of_isOk x offset input e' (h offset input))⟩

theorem failsOnly_pure (a : α) : (Scan.pure a).FailsOnly e :=
  failsOnly_of_isOk (Scan.inBounds_pure a) fun _ _ => rfl

theorem failsOnly_fail (cause : PatternError.Cause) (offset : Nat) :
    (Scan.fail cause offset : Scan α).FailsOnly ⟨cause, offset⟩ :=
  ⟨Scan.inBounds_fail cause offset, fun _ _ _ he => (Except.error.inj he).symm⟩

theorem failsOnly_bind {x : Scan α} {f : α → Scan β} (hx : x.FailsOnly e)
    (hf : ∀ a, (f a).FailsOnly e) : (x >>= f).FailsOnly e := by
  refine ⟨Scan.inBounds_bind hx.inBounds fun a => (hf a).inBounds, fun offset input e' he => ?_⟩
  rcases bind_error x f offset input e' he with he | ⟨n, a, _, he⟩
  · exact hx.error offset input e' he
  · exact (hf a).error _ _ e' he

variable (escapeAt : Nat)

-- The digits of an escape may be missing, and so may its braces.
theorem requiredNumber_failsOnly (base most : Nat) :
    (requiredNumber base most escapeAt).FailsOnly ⟨.badEscape, escapeAt⟩ := by
  refine failsOnly_bind (failsOnly_of_isOk ?_ fun _ _ => rfl) fun n => ?_
  · exact Scan.inBounds_bind (Scan.inBounds_digits base most) fun _ => Scan.inBounds_pure _
  · cases n with
    | none => exact failsOnly_fail _ _
    | some n => exact failsOnly_pure _

theorem bracedNumber_failsOnly (base : Nat) :
    (bracedNumber base escapeAt).FailsOnly ⟨.badEscape, escapeAt⟩ := by
  refine failsOnly_bind (requiredNumber_failsOnly escapeAt base 11) fun code => ?_
  refine failsOnly_bind (failsOnly_of_isOk Scan.inBounds_fetch fun _ _ => rfl) fun close => ?_
  split
  · exact failsOnly_pure _
  · exact failsOnly_fail _ _

theorem escapeCode_failsOnly (letter : UInt8) :
    (escapeCode letter escapeAt).FailsOnly ⟨.badEscape, escapeAt⟩ := by
  have hrequired (base most : Nat) :
      (requiredNumber base most escapeAt >>= fun n => Scan.pure (some n)).FailsOnly
        ⟨.badEscape, escapeAt⟩ :=
    failsOnly_bind (requiredNumber_failsOnly escapeAt base most) fun _ => failsOnly_pure _
  have hbraced (base : Nat) :
      (bracedNumber base escapeAt >>= fun n => Scan.pure (some n)).FailsOnly
        ⟨.badEscape, escapeAt⟩ :=
    failsOnly_bind (bracedNumber_failsOnly escapeAt base) fun _ => failsOnly_pure _
  unfold escapeCode
  split
  · refine failsOnly_bind (failsOnly_of_isOk (Scan.inBounds_acceptsIf _)
      (isOk_acceptsIf _)) fun brace => ?_
    split
    · exact hbraced 16
    · exact hrequired 16 2
  · exact hrequired 16 4
  · refine failsOnly_bind (failsOnly_of_isOk Scan.inBounds_fetch fun _ _ => rfl) fun brace => ?_
    split
    · exact hbraced 8
    · exact failsOnly_fail _ _
  -- Behind a digit there need not be another.
  · refine failsOnly_of_isOk ?_ fun _ _ => rfl
    exact Scan.inBounds_bind (Scan.inBounds_digits 8 3) fun _ => Scan.inBounds_pure _
  · split
    · refine failsOnly_of_isOk ?_ fun _ _ => rfl
      exact Scan.inBounds_bind (Scan.inBounds_digits 10 2) fun _ => Scan.inBounds_pure _
    · exact failsOnly_pure _

/-- The only error of an escape is the one at its backslash. -/
theorem escapeValue_failsOnly (letter : UInt8) :
    (escapeValue letter escapeAt).FailsOnly ⟨.badEscape, escapeAt⟩ := by
  unfold escapeValue
  split
  · exact failsOnly_pure _
  · exact failsOnly_bind (escapeCode_failsOnly escapeAt letter) fun _ => failsOnly_pure _

end Escapes

/-- Whatever error a scanner reports at an offset of the pattern, what is wrong stands
    where it says. -/
def Scan.Locates {α : Type} (d : Dialect) (pattern : List UInt8) (x : Scan α) (offset : Nat) :
    Prop :=
  ∀ e, (x offset (pattern.drop offset)).value = .error e → e.Located d pattern

section Scanners

variable {d : Dialect} {pattern : List UInt8} {α β : Type}

theorem locates_of_isOk (x : Scan α) (offset : Nat)
    (h : ∀ input, (x offset input).value.isOk = true) : x.Locates d pattern offset :=
  fun e he => absurd he (ne_error_of_isOk x offset _ e (h _))

theorem locates_of_failsOnly (x : Scan α) (offset : Nat) (e : PatternError) (hx : x.FailsOnly e)
    (h : e.Located d pattern) : x.Locates d pattern offset := by
  intro e' he
  rwa [hx.error _ _ e' he]

theorem locates_pure (a : α) (offset : Nat) : (Scan.pure a).Locates d pattern offset :=
  locates_of_isOk _ offset fun _ => rfl

theorem locates_fail (e : PatternError) (offset : Nat) (h : e.Located d pattern) :
    (Scan.fail e.cause e.offset : Scan α).Locates d pattern offset :=
  locates_of_failsOnly _ offset e (failsOnly_fail e.cause e.offset) h

/-- Scanners whose errors are located compose. The second one may count on what the first
    one has read. -/
theorem locates_bind (x : Scan α) (f : α → Scan β) (offset : Nat)
    (hx : x.Locates d pattern offset)
    (hf : ∀ used a, x offset (pattern.drop offset) = ⟨used, .ok a⟩ →
      (f a).Locates d pattern (offset + used)) :
    (x >>= f).Locates d pattern offset := by
  intro e he
  rcases bind_error x f offset _ e he with he | ⟨used, a, hread, he⟩
  · exact hx e he
  · rw [List.drop_drop] at he
    exact hf used a hread e he

theorem locates_bind_ok (x : Scan α) (f : α → Scan β) (offset : Nat)
    (hx : ∀ input, (x offset input).value.isOk = true)
    (hf : ∀ used a, x offset (pattern.drop offset) = ⟨used, .ok a⟩ →
      (f a).Locates d pattern (offset + used)) :
    (x >>= f).Locates d pattern offset :=
  locates_bind x f offset (locates_of_isOk x offset hx) hf

-- A scanner that uses nothing leaves the second one at the same place.
theorem locates_bind_nil (x : Scan α) (f : α → Scan β) (offset : Nat) (a : α)
    (hx : x.Reads offset [] a (pattern.drop offset)) (hf : (f a).Locates d pattern offset) :
    (x >>= f).Locates d pattern offset := by
  intro e he
  rw [bind_of_reads_nil x f offset _ a hx] at he
  exact hf e he

-- A value that cannot be read is located if the backslash of its escape is.
theorem escapeValue_locates (letter : UInt8) (escapeAt offset : Nat)
    (h : PatternError.Located d pattern ⟨.badEscape, escapeAt⟩) :
    (escapeValue letter escapeAt).Locates d pattern offset :=
  locates_of_failsOnly _ offset _ (escapeValue_failsOnly escapeAt letter) h

end Scanners

section Brackets

variable (d : Dialect) (openAt : Nat)

/-- A member that has been read is written at the front of the input. -/
theorem bracketMember_written (offset used : Nat) (input : List UInt8) (m : Member)
    (h : bracketMember d openAt offset input = ⟨used, .ok m⟩) :
    ∃ written rest, input = written ++ rest ∧ used = written.length ∧
      m.WrittenAs d offset written rest := by
  have hfail (e : PatternError) : (.error e : Except PatternError Member) ≠ .ok m := by
    simp only [ne_eq, reduceCtorEq, not_false_eq_true]
  rw [bracketMember, bind_of_reads_nil _ _ offset _ offset (reads_here _ _)] at h
  cases input with
  | nil => exact absurd (congrArg Scanned.value h) (hfail ⟨.unmatchedBracket, openAt⟩)
  | cons c rest =>
      rw [bind_fetch_cons] at h
      by_cases hc : Byte.is '\\' c = true
      · obtain rfl : c = 0x5C := Byte.eq_of_char c '\\' (eq_of_beq hc)
        simp only [if_pos hc] at h
        cases rest with
        | nil => exact absurd (congrArg Scanned.value h) (hfail ⟨.badEscape, offset⟩)
        | cons letter more =>
            rw [bind_fetch_cons] at h
            cases hs : (if d.has .classShorthands then classShorthand? letter else none) with
            | some s =>
                simp only [hs] at h
                have hset : (⟨1 + (1 + 0), .ok (.set s)⟩ : Scanned Member) = ⟨used, .ok m⟩ := h
                rw [Scanned.mk.injEq, Except.ok.injEq] at hset
                rw [Option.ite_none_right_eq_some] at hs
                rw [← hset.2]
                exact ⟨[0x5C, letter], more, rfl, hset.1.symm, letter, rfl, hs⟩
            | none =>
                simp only [hs] at h
                rw [Scanned.mk.injEq] at h
                rcases bind_ok _ _ _ more m h.2 with ⟨n, v, k, hvalue, hpure, hused⟩
                have hbyte : (⟨0, .ok (.byte (v.getD letter))⟩ : Scanned Member) = ⟨k, .ok m⟩ :=
                  hpure
                rw [Scanned.mk.injEq, Except.ok.injEq] at hbyte
                rcases reads_of_inBounds _ _ more (escapeValue_failsOnly offset letter).inBounds n v
                  hvalue with ⟨digits, rest, rfl, rfl, hreads⟩
                rw [← hbyte.2]
                refine ⟨0x5C :: letter :: digits, rest, rfl, ?_,
                  Or.inr ⟨letter, digits, v, rfl, hs, hreads, rfl⟩⟩
                rw [← h.1, hused, ← hbyte.1, List.length_cons, List.length_cons]
                omega
      · simp only [if_neg hc] at h
        have hbyte : (⟨1 + 0, .ok (.byte c)⟩ : Scanned Member) = ⟨used, .ok m⟩ := h
        rw [Scanned.mk.injEq, Except.ok.injEq] at hbyte
        rw [← hbyte.2]
        exact ⟨[c], rest, rfl, hbyte.1.symm, Or.inl ⟨rfl, Bool.eq_false_iff.2 hc⟩⟩

-- A member is written in at least one byte.
theorem Member.written_ne_nil (m : Member) (offset : Nat) (written rest : List UInt8)
    (h : m.WrittenAs d offset written rest) : written ≠ [] := by
  cases m with
  | byte c =>
      rcases h with ⟨rfl, _⟩ | ⟨letter, digits, v, rfl, _⟩
      · exact List.cons_ne_nil _ _
      · exact List.cons_ne_nil _ _
  | set s =>
      rcases h with ⟨letter, rfl, _⟩
      exact List.cons_ne_nil _ _

variable {d openAt} {pattern : List UInt8}

-- A named class opens with a bracket of its own.
theorem namedClass_locates (offset : Nat) (h : pattern[offset]? = some 0x5B) :
    namedClass.Locates d pattern offset := by
  have hlocated : PatternError.Located d pattern ⟨.invalidClassName, offset⟩ := ⟨0x5B, h, rfl⟩
  intro e he
  simp only [namedClass] at he
  split at he
  · split at he
    · exact absurd he (by simp only [reduceCtorEq, not_false_eq_true])
    · rwa [← Except.error.inj he]
  · rwa [← Except.error.inj he]

-- An item uses at least one byte.
theorem bracketItem_used_pos (offset used : Nat) (input : List UInt8) (s : ByteSet)
    (h : bracketItem d openAt offset input = ⟨used, .ok s⟩) : 1 ≤ used := by
  unfold bracketItem at h
  split at h
  · simp only [namedClass] at h
    split at h
    · split at h
      · rw [Scanned.mk.injEq] at h
        omega
      · exact absurd h (by simp only [Scanned.mk.injEq, reduceCtorEq, and_false, not_false_eq_true])
    · exact absurd h (by simp only [Scanned.mk.injEq, reduceCtorEq, and_false, not_false_eq_true])
  · rw [bracketRange, bind_of_reads_nil _ _ offset _ offset (reads_here _ _)] at h
    rcases bind_ok _ _ offset input s (congrArg Scanned.value h) with ⟨n, m, k, hmember, _, hused⟩
    rcases bracketMember_written d openAt offset n input m hmember with
      ⟨written, rest, _, hn, hwritten⟩
    have hpos := List.length_pos_iff.2 (m.written_ne_nil d offset written rest hwritten)
    have hlength : used = n + k := by rwa [h] at hused
    omega

variable (hopen : pattern[openAt]? = some 0x5B)

include hopen

-- The opening bracket is to blame where the pattern ends.
theorem unmatchedBracket_located : PatternError.Located d pattern ⟨.unmatchedBracket, openAt⟩ :=
  ⟨0x5B, hopen, rfl⟩

theorem bracketMember_locates (offset : Nat) :
    (bracketMember d openAt).Locates d pattern offset := by
  refine locates_bind_nil _ _ offset offset (reads_here _ _) ?_
  refine locates_bind_ok _ _ _ (fun _ => rfl) fun _ first hfirst => ?_
  cases first with
  | none => exact locates_fail ⟨.unmatchedBracket, openAt⟩ _ (unmatchedBracket_located hopen)
  | some c =>
      have hc : pattern[offset]? = some c := by
        rw [← List.head?_drop]
        exact Except.ok.inj (congrArg Scanned.value hfirst)
      simp only
      split
      · rename_i hslash
        have hescape : PatternError.Located d pattern ⟨.badEscape, offset⟩ :=
          ⟨c, hc, eq_of_beq hslash⟩
        refine locates_bind_ok _ _ _ (fun _ => rfl) fun _ letter _ => ?_
        cases letter with
        | none => exact locates_fail ⟨.badEscape, offset⟩ _ hescape
        | some letter =>
            simp only
            split
            · exact locates_pure _ _
            · exact locates_bind _ _ _ (escapeValue_locates letter offset _ hescape)
                fun _ _ _ => locates_pure _ _
      · exact locates_pure _ _

-- A range that is read up to its right end, and refused there, is a refused range.
theorem refusedRange_located (offset used used' : Nat) (c : UInt8) (m : Member)
    (hopenAt : openAt < offset)
    (hlow : bracketMember d openAt offset (pattern.drop offset) = ⟨used, .ok (.byte c)⟩)
    (hahead : continuesRange (pattern.drop (offset + used)) = true)
    (hhigh : bracketMember d openAt (offset + used + 1) (pattern.drop (offset + used + 1)) =
      ⟨used', .ok m⟩) (hm : m.endsRange c = false) :
    PatternError.Located d pattern ⟨.invalidRange, offset⟩ := by
  rcases bracketMember_written d openAt offset used _ _ hlow with
    ⟨low, behind, hsplit, rfl, hwritten⟩
  rw [← List.drop_drop, hsplit, List.drop_left] at hahead
  rw [← List.drop_drop, ← List.drop_drop, hsplit, List.drop_left] at hhigh
  -- The right end starts with something other than the closing bracket.
  obtain ⟨next, more, rfl, hnext⟩ :
      ∃ next more, behind = 0x2D :: next :: more ∧ Byte.is ']' next = false := by
    unfold continuesRange at hahead
    split at hahead
    · rename_i hyphen next more
      rw [Bool.and_eq_true, Bool.not_eq_true'] at hahead
      exact ⟨next, more, by rw [Byte.eq_of_char hyphen '-' (eq_of_beq hahead.1)]; rfl, hahead.2⟩
    · exact absurd hahead Bool.false_ne_true
  rcases bracketMember_written d openAt _ used' _ _ hhigh with ⟨high, rest, hrest, _, hwritten'⟩
  rcases List.exists_cons_of_ne_nil (m.written_ne_nil d _ high rest hwritten') with
    ⟨_, others, rfl⟩
  obtain ⟨rfl, rfl⟩ : next = _ ∧ more = others ++ rest := List.cons.inj hrest
  have hclosing : (next :: others).head? ≠ some 0x5D := by
    rw [List.head?_cons]
    rintro ⟨rfl⟩
    exact absurd hnext.symm Bool.false_ne_true
  rcases List.exists_cons_of_ne_nil (Member.written_ne_nil d _ offset low _ hwritten) with
    ⟨first, lows, rfl⟩
  refine ⟨first, ?_, openAt, first :: lows, next :: others, rest, c, m, hopenAt, hopen, hsplit,
    hwritten, hwritten', hclosing, hm⟩
  rw [← List.head?_drop, hsplit]
  rfl

theorem bracketRange_locates (offset : Nat) (hopenAt : openAt < offset) :
    (bracketRange d openAt).Locates d pattern offset := by
  refine locates_bind_nil _ _ offset offset (reads_here _ _) ?_
  refine locates_bind _ _ _ (bracketMember_locates hopen _) fun used low hlow => ?_
  cases low with
  | set s => exact locates_pure _ _
  | byte low =>
      refine locates_bind_nil _ _ _ (continuesRange (pattern.drop (offset + used))) rfl ?_
      split
      · rename_i hahead
        refine locates_bind_ok _ _ _ (fun _ => rfl) fun skipped _ hskip => ?_
        -- There is a hyphen to skip.
        obtain rfl : 1 = skipped := by
          have hlength : (pattern.drop (offset + used)).length ≠ 0 := by
            intro hnil
            rw [List.length_eq_zero_iff.1 hnil] at hahead
            exact Bool.false_ne_true hahead
          rw [Scan.skip, Scanned.mk.injEq] at hskip
          have hskipped : min 1 (pattern.drop (offset + used)).length = skipped := hskip.1
          omega
        refine locates_bind _ _ _ (bracketMember_locates hopen _) fun used' high hhigh => ?_
        have hrefused := refusedRange_located hopen offset used used' low high hopenAt hlow hahead
          hhigh
        cases high with
        | set s => exact locates_fail ⟨.invalidRange, offset⟩ _ (hrefused rfl)
        | byte high =>
            dsimp only
            split
            · rename_i hreversed
              exact locates_fail ⟨.invalidRange, offset⟩ _
                (hrefused (decide_eq_false (UInt8.not_le.2 hreversed)))
            · exact locates_pure _ _
      · exact locates_pure _ _

theorem bracketItem_locates (offset : Nat) (hopenAt : openAt < offset) :
    (bracketItem d openAt).Locates d pattern offset := by
  intro e he
  unfold bracketItem at he
  split at he
  · rename_i hnamed
    refine namedClass_locates offset ?_ e he
    rw [← List.head?_drop]
    unfold opensNamedClass at hnamed
    split at hnamed
    · rename_i bracket colon rest hinput
      simp only [Bool.and_eq_true] at hnamed
      rw [hinput, Byte.eq_of_char bracket '[' (eq_of_beq hnamed.1.1.1.1)]
      rfl
    · exact absurd hnamed Bool.false_ne_true
  · exact bracketRange_locates hopen offset hopenAt e he

/-- The errors in the items of a bracket expression are located, by induction along the
    items. -/
theorem bracketItems_locates (s : ByteSet) (offset : Nat) (hopenAt : openAt < offset) :
    (bracketItems d openAt s).Locates d pattern offset := by
  intro e he
  generalize hinput : pattern.drop offset = input at he
  fun_induction bracketItems d openAt s offset input with
  | case1 s offset =>
      rw [← Except.error.inj he]
      exact unmatchedBracket_located hopen
  | case2 s offset c rest hc => exact absurd he (by simp only [reduceCtorEq, not_false_eq_true])
  | case3 s offset c rest hc used e' hitem =>
      rw [← hinput] at hitem
      refine bracketItem_locates hopen offset hopenAt e ?_
      rw [hitem]
      exact congrArg Except.error (Except.error.inj he)
  | case4 s offset c rest hc used t hitem more ih =>
      have hused := bracketItem_used_pos offset used _ t hitem
      refine ih (by omega) ?_ he
      rw [← List.drop_drop, hinput, List.drop_cons hused]

theorem bracketSet_locates (ignoreCase : Bool) :
    (bracketSet d ignoreCase).Locates d pattern (openAt + 1) := by
  refine locates_bind_nil _ _ _ (openAt + 1) (reads_here _ _) ?_
  refine locates_bind_ok _ _ _ (isOk_acceptsIf _ _) fun _ negated _ => ?_
  refine locates_bind_ok _ _ _ (isOk_acceptsIf _ _) fun _ leading _ => ?_
  refine locates_bind _ _ _ (bracketItems_locates hopen _ _ (by omega)) fun _ _ _ => ?_
  exact locates_pure _ _

end Brackets

section Tokens

variable {d : Dialect} {c : UInt8}

theorem quantifierToken_introduced (kind : Quantifier.Kind) (min : Nat) (max : Option Nat)
    (h : Byte.char c ∈ ['*', '+', '?', '@', '\x7B']) :
    Scan.Ensures (Token.IntroducedBy c) (Token.quantifierToken d kind min max) :=
  ensures_bind (ensures_true _) fun _ _ => ensures_pure h

theorem escaped_introduced (start : Nat) (h : Byte.char c = '\\') :
    Scan.Ensures (Token.IntroducedBy c) (Token.escaped d start) := by
  obtain rfl : c = 0x5C := Byte.eq_of_char c _ h
  unfold Token.escaped
  refine ensures_bind (ensures_true _) fun letter _ => ?_
  cases letter with
  | none => exact ensures_fail _ _
  | some letter =>
      dsimp only
      split
      · exact ensures_pure rfl
      split
      · exact ensures_pure rfl
      iterate 3
        split
        · exact ensures_pure trivial
      split
      · exact ensures_pure trivial
      · exact ensures_bind (ensures_true _) fun _ _ => ensures_pure trivial

/-- A token is read behind a byte that introduces it. -/
theorem starting_introduced (ignoreCase : Bool) (start : Nat) :
    Scan.Ensures (Token.IntroducedBy c) (Token.starting d ignoreCase c start) := by
  refine starting_cases d ignoreCase (Scan.Ensures (Token.IntroducedBy c)) c start
    (fun h => escaped_introduced start h)
    (fun _ => ensures_bind (ensures_true _) fun _ _ => ensures_pure trivial)
    (fun h => ensures_bind (ensures_true _) fun _ _ =>
      quantifierToken_introduced _ _ _ (by rw [h]; decide))
    (fun h kind min max _ => quantifierToken_introduced kind min max ?_)
    (fun _ _ ht => ensures_pure ht)
  exact List.mem_append_left ['\x7B'] h

variable {pattern : List UInt8} {start : Nat} (hc : pattern[start]? = some c)

theorem quantifierToken_locates (kind : Quantifier.Kind) (min : Nat) (max : Option Nat)
    (offset : Nat) : (Token.quantifierToken d kind min max).Locates d pattern offset := by
  refine locates_bind_ok _ _ offset (fun input => ?_) fun _ _ _ => locates_pure _ _
  unfold Token.lazySuffix
  split
  · exact isOk_acceptsIf _ _ _
  · rfl

include hc

theorem interval_locates (h : Byte.char c = '\x7B') :
    interval.Locates d pattern (start + 1) := by
  intro e he
  rcases interval_cases (start + 1) (pattern.drop (start + 1)) with
    ⟨b, _, _, hb⟩ | ⟨b, _, hb⟩ | ⟨_, hb⟩
  · rw [hb] at he
    exact absurd he (by simp only [reduceCtorEq, not_false_eq_true])
  · rw [hb] at he
    rw [← Except.error.inj he]
    exact ⟨c, hc, List.mem_cons.2 (Or.inl h)⟩
  · rw [hb] at he
    rw [← Except.error.inj he]
    exact ⟨c, hc, h⟩

theorem escaped_locates (h : Byte.char c = '\\') :
    (Token.escaped d start).Locates d pattern (start + 1) := by
  have hescape : PatternError.Located d pattern ⟨.badEscape, start⟩ := ⟨c, hc, h⟩
  refine locates_bind_ok _ _ _ (fun _ => rfl) fun _ letter _ => ?_
  cases letter with
  | none => exact locates_fail ⟨.badEscape, start⟩ _ hescape
  | some letter =>
      dsimp only
      iterate 5
        split
        · exact locates_pure _ _
      split
      · exact locates_pure _ _
      · exact locates_bind _ _ _ (escapeValue_locates letter start _ hescape)
          fun _ _ _ => locates_pure _ _

/-- An error in a token is where it says. -/
theorem starting_locates (ignoreCase : Bool) :
    (Token.starting d ignoreCase c start).Locates d pattern (start + 1) := by
  refine starting_cases d ignoreCase (fun x => x.Locates d pattern (start + 1)) c start
    (fun h => escaped_locates hc h) (fun h => ?_) (fun h => ?_)
    (fun _ kind min max _ => quantifierToken_locates kind min max _)
    (fun t _ _ => locates_pure t _)
  · rw [Byte.eq_of_char c _ h] at hc
    exact locates_bind _ _ _ (bracketSet_locates hc ignoreCase) fun _ _ _ => locates_pure _ _
  · exact locates_bind _ _ _ (interval_locates hc h) fun _ _ _ =>
      quantifierToken_locates _ _ _ _

/-- A delimiter without a partner is to blame, whether it opens or closes. -/
theorem unmatched_located (delimiter : Delimiter)
    (h : (Token.openGroup delimiter).IntroducedBy c ∨
      (Token.closeGroup delimiter).IntroducedBy c) :
    PatternError.Located d pattern ⟨delimiter.unmatched, start⟩ := by
  refine ⟨c, hc, ?_⟩
  cases delimiter with
  | brace =>
      have hchar : Byte.char c ∈ ['\x7B', '\x7D'] := by
        rcases h with (h : Byte.char c = _) | (h : Byte.char c = _) <;> rw [h] <;> decide
      exact hchar
  | escapedParen =>
      have hchar : Byte.char c ∈ ['(', ')', '\\'] := by
        rcases h with (h : Byte.char c = _) | (h : Byte.char c = _) <;> rw [h] <;> decide
      exact hchar
  | paren =>
      have hchar : Byte.char c ∈ ['(', ')', '\\'] := by
        rcases h with (h : Byte.char c = _) | (h : Byte.char c = _) <;> rw [h] <;> decide
      exact hchar

/-- A token that is refused is to blame itself. -/
theorem accept_located (flags : CompileFlags) (p : Parser) (t : Token) (e : PatternError)
    (ht : t.IntroducedBy c) (h : p.accept flags start t = .error e) : e.Located d pattern := by
  cases t with
  | quantifier kind min max isLazy =>
      simp only [Parser.accept] at h
      split at h
      · exact absurd h (by simp only [reduceCtorEq, not_false_eq_true])
      · rw [← Except.error.inj h]
        exact ⟨c, hc, ht⟩
  | openGroup delimiter =>
      have hchar : Byte.char c ∈ ['(', '\x7B', '\\'] := by
        cases delimiter <;> rw [show Byte.char c = _ from ht] <;> decide
      have hlocated : PatternError.Located d pattern ⟨.levelOverflow, start⟩ := ⟨c, hc, hchar⟩
      simp only [Parser.accept, Parser.openGroup] at h
      split at h
      · split at h
        · exact absurd h (by simp only [reduceCtorEq, not_false_eq_true])
        · rwa [← Except.error.inj h]
      · rwa [← Except.error.inj h]
  | closeGroup delimiter =>
      have hlocated : PatternError.Located d pattern ⟨delimiter.unmatched, start⟩ :=
        unmatched_located hc delimiter (Or.inr ht)
      simp only [Parser.accept, Parser.closeGroup] at h
      split at h
      · rwa [← Except.error.inj h]
      · split at h
        · exact absurd h (by simp only [reduceCtorEq, not_false_eq_true])
        · rwa [← Except.error.inj h]
  | _ => exact absurd h (by simp only [Parser.accept, reduceCtorEq, not_false_eq_true])

end Tokens

section Runs

variable (options : CompileOptions) (pattern : List UInt8)

-- What the next byte is, and where the bytes behind it start.
theorem drop_eq_cons (offset : Nat) (c : UInt8) (rest : List UInt8)
    (h : pattern.drop offset = c :: rest) :
    pattern[offset]? = some c ∧ pattern.drop (offset + 1) = rest := by
  constructor
  · rw [← List.head?_drop, h, List.head?_cons]
  · rw [← List.drop_drop, h, List.drop_one, List.tail_cons]

/-- An error in the tokens is where it says, by induction along the tokens. -/
theorem run_located (p : Parser) (offset : Nat) (e : PatternError)
    (h : Parser.run options p offset (pattern.drop offset) = .error e) :
    e.Located options.dialect pattern := by
  generalize hinput : pattern.drop offset = input at h
  fun_induction Parser.run options p offset input with
  | case1 p offset => exact absurd h (by simp only [reduceCtorEq, not_false_eq_true])
  | case2 p offset c rest used e' hread =>
      rcases drop_eq_cons pattern offset c rest hinput with ⟨hc, rfl⟩
      refine starting_locates hc options.flags.ignoreCase e ?_
      rw [hread, ← Except.error.inj h]
  | case3 p offset c rest used t hread e' haccept =>
      rcases drop_eq_cons pattern offset c rest hinput with ⟨hc, rfl⟩
      rw [← Except.error.inj h]
      exact accept_located hc options.flags p t e'
        (starting_introduced _ _ _ _ t (by rw [hread])) haccept
  | case4 p offset c rest used t hread next haccept ih =>
      refine ih ?_ h
      rw [← List.drop_drop, (drop_eq_cons pattern offset c rest hinput).2]

/-- Each token starts at its offset with the byte that introduces it. -/
theorem tokens_introduced (d : Dialect) (ignoreCase : Bool) (offset : Nat) :
    ∀ o t, (o, t) ∈ tokens d ignoreCase offset (pattern.drop offset) →
      ∃ c, pattern[o]? = some c ∧ t.IntroducedBy c := by
  generalize hinput : pattern.drop offset = input
  fun_induction tokens d ignoreCase offset input with
  | case1 offset => exact fun _ _ h => absurd h List.not_mem_nil
  | case2 offset c rest used e hread => exact fun _ _ h => absurd h List.not_mem_nil
  | case3 offset c rest used t hread ih =>
      rcases drop_eq_cons pattern offset c rest hinput with ⟨hc, rfl⟩
      intro o t' h
      rcases List.mem_cons.1 h with h | h
      · rw [Prod.mk.injEq] at h
        rw [h.1, h.2]
        exact ⟨c, hc, starting_introduced _ _ _ _ t (by rw [hread])⟩
      · exact ih (by rw [← List.drop_drop]) o t' h

/-- A group that is not closed at the end is where it was opened. -/
theorem finish_located (last : Parser) (e : PatternError)
    (h : Parser.run options {} 0 pattern = .ok last) (he : last.finish = .error e) :
    e.Located options.dialect pattern := by
  rcases finish_innermost options pattern last e h he with ⟨d, hcause, before, inside, htokens, _⟩
  -- The opening delimiter is one of the tokens.
  have hmem : (e.offset, Token.openGroup d) ∈
      tokens options.dialect options.flags.ignoreCase 0 pattern := by
    rw [htokens]
    exact List.mem_append_right _ List.mem_cons_self
  rcases tokens_introduced pattern options.dialect options.flags.ignoreCase 0 e.offset _ hmem with
    ⟨c, hc, hintroduced⟩
  have hlocated : PatternError.Located options.dialect pattern ⟨d.unmatched, e.offset⟩ :=
    unmatched_located hc d (Or.inl hintroduced)
  rwa [← hcause] at hlocated

end Runs

end Pattern

-- What is wrong with a pattern is found when its tree is read.
theorem compile_error (options : CompileOptions) (pattern : Bytes) (e : PatternError)
    (h : compile options pattern = .error e) : Pattern.parse options pattern = .error e := by
  rw [compile] at h
  cases ht : Pattern.parse options pattern with
  | error e' =>
      rw [ht] at h
      exact congrArg Except.error (Except.error.inj h)
  | ok t =>
      rw [ht] at h
      exact absurd h (by simp only [bind, Except.bind, pure, Except.pure, reduceCtorEq,
        not_false_eq_true])

/-- An error is where the pattern is wrong. The offset is that of a byte of the pattern, and
    the byte introduces the construct that cannot be read. If all tokens could be used and
    a group is not closed, it is the innermost group that is still open. -/
theorem compile_error_located (options : CompileOptions) (pattern : Bytes) (e : PatternError)
    (h : compile options pattern = .error e) :
    e.Located options.dialect pattern.toList ∧
      ((Pattern.Parser.run options {} 0 pattern.toList).isOk = true →
        ∃ d : Pattern.Delimiter, e.cause = d.unmatched ∧
          Pattern.InnermostOpen
            (Pattern.tokens options.dialect options.flags.ignoreCase 0 pattern.toList)
            e.offset d) := by
  have hparse := compile_error options pattern e h
  rw [Pattern.parse] at hparse
  cases hrun : Pattern.Parser.run options {} 0 pattern.toList with
  | error e' =>
      rw [hrun] at hparse
      rw [← Except.error.inj hparse]
      exact ⟨Pattern.run_located options pattern.toList {} 0 e' hrun,
        fun hok => absurd hok Bool.false_ne_true⟩
  | ok last =>
      rw [hrun] at hparse
      exact ⟨Pattern.finish_located options pattern.toList last e hrun hparse,
        fun _ => Pattern.finish_innermost options pattern.toList last e hrun hparse⟩

-- In `(a)((b([z-\n` the range is refused, for `\n` sorts before `z`. In `(a)((b)([c]` the
-- innermost group that is open is the last one.
theorem compile_error_located_nested :
    compile { dialect := .perl } #[0x28, 0x61, 0x29, 0x28, 0x28, 0x62, 0x28, 0x5B, 0x7A, 0x2D,
        0x5C, 0x6E] = .error ⟨.invalidRange, 8⟩ ∧
      Pattern.RefusedRange .perl [0x28, 0x61, 0x29, 0x28, 0x28, 0x62, 0x28, 0x5B, 0x7A, 0x2D,
        0x5C, 0x6E] 8 ∧
      compile { dialect := .perl } #[0x28, 0x61, 0x29, 0x28, 0x28, 0x62, 0x29, 0x28, 0x5B, 0x63,
        0x5D] = .error ⟨.unmatchedParen, 7⟩ ∧
      ∃ d, Pattern.InnermostOpen (Pattern.tokens .perl false 0 [0x28, 0x61, 0x29, 0x28, 0x28, 0x62,
        0x29, 0x28, 0x5B, 0x63, 0x5D]) 7 d := by
  have hrange : compile { dialect := .perl } #[0x28, 0x61, 0x29, 0x28, 0x28, 0x62, 0x28, 0x5B,
      0x7A, 0x2D, 0x5C, 0x6E] = .error ⟨.invalidRange, 8⟩ := by
    with_unfolding_all rfl
  have hgroup : compile { dialect := .perl } #[0x28, 0x61, 0x29, 0x28, 0x28, 0x62, 0x29, 0x28,
      0x5B, 0x63, 0x5D] = .error ⟨.unmatchedParen, 7⟩ := by
    with_unfolding_all rfl
  rcases compile_error_located _ _ _ hrange with ⟨⟨_, _, hrefused⟩, _⟩
  rcases (compile_error_located _ _ _ hgroup).2 (by decide +kernel) with ⟨d, _, hopen⟩
  exact ⟨hrange, hrefused, hgroup, d, hopen⟩

end ByteRegex
