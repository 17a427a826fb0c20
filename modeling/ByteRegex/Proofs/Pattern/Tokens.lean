import ByteRegex.Pattern.Parser
import ByteRegex.Proofs.Pattern.Spelling

/-!
# Reading Spelled Tokens

Every token of a spelled pattern is read as what it stands for, in each dialect
that has it. `Spells` says so of a sequence of bytes: whatever stands behind them,
they are read as one token, and nothing behind them is used.

One token depends on what stands behind it. Where quantifiers have a lazy suffix,
a question mark behind a quantifier is its suffix, so a quantifier that is spelled
without one is read as such only if no question mark follows. `Unsuffixed` is that
condition, and no piece violates it: a piece begins with a question mark only in
the dialect where that matches any byte, and there is no lazy suffix in it.

## Main definitions

* `Spells`: The bytes are read as one token.
* `Unsuffixed`: What stands here is no suffix of a quantifier.

## Theorems

* `spells_byte`, `spells_bracket`, `spells_shorthand`: Bytes and classes are read.
* `spells_sign`: A sign is read where the dialect has it.
* `spells_repetition`: A quantifier is read with its suffix.
* `spells_opening`, `spells_closing`: The delimiters of a group are read.
* `unsuffixed_pieces`: No piece can be taken for a suffix.
-/

namespace ByteRegex

namespace Pattern

variable (d : Dialect) (ignoreCase : Bool)

/-- The bytes, with `rest` behind them, are read as one token. -/
def Spells (bytes : List UInt8) (t : Token) (rest : List UInt8) : Prop :=
  ∃ c more, bytes = c :: more ∧
    ∀ start, (Token.starting d ignoreCase c start).Reads (start + 1) more t rest

/-- What stands here cannot be taken for the suffix of a quantifier. -/
def Unsuffixed (rest : List UInt8) : Prop :=
  d.has .lazySuffix = true → rest.head?.any (Byte.is '?') = false

-- A byte that makes up a token of its own.
theorem spells_single (c : UInt8) (t : Token) (rest : List UInt8)
    (h : ∀ start, Token.starting d ignoreCase c start = Scan.pure t) :
    Spells d ignoreCase [c] t rest := by
  refine ⟨c, [], rfl, fun start => ?_⟩
  rw [h start]
  exact reads_pure _ _ _

-- The letter of an escape is another one than the one that is asked for.
theorem not_letter (letter : UInt8) (ch : Char) (enabled : Bool)
    (h : decide (Byte.char letter = ch) = false) :
    ¬ (decide (Byte.char letter = ch) && enabled) = true := by
  rw [h, Bool.false_and]
  exact Bool.false_ne_true

-- It is the one that is asked for, and the dialect has what it stands for.
theorem is_letter (letter : UInt8) (ch : Char) (enabled : Bool)
    (h : decide (Byte.char letter = ch) = true) (henabled : enabled = true) :
    (decide (Byte.char letter = ch) && enabled) = true := by
  rw [h, henabled, Bool.true_and]

-- An escape that is no group, anchor or cursor stands for a class or a byte.
theorem spells_escape (letter : UInt8) (more : List UInt8) (t : Token) (rest : List UInt8)
    (hletter : Byte.char letter ∉ ['(', ')', 'c', '<', '>'])
    (h : ∀ start, Scan.Reads
      (match if d.has .classShorthands then classShorthand? letter else none with
        | some s => return .set s
        | none => return .literal ((← escapeValue letter start).getD letter))
      (start + 1 + 1) more t rest) :
    Spells d ignoreCase (0x5C :: letter :: more) t rest := by
  simp only [List.mem_cons, not_or] at hletter
  rcases hletter with ⟨hopen, hclose, hcursor, hless, hgreater, _⟩
  refine ⟨0x5C, letter :: more, rfl, fun start => ?_⟩
  refine reads_bind _ _ _ [letter] more rest (some letter) _ (reads_fetch _ _ _) ?_
  simp only
  rw [if_neg (not_letter letter '(' _ (decide_eq_false hopen)),
    if_neg (not_letter letter ')' _ (decide_eq_false hclose)),
    if_neg (not_letter letter 'c' _ (decide_eq_false hcursor)),
    if_neg (not_letter letter '<' _ (decide_eq_false hless)),
    if_neg (not_letter letter '>' _ (decide_eq_false hgreater))]
  exact h start

theorem spells_byte (b : HexByte) (rest : List UInt8) :
    Spells d ignoreCase b.spelled (.literal b.value) rest := by
  refine spells_escape d ignoreCase 0x78 b.digits _ rest (by decide) fun start => ?_
  have hletter : (if d.has .classShorthands then classShorthand? 0x78 else none) = none := by
    cases d.has .classShorthands <;> rfl
  rw [hletter]
  exact reads_bind_end _ _ _ _ rest _ _ (escapeValue_hex b start _ rest) (reads_pure _ _ _)

theorem spells_shorthand (s : Shorthand) (rest : List UInt8)
    (h : d.has .classShorthands = true) :
    Spells d ignoreCase s.spelled (.set s.set) rest := by
  have hletter : Byte.char s.letter ∉ ['(', ')', 'c', '<', '>'] := by
    rcases s with ⟨_ | _ | _, _ | _⟩ <;> decide
  refine spells_escape d ignoreCase s.letter [] _ rest hletter fun start => ?_
  rw [if_pos h, classShorthand?_letter]
  exact reads_pure _ _ _

theorem spells_bracket (b : Bracket) (rest : List UInt8) (h : b.fits d = true) :
    Spells d ignoreCase (0x5B :: b.spelled) (.set (b.set ignoreCase)) rest := by
  refine ⟨0x5B, b.spelled, rfl, fun start => ?_⟩
  exact reads_bind_end _ _ _ _ rest _ _ (bracketSet_spelled d ignoreCase b h _ rest)
    (reads_pure _ _ _)

/-- A sign is read as the block it stands for, in every dialect that has it. -/
theorem spells_sign (flags : CompileFlags) (s : Sign) (rest : List UInt8)
    (h : d.has s.construct = true) :
    ∃ t, Spells d ignoreCase s.spelled t rest ∧ ∀ (p : Parser) (start : Nat),
      p.accept flags start t = .ok { p with level := p.level.push s.block } := by
  cases s with
  | questionMark => exact ⟨.anyChar, spells_single d _ _ _ _ fun _ => if_pos h, fun _ _ => rfl⟩
  | dot =>
      exact ⟨.anyChar, spells_single d _ _ _ _ fun _ => congrArg Scan.pure (if_pos h),
        fun _ _ => rfl⟩
  | star => exact ⟨.anyString, spells_single d _ _ _ _ fun _ => if_pos h, fun _ _ => rfl⟩
  | less =>
      exact ⟨.anchor .lineBegin, spells_single d _ _ _ _ fun _ => congrArg Scan.pure (if_pos h),
        fun _ _ => rfl⟩
  | percent =>
      exact ⟨.anchor .lineBegin, spells_single d _ _ _ _ fun _ => congrArg Scan.pure (if_pos h),
        fun _ _ => rfl⟩
  | greater =>
      exact ⟨.anchor .lineEnd, spells_single d _ _ _ _ fun _ => congrArg Scan.pure (if_pos h),
        fun _ _ => rfl⟩
  | caret =>
      exact ⟨.anchor .lineBegin, spells_single d _ _ _ _ fun _ => congrArg Scan.pure (if_pos h),
        fun _ _ => rfl⟩
  | dollar =>
      exact ⟨.anchor .lineEnd, spells_single d _ _ _ _ fun _ => congrArg Scan.pure (if_pos h),
        fun _ _ => rfl⟩
  | escapedC =>
      -- The three escapes differ in how many letters are asked for before theirs.
      refine ⟨.cursor, ⟨0x5C, [0x63], rfl, fun start => ?_⟩, fun _ _ => rfl⟩
      refine reads_bind_end _ _ _ [0x63] rest (some 0x63) _ (reads_fetch _ _ _) ?_
      simp only
      rw [if_neg (not_letter 0x63 '(' _ rfl), if_neg (not_letter 0x63 ')' _ rfl),
        if_pos (is_letter 0x63 'c' (d.has .cursorEscape) rfl h)]
      exact reads_pure _ _ _
  | escapedLess =>
      refine ⟨.anchor .wordBegin, ⟨0x5C, [0x3C], rfl, fun start => ?_⟩, fun _ _ => rfl⟩
      refine reads_bind_end _ _ _ [0x3C] rest (some 0x3C) _ (reads_fetch _ _ _) ?_
      simp only
      rw [if_neg (not_letter 0x3C '(' _ rfl), if_neg (not_letter 0x3C ')' _ rfl),
        if_neg (not_letter 0x3C 'c' _ rfl),
        if_pos (is_letter 0x3C '<' (d.has .wordAnchors) rfl h)]
      exact reads_pure _ _ _
  | escapedGreater =>
      refine ⟨.anchor .wordEnd, ⟨0x5C, [0x3E], rfl, fun start => ?_⟩, fun _ _ => rfl⟩
      refine reads_bind_end _ _ _ [0x3E] rest (some 0x3E) _ (reads_fetch _ _ _) ?_
      simp only
      rw [if_neg (not_letter 0x3E '(' _ rfl), if_neg (not_letter 0x3E ')' _ rfl),
        if_neg (not_letter 0x3E 'c' _ rfl), if_neg (not_letter 0x3E '<' _ rfl),
        if_pos (is_letter 0x3E '>' (d.has .wordAnchors) rfl h)]
      exact reads_pure _ _ _

-- Constructs that share a byte exclude each other.
theorem has_exclusive :
    (d.has .starRepeat = true → d.has .starAnyString = false) ∧
      (d.has .questionOptional = true → d.has .questionAnyChar = false) ∧
      (d.has .braceGroup = true → d.has .interval = false) ∧
      (d.has .questionAnyChar = true → d.has .lazySuffix = false) := by
  cases d <;> decide

-- A suffix is used if there is one.
theorem lazySuffix_spelled (isLazy : Bool) (offset : Nat) (rest : List UInt8)
    (hlazy : isLazy = true → d.has .lazySuffix = true)
    (hrest : isLazy = false → Unsuffixed d rest) :
    (Token.lazySuffix d).Reads offset (if isLazy then [0x3F] else []) isLazy rest := by
  cases isLazy with
  | true =>
      rw [Token.lazySuffix, if_pos (hlazy rfl)]
      exact reads_acceptsIf _ offset 0x3F rest rfl
  | false =>
      rw [Token.lazySuffix]
      by_cases h : d.has .lazySuffix = true
      · rw [if_pos h]
        exact reads_acceptsIf_not _ offset rest (hrest rfl h)
      · rw [if_neg h]
        exact reads_pure _ _ _

/-- A quantifier is read with its suffix, in every dialect that has it. -/
theorem spells_repetition (r : Repetition) (isLazy : Bool) (rest : List UInt8)
    (h : d.has r.construct = true) (hlazy : isLazy = true → d.has .lazySuffix = true)
    (hrest : isLazy = false → Unsuffixed d rest) :
    Spells d ignoreCase (r.spelled ++ if isLazy then [0x3F] else [])
      (.quantifier r.kind r.min r.max isLazy) rest := by
  have hsuffix (offset : Nat) :
      (Token.quantifierToken d r.kind r.min r.max).Reads offset (if isLazy then [0x3F] else [])
        (.quantifier r.kind r.min r.max isLazy) rest :=
    reads_bind_end _ _ _ _ rest _ _ (lazySuffix_spelled d isLazy offset rest hlazy hrest)
      (reads_pure _ _ _)
  -- A quantifier of one byte is the byte's only meaning in the dialect.
  have hsingle (c : UInt8) (heq : ∀ start,
      Token.starting d ignoreCase c start = Token.quantifierToken d r.kind r.min r.max) :
      Spells d ignoreCase ([c] ++ if isLazy then [0x3F] else [])
        (.quantifier r.kind r.min r.max isLazy) rest := by
    refine ⟨c, _, rfl, fun start => ?_⟩
    rw [heq start]
    exact hsuffix _
  cases r with
  | star =>
      -- The byte repeats in some dialects and matches any run in another.
      have hnot : ¬ d.has .starAnyString = true := by
        rw [(has_exclusive d).1 h]
        exact Bool.false_ne_true
      exact hsingle 0x2A fun _ => (if_neg hnot).trans (if_pos h)
  | atSign => exact hsingle 0x40 fun _ => if_pos h
  | plus => exact hsingle 0x2B fun _ => if_pos h
  | questionMark =>
      -- The byte makes optional in some dialects and matches any byte in another.
      have hnot : ¬ d.has .questionAnyChar = true := by
        rw [(has_exclusive d).2.1 h]
        exact Bool.false_ne_true
      exact hsingle 0x3F fun _ => (if_neg hnot).trans (if_pos h)
  | interval b hb =>
      refine ⟨0x7B, _, rfl, fun start => ?_⟩
      have hstarting : Token.starting d ignoreCase 0x7B start
          = interval >>= fun b => Token.quantifierToken d .interval b.1 b.2 := if_pos h
      rw [hstarting]
      exact reads_bind _ _ _ (b.spelled ++ [0x7D]) _ rest _ _ (interval_spelled b _ _ hb)
        (hsuffix _)

/-- An opening delimiter is read, in every dialect that has it. -/
theorem spells_opening (delimiter : Delimiter) (rest : List UInt8)
    (h : d.has delimiter.construct = true) :
    Spells d ignoreCase delimiter.opening (.openGroup delimiter) rest := by
  cases delimiter with
  | brace =>
      -- Where braces enclose groups they do not hold bounds.
      have hnot : ¬ d.has .interval = true := by
        rw [(has_exclusive d).2.2.1 h]
        exact Bool.false_ne_true
      exact spells_single d _ _ _ _ fun _ =>
        (if_neg hnot).trans (congrArg Scan.pure (if_pos h))
  | escapedParen =>
      refine ⟨0x5C, [0x28], rfl, fun start => ?_⟩
      refine reads_bind_end _ _ _ [0x28] rest (some 0x28) _ (reads_fetch _ _ _) ?_
      simp only
      rw [if_pos (is_letter 0x28 '(' (d.has .escapedParenGroup) rfl h)]
      exact reads_pure _ _ _
  | paren => exact spells_single d _ _ _ _ fun _ => congrArg Scan.pure (if_pos h)

/-- A closing delimiter is read, in every dialect that has it. -/
theorem spells_closing (delimiter : Delimiter) (rest : List UInt8)
    (h : d.has delimiter.construct = true) :
    Spells d ignoreCase delimiter.closing (.closeGroup delimiter) rest := by
  cases delimiter with
  | brace => exact spells_single d _ _ _ _ fun _ => congrArg Scan.pure (if_pos h)
  | escapedParen =>
      refine ⟨0x5C, [0x29], rfl, fun start => ?_⟩
      refine reads_bind_end _ _ _ [0x29] rest (some 0x29) _ (reads_fetch _ _ _) ?_
      simp only
      rw [if_neg (not_letter 0x29 '(' _ rfl),
        if_pos (is_letter 0x29 ')' (d.has .escapedParenGroup) rfl h)]
      exact reads_pure _ _ _
  | paren => exact spells_single d _ _ _ _ fun _ => congrArg Scan.pure (if_pos h)

-- The bar between alternatives is read in every dialect.
theorem spells_bar (rest : List UInt8) : Spells d ignoreCase [0x7C] .alternative rest := by
  have hbar : d.has .barAlternation = true := by cases d <;> decide
  exact spells_single d _ _ _ _ fun _ => congrArg Scan.pure (if_pos hbar)

-- A first byte that is no question mark is no suffix.
theorem unsuffixed_cons (c : UInt8) (rest : List UInt8) (h : Byte.is '?' c = false) :
    Unsuffixed d (c :: rest) := fun _ => h

-- No piece can be taken for a suffix, by recursion on a quantified piece: it begins as
-- its element does.
theorem unsuffixed_piece (p : Piece) (rest : List UInt8) (h : p.fits d = true) :
    Unsuffixed d (p.spelled ++ rest) := by
  cases p with
  | byte b => exact unsuffixed_cons d 0x5C _ rfl
  | bracket b => exact unsuffixed_cons d 0x5B _ rfl
  | shorthand s => exact unsuffixed_cons d 0x5C _ rfl
  | sign s =>
      cases s with
      | questionMark =>
          -- The dialect in which this matches any byte has no suffix.
          intro hlazy
          rw [(has_exclusive d).2.2.2 h] at hlazy
          exact absurd hlazy Bool.false_ne_true
      | _ => exact unsuffixed_cons d _ _ rfl
  | group delimiter first others =>
      rw [Piece.spelled]
      cases delimiter <;> exact unsuffixed_cons d _ _ rfl
  | quantified r isLazy element =>
      rw [Piece.fits, Bool.and_eq_true] at h
      rw [Piece.spelled, List.append_assoc]
      exact unsuffixed_piece element _ h.2

theorem unsuffixed_pieces (ps : List Piece) (rest : List UInt8) (h : Pieces.fits d ps = true)
    (hrest : Unsuffixed d rest) : Unsuffixed d (Pieces.spelled ps ++ rest) := by
  cases ps with
  | nil => exact hrest
  | cons p ps =>
      rw [Pieces.fits, Bool.and_eq_true] at h
      rw [Pieces.spelled, List.append_assoc]
      exact unsuffixed_piece d p _ h.1

theorem unsuffixed_others (others : List (List Piece)) (rest : List UInt8)
    (hrest : Unsuffixed d rest) : Unsuffixed d (Others.spelled others ++ rest) := by
  cases others with
  | nil => exact hrest
  | cons s others => exact unsuffixed_cons d 0x7C _ rfl

theorem unsuffixed_closing (delimiter : Delimiter) (rest : List UInt8) :
    Unsuffixed d (delimiter.closing ++ rest) := by
  cases delimiter <;> exact unsuffixed_cons d _ _ rfl

end Pattern

end ByteRegex
