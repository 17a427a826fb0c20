import ByteRegex.Proofs.Search.Exactness

/-!
# A Text of One Line

Whether a program is made for texts of several lines does not show in a text of one line.
The flag has no part in how a pattern is parsed, so the operations are the same. What it
changes is the tests: the wildcards stop at a line feed, and the line anchors also hold
next to one. Without a line feed in the text all of them have the same answers either
way.

The positions that a search tries do depend on the flag, and in a different way in each
direction: a program that begins with a line's begin tries the start of the text alone,
or goes on to look for line feeds. That is settled by the exactness of the search. As the
matches at each position are the same, so is the nearest one.

## Main definitions

* `CompileOptions.withMultiline`: Options with the flag set or cleared.

## Theorems

* `parse_withMultiline`: A pattern is parsed in the same way.
* `sameTests_singleLine`: In a text without line feeds the tests have the same answers.
* `search_singleLine`: So every search finds the same.
-/

namespace ByteRegex

open Machine

/-- Options for texts of several lines, or for texts of one. -/
def CompileOptions.withMultiline (options : CompileOptions) (multiline : Bool) :
    CompileOptions :=
  { options with flags := { options.flags with multiline := multiline } }

namespace Pattern

-- Neither reading a token nor its effect depends on the flag.
theorem run_withMultiline (options : CompileOptions) (multiline : Bool) (p : Parser)
    (offset : Nat) (input : List UInt8) :
    Parser.run (options.withMultiline multiline) p offset input =
      Parser.run options p offset input := by
  have htoken (c : UInt8) (offset : Nat) (rest : List UInt8) :
      Token.starting (options.withMultiline multiline).dialect
          (options.withMultiline multiline).flags.ignoreCase c offset (offset + 1) rest =
        Token.starting options.dialect options.flags.ignoreCase c offset (offset + 1) rest := rfl
  have haccept (p : Parser) (start : Nat) (t : Token) :
      p.accept (options.withMultiline multiline).flags start t =
        p.accept options.flags start t := by
    cases t <;> rfl
  fun_induction Parser.run options p offset input with
  | case1 p offset => rw [Parser.run]
  | case2 p offset c rest used e hread => simp only [Parser.run, htoken, hread]
  | case3 p offset c rest used t hread e herror =>
      simp only [Parser.run, htoken, hread, haccept, herror]
  | case4 p offset c rest used t hread next hnext ih =>
      simp only [Parser.run, htoken, hread, haccept, hnext, ih]

/-- A pattern has the same tree, or the same error, with the flag and without it. -/
theorem parse_withMultiline (options : CompileOptions) (multiline : Bool) (pattern : Bytes) :
    parse (options.withMultiline multiline) pattern = parse options pattern := by
  rw [parse, parse, run_withMultiline]

end Pattern

section OneLine

variable {text : Bytes} (hline : Byte.lineFeed ∉ text)

include hline

theorem any_lineFeed_singleLine (pos : Nat) : text[pos]?.any (· == Byte.lineFeed) = false := by
  by_contra hfeed
  rw [Bool.not_eq_false, any_lineFeed_iff] at hfeed
  exact hline (Array.mem_of_getElem? hfeed)

theorem contains_lineFeed_singleLine (pos stop : Nat) :
    (text.extract pos stop).contains Byte.lineFeed = false := by
  by_contra hcross
  rw [Bool.not_eq_false, crosses_iff] at hcross
  rcases hcross with ⟨i, _, _, hi⟩
  exact hline (Array.mem_of_getElem? hi)

-- No byte is one that an any-char would have to stop at.
theorem any_char_singleLine (multiline : Bool) (pos : Nat) :
    (text[pos]?.any fun c => !(multiline && c == Byte.lineFeed)) = text[pos]?.isSome := by
  have hnot := any_lineFeed_singleLine hline pos
  cases hc : text[pos]? with
  | none => rfl
  | some c =>
      rw [hc, Option.any_some] at hnot
      simp only [Option.any_some, hnot, Bool.and_false, Bool.not_false, Option.isSome_some]

/-- In a text without line feeds the tests of a program have the same answers with the flag
    and without it. -/
theorem sameTests_singleLine (p p' : Program) (multiline : Bool)
    (hoptions : p'.options = p.options.withMultiline multiline) (flags : SearchFlags)
    (scan : ExactScan) : SameTests ⟨p', text, flags, scan⟩ ⟨p, text, flags, scan⟩ where
  size := rfl
  literal := fun _ _ => by simp only [Env.ignoreCase, hoptions, CompileOptions.withMultiline]
  set := fun _ _ => rfl
  anyChar := fun pos => by simp only [Env.byteIs, any_char_singleLine hline]
  anyString := fun pos => by
    simp only [Env.stretches, Env.minimal, hoptions, contains_lineFeed_singleLine hline,
      Bool.and_false]
    rfl
  anchor := fun pos a => by
    have hfeed := any_lineFeed_singleLine hline
    cases a <;> simp only [Env.holdsAt, Env.byteBeforeIs, Env.byteIs, hfeed, Bool.and_false]

end OneLine

/-- A pattern that compiles also compiles with the flag for texts of several lines set or
    cleared, and in every text without line feeds the two programs find the same: from every
    offset and with all options of a search the match, its groups and its cursor are the
    same. -/
theorem search_singleLine (options : CompileOptions) (pattern : Bytes) (p : Program)
    (h : compile options pattern = .ok p) (multiline : Bool) :
    ∃ p', compile (options.withMultiline multiline) pattern = .ok p' ∧
      ∀ text : Bytes, Byte.lineFeed ∉ text →
        ∀ (offset : Nat) (search : SearchOptions) (scan : ExactScan),
          p'.search text offset search scan = p.search text offset search scan := by
  rcases compile_parse options pattern p h with ⟨t, hparse, rfl⟩
  have ht := Pattern.parse_proper options pattern t hparse
  refine ⟨Program.ofPattern (options.withMultiline multiline) t, ?_, ?_⟩
  · rw [compile, Pattern.parse_withMultiline, hparse]
    rfl
  · intro text hline offset search scan
    -- The programs have the tree in common, and the tests decide at each position.
    have htests := sameTests_singleLine hline (Program.ofPattern options t)
      (Program.ofPattern (options.withMultiline multiline) t) multiline rfl search.flags scan
    refine search_congr text offset search scan t ht _ rfl t ht options rfl rfl rfl rfl
      (fun s hs => ?_)
    rw [matchAt_of_outcomes _ t ht rfl s hs, matchAt_of_outcomes _ t ht rfl s hs,
      outcomes_congr_alternatives _ _ htests]

-- The pattern `^(.*b|)$`, for texts of several lines and of one, finds the whole of `ab`
-- backward from its end, although only one of the searches looks for a line feed.
theorem search_singleLine_backward :
    ∃ p p', compile { dialect := .perl } #[0x5E, 0x28, 0x2E, 0x2A, 0x62, 0x7C, 0x29, 0x24] = .ok p ∧
      compile (CompileOptions.withMultiline { dialect := .perl } true)
        #[0x5E, 0x28, 0x2E, 0x2A, 0x62, 0x7C, 0x29, 0x24] = .ok p' ∧
      Byte.lineFeed ∉ (#[0x61, 0x62] : Bytes) ∧
      (p.search #[0x61, 0x62] 2 .backward).map Match.span = some ⟨0, 2⟩ ∧
      p'.search #[0x61, 0x62] 2 .backward = p.search #[0x61, 0x62] 2 .backward := by
  rcases exists_ok_of_any (compile { dialect := .perl }
      #[0x5E, 0x28, 0x2E, 0x2A, 0x62, 0x7C, 0x29, 0x24])
    (fun p => decide ((p.search #[0x61, 0x62] 2 .backward).map Match.span = some ⟨0, 2⟩))
    (by decide +kernel) with ⟨p, h, hspan⟩
  have hline : Byte.lineFeed ∉ (#[0x61, 0x62] : Bytes) := by decide +kernel
  rcases search_singleLine _ _ p h true with ⟨p', h', hsearch⟩
  exact ⟨p, p', h, h', hline, of_decide_eq_true hspan, hsearch _ hline 2 .backward .walk⟩

end ByteRegex
