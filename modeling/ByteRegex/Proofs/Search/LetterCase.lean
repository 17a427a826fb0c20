import ByteRegex.Proofs.Search.Exactness

/-!
# A Search That Ignores Letter Case

Where a program ignores letter case, a search does not see it: two texts that are equal
once their letters are folded have the same match, with the same groups, from every
offset and in both directions.

Nothing in the machine folds a text as a whole, so this comes down to its tests, one
after the other. A word was folded when the pattern was parsed, and the text is folded
as the word is compared. A set is compared with the byte itself, which is why every set
of the tree has to be blind for case; only for those do two such texts pass the same
tests. The other tests ask for line feeds and word bytes, and no letter of a pair is
one of them without its partner. From there on the two runs have the same outcomes, and
what a search does with the matches at each position is the same for both.

## Main definitions

* `FoldAlike`: Two texts that differ at most in the case of their letters.

## Theorems

* `any_foldAlike`: A test that is blind for case passes in both texts or in neither.
* `sameTestsOn_foldAlike`: So do the tests of a program that ignores case.
* `search_foldAlike`: A search of one text finds what a search of the other finds.
-/

namespace ByteRegex

open Byte Machine

/-- Two texts that differ at most in the case of their letters. -/
def FoldAlike (text text' : Bytes) : Prop := text.map fold = text'.map fold

instance (text text' : Bytes) : Decidable (FoldAlike text text') :=
  inferInstanceAs (Decidable (text.map fold = text'.map fold))

section FoldAlike

variable {text text' : Bytes} (h : FoldAlike text text')

include h

theorem FoldAlike.size_eq : text.size = text'.size := by
  have hsize := congrArg Array.size (show text.map fold = text'.map fold from h)
  rwa [Array.size_map, Array.size_map] at hsize

theorem FoldAlike.getElem? (pos : Nat) : text[pos]?.map fold = text'[pos]?.map fold := by
  rw [← Array.getElem?_map, h, Array.getElem?_map]

/-- A test that is blind for letter case passes at a position of both texts or of
    neither. -/
theorem any_foldAlike {test : UInt8 → Bool} (htest : CaseBlind test) (pos : Nat) :
    text[pos]?.any test = text'[pos]?.any test := by
  have hfold := h.getElem? pos
  cases hc : text[pos]? with
  | none =>
      rw [hc, Option.map_none, eq_comm, Option.map_eq_none_iff] at hfold
      rw [hfold]
  | some c =>
      rw [hc, Option.map_some, eq_comm, Option.map_eq_some_iff] at hfold
      rcases hfold with ⟨d, hd, hfold⟩
      rw [hd, Option.any_some, Option.any_some, htest.eq_of_fold c d hfold.symm]

-- The line feeds of both texts are in the same places.
theorem contains_lineFeed_foldAlike (pos stop : Nat) :
    (text.extract pos stop).contains lineFeed = (text'.extract pos stop).contains lineFeed := by
  have hfeed (i : Nat) : text[i]? = some lineFeed ↔ text'[i]? = some lineFeed := by
    rw [← any_lineFeed_iff, ← any_lineFeed_iff, any_foldAlike h lineFeed_caseBlind]
  rw [Bool.eq_iff_iff, crosses_iff, crosses_iff]
  simp only [hfeed]

variable (program : Program) (flags : SearchFlags) (scan : ExactScan)

/-- The tests of a program that ignores letter case have the same answers in both texts,
    as long as its sets are blind for case. -/
theorem sameTestsOn_foldAlike (hcase : program.options.flags.ignoreCase = true) :
    SameTestsOn (fun s => CaseBlind s.contains) ⟨program, text, flags, scan⟩
      ⟨program, text', flags, scan⟩ where
  size := h.size_eq
  literal := fun w pos => by
    -- Where case is ignored, a byte is compared as its folding.
    have hcanonical : canonical program.options.flags.ignoreCase = fold := hcase ▸ rfl
    rw [Bool.eq_iff_iff, Literal.occursAt_iff, Literal.occursAt_iff]
    simp only [Literal.Occurs, Env.ignoreCase, hcanonical, h.size_eq, h.getElem?]
  set := fun _ hs pos => any_foldAlike h hs pos
  anyChar := fun pos => by
    have htest : CaseBlind fun c => !(program.options.flags.multiline && c == lineFeed) :=
      fun c => congrArg (fun feed => !(program.options.flags.multiline && feed))
        (lineFeed_caseBlind c)
    exact any_foldAlike h htest pos
  anyString := fun pos => by
    simp only [Env.stretches, Env.multiline, Env.minimal, h.size_eq,
      contains_lineFeed_foldAlike h]
    rfl
  anchor := fun pos a => by
    have hfeed := any_foldAlike h lineFeed_caseBlind
    have hword := any_foldAlike h isWord_caseBlind
    cases a <;>
      simp only [Env.holdsAt, Env.byteBeforeIs, Env.byteIs, Env.multiline, h.size_eq, hfeed, hword]

end FoldAlike

/-- A pattern that is compiled to ignore letter case finds the same in two texts that
    differ in the case of letters only: from every offset and with all options of a
    search the match, its groups and its cursor are the same, and they are the same
    whichever positions each of the searches tries. -/
theorem search_foldAlike (options : CompileOptions) (hcase : options.flags.ignoreCase = true)
    (pattern : Bytes) (program : Program) (h : compile options pattern = .ok program)
    (text text' : Bytes) (htext : FoldAlike text text') (offset : Nat) (search : SearchOptions)
    (scan : ExactScan) :
    program.search text offset search scan = program.search text' offset search scan ∧
      ∀ every every', program.search text offset (search.withEveryPosition every) scan =
        program.search text' offset (search.withEveryPosition every') scan := by
  rcases compile_parse options pattern program h with ⟨t, hparse, hprogram⟩
  have ht := Pattern.parse_proper options pattern t hparse
  have hsets := Pattern.parse_caseBlind options hcase pattern t hparse
  have hlink : program.operations = link t.operations := by rw [hprogram]; rfl
  have hcase' : program.options.flags.ignoreCase = true := by rw [hprogram]; exact hcase
  -- At each position the tests decide, and they have the same answers.
  have hsearch : program.search text offset search scan =
      program.search text' offset search scan := by
    refine search_congr text offset search scan t ht options hprogram t ht options hprogram
      htext.size_eq rfl rfl (fun s hs => ?_)
    rw [matchAt_of_outcomes _ t ht hlink s hs,
      matchAt_of_outcomes _ t ht hlink s (htext.size_eq ▸ hs),
      outcomes_congrOn (sameTestsOn_foldAlike htext program search.flags scan hcase') _ hsets]
  refine ⟨hsearch, fun every every' => ?_⟩
  rw [search_everyPosition text offset search scan t ht options hprogram every,
    search_everyPosition text' offset search scan t ht options hprogram every', hsearch]

-- The pattern `([^m]|\w)x` looks the same at two texts that differ in a letter which its
-- set excludes and in one that it spells.
theorem search_foldAlike_excluded :
    ∃ program, compile { dialect := .perl, flags := { ignoreCase := true } }
        #[0x28, 0x5B, 0x5E, 0x6D, 0x5D, 0x7C, 0x5C, 0x77, 0x29, 0x78] = .ok program ∧
      FoldAlike #[0x4D, 0x78, 0x2D, 0x58] #[0x6D, 0x58, 0x2D, 0x78] ∧
      program.search #[0x4D, 0x78, 0x2D, 0x58] 0 .backward =
        program.search #[0x6D, 0x58, 0x2D, 0x78] 0 .backward ∧
      (program.search #[0x6D, 0x58, 0x2D, 0x78] 0 .backward).isSome = true := by
  rcases exists_ok_of_any (compile { dialect := .perl, flags := { ignoreCase := true } }
      #[0x28, 0x5B, 0x5E, 0x6D, 0x5D, 0x7C, 0x5C, 0x77, 0x29, 0x78])
    (fun program => (program.search #[0x6D, 0x58, 0x2D, 0x78] 0 .backward).isSome)
    (by decide +kernel) with ⟨program, h, hfound⟩
  have htext : FoldAlike #[0x4D, 0x78, 0x2D, 0x58] #[0x6D, 0x58, 0x2D, 0x78] := by decide +kernel
  exact ⟨program, h, htext,
    (search_foldAlike _ rfl _ program h _ _ htext 0 .backward .walk).1, hfound⟩

end ByteRegex
