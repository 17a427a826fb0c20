import ByteRegex.Proofs.Pattern.Parsing
import ByteRegex.Proofs.Search.Exactness

/-!
# A Spelled Word Is Found Where It Stands

The whole way from a pattern to a match, for patterns that are a word and nothing else.
Any word can be written so that no byte of it is special: each byte by its code, as in
`\x2A`. In every dialect such a pattern is accepted, and a search with it finds the word
at the nearest position where the text holds it, with the word as its span and no
groups, and finds nothing only if the text does not hold it.

That is what one expects of the simplest of all patterns, and every part of the library
has its share in it. The scanner decodes the escapes, and the parser joins the bytes to
one run, folded where letter case is ignored. The compiler adds a border table if the
length of the run calls for one, and the search looks for candidates with the table or
without. At a candidate the machine compares the word itself. None of the lengths at
which these ways divide shows in the result.

## Main definitions

* `HexByte.ofByte`: A way to write a byte by its code.
* `HoldsWord`: The text holds a word at a position.
* `Match.ofWord`: The match of a word that stands at a position.

## Theorems

* `parse_word`: A word that is spelled is read as one run of literals.
* `occurs_canonical_iff`: The run of a word stands where the text holds the word.
* `matchAt_word`: The machine matches there.
* `search_word`: A search finds the nearest position that holds the word.
-/

namespace ByteRegex

open Byte Machine

namespace Pattern

/-- The tree of a word: one run of literals. -/
def ofWord (options : CompileOptions) (w : Bytes) : Pattern :=
  ⟨[[.literal (w.map (canonical options.flags.ignoreCase))]], 0⟩

/-- The code of a byte, in two digits. -/
def HexByte.ofByte (c : UInt8) : HexByte where
  high := ⟨⟨c.toNat / 16, by have := c.toNat_lt; omega⟩, false⟩
  low := ⟨⟨c.toNat % 16, Nat.mod_lt _ (by decide)⟩, false⟩

theorem HexByte.value_ofByte (c : UInt8) : (ofByte c).value = c := by
  rw [value, ofByte, Nat.div_add_mod, UInt8.ofNat_toNat]

section Words

variable (bs : List HexByte)

theorem spelled_word : Pieces.spelled (bs.map Piece.byte) = bs.flatMap HexByte.spelled := by
  induction bs with
  | nil => rfl
  | cons b rest ih =>
      rw [List.map_cons, Pieces.spelled, Piece.spelled, ih, List.flatMap_cons]

theorem fits_word (d : Dialect) : Pieces.fits d (bs.map Piece.byte) = true := by
  induction bs with
  | nil => rfl
  | cons b rest ih => rw [List.map_cons, Pieces.fits, Piece.fits, ih, Bool.and_self]

theorem groups_word : Pieces.groups (bs.map Piece.byte) = 0 := by
  induction bs with
  | nil => rfl
  | cons b rest ih => rw [List.map_cons, Pieces.groups, Piece.groups, ih]

-- The bytes join the run that is open before them.
theorem blocks_word (flags : CompileFlags) (n : Nat) (run : Bytes) :
    Pieces.blocks flags n run (bs.map Piece.byte)
      = runBlocks (run ++ (bs.map (HexByte.literal flags)).toArray) := by
  induction bs generalizing run with
  | nil => rw [List.map_nil, List.map_nil, Pieces.blocks, Array.append_empty]
  | cons b rest ih =>
      rw [List.map_cons, Pieces.blocks, ih, List.map_cons, List.push_append_toArray]

/-- A word that is spelled byte by byte is read as one run of literals. -/
theorem parse_word (options : CompileOptions) (w : Bytes) (hw : 0 < w.size)
    (hbs : bs.map HexByte.value = w.toList) :
    parse options (bs.flatMap HexByte.spelled).toArray
      = .ok (ofWord options w) := by
  have hparse := parse_spelled options ⟨bs.map Piece.byte, []⟩
    (by rw [Tree.fits, fits_word]; rfl) (by rw [Tree.groups, groups_word]; exact Nat.zero_le 9)
  -- The literals of the bytes are the bytes of the word as they are compared.
  have hrun : (bs.map (HexByte.literal options.flags)).toArray
      = w.map (canonical options.flags.ignoreCase) := by
    have hliterals : bs.map (HexByte.literal options.flags)
        = w.toList.map (canonical options.flags.ignoreCase) := by
      rw [← hbs, List.map_map]
      rfl
    rw [hliterals, ← List.map_toArray, Array.toArray_toList]
  have hne : ¬ (w.map (canonical options.flags.ignoreCase)).isEmpty = true := by
    rw [Array.isEmpty_iff_size_eq_zero, Array.size_map]
    omega
  simp only [Tree.spelled, Others.spelled, List.append_nil, spelled_word, Tree.alternatives,
    Others.blocks, blocks_word, Array.empty_append, hrun, Tree.groups, groups_word, Others.groups,
    runBlocks, if_neg hne] at hparse
  exact hparse

end Words

end Pattern

/-- The text holds a word at a position, up to the case of letters if that is ignored. -/
def HoldsWord (ignoreCase : Bool) (w text : Bytes) (s : Nat) : Prop :=
  (text.extract s (s + w.size)).map (canonical ignoreCase) = w.map (canonical ignoreCase)

/-- The match of a word that stands at a position. There are no groups but the whole
    match. -/
def Match.ofWord (w : Bytes) (s : Nat) : Match where
  start := s
  stop := s + w.size
  groups := (Vector.replicate slots none).set 0 (some ⟨s, s + w.size⟩) slots_pos
  highest := 0
  cursor := none

/-- The run of a word stands where the text holds the word. -/
theorem occurs_canonical_iff (ignoreCase : Bool) (w text : Bytes) (hw : 0 < w.size) (s : Nat) :
    Literal.Occurs ignoreCase (w.map (canonical ignoreCase)) text s ↔
      HoldsWord ignoreCase w text s := by
  rw [Literal.Occurs, HoldsWord, Array.size_map]
  constructor
  · rintro ⟨hsize, hbytes⟩
    refine Array.ext_getElem? fun i => ?_
    by_cases hi : i < w.size
    · rw [← hbytes i hi, Array.getElem?_map, Array.getElem?_extract, if_pos (by omega)]
    · rw [Array.getElem?_eq_none, Array.getElem?_eq_none]
      · simp only [Array.size_map]
        omega
      · simp only [Array.size_map, Array.size_extract]
        omega
  · intro h
    have hsize := congrArg Array.size h
    simp only [Array.size_map, Array.size_extract] at hsize
    refine ⟨by omega, fun i hi => ?_⟩
    rw [← h, Array.getElem?_map, Array.getElem?_extract, if_pos (by omega)]

theorem HoldsWord.le_size {ignoreCase : Bool} {w text : Bytes} {s : Nat} (hw : 0 < w.size)
    (h : HoldsWord ignoreCase w text s) : s ≤ text.size := by
  have hoccurs := ((occurs_canonical_iff ignoreCase w text hw s).2 h).1
  omega

section Word

variable (options : CompileOptions) (w : Bytes) (hw : 0 < w.size)

include hw

theorem ofWord_proper : (Pattern.ofWord options w).Proper where
  nonempty := List.cons_ne_nil _ _
  parts := by
    refine ⟨⟨?_, trivial⟩, trivial⟩
    rw [Block.Proper, Array.size_map]
    exact hw
  numbers := rfl
  groups_lt := Nat.succ_pos 9

variable (text : Bytes) (flags : SearchFlags) (scan : ExactScan) (s : Nat) (hs : s ≤ text.size)

include hs

/-- The machine matches a word where the text holds it, and nowhere else. -/
theorem matchAt_word :
    let env : Env := ⟨Program.ofPattern options (Pattern.ofWord options w), text, flags, scan⟩
    (HoldsWord options.flags.ignoreCase w text s → matchAt env s = some (Match.ofWord w s)) ∧
      (¬ HoldsWord options.flags.ignoreCase w text s → matchAt env s = none) := by
  intro env
  have htest : Literal.occursAt env.ignoreCase (w.map (canonical options.flags.ignoreCase))
      env.text s = true ↔ HoldsWord options.flags.ignoreCase w text s :=
    Literal.occursAt_iff.trans (occurs_canonical_iff _ w text hw s)
  have hmatch := matchAt_of_outcomes env _ (ofWord_proper options w hw) rfl s hs
  simp only [Pattern.ofWord, Alternatives.outcomes, Sequence.outcomes, Block.outcomes,
    List.append_nil] at hmatch
  constructor
  · intro hholds
    rw [hmatch, if_pos (htest.2 hholds), Array.size_map]
    rfl
  · intro hholds
    rw [hmatch, if_neg (hholds ∘ htest.1)]
    rfl

end Word

/-- Every word can be written byte by byte, each byte by its code in two digits. Whatever
    the dialect and the flags, a pattern that writes a word is accepted, and for every text
    and offset a search that is not anchored finds the word where the text holds it: a
    search forward at the first such position from the offset on, and a search backward at
    the last one up to the offset. The match spans the word and nothing else, and no
    groups or cursor are recorded. Nothing is found only if there is no such position. -/
theorem search_word (dialect : Dialect) (flags : CompileFlags) (w : Bytes) (hw : 0 < w.size) :
    (∃ bs : List Pattern.HexByte, bs.map Pattern.HexByte.value = w.toList) ∧
      ∀ bs : List Pattern.HexByte, bs.map Pattern.HexByte.value = w.toList →
        ∃ program, compile ⟨dialect, flags⟩ (bs.flatMap Pattern.HexByte.spelled).toArray
            = .ok program ∧
          ∀ (text : Bytes) (offset : Nat) (search : SearchOptions) (scan : ExactScan),
            search.flags.anchored = false →
              (program.direction search = .forward → ∃ start,
                FirstFrom (HoldsWord flags.ignoreCase w text) offset start ∧
                  program.search text offset search scan = start.map (Match.ofWord w)) ∧
              (program.direction search = .backward → ∃ start,
                LastUpTo (HoldsWord flags.ignoreCase w text) offset start ∧
                  program.search text offset search scan = start.map (Match.ofWord w)) := by
  constructor
  · have hvalue : Pattern.HexByte.value ∘ Pattern.HexByte.ofByte = id :=
      funext Pattern.HexByte.value_ofByte
    exact ⟨w.toList.map Pattern.HexByte.ofByte, by rw [List.map_map, hvalue, List.map_id]⟩
  intro bs hbs
  have hparse := Pattern.parse_word bs ⟨dialect, flags⟩ w hw hbs
  refine ⟨Program.ofPattern ⟨dialect, flags⟩ (Pattern.ofWord ⟨dialect, flags⟩ w),
    by rw [compile, hparse]; rfl, fun text offset search scan hanchored => ?_⟩
  have hloops := loops_exact text scan _ (ofWord_proper ⟨dialect, flags⟩ w hw) ⟨dialect, flags⟩ rfl
    search.flags
  have hmatch := matchAt_word ⟨dialect, flags⟩ w hw text search.flags scan
  -- The word stands in the text, so no position behind it comes into question.
  have hsize (s : Nat) (h : HoldsWord flags.ignoreCase w text s) : s ≤ text.size := h.le_size hw
  constructor
  · intro hdirection
    rw [search_forward _ text offset search scan hanchored hdirection]
    rcases Nearest.of_condition _ (Match.ofWord w) (HoldsWord flags.ignoreCase w text) _ _ _
      (fun s hs => (hmatch s hs.2).1) (fun s hs => (hmatch s hs.2).2) (hloops.1 offset) with
      ⟨hnone, hfails⟩ | ⟨s, hfound, hs, hholds, hfirst⟩
    · exact ⟨none, fun u hu h => hfails u ⟨hu, hsize u h⟩ h, hnone⟩
    · exact ⟨some s, ⟨hs.1, hholds, fun u hu hlt h => hfirst u ⟨hu, hsize u h⟩ hlt h⟩, hfound⟩
  · intro hdirection
    have hend := Nat.min_le_right offset text.size
    rw [search_backward _ text offset search scan hanchored hdirection]
    rcases Nearest.of_condition _ (Match.ofWord w) (HoldsWord flags.ignoreCase w text) _ _ _
      (fun s hs => (hmatch s (Nat.le_trans hs hend)).1)
      (fun s hs => (hmatch s (Nat.le_trans hs hend)).2) (hloops.2 _ hend) with
      ⟨hnone, hfails⟩ | ⟨s, hfound, hs, hholds, hlast⟩
    · exact ⟨none, fun u hu h => hfails u (Nat.le_min.2 ⟨hu, hsize u h⟩) h, hnone⟩
    · exact ⟨some s, ⟨Nat.le_trans hs (Nat.min_le_left _ _), hholds,
        fun u hlt hu h => hlast u (Nat.le_min.2 ⟨hu, hsize u h⟩) hlt h⟩, hfound⟩

-- The pattern `\x61\x41\x61\x41\xE9` is long enough for a border table. Compiled to ignore
-- letter case it is found behind an overlap, and its last byte is no letter.
theorem search_word_overlap :
    ∃ program, compile ⟨.brief, { ignoreCase := true }⟩
        #[0x5C, 0x78, 0x36, 0x31, 0x5C, 0x78, 0x34, 0x31, 0x5C, 0x78, 0x36, 0x31,
          0x5C, 0x78, 0x34, 0x31, 0x5C, 0x78, 0x45, 0x39] = .ok program ∧
      ∃ start, FirstFrom (HoldsWord true #[0x61, 0x41, 0x61, 0x41, 0xE9]
          #[0x61, 0x61, 0x41, 0x61, 0x61, 0x41, 0xE9]) 1 start ∧
        program.search #[0x61, 0x61, 0x41, 0x61, 0x61, 0x41, 0xE9] 1 .forward
          = start.map (Match.ofWord #[0x61, 0x41, 0x61, 0x41, 0xE9]) := by
  rcases (search_word .brief { ignoreCase := true } #[0x61, 0x41, 0x61, 0x41, 0xE9] (by decide)).2
    [⟨⟨6, false⟩, ⟨1, false⟩⟩, ⟨⟨4, false⟩, ⟨1, false⟩⟩, ⟨⟨6, false⟩, ⟨1, false⟩⟩,
      ⟨⟨4, false⟩, ⟨1, false⟩⟩, ⟨⟨14, true⟩, ⟨9, false⟩⟩] (by decide) with ⟨program, h, hsearch⟩
  exact ⟨program, h, (hsearch _ 1 .forward .walk rfl).1 rfl⟩

end ByteRegex
