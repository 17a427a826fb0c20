import ByteRegex.Proofs.Machine.Shifting
import ByteRegex.Proofs.Search.Exactness

/-!
# Searching What Is Left of a Text

To go on in the middle of a text is the same as to search what is left of it, if the
search is told what stood before. The result is the same match, with all positions counted
from the other place.

Only a few tests look back from their position. A line begins behind a line feed, and
where the text begins it is for the caller to say whether a line begins there; so the
caller has to say what the byte before the cut would have said. A word begins or ends
between two bytes, of which one would be cut off; nobody can say anything about it, so
either the program does not ask, or the byte that is cut off is no byte of a word, which
is as good as none.

All other tests look ahead, and what is ahead is the same. So the outcomes move along, the
matches at each position do, and so does the nearest of them. How the loop of a search
finds line begins, in a text that has been cut or not, plays no part.

## Main definitions

* `Match.shift`: A match further on.
* `SearchOptions.withNotLineBegin`: A search that is told what the start of the text is.
* `CutAt`: A match looks at what is left of the text of another.

## Theorems

* `lineBegin_cut`: What is told at the cut is what could be seen there.
* `shiftedTests_cut`: The tests have the same answers in what is left of a text.
* `matchAt_shift`: Matches move along with the tests.
* `FoundFirst.shift`, `search_shift`: So does the nearest of them, and what is searched for.
* `search_suffix`: A search goes on as a search of what is left begins.
-/

namespace ByteRegex

open Machine

/-- A match that lies `k` bytes further on. -/
def Match.shift (k : Nat) (m : Match) : Match where
  start := k + m.start
  stop := k + m.stop
  groups := m.groups.map (Option.map (Span.shift k))
  highest := m.highest
  cursor := m.cursor.map (k + ·)

/-- A search for which the start of the text is not the begin of a line, or may be. -/
def SearchOptions.withNotLineBegin (search : SearchOptions) (notLineBegin : Bool) :
    SearchOptions :=
  { search with flags := { search.flags with notLineBegin := notLineBegin } }

/-- A match looks at what another looks at behind the first `k` bytes of its text, and is
    told whether a line begins there. -/
structure CutAt (k : Nat) (env env' : Env) : Prop where
  options : env.program.options = env'.program.options
  text : env'.text = env.text.extract k
  begun : 0 < k
  inside : k ≤ env.text.size
  /-- The start of what is left begins a line exactly if a line feed was cut off. -/
  notLineBegin : env'.flags.notLineBegin =
    !(env.multiline && env.text[k - 1]? == some Byte.lineFeed)
  notLineEnd : env'.flags.notLineEnd = env.flags.notLineEnd

section Cut

variable {k : Nat} {env env' : Env} (h : CutAt k env env')

include h

theorem CutAt.size : env.text.size = k + env'.text.size := by
  have hinside := h.inside
  rw [h.text, Array.size_extract]
  omega

-- Behind the cut the bytes are the same.
theorem CutAt.getElem? (pos : Nat) : env.text[k + pos]? = env'.text[pos]? := by
  rw [h.text, Array.getElem?_extract]
  by_cases hpos : pos < min env.text.size env.text.size - k
  · rw [if_pos hpos]
  · rw [if_neg hpos, Array.getElem?_eq_none (by omega)]

theorem CutAt.multiline : env.multiline = env'.multiline := by
  rw [Env.multiline, Env.multiline, h.options]

theorem byteIs_cut (pos : Nat) (test : UInt8 → Bool) :
    env.byteIs (k + pos) test = env'.byteIs pos test := by
  rw [Env.byteIs, Env.byteIs, h.getElem?]

-- At the cut no byte is left to look back at; one that fails the test is not missed.
theorem byteBeforeIs_cut (pos : Nat) (test : UInt8 → Bool)
    (hcut : env.text[k - 1]?.any test = false) :
    env.byteBeforeIs (k + pos) test = env'.byteBeforeIs pos test := by
  have hbehind : 0 < k + pos := Nat.add_pos_left h.begun pos
  rw [Env.byteBeforeIs, decide_eq_true hbehind, Bool.true_and]
  cases pos with
  | zero => exact hcut
  | succ pos =>
      rw [Env.byteBeforeIs, decide_eq_true (Nat.succ_pos pos), Bool.true_and]
      exact byteIs_cut h pos test

-- A word that stands in what is left stands in the text.
theorem occursAt_cut (ignoreCase : Bool) (word : Bytes) (pos : Nat) :
    Literal.occursAt ignoreCase word env.text (k + pos) =
      Literal.occursAt ignoreCase word env'.text pos := by
  have hsize := h.size
  have hfits : k + (pos + word.size) ≤ env.text.size ↔ pos + word.size ≤ env'.text.size := by
    omega
  rw [Bool.eq_iff_iff, Literal.occursAt_iff, Literal.occursAt_iff, Literal.Occurs, Literal.Occurs]
  simp only [Nat.add_assoc, hfits, h.getElem?]

-- A stretch of what is left crosses a line where the stretch of the text does.
theorem contains_cut (pos stop : Nat) :
    (env.text.extract (k + pos) (k + stop)).contains Byte.lineFeed =
      (env'.text.extract pos stop).contains Byte.lineFeed := by
  rw [Bool.eq_iff_iff, crosses_iff, crosses_iff]
  constructor
  · rintro ⟨i, hpos, hstop, hi⟩
    refine ⟨i - k, by omega, by omega, ?_⟩
    rwa [← h.getElem?, Nat.add_sub_cancel' (by omega)]
  · rintro ⟨i, hpos, hstop, hi⟩
    refine ⟨k + i, by omega, by omega, ?_⟩
    rwa [h.getElem?]

theorem stretches_cut (pos : Nat) : env.stretches (k + pos) = (env'.stretches pos).map (k + ·) := by
  have hsize := h.size
  have hcount : env.text.size + 1 - (k + pos) = env'.text.size + 1 - pos := by omega
  have hminimal : env.minimal = env'.minimal := by rw [Env.minimal, Env.minimal, h.options]
  have hends : (List.range' (k + pos) (env.text.size + 1 - (k + pos))).filter (fun stop =>
      !(env.multiline && (env.text.extract (k + pos) stop).contains Byte.lineFeed)) =
      ((List.range' pos (env'.text.size + 1 - pos)).filter fun stop =>
        !(env'.multiline && (env'.text.extract pos stop).contains Byte.lineFeed)).map (k + ·) := by
    rw [← List.map_add_range', hcount, List.filter_map]
    congr 1
    refine List.filter_congr fun stop _ => ?_
    rw [Function.comp, contains_cut h, h.multiline]
  simp only [Env.stretches, hends, hminimal]
  by_cases hshortest : env'.minimal = true
  · rw [if_pos hshortest, if_pos hshortest]
  · rw [if_neg hshortest, if_neg hshortest, List.map_reverse]

/-- Behind the cut a line begins where it does in the text: at the cut itself the search is
    told, and further on the byte before is there to be seen. -/
theorem lineBegin_cut (pos : Nat) :
    env.holdsAt (k + pos) .lineBegin = env'.holdsAt pos .lineBegin := by
  have hbegun := h.begun
  rw [Bool.eq_iff_iff, holdsAt_lineBegin_iff, holdsAt_lineBegin_iff]
  by_cases hzero : pos = 0
  · have htold : env'.flags.notLineBegin = false ↔
        env.multiline = true ∧ BehindFeed env.text k := by
      rw [h.notLineBegin, Bool.not_eq_false', Bool.and_eq_true, beq_iff_eq, BehindFeed,
        and_iff_right hbegun]
    have hnone : ¬BehindFeed env'.text 0 := fun hfeed => Nat.lt_irrefl 0 hfeed.1
    rw [hzero, Nat.add_zero, htold]
    simp only [Nat.ne_of_gt hbegun, hnone, true_and, false_and, and_false, false_or, or_false]
  · have hfeed : BehindFeed env.text (k + pos) ↔ BehindFeed env'.text pos := by
      rw [BehindFeed, BehindFeed, ← h.getElem?, Nat.add_sub_assoc (by omega)]
      refine and_congr_left' ?_
      omega
    have hbehind : k + pos ≠ 0 := by omega
    simp only [hfeed, h.multiline, hzero, hbehind, false_and, false_or]

/-- Behind the cut an anchor holds where it holds in the text, unless it asks for a word
    that the cut goes through. -/
theorem holdsAt_cut (a : Anchor)
    (hword : a = .wordBegin ∨ a = .wordEnd → env.text[k - 1]?.any Byte.isWord = false)
    (pos : Nat) : env.holdsAt (k + pos) a = env'.holdsAt pos a := by
  have hsize := h.size
  have hahead := byteIs_cut h pos
  have hbefore := byteBeforeIs_cut h pos Byte.isWord
  cases a with
  | lineBegin => exact lineBegin_cut h pos
  | lineEnd =>
      have hstop : (k + pos == env.text.size) = (pos == env'.text.size) := by
        rw [Bool.eq_iff_iff, beq_iff_eq, beq_iff_eq]
        omega
      rw [Env.holdsAt, Env.holdsAt, hstop, hahead, h.notLineEnd, h.multiline]
  | wordBegin => rw [Env.holdsAt, Env.holdsAt, hahead, hbefore (hword (Or.inl rfl))]
  | wordEnd => rw [Env.holdsAt, Env.holdsAt, hahead, hbefore (hword (Or.inr rfl))]

/-- The tests of operations have the same answers behind the cut, if the operations ask for
    no words or the cut goes through none. -/
theorem shiftedTests_cut (ops : List Operation)
    (hword : (Operation.anchor .wordBegin ∉ ops ∧ Operation.anchor .wordEnd ∉ ops) ∨
      env.text[k - 1]?.any Byte.isWord = false) : ShiftedTests ops k env env' where
  size := h.size
  literal := by
    intro w pos
    rw [occursAt_cut h, Env.ignoreCase, Env.ignoreCase, h.options]
  set := fun s pos => byteIs_cut h pos _
  anyChar := by
    intro pos
    rw [byteIs_cut h, h.multiline]
  anyString := stretches_cut h
  anchor := by
    intro a ha pos
    refine holdsAt_cut h a (fun hanchor => ?_) pos
    rcases hword with ⟨hno, hno'⟩ | hbyte
    · rcases hanchor with rfl | rfl
      · exact absurd ha hno
      · exact absurd ha hno'
    · exact hbyte

end Cut

section Matches

variable {ops : List Operation} {k : Nat} {env env' : Env}

-- The whole match is one more span that moves along.
theorem ofOutcome_shift (s : Nat) (o : Outcome) :
    Match.ofOutcome (k + s) (Outcome.shift k o) = (Match.ofOutcome s o).shift k := by
  simp only [Match.ofOutcome, Match.shift, Outcome.shift, Registers.shift, Vector.map_set,
    Option.map_some, Span.shift]

/-- Where the tests have the same answers, the match at a position moves along. -/
theorem matchAt_shift (t : Pattern) (ht : t.Proper) (h : ShiftedTests t.operations k env env')
    (hlink : env.program.operations = link t.operations)
    (hlink' : env'.program.operations = link t.operations) (s : Nat) (hs : s ≤ env'.text.size) :
    matchAt env (k + s) = (matchAt env' s).map (Match.shift k) := by
  have hsize := h.size
  have hops : ∀ u ∈ t.alternatives, Sequence.operations u ⊆ t.operations := by
    intro u hu op hop
    exact List.mem_append_left _ (sequence_subset_alternatives t.alternatives u hu hop)
  have houtcomes := outcomes_shift h t.alternatives hops s hs Registers.empty
  rw [shift_empty] at houtcomes
  rw [matchAt_of_outcomes env t ht hlink (k + s) (by omega),
    matchAt_of_outcomes env' t ht hlink' s hs, houtcomes, List.head?_map, Option.map_map,
    Option.map_map]
  congr 1
  funext o
  exact ofOutcome_shift s o

/-- What a function finds first, another finds first further on, if at each position it
    finds the same. -/
theorem FoundFirst.shift {α β : Type} (f : Nat → Option α) (f' : Nat → Option β) (g : β → α)
    (k n : Nat) (result : Option β) (hf : ∀ s, s ≤ n → f (k + s) = (f' s).map g)
    (h : FoundFirst f' 0 n result) : FoundFirst f k (k + n) (result.map g) := by
  -- A position further on is the other position with the distance added.
  have hback : ∀ u, k ≤ u → u ≤ k + n → f u = (f' (u - k)).map g := by
    intro u hu hun
    rw [← hf (u - k) (by omega), Nat.add_sub_cancel' hu]
  cases result with
  | none =>
      intro u hu
      rw [hback u hu.1 hu.2, h (u - k) ⟨Nat.zero_le _, by omega⟩]
      rfl
  | some m =>
      rcases h with ⟨s, hs, hm, hbefore⟩
      refine ⟨k + s, ⟨Nat.le_add_right k s, by omega⟩, ?_, fun u hu hlt => ?_⟩
      · rw [hf s hs.2, hm]
        rfl
      · rw [hback u hu.1 hu.2, hbefore (u - k) ⟨Nat.zero_le _, by omega⟩ (by omega)]
        rfl

/-- If the matches at all positions move along, so does what a search forward finds that
    begins where the other text begins: an anchored search tries that position alone, and
    any other finds the nearest match. -/
theorem search_shift (options : CompileOptions) (program : Program) (t : Pattern) (ht : t.Proper)
    (hprogram : program = Program.ofPattern options t) (text text' : Bytes) (k : Nat)
    (hsize : text.size = k + text'.size) (search search' : SearchOptions) (scan : ExactScan)
    (hforward : program.direction search = .forward)
    (hforward' : program.direction search' = .forward)
    (hanchored : search.flags.anchored = search'.flags.anchored)
    (hmatch : ∀ s, s ≤ text'.size → matchAt ⟨program, text, search.flags, scan⟩ (k + s) =
      (matchAt ⟨program, text', search'.flags, scan⟩ s).map (Match.shift k)) :
    program.search text k search scan =
      (program.search text' 0 search' scan).map (Match.shift k) := by
  cases hanchored' : search'.flags.anchored with
  | true =>
      rw [search_anchored program text k search scan (hanchored.trans hanchored') (by omega),
        search_anchored program text' 0 search' scan hanchored' (Nat.zero_le _)]
      exact hmatch 0 (Nat.zero_le _)
  | false =>
      have hloops := loops_exact text scan t ht options hprogram search.flags
      have hloops' := loops_exact text' scan t ht options hprogram search'.flags
      rw [search_forward program text k search scan (hanchored.trans hanchored') hforward,
        search_forward program text' 0 search' scan hanchored' hforward']
      have hshift := FoundFirst.shift _ _ (Match.shift k) k _ _ hmatch (hloops'.1 0)
      rw [← hsize] at hshift
      exact FoundFirst.unique _ k text.size _ _ (hloops.1 k) hshift

end Matches

/-- Whatever pattern compiles, a search forward that goes on at a position inside of a text
    finds what a search of the rest of the text finds from its begin, with the positions of
    the match, of its groups and of its cursor counted from the begin of the text. The
    search of the rest is told that a line begins there if, in a text of several lines, the
    byte before the position is a line feed, and that none does otherwise; what the first
    search knows about the start of the text does not matter. Only, if the program asks for
    begins or ends of words, that byte must not be one of a word. -/
theorem search_suffix (options : CompileOptions) (pattern : Bytes) (program : Program)
    (h : compile options pattern = .ok program) (text : Bytes) (k : Nat) (hpos : 0 < k)
    (hk : k ≤ text.size)
    (hword : (Operation.anchor .wordBegin ∉ program.emitted ∧
        Operation.anchor .wordEnd ∉ program.emitted) ∨ text[k - 1]?.any Byte.isWord = false)
    (search : SearchOptions) (scan : ExactScan)
    (hforward : program.direction search = .forward) :
    program.search text k search scan =
      (program.search (text.extract k) 0 (search.withNotLineBegin
        !(program.options.flags.multiline && text[k - 1]? == some Byte.lineFeed)) scan).map
          (Match.shift k) := by
  rcases compile_ok options pattern program h with ⟨t, ht, hprogram⟩
  have hlink : program.operations = link t.operations := by rw [hprogram]; rfl
  have hemitted : program.emitted = t.operations := by
    rw [hprogram, Program.emitted_ofPattern]
  rw [hemitted] at hword
  generalize hsearch' : search.withNotLineBegin
    (!(program.options.flags.multiline && text[k - 1]? == some Byte.lineFeed)) = search'
  have hcut : CutAt k ⟨program, text, search.flags, scan⟩
      ⟨program, text.extract k, search'.flags, scan⟩ :=
    { options := rfl
      text := rfl
      begun := hpos
      inside := hk
      notLineBegin := by rw [← hsearch']; rfl
      notLineEnd := by rw [← hsearch']; rfl }
  have hmatch := matchAt_shift t ht (shiftedTests_cut hcut t.operations hword) hlink hlink
  -- Nothing else about the search has changed.
  have hforward' : program.direction search' = .forward := by rw [← hsearch']; exact hforward
  have hanchored : search.flags.anchored = search'.flags.anchored := by rw [← hsearch']; rfl
  exact search_shift options program t ht hprogram text _ k hcut.size search search' scan hforward
    hforward' hanchored hmatch

-- The pattern `\c(^|:)\<a`, for texts of several lines, in a text of the lines `b` and
-- `:a:a`. Behind the line feed a line begins, and behind the first colon the rest is told
-- that none does, so the match there is the one at the second colon.
theorem search_suffix_lines :
    ∃ program, compile { flags := { multiline := true } }
        #[0x5C, 0x63, 0x5C, 0x28, 0x5E, 0x7C, 0x3A, 0x5C, 0x29, 0x5C, 0x3C, 0x61] = .ok program ∧
      program.direction .forward = .forward ∧
      (#[0x62, 0x0A, 0x3A, 0x61, 0x3A, 0x61] : Bytes)[2]?.any Byte.isWord = false ∧
      (program.search #[0x62, 0x0A, 0x3A, 0x61, 0x3A, 0x61] 3 .forward).map Match.span =
        some ⟨4, 6⟩ ∧
      program.search #[0x62, 0x0A, 0x3A, 0x61, 0x3A, 0x61] 2 .forward =
        (program.search #[0x3A, 0x61, 0x3A, 0x61] 0
          (SearchOptions.forward.withNotLineBegin false)).map (Match.shift 2) ∧
      program.search #[0x62, 0x0A, 0x3A, 0x61, 0x3A, 0x61] 3 .forward =
        (program.search #[0x61, 0x3A, 0x61] 0
          (SearchOptions.forward.withNotLineBegin true)).map (Match.shift 3) := by
  rcases exists_ok_of_any (compile { flags := { multiline := true } }
      #[0x5C, 0x63, 0x5C, 0x28, 0x5E, 0x7C, 0x3A, 0x5C, 0x29, 0x5C, 0x3C, 0x61])
    (fun program => decide (program.options.flags.multiline = true ∧
      (program.search #[0x62, 0x0A, 0x3A, 0x61, 0x3A, 0x61] 3 .forward).map Match.span =
        some ⟨4, 6⟩)) (by decide +kernel) with ⟨program, h, hfound⟩
  rcases of_decide_eq_true hfound with ⟨hlines, hspan⟩
  have hfeed := search_suffix _ _ program h #[0x62, 0x0A, 0x3A, 0x61, 0x3A, 0x61] 2 (by decide)
    (by decide) (Or.inr (by decide)) .forward .walk rfl
  have hcolon := search_suffix _ _ program h #[0x62, 0x0A, 0x3A, 0x61, 0x3A, 0x61] 3 (by decide)
    (by decide) (Or.inr (by decide)) .forward .walk rfl
  rw [hlines] at hfeed hcolon
  exact ⟨program, h, rfl, by decide, hspan, hfeed, hcolon⟩

end ByteRegex
