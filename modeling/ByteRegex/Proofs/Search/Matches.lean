import ByteRegex.Proofs.Machine.Registers
import ByteRegex.Proofs.Search.Exactness

/-!
# What a Match Reports

A match that a search returns is made of positions that fit together. The whole match
lies in the text, on the side of the offset that the search looks at. The span of a
group lies inside the match and is in order, and only groups that the pattern has can
have one. The highest group is the one with the highest number among those, and the
cursor is recorded inside the match, if the pattern marks it at all.

Nothing of this is checked when a match is found. The machine writes to its registers
also on ways that it gives up, so what is left in them is right because a way that
fails is undone and because the writes on the way that succeeds are right; the first is
why a match is an outcome of the tree, and the second is `outcomes_within`.

## Main definitions

* `Match.Consistent`: What a match reports fits together.

## Theorems

* `mem_numbers_of_closeGroup`: A group that closes is one of the pattern's.
* `matchAt_consistent`: A match at a position is consistent.
* `search_matchAt`: A search returns a match at a position of the text, on the right
  side of the offset.
* `found_consistent`: So what a search returns is consistent.
* `search_consistent`: The same of every pattern that compiles.
-/

namespace ByteRegex

open Machine

/-- What a match in a text reports fits together and fits its program. -/
structure Match.Consistent (m : Match) (program : Program) (text : Bytes) : Prop where
  start_le : m.start ≤ m.stop
  stop_le : m.stop ≤ text.size
  /-- Group zero is the whole match. -/
  whole : m.group? 0 = some m.span
  /-- A group with a span lies inside the match. -/
  inside : ∀ n span, 0 < n → m.group? n = some span →
    m.start ≤ span.start ∧ span.start ≤ span.stop ∧ span.stop ≤ m.stop
  /-- The program has no further groups. -/
  beyond : ∀ n, program.groups < n → m.group? n = none
  /-- The highest group is the last one with a span, or zero if there is none. -/
  highest : (m.highest = 0 ∧ ∀ n, 0 < n → m.group? n = none) ∨
    (0 < m.highest ∧ m.group? m.highest ≠ none ∧
      ∀ n, 0 < n → m.group? n ≠ none → n ≤ m.highest)
  /-- The cursor is recorded by an operation of the program, inside the match. -/
  cursor : ∀ p, m.cursor = some p →
    Operation.cursor ∈ program.emitted ∧ m.start ≤ p ∧ p ≤ m.stop

-- A group that closes has opened.
theorem openGroup_of_closeGroup (alts : List (List Block)) (n : GroupNumber)
    (h : Operation.closeGroup n ∈ Alternatives.operations alts) :
    Operation.openGroup n ∈ Alternatives.operations alts := by
  refine (operations_induction_alternatives
    (P := fun ops => ∀ n, Operation.closeGroup n ∈ ops → Operation.openGroup n ∈ ops)
    ?_ ?_ ?_ ?_ alts).2 n h
  · exact fun n hmem => absurd hmem List.not_mem_nil
  · intro a b ha hb n hmem
    rcases List.mem_append.1 hmem with hmem | hmem
    · exact List.mem_append_left _ (ha n hmem)
    · exact List.mem_append_right _ (hb n hmem)
  · exact fun op hop n hmem => by rw [← List.mem_singleton.1 hmem] at hop; exact hop.elim
  · intro k ops hops n hmem
    simp only [List.mem_cons, List.mem_append, List.not_mem_nil, reduceCtorEq, or_false,
      false_or, Operation.closeGroup.injEq] at hmem
    rcases hmem with hmem | rfl
    · exact List.mem_cons_of_mem _ (List.mem_append_left _ (hops n hmem))
    · exact List.mem_cons_self

/-- The number of a group that closes is one of those that the tree gives out. -/
theorem mem_numbers_of_closeGroup (alts : List (List Block)) (n : GroupNumber)
    (h : Operation.closeGroup n ∈ Alternatives.operations alts) :
    n.val ∈ Alternatives.numbers alts := by
  rw [← (openings_alternatives alts).1, List.mem_filterMap]
  exact ⟨_, openGroup_of_closeGroup alts n h, rfl⟩

-- Behind the whole match the groups of an outcome are those of its registers.
theorem ofOutcome_group (s : Nat) (o : Outcome) (n : GroupNumber) (hn : 0 < n.val) :
    (Match.ofOutcome s o).group? n = getElem o.2.closed n n.isLt := by
  rw [Match.group?, Vector.getElem?_eq_getElem n.isLt, Option.join_some, Match.ofOutcome,
    Vector.getElem_set_ne _ _ (Nat.ne_of_lt hn), Fin.getElem_fin]

-- Only the numbers of groups have spans.
theorem Match.number_of_group? (m : Match) (n : Nat) (h : m.group? n ≠ none) :
    ∃ k : GroupNumber, k.val = n := by
  by_cases hn : n < slots
  · exact ⟨⟨n, hn⟩, rfl⟩
  · rw [Match.group?, Vector.getElem?_eq_none (Nat.le_of_not_lt hn)] at h
    exact absurd rfl h

/-- An outcome whose registers are within its positions describes a consistent match. -/
theorem ofOutcome_consistent (options : CompileOptions) (t : Pattern) (ht : t.Proper)
    (text : Bytes) (s : Nat) (o : Outcome) (hle : s ≤ o.1) (hsize : o.1 ≤ text.size)
    (h : o.2.Within (Alternatives.operations t.alternatives) s o.1) :
    (Match.ofOutcome s o).Consistent (Program.ofPattern options t) text := by
  -- A group with a span has a register, and that belongs to a group of the pattern.
  have hgroup : ∀ n span, 0 < n → (Match.ofOutcome s o).group? n = some span →
      n ≤ t.groups ∧ s ≤ span.start ∧ span.start ≤ span.stop ∧ span.stop ≤ o.1 := by
    intro n span hn hspan
    have hsome : (Match.ofOutcome s o).group? n ≠ none := by
      rw [hspan]
      exact Option.some_ne_none span
    rcases Match.number_of_group? _ n hsome with ⟨k, rfl⟩
    rw [ofOutcome_group s o k hn] at hspan
    rcases h.closed k span hspan with ⟨hclose, hinside⟩
    have hnumber := mem_numbers_of_closeGroup t.alternatives k hclose
    rw [ht.numbers, List.mem_range'_1] at hnumber
    exact ⟨by omega, hinside⟩
  have hbeyond : ∀ n, t.groups < n → (Match.ofOutcome s o).group? n = none := by
    intro n hn
    cases hspan : (Match.ofOutcome s o).group? n with
    | none => rfl
    | some span =>
        have hle := (hgroup n span (Nat.zero_lt_of_lt hn) hspan).1
        exact absurd hle (Nat.not_le_of_lt hn)
  have hle_highest : ∀ n, 0 < n → (Match.ofOutcome s o).group? n ≠ none → n ≤ o.2.highest := by
    intro n hn hsome
    rcases Match.number_of_group? _ n hsome with ⟨k, rfl⟩
    rw [ofOutcome_group s o k hn] at hsome
    exact h.highest.le k hn hsome
  refine ⟨hle, hsize, ?_, fun n span hn hspan => (hgroup n span hn hspan).2, hbeyond, ?_, ?_⟩
  · rw [Match.group?, Vector.getElem?_eq_getElem slots_pos, Option.join_some, Match.ofOutcome,
      Vector.getElem_set_self]
    rfl
  · by_cases hhighest : o.2.highest = 0
    · refine Or.inl ⟨hhighest, fun n hn => ?_⟩
      by_contra hsome
      have := hle_highest n hn hsome
      omega
    · have hpos := Nat.pos_of_ne_zero hhighest
      rcases h.highest.reached hpos with ⟨k, hk, hset⟩
      refine Or.inr ⟨hpos, ?_, hle_highest⟩
      rw [← hk] at hpos
      rw [← ofOutcome_group s o k hpos, hk] at hset
      exact hset
  · intro p hp
    rcases h.cursor p hp with ⟨hcursor, hp⟩
    rw [Program.emitted_ofPattern]
    exact ⟨List.mem_append_left _ hcursor, hp⟩

section Tree

variable (options : CompileOptions) (t : Pattern) (ht : t.Proper) (text : Bytes)
  (scan : ExactScan)

include ht

/-- A match at a position of the text starts there and is consistent. -/
theorem matchAt_consistent (flags : SearchFlags) (s : Nat) (hs : s ≤ text.size) (m : Match)
    (hm : matchAt ⟨Program.ofPattern options t, text, flags, scan⟩ s = some m) :
    m.start = s ∧ m.Consistent (Program.ofPattern options t) text := by
  rw [matchAt_of_outcomes _ t ht rfl s hs, Option.map_eq_some_iff] at hm
  rcases hm with ⟨o, hhead, rfl⟩
  have ho := List.mem_of_head? hhead
  have hforward := forward_alternatives _ t.alternatives s Registers.empty hs o ho
  have hwithin := outcomes_within _ t.alternatives s hs o ho
  exact ⟨rfl, ofOutcome_consistent options t ht text s o hforward.1 hforward.2 hwithin⟩

/-- What a search returns is the match at a position of the text, which does not lie on
    the wrong side of the offset. -/
theorem search_matchAt (offset : Nat) (search : SearchOptions) (m : Match)
    (hm : (Program.ofPattern options t).search text offset search scan = some m) :
    ∃ s ≤ text.size, matchAt ⟨Program.ofPattern options t, text, search.flags, scan⟩ s = some m ∧
      ((Program.ofPattern options t).direction search = .forward → offset ≤ s) ∧
      ((Program.ofPattern options t).direction search = .backward → s ≤ offset) := by
  cases hanchored : search.flags.anchored with
  | true =>
      by_cases hoffset : offset ≤ text.size
      · rw [search_anchored _ _ _ _ _ hanchored hoffset] at hm
        exact ⟨offset, hoffset, hm, fun _ => Nat.le_refl _, fun _ => Nat.le_refl _⟩
      · -- Behind the text only a search backward is made, from the end.
        have hbehind := Nat.lt_of_not_le hoffset
        rw [search_anchored_behind _ _ _ _ _ hanchored hbehind] at hm
        cases hdirection : (Program.ofPattern options t).direction search with
        | forward =>
            rw [hdirection] at hm
            exact absurd hm (by simp only [reduceCtorEq, not_false_eq_true])
        | backward =>
            rw [hdirection] at hm
            exact ⟨text.size, Nat.le_refl _, hm,
              fun h => absurd h (by simp only [reduceCtorEq, not_false_eq_true]),
              fun _ => Nat.le_of_lt hbehind⟩
  | false =>
      have hloops := loops_exact text scan t ht options rfl search.flags
      cases hdirection : (Program.ofPattern options t).direction search with
      | forward =>
          have hfirst := hloops.1 offset
          rw [← search_forward _ _ _ _ _ hanchored hdirection, hm] at hfirst
          rcases hfirst with ⟨s, hs, hmatch, _⟩
          exact ⟨s, hs.2, hmatch, fun _ => hs.1,
            fun h => absurd h (by simp only [reduceCtorEq, not_false_eq_true])⟩
      | backward =>
          have hend := Nat.min_le_right offset text.size
          have hlast := hloops.2 (min offset text.size) hend
          rw [← search_backward _ _ _ _ _ hanchored hdirection, hm] at hlast
          rcases hlast with ⟨s, hs, hmatch, _⟩
          exact ⟨s, Nat.le_trans hs hend, hmatch,
            fun h => absurd h (by simp only [reduceCtorEq, not_false_eq_true]),
            fun _ => Nat.le_trans hs (Nat.min_le_left _ _)⟩

/-- A match that a search returns is consistent and lies on the right side of the offset. -/
theorem found_consistent (offset : Nat) (search : SearchOptions) (m : Match)
    (hm : (Program.ofPattern options t).search text offset search scan = some m) :
    m.Consistent (Program.ofPattern options t) text ∧
      ((Program.ofPattern options t).direction search = .forward → offset ≤ m.start) ∧
      ((Program.ofPattern options t).direction search = .backward → m.start ≤ offset) := by
  rcases search_matchAt options t ht text scan offset search m hm with ⟨s, hs, hmatch, hside⟩
  rcases matchAt_consistent options t ht text scan search.flags s hs m hmatch with
    ⟨rfl, hconsistent⟩
  exact ⟨hconsistent, hside⟩

end Tree

/-- Whatever pattern compiles, every match that a search of any text returns reports
    positions that fit together: the whole match lies in the text and on the right side
    of the offset, every group with a span is one of the program's and lies inside the
    match, the highest group is the last of them, and the cursor lies inside the match. -/
theorem search_consistent (options : CompileOptions) (pattern : Bytes) (program : Program)
    (h : compile options pattern = .ok program) (text : Bytes) (offset : Nat)
    (search : SearchOptions) (scan : ExactScan) (m : Match)
    (hm : program.search text offset search scan = some m) :
    m.Consistent program text ∧
      (program.direction search = .forward → offset ≤ m.start) ∧
      (program.direction search = .backward → m.start ≤ offset) := by
  rcases compile_ok options pattern program h with ⟨t, ht, rfl⟩
  exact found_consistent options t ht text scan offset search m hm

-- A pattern that compiles to a program which finds something.
theorem exists_found (options : CompileOptions) (pattern text : Bytes) (offset : Nat)
    (search : SearchOptions)
    (h : (compile options pattern).toOption.any
      (fun program => (program.search text offset search).isSome) = true) :
    ∃ program m, compile options pattern = .ok program ∧
      program.search text offset search = some m := by
  rcases exists_ok_of_any _ _ h with ⟨program, hprogram, hfound⟩
  rcases Option.isSome_iff_exists.1 hfound with ⟨m, hm⟩
  exact ⟨program, m, hprogram, hm⟩

-- In `xab` the pattern `{{a}|b\c}+` matches with two iterations: the inner group takes
-- part in the first, and the cursor is marked in the last.
theorem search_consistent_iterations :
    ∃ program m, compile { dialect := .brief }
        #[0x7B, 0x7B, 0x61, 0x7D, 0x7C, 0x62, 0x5C, 0x63, 0x7D, 0x2B] = .ok program ∧
      program.search #[0x78, 0x61, 0x62] 1 .forward = some m ∧
      m.Consistent program #[0x78, 0x61, 0x62] ∧ 1 ≤ m.start := by
  rcases exists_found { dialect := .brief }
    #[0x7B, 0x7B, 0x61, 0x7D, 0x7C, 0x62, 0x5C, 0x63, 0x7D, 0x2B] #[0x78, 0x61, 0x62] 1 .forward
    (by decide +kernel) with ⟨program, m, h, hm⟩
  have hconsistent := search_consistent _ _ program h _ 1 .forward .walk m hm
  exact ⟨program, m, h, hm, hconsistent.1, hconsistent.2.1 rfl⟩

end ByteRegex
