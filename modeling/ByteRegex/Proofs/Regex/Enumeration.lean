import ByteRegex.Proofs.Regex.Iteration

/-!
# No Match Is Left Out

The matches that an iterator gives are those of the text, from left to right. They do not
overlap, which is `InOrder`; here it is shown that none is left out between them.
`Exhaustive` says what that means: up to the start of each match, and from the last match
to the end of the text, no position has a match that an anchored search would find.

An iterator knows nothing but the position where its next search begins. So this rests on
each search being exact from wherever it begins, and on the begin of the next search. It
is the end of the match, even if the next match is empty and stands right there, or one
byte further on if the match itself is empty.

The requests are counted, so that what an iterator gives can be said for each of them,
also for those behind the last match: there are as many as one likes, and all of them
give nothing.

## Main definitions

* `MatchIterator.request`: What an iterator gives at one of its requests.
* `Regex.anchoredAt`: What an anchored search finds.
* `Exhaustive`: Matches with no other match between them.

## Theorems

* `request_of_visits`: The requests give the matches that are visited, and then nothing.
* `find?_first`: A search forward finds what an anchored search finds first.
* `pairwise_of_inOrder`, `length_le_of_inOrder`: Matches in order do not overlap, so there
  are not many.
* `findAllFrom_exhaustive`: The matches of a text leave none out.
* `iterator_exhaustive`: So do those that an iterator gives.
-/

namespace ByteRegex

/-- What an iterator gives at the request that has `n` requests before it. -/
def MatchIterator.request (it : MatchIterator) : (n : Nat) → Option Match
  | 0 => it.next.1
  | n + 1 => it.next.2.request n

/-- The match that a search forward finds when it tries no position but one. -/
def Regex.anchoredAt (r : Regex) (text : Bytes) (scan : ExactScan) (s : Nat) : Option Match :=
  r.search text s (SearchOptions.forward.withAnchored true) scan

/-- Each of the matches is the one at its start, and at the other positions from `pos` to
    `size` there is none, except at those that a match covers. An empty match covers its
    start. -/
def Exhaustive (anchoredAt : Nat → Option Match) (size : Nat) : (pos : Nat) → List Match → Prop
  | pos, [] => ∀ u, pos ≤ u → u ≤ size → anchoredAt u = none
  | pos, m :: rest =>
    pos ≤ m.start ∧ anchoredAt m.start = some m ∧
      (∀ u, pos ≤ u → u < m.start → anchoredAt u = none) ∧
      Exhaustive anchoredAt size (if m.start = m.stop then m.stop + 1 else m.stop) rest

-- An iterator that gives nothing is the same afterwards.
theorem next_of_none (it : MatchIterator) (h : it.next.1 = none) : it.next.2 = it := by
  unfold MatchIterator.next at h ⊢
  by_cases hpos : it.pos ≤ it.text.size
  · rw [if_pos hpos] at h ⊢
    cases hfind : it.regex.find? it.text it.pos it.scan with
    | none => rfl
    | some m =>
        rw [hfind] at h
        exact absurd h (Option.some_ne_none m)
  · rw [if_neg hpos]

-- So it gives nothing again.
theorem request_of_none (it : MatchIterator) (h : it.next.1 = none) (n : Nat) :
    it.request n = none := by
  induction n with
  | zero => exact h
  | succ n ih => rw [MatchIterator.request, next_of_none it h, ih]

/-- The requests give the matches that an iterator visits one after the other, and every
    later request gives nothing. -/
theorem request_of_visits (it : MatchIterator) (ms : List Match) (h : it.Visits ms) (n : Nat) :
    it.request n = ms[n]? := by
  induction h generalizing n with
  | nothing it hnone => rw [request_of_none it hnone n, List.getElem?_nil]
  | found it m rest hfound _ ih =>
      cases n with
      | zero => rw [MatchIterator.request, hfound, List.getElem?_cons_zero]
      | succ n => rw [MatchIterator.request, ih n, List.getElem?_cons_succ]

section InOrder

variable {size pos : Nat} {ms : List Match} (h : InOrder size pos ms)

include h

-- No match begins before the position where the first search begins.
theorem InOrder.le_start (m : Match) (hm : m ∈ ms) : pos ≤ m.start := by
  induction ms generalizing pos with
  | nil => exact absurd hm List.not_mem_nil
  | cons first rest ih =>
      rcases List.mem_cons.1 hm with rfl | hm
      · exact h.1
      · have hrest := ih h.2.2.2 hm
        rw [Match.resume_eq first h.2.1] at hrest
        have hfirst := h.1
        omega

/-- Of two matches in order the second begins where the first ends or behind it, and
    further on than the first, even if the first is empty. -/
theorem pairwise_of_inOrder : ms.Pairwise fun m m' =>
    m.start < m'.start ∧ m.stop ≤ m'.start ∧ (m.start = m.stop → m.stop + 1 ≤ m'.start) := by
  induction ms generalizing pos with
  | nil => exact List.Pairwise.nil
  | cons m rest ih =>
      refine List.Pairwise.cons (fun m' hm' => ?_) (ih h.2.2.2)
      have hresume := h.2.2.2.le_start m' hm'
      rw [Match.resume_eq m h.2.1] at hresume
      omega

/-- There is room for one match at each position from the first search on. -/
theorem length_le_of_inOrder (hpos : pos ≤ size + 1) : ms.length ≤ size + 1 - pos := by
  induction ms generalizing pos with
  | nil => exact Nat.zero_le _
  | cons m rest ih =>
      rcases h with ⟨hstart, hle, hstop, hrest⟩
      -- The next search begins further on, and at the end of the text at the latest.
      have hresume := Match.resume_eq m hle
      have hlength := ih hrest (by omega)
      rw [List.length_cons]
      omega

end InOrder

section Compiled

variable {pattern : Bytes} {options : CompileOptions} {r : Regex}
  (h : Regex.ofPattern pattern options = .ok r) (text : Bytes) (scan : ExactScan)

include h

/-- A search forward finds what an anchored search finds at the first position where it
    finds something, and that begins there. -/
theorem find?_first (pos : Nat) :
    FoundFirst (r.anchoredAt text scan) pos text.size (r.find? text pos scan) ∧
      ∀ s m, s ≤ text.size → r.anchoredAt text scan s = some m → m.start = s := by
  rcases compile_ok options pattern r.program (compile_of_ofPattern pattern options r h) with
    ⟨t, ht, hprogram⟩
  refine ⟨(search_nearest text pos .forward scan t ht options hprogram).1 rfl, fun s m hs hm => ?_⟩
  rw [Regex.anchoredAt, Regex.search, search_anchored _ _ _ _ _ rfl hs, hprogram] at hm
  exact (matchAt_consistent options t ht text scan _ s hs m hm).1

/-- The matches from a position on leave none out, up to the end of the text. -/
theorem findAllFrom_exhaustive (pos : Nat) :
    Exhaustive (r.anchoredAt text scan) text.size pos (r.findAllFrom text pos scan) := by
  have hahead := findsAhead_of_ofPattern pattern options r h text scan
  fun_induction Regex.findAllFrom r text pos scan with
  | case1 pos hpos hnone =>
      have hfirst := (find?_first h text scan pos).1
      rw [hnone] at hfirst
      exact fun u hu hsize => hfirst u ⟨hu, hsize⟩
  | case2 pos hpos m hm hlt ih =>
      rcases find?_first h text scan pos with ⟨hfirst, hstart⟩
      rw [hm] at hfirst
      rcases hfirst with ⟨s, hs, hmatch, hbefore⟩
      have hbegin := hstart s m hs.2 hmatch
      -- The search goes on where the positions begin that the match does not cover.
      have hresume : (if m.start = m.stop then m.stop + 1 else m.stop) = m.resume := by
        rw [Match.resume_eq m (hahead pos m hm).2.1]
        have hle := (hahead pos m hm).2.1
        split <;> omega
      rw [Exhaustive, hresume, hbegin]
      exact ⟨hs.1, hmatch, fun u hu hlt => hbefore u ⟨hu, by omega⟩ hlt, ih⟩
  | case3 pos hpos m hm hlt =>
      have hle := hahead pos m hm
      rw [Match.resume_eq m hle.2.1] at hlt
      omega
  | case4 pos hpos => exact fun u hu hsize => absurd (Nat.le_trans hu hsize) hpos

end Compiled

/-- Whatever pattern compiles, the requests to an iterator of any text give the matches of
    a list, one after the other, and nothing from then on. There is at most one match more
    than the text has bytes. They begin further and further on and do not overlap, and
    behind an empty match the next one begins at least one byte further on. Each is what
    an anchored search finds at its start, and an anchored search finds nothing before
    the first match, between the end of one match and the start of the next, or behind the
    last. -/
theorem iterator_exhaustive (pattern : Bytes) (options : CompileOptions) (r : Regex)
    (h : Regex.ofPattern pattern options = .ok r) (text : Bytes) (scan : ExactScan) :
    ∃ ms : List Match, (∀ n, (MatchIterator.mk r text 0 scan).request n = ms[n]?) ∧
      ms.length ≤ text.size + 1 ∧
      (ms.Pairwise fun m m' =>
        m.start < m'.start ∧ m.stop ≤ m'.start ∧ (m.start = m.stop → m.stop + 1 ≤ m'.start)) ∧
      Exhaustive (r.anchoredAt text scan) text.size 0 ms := by
  have hahead := findsAhead_of_ofPattern pattern options r h text scan
  have horder := findAllFrom_inOrder r text scan hahead 0
  have hvisits := (visits_iff r text scan hahead 0 _).2 rfl
  exact ⟨r.findAllFrom text 0 scan, request_of_visits _ _ hvisits,
    length_le_of_inOrder horder (Nat.zero_le _), pairwise_of_inOrder horder,
    findAllFrom_exhaustive h text scan 0⟩

-- In `baac` the pattern `a*` has an empty match, a longer one, another empty match right
-- where that ends, and one at the end of the text.
theorem iterator_exhaustive_adjacent :
    ∃ r, Regex.ofPattern #[0x61, 0x2A] {} = .ok r ∧
      (List.range 5).map (fun n =>
        ((MatchIterator.mk r #[0x62, 0x61, 0x61, 0x63] 0 .walk).request n).map Match.span) =
          [some ⟨0, 0⟩, some ⟨1, 3⟩, some ⟨3, 3⟩, some ⟨4, 4⟩, none] ∧
      ∃ ms : List Match,
        (∀ n, (MatchIterator.mk r #[0x62, 0x61, 0x61, 0x63] 0 .walk).request n = ms[n]?) ∧
        ms.length ≤ 5 ∧
        (ms.Pairwise fun m m' =>
          m.start < m'.start ∧ m.stop ≤ m'.start ∧ (m.start = m.stop → m.stop + 1 ≤ m'.start)) ∧
        Exhaustive (r.anchoredAt #[0x62, 0x61, 0x61, 0x63] .walk) 4 0 ms := by
  rcases exists_ok_of_any (Regex.ofPattern #[0x61, 0x2A] {}) (fun r =>
    decide ((List.range 5).map (fun n =>
      ((MatchIterator.mk r #[0x62, 0x61, 0x61, 0x63] 0 .walk).request n).map Match.span) =
        [some ⟨0, 0⟩, some ⟨1, 3⟩, some ⟨3, 3⟩, some ⟨4, 4⟩, none])) (by decide +kernel)
    with ⟨r, h, hspans⟩
  exact ⟨r, h, of_decide_eq_true hspans,
    iterator_exhaustive _ _ r h #[0x62, 0x61, 0x61, 0x63] .walk⟩

end ByteRegex
