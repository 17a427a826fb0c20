import ByteRegex.Proofs.Search.Matches
import ByteRegex.Regex.Basic

/-!
# Matches One After Another

What an iterator gives when it is asked again and again. `Visits` says it of any
iterator and any list: each request gives the next match of the list, and the first one
behind the end of the list gives nothing. `visits_iff` says that there is exactly one such
list, and that it is the one which `findAll` lists in one go.

Both recursions get on because a match of a compiled regex begins where the search
began or further on, and the next search begins behind it: where the match ended, or
one byte further on if it is empty. So the matches stand one behind the other, and
`InOrder` is how later theorems put it.

## Main definitions

* `Regex.FindsAhead`: A search finds a match ahead of it and inside the text.
* `MatchIterator.Visits`: The matches that an iterator gives.
* `InOrder`: Matches that stand one behind the other.

## Theorems

* `findsAhead_of_ofPattern`: A regex that was compiled finds matches ahead.
* `findAllFrom_inOrder`: The matches of a text stand one behind the other.
* `visits_iff`: An iterator gives the matches that are listed in one go.
-/

namespace ByteRegex

/-- A search forward finds a match that lies at its offset or behind it, and inside the
    text. -/
def Regex.FindsAhead (r : Regex) (text : Bytes) (scan : ExactScan) : Prop :=
  ∀ pos m, r.find? text pos scan = some m → pos ≤ m.start ∧ m.start ≤ m.stop ∧ m.stop ≤ text.size

/-- Asked again and again, an iterator gives the matches of a list and then nothing. -/
inductive MatchIterator.Visits : MatchIterator → List Match → Prop where
  | nothing (it : MatchIterator) (h : it.next.1 = none) : Visits it []
  | found (it : MatchIterator) (m : Match) (rest : List Match) (h : it.next.1 = some m)
      (hrest : Visits it.next.2 rest) : Visits it (m :: rest)

/-- Matches that stand one behind the other in a text of `size` bytes, the first of them
    at `pos` or behind it. -/
def InOrder (size : Nat) : (pos : Nat) → List Match → Prop
  | _, [] => True
  | pos, m :: rest =>
    pos ≤ m.start ∧ m.start ≤ m.stop ∧ m.stop ≤ size ∧ InOrder size m.resume rest

theorem compile_of_ofPattern (pattern : Bytes) (options : CompileOptions) (r : Regex)
    (h : Regex.ofPattern pattern options = .ok r) : compile options pattern = .ok r.program := by
  rw [Regex.ofPattern] at h
  cases hcompile : compile options pattern with
  | error e =>
      rw [hcompile] at h
      exact absurd h (by simp only [bind, Except.bind, reduceCtorEq, not_false_eq_true])
  | ok p =>
      rw [hcompile] at h
      rw [← Except.ok.inj h]

/-- A regex that was compiled finds matches ahead, since what a search returns is
    consistent. -/
theorem findsAhead_of_ofPattern (pattern : Bytes) (options : CompileOptions) (r : Regex)
    (h : Regex.ofPattern pattern options = .ok r) (text : Bytes) (scan : ExactScan) :
    r.FindsAhead text scan := by
  intro pos m hm
  rcases compile_ok options pattern r.program (compile_of_ofPattern pattern options r h) with
    ⟨t, ht, hprogram⟩
  rw [Regex.find?, Regex.search, hprogram] at hm
  have hconsistent := found_consistent options t ht text scan pos .forward m hm
  exact ⟨hconsistent.2.1 rfl, hconsistent.1.start_le, hconsistent.1.stop_le⟩

-- So do the first of them.
theorem InOrder.take (size pos : Nat) (ms : List Match) (k : Nat) (h : InOrder size pos ms) :
    InOrder size pos (ms.take k) := by
  induction ms generalizing pos k with
  | nil => rwa [List.take_nil]
  | cons m rest ih =>
      cases k with
      | zero => trivial
      | succ k => exact ⟨h.1, h.2.1, h.2.2.1, ih m.resume k h.2.2.2⟩

-- The next search begins behind the match, however short it is.
theorem Match.resume_eq (m : Match) (h : m.start ≤ m.stop) :
    m.resume = max m.stop (m.start + 1) := by
  rw [resume, isEmpty]
  by_cases hempty : m.start = m.stop
  · rw [if_pos (beq_iff_eq.2 hempty)]
    omega
  · rw [if_neg (fun heq => hempty (beq_iff_eq.1 heq))]
    omega

theorem findAllFrom_inOrder (r : Regex) (text : Bytes) (scan : ExactScan)
    (h : r.FindsAhead text scan) (pos : Nat) :
    InOrder text.size pos (r.findAllFrom text pos scan) := by
  fun_induction Regex.findAllFrom r text pos scan with
  | case1 => trivial
  | case2 pos hpos m hm hlt ih =>
      have hahead := h pos m hm
      exact ⟨hahead.1, hahead.2.1, hahead.2.2, ih⟩
  | case3 pos hpos m hm hlt =>
      have hahead := h pos m hm
      exact ⟨hahead.1, hahead.2.1, hahead.2.2, trivial⟩
  | case4 => trivial

section Visits

variable (it : MatchIterator) (ms : List Match)

-- An iterator that gives nothing has nothing to visit.
theorem visits_nothing_iff (h : it.next.1 = none) : it.Visits ms ↔ ms = [] := by
  constructor
  · intro hvisits
    cases hvisits with
    | nothing _ _ => rfl
    | found _ m rest hfound _ => exact absurd (h.symm.trans hfound) (Option.some_ne_none m).symm
  · rintro rfl
    exact .nothing it h

theorem visits_found_iff (m : Match) (h : it.next.1 = some m) :
    it.Visits ms ↔ ∃ rest, ms = m :: rest ∧ it.next.2.Visits rest := by
  constructor
  · intro hvisits
    cases hvisits with
    | nothing _ hnone => exact absurd (h.symm.trans hnone) (Option.some_ne_none m)
    | found _ m' rest hfound hrest =>
        rw [Option.some.inj (h.symm.trans hfound)]
        exact ⟨rest, rfl, hrest⟩
  · rintro ⟨rest, rfl, hrest⟩
    exact .found it m rest h hrest

end Visits

/-- An iterator gives the matches that `findAll` lists, in the same order, and gives no
    others. -/
theorem visits_iff (r : Regex) (text : Bytes) (scan : ExactScan) (h : r.FindsAhead text scan)
    (pos : Nat) (ms : List Match) :
    (MatchIterator.mk r text pos scan).Visits ms ↔ ms = r.findAllFrom text pos scan := by
  fun_induction Regex.findAllFrom r text pos scan generalizing ms with
  | case1 pos hpos hnone =>
      refine visits_nothing_iff _ ms ?_
      simp only [MatchIterator.next, if_pos hpos, hnone]
  | case2 pos hpos m hm hlt ih =>
      have hnext : (MatchIterator.mk r text pos scan).next =
          (some m, ⟨r, text, m.resume, scan⟩) := by
        simp only [MatchIterator.next, if_pos hpos, hm]
      rw [visits_found_iff _ ms m (by rw [hnext]), hnext]
      constructor
      · rintro ⟨rest, rfl, hrest⟩
        rw [(ih rest).1 hrest]
      · rintro rfl
        exact ⟨_, rfl, (ih _).2 rfl⟩
  | case3 pos hpos m hm hlt =>
      -- The next search always begins further on.
      have hahead := h pos m hm
      rw [Match.resume_eq m hahead.2.1] at hlt
      omega
  | case4 pos hpos =>
      refine visits_nothing_iff _ ms ?_
      simp only [MatchIterator.next, if_neg hpos]

end ByteRegex
