import ByteRegex.Proofs.Machine.FirstOutcome
import ByteRegex.Proofs.Search.Starts

/-!
# A Search Finds the Nearest Match

What a search returns is what an anchored search returns at the nearest position where
it succeeds, in the direction of the search, and nothing if it succeeds nowhere. The
strategy of the program plays no part in that: asking for every position changes
nothing but the time it takes.

`FoundFirst` and `FoundLast` describe such a result by the function that is tried at
each position, and describe it completely, so two searches that try the same function
return the same. The loop of a search goes from one candidate to the next. A position
in between is no loss, because a match can start only at candidates; that is where the
tree of the program comes in.

The flags that choose the positions are part of what a match looks at, but no test asks
for them. So a match at a position is the same under all of them. Nor does it depend on
the scans, as all that are exact find the same bytes.

## Main definitions

* `FoundFirst`, `FoundLast`: What a function finds at the nearest position.
* `Program.direction`: The direction of a search.
* `SearchOptions.withAnchored`, `SearchOptions.withEveryPosition`: A search with one of
  its flags set.

## Theorems

* `FoundFirst.unique`, `FoundLast.unique`: The result is determined.
* `canStart_of_matchAt`: A match starts where one can start.
* `searchForward_first`, `searchBackward_last`: The loops find the nearest match.
* `matchAt_flags`: The match at a position depends neither on the positions tried nor on
  the scans.
* `search_map_congr`: Searches are alike as far as matches at each position are.
* `search_exact`: A search finds the nearest match, whatever the strategy and the scans.
-/

namespace ByteRegex

open Machine

section Nearest

variable {α : Type} (f : Nat → Option α)

/-- The result is what a function finds at the nearest of some positions where it finds
    anything, where nearer positions come before others. -/
def Nearest (inside : Nat → Prop) (before : Nat → Nat → Prop) (result : Option α) : Prop :=
  match result with
  | some m => ∃ s, inside s ∧ f s = some m ∧ ∀ u, inside u → before u s → f u = none
  | none => ∀ u, inside u → f u = none

/-- What the function finds at the first position from `low` to `high`. -/
def FoundFirst (low high : Nat) : Option α → Prop :=
  Nearest f (fun s => low ≤ s ∧ s ≤ high) (· < ·)

/-- What the function finds at the last position up to `high`. -/
def FoundLast (high : Nat) : Option α → Prop := Nearest f (· ≤ high) (· > ·)

theorem Nearest.unique (inside : Nat → Prop) (before : Nat → Nat → Prop)
    (htotal : ∀ s t, before s t ∨ s = t ∨ before t s) (a b : Option α)
    (ha : Nearest f inside before a) (hb : Nearest f inside before b) : a = b := by
  -- What one finds somewhere the other cannot miss everywhere.
  have hmiss : ∀ m, Nearest f inside before (some m) → ¬Nearest f inside before none := by
    rintro m ⟨s, hs, hm, _⟩ hnone
    rw [hnone s hs] at hm
    exact absurd hm (by simp only [reduceCtorEq, not_false_eq_true])
  cases a with
  | none =>
      cases b with
      | none => rfl
      | some n => exact absurd ha (hmiss n hb)
  | some m =>
      cases b with
      | none => exact absurd hb (hmiss m ha)
      | some n =>
          rcases ha with ⟨s, hs, hm, hnearest⟩
          rcases hb with ⟨t, ht, hn, hnearest'⟩
          -- Of two positions the one further on has nothing found before it.
          rcases htotal s t with hlt | heq | hlt
          · rw [hnearest' s hs hlt] at hm
            exact absurd hm (by simp only [reduceCtorEq, not_false_eq_true])
          · rw [← hm, ← hn, heq]
          · rw [hnearest t ht hlt] at hn
            exact absurd hn (by simp only [reduceCtorEq, not_false_eq_true])

theorem FoundFirst.unique (low high : Nat) (a b : Option α) (ha : FoundFirst f low high a)
    (hb : FoundFirst f low high b) : a = b :=
  Nearest.unique f _ _ Nat.lt_trichotomy a b ha hb

theorem FoundLast.unique (high : Nat) (a b : Option α) (ha : FoundLast f high a)
    (hb : FoundLast f high b) : a = b :=
  Nearest.unique f _ _ (fun s t => Nat.lt_trichotomy t s |>.imp id (Or.imp Eq.symm id)) a b ha hb

-- Positions where the function finds nothing may be added in front.
theorem Nearest.extend (inside inside' : Nat → Prop) (before : Nat → Nat → Prop)
    (result : Option α) (hsub : ∀ u, inside u → inside' u)
    (hnone : ∀ u, inside' u → f u = none ∨ inside u) (h : Nearest f inside before result) :
    Nearest f inside' before result := by
  cases result with
  | none => exact fun u hu => (hnone u hu).elim id (h u)
  | some m =>
      rcases h with ⟨s, hs, hm, hnearest⟩
      exact ⟨s, hsub s hs, hm, fun u hu hlt => (hnone u hu).elim id fun hin => hnearest u hin hlt⟩

-- A function that agrees on the positions in question is found to do the same.
theorem Nearest.congr (g : Nat → Option α) (inside : Nat → Prop) (before : Nat → Nat → Prop)
    (result : Option α) (hfg : ∀ s, inside s → f s = g s) (h : Nearest f inside before result) :
    Nearest g inside before result := by
  cases result with
  | none => exact fun u hu => (hfg u hu).symm.trans (h u hu)
  | some m =>
      rcases h with ⟨s, hs, hm, hnearest⟩
      exact ⟨s, hs, (hfg s hs).symm.trans hm,
        fun u hu hlt => (hfg u hu).symm.trans (hnearest u hu hlt)⟩

-- What is read off the result is what is read off at the nearest position.
theorem Nearest.map {β : Type} (g : α → β) (inside : Nat → Prop) (before : Nat → Nat → Prop)
    (result : Option α) (h : Nearest f inside before result) :
    Nearest (fun s => (f s).map g) inside before (result.map g) := by
  cases result with
  | none => exact fun u hu => congrArg (Option.map g) (h u hu)
  | some m =>
      rcases h with ⟨s, hs, hm, hnearest⟩
      exact ⟨s, hs, congrArg (Option.map g) hm,
        fun u hu hlt => congrArg (Option.map g) (hnearest u hu hlt)⟩

/-- Where a function finds something exactly under a condition, it finds what belongs to
    the nearest position where the condition holds. -/
theorem Nearest.of_condition (g : Nat → α) (P : Nat → Prop) (inside : Nat → Prop)
    (before : Nat → Nat → Prop) (result : Option α)
    (hfound : ∀ s, inside s → P s → f s = some (g s)) (hnone : ∀ s, inside s → ¬P s → f s = none)
    (h : Nearest f inside before result) :
    (result = none ∧ ∀ u, inside u → ¬P u) ∨
      ∃ s, result = some (g s) ∧ inside s ∧ P s ∧ ∀ u, inside u → before u s → ¬P u := by
  -- Where nothing is found, the condition fails.
  have hfails : ∀ u, inside u → f u = none → ¬P u := by
    intro u hu hmiss hP
    rw [hfound u hu hP] at hmiss
    exact absurd hmiss (by simp only [reduceCtorEq, not_false_eq_true])
  cases result with
  | none => exact Or.inl ⟨rfl, fun u hu => hfails u hu (h u hu)⟩
  | some m =>
      rcases h with ⟨s, hs, hm, hnearest⟩
      have hP : P s := by
        by_contra hP
        rw [hnone s hs hP] at hm
        exact absurd hm (by simp only [reduceCtorEq, not_false_eq_true])
      exact Or.inr ⟨s, hm ▸ hfound s hs hP, hs, hP,
        fun u hu hlt => hfails u hu (hnearest u hu hlt)⟩

end Nearest

namespace Machine

/-- Where the machine matches, the strategy of the program allows a match to start. -/
theorem canStart_of_matchAt (env : Env) (options : CompileOptions) (t : Pattern)
    (ht : t.Proper) (hprogram : env.program = Program.ofPattern options t) (s : Nat)
    (hs : s ≤ env.text.size) (h : matchAt env s ≠ none) : CanStart env s := by
  have hlink : env.program.operations = link t.operations := by rw [hprogram]; rfl
  have hstrategy : env.program.strategy = Strategy.ofOperations 0 t.operations := by
    rw [hprogram]; rfl
  rw [matchAt_of_outcomes env t ht hlink s hs] at h
  -- A match is an outcome of the tree, and outcomes come from where it can start.
  refine ⟨hs, Or.inr ?_⟩
  rw [hstrategy]
  refine allows_alternatives env s t.alternatives 0 Registers.empty [.finish] (fun _ => rfl) ?_
  exact fun hnone => h (by rw [hnone]; rfl)

section Loops

variable (env : Env) (hcan : ∀ s, s ≤ env.text.size → matchAt env s ≠ none → CanStart env s)

include hcan

-- What lies between one candidate and the next is not where a match starts.
theorem matchAt_eq_none_of_not_canStart (u : Nat) (hu : u ≤ env.text.size)
    (h : ¬CanStart env u) : matchAt env u = none := by
  by_contra hsome
  exact h (hcan u hu hsome)

theorem searchForward_first (hlisted : env.program.strategy.Listed) (pos : Nat) :
    FoundFirst (matchAt env) pos env.text.size (searchForward env pos) := by
  have hskip := matchAt_eq_none_of_not_canStart env hcan
  fun_induction searchForward env pos with
  | case1 pos hpos hnext =>
      have hnone := nextStart?_first env hlisted pos hpos
      rw [hnext] at hnone
      -- No candidate is left, so nothing is.
      exact fun u hu => hskip u hu.2 (hnone u hu.1)
  | case2 pos hpos s hnext m hm =>
      have hfirst := nextStart?_first env hlisted pos hpos
      rw [hnext] at hfirst
      refine ⟨s, ⟨hfirst.1, hfirst.2.1.1⟩, hm, fun u hu hlt => ?_⟩
      exact hskip u hu.2 (hfirst.2.2 u hu.1 hlt)
  | case3 pos hpos s hnext hmiss ih =>
      have hfirst := nextStart?_first env hlisted pos hpos
      rw [hnext] at hfirst
      -- Up to the candidate nothing matches, and the rest is searched from behind it.
      have hnone : ∀ u, pos ≤ u → u ≤ env.text.size → u < s + 1 → matchAt env u = none := by
        intro u hu hsize hlt
        by_cases hsame : u = s
        · rw [hsame]
          exact hmiss
        · exact hskip u hsize (hfirst.2.2 u hu (by omega))
      refine Nearest.extend _ _ _ _ _ (fun u hu => ⟨?_, hu.2⟩) (fun u hu => ?_) ih
      · exact Nat.le_trans (Nat.le_succ_of_le hfirst.1) hu.1
      · by_cases hlt : u < s + 1
        · exact Or.inl (hnone u hu.1 hu.2 hlt)
        · exact Or.inr ⟨Nat.le_of_not_lt hlt, hu.2⟩
  | case4 pos hpos => exact fun u hu => absurd (Nat.le_trans hu.1 hu.2) hpos

theorem searchBackward_last (pos : Nat) (hpos : pos ≤ env.text.size) :
    FoundLast (matchAt env) pos (searchBackward env pos) := by
  have hskip := matchAt_eq_none_of_not_canStart env hcan
  fun_induction searchBackward env pos with
  | case1 pos hnext =>
      have hnone := previousStart?_last env pos hpos
      rw [hnext] at hnone
      exact fun u hu => hskip u (Nat.le_trans hu hpos) (hnone u hu)
  | case2 pos s hnext m hm =>
      have hlast := previousStart?_last env pos hpos
      rw [hnext] at hlast
      refine ⟨s, hlast.1, hm, fun u hu hlt => ?_⟩
      exact hskip u (Nat.le_trans hu hpos) (hlast.2.2 u hlt hu)
  | case3 pos s hnext hmiss hzero ih =>
      have hlast := previousStart?_last env pos hpos
      rw [hnext] at hlast
      have hsize := Nat.le_trans hlast.1 hpos
      -- Down to the candidate nothing matches, and the rest is searched from before it.
      have hnone : ∀ u, u ≤ pos → s ≤ u → matchAt env u = none := by
        intro u hu hge
        by_cases hsame : u = s
        · rw [hsame]
          exact hmiss
        · exact hskip u (Nat.le_trans hu hpos) (hlast.2.2 u (by omega) hu)
      refine Nearest.extend _ _ _ _ _ (fun u hu => ?_) (fun u hu => ?_) (ih (by omega))
      · have hbound := hlast.1
        omega
      · by_cases hge : s ≤ u
        · exact Or.inl (hnone u hu hge)
        · exact Or.inr (by omega)
  | case4 pos s hnext hmiss hzero =>
      have hlast := previousStart?_last env pos hpos
      rw [hnext] at hlast
      intro u hu
      by_cases hsame : u = s
      · rw [hsame]
        exact hmiss
      · exact hskip u (Nat.le_trans hu hpos) (hlast.2.2 u (by omega) hu)

end Loops

/-- The match at a position is the same whichever positions are tried, and however bytes
    are looked for. -/
theorem matchAt_flags (program : Program) (t : Pattern) (ht : t.Proper)
    (hprogram : program.operations = link t.operations) (text : Bytes) (flags flags' : SearchFlags)
    (scan scan' : ExactScan)
    (hbegin : flags.notLineBegin = flags'.notLineBegin)
    (hend : flags.notLineEnd = flags'.notLineEnd) (s : Nat) (hs : s ≤ text.size) :
    matchAt ⟨program, text, flags, scan⟩ s = matchAt ⟨program, text, flags', scan'⟩ s := by
  have htests : SameTests ⟨program, text, flags, scan⟩ ⟨program, text, flags', scan'⟩ :=
    { size := rfl
      literal := fun _ _ => rfl
      set := fun _ _ => rfl
      anyChar := fun _ => rfl
      anyString := fun _ => rfl
      anchor := fun pos a => by
        cases a with
        | lineBegin => simp only [Env.holdsAt, hbegin]; rfl
        | lineEnd => simp only [Env.holdsAt, hend]; rfl
        | wordBegin => rfl
        | wordEnd => rfl }
  rw [matchAt_of_outcomes _ t ht hprogram s hs, matchAt_of_outcomes _ t ht hprogram s hs,
    outcomes_congr_alternatives _ _ htests]

end Machine

/-- The direction of a search: the one it names, or else the program's own. -/
def Program.direction (p : Program) (search : SearchOptions) : Direction :=
  search.direction.getD (if p.options.flags.backward then .backward else .forward)

/-- A search with its offset as the only position tried, or not. -/
def SearchOptions.withAnchored (search : SearchOptions) (anchored : Bool) : SearchOptions :=
  { search with flags := { search.flags with anchored := anchored } }

/-- A search that tries every position, or only those where a match can start. -/
def SearchOptions.withEveryPosition (search : SearchOptions) (everyPosition : Bool) :
    SearchOptions :=
  { search with flags := { search.flags with everyPosition := everyPosition } }

section Searches

variable (program : Program) (text : Bytes) (offset : Nat) (search : SearchOptions)
  (scan : ExactScan)

-- An anchored search at a position of the text is the match there.
theorem search_anchored (h : search.flags.anchored = true) (hoffset : offset ≤ text.size) :
    program.search text offset search scan =
      matchAt ⟨program, text, search.flags, scan⟩ offset := by
  rw [Program.search]
  simp only [h, if_true, if_pos hoffset, Nat.min_eq_left hoffset]
  split <;> rfl

theorem search_forward (h : search.flags.anchored = false)
    (hdirection : program.direction search = .forward) :
    program.search text offset search scan =
      searchForward ⟨program, text, search.flags, scan⟩ offset := by
  rw [Program.direction] at hdirection
  rw [Program.search]
  simp only [hdirection, h, Bool.false_eq_true, if_false]

theorem search_backward (h : search.flags.anchored = false)
    (hdirection : program.direction search = .backward) :
    program.search text offset search scan =
      searchBackward ⟨program, text, search.flags, scan⟩ (min offset text.size) := by
  rw [Program.direction] at hdirection
  rw [Program.search]
  simp only [hdirection, h, Bool.false_eq_true, if_false]

-- An anchored search at an offset behind the text is not made, or made at the end.
theorem search_anchored_behind (h : search.flags.anchored = true) (hoffset : text.size < offset) :
    program.search text offset search scan =
      match program.direction search with
      | .forward => none
      | .backward => matchAt ⟨program, text, search.flags, scan⟩ text.size := by
  rw [Program.search, Program.direction]
  simp only [h, if_true, if_neg (Nat.not_le.2 hoffset), Nat.min_eq_right (Nat.le_of_lt hoffset)]
  generalize search.direction.getD _ = direction
  cases direction <;> rfl

variable {program}

section Compiled

variable (t : Pattern) (ht : t.Proper)

include ht

-- The loops of a search are exact for the program of a tree.
theorem loops_exact (options : CompileOptions) (hprogram : program = Program.ofPattern options t)
    (flags : SearchFlags) :
    (∀ pos, FoundFirst (matchAt ⟨program, text, flags, scan⟩) pos text.size
      (searchForward ⟨program, text, flags, scan⟩ pos)) ∧
    ∀ pos, pos ≤ text.size → FoundLast (matchAt ⟨program, text, flags, scan⟩) pos
      (searchBackward ⟨program, text, flags, scan⟩ pos) := by
  have hcan : ∀ s, s ≤ text.size → matchAt ⟨program, text, flags, scan⟩ s ≠ none →
      CanStart ⟨program, text, flags, scan⟩ s :=
    fun s hs h => canStart_of_matchAt _ options t ht hprogram s hs h
  have hlisted : program.strategy.Listed := hprogram ▸ ofPattern_listed options t
  exact ⟨fun pos => searchForward_first _ hcan hlisted pos,
    fun pos hpos => searchBackward_last _ hcan pos hpos⟩

-- A search that is not anchored finds what an anchored one finds at the nearest
-- position.
theorem search_nearest (options : CompileOptions)
    (hprogram : program = Program.ofPattern options t) :
    let anchoredAt := fun s => program.search text s (search.withAnchored true) scan
    let result := program.search text offset (search.withAnchored false) scan
    (program.direction search = .forward → FoundFirst anchoredAt offset text.size result) ∧
      (program.direction search = .backward →
        FoundLast anchoredAt (min offset text.size) result) := by
  have hlink : program.operations = link t.operations := by rw [hprogram]; rfl
  have hloops := loops_exact text scan t ht options hprogram
    (search.withAnchored false).flags
  -- Both searches see the same match at each position.
  have hagree : ∀ s, s ≤ text.size →
      matchAt ⟨program, text, (search.withAnchored false).flags, scan⟩ s =
        program.search text s (search.withAnchored true) scan := by
    intro s hs
    rw [search_anchored program text s (search.withAnchored true) scan rfl hs]
    exact matchAt_flags program t ht hlink text (search.withAnchored false).flags
      (search.withAnchored true).flags scan scan rfl rfl s hs
  constructor
  · intro hdirection
    rw [search_forward program text offset (search.withAnchored false) scan rfl hdirection]
    exact Nearest.congr _ _ _ _ _ (fun s hs => hagree s hs.2) (hloops.1 offset)
  · intro hdirection
    rw [search_backward program text offset (search.withAnchored false) scan rfl hdirection]
    exact Nearest.congr _ _ _ _ _ (fun s hs => hagree s (Nat.le_trans hs (Nat.min_le_right _ _)))
      (hloops.2 _ (Nat.min_le_right _ _))

section Comparison

-- Two searches, of texts of the same size, in the same direction and either both anchored
-- or both not.
variable (options : CompileOptions) (hprogram : program = Program.ofPattern options t)
  {program' : Program} {text' : Bytes} {search' : SearchOptions} {scan' : ExactScan} (t' : Pattern)
  (ht' : t'.Proper)
  (options' : CompileOptions) (hprogram' : program' = Program.ofPattern options' t')
  (hsize : text.size = text'.size)
  (hdirection : program.direction search = program'.direction search')
  (hanchored : search.flags.anchored = search'.flags.anchored)

include hprogram ht' hprogram' hsize hdirection hanchored

-- What the searches find is alike in what can be read off it, if that is so of what they
-- find at each position.
theorem search_map_congr {α : Type} (g : Match → α)
    (hmatch : ∀ s, s ≤ text.size → (matchAt ⟨program, text, search.flags, scan⟩ s).map g =
      (matchAt ⟨program', text', search'.flags, scan'⟩ s).map g) :
    (program.search text offset search scan).map g =
      (program'.search text' offset search' scan').map g := by
  -- An anchored search tries one position, and any other finds the nearest, of which
  -- there is one at most.
  cases hanchored' : search'.flags.anchored with
  | true =>
      rw [hanchored'] at hanchored
      by_cases hoffset : offset ≤ text.size
      · rw [search_anchored _ _ _ _ _ hanchored hoffset,
          search_anchored _ _ _ _ _ hanchored' (hsize ▸ hoffset), hmatch offset hoffset]
      · have hbehind := Nat.lt_of_not_le hoffset
        rw [search_anchored_behind _ _ _ _ _ hanchored hbehind,
          search_anchored_behind _ _ _ _ _ hanchored' (hsize ▸ hbehind), hdirection]
        cases program'.direction search' with
        | forward => rfl
        | backward => exact hsize ▸ hmatch _ (Nat.le_refl _)
  | false =>
      rw [hanchored'] at hanchored
      have hloops := loops_exact text scan t ht options hprogram search.flags
      have hloops' := loops_exact text' scan' t' ht' options' hprogram' search'.flags
      cases hdirection' : program'.direction search' with
      | forward =>
          rw [hdirection'] at hdirection
          rw [search_forward _ _ _ _ _ hanchored hdirection,
            search_forward _ _ _ _ _ hanchored' hdirection']
          refine FoundFirst.unique _ offset text'.size _ _ ?_ ((hloops'.1 offset).map _ g)
          rw [← hsize]
          exact Nearest.congr _ _ _ _ _ (fun s hs => hmatch s hs.2) ((hloops.1 offset).map _ g)
      | backward =>
          rw [hdirection'] at hdirection
          rw [search_backward _ _ _ _ _ hanchored hdirection,
            search_backward _ _ _ _ _ hanchored' hdirection', ← hsize]
          have hend := Nat.min_le_right offset text.size
          refine FoundLast.unique _ _ _ _ ?_ ((hloops'.2 _ (hsize ▸ hend)).map _ g)
          exact Nearest.congr _ _ _ _ _ (fun s hs => hmatch s (Nat.le_trans hs hend))
            ((hloops.2 _ hend).map _ g)

-- In particular the results are the same if the matches are.
theorem search_congr (hmatch : ∀ s, s ≤ text.size →
      matchAt ⟨program, text, search.flags, scan⟩ s =
        matchAt ⟨program', text', search'.flags, scan'⟩ s) :
    program.search text offset search scan = program'.search text' offset search' scan' := by
  have h := search_map_congr text offset search scan t ht options hprogram t' ht' options' hprogram'
    hsize hdirection hanchored id (fun s hs => congrArg (Option.map id) (hmatch s hs))
  rwa [Option.map_id, id, id] at h

end Comparison

-- Which positions are tried does not show in the result, and neither does how bytes are
-- looked for.
theorem search_everyPosition (options : CompileOptions)
    (hprogram : program = Program.ofPattern options t) (everyPosition : Bool)
    (scan' : ExactScan) :
    program.search text offset (search.withEveryPosition everyPosition) scan' =
      program.search text offset search scan := by
  have hlink : program.operations = link t.operations := by rw [hprogram]; rfl
  exact search_congr text offset (search.withEveryPosition everyPosition) scan' t ht options
    hprogram t ht options hprogram rfl rfl rfl
    (fun s hs => matchAt_flags program t ht hlink text
      (search.withEveryPosition everyPosition).flags search.flags scan' scan rfl rfl s hs)

end Compiled

end Searches

/-- For every pattern that compiles, every text and every offset, also one behind the
    text: a search forward finds the match of an anchored search at the first position
    from the offset to the end of the text where there is one, a search backward at the
    last position from the begin of the text to the offset, and both find nothing only
    if there is no such position. Whether every position is tried does not show, and
    neither does how bytes are looked for, as long as the scans are exact. -/
theorem search_exact (options : CompileOptions) (pattern : Bytes) (program : Program)
    (h : compile options pattern = .ok program) (text : Bytes) (offset : Nat)
    (search : SearchOptions) (scan : ExactScan) :
    let anchoredAt := fun s => program.search text s (search.withAnchored true) scan
    let result := program.search text offset (search.withAnchored false) scan
    (program.direction search = .forward → FoundFirst anchoredAt offset text.size result) ∧
      (program.direction search = .backward →
        FoundLast anchoredAt (min offset text.size) result) ∧
      ∀ everyPosition scan',
        program.search text offset (search.withEveryPosition everyPosition) scan' =
          program.search text offset search scan := by
  rcases compile_ok options pattern program h with ⟨t, ht, hprogram⟩
  have hnearest := search_nearest text offset search scan t ht options hprogram
  exact ⟨hnearest.1, hnearest.2, fun every scan' =>
    search_everyPosition text offset search scan t ht options hprogram every scan'⟩

-- The pattern `(abab)c` is searched for with a border table, and found behind an
-- overlap.
theorem search_exact_abab :
    ∃ program, compile { dialect := .perl }
        #[0x28, 0x61, 0x62, 0x61, 0x62, 0x29, 0x63] = .ok program ∧
      FoundFirst (fun s => program.search #[0x61, 0x62, 0x61, 0x62, 0x61, 0x62, 0x63] s
          (SearchOptions.forward.withAnchored true)) 1 7
        (program.search #[0x61, 0x62, 0x61, 0x62, 0x61, 0x62, 0x63] 1
          (SearchOptions.forward.withAnchored false)) ∧
      ∀ everyPosition, program.search #[0x61, 0x62, 0x61, 0x62, 0x61, 0x62, 0x63] 1
          (SearchOptions.forward.withEveryPosition everyPosition) =
        program.search #[0x61, 0x62, 0x61, 0x62, 0x61, 0x62, 0x63] 1 .forward := by
  rcases exists_ok_of_isOk (compile { dialect := .perl }
    #[0x28, 0x61, 0x62, 0x61, 0x62, 0x29, 0x63]) (by decide +kernel) with ⟨program, h⟩
  have hexact := search_exact _ _ program h #[0x61, 0x62, 0x61, 0x62, 0x61, 0x62, 0x63] 1
    .forward .walk
  exact ⟨program, h, hexact.1 rfl, fun every => hexact.2.2 every .walk⟩

end ByteRegex
