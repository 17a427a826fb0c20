import ByteRegex.Proofs.Literal.Backward
import ByteRegex.Proofs.Literal.Search
import ByteRegex.Proofs.Machine.Outcomes
import ByteRegex.Proofs.Program.Layout

/-!
# No Start Is Passed Over

A search skips positions where its strategy says that no match can start. The
strategy is read off the first operation that is not the opening of a group, and that
operation is one that every match begins with: `allows_alternatives` follows a tree
down to it and finds that a tree with outcomes at a position passes its test there.
A choice and a quantifier make no promise, and neither does an operation behind the
closing of a group, so the strategy stops there.

What is left is that the positions are found. For a literal that is the exactness of
the searches. A line begins at the start of the text, unless the search says otherwise,
and behind every line feed in a text of several lines; an exact scan finds the nearest
line feed in either direction.

## Main definitions

* `Strategy.Allows`: A match can start at a position, as far as the strategy knows.
* `CanStart`: A match can start at a position of the text.
* `Strategy.Listed`: The strategy carries the border table of its word.

## Theorems

* `allows_alternatives`: A tree with outcomes passes the test of its first operation.
* `holdsAt_lineBegin_iff`: Where lines begin.
* `nextLineBegin?_first`, `lastLineBegin?_last`: The nearest position behind a line feed
  is found.
* `nextStart?_first`: The next start is the first position where a match can start.
* `previousStart?_last`: The previous start is the last one.
-/

namespace ByteRegex

open Machine

/-- A match can start at a position, as far as the strategy knows. -/
def Strategy.Allows (env : Env) (s : Nat) : Strategy → Prop
  | .everywhere => True
  | .literal _ word _ => Literal.Occurs env.ignoreCase word env.text s
  | .lineBegin => env.holdsAt s .lineBegin = true

section Leading

variable (env : Env) (s : Nat)

mutual

-- A block with outcomes has passed the test of its first operation, whatever follows it.
theorem allows_block (b : Block) (i : Nat) (r : Registers) (rest : List Operation)
    (h : b.outcomes env s r ≠ []) :
    (Strategy.ofOperations i (b.operations ++ rest)).Allows env s := by
  cases b with
  | literal w =>
      refine Literal.occursAt_iff.1 ?_
      by_contra hnot
      exact h (if_neg hnot)
  | anchor a =>
      cases a with
      | lineBegin =>
          by_contra hnot
          exact h (if_neg hnot)
      | _ => trivial
  | group n alts =>
      -- Behind the alternatives the group closes, and there the strategy stops.
      have halts := allows_alternatives alts (i + 1) (r.openGroup n s) (.closeGroup n :: rest)
        (fun _ => rfl) (fun hnone => h (by rw [Block.outcomes, hnone, List.map_nil]))
      rw [Block.operations, List.cons_append, List.append_assoc]
      exact halts
  | _ => trivial

theorem allows_sequence (bs : List Block) (i : Nat) (r : Registers) (rest : List Operation)
    (hrest : ∀ j, Strategy.ofOperations j rest = .everywhere)
    (h : Sequence.outcomes env bs s r ≠ []) :
    (Strategy.ofOperations i (Sequence.operations bs ++ rest)).Allows env s := by
  cases bs with
  | nil =>
      rw [Sequence.operations, List.nil_append, hrest]
      trivial
  | cons b more =>
      rw [Sequence.operations, List.append_assoc]
      exact allows_block b i r _ fun hnone => h (by rw [Sequence.outcomes, hnone, List.flatMap_nil])

/-- A choice with outcomes has passed the test of its first operation, if it has one
    and nothing is known of what follows. -/
theorem allows_alternatives (alts : List (List Block)) (i : Nat) (r : Registers)
    (rest : List Operation) (hrest : ∀ j, Strategy.ofOperations j rest = .everywhere)
    (h : Alternatives.outcomes env alts s r ≠ []) :
    (Strategy.ofOperations i (Alternatives.operations alts ++ rest)).Allows env s := by
  match alts with
  | [] => exact absurd rfl h
  | [t] =>
      refine allows_sequence t i r rest hrest fun hnone => h ?_
      rw [Alternatives.outcomes, hnone, Alternatives.outcomes, List.append_nil]
  | t :: u :: more => trivial

end

end Leading

/-- The strategy of a program carries the border table of its word. -/
def Strategy.Listed : Strategy → Prop
  | .literal _ word table => table = Literal.borders? word
  | _ => True

-- In the operations of a tree every run of literals carries its border table.
theorem literal_listed (alts : List (List Block)) (word : Bytes) (table : Option (Array UInt16))
    (h : Operation.literal word table ∈ Alternatives.operations alts) :
    table = Literal.borders? word := by
  refine (operations_induction_alternatives
    (P := fun ops => ∀ w t, Operation.literal w t ∈ ops → t = Literal.borders? w)
    ?_ ?_ ?_ ?_ alts).2 word table h
  · exact fun w t hmem => absurd hmem List.not_mem_nil
  · exact fun a b ha hb w t hmem => (List.mem_append.1 hmem).elim (ha w t) (hb w t)
  · exact fun op hop w t hmem => by rwa [← List.mem_singleton.1 hmem] at hop
  · intro n ops hops w t hmem
    simp only [List.mem_cons, List.mem_append, List.not_mem_nil, reduceCtorEq, or_false,
      false_or] at hmem
    exact hops w t hmem

-- The strategy takes its word from an operation of the list.
theorem ofOperations_listed (i : Nat) (ops : List Operation)
    (h : ∀ w t, Operation.literal w t ∈ ops → t = Literal.borders? w) :
    (Strategy.ofOperations i ops).Listed := by
  induction ops generalizing i with
  | nil => trivial
  | cons op rest ih =>
      have hrest := ih (i + 1) fun w t hmem => h w t (List.mem_cons_of_mem _ hmem)
      cases op with
      | openGroup n => exact hrest
      | literal w t => exact h w t List.mem_cons_self
      | anchor a => cases a <;> trivial
      | _ => trivial

theorem ofPattern_listed (options : CompileOptions) (t : Pattern) :
    (Program.ofPattern options t).strategy.Listed := by
  refine ofOperations_listed 0 _ fun w table hmem => ?_
  rcases List.mem_append.1 hmem with hmem | hmem
  · exact literal_listed t.alternatives w table hmem
  · exact absurd (List.mem_singleton.1 hmem) (by simp only [reduceCtorEq, not_false_eq_true])

namespace Machine

/-- A position stands behind a line feed. -/
def BehindFeed (text : Bytes) (s : Nat) : Prop := 0 < s ∧ text[s - 1]? = some Byte.lineFeed

theorem BehindFeed.le_size (text : Bytes) (s : Nat) (h : BehindFeed text s) : s ≤ text.size := by
  have hlt := (Array.getElem?_eq_some_iff.1 h.2).1
  have hpos := h.1
  omega

/-- A line begins at the start of the text, unless the search says otherwise, and behind
    every line feed in a text of several lines. -/
theorem holdsAt_lineBegin_iff (env : Env) (s : Nat) :
    env.holdsAt s .lineBegin = true ↔
      (s = 0 ∧ env.flags.notLineBegin = false) ∨
        (env.multiline = true ∧ BehindFeed env.text s) := by
  simp only [Env.holdsAt, Env.byteBeforeIs, Env.byteIs, Bool.or_eq_true, Bool.and_eq_true,
    beq_iff_eq, Bool.not_eq_true', decide_eq_true_eq, any_lineFeed_iff, BehindFeed]

-- What follows a line feed.
theorem behindFeed_succ (text : Bytes) (i : Nat) :
    BehindFeed text (i + 1) ↔ text[i]? = some Byte.lineFeed :=
  and_iff_right (Nat.succ_pos i)

/-- Forward the first position behind a line feed is found. -/
theorem nextLineBegin?_first (scan : ExactScan) (text : Bytes) (pos : Nat) :
    FirstFrom (BehindFeed text) (pos - 1 + 1) (nextLineBegin? scan text pos) := by
  have hfirst := first?_rest scan.exact Byte.lineFeed text (pos - 1)
  rw [nextLineBegin?]
  cases hfound : scan.first? Byte.lineFeed (text.extract (pos - 1) text.size) with
  | none =>
      rw [hfound] at hfirst
      exact fun u hu h => hfirst (u - 1) (Nat.le_sub_one_of_lt hu) h.2
  | some i =>
      rw [hfound] at hfirst
      refine ⟨Nat.succ_le_succ hfirst.1, (behindFeed_succ text _).2 hfirst.2.1, ?_⟩
      intro u hu hlt h
      have hbefore : u - 1 < pos - 1 + i := Nat.sub_one_lt_of_le h.1 (Nat.le_of_lt_succ hlt)
      exact hfirst.2.2 (u - 1) (Nat.le_sub_one_of_lt hu) hbefore h.2

/-- Backward the last one is found. -/
theorem lastLineBegin?_last (scan : ExactScan) (text : Bytes) (pos : Nat)
    (hpos : pos ≤ text.size) :
    LastUpTo (BehindFeed text) pos (lastLineBegin? scan text pos) := by
  have hlast := last?_front scan.exact Byte.lineFeed text pos hpos
  -- The line feed is before the position, so it is in the stretch.
  have hfeed : ∀ u, u ≤ pos → BehindFeed text u →
      u - 1 < pos ∧ text[u - 1]? = some Byte.lineFeed :=
    fun u hu h => ⟨Nat.sub_one_lt_of_le h.1 hu, h.2⟩
  rw [lastLineBegin?]
  cases hfound : scan.last? Byte.lineFeed (text.extract 0 pos) with
  | none =>
      rw [hfound] at hlast
      intro u hu h
      exact hlast (u - 1) (Nat.le_of_lt (hfeed u hu h).1) (hfeed u hu h)
  | some i =>
      rw [hfound] at hlast
      refine ⟨hlast.2.1.1, (behindFeed_succ text i).2 hlast.2.1.2, fun u hu hle h => ?_⟩
      have hbehind : i < u - 1 := Nat.lt_sub_of_add_lt hu
      exact hlast.2.2 (u - 1) hbehind (Nat.le_of_lt (hfeed u hle h).1) (hfeed u hle h)

/-- A match can start at a position of the text: the search tries every position, or
    the strategy of the program allows this one. -/
def CanStart (env : Env) (s : Nat) : Prop :=
  s ≤ env.text.size ∧ (env.flags.everyPosition = true ∨ env.program.strategy.Allows env s)

section Starts

variable {env : Env} (hevery : ¬env.flags.everyPosition = true)

include hevery

-- A word that stands in the text begins in it.
theorem canStart_literal_iff (i : Nat) (word : Bytes) (table : Option (Array UInt16))
    (hstrategy : env.program.strategy = .literal i word table) (s : Nat) :
    Literal.Occurs env.ignoreCase word env.text s ↔ CanStart env s := by
  rw [CanStart, or_iff_right hevery, hstrategy]
  exact ⟨fun h => ⟨Nat.le_trans (Nat.le_add_right _ _) h.1, h⟩, fun h => h.2⟩

theorem canStart_lineBegin_iff (hstrategy : env.program.strategy = .lineBegin) (s : Nat) :
    CanStart env s ↔ (s = 0 ∧ env.flags.notLineBegin = false) ∨
      (env.multiline = true ∧ BehindFeed env.text s) := by
  rw [CanStart, or_iff_right hevery, hstrategy, ← holdsAt_lineBegin_iff]
  refine ⟨fun h => h.2, fun h => ⟨?_, h⟩⟩
  rcases (holdsAt_lineBegin_iff env s).1 h with ⟨hzero, _⟩ | ⟨_, hfeed⟩
  · rw [hzero]
    exact Nat.zero_le _
  · exact hfeed.le_size

theorem nextLineStart_first (hstrategy : env.program.strategy = .lineBegin) (pos : Nat) :
    FirstFrom (CanStart env) pos
      (if pos = 0 ∧ env.flags.notLineBegin = false then some 0
        else if env.multiline then nextLineBegin? env.scan env.text pos
        else none) := by
  have hbegins := canStart_lineBegin_iff hevery hstrategy
  by_cases hstart : pos = 0 ∧ env.flags.notLineBegin = false
  · rw [if_pos hstart, hstart.1]
    exact firstFrom_self _ 0 ((hbegins 0).2 (Or.inl ⟨rfl, hstart.2⟩))
  · rw [if_neg hstart]
    -- The start of the text is out of the question, so only line feeds count.
    have hfeed : ∀ u, pos ≤ u → (CanStart env u ↔ env.multiline = true ∧ BehindFeed env.text u) :=
      fun u hu => (hbegins u).trans
        (or_iff_right fun h => hstart ⟨Nat.le_zero.1 (h.1 ▸ hu), h.2⟩)
    by_cases hlines : env.multiline = true
    · rw [if_pos hlines]
      refine FirstFrom.skip _ pos (pos - 1 + 1) _ (by omega) (fun u hu hlt h => ?_)
        ((nextLineBegin?_first env.scan env.text pos).congr _ _ _ _ fun u hu => ?_)
      · have := ((hfeed u hu).1 h).2.1
        omega
      · exact (and_iff_right hlines).symm.trans (hfeed u (by omega)).symm
    · rw [if_neg hlines]
      exact fun u hu h => hlines ((hfeed u hu).1 h).1

theorem previousLineStart_last (hstrategy : env.program.strategy = .lineBegin) (pos : Nat)
    (hpos : pos ≤ env.text.size) :
    LastUpTo (CanStart env) pos
      (match if env.multiline then lastLineBegin? env.scan env.text pos else none with
        | some s => some s
        | none => if env.flags.notLineBegin then none else some 0) := by
  have hbegins := canStart_lineBegin_iff hevery hstrategy
  -- Where no line feed counts, only the start of the text is left.
  have hzero : (∀ u, u ≤ pos → ¬(env.multiline = true ∧ BehindFeed env.text u)) →
      LastUpTo (CanStart env) pos (if env.flags.notLineBegin then none else some 0) := by
    intro hnone
    have honly : ∀ u, u ≤ pos → CanStart env u → u = 0 ∧ env.flags.notLineBegin = false :=
      fun u hu h => ((hbegins u).1 h).resolve_right (hnone u hu)
    by_cases hflag : env.flags.notLineBegin = true
    · rw [if_pos hflag]
      exact fun u hu h => absurd hflag (Bool.eq_false_iff.1 (honly u hu h).2)
    · rw [if_neg hflag]
      refine ⟨Nat.zero_le _, (hbegins 0).2 (Or.inl ⟨rfl, Bool.eq_false_iff.2 hflag⟩), ?_⟩
      exact fun u hu hle h => absurd (honly u hle h).1 (Nat.ne_of_gt hu)
  by_cases hlines : env.multiline = true
  · have hlast := lastLineBegin?_last env.scan env.text pos hpos
    rw [if_pos hlines]
    cases hfound : lastLineBegin? env.scan env.text pos with
    | none =>
        rw [hfound] at hlast
        exact hzero fun u hu h => hlast u hu h.2
    | some s =>
        rw [hfound] at hlast
        refine ⟨hlast.1, (hbegins _).2 (Or.inr ⟨hlines, hlast.2.1⟩), fun u hu hle h => ?_⟩
        rcases (hbegins u).1 h with ⟨hstart, _⟩ | ⟨_, hbehind⟩
        · omega
        · exact hlast.2.2 u hu hle hbehind
  · rw [if_neg hlines]
    exact hzero fun u hu h => hlines h.1

end Starts

theorem nextStart?_first (env : Env) (hlisted : env.program.strategy.Listed) (pos : Nat)
    (hpos : pos ≤ env.text.size) : FirstFrom (CanStart env) pos (nextStart? env pos) := by
  rw [nextStart?]
  by_cases hevery : env.flags.everyPosition = true
  · rw [if_pos hevery]
    exact firstFrom_self _ pos ⟨hpos, Or.inl hevery⟩
  · rw [if_neg hevery]
    cases hstrategy : env.program.strategy with
    | everywhere => exact firstFrom_self _ pos ⟨hpos, Or.inr (hstrategy ▸ trivial)⟩
    | literal i word table =>
        rw [hstrategy] at hlisted
        have htable : table = Literal.borders? word := hlisted
        have hfirst := Literal.nextOccurrence?_first env.scan.toByteScan env.scan.exact
          env.ignoreCase word env.text pos
        rw [htable]
        exact hfirst.congr _ _ _ _ fun u _ => canStart_literal_iff hevery i word table hstrategy u
    | lineBegin => exact nextLineStart_first hevery hstrategy pos

theorem previousStart?_last (env : Env) (pos : Nat) (hpos : pos ≤ env.text.size) :
    LastUpTo (CanStart env) pos (previousStart? env pos) := by
  rw [previousStart?]
  by_cases hevery : env.flags.everyPosition = true
  · rw [if_pos hevery]
    exact lastUpTo_self _ pos ⟨hpos, Or.inl hevery⟩
  · rw [if_neg hevery]
    cases hstrategy : env.program.strategy with
    | everywhere => exact lastUpTo_self _ pos ⟨hpos, Or.inr (hstrategy ▸ trivial)⟩
    | literal i word table =>
        have hlast := Literal.lastOccurrence?_last env.scan.toByteScan env.scan.exact
          env.ignoreCase word env.text pos
        exact hlast.congr _ _ _ _ fun u _ => canStart_literal_iff hevery i word table hstrategy u
    | lineBegin => exact previousLineStart_last hevery hstrategy pos hpos

end Machine

end ByteRegex
