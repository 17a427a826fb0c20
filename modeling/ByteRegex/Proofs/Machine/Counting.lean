import ByteRegex.Proofs.Machine.Journal
import ByteRegex.Proofs.Machine.Outcomes
import ByteRegex.Proofs.Pattern.WellFormed
import ByteRegex.Proofs.Program.Layout

/-!
# Counted Iterations

Why a body of fixed width may be counted. Such a body is a row of tests between
the marks of groups, so it has one outcome where it matches and none elsewhere, and
its iterations stand behind one another at multiples of its width.

Counting saves the machine from recording every iteration. Only the last one is
recorded, though going through the body would have recorded them all. The two come
to the same because the groups of an iteration overwrite everything that an earlier
iteration wrote: `Writes` is what the marks of a tree do to the registers, whatever
the registers hold, and which groups it concerns does not depend on where the
iteration begins.

`iterations_counted` puts this together. Its induction is on the iterations that
are still allowed, and its statement starts in the middle, with `done` of them
behind.

## Main definitions

* `extent`: How many bytes the tests among operations match together.
* `Registers.record`: The registers with the groups of one iteration.
* `Operation.Countable`: The operation is a test of fixed width or the mark of a
  group.
* `Writes`: What operations write to the registers, whatever they hold.
* `Settles`: Operations write to the same groups wherever they begin.

## Theorems

* `settles_block`: The marks of a tree write to the same groups everywhere.
* `record_record`: An iteration overwrites what an earlier one recorded.
* `countedWidth?_eq_some`, `countedWidth?_of_countable`: What is counted, and how wide it is.
* `outcomes_countable`: A row of tests and marks has one outcome where it matches.
* `outcomes_counted`: So does a body that is counted, as far on as its width says.
* `iterations_counted`: The outcomes of repeating it, from the middle of a row on.
* `iterations_eq_counts`: They are the counts between which the machine chooses.
-/

namespace ByteRegex

namespace Machine

/-- How many bytes the tests among the operations match together. -/
def extent : List Operation → Nat
  | [] => 0
  | op :: rest => op.width?.getD 0 + extent rest

/-- The registers with the groups of one iteration that begins at a position. -/
def Registers.record (pos : Nat) (r : Registers) : List Operation → Registers
  | [] => r
  | .openGroup n :: rest => record pos (r.openGroup n pos) rest
  | .closeGroup n :: rest => record pos (r.closeGroup n pos) rest
  | op :: rest => record (pos + op.width?.getD 0) r rest

attribute [ext] Registers

theorem State.closeGroup_registers (st : State) (n : GroupNumber) (pos : Nat) :
    (st.closeGroup n pos).registers = st.registers.closeGroup n pos := by
  cases h : st.registers.opened[n] with
  | none => rw [State.closeGroup, Registers.closeGroup, h]
  | some start => rw [State.closeGroup, h]

-- Recording the groups of an iteration is the same with a journal.
theorem recordGroups_registers (body : List Operation) (st : State) (pos : Nat) :
    (recordGroups pos st body).registers = st.registers.record pos body := by
  fun_induction recordGroups pos st body with
  | case1 => rfl
  | case2 pos st n rest ih => exact ih
  | case3 pos st n rest ih => rw [ih, State.closeGroup_registers, Registers.record]
  | case4 pos st op rest hopen hclose ih => rw [ih, Registers.record] <;> assumption

theorem extent_append (a b : List Operation) : extent (a ++ b) = extent a + extent b := by
  induction a with
  | nil => rw [List.nil_append, extent, Nat.zero_add]
  | cons op rest ih => rw [List.cons_append, extent, extent, ih, Nat.add_assoc]

theorem record_append (a b : List Operation) (pos : Nat) (r : Registers) :
    r.record pos (a ++ b) = (r.record pos a).record (pos + extent a) b := by
  induction a generalizing pos r with
  | nil => rfl
  | cons op rest ih =>
      have hpos : ∀ w, pos + (w + extent rest) = pos + w + extent rest :=
        fun w => (Nat.add_assoc _ _ _).symm
      rw [List.cons_append]
      cases op with
      | openGroup n => rw [Registers.record, Registers.record, ih, extent, hpos]; rfl
      | closeGroup n => rw [Registers.record, Registers.record, ih, extent, hpos]; rfl
      | _ => exact (ih _ _).trans (by rw [extent, hpos]; rfl)

theorem bodyPasses_append (env : Env) (a b : List Operation) (pos : Nat) :
    bodyPasses env pos (a ++ b) =
      (bodyPasses env pos a && bodyPasses env (pos + extent a) b) := by
  induction a generalizing pos with
  | nil => rfl
  | cons op rest ih =>
      rw [List.cons_append, bodyPasses, bodyPasses, extent]
      cases op.width? with
      | some w => simp only [ih, Option.getD_some, Bool.and_assoc, Nat.add_assoc]
      | none => simp only [ih, Option.getD_none, Nat.zero_add]

/-- What operations write to the registers, whatever the registers hold: a group
    without a value is left alone. -/
structure Writes where
  opened : GroupNumber → Option Nat
  closed : GroupNumber → Option Span
  highest : Nat

namespace Writes

/-- The registers with the writes made. -/
def apply (w : Writes) (r : Registers) : Registers :=
  { r with
    opened := Vector.ofFn fun m => (w.opened m).or r.opened[m]
    closed := Vector.ofFn fun m => (w.closed m).or r.closed[m]
    highest := max r.highest w.highest }

/-- Two sets of writes concern the same groups. -/
structure SameGroups (w w' : Writes) : Prop where
  opened : ∀ m, (w.opened m).isSome = (w'.opened m).isSome
  closed : ∀ m, (w.closed m).isSome = (w'.closed m).isSome
  highest : w.highest = w'.highest

/-- Writes followed by others, which go over the former. -/
def andThen (w w' : Writes) : Writes where
  opened := fun m => (w'.opened m).or (w.opened m)
  closed := fun m => (w'.closed m).or (w.closed m)
  highest := max w.highest w'.highest

theorem apply_andThen (w w' : Writes) (r : Registers) :
    (w.andThen w').apply r = w'.apply (w.apply r) := by
  simp only [apply, andThen, Fin.getElem_fin, Vector.getElem_ofFn, Fin.eta, Option.or_assoc,
    Nat.max_assoc]

-- A value of the later writes stands wherever the earlier ones left one.
theorem or_or_of_isSome {α : Type} (a b c : Option α) (h : a.isSome = b.isSome) :
    a.or (b.or c) = a.or c := by
  cases a with
  | some x => rfl
  | none =>
      cases b with
      | none => rfl
      | some y => exact absurd h Bool.false_ne_true

theorem apply_apply (w w' : Writes) (h : SameGroups w w') (r : Registers) :
    w.apply (w'.apply r) = w.apply r := by
  simp only [apply, Fin.getElem_fin, Vector.getElem_ofFn, Fin.eta,
    or_or_of_isSome _ _ _ (h.opened _), or_or_of_isSome _ _ _ (h.closed _), h.highest,
    Nat.max_assoc, Nat.max_self]

end Writes

/-- Operations write to the same groups wherever they begin. -/
def Settles (ops : List Operation) : Prop :=
  ∃ w : Nat → Writes, (∀ p p', (w p).SameGroups (w p')) ∧
    ∀ pos r, Registers.record pos r ops = (w pos).apply r

/-- So what they recorded from one position they record over from another. -/
theorem Settles.record_record (ops : List Operation) (h : Settles ops) (p p' : Nat)
    (r : Registers) : (r.record p' ops).record p ops = r.record p ops := by
  rcases h with ⟨w, hsame, hw⟩
  rw [hw, hw, hw, Writes.apply_apply _ _ (hsame p p')]

-- Operations that leave the registers alone.
theorem settles_idle (ops : List Operation) (h : ∀ pos r, Registers.record pos r ops = r) :
    Settles ops := by
  refine ⟨fun _ => ⟨fun _ => none, fun _ => none, 0⟩,
    fun _ _ => ⟨fun _ => rfl, fun _ => rfl, rfl⟩, fun pos r => ?_⟩
  simp only [h, Writes.apply, Option.none_or, Fin.getElem_fin, Vector.ofFn_getElem,
    Nat.max_zero]

theorem settles_append (a b : List Operation) (ha : Settles a) (hb : Settles b) :
    Settles (a ++ b) := by
  rcases ha with ⟨wa, hsamea, hwa⟩
  rcases hb with ⟨wb, hsameb, hwb⟩
  refine ⟨fun pos => (wa pos).andThen (wb (pos + extent a)), fun p p' => ?_, fun pos r => ?_⟩
  · have ha := hsamea p p'
    have hb := hsameb (p + extent a) (p' + extent a)
    exact ⟨fun m => by simp only [Writes.andThen, Option.isSome_or, ha.opened m, hb.opened m],
      fun m => by simp only [Writes.andThen, Option.isSome_or, ha.closed m, hb.closed m],
      by simp only [Writes.andThen, ha.highest, hb.highest]⟩
  · rw [record_append, hwa, hwb, Writes.apply_andThen]

-- A group writes where it was opened, unless the group opens again inside, and
-- with which span it closes.
theorem settles_group (n : GroupNumber) (ops : List Operation) (h : Settles ops) :
    Settles (.openGroup n :: (ops ++ [.closeGroup n])) := by
  rcases h with ⟨w, hsame, hw⟩
  refine ⟨fun pos =>
    { opened := fun m => ((w pos).opened m).or (if m = n then some pos else none)
      closed := fun m => if m = n then
          some ⟨((w pos).opened n).getD pos, pos + extent ops⟩ else (w pos).closed m
      highest := max (w pos).highest n }, fun p p' => ?_, fun pos r => ?_⟩
  · -- Which numbers are written depends on the operations alone.
    have h := hsame p p'
    refine ⟨fun m => ?_, fun m => ?_, by simp only [h.highest]⟩
    · by_cases hm : m = n <;> simp [hm, h.opened]
    · by_cases hm : m = n <;> simp [hm, h.closed]
  · -- The group closes with the place where it opened last, which may be inside.
    have hopened : ((w pos).apply (r.openGroup n pos)).opened[n] =
        some (((w pos).opened n).getD pos) := by
      cases hn : (w pos).opened n <;> simp [Writes.apply, Registers.openGroup, hn]
    rw [Registers.record, record_append, hw, Registers.record, Registers.record,
      Registers.closeGroup, hopened]
    -- Number by number: what is set is the new value, and the rest is as it was.
    refine Registers.ext ?_ ?_ ?_ rfl
    · refine Vector.ext (fun m hm => ?_)
      by_cases hmn : (⟨m, hm⟩ : GroupNumber) = n
      · subst hmn
        cases ho : (w pos).opened ⟨m, hm⟩ <;> simp [Writes.apply, Registers.openGroup, ho]
      · have hne : n.val ≠ m := fun h => hmn (Fin.ext h.symm)
        simp [Writes.apply, Registers.openGroup, hmn, hne]
    · refine Vector.ext (fun m hm => ?_)
      by_cases hmn : (⟨m, hm⟩ : GroupNumber) = n
      · subst hmn
        simp [Writes.apply]
      · have hne : n.val ≠ m := fun h => hmn (Fin.ext h.symm)
        simp [Writes.apply, Registers.openGroup, hmn, hne]
    · simp only [Writes.apply, Registers.openGroup, Nat.max_assoc]

theorem settles_block (b : Block) : Settles b.operations := by
  refine operations_induction (settles_idle [] fun _ _ => rfl) settles_append ?_ settles_group b
  intro op hop
  refine settles_idle _ (fun pos r => ?_)
  cases op with
  | openGroup n => exact hop.elim
  | closeGroup n => exact hop.elim
  | _ => rfl

/-- An operation of a body that can be counted: a test of fixed width or the mark of
    a group. -/
def Operation.Countable : Operation → Prop
  | .literal _ _ => True
  | .set _ => True
  | .anyChar => True
  | .openGroup _ => True
  | .closeGroup _ => True
  | _ => False

theorem widthFrom_eq_some (width n : Nat) (ops : List Operation)
    (h : countedWidth?.widthFrom width ops = some n) :
    n = width + extent ops ∧ ∀ op ∈ ops, Operation.Countable op := by
  induction ops generalizing width with
  | nil => exact ⟨(Option.some.inj h).symm, fun _ hop => absurd hop List.not_mem_nil⟩
  | cons op rest ih =>
      rw [List.forall_mem_cons, extent]
      have hadd : ∀ w, width + (w + extent rest) = width + w + extent rest :=
        fun w => (Nat.add_assoc _ _ _).symm
      rw [hadd]
      -- A test adds its width, a mark adds nothing, and anything else ends the count.
      cases op with
      | literal word table =>
          have hrest := ih _ h
          exact ⟨hrest.1, trivial, hrest.2⟩
      | set s =>
          have hrest := ih _ h
          exact ⟨hrest.1, trivial, hrest.2⟩
      | anyChar =>
          have hrest := ih _ h
          exact ⟨hrest.1, trivial, hrest.2⟩
      | openGroup m =>
          have hrest := ih _ h
          exact ⟨hrest.1, trivial, hrest.2⟩
      | closeGroup m =>
          have hrest := ih _ h
          exact ⟨hrest.1, trivial, hrest.2⟩
      | _ => exact absurd h (by simp only [countedWidth?.widthFrom, Operation.width?,
          Option.bind_none, reduceCtorEq, not_false_eq_true])

-- The width of a counted iteration is positive, and all of it is tests and marks.
theorem countedWidth?_eq_some (ops : List Operation) (w : Nat) (h : countedWidth? ops = some w) :
    0 < w ∧ w = extent ops ∧ ∀ op ∈ ops, Operation.Countable op := by
  rw [countedWidth?] at h
  cases hw : countedWidth?.widthFrom 0 ops with
  | none => exact absurd h (by simp only [hw, reduceCtorEq, not_false_eq_true])
  | some n =>
      have hn := widthFrom_eq_some 0 n ops hw
      rw [Nat.zero_add] at hn
      rw [hw] at h
      cases n with
      | zero => exact absurd h (by simp only [reduceCtorEq, not_false_eq_true])
      | succ k =>
          rw [← Option.some.inj h]
          exact ⟨Nat.succ_pos k, hn⟩

theorem widthFrom_of_countable (width : Nat) (ops : List Operation)
    (h : ∀ op ∈ ops, Operation.Countable op) :
    countedWidth?.widthFrom width ops = some (width + extent ops) := by
  induction ops generalizing width with
  | nil => rfl
  | cons op rest ih =>
      rw [List.forall_mem_cons] at h
      have hadd : width + extent (op :: rest) = width + op.width?.getD 0 + extent rest := by
        rw [extent, Nat.add_assoc]
      rw [hadd]
      cases op with
      | literal word table => exact ih _ h.2
      | set s => exact ih _ h.2
      | anyChar => exact ih _ h.2
      | openGroup n => exact ih _ h.2
      | closeGroup n => exact ih _ h.2
      | _ => exact h.1.elim

/-- Tests and marks that match something are counted. -/
theorem countedWidth?_of_countable (ops : List Operation) (h : ∀ op ∈ ops, Operation.Countable op)
    (hpositive : 0 < extent ops) : countedWidth? ops = some (extent ops) := by
  rw [countedWidth?, widthFrom_of_countable 0 ops h, Nat.zero_add]
  cases hextent : extent ops with
  | zero => exact absurd hextent (Nat.ne_of_gt hpositive)
  | succ n => rfl

/-- The only outcome of operations of fixed width: where their tests pass it is
    behind them, with their groups recorded. -/
def fixedOutcome (env : Env) (ops : List Operation) (pos : Nat) (r : Registers) : List Outcome :=
  if bodyPasses env pos ops then [(pos + extent ops, r.record pos ops)] else []

-- A row of operations of fixed width binds the outcome of one part to the next.
theorem fixedOutcome_append (env : Env) (a b : List Operation) (pos : Nat) (r : Registers) :
    fixedOutcome env (a ++ b) pos r =
      (fixedOutcome env a pos r).flatMap fun o => fixedOutcome env b o.1 o.2 := by
  simp only [fixedOutcome, bodyPasses_append, extent_append, record_append, ← Nat.add_assoc]
  cases bodyPasses env pos a with
  | false => rfl
  | true => simp only [Bool.true_and, if_true, List.flatMap_singleton]

-- A test of one operation.
theorem fixedOutcome_single (env : Env) (op : Operation) (w pos : Nat) (r : Registers)
    (hw : op.width? = some w) :
    fixedOutcome env [op] pos r = if env.passes pos op then [(pos + w, r)] else [] := by
  have hrecord : r.record pos [op] = r := by
    cases op <;> first | rfl | exact absurd hw (by simp only [Operation.width?, reduceCtorEq,
      not_false_eq_true])
  simp only [fixedOutcome, bodyPasses, hw, Bool.and_true, extent, hrecord, Option.getD_some,
    Nat.add_zero]

mutual

/-- A block of which every operation is countable has one outcome where its tests
    pass and none elsewhere. -/
theorem outcomes_countable (env : Env) (b : Block) (hb : b.Proper)
    (hops : ∀ op ∈ b.operations, Operation.Countable op) (pos : Nat) (r : Registers) :
    b.outcomes env pos r = fixedOutcome env b.operations pos r := by
  cases b with
  | literal w => exact (fixedOutcome_single env (Operation.ofLiteral w) _ pos r rfl).symm
  | set s => exact (fixedOutcome_single env (.set s) _ pos r rfl).symm
  | anyChar => exact (fixedOutcome_single env .anyChar _ pos r rfl).symm
  | group n alts =>
      have hin : ∀ op ∈ Alternatives.operations alts, Operation.Countable op := fun op hop =>
        hops op (List.mem_cons_of_mem _ (List.mem_append_left _ hop))
      have halts := outcomes_countable_alternatives env alts hb.1 hb.2 hin pos (r.openGroup n pos)
      rw [Block.outcomes, halts, Block.operations, fixedOutcome, fixedOutcome, bodyPasses]
      simp only [Operation.width?, bodyPasses_append, bodyPasses, Bool.and_true, extent,
        extent_append, Registers.record, record_append, Option.getD_none, Nat.zero_add,
        Nat.add_zero]
      cases bodyPasses env pos (Alternatives.operations alts) <;> rfl
  | _ => exact (hops _ List.mem_cons_self).elim

theorem outcomes_countable_sequence (env : Env) (s : List Block) (hs : Sequence.Proper s)
    (hops : ∀ op ∈ Sequence.operations s, Operation.Countable op) (pos : Nat) (r : Registers) :
    Sequence.outcomes env s pos r = fixedOutcome env (Sequence.operations s) pos r := by
  cases s with
  | nil => rfl
  | cons b rest =>
      have hall := List.forall_mem_append.1 hops
      have hb := outcomes_countable env b hs.1 hall.1 pos r
      have hrest := outcomes_countable_sequence env rest hs.2 hall.2
      rw [Sequence.outcomes, Sequence.operations, fixedOutcome_append, hb]
      simp only [hrest]

-- There is a single alternative, since a choice between several is not counted.
theorem outcomes_countable_alternatives (env : Env) (alts : List (List Block))
    (hne : alts ≠ []) (halts : Alternatives.Proper alts)
    (hops : ∀ op ∈ Alternatives.operations alts, Operation.Countable op) (pos : Nat)
    (r : Registers) :
    Alternatives.outcomes env alts pos r =
      fixedOutcome env (Alternatives.operations alts) pos r := by
  match alts with
  | [] => exact absurd rfl hne
  | [s] =>
      rw [Alternatives.outcomes, Alternatives.outcomes, List.append_nil]
      exact outcomes_countable_sequence env s halts.1 hops pos r
  | s :: t :: rest => exact (hops .branch List.mem_cons_self).elim

end

/-- A body that can be counted has one outcome where its tests pass, as far on as its
    width says. -/
theorem outcomes_counted (env : Env) (b : Block) (hb : b.Proper) (w : Nat)
    (hw : countedWidth? b.operations = some w) (pos : Nat) (r : Registers) :
    b.outcomes env pos r =
      if bodyPasses env pos b.operations then [(pos + w, r.record pos b.operations)] else [] := by
  rcases countedWidth?_eq_some b.operations w hw with ⟨_, hextent, hcountable⟩
  rw [outcomes_countable env b hb hcountable pos r, fixedOutcome, ← hextent]

-- A test of fixed width passes inside the text.
theorem fits_of_passes (env : Env) (op : Operation) (w pos : Nat) (hw : op.width? = some w)
    (h : env.passes pos op = true) : pos + w ≤ env.text.size := by
  cases op with
  | literal word table => exact Option.some.inj hw ▸ occursAt_le _ _ _ pos h
  | set s => exact Option.some.inj hw ▸ byteIs_lt env pos _ h
  | anyChar => exact Option.some.inj hw ▸ byteIs_lt env pos _ h
  | _ => exact absurd hw (by simp only [Operation.width?, reduceCtorEq, not_false_eq_true])

theorem extent_le_of_bodyPasses (env : Env) (ops : List Operation) (pos : Nat)
    (hpos : pos ≤ env.text.size) (h : bodyPasses env pos ops = true) :
    pos + extent ops ≤ env.text.size := by
  induction ops generalizing pos with
  | nil => exact hpos
  | cons op rest ih =>
      rw [bodyPasses] at h
      rw [extent]
      cases hw : op.width? with
      | none =>
          simp only [hw] at h
          rw [Option.getD_none, Nat.zero_add]
          exact ih pos hpos h
      | some w =>
          simp only [hw, Bool.and_eq_true] at h
          rw [Option.getD_some, ← Nat.add_assoc]
          exact ih (pos + w) (fits_of_passes env op w pos hw h.1) h.2

-- Where the tests of a counted body pass, the body fits into the text.
theorem fits_of_bodyPasses (env : Env) (ops : List Operation) (w : Nat)
    (hw : countedWidth? ops = some w) (pos : Nat) (hpos : pos ≤ env.text.size)
    (h : bodyPasses env pos ops = true) : pos + w ≤ env.text.size := by
  rw [(countedWidth?_eq_some ops w hw).2.1]
  exact extent_le_of_bodyPasses env ops pos hpos h

/-- A row of iterations of a counted body ends inside the text. -/
theorem iterationsFrom_fits (env : Env) (ops : List Operation) (w : Nat)
    (hw : countedWidth? ops = some w) (pos done limit : Nat)
    (hpos : pos + done * w ≤ env.text.size) :
    pos + iterationsFrom env ops w pos done limit * w ≤ env.text.size := by
  induction limit generalizing done with
  | zero => exact hpos
  | succ limit ih =>
      rw [iterationsFrom]
      split
      · refine ih (done + 1) ?_
        rw [Nat.succ_mul, ← Nat.add_assoc]
        exact fits_of_bodyPasses env ops w hw _ hpos ‹_›
      · exact hpos

/-- The registers after `k` counted iterations. -/
def lastRecorded (body : List Operation) (width pos k : Nat) (r : Registers) : Registers :=
  if k = 0 then r else r.record (pos + (k - 1) * width) body

-- One more iteration records over what the iterations before it recorded.
theorem record_lastRecorded (b : Block) (width pos k : Nat) (r : Registers) :
    (lastRecorded b.operations width pos k r).record (pos + k * width) b.operations =
      lastRecorded b.operations width pos (k + 1) r := by
  rw [lastRecorded, lastRecorded, if_neg (Nat.succ_ne_zero k), Nat.add_sub_cancel]
  by_cases hk : k = 0
  · rw [if_pos hk]
  · rw [if_neg hk, (settles_block b).record_record]

-- While fewer iterations have ended than are allowed, the upper bound is not reached.
theorem all_lt_of_most (q : Quantifier) (most done : Nat) (hmost : ∀ m, q.max = some m → most ≤ m)
    (h : done < most) : q.max.all (done < ·) = true := by
  cases hmax : q.max with
  | none => rfl
  | some m =>
      have := hmost m hmax
      rw [Option.all_some, decide_eq_true_eq]
      omega

-- Where the count has come as far as the upper bound or the bytes allow, there is no other
-- iteration: no bytes are left for a body of some width.
theorem not_bodyPasses_of_reached (env : Env) (ops : List Operation) (w : Nat)
    (hw : countedWidth? ops = some w) (q : Quantifier) (pos done : Nat)
    (hreached : q.max = some done ∨ env.text.size - pos ≤ done)
    (hpos : pos + done * w ≤ env.text.size) (hall : q.max.all (done < ·) = true) :
    ¬bodyPasses env (pos + done * w) ops = true := by
  intro hpasses
  rcases hreached with hmax | hbytes
  · rw [hmax, Option.all_some, decide_eq_true_eq] at hall
    omega
  · have hpositive := (countedWidth?_eq_some ops w hw).1
    have hfits := fits_of_bodyPasses env ops w hw (pos + done * w) hpos hpasses
    have hwide := Nat.le_mul_of_pos_right done hpositive
    omega

/-- The outcomes of repeating a body of fixed width, once `done` iterations have ended
    and at most `limit` more fit: for every count up to the longest row, the position
    behind that many iterations, with the groups of the last one. -/
theorem iterations_counted (env : Env) (q : Quantifier) (b : Block) (hb : b.Proper) (w : Nat)
    (hw : countedWidth? b.operations = some w) (pos : Nat) (r : Registers) (most : Nat)
    (hmost : ∀ m, q.max = some m → most ≤ m)
    (hreached : q.max = some most ∨ env.text.size - pos ≤ most) (done limit : Nat)
    (hlimit : done + limit = most) (hpos : pos + done * w ≤ env.text.size) :
    q.iterations env.text.size (b.outcomes env) done true (pos + done * w)
        (lastRecorded b.operations w pos done r) =
      (counts q.greedy (max done q.min)
        (iterationsFrom env b.operations w pos done limit)).map fun k =>
          (pos + k * w, lastRecorded b.operations w pos k r) := by
  have hpositive := (countedWidth?_eq_some b.operations w hw).1
  have hfits := fits_of_bodyPasses env b.operations w hw (pos + done * w) hpos
  rw [iterations_eq env.text.size q (b.outcomes env) (forward_block env b) done true _ _ hpos,
    ← counts_preferred _ q.greedy done q.min _
      (le_iterationsFrom env b.operations w pos done limit)]
  simp only [outcomes_counted env b hb w hw, Quantifier.mayRepeat, Quantifier.mayLeave,
    Bool.true_and, Bool.not_true, Bool.or_false, decide_eq_true_eq]
  -- The ways out agree, so it is enough to compare what another iteration leads to.
  suffices hagain :
      (if q.max.all (done < ·) = true then
        (if bodyPasses env (pos + done * w) b.operations = true then
          [(pos + done * w + w,
            (lastRecorded b.operations w pos done r).record (pos + done * w) b.operations)]
        else []).flatMap fun o =>
          q.iterations env.text.size (b.outcomes env) (done + 1) (o.1 != pos + done * w) o.1 o.2
      else []) =
      (counts q.greedy (max (done + 1) q.min)
        (iterationsFrom env b.operations w pos done limit)).map fun k =>
          (pos + k * w, lastRecorded b.operations w pos k r) by
    rw [hagain]
  have hempty : counts q.greedy (max (done + 1) q.min) done = [] :=
    counts_of_lt _ _ _ (Nat.lt_of_lt_of_le (Nat.lt_succ_self done) (Nat.le_max_left _ _))
  cases limit with
  | zero =>
      have hnone := not_bodyPasses_of_reached env b.operations w hw q pos done
        (by rwa [← hlimit, Nat.add_zero] at hreached) hpos
      rw [iterationsFrom, hempty, List.map_nil]
      by_cases hall : q.max.all (done < ·) = true
      · rw [if_pos hall, if_neg (hnone hall), List.flatMap_nil]
      · rw [if_neg hall]
  | succ limit =>
      -- Further iterations fit, so the bound is not reached.
      have hall := all_lt_of_most q most done hmost (by omega)
      rw [iterationsFrom, if_pos hall]
      by_cases hpasses : bodyPasses env (pos + done * w) b.operations = true
      · -- The next iteration begins a width further on, which is somewhere else.
        have hnext : pos + done * w + w = pos + (done + 1) * w := by
          rw [Nat.succ_mul, Nat.add_assoc]
        have hconsumed : (pos + (done + 1) * w != pos + done * w) = true := by
          rw [bne_iff_ne, ← hnext]
          omega
        have hfit := hfits hpasses
        rw [hnext] at hfit
        rw [if_pos hpasses, if_pos hpasses, List.flatMap_singleton, hnext,
          record_lastRecorded, hconsumed]
        exact iterations_counted env q b hb w hw pos r most hmost hreached (done + 1) limit
          (by omega) hfit
      · rw [if_neg hpasses, if_neg hpasses, hempty, List.map_nil, List.flatMap_nil]

-- The longest row is counted from zero, up to the bound or the bytes that are left.
theorem exists_most (env : Env) (body : List Operation) (width : Nat) (q : Quantifier)
    (pos : Nat) :
    ∃ most, mostIterations env body width q pos = iterationsFrom env body width pos 0 most ∧
      (∀ m, q.max = some m → most ≤ m) ∧ (q.max = some most ∨ env.text.size - pos ≤ most) := by
  rw [mostIterations]
  cases q.max with
  | none =>
      exact ⟨_, rfl, fun m hm => absurd hm (by simp only [reduceCtorEq, not_false_eq_true]),
        Or.inr (Nat.le_refl _)⟩
  | some m =>
      refine ⟨min m (env.text.size - pos), rfl, fun m' hm' => ?_, ?_⟩
      · rw [← Option.some.inj hm']
        exact Nat.min_le_left _ _
      · -- Whichever is smaller, the bound or the bytes, is what the counting stops at.
        by_cases hm : m ≤ env.text.size - pos
        · exact Or.inl (by rw [Nat.min_eq_left hm])
        · exact Or.inr (by omega)

/-- The outcomes of a counted body are the counts between which the machine chooses. -/
theorem iterations_eq_counts (env : Env) (q : Quantifier) (b : Block) (hb : b.Proper) (w : Nat)
    (hw : countedWidth? b.operations = some w) (pos : Nat) (r : Registers)
    (hpos : pos ≤ env.text.size) :
    q.iterations env.text.size (b.outcomes env) 0 true pos r =
      (counts q.greedy q.min (mostIterations env b.operations w q pos)).map fun k =>
        (pos + k * w, lastRecorded b.operations w pos k r) := by
  have hstart : pos + 0 * w = pos := by rw [Nat.zero_mul, Nat.add_zero]
  rcases exists_most env b.operations w q pos with ⟨most, hcounted, hmost, hreached⟩
  have h := iterations_counted env q b hb w hw pos r most hmost hreached 0 most (Nat.zero_add _)
    (hstart.symm ▸ hpos)
  rwa [hstart, Nat.zero_max, ← hcounted] at h

end Machine

end ByteRegex
