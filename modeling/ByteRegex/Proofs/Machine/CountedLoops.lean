import ByteRegex.Machine.InPlace
import ByteRegex.Proofs.Machine.AnyStack
import ByteRegex.Proofs.Machine.Endings
import ByteRegex.Proofs.Program.Linking

/-!
# Counting a Loop Is Running It

Two ways to repeat a body. Counting finds the longest row of iterations before it looks
at anything else, and then tries the counts from the preferred end. Running chooses after
every iteration anew between one more and the way out, and what follows the loop is tried
in between. The machine counts where it can; here it is shown that it loses nothing.

An iteration of a counted body has no choices, so running it ends at the loop or fails
(`ending?_iteration`). There it has consumed something, and the choice is the same as
before with one more iteration behind it. By induction on the iterations that still fit
the choices unfold to the list of counts (`ending?_repeating`): with another iteration
preferred the way out comes after all that lies behind it, which is the order of counts
from the longest row down, and otherwise the order from the lowest count up.

The two do not write the same. Running records the groups of every iteration and counting
those of the last, but an iteration overwrites what an earlier one recorded. The journals
differ all the same, which is why endings are compared. That the journal has no say in
what follows the loop is proved beforehand, and so is that there is a run with enough
fuel from every state, whatever is on the stack.

## Main definitions

* `CountedLoop`: A quantifier of a program whose loop is counted.
* `Runs`: A machine without fuel.

## Theorems

* `countedLoop_of_link`: The counted loops of a linked tree.
* `ending?_body`: A counted body that is run.
* `ending?_iteration`: It comes to the next choice or fails.
* `ending?_repeating`: The choices unfold to the counts.
* `ending?_enterLoop`: To run a loop is to count it.
* `counted_framed`: So it is with fuel, from every state.
-/

namespace ByteRegex

namespace Machine

-- The operations of a stretch of a linked list are those of the list.
theorem bodyOf_link (p : Program) (ops : List Operation) (hp : p.operations = link ops)
    (a body c : List Operation) (hcut : ops = a ++ (body ++ c)) (first : Nat)
    (hfirst : a.length = first) : bodyOf p first (first + body.length) = body := by
  have hmap := map_link ops
  rw [← hp, hcut] at hmap
  rw [bodyOf, Array.toList_extract, List.extract_eq_take_drop, Nat.add_sub_cancel_left,
    List.map_take, List.map_drop, hmap, ← hfirst, List.drop_left, List.take_left]

open Machine.InPlace (leaveAfter)

/-- The first count that ends, in the preferred order: one behind one more iteration, or the
    present one if it may be left. -/
theorem findSome?_counts {α : Type} (f : Nat → Option α) (greedy : Bool) (done low most : Nat)
    (h : done ≤ most) :
    (counts greedy (max done low) most).findSome? f =
      (let again := (counts greedy (max (done + 1) low) most).findSome? f
       let out := if low ≤ done then f done else none
       if greedy then again.or out else out.or again) := by
  have hsame : ∀ xs : List Nat, xs.findSome? f = (xs.map f).findSome? id := fun xs => by
    rw [List.findSome?_map]
    rfl
  rw [hsame, ← counts_preferred f greedy done low most h, findSome?_preferred, findSome?_allowed,
    ← hsame]
  rfl

/-- A quantifier whose loop is counted: the block that it repeats stands between it and its
    loop, and is a row of tests and marks of some width. -/
structure CountedLoop (p : Program) (pc : Nat) (q : Quantifier) (loopAt : Nat) (e : Block)
    (w : Nat) : Prop where
  quantifier : ∃ first, p.at? pc = some ⟨.quantifier q, first, some loopAt⟩
  loop : p.at? loopAt = some ⟨.loop, loopAt + 1, some pc⟩
  body : bodyOf p (pc + 1) loopAt = e.operations
  length : loopAt = pc + 1 + e.operations.length
  /-- The operations of the block lead from each to the next, and the last to the loop. -/
  links : ∀ k op, e.operations[k]? = some op →
    p.at? (pc + 1 + k) = some ⟨op, pc + 1 + k + 1, none⟩
  width : countedWidth? e.operations = some w

-- A quantifier of a linked tree, with the block behind it and the loop behind that.
theorem exists_loop (p : Program) (t : Pattern) (hp : p.operations = link t.operations) (pc : Nat)
    (q : Quantifier) (first loopAt : Nat)
    (hop : p.at? pc = some ⟨.quantifier q, first, some loopAt⟩) :
    ∃ (a : List Operation) (e : Block) (behind : List Operation),
      t.operations = a ++ .quantifier q :: (e.operations ++ .loop :: behind) ∧ a.length = pc ∧
        loopAt = pc + 1 + e.operations.length ∧
        p.at? loopAt = some ⟨.loop, loopAt + 1, some pc⟩ := by
  have hlinked : (link t.operations)[pc]? = some ⟨.quantifier q, first, some loopAt⟩ := hp ▸ hop
  rcases exists_cut pc _ (operation_of_link pc _ hlinked) with ⟨a, c, hcut, hlength⟩
  rcases looping_pattern t a q c hcut with ⟨e, behind, rfl⟩
  rcases link_loop pc (pc + 1 + e.operations.length) ⟨a, q, e.operations, behind, hcut, hlength,
    rfl, operations_balancedBlock e⟩ with ⟨q', hquantifier, hloop⟩
  rw [hlinked] at hquantifier
  have hat : loopAt = pc + 1 + e.operations.length :=
    Option.some.inj (LinkedOperation.mk.inj (Option.some.inj hquantifier)).2.2
  refine ⟨a, e, behind, hcut, hlength, hat, ?_⟩
  rw [Program.at?, hp, hat]
  exact hloop

/-- In a linked tree the loop of every quantifier is counted whose body is a row of tests
    and marks that match something. -/
theorem countedLoop_of_link (p : Program) (t : Pattern) (hp : p.operations = link t.operations)
    (pc : Nat) (q : Quantifier) (first loopAt : Nat)
    (hop : p.at? pc = some ⟨.quantifier q, first, some loopAt⟩)
    (hcountable : ∀ op ∈ bodyOf p (pc + 1) loopAt, Operation.Countable op)
    (hpositive : 0 < extent (bodyOf p (pc + 1) loopAt)) :
    ∃ e, CountedLoop p pc q loopAt e (extent (bodyOf p (pc + 1) loopAt)) := by
  rcases exists_loop p t hp pc q first loopAt hop with ⟨a, e, behind, hcut, hlength, hat, hloop⟩
  have hbody : bodyOf p (pc + 1) loopAt = e.operations :=
    hat ▸ bodyOf_link p t.operations hp (a ++ [.quantifier q]) e.operations (.loop :: behind)
      (by rw [hcut, List.append_assoc]; rfl) (pc + 1)
      (by rw [List.length_append, hlength]; rfl)
  rw [hbody] at hcountable hpositive ⊢
  refine ⟨e, ⟨first, hop⟩, hloop, hbody, hat, fun k op hk => ?_,
    countedWidth?_of_countable e.operations hcountable hpositive⟩
  have hk' := (List.getElem?_eq_some_iff.1 hk).1
  have hplace : t.operations[pc + 1 + k]? = some op := by
    rw [hcut, List.getElem?_append_right (by omega), hlength,
      show pc + 1 + k - pc = k + 1 by omega, List.getElem?_cons_succ,
      List.getElem?_append_left hk', hk]
  have hfalls : op.FallsThrough := by
    have hop := hcountable op (List.mem_of_getElem? hk)
    cases op <;> trivial
  rw [Program.at?, hp]
  exact link_neighbour _ op hplace hfalls

/-- A machine without fuel: what it does is a step and then itself. It leaves nothing behind
    that cannot be undone, and the journal has no say in it. -/
structure Runs (env : Env) (go : Continuation) : Prop where
  undoable : Undoable go
  blind : Blind go
  eq_step : ∀ pc pos st, go pc pos st = step env go pc pos st

section Loops

variable {env : Env} {go : Continuation} (hruns : Runs env go)

include hruns

-- One operation of a counted body goes on or fails on the spot.
theorem ending?_countable (pc pos : Nat) (op : Operation) (st : State)
    (hop : env.program.at? pc = some ⟨op, pc + 1, none⟩) (hcountable : Operation.Countable op)
    (hpos : pos ≤ env.text.size) :
    (go pc pos st).ending? =
      if bodyPasses env pos [op] then
        (go (pc + 1) (pos + op.width?.getD 0) (recordGroups pos st [op])).ending?
      else none := by
  rw [hruns.eq_step, step, hop]
  simp only [if_neg (Nat.not_lt.2 hpos)]
  -- A test passes or not, and a mark always does.
  have htest : ∀ passed : Bool, ∀ a : Attempt,
      (if passed then a else .failed st).ending? = if passed && true then a.ending? else none := by
    intro passed a
    cases passed <;> rfl
  cases op with
  | literal word table => exact htest _ _
  | set s => exact htest _ _
  | anyChar => exact htest _ _
  | openGroup n => rfl
  | closeGroup n => rfl
  | _ => exact hcountable.elim

/-- A counted body that is run goes on behind it where its tests pass, with its groups
    recorded, and fails elsewhere. -/
theorem ending?_body (body : List Operation) (first pos : Nat) (st : State)
    (hbody : ∀ k op, body[k]? = some op →
      env.program.at? (first + k) = some ⟨op, first + k + 1, none⟩)
    (hcountable : ∀ op ∈ body, Operation.Countable op) (hpos : pos ≤ env.text.size) :
    (go first pos st).ending? =
      if bodyPasses env pos body then
        (go (first + body.length) (pos + extent body) (recordGroups pos st body)).ending?
      else none := by
  induction body generalizing first pos st with
  | nil => rfl
  | cons op rest ih =>
      have hop := hbody 0 op rfl
      have hcons : op :: rest = [op] ++ rest := rfl
      rw [ending?_countable hruns first pos op st hop (hcountable op List.mem_cons_self) hpos,
        hcons, bodyPasses_append, extent_append, List.length_append]
      by_cases hpasses : bodyPasses env pos [op] = true
      · have hfits := extent_le_of_bodyPasses env [op] pos hpos hpasses
        have hrest := ih (first + 1) (pos + extent [op]) (recordGroups pos st [op])
          (fun k op' hk => by
            have hat := hbody (k + 1) op' hk
            rwa [Nat.add_comm k 1, ← Nat.add_assoc] at hat)
          (fun op' hop' => hcountable op' (List.mem_cons_of_mem _ hop')) hfits
        have hrecord : recordGroups (pos + extent [op]) (recordGroups pos st [op]) rest =
            recordGroups pos st (op :: rest) := by
          cases op <;> rfl
        have hextent : extent [op] = op.width?.getD 0 := by rw [extent, extent, Nat.add_zero]
        rw [if_pos hpasses, hpasses, Bool.true_and, ← hextent, hrest, hrecord,
          List.length_singleton, Nat.add_assoc, Nat.add_assoc]
        rfl
      · rw [if_neg hpasses, Bool.eq_false_iff.2 hpasses, Bool.false_and, if_neg Bool.false_ne_true]

variable {pc loopAt : Nat} {q : Quantifier} {e : Block} {w : Nat}

-- The way out behind the iterations that have ended, with what the last one recorded.
theorem ending?_out (next pos done : Nat) (st st' : State)
    (hst' : st'.registers = lastRecorded e.operations w pos done st.registers) :
    (go next (pos + done * w) { st' with frames := st.frames }).ending? =
      (leaveAfter go e.operations w next pos done st).ending? := by
  refine hruns.blind _ _ _ _ ⟨?_, ?_⟩
  · rw [hst', lastRecorded]
    by_cases hdone : done = 0
    · rw [if_pos hdone, if_pos hdone]
    · rw [if_neg hdone, if_neg hdone, recordGroups_registers]
  · exact (recovers_counted e.operations st _ done).frames.symm

/-- If another iteration leads to the counts behind it, then the choice between it and the
    way out leads to those and to the present one. -/
theorem ending?_choice (next pos done : Nat) (st st' : State)
    (hst' : st'.registers = lastRecorded e.operations w pos done st.registers) (most : Nat)
    (hmost : done ≤ most)
    (hagain : (if q.max.all (done < ·) then (go (pc + 1) (pos + done * w)
        { st' with frames := ⟨pc, done, pos + done * w⟩ :: st.frames }).ending? else none) =
      (counts q.greedy (max (done + 1) q.min) most).findSome? fun k =>
        (leaveAfter go e.operations w next pos k st).ending?) :
    (againOrOut go q pc next (pos + done * w) done st.frames (q.max.all (done < ·))
        (q.min ≤ done) st').ending? =
      (counts q.greedy (max done q.min) most).findSome? fun k =>
        (leaveAfter go e.operations w next pos k st).ending? := by
  rw [ending?_againOrOut hruns.undoable, findSome?_counts _ q.greedy done q.min most hmost, hagain,
    ending?_out hruns next pos done st st' hst']
  simp only [decide_eq_true_eq]

variable (hloop : CountedLoop env.program pc q loopAt e w)

include hloop

/-- Another iteration of a counted body comes to its loop where the tests pass, and there it
    has consumed something: what is left is the choice between one more and the way out. -/
theorem ending?_iteration (pos count : Nat) (below : List LoopFrame) (st : State)
    (hframes : st.frames = ⟨pc, count, pos⟩ :: below) (hpos : pos ≤ env.text.size) :
    (go (pc + 1) pos st).ending? =
      if bodyPasses env pos e.operations then
        (againOrOut go q pc (loopAt + 1) (pos + w) (count + 1) below
          (q.max.all (count + 1 < ·)) (q.min ≤ count + 1)
          (recordGroups pos st e.operations)).ending?
      else none := by
  rcases countedWidth?_eq_some e.operations w hloop.width with ⟨hpositive, hextent, hcountable⟩
  rw [ending?_body hruns e.operations (pc + 1) pos st hloop.links hcountable hpos,
    ← hloop.length, ← hextent]
  by_cases hpasses : bodyPasses env pos e.operations = true
  · have hfits := fits_of_bodyPasses env e.operations w hloop.width pos hpos hpasses
    have hconsumed : (pos + w != pos) = true := by
      rw [bne_iff_ne]
      omega
    have hrecorded : (recordGroups pos st e.operations).frames = ⟨pc, count, pos⟩ :: below :=
      (recovers_recordGroups e.operations st pos).frames.trans hframes
    rcases hloop.quantifier with ⟨first, hquantifier⟩
    rw [if_pos hpasses, if_pos hpasses, hruns.eq_step, step, hloop.loop]
    simp only [if_neg (Nat.not_lt.2 hfits), stepLoop, hquantifier, hrecorded, if_true,
      endIteration, hconsumed, Bool.true_and, Bool.not_true, Bool.or_false]
  · rw [if_neg hpasses, if_neg hpasses]

/-- The choice of a loop between one more iteration and the way out is the choice between the
    counts that are left, once `done` iterations have ended and at most `limit` more fit. -/
theorem ending?_repeating (pos : Nat) (st : State) (most : Nat)
    (hmost : ∀ m, q.max = some m → most ≤ m)
    (hreached : q.max = some most ∨ env.text.size - pos ≤ most) (done limit : Nat)
    (hlimit : done + limit = most) (hpos : pos + done * w ≤ env.text.size) (st' : State)
    (hst' : st'.registers = lastRecorded e.operations w pos done st.registers) :
    (againOrOut go q pc (loopAt + 1) (pos + done * w) done st.frames (q.max.all (done < ·))
        (q.min ≤ done) st').ending? =
      (counts q.greedy (max done q.min)
        (iterationsFrom env e.operations w pos done limit)).findSome? fun k =>
          (leaveAfter go e.operations w (loopAt + 1) pos k st).ending? := by
  have hempty : counts q.greedy (max (done + 1) q.min) done = [] :=
    counts_of_lt _ _ _ (Nat.lt_of_lt_of_le (Nat.lt_succ_self done) (Nat.le_max_left _ _))
  have hiteration := ending?_iteration hruns hloop (pos + done * w) done st.frames
    { st' with frames := ⟨pc, done, pos + done * w⟩ :: st.frames } rfl hpos
  refine ending?_choice hruns (loopAt + 1) pos done st st' hst' _
    (le_iterationsFrom env e.operations w pos done limit) ?_
  rw [hiteration]
  cases limit with
  | zero =>
      have hnone := not_bodyPasses_of_reached env e.operations w hloop.width q pos done
        (by rwa [← hlimit, Nat.add_zero] at hreached) hpos
      rw [iterationsFrom, hempty, List.findSome?_nil]
      by_cases hall : q.max.all (done < ·) = true
      · rw [if_pos hall, if_neg (hnone hall)]
      · rw [if_neg hall]
  | succ limit =>
      rw [iterationsFrom, if_pos (all_lt_of_most q most done hmost (by omega))]
      by_cases hpasses : bodyPasses env (pos + done * w) e.operations = true
      · -- The next iteration begins a width further on, with the groups of this one recorded.
        have hnext : pos + done * w + w = pos + (done + 1) * w := by
          rw [Nat.succ_mul, Nat.add_assoc]
        have hfits := fits_of_bodyPasses env e.operations w hloop.width _ hpos hpasses
        rw [if_pos hpasses, if_pos hpasses, hnext]
        rw [hnext] at hfits
        refine ending?_repeating pos st most hmost hreached (done + 1) limit (by omega) hfits _ ?_
        rw [recordGroups_registers, ← record_lastRecorded, ← hst']
      · rw [if_neg hpasses, if_neg hpasses, hempty, List.findSome?_nil]

/-- To run a counted loop is to count it. -/
theorem ending?_enterLoop (pos : Nat) (st : State) (hpos : pos ≤ env.text.size) :
    (enterLoop go q pc (loopAt + 1) pos st).ending? =
      (repeatCounted env go e.operations w q (loopAt + 1) pos st).ending? := by
  have hstart : pos + 0 * w = pos := by rw [Nat.zero_mul, Nat.add_zero]
  have hmay : (q.max != some 0) = q.max.all (0 < ·) := by
    cases hmax : q.max with
    | none => rfl
    | some m => cases m <;> rfl
  have hleave : (q.min == 0) = decide (q.min ≤ 0) := by
    cases hmin : q.min <;> rfl
  rcases exists_most env e.operations w q pos with ⟨most, hcounted, hmost, hreached⟩
  have hloops := ending?_repeating hruns hloop pos st most hmost hreached 0 most (Nat.zero_add _)
    (hstart.symm ▸ hpos) st rfl
  rw [hstart, Nat.zero_max, ← hcounted] at hloops
  rw [ending?_repeatCounted hruns.undoable, enterLoop, hmay, hleave, hloops]
  rfl

end Loops

-- The machine counts at a counted loop.
theorem step_counted {env : Env} {pc loopAt : Nat} {q : Quantifier} {e : Block} {w : Nat}
    (hloop : CountedLoop env.program pc q loopAt e w) (go : Continuation) (pos : Nat) (st : State)
    (hpos : pos ≤ env.text.size) :
    step env go pc pos st = repeatCounted env go e.operations w q (loopAt + 1) pos st := by
  rcases hloop.quantifier with ⟨first, hquantifier⟩
  rw [step, hquantifier]
  simp only [if_neg (Nat.not_lt.2 hpos), stepQuantifier, hloop.loop, hloop.body, hloop.width]

section Fuel

variable {env : Env} (hlinks : ForwardLinks env.program)

include hlinks

/-- The final run runs the program. -/
theorem runs_final : Runs env (final env) where
  undoable := fun pc pos st => run_recovers env _ pc pos st
  blind := fun pc pos st st' h => by
    rw [final, final, h.frames]
    exact run_blind env _ pc pos st st' h
  eq_step := final_eq_step env hlinks

variable {pc loopAt : Nat} {q : Quantifier} {e : Block} {w : Nat}
  (hloop : CountedLoop env.program pc q loopAt e w) (fuel pos : Nat) (st : State)
  (hpos : pos ≤ env.text.size) (hfuel : needed env ⟨pc, pos, st.frames⟩ ≤ fuel)

include hloop hpos hfuel

-- What a counted loop goes on to needs no more fuel than the loop.
theorem enterLoop_eq_final : enterLoop (run env fuel) q pc (loopAt + 1) pos st =
    enterLoop (final env) q pc (loopAt + 1) pos st := by
  rcases hloop.quantifier with ⟨first, hquantifier⟩
  have hpc : pc < env.program.size := (Array.getElem?_eq_some_iff.1 hquantifier).1
  have hbody : needed env ⟨pc + 1, pos, ⟨pc, 0, pos⟩ :: st.frames⟩ <
      needed env ⟨pc, pos, st.frames⟩ := by
    refine needed_ahead hpc hpos _ _ (Nat.lt_succ_self pc) (Nat.le_refl _) ?_
    rw [pending_cons, if_pos rfl]
    exact Nat.le_refl _
  have hbehind : needed env ⟨loopAt + 1, pos, st.frames⟩ < needed env ⟨pc, pos, st.frames⟩ :=
    needed_ahead hpc hpos _ _ (by have := hloop.length; omega) (Nat.le_succ _) (Nat.le_refl _)
  have hfinal : ∀ pc' frames, needed env ⟨pc', pos, frames⟩ < needed env ⟨pc, pos, st.frames⟩ →
      ∀ st' : State, st'.frames = frames →
        Alike (fun _ => True) (run env fuel pc' pos st') (final env pc' pos st') := by
    intro pc' frames hless st' hst'
    exact ⟨run_eq_final env hlinks fuel pc' pos st' (by rw [hst']; omega), fun _ _ => trivial⟩
  exact (alike_againOrOut q pc (loopAt + 1) 0 st.frames _ _ (fun _ => hfinal _ _ hbody)
    (fun _ => hfinal _ _ hbehind)).1

end Fuel

-- What hands back the state at its beginning when it fails is told by its ending.
theorem failed_iff (a : Attempt) (st : State) (ha : ∀ later, a = .failed later → later = st)
    (later : State) : a = .failed later ↔ a.ending? = none ∧ later = st := by
  constructor
  · intro hfailed
    exact ⟨by rw [hfailed, Attempt.ending?], ha later hfailed⟩
  · rintro ⟨hending, rfl⟩
    cases a with
    | failed mid => rw [ha mid rfl]
    | matched stop mid => exact absurd hending (Option.some_ne_none _)
    | fault f => exact absurd hending (Option.some_ne_none _)

end Machine

open Machine

/-- Counting a loop is running it. Wherever a linked tree repeats a row of tests and marks
    that match something, the machine counts; and from every position and every state, with
    any registers and any loops on the stack, counting ends at the same position with the
    same registers and the same stack as running the body with a frame, or both fail and leave
    the state as it was. -/
theorem counted_framed (t : Pattern) (program : Program)
    (h : program.operations = link t.operations) (pc loopAt first : Nat) (q : Quantifier)
    (hop : program.at? pc = some ⟨.quantifier q, first, some loopAt⟩)
    (hcountable : ∀ op ∈ bodyOf program (pc + 1) loopAt, Machine.Operation.Countable op)
    (hpositive : 0 < extent (bodyOf program (pc + 1) loopAt)) (text : Bytes) (flags : SearchFlags)
    (scan : ExactScan) (pos : Nat) (hpos : pos ≤ text.size) (st : State) :
    let env : Env := ⟨program, text, flags, scan⟩
    let body := bodyOf program (pc + 1) loopAt
    ∃ loop enough, program.at? loopAt = some loop ∧ ∀ fuel, enough ≤ fuel →
      let counted := repeatCounted env (run env fuel) body (extent body) q loop.next pos st
      let framed := enterLoop (run env fuel) q pc loop.next pos st
      run env (fuel + 1) pc pos st = counted ∧
        counted.ending? = framed.ending? ∧
        Decided counted ∧
        ∀ later, (counted = .failed later ↔ framed = .failed later) ∧
          (counted = .failed later → later = st) := by
  intro env body
  have hlinks : ForwardLinks env.program := forwardLinks_link program t.operations h
  rcases countedLoop_of_link program t h pc q first loopAt hop hcountable hpositive with ⟨e, hloop⟩
  refine ⟨_, needed env ⟨pc, pos, st.frames⟩, hloop.loop, fun fuel hfuel => ?_⟩
  intro counted framed
  have hstep : run env (fuel + 1) pc pos st = counted := by
    have hbody : step env (run env fuel) pc pos st = _ :=
      step_counted hloop (run env fuel) pos st hpos
    rwa [← hloop.body] at hbody
  have hcounted : counted = final env pc pos st :=
    hstep.symm.trans (run_eq_final env hlinks (fuel + 1) pc pos st (Nat.le_succ_of_le hfuel))
  have hframed : framed = enterLoop (final env) q pc (loopAt + 1) pos st :=
    enterLoop_eq_final hlinks hloop fuel pos st hpos hfuel
  have hending : counted.ending? = framed.ending? := by
    rw [hcounted, hframed, ending?_enterLoop (runs_final hlinks) hloop pos st hpos,
      final_eq_step env hlinks, step_counted hloop _ pos st hpos]
  have hcountedSt : ∀ later, counted = .failed later → later = st := fun later =>
    repeatCounted_failed (run_recovers env fuel) env body _ q _ pos st later
  have hframedSt : ∀ later, framed = .failed later → later = st := fun later =>
    againOrOut_failed (run_recovers env fuel) q pc _ pos _ _ _ _ st later
  refine ⟨hstep, hending, ?_, fun later => ⟨?_, hcountedSt later⟩⟩
  · rw [hcounted]
    exact final_decided env hlinks ⟨pc, pos, st.frames⟩ st rfl
  · rw [failed_iff counted st hcountedSt, failed_iff framed st hframedSt, hending]

-- The loop of `(a(.)){1,2}` inside a text, when a group is open and another loop is running.
theorem counted_framed_nested :
    let q : Quantifier := ⟨.interval, 1, some 2, true⟩
    let t : Pattern :=
      ⟨[[.quantified q (.group ⟨1, by decide⟩ [[.literal #[0x61],
        .group ⟨2, by decide⟩ [[.anyChar]]]])]], 2⟩
    let program : Program := .ofOperations {} t.operations
    let env : Env := ⟨program, #[0x62, 0x61, 0x62, 0x61, 0x63], {}, .walk⟩
    let st : State := { State.initial.openGroup ⟨3, by decide⟩ 0 with frames := [⟨9, 4, 0⟩] }
    let body := bodyOf program 1 7
    ∃ loop enough, program.at? 7 = some loop ∧ ∀ fuel, enough ≤ fuel →
      let counted := repeatCounted env (run env fuel) body (extent body) q loop.next 1 st
      let framed := enterLoop (run env fuel) q 0 loop.next 1 st
      run env (fuel + 1) 0 1 st = counted ∧
        counted.ending? = framed.ending? ∧
        Decided counted ∧
        ∀ later, (counted = .failed later ↔ framed = .failed later) ∧
          (counted = .failed later → later = st) :=
  counted_framed _ _ rfl 0 7 1 _ rfl (countedWidth?_eq_some _ 2 rfl).2.2 (by decide) _ {} .walk
    1 (by decide) _

end ByteRegex
