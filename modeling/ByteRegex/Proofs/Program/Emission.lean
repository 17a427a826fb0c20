import ByteRegex.Proofs.Program.BlockStructure
import ByteRegex.Proofs.Program.InPlace

/-!
# Emission Follows the Tree

The compiler that works in place never sees the tree that the parser builds, and yet both
do the same with every token. `Parser.emitter` says what the state of the one is in the
state of the other. The flat list is everything that the parser holds, laid out from the
outermost level in; the alternatives that are finished are enclosed, and the current one is
still open at its end. The indices are read off the lengths: a body begins behind all that
encloses it, and the last element begins behind what stands in front of the last block.

`accept_emitter` is what one token does. An operation that is put into the list moves those
behind it, so an index stays right only because nothing that it belongs to is behind it: a
quantifier goes in front of the last block, where no body begins, and a branch in front of
the first alternative of the innermost level, whose body begins there. Nothing is asked of
a token. Of the parser it is asked that no run of literals is empty, since a
quantifier would take a byte off it.

By induction along the tokens, the list that is emitted for a pattern is the layout of its
tree. What is known of the layout of a tree is then known of the list, and it is all that
the linker asks for.

## Main definitions

* `Operation.bare`: An operation without its border table.
* `Level.operations`: The layout of a level to which more may be added.
* `front`, `contexts`: The layout of what encloses a level, and the contexts it is in.
* `Parser.emitter`: The state in place that belongs to a state of the parser.

## Theorems

* `emitter_push`: A block that is added is laid out behind the others.
* `emitter_quantify`, `emitter_closeGroup`, `emitter_alternative`: What the tokens do that
  reach back into the list.
* `accept_emitter`: The effect of one token.
* `run_emitter`: The effect of all the tokens of a byte sequence.
* `emit_eq`: The operations that are emitted are those of the tree.
* `compile_inPlace`: Compiling in place comes to the same program.
* `compile_blockStructured`: The operations of a compiled pattern are structured.
-/

namespace ByteRegex

/-- An operation without its border table, as it is while the list grows. -/
def Operation.bare : Operation → Operation
  | .literal word _ => .literal word none
  | op => op

/-- What a quantifier behind a block would repeat, if the block begins at `index`. -/
def Block.last (index : Nat) : Block → InPlace.Last
  | .literal _ => .element index
  | .set _ => .element index
  | .anyChar => .element index
  | .group _ _ => .element index
  | .anyString => .quantified
  | .quantified _ _ => .quantified
  | .anchor _ => .anchor
  | .cursor => .anchor

/-- More bytes can be added to a block. -/
def Block.runOpen : Block → Bool
  | .literal _ => true
  | _ => false

theorem insertIdx_append {α : Type} (a b : List α) (x : α) :
    (a ++ b).insertIdx a.length x = a ++ x :: b := by
  induction a with
  | nil => rfl
  | cons y a ih =>
      rw [List.cons_append, List.length_cons, List.insertIdx_succ_cons, ih, List.cons_append]

/-- A run of literals that is open stands at the end of the list. -/
theorem InPlace.Emitter.addLiteral_open (e : InPlace.Emitter) (c : UInt8) (a : List Operation)
    (w : Bytes) (table : Option (Array UInt16)) (hopen : e.runOpen = true)
    (h : e.operations = a ++ [.literal w table]) :
    e.addLiteral c = { e with operations := a ++ [.literal (w.push c) table] } := by
  rw [addLiteral, hopen, h, List.getLast?_concat, List.dropLast_concat]

theorem InPlace.Emitter.addLiteral_closed (e : InPlace.Emitter) (c : UInt8)
    (hclosed : e.runOpen = false) :
    e.addLiteral c = { e.addElement (.literal #[c] none) with runOpen := true } := by
  rw [addLiteral, hclosed]

/-- An operation is put in between two parts of the list. -/
theorem InPlace.Emitter.insert?_append (e : InPlace.Emitter) (a b : List Operation)
    (op : Operation) (h : e.operations = a ++ b) :
    e.insert? a.length op = some { e with operations := a ++ op :: b } := by
  have hle : a.length ≤ e.operations.length := by
    rw [h, List.length_append]
    exact Nat.le_add_right _ _
  rw [insert?, if_pos hle, h, insertIdx_append]

/-- A quantifier repeats what it finds to be repeated. -/
theorem InPlace.Emitter.quantify_eq (e e' e'' : InPlace.Emitter) (q : Quantifier)
    (offset index start : Nat) (hlast : e.last = .element index)
    (hrepeated : e.repeated? index = some (e', start))
    (hinsert : e'.insert? start (.quantifier q) = some e'') :
    e.quantify q offset = some (.ok { e''.add .loop with last := .quantified }) := by
  rw [quantify, hlast]
  simp only [hrepeated, hinsert, Option.bind_eq_bind, Option.bind_some]
  rfl

/-- The group that is closed is what its context says. -/
theorem InPlace.Emitter.closeGroup_eq (e : InPlace.Emitter) (offset : Nat)
    (d : Pattern.Delimiter) (c outer : InPlace.Context) (more : List InPlace.Context) (index : Nat)
    (hcontexts : e.contexts = c :: outer :: more) (hd : c.delimiter = some d)
    (hstart : c.start = index + 1) :
    e.closeGroup offset d = some (.ok {
      (if c.enclosed then e.add .branchEnd else e).add (.closeGroup c.number) with
      contexts := outer :: more
      last := .element index }) := by
  rw [closeGroup, hcontexts]
  simp only [if_pos hd, hstart, if_pos (Nat.succ_pos index), Nat.add_sub_cancel]

/-- Where only the pattern itself is left open, the list is ended. -/
theorem InPlace.Emitter.finish_eq (e : InPlace.Emitter) (c : InPlace.Context)
    (h : e.contexts = [c]) : e.finish =
      .ok (((if c.enclosed then e.add .branchEnd else e).operations ++ [Operation.finish]).map
        InPlace.withTable) := by
  rw [finish, h]
  simp only [List.any_cons, List.any_nil, Bool.or_false]
  rfl

namespace Pattern

namespace Level

/-- The alternatives of a level are enclosed, because there are several. -/
def enclosed (l : Level) : Bool := !l.finished.isEmpty

/-- What stands in front of the current sequence: the alternatives that are finished, and the
    branch of the current one. -/
def opening (l : Level) : List Operation :=
  if l.enclosed then Alternatives.branches l.finished.reverse ++ [.branch] else []

/-- The layout of a level to which more may be added. -/
def operations (l : Level) : List Operation := l.opening ++ Sequence.operations l.current.reverse

/-- What a quantifier would repeat, if the level begins at `start`. -/
def last (l : Level) (start : Nat) : InPlace.Last :=
  match l.current with
  | [] => .nothing
  | b :: before => b.last (start + ({ l with current := before } : Level).operations.length)

/-- More bytes can be added to the last block. -/
def runOpen (l : Level) : Bool := l.current.head?.any Block.runOpen

-- A block that can be repeated is taken whole.
theorem quantify?_push (l : Level) (q : Quantifier) (b : Block) (hb : b.Repeatable) :
    (l.push b).quantify? q = some (l.push (.quantified q b)) := by
  cases b with
  | literal w =>
      rcases Array.size_eq_one_iff.1 hb with ⟨c, rfl⟩
      rfl
  | set s => rfl
  | anyChar => rfl
  | group n alts => rfl
  | _ => exact hb.elim

-- Of a run of literals the last byte is taken.
theorem quantify?_push_run (l : Level) (q : Quantifier) (w : Bytes) (c : UInt8) (hw : 1 < w.size)
    (hc : w.back? = some c) : (l.push (.literal w)).quantify? q =
      some ((l.push (.literal w.pop)).push (.quantified q (.literal #[c]))) := by
  simp only [quantify?, push, hc, if_neg (Nat.ne_of_gt hw)]

theorem operations_push (l : Level) (b : Block) :
    (l.push b).operations = l.operations ++ b.operations := by
  rw [operations, operations, push, List.reverse_cons, Sequence.operations_append,
    Sequence.operations, Sequence.operations, List.append_nil, List.append_assoc]
  rfl

/-- With the end of its last alternative a level is laid out as a whole. -/
theorem operations_ended (l : Level) :
    l.operations ++ (if l.enclosed then [.branchEnd] else []) =
      Alternatives.operations l.alternatives := by
  rw [operations, opening, enclosed, alternatives, List.reverse_cons, ← List.isEmpty_reverse]
  cases l.finished.reverse with
  | nil => exact List.append_nil _
  | cons s rest =>
      -- There are at least two alternatives, so each of them is enclosed.
      have hbranches (t : List Block) : Alternatives.operations (s :: rest ++ [t]) =
          Alternatives.branches (s :: rest ++ [t]) := by cases rest <;> rfl
      rw [hbranches, Alternatives.branches_append, Alternatives.branches, Alternatives.branches]
      simp only [List.isEmpty_cons, Bool.not_false, if_true, List.append_assoc,
        List.cons_append, List.nil_append, Alternatives.branches]

/-- A level that is split has one more alternative that is finished. -/
theorem operations_split (l : Level) :
    l.split.operations = Alternatives.branches l.finished.reverse ++
      .branch :: (Sequence.operations l.current.reverse ++ [.branchEnd, .branch]) := by
  rw [operations, opening, enclosed, split, List.reverse_cons, Alternatives.branches_append,
    Alternatives.branches, Alternatives.branches]
  simp only [List.isEmpty_cons, Bool.not_false, if_true, List.reverse_nil, Sequence.operations,
    List.append_assoc, List.cons_append, List.nil_append, List.append_nil]

end Level

/-- The layout of the levels that are interrupted, each followed by the opening of the group
    that interrupts it. -/
def front : List OpenGroup → List Operation
  | [] => []
  | g :: outer => front outer ++ (g.outer.operations ++ [.openGroup g.number])

/-- The context of a level that is enclosed by groups. -/
def context (enclosed : Bool) (enclosing : List OpenGroup) : InPlace.Context where
  start := (front enclosing).length
  enclosed := enclosed
  number := (enclosing.head?.map (·.number)).getD ⟨0, slots_pos⟩
  delimiter := enclosing.head?.map (·.delimiter)
  offset := (enclosing.head?.map (·.offset)).getD 0

/-- The contexts of the levels that the groups interrupt. -/
def outerContexts : List OpenGroup → List InPlace.Context
  | [] => []
  | g :: outer => context g.outer.enclosed outer :: outerContexts outer

theorem length_outerContexts (enclosing : List OpenGroup) :
    (outerContexts enclosing).length = enclosing.length := by
  induction enclosing with
  | nil => rfl
  | cons g outer ih => rw [outerContexts, List.length_cons, ih, List.length_cons]

namespace Parser

/-- The state in place that belongs to a state of the parser. -/
def emitter (p : Parser) : InPlace.Emitter where
  operations := (front p.enclosing ++ p.level.operations).map Operation.bare
  contexts := context p.level.enclosed p.enclosing :: outerContexts p.enclosing
  groups := p.groups
  last := p.level.last (front p.enclosing).length
  runOpen := p.level.runOpen

/-- Adds a block to the current sequence. -/
def push (p : Parser) (b : Block) : Parser := { p with level := p.level.push b }

/-- A block that is added is laid out behind everything else. -/
theorem emitter_push (p : Parser) (b : Block) :
    (p.push b).emitter = {
      operations := p.emitter.operations ++ b.operations.map Operation.bare
      contexts := p.emitter.contexts
      groups := p.emitter.groups
      last := b.last p.emitter.operations.length
      runOpen := b.runOpen } := by
  have hops : (p.push b).emitter.operations =
      p.emitter.operations ++ b.operations.map Operation.bare := by
    rw [emitter, emitter, push, Level.operations_push, ← List.append_assoc, List.map_append]
  have hlast : (p.push b).emitter.last = b.last p.emitter.operations.length := by
    rw [emitter, emitter, List.length_map, List.length_append]
    rfl
  rw [← hops, ← hlast]
  rfl

theorem operations_push (p : Parser) (b : Block) : (p.push b).emitter.operations =
    p.emitter.operations ++ b.operations.map Operation.bare := by
  rw [emitter_push]

-- The first operation of the last block.
theorem getElem?_push (p : Parser) (b : Block) :
    (p.push b).emitter.operations[p.emitter.operations.length]? =
      b.operations.head?.map Operation.bare := by
  rw [operations_push, List.getElem?_append_right (Nat.le_refl _), Nat.sub_self,
    ← List.head?_eq_getElem?, List.head?_map]

/-- A block that can be repeated is repeated as a whole. -/
theorem emitter_quantify_whole (p : Parser) (q : Quantifier) (offset : Nat) (b : Block)
    (hb : b.Repeatable) :
    (p.push b).emitter.quantify q offset = some (.ok (p.push (.quantified q b)).emitter) := by
  have hlast : (p.push b).emitter.last = .element p.emitter.operations.length := by
    rw [emitter_push]
    cases b <;> first | rfl | exact hb.elim
  have hrepeated : (p.push b).emitter.repeated? p.emitter.operations.length =
      some ((p.push b).emitter, p.emitter.operations.length) := by
    rw [InPlace.Emitter.repeated?, getElem?_push]
    cases b with
    | literal w =>
        -- There is one byte, so none has to be taken off.
        have hsize : ¬1 < w.size := Nat.not_lt.2 (Nat.le_of_eq hb)
        simp only [Block.operations, Operation.ofLiteral, List.head?_cons, Option.map_some,
          Operation.bare, if_neg hsize]
        cases w.back? <;> rfl
    | set s => rfl
    | anyChar => rfl
    | group n alts => rfl
    | _ => exact hb.elim
  rw [InPlace.Emitter.quantify_eq _ _ _ q offset _ _ hlast hrepeated
    (InPlace.Emitter.insert?_append _ _ _ _ (operations_push p b)), emitter_push, emitter_push,
    InPlace.Emitter.add, List.append_assoc, Block.operations, List.map_cons, List.map_append]
  rfl

/-- Of a run of literals the last byte is repeated, and the others are left. -/
theorem emitter_quantify_run (p : Parser) (q : Quantifier) (offset : Nat) (w : Bytes) (c : UInt8)
    (hw : 1 < w.size) (hc : w.back? = some c) :
    (p.push (.literal w)).emitter.quantify q offset =
      some (.ok ((p.push (.literal w.pop)).push (.quantified q (.literal #[c]))).emitter) := by
  have hlast : (p.push (.literal w)).emitter.last = .element p.emitter.operations.length := by
    rw [emitter_push]
    rfl
  -- The run is shortened where it stands.
  have hset : (p.push (.literal w)).emitter.operations.set p.emitter.operations.length
      (.literal w.pop none) = (p.push (.literal w.pop)).emitter.operations := by
    rw [operations_push, operations_push, List.set_append_right _ _ (Nat.le_refl _), Nat.sub_self]
    rfl
  have hlength : (p.push (.literal w)).emitter.operations.length =
      (p.push (.literal w.pop)).emitter.operations.length := by
    rw [← hset, List.length_set]
  -- The byte that is taken off is an operation behind it.
  have hrepeated : (p.push (.literal w)).emitter.repeated? p.emitter.operations.length =
      some (({ (p.push (.literal w)).emitter with
          operations := (p.push (.literal w.pop)).emitter.operations }).add (.literal #[c] none),
        (p.push (.literal w.pop)).emitter.operations.length) := by
    rw [InPlace.Emitter.repeated?, getElem?_push]
    simp only [Block.operations, Operation.ofLiteral, List.head?_cons, Option.map_some,
      Operation.bare, hc, if_pos hw, hset, hlength]
  rw [InPlace.Emitter.quantify_eq _ _ _ q offset _ _ hlast hrepeated
    (InPlace.Emitter.insert?_append _ _ _ _ rfl), emitter_push (p.push (.literal w.pop)),
    InPlace.Emitter.add, List.append_assoc, emitter_push p (.literal w),
    emitter_push p (.literal w.pop)]
  rfl

/-- The end of a level is the end of its last alternative. -/
theorem emitter_ended (p : Parser) :
    (if p.level.enclosed then p.emitter.add .branchEnd else p.emitter).operations =
      (front p.enclosing ++ Alternatives.operations p.level.alternatives).map Operation.bare := by
  rw [← Level.operations_ended, ← List.append_assoc, List.map_append]
  cases p.level.enclosed with
  | true => rfl
  | false => exact (List.append_nil _).symm

theorem map_front (p : Parser) (g : OpenGroup) :
    (front (g :: p.enclosing)).map Operation.bare =
      ({ p with level := g.outer } : Parser).emitter.operations ++ [.openGroup g.number] := by
  rw [front, ← List.append_assoc, List.map_append]
  rfl

theorem emitter_openGroup (p : Parser) (offset : Nat) (d : Delimiter) :
    p.emitter.openGroup offset d = (p.openGroup offset d).map emitter := by
  have hdepth : p.emitter.contexts.length = p.enclosing.length + 1 := by
    rw [emitter, List.length_cons, length_outerContexts]
  rw [InPlace.Emitter.openGroup, Parser.openGroup, hdepth]
  by_cases hgroups : p.groups + 1 < slots
  · rw [dif_pos hgroups, dif_pos (show p.emitter.groups + 1 < slots from hgroups)]
    by_cases hroom : p.enclosing.length + 1 < maxDepth
    · rw [if_neg (Nat.not_le.2 hroom), if_pos hroom, Except.map]
      -- The body begins behind everything else and the opening of the group.
      have hfront := map_front p ⟨d, offset, ⟨p.groups + 1, hgroups⟩, p.level⟩
      have hstart := congrArg List.length hfront
      rw [List.length_map, List.length_append, List.length_singleton] at hstart
      simp only [emitter, Except.ok.injEq, InPlace.Emitter.mk.injEq, outerContexts, context, hstart]
      refine ⟨?_, rfl, trivial, rfl, rfl⟩
      exact hfront.symm.trans (congrArg (List.map Operation.bare) (List.append_nil _).symm)
    · rw [if_pos (Nat.not_lt.1 hroom), if_neg hroom]
      rfl
  · rw [dif_neg hgroups, dif_neg (show ¬p.emitter.groups + 1 < slots from hgroups), ite_self]
    rfl

theorem emitter_closeGroup (p : Parser) (offset : Nat) (d : Delimiter) :
    p.emitter.closeGroup offset d = some ((p.closeGroup offset d).map emitter) := by
  rcases p with ⟨groups, enclosing, level⟩
  cases enclosing with
  | nil => rfl
  | cons g outer =>
      simp only [Parser.closeGroup]
      by_cases hd : g.delimiter = d
      · -- The group is the last element of the level that it interrupted.
        have hfront := map_front ⟨groups, outer, level⟩ g
        have hstart := congrArg List.length hfront
        rw [List.length_map, List.length_append, List.length_singleton] at hstart
        have hended := emitter_ended ⟨groups, g :: outer, level⟩
        rw [List.map_append, hfront, List.append_assoc] at hended
        have hpush := emitter_push ⟨groups, outer, g.outer⟩ (.group g.number level.alternatives)
        rw [InPlace.Emitter.closeGroup_eq _ _ _ (context level.enclosed (g :: outer))
          (context g.outer.enclosed outer) (outerContexts outer) _ rfl (congrArg some hd) hstart,
          if_pos hd, Except.map]
        refine congrArg (fun e => some (Except.ok e)) (Eq.trans ?_ hpush.symm)
        simp only [InPlace.Emitter.add, InPlace.Emitter.mk.injEq]
        refine ⟨?_, rfl, ?_, rfl, rfl⟩
        · rw [Block.operations, List.map_cons, List.map_append]
          exact (congrArg (· ++ [Operation.closeGroup g.number]) hended).trans
            (List.append_assoc _ _ _)
        · cases level.enclosed <;> rfl
      · rw [if_neg hd]
        exact if_neg fun h => hd (Option.some.inj h)

-- The first branch goes in front of the alternative that has been read, where the body of
-- the level begins.
theorem emitter_enclose (p : Parser) :
    p.emitter.enclose? = some { p.emitter with
      operations := (front p.enclosing ++ (Alternatives.branches p.level.finished.reverse ++
        .branch :: Sequence.operations p.level.current.reverse)).map Operation.bare
      contexts := context true p.enclosing :: outerContexts p.enclosing } := by
  have hlevel : p.level.operations =
      p.level.opening ++ Sequence.operations p.level.current.reverse := rfl
  rw [Level.opening] at hlevel
  change (if p.level.enclosed then some p.emitter else
    (p.emitter.insert? (front p.enclosing).length .branch).map _) = _
  cases henclosed : p.level.enclosed with
  | true =>
      rw [henclosed, if_pos rfl, List.append_assoc, List.singleton_append] at hlevel
      rw [if_pos rfl, ← hlevel, ← henclosed]
      rfl
  | false =>
      rw [henclosed, if_neg Bool.false_ne_true, List.nil_append] at hlevel
      have hnone : p.level.finished = [] := by
        rwa [Level.enclosed, Bool.not_eq_false', List.isEmpty_iff] at henclosed
      have hops : p.emitter.operations = (front p.enclosing).map Operation.bare ++
          p.level.operations.map Operation.bare := List.map_append
      have hinsert := InPlace.Emitter.insert?_append _ _ _ .branch hops
      rw [List.length_map] at hinsert
      rw [if_neg Bool.false_ne_true, hinsert, hnone, Option.map_some, hlevel, List.map_append]
      rfl

/-- An alternative ends, and the next one begins. -/
theorem emitter_alternative (p : Parser) :
    p.emitter.alternative? = some ({ p with level := p.level.split } : Parser).emitter := by
  have hsplit : (front p.enclosing ++ (Alternatives.branches p.level.finished.reverse ++
        .branch :: Sequence.operations p.level.current.reverse)).map Operation.bare ++
          [.branchEnd] ++ [.branch] =
      ({ p with level := p.level.split } : Parser).emitter.operations := by
    rw [emitter, Level.operations_split]
    simp only [List.map_append, List.map_cons, List.map_nil, List.append_assoc, List.cons_append,
      List.nil_append, Operation.bare]
  rw [InPlace.Emitter.alternative?, emitter_enclose, Option.map_some, InPlace.Emitter.add,
    InPlace.Emitter.add, hsplit]
  rfl

-- A byte goes to the run of literals that is open, which the last operation is.
theorem emitter_literal_run (p : Parser) (w : Bytes) (c : UInt8) :
    (p.push (.literal w)).emitter.addLiteral c = (p.push (.literal (w.push c))).emitter := by
  rw [InPlace.Emitter.addLiteral_open _ c p.emitter.operations w none rfl (operations_push p _),
    emitter_push, emitter_push]
  rfl

/-- A byte extends the run of literals at the end of the level, or starts a new one. -/
theorem emitter_literal (p : Parser) (c : UInt8) :
    p.emitter.addLiteral c = ({ p with level := p.level.pushLiteral c } : Parser).emitter := by
  have hnew (hclosed : p.level.runOpen = false) :
      p.emitter.addLiteral c = (p.push (.literal #[c])).emitter := by
    rw [InPlace.Emitter.addLiteral_closed p.emitter c hclosed, emitter_push]
    rfl
  rcases p with ⟨groups, enclosing, ⟨finished, current⟩⟩
  cases current with
  | nil => exact hnew rfl
  | cons b before =>
      cases b with
      | literal w => exact emitter_literal_run ⟨groups, enclosing, ⟨finished, before⟩⟩ w c
      | _ => exact hnew rfl

/-- A quantifier that comes next does in place what it does to the tree. -/
theorem emitter_quantify (p : Parser) (q : Quantifier) (offset : Nat)
    (hp : p.level.Each Block.Proper) :
    p.emitter.quantify q offset = some ((p.level.quantify? q).elim
      (.error ⟨.emptyExpression, offset⟩)
      fun l => .ok ({ p with level := l } : Parser).emitter) := by
  rcases p with ⟨groups, enclosing, ⟨finished, current⟩⟩
  cases current with
  | nil => rfl
  | cons b before =>
      by_cases hb : b.Repeatable
      · have hwhole := Level.quantify?_push ⟨finished, before⟩ q b hb
        rw [Level.push] at hwhole
        rw [hwhole]
        exact emitter_quantify_whole ⟨groups, enclosing, ⟨finished, before⟩⟩ q offset b hb
      · cases b with
        | literal w =>
            have hpos : 0 < w.size := hp.1 _ List.mem_cons_self
            have hw : 1 < w.size := Nat.lt_of_le_of_ne hpos (Ne.symm hb)
            have hlast : w.size - 1 < w.size := by omega
            have hback : w.back? = some w[w.size - 1] := by
              rw [Array.back?, Array.getElem?_eq_getElem hlast]
            have hrest := Level.quantify?_push_run ⟨finished, before⟩ q w _ hw hback
            rw [Level.push] at hrest
            rw [hrest]
            exact emitter_quantify_run ⟨groups, enclosing, ⟨finished, before⟩⟩ q offset w _ hw hback
        | set s => exact absurd trivial hb
        | anyChar => exact absurd trivial hb
        | group n alts => exact absurd trivial hb
        | _ => rfl

/-- The effect of one token. The runs of literals that the parser holds must not be empty. -/
theorem accept_emitter (flags : CompileFlags) (p : Parser) (offset : Nat) (t : Token)
    (hp : p.level.Each Block.Proper) :
    p.emitter.accept flags offset t = some ((p.accept flags offset t).map emitter) := by
  cases t with
  | literal c => exact congrArg (fun e => some (Except.ok e)) (emitter_literal p _)
  | set s => exact congrArg (fun e => some (Except.ok e)) (emitter_push p (.set s)).symm
  | anyChar => exact congrArg (fun e => some (Except.ok e)) (emitter_push p .anyChar).symm
  | anyString => exact congrArg (fun e => some (Except.ok e)) (emitter_push p .anyString).symm
  | anchor a => exact congrArg (fun e => some (Except.ok e)) (emitter_push p (.anchor a)).symm
  | cursor => exact congrArg (fun e => some (Except.ok e)) (emitter_push p .cursor).symm
  | quantifier kind min max isLazy =>
      rw [InPlace.Emitter.accept, emitter_quantify p _ offset hp, Parser.accept]
      cases p.level.quantify? ⟨kind, min, max, !flags.minimal && !isLazy⟩ <;> rfl
  | openGroup d => exact congrArg some (emitter_openGroup p offset d)
  | closeGroup d => exact emitter_closeGroup p offset d
  | alternative => exact congrArg (Option.map Except.ok) (emitter_alternative p)

/-- The effect of all the tokens of a byte sequence, by induction along the tokens. -/
theorem run_emitter (options : CompileOptions) (p : Parser) (offset : Nat) (input : List UInt8)
    (hp : p.Keeps Block.Proper) : p.emitter.run options offset input =
      some ((Parser.run options p offset input).map emitter) := by
  fun_induction Parser.run options p offset input with
  | case1 p offset => rw [InPlace.Emitter.run, Except.map]
  | case2 p offset c rest used e hread =>
      rw [InPlace.Emitter.run, hread, Except.map]
  | case3 p offset c rest used t hread e haccept =>
      rw [InPlace.Emitter.run, hread]
      simp only [accept_emitter options.flags p offset t hp.level, haccept, Except.map]
  | case4 p offset c rest used t hread next haccept ih =>
      have ht : t.Sound fun _ => True :=
        starting_sound options.dialect options.flags.ignoreCase (setsHave_true _ _) c offset
          (offset + 1) rest t (by rw [hread])
      have hnext : next.Keeps Block.Proper :=
        accept_keeps (proper_inherited _) options.flags p next offset t hp ht haccept
      rw [InPlace.Emitter.run, hread]
      simp only [accept_emitter options.flags p offset t hp.level, haccept, Except.map]
      exact ih hnext

end Parser

end Pattern

/-- The border tables that are put in at the end are those that the tree is laid out with. -/
theorem map_withTable (alts : List (List Block)) :
    ((Alternatives.operations alts).map Operation.bare).map InPlace.withTable =
      Alternatives.operations alts := by
  refine (operations_induction_alternatives
    (P := fun ops => (ops.map Operation.bare).map InPlace.withTable = ops) rfl ?_ ?_ ?_ alts).2
  · intro a b ha hb
    rw [List.map_append, List.map_append, ha, hb]
  · intro op hop
    cases op with
    | literal w table =>
        rw [show table = Literal.borders? w from hop]
        exact congrArg (fun t => [Operation.literal w t]) Option.or_none
    | _ => rfl
  · intro n ops hops
    rw [List.map_cons, List.map_cons, List.map_append, List.map_append, hops]
    rfl

/-- The list is ended like the tree. -/
theorem Pattern.Parser.emitter_finish (p : Pattern.Parser) :
    p.emitter.finish = p.finish.map Pattern.operations := by
  rcases p with ⟨groups, enclosing, level⟩
  cases enclosing with
  | cons g outer => rfl
  | nil =>
      have hended := Parser.emitter_ended ⟨groups, [], level⟩
      rw [InPlace.Emitter.finish_eq _ (context level.enclosed []) rfl]
      refine congrArg Except.ok ?_
      rw [show (context level.enclosed []).enclosed = level.enclosed from rfl, hended, front,
        List.nil_append, List.map_append, map_withTable]
      rfl

/-- The operations that are emitted are those of the tree, and no index is ever out of
    range. -/
theorem emit_eq (options : CompileOptions) (pattern : Bytes) :
    InPlace.emit options pattern =
      some ((Pattern.parse options pattern).map fun t => (t.operations, t.groups)) := by
  have hrun := Pattern.Parser.run_emitter options {} 0 pattern.toList Pattern.Parser.initial_keeps
  rw [InPlace.emit, show ({} : InPlace.Emitter) = ({} : Pattern.Parser).emitter from rfl, hrun,
    Pattern.parse]
  cases Pattern.Parser.run options {} 0 pattern.toList with
  | error e => rfl
  | ok p =>
      have hfinish := p.emitter_finish
      simp only [Except.map, Option.map_some, bind, Except.bind, hfinish]
      rw [Pattern.Parser.finish]
      cases p.enclosing <;> rfl

/-- Compiling in place comes to the same program or the same error. No index is out of
    range on the way, and no assertion fails. -/
theorem compile_inPlace (options : CompileOptions) (pattern : Bytes) :
    InPlace.compile options pattern = some (compile options pattern) := by
  rw [InPlace.compile, emit_eq, compile]
  cases Pattern.parse options pattern with
  | error e => rfl
  | ok t =>
      have hlink := InPlace.link_inPlace t.operations (operations_balancedProgram t)
      simp only [Except.map, Option.bind_eq_bind, Option.bind_some, hlink]
      rfl

/-- Whatever pattern is given, compiling in place comes to a program or an error. The
    operations that are emitted for a program are structured by the grammar, its groups open
    in the order of their numbers, of which there are at most nine, and the linker asserts
    nothing of them that does not hold. -/
theorem compile_blockStructured (options : CompileOptions) (pattern : Bytes) :
    InPlace.compile options pattern = some (compile options pattern) ∧
      ∀ program, InPlace.compile options pattern = some (.ok program) →
        ∃ ops, InPlace.emit options pattern = some (.ok (ops, program.groups)) ∧
          InPlace.link ops = some program.operations ∧ IsProgram ops ∧
          ops.filterMap Operation.opening? = List.range' 1 program.groups ∧
          program.groups ≤ 9 := by
  have hin := compile_inPlace options pattern
  refine ⟨hin, fun program h => ?_⟩
  rw [hin] at h
  rcases compile_parse options pattern program (Option.some.inj h) with ⟨t, ht, rfl⟩
  have hproper := Pattern.parse_proper options pattern t ht
  rcases operations_isProgram t hproper with ⟨hprogram, hopenings⟩
  refine ⟨t.operations, ?_, ?_, hprogram, hopenings, Nat.le_of_lt_succ hproper.groups_lt⟩
  · rw [emit_eq, ht]
    rfl
  · exact InPlace.link_inPlace _ (balanced_of_isProgram _ hprogram)

-- The pattern `(a|)*b{2,}?` has a choice in a group in a loop, and an interval
-- with a lazy suffix.
theorem compile_blockStructured_nested :
    ∃ program, InPlace.compile { dialect := .perl }
        #[0x28, 0x61, 0x7C, 0x29, 0x2A, 0x62, 0x7B, 0x32, 0x2C, 0x7D, 0x3F] =
          some (.ok program) ∧
      ∃ ops, InPlace.emit { dialect := .perl }
          #[0x28, 0x61, 0x7C, 0x29, 0x2A, 0x62, 0x7B, 0x32, 0x2C, 0x7D, 0x3F] =
            some (.ok (ops, program.groups)) ∧
        InPlace.link ops = some program.operations ∧ IsProgram ops ∧
        ops.filterMap Operation.opening? = List.range' 1 program.groups ∧
        program.groups ≤ 9 := by
  rcases exists_ok_of_isOk (compile { dialect := .perl }
    #[0x28, 0x61, 0x7C, 0x29, 0x2A, 0x62, 0x7B, 0x32, 0x2C, 0x7D, 0x3F]) (by decide +kernel)
    with ⟨program, h⟩
  have hin := compile_inPlace { dialect := .perl }
    #[0x28, 0x61, 0x7C, 0x29, 0x2A, 0x62, 0x7B, 0x32, 0x2C, 0x7D, 0x3F]
  rw [h] at hin
  exact ⟨program, hin, (compile_blockStructured _ _).2 program hin⟩

end ByteRegex
