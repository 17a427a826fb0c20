import ByteRegex.Program.Basic

/-!
# Compiling in Place

The parser builds a tree, which is laid out when it is whole. The compiler that works in
place has no tree. It appends operations to a flat list while the tokens come in, and what
a later token has to say about earlier ones it writes into the list: a quantifier goes in
front of the operations that it repeats, and a branch in front of an alternative that turns
out not to be the only one. So it keeps indices, of the last element and of the body of each
group that is open, and it trusts them: an operation that is put in moves all that stand
behind it, and no index is corrected for that.

The linker works in place too. It goes over the list three times, and a link that is not
known yet is missing. Loops find their quantifiers on a stack. The branches of a choice are
linked from the first one that is found without a link; the ends of its alternatives are
collected on the way, and are linked when the end of the choice is known.

Nothing keeps an index in range, and the linker asserts what it needs. An index that is out
of range, or an assertion that fails, leaves compiling and linking without a result.

## Main definitions

* `Last`: What a quantifier that comes next would repeat.
* `Context`: A group that is open, or the pattern itself.
* `Emitter`: The state between two tokens.
* `Emitter.insert?`: Puts an operation in.
* `Emitter.accept`: The effect of one token.
* `Emitter.finish`: Ends the list.
* `Slot`: An operation while it is linked.
* `pairLoops`: Links quantifiers and loops.
* `linkChoice`, `linkChoices`: Links the branches and ends of one choice, and of all.
* `emit`, `link`, `compile`: The operations of a pattern, linked operations, a program.
-/

namespace ByteRegex

namespace InPlace

/-- What a quantifier that comes next would repeat. -/
inductive Last where
  | nothing
  /-- The operations from an index on. -/
  | element (index : Nat)
  /-- Operations that are repeated already. -/
  | quantified
  | anchor
  deriving DecidableEq, Repr

/-- A group that is open, or the pattern itself. -/
structure Context where
  /-- The index of the first operation of the body. -/
  start : Nat
  /-- The alternatives are enclosed, because there are several. -/
  enclosed : Bool
  number : GroupNumber
  /-- The kind of delimiter that closes the group. The pattern itself has none. -/
  delimiter : Option Pattern.Delimiter
  /-- Where the opening delimiter stands. -/
  offset : Nat
  deriving DecidableEq, Repr

/-- What is wrong when the context is not closed. -/
def Context.unmatched (c : Context) : PatternError.Cause :=
  c.delimiter.elim .unmatchedParen Pattern.Delimiter.unmatched

/-- The state between two tokens. -/
structure Emitter where
  operations : List Operation := []
  /-- The contexts that are open, the innermost first. -/
  contexts : List Context := [⟨0, false, ⟨0, slots_pos⟩, none, 0⟩]
  /-- How many groups have been opened so far. -/
  groups : Nat := 0
  last : Last := .nothing
  /-- The last operation is a run of literals that can be extended. -/
  runOpen : Bool := false
  deriving DecidableEq, Repr

namespace Emitter

/-- Appends an operation. -/
def add (e : Emitter) (op : Operation) : Emitter :=
  { e with operations := e.operations ++ [op], runOpen := false }

/-- Appends an operation that can be repeated. -/
def addElement (e : Emitter) (op : Operation) : Emitter :=
  { e.add op with last := .element e.operations.length }

/-- Appends an operation that matches the empty text. -/
def addAnchor (e : Emitter) (op : Operation) : Emitter := { e.add op with last := .anchor }

/-- Extends the run of literals that is open, or starts a new one. -/
def addLiteral (e : Emitter) (c : UInt8) : Emitter :=
  match e.runOpen, e.operations.getLast? with
  | true, some (.literal word table) =>
    { e with operations := e.operations.dropLast ++ [.literal (word.push c) table] }
  | _, _ => { e.addElement (.literal #[c] none) with runOpen := true }

/-- Puts an operation in at an index. -/
def insert? (e : Emitter) (index : Nat) (op : Operation) : Option Emitter :=
  if index ≤ e.operations.length then
    some { e with operations := e.operations.insertIdx index op }
  else none

/-- Where the operations to repeat begin, if the last element begins at `start`. The last
    byte of a run of literals is made an operation of its own. -/
def repeated? (e : Emitter) (start : Nat) : Option (Emitter × Nat) :=
  match e.operations[start]? with
  | none => none
  | some (.literal word table) =>
    match word.back? with
    | some c =>
      if 1 < word.size then
        let shortened := { e with operations := e.operations.set start (.literal word.pop table) }
        some (shortened.add (.literal #[c] none), e.operations.length)
      else some (e, start)
    | none => some (e, start)
  | some _ => some (e, start)

/-- Repeats the last element, if there is one. -/
def quantify (e : Emitter) (q : Quantifier) (offset : Nat) :
    Option (Except PatternError Emitter) :=
  match e.last with
  | .element index => do
    let (e, start) ← e.repeated? index
    let e ← e.insert? start (.quantifier q)
    return .ok { e.add .loop with last := .quantified }
  | _ => some (.error ⟨.emptyExpression, offset⟩)

/-- Opens a group with the next number, unless the numbers are used up or the limit on
    nesting is reached. -/
def openGroup (e : Emitter) (offset : Nat) (d : Pattern.Delimiter) : Except PatternError Emitter :=
  if Pattern.maxDepth ≤ e.contexts.length then .error ⟨.levelOverflow, offset⟩
  else if h : e.groups + 1 < slots then
    let number : GroupNumber := ⟨e.groups + 1, h⟩
    .ok {
      e.add (.openGroup number) with
      contexts := ⟨e.operations.length + 1, false, number, some d, offset⟩ :: e.contexts
      groups := e.groups + 1
      last := .nothing }
  else .error ⟨.levelOverflow, offset⟩

/-- Closes the innermost group, which the same kind of delimiter must have opened. The
    operations of the group are the last element from then on. -/
def closeGroup (e : Emitter) (offset : Nat) (d : Pattern.Delimiter) :
    Option (Except PatternError Emitter) :=
  match e.contexts with
  | c :: outer :: more =>
    if c.delimiter = some d then
      let ended := if c.enclosed then e.add .branchEnd else e
      if 0 < c.start then
        some (.ok {
          ended.add (.closeGroup c.number) with
          contexts := outer :: more
          last := .element (c.start - 1) })
      else none
    else some (.error ⟨d.unmatched, offset⟩)
  | _ => some (.error ⟨d.unmatched, offset⟩)

/-- Puts in the branch of the first alternative, unless it is there. -/
def enclose? (e : Emitter) : Option Emitter :=
  match e.contexts with
  | [] => some e
  | c :: outer =>
    if c.enclosed then some e
    else
      (e.insert? c.start .branch).map fun e =>
        { e with contexts := { c with enclosed := true } :: outer }

/-- Ends an alternative and begins the next one. -/
def alternative? (e : Emitter) : Option Emitter :=
  e.enclose?.map fun e => { (e.add .branchEnd).add .branch with last := .nothing }

/-- The effect of one token that starts at `offset`. -/
def accept (flags : CompileFlags) (e : Emitter) (offset : Nat) :
    Pattern.Token → Option (Except PatternError Emitter)
  | .literal c => some (.ok (e.addLiteral (if flags.ignoreCase then Byte.fold c else c)))
  | .set s => some (.ok (e.addElement (.set s)))
  | .anyChar => some (.ok (e.addElement .anyChar))
  | .anyString => some (.ok { e.add .anyString with last := .quantified })
  | .anchor a => some (.ok (e.addAnchor (.anchor a)))
  | .cursor => some (.ok (e.addAnchor .cursor))
  | .quantifier kind min max isLazy =>
    e.quantify ⟨kind, min, max, !flags.minimal && !isLazy⟩ offset
  | .openGroup d => some (e.openGroup offset d)
  | .closeGroup d => e.closeGroup offset d
  | .alternative => e.alternative?.map .ok

/-- The effect of all tokens of the bytes that start at `offset`. -/
def run (options : CompileOptions) (e : Emitter) (offset : Nat) :
    List UInt8 → Option (Except PatternError Emitter)
  | [] => some (.ok e)
  | c :: rest =>
    match Pattern.Token.starting options.dialect options.flags.ignoreCase c offset (offset + 1)
      rest with
    | ⟨_, .error error⟩ => some (.error error)
    | ⟨used, .ok t⟩ =>
      match e.accept options.flags offset t with
      | none => none
      | some (.error error) => some (.error error)
      | some (.ok e') => run options e' (offset + 1 + used) (rest.drop used)
  termination_by input => input.length
  decreasing_by simp only [List.length_drop, List.length_cons]; omega

end Emitter

/-- Gives a run of literals the border table that its length calls for. -/
def withTable : Operation → Operation
  | .literal word table => .literal word ((Literal.borders? word).or table)
  | op => op

/-- The whole list, once every group is closed. -/
def Emitter.finish (e : Emitter) : Except PatternError (List Operation) :=
  match e.contexts with
  | c :: _ :: _ => .error ⟨c.unmatched, c.offset⟩
  | contexts =>
    let ended := if contexts.any (·.enclosed) then e.add .branchEnd else e
    .ok ((ended.add .finish).operations.map withTable)

/-- The operations of a pattern, with the count of its groups. -/
def emit (options : CompileOptions) (pattern : Bytes) :
    Option (Except PatternError (List Operation × Nat)) :=
  (Emitter.run options {} 0 pattern.toList).map fun result => do
    let e ← result
    return (← e.finish, e.groups)

/-- An operation while it is linked. A link that is not known yet is missing. -/
structure Slot where
  operation : Operation
  /-- The index of the operation that comes next. -/
  next : Option Nat
  /-- The index of a quantifier's loop, or of a loop's quantifier. -/
  partner : Option Nat
  deriving DecidableEq, Repr

/-- The operation at an index with the links that do not depend on others. -/
def Slot.ofOperation (i : Nat) (op : Operation) : Slot :=
  match op with
  | .branch => ⟨op, none, none⟩
  | .branchEnd => ⟨op, none, none⟩
  | .finish => ⟨op, some i, none⟩
  | _ => ⟨op, some (i + 1), none⟩

/-- The operation with its links, which have to be known. -/
def Slot.linked? (s : Slot) : Option LinkedOperation :=
  s.next.map fun next => ⟨s.operation, next, s.partner⟩

/-- Writes where the program goes on behind an index. -/
def setNext? (slots : List Slot) (i next : Nat) : Option (List Slot) :=
  if i < slots.length then some (slots.modify i fun s => { s with next := some next }) else none

/-- Writes the partner of the operation at an index. -/
def setPartner? (slots : List Slot) (i partner : Nat) : Option (List Slot) :=
  if i < slots.length then
    some (slots.modify i fun s => { s with partner := some partner })
  else none

/-- Pairs the operation at an index, if it is a loop, with the innermost of the quantifiers
    that await theirs. There has to be one. -/
def pairAt (state : List Slot × List Nat) (i : Nat) : Option (List Slot × List Nat) :=
  match state.1[i]?.map Slot.operation with
  | none => none
  | some (.quantifier _) => some (state.1, i :: state.2)
  | some .loop =>
    match state.2 with
    | [] => none
    | q :: opened => do
      let slots ← setPartner? state.1 q i
      let slots ← setPartner? slots i q
      return (slots, opened)
  | some _ => some state

/-- Pairs quantifiers and loops. No quantifier may be left over. -/
def pairLoops (slots : List Slot) : Option (List Slot) := do
  let (slots, opened) ← (List.range slots.length).foldlM pairAt (slots, [])
  if opened.isEmpty then return slots else none

/-- How many operations stand before the end of an alternative, when `depth` groups are open.
    No group may close that did not open on the way, and the end has to be there. -/
def branchEnd? (depth : Nat) : List Operation → Option Nat
  | [] => none
  | op :: rest =>
    match op with
    | .openGroup _ => (branchEnd? (depth + 1) rest).map (· + 1)
    | .closeGroup _ => if depth = 0 then none else (branchEnd? (depth - 1) rest).map (· + 1)
    | .branchEnd => if depth = 0 then some 0 else (branchEnd? depth rest).map (· + 1)
    | .finish => none
    | _ => (branchEnd? depth rest).map (· + 1)

/-- Links the branches of a choice from the one at `branch` on, each to what stands behind its
    alternative, and adds the ends of the alternatives to `ends`, the latest in front. -/
def linkBranches (slots : List Slot) (branch : Nat) (ends : List Nat) :
    Option (List Slot × List Nat) :=
  match branchEnd? 0 ((slots.drop (branch + 1)).map Slot.operation) with
  | none => none
  | some n =>
    let branchEnd := branch + 1 + n
    if branch < slots.length then
      let slots' := slots.modify branch fun s => { s with next := some (branchEnd + 1) }
      match slots'[branchEnd + 1]?.map Slot.operation with
      | some .branch => linkBranches slots' (branchEnd + 1) (branchEnd :: ends)
      | _ => some (slots', branchEnd :: ends)
    else none
  termination_by slots.length - branch
  decreasing_by rw [List.length_modify]; omega

/-- Links a choice from the branch at `first` on. All alternatives meet behind the last. -/
def linkChoice (slots : List Slot) (first : Nat) : Option (List Slot) := do
  let (slots, ends) ← linkBranches slots first []
  let behind := match ends with
    | last :: _ => last + 1
    | [] => slots.length - 1
  ends.reverse.foldlM (fun slots i => setNext? slots i behind) slots

/-- Links the choice that begins at an index, if there is a branch without a link. -/
def linkChoiceAt (slots : List Slot) (i : Nat) : Option (List Slot) :=
  match slots[i]? with
  | none => none
  | some ⟨.branch, none, _⟩ => linkChoice slots i
  | some _ => some slots

def linkChoices (slots : List Slot) : Option (List Slot) :=
  (List.range slots.length).foldlM linkChoiceAt slots

/-- Links operations. The last has to be `finish`, and in the end every link has to be
    known. -/
def link (ops : List Operation) : Option (Array LinkedOperation) :=
  if ops.getLast? = some .finish then do
    let slots ← pairLoops (ops.mapIdx Slot.ofOperation)
    let slots ← linkChoices slots
    let linked ← slots.mapM Slot.linked?
    return linked.toArray
  else none

/-- The program of a pattern, or the first thing that is wrong with it. -/
def compile (options : CompileOptions) (pattern : Bytes) :
    Option (Except PatternError Program) := do
  match ← emit options pattern with
  | .error error => return .error error
  | .ok (ops, groups) =>
    return .ok ⟨← link ops, options, groups, Strategy.ofOperations 0 ops⟩

end InPlace

end ByteRegex
