import ByteRegex.Pattern.Parser

/-!
# Well-Formed Trees

What every tree has that was read from a pattern. The type of blocks allows more
than the parser builds: an empty run of literals, a group without alternatives,
a quantifier around an anchor, bounds in the wrong order. `Block.Proper` rules
these out, and it is the only thing that the later theorems ask of a tree.

The numbers of the groups need a word of their own. A number is given out when
the group opens, and the block is built when it closes, so the blocks of a
finished tree were not made in the order of their numbers. Written from left to
right the numbers are in order all the same. The parser keeps that as an
invariant over everything it holds: the levels that are interrupted, from the
outermost in, each followed by the number of the group that interrupts it.

The bounds of a quantifier come out of the scanner, where `Ensures` carries what
is known of the value of a scan from its parts to the whole.

To be well formed is not the only thing that the blocks of a tree have from their
making. `Block.Inherited` says what a property has to do for that: it holds of the
blocks that are made of a token, and passes on to those that are made of blocks. What
is inherited in this way, the parser keeps in all that it holds, and `parse_each` finds
it in every block of the tree.

## Main definitions

* `Quantifier.Bounded`: The bounds are in order and not too large.
* `Block.Repeatable`: The block can be the body of a quantifier.
* `Block.Proper`: The block and everything inside it is well formed.
* `Block.numbers`: The numbers of the groups, from left to right.
* `Pattern.Proper`: A well-formed tree with its groups numbered in order.
* `Block.Inherited`: A property that a block has from its making.
* `Scan.Ensures`: What is known of the value of a scan.
* `Token.Sound`: What is known of a token.
* `Token.IntroducedBy`: The bytes with which a token can start.
* `Parser.Keeps`: What the parser keeps from token to token.

## Theorems

* `ensures_bind`: What is known of two scans is known of their sequence.
* `starting_cases`: The first byte of a token decides how it is read.
* `starting_sound`: A token that is read has its bounds in order.
* `accept_keeps`: A token leaves the parser with what it keeps.
* `run_keeps`: So do all the tokens of a byte sequence.
* `parse_each`: Every block of a tree has what is inherited.
* `parse_proper`: The tree of a pattern is well formed.
-/

namespace ByteRegex

/-- The bounds of a quantifier are in order, and each can be stated. -/
def Quantifier.Bounded (q : Quantifier) : Prop :=
  q.min ≤ Pattern.maxRepeat ∧ ∀ m, q.max = some m → q.min ≤ m ∧ m ≤ Pattern.maxRepeat

/-- A block that a quantifier can repeat: one byte of literal text, a byte of a
    set, any byte, or a group. -/
def Block.Repeatable : Block → Prop
  | .literal w => w.size = 1
  | .set _ => True
  | .anyChar => True
  | .group _ _ => True
  | .anyString => False
  | .anchor _ => False
  | .cursor => False
  | .quantified _ _ => False

mutual

/-- A block as the parser builds it. -/
def Block.Proper : Block → Prop
  | .literal w => 0 < w.size
  | .set _ => True
  | .anyChar => True
  | .anyString => True
  | .anchor _ => True
  | .cursor => True
  | .group _ alternatives => alternatives ≠ [] ∧ Alternatives.Proper alternatives
  | .quantified q element => q.Bounded ∧ element.Repeatable ∧ element.Proper

/-- Blocks in a row, each as the parser builds it. -/
def Sequence.Proper : List Block → Prop
  | [] => True
  | b :: rest => b.Proper ∧ Sequence.Proper rest

/-- Sequences to choose from, each as the parser builds it. -/
def Alternatives.Proper : List (List Block) → Prop
  | [] => True
  | s :: rest => Sequence.Proper s ∧ Alternatives.Proper rest

end

mutual

/-- The numbers of the groups of a block, from left to right. -/
def Block.numbers : Block → List Nat
  | .literal _ => []
  | .set _ => []
  | .anyChar => []
  | .anyString => []
  | .anchor _ => []
  | .cursor => []
  | .group n alternatives => n.val :: Alternatives.numbers alternatives
  | .quantified _ element => element.numbers

/-- The numbers of the groups of blocks in a row. -/
def Sequence.numbers : List Block → List Nat
  | [] => []
  | b :: rest => b.numbers ++ Sequence.numbers rest

/-- The numbers of the groups of sequences to choose from. -/
def Alternatives.numbers : List (List Block) → List Nat
  | [] => []
  | s :: rest => Sequence.numbers s ++ Alternatives.numbers rest

end

theorem Sequence.proper_iff (s : List Block) :
    Sequence.Proper s ↔ ∀ b ∈ s, b.Proper := by
  induction s with
  | nil => simp [Sequence.Proper]
  | cons b rest ih => simp [Sequence.Proper, ih]

theorem Alternatives.proper_iff (alts : List (List Block)) :
    Alternatives.Proper alts ↔ ∀ s ∈ alts, Sequence.Proper s := by
  induction alts with
  | nil => simp [Alternatives.Proper]
  | cons s rest ih => simp [Alternatives.Proper, ih]

theorem Sequence.numbers_append (s t : List Block) :
    Sequence.numbers (s ++ t) = Sequence.numbers s ++ Sequence.numbers t := by
  induction s with
  | nil => rfl
  | cons b rest ih =>
      rw [List.cons_append, Sequence.numbers, Sequence.numbers, ih, List.append_assoc]

theorem Alternatives.numbers_append (a b : List (List Block)) :
    Alternatives.numbers (a ++ b) = Alternatives.numbers a ++ Alternatives.numbers b := by
  induction a with
  | nil => rfl
  | cons s rest ih =>
      rw [List.cons_append, Alternatives.numbers, Alternatives.numbers, ih, List.append_assoc]

/-- A well-formed tree: there is something to choose from, every part is well
    formed, and the groups are numbered from one in the order in which they
    open. -/
structure Pattern.Proper (p : Pattern) : Prop where
  nonempty : p.alternatives ≠ []
  parts : Alternatives.Proper p.alternatives
  numbers : Alternatives.numbers p.alternatives = List.range' 1 p.groups
  groups_lt : p.groups < slots

/-- A property that blocks have from their making, if the sets that tokens hold have
    one of their own. -/
structure Block.Inherited (S : ByteSet → Prop) (B : Block → Prop) : Prop where
  literal : ∀ w : Bytes, 0 < w.size → B (.literal w)
  set : ∀ s, S s → B (.set s)
  anyChar : B .anyChar
  anyString : B .anyString
  anchor : ∀ a, B (.anchor a)
  cursor : B .cursor
  group : ∀ n alts, alts ≠ [] → (∀ s ∈ alts, ∀ b ∈ s, B b) → B (.group n alts)
  quantified : ∀ q b, q.Bounded → b.Repeatable → B b → B (.quantified q b)

-- To be well formed is inherited, whatever the sets.
theorem proper_inherited (S : ByteSet → Prop) : Block.Inherited S Block.Proper where
  literal := fun _ h => h
  set := fun _ _ => trivial
  anyChar := trivial
  anyString := trivial
  anchor := fun _ => trivial
  cursor := trivial
  group := fun _ alts hne h =>
    ⟨hne, (Alternatives.proper_iff alts).2 fun s hs => (Sequence.proper_iff s).2 (h s hs)⟩
  quantified := fun _ _ hq hrepeatable hb => ⟨hq, hrepeatable, hb⟩

namespace Pattern

/-- Whatever a scanner reads, its value has a property. -/
def Scan.Ensures {α : Type} (P : α → Prop) (x : Scan α) : Prop :=
  ∀ offset input a, (x offset input).value = .ok a → P a

theorem ensures_pure {α : Type} {P : α → Prop} {a : α} (h : P a) :
    Scan.Ensures P (Scan.pure a) := by
  intro offset input b hb
  rw [Scan.pure, Except.ok.injEq] at hb
  rwa [← hb]

theorem ensures_fail {α : Type} {P : α → Prop} (cause : PatternError.Cause) (offset : Nat) :
    Scan.Ensures P (Scan.fail cause offset) := by
  intro _ _ _ h
  rw [Scan.fail] at h
  exact absurd h (by simp only [reduceCtorEq, not_false_eq_true])

theorem ensures_bind {α β : Type} {Q : α → Prop} {P : β → Prop} {x : Scan α} {f : α → Scan β}
    (hx : Scan.Ensures Q x) (hf : ∀ a, Q a → Scan.Ensures P (f a)) :
    Scan.Ensures P (x >>= f) := by
  intro offset input b hb
  change (Scan.bind x f offset input).value = .ok b at hb
  unfold Scan.bind at hb
  split at hb
  · exact absurd hb (by simp only [reduceCtorEq, not_false_eq_true])
  · rename_i used a ha
    exact hf a (hx offset input a (by rw [ha])) _ _ b hb

-- Any scanner ensures nothing at all, which is what a part contributes whose
-- value does not matter.
theorem ensures_true {α : Type} (x : Scan α) : Scan.Ensures (fun _ => True) x :=
  fun _ _ _ _ => trivial

-- An interval that is accepted has its bounds in order, whatever else the
-- quantifier is going to be.
theorem interval_bounded (kind : Quantifier.Kind) :
    Scan.Ensures (fun b => ∀ greedy, (⟨kind, b.1, b.2, greedy⟩ : Quantifier).Bounded) interval := by
  unfold interval
  refine ensures_bind (ensures_true _) (fun here _ => ?_)
  refine ensures_bind (ensures_true _) (fun bounds _ => ?_)
  refine ensures_bind (ensures_true _) (fun closing _ => ?_)
  cases closing with
  | none => exact ensures_fail _ _
  | some c =>
      simp only
      split
      · exact ensures_fail _ _
      · split
        · exact ensures_fail _ _
        · rename_i hbounds
          rw [Bool.or_eq_true, decide_eq_true_eq, not_or] at hbounds
          refine ensures_pure (fun greedy => ⟨Nat.le_of_not_lt hbounds.1, fun m hm => ?_⟩)
          have hm' : bounds.2 = some m := hm
          have hhigh := hbounds.2
          rw [hm', Option.any_some, Bool.or_eq_true, decide_eq_true_eq, decide_eq_true_eq,
            not_or] at hhigh
          exact ⟨Nat.le_of_not_lt hhigh.2, Nat.le_of_not_lt hhigh.1⟩

/-- The sets among the tokens have a property, and the quantifiers have their bounds in
    order. -/
def Token.Sound (S : ByteSet → Prop) : Token → Prop
  | .set s => S s
  | .quantifier kind min max _ => ∀ greedy, (⟨kind, min, max, greedy⟩ : Quantifier).Bounded
  | _ => True

/-- All sets that tokens can hold have a property. -/
structure Token.SetsHave (d : Dialect) (ignoreCase : Bool) (S : ByteSet → Prop) : Prop where
  shorthand : ∀ letter s, classShorthand? letter = some s → S s
  bracket : Scan.Ensures S (bracketSet d ignoreCase)

theorem setsHave_true (d : Dialect) (ignoreCase : Bool) :
    Token.SetsHave d ignoreCase fun _ => True :=
  ⟨fun _ _ _ => trivial, ensures_true _⟩

/-- A token that holds nothing from behind its first byte: no set and no bounds. -/
def Token.Bare : Token → Prop
  | .set _ => False
  | .quantifier _ _ _ _ => False
  | _ => True

/-- The byte `c` is one that introduces the token. Of a token that is never refused it does
    not matter which byte that is. -/
def Token.IntroducedBy (c : UInt8) : Token → Prop
  | .quantifier _ _ _ _ => Byte.char c ∈ ['*', '+', '?', '@', '\x7B']
  | .openGroup .brace => Byte.char c = '\x7B'
  | .openGroup .escapedParen => Byte.char c = '\\'
  | .openGroup .paren => Byte.char c = '('
  | .closeGroup .brace => Byte.char c = '\x7D'
  | .closeGroup .escapedParen => Byte.char c = '\\'
  | .closeGroup .paren => Byte.char c = ')'
  | _ => True

section Tokens

variable {S : ByteSet → Prop} (d : Dialect) (ignoreCase : Bool)

/-- The first byte of a token decides how it is read: as an escape, a bracket expression, an
    interval or another quantifier, whose bounds are fixed, or it is all there is to
    read. -/
theorem starting_cases (P : Scan Token → Prop) (c : UInt8) (start : Nat)
    (hescaped : Byte.char c = '\\' → P (Token.escaped d start))
    (hset : Byte.char c = '[' → P (bracketSet d ignoreCase >>= fun s => Scan.pure (.set s)))
    (hinterval : Byte.char c = '\x7B' →
      P (interval >>= fun b => Token.quantifierToken d .interval b.1 b.2))
    (hquantifier : Byte.char c ∈ ['*', '+', '?', '@'] → ∀ kind min max,
      (∀ greedy, (⟨kind, min, max, greedy⟩ : Quantifier).Bounded) →
        P (Token.quantifierToken d kind min max))
    (hbare : ∀ t : Token, t.Bare → t.IntroducedBy c → P (Scan.pure t)) :
    P (Token.starting d ignoreCase c start) := by
  -- The bounds that have a sign of their own.
  have hstar (kind : Quantifier.Kind) (greedy : Bool) :
      Quantifier.Bounded ⟨kind, 0, none, greedy⟩ :=
    ⟨Nat.zero_le _, fun m hm => absurd hm (by simp only [reduceCtorEq, not_false_eq_true])⟩
  have hplus (greedy : Bool) : Quantifier.Bounded ⟨.oneOrMore, 1, none, greedy⟩ :=
    ⟨(by decide : 1 ≤ maxRepeat),
      fun m hm => absurd hm (by simp only [reduceCtorEq, not_false_eq_true])⟩
  have hoptional (greedy : Bool) : Quantifier.Bounded ⟨.zeroOrOne, 0, some 1, greedy⟩ := by
    refine ⟨Nat.zero_le _, fun m hm => ?_⟩
    rw [← Option.some.inj hm]
    exact ⟨Nat.zero_le _, (by decide : 1 ≤ maxRepeat)⟩
  -- A byte that is not special is a literal.
  have hplain (enabled : Bool) (t : Token) (ht : t.Bare) (hc : t.IntroducedBy c) :
      P (Scan.pure (if enabled = true then t else .literal c)) := by
    split
    · exact hbare t ht hc
    · exact hbare (.literal c) trivial trivial
  -- One case for each byte that can be special.
  unfold Token.starting
  split
  · rename_i h
    exact hescaped h
  · rename_i h
    exact hset h
  · exact hplain _ _ trivial trivial
  · rename_i h
    split
    · exact hbare _ trivial trivial
    split
    · exact hquantifier (by rw [h]; decide) _ _ _ hoptional
    · exact hbare _ trivial trivial
  · exact hplain _ _ trivial trivial
  · rename_i h
    split
    · exact hbare _ trivial trivial
    split
    · exact hquantifier (by rw [h]; decide) _ _ _ (hstar _)
    · exact hbare _ trivial trivial
  · rename_i h
    split
    · exact hquantifier (by rw [h]; decide) _ _ _ (hstar _)
    · exact hbare _ trivial trivial
  · rename_i h
    split
    · exact hquantifier (by rw [h]; decide) _ _ _ hplus
    · exact hbare _ trivial trivial
  · rename_i h
    split
    · exact hinterval h
    · exact hplain _ _ trivial h
  -- The other delimiters, and the anchors.
  iterate 3
    rename_i h
    exact hplain _ _ trivial h
  iterate 5
    exact hplain _ _ trivial trivial
  exact hbare _ trivial trivial

theorem quantifierToken_sound (kind : Quantifier.Kind) (min : Nat) (max : Option Nat)
    (h : ∀ greedy, (⟨kind, min, max, greedy⟩ : Quantifier).Bounded) :
    Scan.Ensures (Token.Sound S) (Token.quantifierToken d kind min max) :=
  ensures_bind (ensures_true _) (fun _ _ => ensures_pure h)

variable (hsets : Token.SetsHave d ignoreCase S)

include hsets

theorem escaped_sound (start : Nat) :
    Scan.Ensures (Token.Sound S) (Token.escaped d start) := by
  unfold Token.escaped
  refine ensures_bind (ensures_true _) (fun letter _ => ?_)
  cases letter with
  | none => exact ensures_fail _ _
  | some letter =>
      simp only
      split
      · exact ensures_pure trivial
      split
      · exact ensures_pure trivial
      split
      · exact ensures_pure trivial
      split
      · exact ensures_pure trivial
      split
      · exact ensures_pure trivial
      -- What is left is a class, where the dialect has them, or a byte.
      split
      · rename_i s hs
        split at hs
        · exact ensures_pure (hsets.shorthand letter s hs)
        · exact absurd hs (by simp only [reduceCtorEq, not_false_eq_true])
      · exact ensures_bind (ensures_true _) (fun _ _ => ensures_pure trivial)

/-- The bounds of a quantifier without braces are fixed, and the scanner checks
    those in braces. -/
theorem starting_sound (c : UInt8) (start : Nat) :
    Scan.Ensures (Token.Sound S) (Token.starting d ignoreCase c start) := by
  refine starting_cases d ignoreCase (Scan.Ensures (Token.Sound S)) c start
    (fun _ => escaped_sound d ignoreCase hsets start)
    (fun _ => ensures_bind hsets.bracket fun _ hs => ensures_pure hs)
    (fun _ => ensures_bind (interval_bounded .interval) fun b hb =>
      quantifierToken_sound d _ b.1 b.2 hb)
    (fun _ kind min max hb => quantifierToken_sound d kind min max hb)
    (fun t ht _ => ensures_pure ?_)
  cases t with
  | set s => exact ht.elim
  | quantifier kind min max isLazy => exact ht.elim
  | _ => trivial

end Tokens

namespace Level

/-- Every block on a level has a property. -/
def Each (B : Block → Prop) (l : Level) : Prop :=
  (∀ b ∈ l.current, B b) ∧ ∀ s ∈ l.finished, ∀ b ∈ s, B b

/-- The numbers of the groups on a level, from left to right. -/
def numbers (l : Level) : List Nat := Alternatives.numbers l.alternatives

theorem numbers_eq (l : Level) :
    l.numbers = Alternatives.numbers l.finished.reverse ++ Sequence.numbers l.current.reverse := by
  rw [numbers, alternatives, List.reverse_cons, Alternatives.numbers_append, Alternatives.numbers,
    Alternatives.numbers, List.append_nil]

theorem alternatives_ne_nil (l : Level) : l.alternatives ≠ [] := by
  rw [alternatives, List.reverse_cons]
  exact List.append_ne_nil_of_right_ne_nil _ (List.cons_ne_nil _ _)

section Each

variable {S : ByteSet → Prop} {B : Block → Prop}

theorem each_empty : Each B {} :=
  ⟨fun _ hb => absurd hb List.not_mem_nil, fun _ hs => absurd hs List.not_mem_nil⟩

theorem alternatives_each (l : Level) (h : l.Each B) : ∀ s ∈ l.alternatives, ∀ b ∈ s, B b := by
  intro s hs b hb
  rw [alternatives, List.mem_reverse, List.mem_cons] at hs
  rcases hs with rfl | hs
  · exact h.1 b (List.mem_reverse.1 hb)
  · exact h.2 s hs b hb

theorem push_each (l : Level) (b : Block) (h : l.Each B) (hb : B b) : (l.push b).Each B := by
  refine ⟨fun b' hb' => ?_, h.2⟩
  rcases List.mem_cons.1 hb' with rfl | hb'
  · exact hb
  · exact h.1 b' hb'

theorem split_each (l : Level) (h : l.Each B) : l.split.Each B :=
  ⟨fun _ hb => absurd hb List.not_mem_nil, fun s hs =>
    alternatives_each l h s (List.mem_reverse.2 hs)⟩

-- A level whose latest block is taken off.
theorem each_tail (l : Level) (b : Block) (before : List Block) (hl : l.current = b :: before)
    (h : l.Each B) : Each B { l with current := before } :=
  ⟨fun b' hb' => h.1 b' (hl ▸ List.mem_cons_of_mem _ hb'), h.2⟩

variable (hB : Block.Inherited S B)

include hB

theorem pushLiteral_each (l : Level) (c : UInt8) (h : l.Each B) : (l.pushLiteral c).Each B := by
  unfold pushLiteral
  split
  · rename_i bytes before hl
    refine push_each { l with current := before } _ (each_tail l _ _ hl h) (hB.literal _ ?_)
    rw [Array.size_push]
    exact Nat.succ_pos _
  · exact push_each l _ h (hB.literal _ (Nat.succ_pos 0))

end Each

theorem push_numbers (l : Level) (b : Block) : (l.push b).numbers = l.numbers ++ b.numbers := by
  rw [numbers_eq, numbers_eq, push, List.reverse_cons, Sequence.numbers_append, Sequence.numbers,
    Sequence.numbers, List.append_nil, List.append_assoc]

theorem pushLiteral_numbers (l : Level) (c : UInt8) : (l.pushLiteral c).numbers = l.numbers := by
  unfold pushLiteral
  split
  · rename_i bytes before hl
    rw [numbers_eq, numbers_eq, hl, List.reverse_cons, List.reverse_cons, Sequence.numbers_append,
      Sequence.numbers_append]
    rfl
  · rw [push_numbers, Block.numbers, List.append_nil]

theorem split_numbers (l : Level) : l.split.numbers = l.numbers := by
  rw [numbers_eq, numbers_eq, split, List.reverse_cons, Alternatives.numbers_append,
    Alternatives.numbers, Alternatives.numbers, List.append_nil, List.reverse_nil,
    Sequence.numbers, List.append_nil]

-- What a quantifier does to the last block: either it takes the block whole,
-- or it takes the last byte off a run of literals.
theorem quantify?_cases (l l' : Level) (q : Quantifier) (h : l.quantify? q = some l') :
    (∃ b before, l.current = b :: before ∧ b.Repeatable ∧
      l' = { l with current := .quantified q b :: before }) ∨
    (∃ bytes c before, l.current = .literal bytes :: before ∧ 1 < bytes.size ∧
      l' = { l with
        current := .quantified q (.literal #[c]) :: .literal bytes.pop :: before }) := by
  unfold quantify? at h
  split at h
  · rename_i bytes before hl
    split at h
    · exact absurd h (by simp only [reduceCtorEq, not_false_eq_true])
    · rename_i c hc
      have hpos : 0 < bytes.size := by
        rw [Array.back?, Array.getElem?_eq_some_iff] at hc
        rcases hc with ⟨hlt, _⟩
        omega
      simp only at h
      split at h
      · rename_i hsize
        refine Or.inl ⟨.literal bytes, before, hl, hsize, ?_⟩
        -- A run of one byte is the byte that is taken.
        have hbytes : bytes = #[c] := by
          rcases bytes with ⟨bs⟩
          rcases bs with _ | ⟨a, _ | ⟨a', rest⟩⟩
          · exact absurd hpos (by simp)
          · simp only [List.back?_toArray, List.getLast?_singleton, Option.some.injEq] at hc
            rw [hc]
          · exact absurd hsize (by simp)
        rw [← Option.some.inj h, hbytes]
      · rename_i hsize
        exact Or.inr ⟨bytes, c, before, hl, by omega, (Option.some.inj h).symm⟩
  · rename_i s before hl
    exact Or.inl ⟨.set s, before, hl, trivial, (Option.some.inj h).symm⟩
  · rename_i before hl
    exact Or.inl ⟨.anyChar, before, hl, trivial, (Option.some.inj h).symm⟩
  · rename_i n alts before hl
    exact Or.inl ⟨.group n alts, before, hl, trivial, (Option.some.inj h).symm⟩
  · exact absurd h (by simp only [reduceCtorEq, not_false_eq_true])

theorem quantify?_each {S : ByteSet → Prop} {B : Block → Prop} (hB : Block.Inherited S B)
    (l l' : Level) (q : Quantifier) (hq : q.Bounded) (hl : l.Each B)
    (h : l.quantify? q = some l') : l'.Each B := by
  rcases quantify?_cases l l' q h with
    ⟨b, before, hb, hrep, rfl⟩ | ⟨bytes, c, before, hb, hsize, rfl⟩
  · have hlast := hl.1 b (hb ▸ List.mem_cons_self)
    exact push_each { l with current := before } _ (each_tail l _ _ hb hl)
      (hB.quantified q b hq hrep hlast)
  · -- What is left of the run is not empty.
    have hpop : 0 < bytes.pop.size := by
      rw [Array.size_pop]
      omega
    exact push_each { l with current := .literal bytes.pop :: before } _
      (push_each { l with current := before } _ (each_tail l _ _ hb hl) (hB.literal _ hpop))
      (hB.quantified q _ hq rfl (hB.literal _ (Nat.succ_pos 0)))

theorem quantify?_numbers (l l' : Level) (q : Quantifier) (h : l.quantify? q = some l') :
    l'.numbers = l.numbers := by
  rcases quantify?_cases l l' q h with ⟨b, before, hb, _, rfl⟩ | ⟨bytes, c, before, hb, _, rfl⟩
  · rw [numbers_eq, numbers_eq, hb, List.reverse_cons, List.reverse_cons,
      Sequence.numbers_append, Sequence.numbers_append]
    rfl
  · rw [numbers_eq, numbers_eq, hb]
    simp only [List.reverse_cons, Sequence.numbers_append]
    simp only [Sequence.numbers, Block.numbers, List.append_nil]

end Level

/-- The numbers of the groups that were met before the current level: those of
    each interrupted level, followed by that of the group that interrupts it. -/
def numbersBefore : List OpenGroup → List Nat
  | [] => []
  | g :: outer => numbersBefore outer ++ g.outer.numbers ++ [g.number.val]

namespace Parser

/-- What the parser keeps: every block that it holds has a property, and the groups met
    so far are numbered from one in the order in which they opened. -/
structure Keeps (B : Block → Prop) (p : Parser) : Prop where
  level : p.level.Each B
  outer : ∀ g ∈ p.enclosing, g.outer.Each B
  numbers : numbersBefore p.enclosing ++ p.level.numbers = List.range' 1 p.groups
  groups_lt : p.groups < slots

section Keeps

variable {S : ByteSet → Prop} {B : Block → Prop}

theorem initial_keeps : ({} : Parser).Keeps B where
  level := Level.each_empty
  outer := fun g hg => absurd hg (List.not_mem_nil)
  numbers := rfl
  groups_lt := by decide

-- The current level may change, as long as its numbers stay.
theorem withLevel_keeps (p : Parser) (l : Level) (hp : p.Keeps B) (hl : l.Each B)
    (hnumbers : l.numbers = p.level.numbers) : ({ p with level := l } : Parser).Keeps B where
  level := hl
  outer := hp.outer
  numbers := by rw [hnumbers]; exact hp.numbers
  groups_lt := hp.groups_lt

theorem push_keeps (p : Parser) (b : Block) (hp : p.Keeps B) (hb : B b)
    (hnumbers : b.numbers = []) : ({ p with level := p.level.push b } : Parser).Keeps B := by
  refine withLevel_keeps p _ hp (Level.push_each _ _ hp.level hb) ?_
  rw [Level.push_numbers, hnumbers, List.append_nil]

theorem openGroup_keeps (p p' : Parser) (start : Nat) (d : Delimiter) (hp : p.Keeps B)
    (h : p.openGroup start d = .ok p') : p'.Keeps B := by
  unfold openGroup at h
  split at h
  · rename_i hlt
    split at h
    · rw [← Except.ok.inj h]
      refine ⟨Level.each_empty, ?_, ?_, hlt⟩
      · intro g hg
        rcases List.mem_cons.1 hg with rfl | hg
        · exact hp.level
        · exact hp.outer g hg
      · -- The new number follows all that were given out.
        have hnone : Level.numbers {} = [] := rfl
        rw [hnone, List.append_nil, numbersBefore, hp.numbers, List.range'_concat, Nat.one_mul,
          Nat.add_comm 1 p.groups]
    · exact absurd h (by simp only [reduceCtorEq, not_false_eq_true])
  · exact absurd h (by simp only [reduceCtorEq, not_false_eq_true])

variable (hB : Block.Inherited S B)

include hB

theorem closeGroup_keeps (p p' : Parser) (start : Nat) (d : Delimiter) (hp : p.Keeps B)
    (h : p.closeGroup start d = .ok p') : p'.Keeps B := by
  unfold closeGroup at h
  split at h
  · exact absurd h (by simp only [reduceCtorEq, not_false_eq_true])
  · rename_i g outer henc
    split at h
    · rw [← Except.ok.inj h]
      have hmem : g ∈ p.enclosing := by rw [henc]; exact List.mem_cons_self
      refine ⟨Level.push_each _ _ (hp.outer g hmem) ?_, ?_, ?_, hp.groups_lt⟩
      · exact hB.group _ _ (Level.alternatives_ne_nil _) (Level.alternatives_each _ hp.level)
      · intro g' hg'
        exact hp.outer g' (by rw [henc]; exact List.mem_cons_of_mem _ hg')
      · -- The number of the group moves from the stack to the block.
        have hnumbers := hp.numbers
        rw [henc, numbersBefore] at hnumbers
        simp only
        rw [Level.push_numbers, Block.numbers, ← hnumbers, ← Level.numbers]
        simp only [List.append_assoc, List.singleton_append]
    · exact absurd h (by simp only [reduceCtorEq, not_false_eq_true])

/-- A token leaves the parser with what it keeps. -/
theorem accept_keeps (flags : CompileFlags) (p p' : Parser) (start : Nat) (t : Token)
    (hp : p.Keeps B) (ht : t.Sound S) (h : p.accept flags start t = .ok p') : p'.Keeps B := by
  cases t with
  | literal c =>
      rw [← Except.ok.inj h]
      exact withLevel_keeps p _ hp (Level.pushLiteral_each hB _ _ hp.level)
        (Level.pushLiteral_numbers _ _)
  | set s => exact Except.ok.inj h ▸ push_keeps p _ hp (hB.set s ht) rfl
  | anyChar => exact Except.ok.inj h ▸ push_keeps p _ hp hB.anyChar rfl
  | anyString => exact Except.ok.inj h ▸ push_keeps p _ hp hB.anyString rfl
  | anchor a => exact Except.ok.inj h ▸ push_keeps p _ hp (hB.anchor a) rfl
  | cursor => exact Except.ok.inj h ▸ push_keeps p _ hp hB.cursor rfl
  | quantifier kind min max isLazy =>
      -- The bounds are those of the token, which were checked when it was read.
      simp only [accept] at h
      split at h
      · rename_i l hl
        rw [← Except.ok.inj h]
        exact withLevel_keeps p l hp (Level.quantify?_each hB _ _ _ (ht _) hp.level hl)
          (Level.quantify?_numbers _ _ _ hl)
      · exact absurd h (by simp only [reduceCtorEq, not_false_eq_true])
  | openGroup d => exact openGroup_keeps p p' start d hp h
  | closeGroup d => exact closeGroup_keeps hB p p' start d hp h
  | alternative =>
      rw [← Except.ok.inj h]
      exact withLevel_keeps p _ hp (Level.split_each _ hp.level) (Level.split_numbers _)

/-- All the tokens of a byte sequence leave the parser with what it keeps, by induction
    along the tokens. -/
theorem run_keeps (options : CompileOptions)
    (hsets : Token.SetsHave options.dialect options.flags.ignoreCase S) (p p' : Parser)
    (offset : Nat) (input : List UInt8) (hp : p.Keeps B)
    (h : run options p offset input = .ok p') : p'.Keeps B := by
  fun_induction run options p offset input with
  | case1 p offset => exact Except.ok.inj h ▸ hp
  | case2 p offset c rest used e hread =>
      exact absurd h (by simp only [reduceCtorEq, not_false_eq_true])
  | case3 p offset c rest used t hread e haccept =>
      exact absurd h (by simp only [reduceCtorEq, not_false_eq_true])
  | case4 p offset c rest used t hread next haccept ih =>
      have ht : t.Sound S :=
        starting_sound options.dialect options.flags.ignoreCase hsets c offset (offset + 1) rest t
          (by rw [hread])
      exact ih (accept_keeps hB options.flags p next offset t hp ht haccept) h

end Keeps

end Parser

/-- Every block of the tree of a pattern has what is inherited, and the groups of the
    tree are numbered in order. -/
theorem parse_each {S : ByteSet → Prop} {B : Block → Prop} (hB : Block.Inherited S B)
    (options : CompileOptions)
    (hsets : Token.SetsHave options.dialect options.flags.ignoreCase S) (pattern : Bytes)
    (t : Pattern) (h : parse options pattern = .ok t) :
    t.alternatives ≠ [] ∧ (∀ s ∈ t.alternatives, ∀ b ∈ s, B b) ∧
      Alternatives.numbers t.alternatives = List.range' 1 t.groups ∧ t.groups < slots := by
  rw [parse] at h
  cases hrun : Parser.run options {} 0 pattern.toList with
  | error e =>
      rw [hrun] at h
      exact absurd h (by simp only [bind, Except.bind, reduceCtorEq, not_false_eq_true])
  | ok p =>
      rw [hrun] at h
      have hp := Parser.run_keeps hB options hsets {} p 0 _ Parser.initial_keeps hrun
      change p.finish = .ok t at h
      unfold Parser.finish at h
      split at h
      · -- No group is open, so all numbers are those of the finished level.
        rename_i henc
        have hnumbers := hp.numbers
        rw [henc, numbersBefore, List.nil_append] at hnumbers
        rw [← Except.ok.inj h]
        exact ⟨Level.alternatives_ne_nil _, Level.alternatives_each _ hp.level, hnumbers,
          hp.groups_lt⟩
      · exact absurd h (by simp only [reduceCtorEq, not_false_eq_true])

/-- The tree of a pattern is well formed. -/
theorem parse_proper (options : CompileOptions) (pattern : Bytes) (t : Pattern)
    (h : parse options pattern = .ok t) : t.Proper := by
  rcases parse_each (proper_inherited _) options (setsHave_true _ _) pattern t h with
    ⟨hne, hblocks, hnumbers, hgroups⟩
  refine ⟨hne, ?_, hnumbers, hgroups⟩
  rw [Alternatives.proper_iff]
  exact fun s hs => (Sequence.proper_iff s).2 (hblocks s hs)

end Pattern

end ByteRegex
