import ByteRegex.Template.Basic
import Mathlib.Algebra.GroupWithZero.Nat
import Mathlib.Data.List.Chain

/-!
# What Reading a Template Keeps

A template is read one byte or one reference at a time, and every step changes
the pieces and their summary together. `Exact` says that the summary is what the
pieces make it. It holds of the template without pieces and every item keeps it,
so it holds of whatever has been read, and whoever knows the pieces of a template
knows its summary.

`Normal` is the form in which the pieces come out: no literal is empty and no two
stand side by side. It is kept in the same way, and so is that no reference is to
a group zero, since what refers to group zero refers to the whole match.

Reading goes through the template by a place that moves behind each item. `turn`
is one such move. An item takes none of the bytes that are not there, so the
place comes to the end of the template and stops, after as many turns as there
are bytes or fewer.

## Main definitions

* `Template.Exact`: The summary of a template describes its pieces.
* `Template.Normal`: Pieces in normal form.
* `Template.turn`: One item of a template that is being read.
* `Template.turns`: The given number of turns.

## Theorems

* `addItem_exact`, `addItem_normal`: What an item keeps.
* `readFrom_keeps`: What every item keeps is kept to the end.
* `read_exact`: The summary of a template that is read describes its pieces.
* `readItem_used_le`: An item takes no more bytes than there are.
* `turns_readFrom`: The turns come to the end of the template.
* `read_described`: Every template is read to its end, its pieces are in normal
  form, and its summary says what they are.
-/

namespace ByteRegex

/-- How many literal bytes a piece stands for. -/
def Piece.literalSize : Piece → Nat
  | literal bytes => bytes.size
  | reference _ => 0

/-- Whether a piece is a reference with the property. -/
def Piece.refers (test : Reference → Bool) : Piece → Bool
  | literal _ => false
  | reference r => test r

namespace Template

/-- The summary of a template describes its pieces. -/
structure Exact (t : Template) : Prop where
  literalLength : t.literalLength = (t.pieces.map Piece.literalSize).sum
  hasGroup : t.hasGroup = t.pieces.any (Piece.refers Reference.needsGroups)
  hasContext : t.hasContext = t.pieces.any (Piece.refers Reference.needsContext)
  hasMatch : t.hasMatch = t.pieces.any (Piece.refers (· == .wholeMatch))

/-- Pieces in normal form: no literal is empty, and no two stand side by side. -/
structure Normal (pieces : List Piece) : Prop where
  nonempty : .literal #[] ∉ pieces
  apart : pieces.IsChain fun p q => ¬ (p.isLiteral = true ∧ q.isLiteral = true)

/-- An item changes the pieces and their summary alike. -/
theorem addItem_exact (t : Template) (item : Item) (h : t.Exact) : (t.addItem item).Exact := by
  rcases t with ⟨pieces, length, group, context, whole⟩
  rcases h with ⟨hlength, hgroup, hcontext, hmatch⟩
  simp only at hlength hgroup hcontext hmatch
  subst hlength hgroup hcontext hmatch
  cases item with
  | reference r =>
      refine ⟨?_, Bool.or_comm _ _, Bool.or_comm _ _, Bool.or_comm _ _⟩
      simp only [addItem, List.map_cons, List.sum_cons, Piece.literalSize, Nat.zero_add]
  | byte c =>
      -- The byte goes to the literal in front or makes one of its own.
      cases pieces with
      | nil => exact ⟨rfl, rfl, rfl, rfl⟩
      | cons p others =>
          cases p with
          | reference r => exact ⟨Nat.add_comm _ 1, rfl, rfl, rfl⟩
          | literal bytes =>
              refine ⟨?_, rfl, rfl, rfl⟩
              simp only [addItem, List.map_cons, List.sum_cons, Piece.literalSize, Array.size_push]
              omega

/-- What every item keeps is kept to the end. -/
theorem readFrom_keeps (d : Dialect) (P : Template → Prop)
    (step : ∀ t c rest, P t → P (t.addItem (readItem d c rest).1)) (t : Template)
    (input : List UInt8) (h : P t) : P (readFrom d t input) := by
  fun_induction readFrom d t input with
  | case1 t => exact h
  | case2 t c rest item used hitem ih =>
      refine ih ?_
      have hkept := step t c rest h
      rwa [hitem] at hkept

theorem readFrom_exact (d : Dialect) (t : Template) (input : List UInt8) (h : t.Exact) :
    (readFrom d t input).Exact :=
  readFrom_keeps d Exact (fun t _ _ => addItem_exact t _) t input h

/-- The summary of a template that is read describes its pieces. The pieces are listed
    backwards while they are read, and the summary does not depend on their order. -/
theorem read_exact (d : Dialect) (template : Bytes) : (read d template).Exact := by
  have h := readFrom_exact d empty template.toList ⟨rfl, rfl, rfl, rfl⟩
  refine ⟨?_, ?_, ?_, ?_⟩
  · rw [read, h.literalLength, List.map_reverse, List.sum_reverse]
  · rw [read, h.hasGroup, List.any_reverse]
  · rw [read, h.hasContext, List.any_reverse]
  · rw [read, h.hasMatch, List.any_reverse]

/-! ### Normal form -/

/-- A reference can be put before any pieces in normal form. -/
theorem normal_reference (r : Reference) (pieces : List Piece) (h : Normal pieces) :
    Normal (.reference r :: pieces) where
  nonempty hmem := by
    rcases List.mem_cons.1 hmem with heq | hmem
    · exact nomatch heq
    · exact h.nonempty hmem
  apart := List.isChain_cons.2 ⟨fun _ _ hboth => (nomatch hboth.1), h.apart⟩

/-- A literal can be put before pieces in normal form that do not begin with one. -/
theorem normal_literal (bytes : Bytes) (c : UInt8) (pieces : List Piece) (h : Normal pieces)
    (hhead : ∀ p ∈ pieces.head?, p.isLiteral = false) :
    Normal (.literal (bytes.push c) :: pieces) where
  nonempty hmem := by
    rcases List.mem_cons.1 hmem with heq | hmem
    · exact absurd (Piece.literal.inj heq).symm Array.push_ne_empty
    · exact h.nonempty hmem
  apart := by
    refine List.isChain_cons.2 ⟨fun p hp hboth => ?_, h.apart⟩
    rw [hhead p hp] at hboth
    exact nomatch hboth.2

/-- An item keeps the pieces in normal form. They are listed backwards while they are read,
    and normal form does not depend on the direction. -/
theorem addItem_normal (t : Template) (item : Item) (h : Normal t.pieces) :
    Normal (t.addItem item).pieces := by
  rcases t with ⟨pieces, length, group, context, whole⟩
  cases item with
  | reference r => exact normal_reference r pieces h
  | byte c =>
      cases pieces with
      | nil => exact normal_literal #[] c [] h fun p hp => nomatch hp
      | cons p others =>
          cases p with
          | reference r =>
              refine normal_literal #[] c (.reference r :: others) h fun p hp => ?_
              rw [← Option.some.inj hp, Piece.isLiteral]
          | literal bytes =>
              -- The literal was kept apart from what follows it, and the longer one is too.
              rcases List.isChain_cons.1 h.apart with ⟨hfirst, hrest⟩
              have hothers : Normal others := ⟨fun hmem => h.nonempty (.tail _ hmem), hrest⟩
              refine normal_literal bytes c others hothers fun p hp => ?_
              exact Bool.eq_false_iff.2 fun hliteral => hfirst p hp ⟨rfl, hliteral⟩

theorem normal_reverse (pieces : List Piece) (h : Normal pieces) : Normal pieces.reverse where
  nonempty hmem := h.nonempty (List.mem_reverse.1 hmem)
  apart := List.isChain_reverse.2 (h.apart.imp fun _ _ hapart hboth => hapart hboth.symm)

/-! ### Group zero -/

/-- The number zero refers to the whole match, any other number to a group other than zero. -/
theorem ofNumber_ne_groupZero (n : Nat) : Reference.ofNumber n ≠ .group 0 := by
  rw [Reference.ofNumber]
  split
  · exact nofun
  · rename_i hn
    exact fun heq => hn (Reference.group.inj heq)

theorem escapedItem_ne_groupZero (d : Dialect) (c : UInt8) :
    escapedItem d c ≠ .reference (.group 0) := by
  have hspecial : ∀ r : Reference, r ≠ .group 0 →
      (if d.hasSigil .escapedSpecial then Item.reference r
        else .byte ((Pattern.controlEscape? c).getD c)) ≠ .reference (.group 0) := by
    intro r hr
    split
    · exact fun heq => hr (Item.reference.inj heq)
    · exact nofun
  rw [escapedItem]
  split
  · exact fun heq => ofNumber_ne_groupZero _ (Item.reference.inj heq)
  · split
    · exact hspecial _ nofun
    · exact hspecial _ nofun
    · exact hspecial _ nofun
    · exact hspecial _ nofun
    · exact nofun

theorem dollarItem_ne_groupZero (rest : List UInt8) :
    (dollarItem rest).1 ≠ .reference (.group 0) := by
  have hplain : Item.byte 0x24 ≠ .reference (.group 0) := nofun
  fun_cases dollarItem rest with
  | case1 plain => exact hplain
  | case2 c more hdigit => exact fun heq => ofNumber_ne_groupZero _ (Item.reference.inj heq)
  | case3 | case4 | case5 | case6 | case7 => exact nofun
  | case8 c more hdigit hc n used hnumber =>
      exact fun heq => ofNumber_ne_groupZero n (Item.reference.inj heq)
  | case9 | case10 => exact hplain

/-- No item is a reference to a group zero. -/
theorem readItem_ne_groupZero (d : Dialect) (c : UInt8) (rest : List UInt8) :
    (readItem d c rest).1 ≠ .reference (.group 0) := by
  fun_cases readItem d c rest with
  | case2 hc e more => exact escapedItem_ne_groupZero d e
  | case3 =>
      split
      · exact nofun
      · exact nofun
  | case4 => exact dollarItem_ne_groupZero rest
  | case1 | case5 | case6 => exact nofun

/-- The references are those before and the item, if it is one. -/
theorem reference_mem_addItem (t : Template) (item : Item) (r : Reference) :
    .reference r ∈ (t.addItem item).pieces ↔ item = .reference r ∨ .reference r ∈ t.pieces := by
  rcases t with ⟨pieces, length, group, context, whole⟩
  cases item with
  | reference q =>
      simp only [addItem, List.mem_cons, Piece.reference.injEq, Item.reference.injEq, eq_comm]
  | byte c =>
      simp only [addItem, reduceCtorEq, false_or]
      split
      · simp only [List.mem_cons, reduceCtorEq, false_or]
      · simp only [List.mem_cons, reduceCtorEq, false_or]

theorem addItem_groupZero (t : Template) (d : Dialect) (c : UInt8) (rest : List UInt8)
    (h : .reference (.group 0) ∉ t.pieces) :
    .reference (.group 0) ∉ (t.addItem (readItem d c rest).1).pieces := by
  rw [reference_mem_addItem]
  rintro (hitem | hmem)
  · exact readItem_ne_groupZero d c rest hitem
  · exact h hmem

/-! ### From one item to the next -/

theorem bracedNumber?_used_le (rest : List UInt8) (n used : Nat)
    (h : bracedNumber? rest = some (n, used)) : used ≤ rest.length := by
  simp only [bracedNumber?] at h
  split at h
  · exact nomatch h
  · split at h
    · rename_i hbrace
      rcases (Option.any_eq_true _ _).1 hbrace with ⟨c, hc, -⟩
      have hcount : (rest.takeWhile Byte.isDigit).length + 1 = used :=
        congrArg Prod.snd (Option.some.inj h)
      rw [← hcount]
      exact (List.getElem?_eq_some_iff.1 hc).1
    · exact nomatch h

theorem dollarItem_used_le (rest : List UInt8) : (dollarItem rest).2 ≤ rest.length := by
  fun_cases dollarItem rest with
  | case8 c more hdigit hc n used hnumber =>
      exact Nat.succ_le_succ (bracedNumber?_used_le more n used hnumber)
  | case2 | case3 | case4 | case5 | case6 | case7 => exact Nat.succ_le_succ (Nat.zero_le _)
  | case1 | case9 | case10 => exact Nat.zero_le _

/-- An item takes no more bytes than there are. -/
theorem readItem_used_le (d : Dialect) (c : UInt8) (rest : List UInt8) :
    (readItem d c rest).2 ≤ rest.length := by
  fun_cases readItem d c rest with
  | case2 hc e more => exact Nat.succ_le_succ (Nat.zero_le _)
  | case4 => exact dollarItem_used_le rest
  | case1 | case3 | case5 | case6 => exact Nat.zero_le _

/-- A template that is being read: the place of the next item, and what stood before it, with
    the pieces from the last to the first. -/
structure Reading where
  place : Nat
  soFar : Template

/-- Reads the next item, or `none` at the end of the template. -/
def turn (d : Dialect) (template : Bytes) (s : Reading) : Option Reading :=
  template[s.place]?.map fun c =>
    let (item, used) := readItem d c (template.toList.drop (s.place + 1))
    ⟨s.place + 1 + used, s.soFar.addItem item⟩

/-- Reads the given number of items, or `none` if the template ends before. -/
def turns (d : Dialect) (template : Bytes) : Nat → Reading → Option Reading
  | 0, s => some s
  | n + 1, s => (turn d template s).bind (turns d template n)

/-- Before the end of the template a turn moves the place forward, not beyond the end, and
    what reading the bytes from the place on comes to stays the same. -/
theorem turn_inTemplate (d : Dialect) (template : Bytes) (s : Reading)
    (hs : s.place < template.size) :
    ∃ next, turn d template s = some next ∧ s.place < next.place ∧ next.place ≤ template.size ∧
      readFrom d next.soFar (template.toList.drop next.place) =
        readFrom d s.soFar (template.toList.drop s.place) := by
  have hget : template[s.place]? = some template[s.place] := getElem?_pos template s.place hs
  have hdrop : template.toList.drop s.place =
      template[s.place] :: template.toList.drop (s.place + 1) :=
    List.drop_eq_getElem_cons (Array.length_toList.symm ▸ hs)
  rcases hitem : readItem d template[s.place] (template.toList.drop (s.place + 1)) with ⟨item, used⟩
  have hused : used ≤ template.size - (s.place + 1) := by
    have hle := readItem_used_le d template[s.place] (template.toList.drop (s.place + 1))
    rwa [hitem, List.length_drop, Array.length_toList] at hle
  refine ⟨⟨s.place + 1 + used, s.soFar.addItem item⟩, ?_, ?_, ?_, ?_⟩
  · rw [turn, hget, Option.map_some, hitem]
  · exact Nat.lt_of_lt_of_le (Nat.lt_succ_self _) (Nat.le_add_right _ _)
  · simp only
    omega
  · rw [hdrop, readFrom, hitem]
    simp only [List.drop_drop]

/-- From any place the turns come to the end of the template, and to what reading the bytes
    from there on adds. There are no more of them than bytes are left. -/
theorem turns_readFrom (d : Dialect) (template : Bytes) (s : Reading)
    (hs : s.place ≤ template.size) :
    ∃ n ≤ template.size - s.place, turns d template n s =
      some ⟨template.size, readFrom d s.soFar (template.toList.drop s.place)⟩ := by
  induction hleft : template.size - s.place using Nat.strong_induction_on generalizing s with
  | _ left ih =>
    rcases Nat.eq_or_lt_of_le hs with hend | hlt
    · refine ⟨0, Nat.zero_le _, ?_⟩
      rw [turns, hend, List.drop_eq_nil_of_le (Nat.le_of_eq Array.length_toList), readFrom, ← hend]
    · rcases turn_inTemplate d template s hlt with ⟨next, hturn, hforward, hle, hsame⟩
      rcases ih _ (by omega) next hle rfl with ⟨n, hn, hturns⟩
      refine ⟨n + 1, by omega, ?_⟩
      rw [turns, hturn, Option.bind_some, hturns, hsame]

/-! ### What the summary says -/

/-- A test of the references is passed if one of them passes it. -/
theorem any_refers (pieces : List Piece) (test : Reference → Bool) :
    pieces.any (Piece.refers test) = true ↔ ∃ r, test r = true ∧ .reference r ∈ pieces := by
  rw [List.any_eq_true]
  constructor
  · rintro ⟨p, hp, htest⟩
    cases p with
    | literal bytes => exact nomatch htest
    | reference r => exact ⟨r, htest, hp⟩
  · rintro ⟨r, htest, hr⟩
    exact ⟨.reference r, hr, htest⟩

theorem Exact.hasGroup_iff (t : Template) (h : t.Exact) : t.hasGroup = true ↔
    .reference .highestGroup ∈ t.pieces ∨ ∃ n, .reference (.group n) ∈ t.pieces := by
  rw [h.hasGroup, any_refers]
  constructor
  · rintro ⟨r, hneeds, hr⟩
    cases r with
    | group n => exact Or.inr ⟨n, hr⟩
    | highestGroup => exact Or.inl hr
    | wholeMatch | before | after => exact nomatch hneeds
  · rintro (hr | ⟨n, hr⟩)
    · exact ⟨.highestGroup, rfl, hr⟩
    · exact ⟨.group n, rfl, hr⟩

theorem Exact.hasContext_iff (t : Template) (h : t.Exact) : t.hasContext = true ↔
    .reference .before ∈ t.pieces ∨ .reference .after ∈ t.pieces := by
  rw [h.hasContext, any_refers]
  constructor
  · rintro ⟨r, hneeds, hr⟩
    cases r with
    | before => exact Or.inl hr
    | after => exact Or.inr hr
    | group | highestGroup | wholeMatch => exact nomatch hneeds
  · rintro (hr | hr)
    · exact ⟨.before, rfl, hr⟩
    · exact ⟨.after, rfl, hr⟩

theorem Exact.hasMatch_iff (t : Template) (h : t.Exact) :
    t.hasMatch = true ↔ .reference .wholeMatch ∈ t.pieces := by
  rw [h.hasMatch, any_refers]
  simp only [beq_iff_eq, exists_eq_left]

theorem isLiteral_iff (t : Template) :
    t.isLiteral = true ↔ ∀ r, .reference r ∉ t.pieces := by
  rw [isLiteral, List.all_eq_true]
  constructor
  · intro hall r hr
    exact nomatch hall _ hr
  · intro hnone p hp
    cases p with
    | literal bytes => rfl
    | reference r => exact absurd hp (hnone r)

theorem read_normal (d : Dialect) (template : Bytes) : Normal (read d template).pieces := by
  have hstep : ∀ (t : Template) (c : UInt8) (rest : List UInt8),
      Normal t.pieces → Normal (t.addItem (readItem d c rest).1).pieces :=
    fun t _ _ => addItem_normal t _
  have hnil : Normal [] := ⟨List.not_mem_nil, .nil⟩
  exact normal_reverse _ (readFrom_keeps d (Normal ·.pieces) hstep empty template.toList hnil)

theorem read_groupZero (d : Dialect) (template : Bytes) :
    .reference (.group 0) ∉ (read d template).pieces := by
  intro hmem
  exact readFrom_keeps d (.reference (.group 0) ∉ ·.pieces)
    (fun t => addItem_groupZero t d) empty template.toList List.not_mem_nil
    (List.mem_reverse.1 hmem)

/-- Every template is read to its end, in no more turns than it has bytes. Its pieces are in
    normal form, none of them refers to a group zero, and the summary is what they make it. -/
theorem read_described (d : Dialect) (template : Bytes) :
    (∃ n t, n ≤ template.size ∧
      turns d template n ⟨0, empty⟩ = some ⟨template.size, t⟩ ∧
      turn d template ⟨template.size, t⟩ = none ∧
      read d template = { t with pieces := t.pieces.reverse }) ∧
    Normal (read d template).pieces ∧
    .reference (.group 0) ∉ (read d template).pieces ∧
    (read d template).literalLength =
      ((read d template).pieces.map Piece.literalSize).sum ∧
    ((read d template).hasGroup = true ↔
      .reference .highestGroup ∈ (read d template).pieces ∨
        ∃ n, .reference (.group n) ∈ (read d template).pieces) ∧
    ((read d template).hasContext = true ↔
      .reference .before ∈ (read d template).pieces ∨
        .reference .after ∈ (read d template).pieces) ∧
    ((read d template).hasMatch = true ↔ .reference .wholeMatch ∈ (read d template).pieces) ∧
    ((read d template).isLiteral = true ↔ ∀ r, .reference r ∉ (read d template).pieces) := by
  have hexact := read_exact d template
  refine ⟨?_, read_normal d template, read_groupZero d template, hexact.literalLength,
    hexact.hasGroup_iff, hexact.hasContext_iff, hexact.hasMatch_iff, isLiteral_iff _⟩
  rcases turns_readFrom d template ⟨0, empty⟩ (Nat.zero_le _) with ⟨n, hn, hturns⟩
  refine ⟨n, _, hn, hturns, ?_, rfl⟩
  rw [turn, Array.getElem?_size, Option.map_none]

end Template

end ByteRegex
