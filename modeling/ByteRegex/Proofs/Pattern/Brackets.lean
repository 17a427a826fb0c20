import ByteRegex.Pattern.Bracket
import ByteRegex.Proofs.Pattern.Numerals

/-!
# Spelled Bracket Expressions

A bracket expression denotes the set that its items list. Here the items come
first: a `Bracket` is a list of bytes, ranges, named classes and shorthands with
an optional sign of negation in front, `Bracket.contains` says which bytes it
denotes, and `Bracket.spelled` writes it out. `bracketSet_spelled` reads it back.

The scanner decides what an item is by looking at the bytes ahead, and there are
three things it might see that are not there: a named class in a byte, a range in
a byte and the sign after it, and a sign of negation in the first item. None of
the bytes that these begin with is plain. An escape stands for any of them, and
begins with a backslash.

The scanner closes the set under letter case while it builds it and complements
it last, and it keeps the set as a mask. `ext_mem` does away with the
mask: two sets with the same members are equal.

## Main definitions

* `Shorthand`: A class that a letter stands for.
* `ItemByte`: A byte of an item, plain or written by its code.
* `Item`: What a bracket expression lists.
* `Bracket`: A bracket expression.
* `Bracket.contains`: The bytes that it denotes.

## Theorems

* `ext_mem`: A set is known by its members.
* `bracketItem_spelled`: An item that is written out is read.
* `bracketItems_spelled`: A list of items adds what its items contain.
* `bracketSet_spelled`: A bracket expression that is written out is read.
* `bracketSet_denotes`: It denotes the set that it spells.
-/

namespace ByteRegex

/-- A set is known by its members. -/
theorem ByteSet.ext_mem (s t : ByteSet) (h : ∀ c, c ∈ s ↔ c ∈ t) : s = t := by
  rcases s with ⟨s⟩
  rcases t with ⟨t⟩
  congr 1
  refine BitVec.eq_of_getLsbD_eq fun i hi => ?_
  have hbyte : (UInt8.ofNat i).toNat = i := UInt8.toNat_ofNat_of_lt' hi
  have hc := h (UInt8.ofNat i)
  rw [ByteSet.mem_iff, ByteSet.mem_iff, ByteSet.contains, ByteSet.contains, hbyte] at hc
  exact Bool.eq_iff_iff.2 hc

namespace Pattern

/-- The classes that have a letter. -/
inductive Shorthand.Kind where
  | digit
  | word
  | space
  deriving DecidableEq, Repr

/-- A class that a letter stands for; the capital letter stands for the complement. -/
structure Shorthand where
  kind : Shorthand.Kind
  complemented : Bool
  deriving DecidableEq, Repr

namespace Shorthand

/-- The letter of a class. -/
def letter : Shorthand → UInt8
  | ⟨.digit, complemented⟩ => if complemented then 0x44 else 0x64
  | ⟨.word, complemented⟩ => if complemented then 0x57 else 0x77
  | ⟨.space, complemented⟩ => if complemented then 0x53 else 0x73

def contains : Shorthand → UInt8 → Bool
  | ⟨.digit, complemented⟩, c => Byte.isDigit c != complemented
  | ⟨.word, complemented⟩, c => Byte.isWord c != complemented
  | ⟨.space, complemented⟩, c => Byte.isSpace c != complemented

/-- The bytes that the class contains. -/
def set (s : Shorthand) : ByteSet := ByteSet.ofPred s.contains

/-- The bytes that write it. -/
def spelled (s : Shorthand) : List UInt8 := [0x5C, s.letter]

end Shorthand

-- The letter of a class stands for it.
theorem classShorthand?_letter (s : Shorthand) : classShorthand? s.letter = some s.set := by
  have hcomplement (k : CharClass) :
      k.members.complement = ByteSet.ofPred fun c => k.contains c != true := by
    refine ByteSet.ext_mem _ _ fun c => ?_
    rw [ByteSet.mem_complement, CharClass.members, ByteSet.mem_ofPred, ByteSet.mem_ofPred]
    cases k.contains c <;> decide
  have hmembers (k : CharClass) : k.members = ByteSet.ofPred fun c => k.contains c != false := by
    simp only [CharClass.members, Bool.bne_false]
  -- A capital letter for each of the three small ones.
  rcases s with ⟨_ | _ | _, _ | _⟩
  · exact congrArg some (hmembers .digit)
  · exact congrArg some (hcomplement .digit)
  · exact congrArg some (hmembers .word)
  · exact congrArg some (hcomplement .word)
  · exact congrArg some (hmembers .space)
  · exact congrArg some (hcomplement .space)

/-- A byte that stands for itself in a bracket expression, wherever it stands. -/
def isPlain (c : UInt8) : Bool :=
  !Byte.is '\\' c && !Byte.is ']' c && !Byte.is '[' c && !Byte.is '-' c && !Byte.is '^' c
    && !Byte.is '~' c

/-- A byte of an item, plain or written by its code. -/
inductive ItemByte where
  | plain (c : UInt8) (h : isPlain c = true)
  | hex (b : HexByte)

namespace ItemByte

/-- The byte that is written. -/
def value : ItemByte → UInt8
  | plain c _ => c
  | hex b => b.value

/-- The bytes that write it. -/
def spelled : ItemByte → List UInt8
  | plain c _ => [c]
  | hex b => b.spelled

end ItemByte

/-- The bytes of a name; a class without one has none. -/
def className (k : CharClass) : List UInt8 := (k.spelling?.getD []).map (UInt8.ofNat ·.toNat)

/-- What a bracket expression lists. -/
inductive Item where
  | byte (b : ItemByte)
  /-- The bytes between two bytes, which are in order. -/
  | range (low high : ItemByte) (h : low.value ≤ high.value)
  /-- A named class that has a name. -/
  | named (k : CharClass) (h : k.spelling?.isSome = true)
  | shorthand (s : Shorthand)

namespace Item

/-- Whether the item lists a byte. -/
def contains : Item → UInt8 → Bool
  | byte b, c => c == b.value
  | range low high _, c => low.value ≤ c && c ≤ high.value
  | named k _, c => k.contains c
  | shorthand s, c => s.contains c

/-- The bytes that write an item. -/
def spelled : Item → List UInt8
  | byte b => b.spelled
  | range low high _ => low.spelled ++ 0x2D :: high.spelled
  | named k _ => 0x5B :: 0x3A :: (className k ++ [0x3A, 0x5D])
  | shorthand s => s.spelled

/-- Whether the dialect has what the item makes use of. -/
def fits (d : Dialect) : Item → Bool
  | shorthand _ => d.has .classShorthands
  | _ => true

end Item

/-- The two signs that ask for the bytes which are not listed. -/
inductive Negation where
  | caret
  | tilde
  deriving DecidableEq, Repr

def Negation.byte : Negation → UInt8
  | caret => 0x5E
  | tilde => 0x7E

/-- A bracket expression, which lists at least one item. -/
structure Bracket where
  negation : Option Negation
  items : List Item
  nonempty : items ≠ []

namespace Bracket

/-- Whether an item lists the byte or, when letter case is ignored, its partner in the
    other case. -/
def lists (b : Bracket) (ignoreCase : Bool) (c : UInt8) : Bool :=
  b.items.any (·.contains c) || ignoreCase && b.items.any (·.contains (Byte.otherCase c))

/-- Whether a bracket expression denotes a byte. -/
def contains (b : Bracket) (ignoreCase : Bool) (c : UInt8) : Bool :=
  b.lists ignoreCase c != b.negation.isSome

/-- The bytes that a bracket expression denotes. -/
def set (b : Bracket) (ignoreCase : Bool) : ByteSet := ByteSet.ofPred (b.contains ignoreCase)

/-- The bytes that write a bracket expression, the opening bracket excluded. -/
def spelled (b : Bracket) : List UInt8 :=
  (b.negation.map Negation.byte).toList ++ (b.items.flatMap Item.spelled ++ [0x5D])

/-- Whether the dialect has what the items make use of. -/
def fits (d : Dialect) (b : Bracket) : Bool := b.items.all (Item.fits d)

end Bracket

/-- A byte does not begin a named class, a range, a negation or the end of the list. -/
def Unmarked (c : UInt8) : Prop :=
  Byte.is ']' c = false ∧ Byte.is '-' c = false ∧ Byte.is '^' c = false ∧ Byte.is '~' c = false

-- The backslash of an escape is as good as a plain byte here.
theorem ItemByte.spelled_cons (b : ItemByte) :
    ∃ c more, b.spelled = c :: more ∧ Unmarked c ∧ Byte.is '[' c = false := by
  cases b with
  | plain c h =>
      simp only [isPlain, Bool.and_eq_true, Bool.not_eq_true'] at h
      exact ⟨c, [], rfl, ⟨h.1.1.1.1.2, h.1.1.2, h.1.2, h.2⟩, h.1.1.1.2⟩
  | hex b => exact ⟨0x5C, _, rfl, ⟨rfl, rfl, rfl, rfl⟩, rfl⟩

theorem Item.spelled_cons (i : Item) : ∃ c more, i.spelled = c :: more ∧ Unmarked c := by
  cases i with
  | byte b =>
      rcases b.spelled_cons with ⟨c, more, hb, hc, _⟩
      exact ⟨c, more, hb, hc⟩
  | range low high h =>
      rcases low.spelled_cons with ⟨c, more, hb, hc, _⟩
      exact ⟨c, _, by rw [Item.spelled, hb, List.cons_append], hc⟩
  | named k h => exact ⟨0x5B, _, rfl, ⟨rfl, rfl, rfl, rfl⟩⟩
  | shorthand s => exact ⟨0x5C, _, rfl, ⟨rfl, rfl, rfl, rfl⟩⟩

-- A byte that is written out is read as a member.
theorem bracketMember_byte (d : Dialect) (openAt offset : Nat) (b : ItemByte)
    (rest : List UInt8) :
    (bracketMember d openAt).Reads offset b.spelled (.byte b.value) rest := by
  refine reads_bind_nil _ _ offset _ rest offset _ (reads_here _ _) ?_
  cases b with
  | plain c h =>
      simp only [isPlain, Bool.and_eq_true, Bool.not_eq_true'] at h
      refine reads_bind_end _ _ offset [c] rest (some c) _ (reads_fetch _ _ _) ?_
      simp only
      rw [if_neg (by rw [h.1.1.1.1.1]; exact Bool.false_ne_true)]
      exact reads_pure _ _ _
  | hex b =>
      refine reads_bind _ _ offset [0x5C] (0x78 :: b.digits) rest (some 0x5C) _
        (reads_fetch _ _ _) ?_
      refine reads_bind _ _ _ [0x78] b.digits rest (some 0x78) _ (reads_fetch _ _ _) ?_
      -- The letter stands for no class.
      have hletter : (if d.has .classShorthands then classShorthand? 0x78 else none) = none := by
        cases d.has .classShorthands <;> rfl
      simp only [hletter]
      exact reads_bind_end _ _ _ _ rest _ _ (escapeValue_hex b _ _ rest) (reads_pure _ _ _)

-- A shorthand is read as a member where the dialect has it.
theorem bracketMember_shorthand (d : Dialect) (openAt offset : Nat) (s : Shorthand)
    (rest : List UInt8) (h : d.has .classShorthands = true) :
    (bracketMember d openAt).Reads offset s.spelled (.set s.set) rest := by
  refine reads_bind_nil _ _ offset _ rest offset _ (reads_here _ _) ?_
  refine reads_bind _ _ offset [0x5C] [s.letter] rest (some 0x5C) _ (reads_fetch _ _ _) ?_
  refine reads_bind_end _ _ _ [s.letter] rest (some s.letter) _ (reads_fetch _ _ _) ?_
  simp only [h, if_true, classShorthand?_letter]
  exact reads_pure _ _ _

-- The name of a class is made of letters, and no two classes share one.
theorem spelling_named (k : CharClass) (h : k.spelling?.isSome = true) :
    CharClass.ofSpelling? (className k) = some k ∧ className k ≠ [] ∧
      (className k).all Byte.isLower = true := by
  cases k with
  | newline => exact absurd h Bool.false_ne_true
  | _ => exact ⟨by decide, by decide, by decide⟩

theorem is_of_isLower (c : UInt8) (h : Byte.isLower c = true) :
    Byte.is ']' c = false ∧ Byte.is ':' c = false := by
  revert c
  exact Byte.forall_byte (by decide +kernel)

-- What stands in front of the first byte of its kind.
theorem takeWhile_until (ch : Char) (name rest : List UInt8) (c : UInt8)
    (hname : ∀ b ∈ name, Byte.is ch b = false) (hc : Byte.is ch c = true) :
    (name ++ c :: rest).takeWhile (fun b => !Byte.is ch b) = name := by
  rw [List.takeWhile_append_of_pos fun b hb => by rw [hname b hb, Bool.not_false],
    List.takeWhile_cons_of_neg (by rw [hc]; exact Bool.false_ne_true), List.append_nil]

/-- A named class is recognised by its end, if the name holds no closing bracket. -/
theorem opensNamedClass_named (name rest : List UInt8) (hname : name ≠ [])
    (h : ∀ c ∈ name, Byte.is ']' c = false) :
    opensNamedClass (0x5B :: 0x3A :: (name ++ 0x3A :: 0x5D :: rest)) = true := by
  -- The first closing bracket is the one behind the second colon.
  have hinner : (name ++ 0x3A :: 0x5D :: rest).takeWhile (fun c => !Byte.is ']' c)
      = name ++ [0x3A] := by
    rw [List.append_cons]
    refine takeWhile_until ']' (name ++ [0x3A]) rest 0x5D (fun c hc => ?_) rfl
    rcases List.mem_append.1 hc with hc | hc
    · exact h c hc
    · rw [List.mem_singleton.1 hc]
      rfl
  have hlength : 0 < name.length := List.length_pos_iff.2 hname
  simp only [opensNamedClass, hinner, List.length_append, List.length_cons, List.length_nil,
    List.getLast?_concat, Bool.and_eq_true, decide_eq_true_eq, Option.any_some]
  refine ⟨⟨⟨⟨rfl, rfl⟩, ?_⟩, ?_⟩, rfl⟩ <;> omega

/-- The name of a class ends at the first colon, and the byte behind the colon is used
    unseen. -/
theorem namedClass_name (name rest : List UInt8) (offset : Nat)
    (hname : ∀ c ∈ name, Byte.is ':' c = false) :
    namedClass offset (0x5B :: 0x3A :: (name ++ 0x3A :: rest)) =
      match CharClass.ofSpelling? name with
      | some k => ⟨name.length + 4, .ok k.members⟩
      | none => ⟨2, .error ⟨.invalidClassName, offset⟩⟩ := by
  have hlength : name.length < (name ++ 0x3A :: rest).length := by
    rw [List.length_append, List.length_cons]
    omega
  have hread := takeWhile_until ':' name rest 0x3A hname rfl
  cases hk : CharClass.ofSpelling? name <;>
    simp only [namedClass, List.drop_succ_cons, List.drop_zero, if_pos hlength, hread, hk]

-- A named class that is written out is read.
theorem namedClass_spelled (k : CharClass) (h : k.spelling?.isSome = true) (offset : Nat)
    (rest : List UInt8) : namedClass.Reads offset (Item.named k h).spelled k.members rest := by
  rcases spelling_named k h with ⟨hclass, _, hlower⟩
  have hname := namedClass_name (className k) (0x5D :: rest) offset fun c hc =>
    (is_of_isLower c (List.all_eq_true.1 hlower c hc)).2
  rw [hclass] at hname
  simp only [Scan.Reads, Item.spelled, List.cons_append, List.append_assoc, List.nil_append,
    hname, List.length_cons, List.length_append, List.length_nil]

-- A byte alone or the range of two bytes is read. What follows a byte must not look
-- like the rest of a range.
theorem bracketRange_byte (d : Dialect) (openAt offset : Nat) (b : ItemByte)
    (rest : List UInt8) (hrest : continuesRange rest = false) :
    (bracketRange d openAt).Reads offset b.spelled (ByteSet.singleton b.value) rest := by
  refine reads_bind_nil _ _ offset _ rest offset _ (reads_here _ _) ?_
  refine reads_bind_end _ _ offset _ rest _ _ (bracketMember_byte d openAt offset b rest) ?_
  refine reads_bind_nil _ _ _ [] rest false _ ?_ (reads_pure _ _ _)
  rw [Scan.Reads, Scan.ahead, List.nil_append, List.nil_append, hrest]
  rfl

theorem bracketRange_range (d : Dialect) (openAt offset : Nat) (low high : ItemByte)
    (rest : List UInt8) (h : low.value ≤ high.value) :
    (bracketRange d openAt).Reads offset (low.spelled ++ 0x2D :: high.spelled)
      (ByteSet.range low.value.toNat high.value.toNat) rest := by
  refine reads_bind_nil _ _ offset _ rest offset _ (reads_here _ _) ?_
  refine reads_bind _ _ offset _ _ rest _ _ (bracketMember_byte d openAt offset low _) ?_
  -- Behind the sign the other byte begins, which is not the closing bracket.
  refine reads_bind_nil _ _ _ _ rest true _ ?_ ?_
  · rcases high.spelled_cons with ⟨c, more, hhigh, hc, _⟩
    rw [Scan.Reads, Scan.ahead, hhigh, List.nil_append, List.cons_append, List.cons_append,
      continuesRange, hc.1]
    rfl
  · refine reads_bind _ _ _ [0x2D] _ rest () _ ?_ ?_
    · exact rfl
    refine reads_bind_end _ _ _ _ rest _ _ (bracketMember_byte d openAt _ high _) ?_
    simp only
    rw [if_neg (by rw [UInt8.not_lt]; exact h)]
    exact reads_pure _ _ _

/-- An item that is written out is read as the set of the bytes it contains. -/
theorem bracketItem_spelled (d : Dialect) (openAt offset : Nat) (i : Item) (rest : List UInt8)
    (hfits : i.fits d = true) (hrest : continuesRange rest = false) :
    ∃ s, (bracketItem d openAt).Reads offset i.spelled s rest ∧
      ∀ c, c ∈ s ↔ i.contains c = true := by
  -- An item whose first byte is not a bracket is not taken for a named class.
  have hrange (s : ByteSet) (c : UInt8) (more : List UInt8) (hc : Byte.is '[' c = false)
      (h : (bracketRange d openAt).Reads offset (c :: more) s rest) :
      (bracketItem d openAt).Reads offset (c :: more) s rest := by
    have hopens : opensNamedClass (c :: more ++ rest) = false := by
      unfold opensNamedClass
      split
      · rename_i c' colon rest' heq
        rw [List.cons_append, List.cons.injEq] at heq
        simp only [← heq.1, hc, Bool.false_and]
      · rfl
    rw [Scan.Reads, bracketItem, if_neg (by rw [hopens]; exact Bool.false_ne_true)]
    exact h
  cases i with
  | byte b =>
      refine ⟨_, ?_, fun c => by rw [ByteSet.mem_singleton, Item.contains, beq_iff_eq]⟩
      have h := bracketRange_byte d openAt offset b rest hrest
      rcases b.spelled_cons with ⟨c, more, hb, _, hc⟩
      rw [Item.spelled, hb]
      rw [hb] at h
      exact hrange _ c more hc h
  | range low high hle =>
      refine ⟨ByteSet.range low.value.toNat high.value.toNat, ?_, fun c => ?_⟩
      · have h := bracketRange_range d openAt offset low high rest hle
        rcases low.spelled_cons with ⟨c, more, hlow, _, hc⟩
        rw [Item.spelled, hlow, List.cons_append]
        rw [hlow, List.cons_append] at h
        exact hrange _ c _ hc h
      · rw [ByteSet.mem_range, Item.contains, Bool.and_eq_true, decide_eq_true_eq,
          decide_eq_true_eq, UInt8.le_iff_toNat_le, UInt8.le_iff_toNat_le]
  | named k h =>
      refine ⟨k.members, ?_, fun c => ByteSet.mem_ofPred⟩
      -- The name is recognised by its end, and then read.
      have hnamed := namedClass_spelled k h offset rest
      rcases spelling_named k h with ⟨_, hne, hlower⟩
      have hopens := opensNamedClass_named (className k) rest hne fun c hc =>
        (is_of_isLower c (List.all_eq_true.1 hlower c hc)).1
      rw [Scan.Reads, Item.spelled, List.cons_append, List.cons_append,
        List.append_assoc] at hnamed ⊢
      rw [bracketItem]
      exact (if_pos hopens).trans hnamed
  | shorthand s =>
      refine ⟨s.set, hrange _ 0x5C _ rfl ?_, fun c => ByteSet.mem_ofPred⟩
      refine reads_bind_nil _ _ offset _ rest offset _ (reads_here _ _) ?_
      exact reads_bind_end _ _ offset _ rest _ _
        (bracketMember_shorthand d openAt offset s rest hfits) (reads_pure _ _ _)

-- What follows an item is the next item or the end of the list.
theorem continuesRange_items (items : List Item) (rest : List UInt8) :
    continuesRange (items.flatMap Item.spelled ++ 0x5D :: rest) = false := by
  have hcons (c : UInt8) (more : List UInt8) (hc : Byte.is '-' c = false) :
      continuesRange (c :: more) = false := by
    cases more with
    | nil => rfl
    | cons next more => rw [continuesRange, hc, Bool.false_and]
  cases items with
  | nil => exact hcons _ _ rfl
  | cons i items =>
      rcases i.spelled_cons with ⟨c, more, hi, hc⟩
      rw [List.flatMap_cons, hi, List.cons_append, List.cons_append]
      exact hcons c _ hc.2.1

/-- A list of items adds what its items contain, and its end is used. The induction is
    on the list, for every set that has been read before. -/
theorem bracketItems_spelled (d : Dialect) (openAt : Nat) (items : List Item)
    (rest : List UInt8) (hfits : items.all (Item.fits d) = true) (offset : Nat) (s : ByteSet) :
    ∃ s', (bracketItems d openAt s).Reads offset (items.flatMap Item.spelled ++ [0x5D]) s' rest ∧
      ∀ c, c ∈ s' ↔ c ∈ s ∨ items.any (·.contains c) = true := by
  induction items generalizing offset s with
  | nil =>
      refine ⟨s, ?_, fun c => ?_⟩
      · rw [Scan.Reads, List.flatMap_nil, List.nil_append, List.singleton_append, bracketItems]
        exact if_pos rfl
      · simp only [List.any_nil, Bool.false_eq_true, or_false]
  | cons i items ih =>
      rw [List.all_cons, Bool.and_eq_true] at hfits
      -- The first item is read up to the next, which does not make a range of it.
      rcases bracketItem_spelled d openAt offset i (items.flatMap Item.spelled ++ 0x5D :: rest)
        hfits.1 (continuesRange_items items rest) with ⟨t, ht, hmem⟩
      rcases ih hfits.2 (offset + i.spelled.length) (s ∪ t) with ⟨s', hs', hmem'⟩
      refine ⟨s', ?_, fun c => ?_⟩
      · -- The first byte of the item does not end the list.
        rcases i.spelled_cons with ⟨c, more, hi, hc⟩
        rw [Scan.Reads, hi] at ht
        rw [Scan.Reads, hi, List.append_assoc, List.singleton_append] at hs'
        rw [Scan.Reads, List.flatMap_cons, hi, List.append_assoc, List.append_assoc,
          List.singleton_append, List.cons_append, bracketItems, hc.1]
        rw [List.cons_append] at ht
        simp only [Bool.false_eq_true, if_false, ht, List.length_cons, Nat.add_sub_cancel,
          List.drop_left]
        rw [List.length_cons] at hs'
        simp only [hs', List.length_append, List.length_cons, List.length_nil]
        congr 1
      · rw [hmem', ByteSet.mem_union, hmem, List.any_cons, Bool.or_eq_true, or_assoc]

/-- A bracket expression that is written out is read, whatever stands behind, as the
    set of the bytes that it denotes. -/
theorem bracketSet_spelled (d : Dialect) (ignoreCase : Bool) (b : Bracket)
    (hfits : b.fits d = true) (offset : Nat) (rest : List UInt8) :
    (bracketSet d ignoreCase).Reads offset b.spelled (b.set ignoreCase) rest := by
  -- The list begins with an unmarked byte, which neither negates nor closes.
  have hfirst (offset : Nat) (test : UInt8 → Bool) (htest : ∀ c, Unmarked c → test c = false) :
      (Scan.acceptsIf test).Reads offset [] false
        (b.items.flatMap Item.spelled ++ [0x5D] ++ rest) := by
    refine reads_acceptsIf_not test offset _ ?_
    rcases List.exists_cons_of_ne_nil b.nonempty with ⟨i, items, hitems⟩
    rcases i.spelled_cons with ⟨c, more, hi, hc⟩
    rw [hitems, List.flatMap_cons, hi, List.cons_append, List.cons_append, List.cons_append,
      List.head?_cons, Option.any_some]
    exact htest c hc
  rcases bracketItems_spelled d (offset - 1) b.items rest hfits
    (offset + (b.negation.map Negation.byte).toList.length) ∅ with ⟨listed, hlisted, hmem⟩
  -- The set is closed under letter case before it is complemented.
  have hset : (if b.negation.isSome then
      (if ignoreCase then listed.caseClosure else listed).complement
      else if ignoreCase then listed.caseClosure else listed) = b.set ignoreCase := by
    have hlists (c : UInt8) : c ∈ (if ignoreCase then listed.caseClosure else listed) ↔
        b.lists ignoreCase c = true := by
      have hempty (c : UInt8) : c ∈ listed ↔ b.items.any (·.contains c) = true := by
        rw [hmem, or_iff_right (ByteSet.not_mem_empty c)]
      rw [Bracket.lists, Bool.or_eq_true, Bool.and_eq_true]
      cases ignoreCase with
      | false => simp only [Bool.false_eq_true, if_false, hempty, false_and, or_false]
      | true => simp only [if_true, ByteSet.mem_caseClosure, hempty, true_and]
    refine ByteSet.ext_mem _ _ fun c => ?_
    rw [Bracket.set, ByteSet.mem_ofPred, Bracket.contains]
    cases b.negation.isSome with
    | false => rw [if_neg Bool.false_ne_true, hlists, Bool.bne_false]
    | true =>
        rw [if_pos rfl, ByteSet.mem_complement, hlists, Bool.bne_true, Bool.not_eq_true',
          Bool.not_eq_true]
  refine reads_bind_nil _ _ offset _ rest offset _ (reads_here _ _) ?_
  refine reads_bind _ _ offset (b.negation.map Negation.byte).toList _ rest b.negation.isSome _
    ?_ ?_
  · cases b.negation with
    | none => exact hfirst offset _ fun c hc => by rw [hc.2.2.1, hc.2.2.2]; rfl
    | some n =>
        refine reads_acceptsIf _ offset n.byte _ ?_
        cases n <;> decide
  · refine reads_bind_nil _ _ _ _ rest false _ (hfirst _ _ fun c hc => hc.1) ?_
    refine reads_bind_end _ _ _ _ rest listed _ hlisted ?_
    rw [← hset]
    exact reads_pure _ _ _

/-- A bracket expression denotes what its items list if it has no sign of negation, and
    what they do not list if it has one. -/
theorem Bracket.contains_iff (b : Bracket) (ignoreCase : Bool) (c : UInt8) :
    b.contains ignoreCase c = true ↔
      ((∃ i ∈ b.items, i.contains c = true ∨
        ignoreCase = true ∧ i.contains (Byte.otherCase c) = true) ↔ b.negation = none) := by
  have hlists : b.lists ignoreCase c = true ↔ ∃ i ∈ b.items, i.contains c = true ∨
      ignoreCase = true ∧ i.contains (Byte.otherCase c) = true := by
    rw [lists, Bool.or_eq_true, Bool.and_eq_true, List.any_eq_true, List.any_eq_true]
    constructor
    · rintro (⟨i, hi, hc⟩ | ⟨hcase, i, hi, hc⟩)
      · exact ⟨i, hi, Or.inl hc⟩
      · exact ⟨i, hi, Or.inr ⟨hcase, hc⟩⟩
    · rintro ⟨i, hi, hc | ⟨hcase, hc⟩⟩
      · exact Or.inl ⟨i, hi, hc⟩
      · exact Or.inr ⟨hcase, i, hi, hc⟩
  rw [← hlists, contains]
  cases b.negation with
  | none => simp only [Option.isSome_none, Bool.bne_false, iff_true]
  | some n => simp only [Option.isSome_some, Bool.bne_true, Bool.not_eq_true', reduceCtorEq,
      iff_false, Bool.not_eq_true]

/-- Behind an opening bracket every list of items is read, in every dialect that has what
    the items make use of and whatever stands behind the closing bracket. Reading stops
    right behind the closing bracket. The set contains a byte if an item contains it or,
    when letter case is ignored, contains its partner in the other case; behind a sign of
    negation it contains all other bytes. -/
theorem bracketSet_denotes (d : Dialect) (ignoreCase : Bool) (b : Bracket)
    (hfits : b.fits d = true) (offset : Nat) (rest : List UInt8) :
    ∃ s, bracketSet d ignoreCase offset (b.spelled ++ rest) = ⟨b.spelled.length, .ok s⟩ ∧
      ∀ c, c ∈ s ↔ ((∃ i ∈ b.items, i.contains c = true ∨
        ignoreCase = true ∧ i.contains (Byte.otherCase c) = true) ↔ b.negation = none) := by
  refine ⟨b.set ignoreCase, bracketSet_spelled d ignoreCase b hfits offset rest, fun c => ?_⟩
  rw [Bracket.set, ByteSet.mem_ofPred, b.contains_iff]

-- The expression `[^\x41-C[:digit:]\s]`, with another closing bracket behind it: of the
-- letters only those are missing that its range lists in either case.
theorem bracketSet_denotes_negated :
    let b : Bracket := ⟨some .caret, [.range (.hex ⟨⟨4, false⟩, ⟨1, false⟩⟩) (.plain 0x43 rfl)
      (by decide), .named .digit rfl, .shorthand ⟨.space, false⟩], List.cons_ne_nil _ _⟩
    b.spelled = [0x5E, 0x5C, 0x78, 0x34, 0x31, 0x2D, 0x43, 0x5B, 0x3A, 0x64, 0x69, 0x67, 0x69,
        0x74, 0x3A, 0x5D, 0x5C, 0x73, 0x5D] ∧
      b.fits .perl = true ∧
      ∃ s, bracketSet .perl true 1 (b.spelled ++ [0x5D]) = ⟨19, .ok s⟩ ∧
        0x62 ∉ s ∧ 0x35 ∉ s ∧ 0x20 ∉ s ∧ 0x64 ∈ s ∧ 0x5D ∈ s := by
  intro b
  have hfits : b.fits .perl = true := by decide
  rcases bracketSet_denotes .perl true b hfits 1 [0x5D] with ⟨s, hs, hmem⟩
  refine ⟨by decide, hfits, s, hs, ?_⟩
  simp only [hmem]
  decide

end Pattern

end ByteRegex
