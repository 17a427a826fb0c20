import ByteRegex.Proofs.Pattern.Numerals
import ByteRegex.Proofs.Template.Reading

/-!
# Writing a Template

Pieces can be written out so that reading gives them back. A literal byte that
would begin an escape or a reference is written with a backslash in front, and
every other one as it is. A reference is written with a sigil of the dialect:
Brief has a backslash and a digit and the bare ampersand, Ruby puts a backslash
in front of every reference, and the other dialects a dollar sign, with braces
around the number of a group.

What stands behind a written piece never becomes part of it. A backslash takes
one byte along, and so does a dollar sign unless a brace follows, where the
number ends at the closing one. So `Yields` is stated with an arbitrary rest, and
readings of pieces join into the reading of a template.

Reading answers the same pieces, not only pieces that mean the same, provided
that the literals are as reading leaves them: joined, and none of them empty.

## Main definitions

* `Reference.Expressible`, `Piece.Expressible`: What a dialect can write.
* `Reference.written`, `Piece.written`: How it writes it.
* `Template.written`: A template that is written out.
* `Template.Yields`: Reading bytes adds items.

## Theorems

* `readItem_ordinary`: A byte that begins nothing is read as itself.
* `bracedNumber?_decimal`: A number in braces is read.
* `yields_piece`: A piece that is written out is read.
* `addItems_pieces`: The items of pieces in normal form make these pieces.
* `read_written`: A template that is written out is read as it was.
-/

namespace ByteRegex

/-- The highest group that a dialect can refer to. -/
def Dialect.highestReference : Dialect → Nat
  | brief => 9
  | ruby => 9
  | _ => Template.maxReference

namespace Reference

/-- The dialect can write the reference. -/
def Expressible (d : Dialect) : Reference → Prop
  | group n => 0 < n ∧ n ≤ d.highestReference
  | wholeMatch => True
  | _ => d ≠ .brief

instance (d : Dialect) (r : Reference) : Decidable (r.Expressible d) :=
  match r with
  | group n => inferInstanceAs (Decidable (0 < n ∧ n ≤ d.highestReference))
  | wholeMatch => isTrue trivial
  | highestGroup => inferInstanceAs (Decidable (d ≠ .brief))
  | before => inferInstanceAs (Decidable (d ≠ .brief))
  | after => inferInstanceAs (Decidable (d ≠ .brief))

/-- The byte that tells a reference without a number from the others. -/
def sign : Reference → UInt8
  | highestGroup => 0x2B
  | before => 0x60
  | after => 0x27
  | _ => 0x26

end Reference

/-- A decimal digit as a byte. -/
def Template.digitByte (n : Nat) : UInt8 := UInt8.ofNat (0x30 + n)

/-- A number in decimal digits, without leading zeros. -/
def Template.decimal (n : Nat) : List UInt8 := (Nat.digits 10 n).reverse.map digitByte

namespace Reference

/-- A reference that is written with a backslash. -/
def afterBackslash : Reference → List UInt8
  | group n => [0x5C, Template.digitByte n]
  | r => [0x5C, r.sign]

/-- A reference that is written with a dollar sign. -/
def afterDollar : Reference → List UInt8
  | group n => 0x24 :: 0x7B :: (Template.decimal n ++ [0x7D])
  | r => [0x24, r.sign]

/-- A reference as a dialect writes it. -/
def written (d : Dialect) (r : Reference) : List UInt8 :=
  match d with
  | .brief => if r = wholeMatch then [0x26] else r.afterBackslash
  | .ruby => r.afterBackslash
  | _ => r.afterDollar

end Reference

/-- The byte is written with a backslash in front. -/
def Template.NeedsBackslash (d : Dialect) (c : UInt8) : Prop :=
  c = 0x5C ∨ c = 0x24 ∨ c = 0x26 ∧ d.hasSigil .bareAmpersand = true

instance (d : Dialect) (c : UInt8) : Decidable (Template.NeedsBackslash d c) :=
  inferInstanceAs (Decidable (_ ∨ _))

/-- A literal byte as a dialect writes it. -/
def Template.writtenByte (d : Dialect) (c : UInt8) : List UInt8 :=
  if NeedsBackslash d c then [0x5C, c] else [c]

namespace Piece

/-- The dialect can write the piece. -/
def Expressible (d : Dialect) : Piece → Prop
  | literal _ => True
  | reference r => r.Expressible d

instance (d : Dialect) (p : Piece) : Decidable (p.Expressible d) :=
  match p with
  | literal _ => isTrue trivial
  | reference r => inferInstanceAs (Decidable (r.Expressible d))

/-- A piece as a dialect writes it. -/
def written (d : Dialect) : Piece → List UInt8
  | literal bytes => bytes.toList.flatMap (Template.writtenByte d)
  | reference r => r.written d

/-- What reading a piece comes upon. -/
def items : Piece → List Template.Item
  | literal bytes => bytes.toList.map .byte
  | reference r => [.reference r]

end Piece

namespace Template

/-- A template that is written out in a dialect. -/
def written (d : Dialect) (pieces : List Piece) : Bytes :=
  (pieces.flatMap (Piece.written d)).toArray

/-- Reading the bytes adds the items, whatever stands behind. -/
def Yields (d : Dialect) (bytes : List UInt8) (items : List Item) : Prop :=
  ∀ t rest, readFrom d t (bytes ++ rest) = readFrom d (items.foldl addItem t) rest

theorem yields_append (d : Dialect) (bytes more : List UInt8) (items others : List Item)
    (h : Yields d bytes items) (hmore : Yields d more others) :
    Yields d (bytes ++ more) (items ++ others) := by
  intro t rest
  rw [List.append_assoc, h, hmore, List.foldl_append]

theorem yields_flatMap {α : Type} (d : Dialect) (xs : List α) (bytes : α → List UInt8)
    (items : α → List Item) (h : ∀ x ∈ xs, Yields d (bytes x) (items x)) :
    Yields d (xs.flatMap bytes) (xs.flatMap items) := by
  induction xs with
  | nil => exact fun t rest => rfl
  | cons x others ih =>
      rw [List.flatMap_cons, List.flatMap_cons]
      exact yields_append d _ _ _ _ (h x List.mem_cons_self)
        (ih fun y hy => h y (List.mem_cons_of_mem x hy))

-- One item, to which a first byte and all the others belong.
theorem yields_item (d : Dialect) (c : UInt8) (more : List UInt8) (item : Item)
    (h : ∀ rest, readItem d c (more ++ rest) = (item, more.length)) :
    Yields d (c :: more) [item] := by
  intro t rest
  rw [List.cons_append, readFrom, h]
  exact congrArg (readFrom d _) List.drop_left

/-- A byte that begins neither an escape nor a reference is read as itself. -/
theorem readItem_ordinary (d : Dialect) (c : UInt8) (rest : List UInt8)
    (h : ¬ NeedsBackslash d c) : readItem d c rest = (.byte c, 0) := by
  rw [NeedsBackslash, not_or, not_or] at h
  rcases h with ⟨hbackslash, hdollar, hampersand⟩
  unfold readItem
  split
  · rename_i hc
    exact absurd (Byte.eq_of_char c _ hc) hbackslash
  · rename_i hc
    have hplain : d.hasSigil .bareAmpersand ≠ true :=
      fun hbare => hampersand ⟨Byte.eq_of_char c _ hc, hbare⟩
    rw [if_neg hplain]
  · rename_i hc
    exact absurd (Byte.eq_of_char c _ hc) hdollar
  · rfl

-- A byte that needs the backslash is no sigil behind it.
theorem escapedItem_of_needsBackslash (d : Dialect) (c : UInt8) (h : NeedsBackslash d c) :
    escapedItem d c = .byte c := by
  rcases h with rfl | rfl | ⟨rfl, hbare⟩
  · cases d <;> rfl
  · cases d <;> rfl
  · cases d <;> first | rfl | exact absurd hbare (by decide)

theorem yields_byte (d : Dialect) (c : UInt8) : Yields d (writtenByte d c) [.byte c] := by
  rw [writtenByte]
  split
  · rename_i h
    refine yields_item d 0x5C [c] _ fun rest => ?_
    exact congrArg (·, 1) (escapedItem_of_needsBackslash d c h)
  · rename_i h
    exact yields_item d c [] _ fun rest => readItem_ordinary d c _ h

theorem isDigit_digitByte (n : Nat) (h : n < 10) : Byte.isDigit (digitByte n) = true := by
  revert n
  decide

theorem digit_digitByte (n : Nat) (h : n < 10) : digit (digitByte n) = n := by
  revert n
  decide

/-- A number that is not capped is read up to the closing brace. -/
theorem bracedNumber?_decimal (n : Nat) (hpos : 0 < n) (hmax : n ≤ maxReference)
    (rest : List UInt8) :
    bracedNumber? (decimal n ++ 0x7D :: rest) = some (n, (decimal n).length + 1) := by
  have hlt : ∀ k ∈ (Nat.digits 10 n).reverse, k < 10 := fun k hk =>
    Nat.digits_lt_base (by decide) (List.mem_reverse.1 hk)
  -- The digits end at the brace, which is none.
  have hdigits : (decimal n ++ 0x7D :: rest).takeWhile Byte.isDigit = decimal n := by
    rw [List.takeWhile_append_of_pos, List.takeWhile_cons_of_neg, List.append_nil]
    · decide
    · intro c hc
      rcases List.mem_map.1 hc with ⟨k, hk, rfl⟩
      exact isDigit_digitByte k (hlt k hk)
  have hsome : (decimal n).isEmpty = false := by
    rw [List.isEmpty_eq_false_iff, decimal, ne_eq, List.map_eq_nil_iff, List.reverse_eq_nil_iff]
    exact Nat.digits_ne_nil_iff_ne_zero.2 (Nat.ne_of_gt hpos)
  have hback : (decimal n).map digit = (Nat.digits 10 n).reverse := by
    rw [decimal, List.map_map]
    exact (List.map_congr_left fun k hk => digit_digitByte k (hlt k hk)).trans (List.map_id' _)
  have hvalue : Pattern.valueOf 10 ((decimal n).map digit) = n := by
    rw [hback, Pattern.valueOf_eq_ofDigits, List.reverse_reverse, Nat.ofDigits_digits]
  rw [bracedNumber?, hdigits, hsome, if_neg Bool.false_ne_true, hvalue, Nat.min_eq_left hmax,
    List.getElem?_append_right (Nat.le_refl _), Nat.sub_self, List.getElem?_cons_zero]
  rfl

-- A digit other than zero refers to its group.
theorem escapedItem_digit (d : Dialect) (hd : d.hasSigil .escapedDigit = true) (n : Nat)
    (hpos : 0 < n) (hle : n ≤ 9) : escapedItem d (digitByte n) = .reference (.group n) := by
  have hlt : n < 10 := Nat.lt_succ_of_le hle
  have hgroup : Reference.ofNumber n = .group n := if_neg (Nat.ne_of_gt hpos)
  rw [escapedItem, isDigit_digitByte n hlt, hd, digit_digitByte n hlt, hgroup]
  rfl

-- A number in braces behind a dollar sign refers to its group.
theorem dollarItem_braced (n : Nat) (hpos : 0 < n) (hmax : n ≤ maxReference)
    (rest : List UInt8) :
    dollarItem (0x7B :: (decimal n ++ 0x7D :: rest)) =
      (.reference (.group n), (decimal n).length + 2) := by
  have hgroup : Reference.ofNumber n = .group n := if_neg (Nat.ne_of_gt hpos)
  have hnumber := bracedNumber?_decimal n hpos hmax rest
  rw [dollarItem]
  simp only [hnumber, hgroup]
  rfl

-- A number behind a backslash, in any dialect.
theorem yields_escapedDigit (d : Dialect) (hd : d.hasSigil .escapedDigit = true) (n : Nat)
    (hpos : 0 < n) (hle : n ≤ 9) :
    Yields d (Reference.group n).afterBackslash [.reference (.group n)] :=
  yields_item d 0x5C [digitByte n] _ fun _ =>
    congrArg (·, 1) (escapedItem_digit d hd n hpos hle)

/-- A dialect with dollar sigils reads the references that it writes. -/
theorem yields_afterDollar (d : Dialect) (hd : d.hasSigil .dollar = true)
    (hmax : d.highestReference = maxReference) (r : Reference) (h : r.Expressible d) :
    Yields d r.afterDollar [.reference r] := by
  have hdollar (rest : List UInt8) : readItem d 0x24 rest = dollarItem rest := if_pos hd
  cases r with
  | group n =>
      refine yields_item d 0x24 (0x7B :: (decimal n ++ [0x7D])) _ fun rest => ?_
      rw [Reference.Expressible, hmax] at h
      rw [hdollar, List.cons_append, List.append_assoc, List.singleton_append,
        dollarItem_braced n h.1 h.2, List.length_cons, List.length_append, List.length_singleton]
  | _ => exact yields_item d 0x24 [_] _ fun rest => hdollar _

theorem yields_reference (d : Dialect) (r : Reference) (h : r.Expressible d) :
    Yields d (r.written d) [.reference r] := by
  cases d with
  | brief =>
      cases r with
      | group n => exact yields_escapedDigit .brief rfl n h.1 h.2
      | wholeMatch => exact yields_item .brief 0x26 [] _ fun _ => rfl
      | _ => exact absurd rfl h
  | ruby =>
      cases r with
      | group n => exact yields_escapedDigit .ruby rfl n h.1 h.2
      | _ => exact yields_item .ruby 0x5C [_] _ fun _ => rfl
  | unix => exact yields_afterDollar .unix rfl rfl r h
  | extended => exact yields_afterDollar .extended rfl rfl r h
  | perl => exact yields_afterDollar .perl rfl rfl r h
  | tre => exact yields_afterDollar .tre rfl rfl r h

/-- A piece that is written out is read, whatever stands behind. -/
theorem yields_piece (d : Dialect) (p : Piece) (h : p.Expressible d) :
    Yields d (p.written d) p.items := by
  cases p with
  | literal bytes =>
      have hbytes := yields_flatMap d bytes.toList _ _ fun c _ => yields_byte d c
      rwa [← List.map_eq_flatMap] at hbytes
  | reference r => exact yields_reference d r h

-- Bytes behind a literal become part of it.
theorem addItems_literal (t : Template) (w : Bytes) (others : List Piece) (bytes : List UInt8)
    (ht : t.pieces = .literal w :: others) :
    ((bytes.map Item.byte).foldl addItem t).pieces = .literal (w ++ bytes.toArray) :: others := by
  induction bytes generalizing t w with
  | nil => rw [List.map_nil, List.foldl_nil, ht, Array.append_empty]
  | cons c rest ih =>
      have hpush : (t.addItem (.byte c)).pieces = .literal (w.push c) :: others := by
        simp only [addItem, ht]
      rw [List.map_cons, List.foldl_cons, ih _ _ hpush, ← Array.append_singleton,
        Array.append_assoc, ← List.toArray_cons]

/-- The items of a piece make this piece, if it does not continue the one before. -/
theorem addItems_piece (t : Template) (p : Piece) (hp : p ≠ .literal #[])
    (hapart : ∀ q ∈ t.pieces.head?, ¬ (q.isLiteral = true ∧ p.isLiteral = true)) :
    (p.items.foldl addItem t).pieces = p :: t.pieces := by
  cases p with
  | reference r => rfl
  | literal w =>
      rcases w with ⟨bytes⟩
      cases bytes with
      | nil => exact absurd rfl hp
      | cons c rest =>
          -- The first byte makes a literal of its own.
          have hfirst : (t.addItem (.byte c)).pieces = .literal #[c] :: t.pieces := by
            rcases t with ⟨pieces, length, group, context, whole⟩
            cases pieces with
            | nil => rfl
            | cons q others =>
                cases q with
                | reference r => rfl
                | literal w => exact absurd ⟨rfl, rfl⟩ (hapart (.literal w) rfl)
          have hall := addItems_literal _ #[c] t.pieces rest hfirst
          rwa [← List.toArray_cons] at hall

/-- The items of pieces in normal form make these pieces. They are listed backwards. -/
theorem addItems_pieces (t : Template) (pieces : List Piece) (hne : .literal #[] ∉ pieces)
    (hapart : (t.pieces.reverse ++ pieces).IsChain
      fun p q => ¬ (p.isLiteral = true ∧ q.isLiteral = true)) :
    ((pieces.flatMap Piece.items).foldl addItem t).pieces = pieces.reverse ++ t.pieces := by
  induction pieces generalizing t with
  | nil => rfl
  | cons p rest ih =>
      rw [List.mem_cons, not_or] at hne
      have hbetween := (List.isChain_append.1 hapart).2.2
      have hp : (p.items.foldl addItem t).pieces = p :: t.pieces := by
        refine addItems_piece t p (Ne.symm hne.1) fun q hq => hbetween q ?_ p rfl
        rwa [List.getLast?_reverse]
      rw [List.flatMap_cons, List.foldl_append, ih _ hne.2, hp, List.reverse_cons,
        List.append_assoc, List.singleton_append]
      rw [hp, List.reverse_cons, List.append_assoc, List.singleton_append]
      exact hapart

/-- Reading undoes writing. A template of pieces that a dialect can express, with literals
    that are not empty and do not touch, is read as the same pieces when it has been
    written out; the literal length is the number of the literal bytes, and nothing in
    the template refers to the match exactly if no piece is a reference. -/
theorem read_written (d : Dialect) (pieces : List Piece) (hnormal : Normal pieces)
    (hexpressible : ∀ p ∈ pieces, p.Expressible d) :
    (read d (written d pieces)).pieces = pieces ∧
      (read d (written d pieces)).literalLength = (pieces.map Piece.literalSize).sum ∧
      ((read d (written d pieces)).isLiteral = true ↔ ∀ r, .reference r ∉ pieces) := by
  have hpieces : (read d (written d pieces)).pieces = pieces := by
    have hyields := yields_flatMap d pieces _ _ fun p hp => yields_piece d p (hexpressible p hp)
    have hread := hyields empty []
    have hmade := addItems_pieces empty pieces hnormal.nonempty hnormal.apart
    rw [List.append_nil, readFrom] at hread
    rw [read, written, hread, hmade]
    exact (congrArg List.reverse (List.append_nil _)).trans (List.reverse_reverse pieces)
  refine ⟨hpieces, ?_, ?_⟩
  · rw [(read_exact d _).literalLength, hpieces]
  · rw [isLiteral, hpieces, List.all_eq_true]
    constructor
    · exact fun h r hr => Bool.false_ne_true (h _ hr)
    · intro h p hp
      cases p with
      | literal w => rfl
      | reference r => exact absurd hp (h r)

-- The template `\$\\${18446744073709551615}}\&`: a literal that ends in a backslash, the largest
-- number, and a literal that begins with a brace.
theorem read_written_unix :
    Normal [.literal #[0x24, 0x5C], .reference (.group maxReference), .literal #[0x7D, 0x26]] ∧
      (∀ p ∈ [.literal #[0x24, 0x5C], .reference (.group maxReference), .literal #[0x7D, 0x26]],
        Piece.Expressible .unix p) ∧
      (read .unix (written .unix [.literal #[0x24, 0x5C], .reference (.group maxReference),
          .literal #[0x7D, 0x26]])).pieces =
        [.literal #[0x24, 0x5C], .reference (.group maxReference), .literal #[0x7D, 0x26]] ∧
      (read .unix (written .unix [.literal #[0x24, 0x5C], .reference (.group maxReference),
          .literal #[0x7D, 0x26]])).literalLength = 4 := by
  have hnormal : Normal [.literal #[0x24, 0x5C], .reference (.group maxReference),
      .literal #[0x7D, 0x26]] := ⟨by decide, by decide⟩
  have hexpressible : ∀ p ∈ [.literal #[0x24, 0x5C], .reference (.group maxReference),
      .literal #[0x7D, 0x26]], Piece.Expressible .unix p := by decide
  have h := read_written .unix _ hnormal hexpressible
  exact ⟨hnormal, hexpressible, h.1, h.2.1⟩

end Template

end ByteRegex
