import ByteRegex.Literal.Occurrence

/-!
# Border Tables

A border of a word is a proper prefix of it that is also a suffix. The table of
a word lists, for each of its prefixes, the length of the longest border. With
it a word is found without looking twice at a byte of the text that has already
matched: when the next byte does not fit, the word moves on until a border of
the matched part lies where its end was.

Entries have 16 bits and longer borders are cut to them, so a table is only made
for words of limited length, where nothing is cut. Words shorter than
`minLength` are found as quickly without a table.

The search goes through the text byte by byte and keeps the number of bytes of the
word that have matched in front of it. The next byte makes that number grow or fall
to the longest border it extends, by the very step that builds the table. While
nothing has matched there is no need to look at every byte: the search jumps to the
next one with which the word can begin. An entry that is no shorter than the matched
part is no border; the step then gives it up, so the search ends whatever the table
says.

## Main definitions

* `extendBorder`: The longest border with one more byte.
* `borders`: The table of a word.
* `borders?`: The table, for words that are to have one.
* `searchFrom`: The search from an index with some bytes matched.
* `tabledOccurrence?`, `search?`: The first occurrence, found with a table.
* `nextOccurrence?`, `findWith?`: The search with a table if there is one and
  without otherwise.

## Theorems

* `extendBorder_le`: A byte makes a border longer by one at most.
* `le_of_tabledOccurrence?`, `le_of_nextOccurrence?`: What is found is not before the start.
-/

namespace ByteRegex

namespace Literal

/-- The shortest word that is given a table. -/
def minLength : Nat := 4

/-- The longest word that is given a table. -/
def maxLength : Nat := 0x1FFF

/-- The longest border after the byte `c`, when `k` is the length of the longest
    border before it and `table` lists the shorter prefixes. -/
def extendBorder (word : Bytes) (table : Array UInt16) (c : UInt8) (k : Nat) : Nat :=
  if word[k]? = some c then k + 1
  else if 0 < k then
    let shorter := (table[k - 1]?.getD 0).toNat
    if shorter < k then extendBorder word table c shorter else 0
  else 0
  termination_by k

/-- Lists the borders of the prefixes that end in the given bytes, of which `k`
    is the border before the first. -/
def bordersFrom (word : Bytes) (table : Array UInt16) (k : Nat) : List UInt8 → Array UInt16
  | [] => table
  | c :: rest =>
    let k' := extendBorder word table c k
    bordersFrom word (table.push (UInt16.ofNat k')) k' rest

/-- The table of a word: entry `i` is the length of the longest border of its
    prefix of `i + 1` bytes. -/
def borders (word : Bytes) : Array UInt16 :=
  match word.toList with
  | [] => #[]
  | _ :: rest => bordersFrom word #[0] 0 rest

/-- The table of a word that is long enough to profit from one, and short enough
    for its entries. -/
def borders? (word : Bytes) : Option (Array UInt16) :=
  if minLength ≤ word.size && word.size ≤ maxLength then some (borders word) else none

/-- Searches on from index `i` of the text, with the first `k` bytes of the word matched
    in front of it. The word has the byte `head` in front. -/
def searchFrom (scan : ByteScan) (ignoreCase : Bool) (word : Bytes) (table : Array UInt16)
    (text : Bytes) (head : UInt8) (i k : Nat) : Option Nat :=
  if i < text.size then
    -- Nothing has matched yet: jump straight to the next byte that can begin the word.
    let skip? :=
      if k = 0 then scan.firstHead? ignoreCase head (text.extract i text.size) else some 0
    match skip? with
    | none => none
    | some skip =>
      match text[i + skip]? with
      | none => none
      | some c =>
        let k' := extendBorder word table (Byte.canonical ignoreCase c) k
        if k' = word.size then some (i + skip + 1 - k')
        else searchFrom scan ignoreCase word table text head (i + skip + 1) k'
  else none
  termination_by text.size - i

/-- The first position from `s` on at which the word stands, found with its
    table. -/
def tabledOccurrence? (scan : ByteScan) (ignoreCase : Bool) (word : Bytes) (table : Array UInt16)
    (text : Bytes) (s : Nat) : Option Nat :=
  match word[0]? with
  | none => if s ≤ text.size then some s else none
  | some head => searchFrom scan ignoreCase word table text head s 0

/-- The first position from `s` on at which the word stands, found with the
    table if there is one. -/
def nextOccurrence? (scan : ByteScan) (ignoreCase : Bool) (word : Bytes)
    (table : Option (Array UInt16)) (text : Bytes) (s : Nat) : Option Nat :=
  match table with
  | some t => tabledOccurrence? scan ignoreCase word t text s
  | none => firstOccurrence? scan ignoreCase word text s

/-- The first position from `s` on at which the word stands, found with its table and
    plain scans. -/
def search? (ignoreCase : Bool) (word : Bytes) (table : Array UInt16) (text : Bytes) (s : Nat) :
    Option Nat :=
  tabledOccurrence? .walk ignoreCase word table text s

/-- The first position from `s` on at which the word stands, found with plain scans and
    the table if there is one. -/
def findWith? (ignoreCase : Bool) (word : Bytes) (table : Option (Array UInt16)) (text : Bytes)
    (s : Nat) : Option Nat :=
  nextOccurrence? .walk ignoreCase word table text s

theorem extendBorder_le (word : Bytes) (table : Array UInt16) (c : UInt8) (k : Nat) :
    extendBorder word table c k ≤ k + 1 := by
  fun_induction extendBorder word table c k with
  | case1 => exact Nat.le_refl _
  | case2 k _ _ shorter hlt ih => omega
  | case3 => exact Nat.zero_le _
  | case4 => exact Nat.zero_le _

theorem le_of_searchFrom {scan : ByteScan} {ignoreCase : Bool} {word text : Bytes}
    {table : Array UInt16} {head : UInt8} {s i k t : Nat} (hk : s + k ≤ i)
    (h : searchFrom scan ignoreCase word table text head i k = some t) : s ≤ t := by
  fun_induction searchFrom scan ignoreCase word table text head i k with
  | case3 i k _ _ skip _ c _ k' hwhole =>
    have hle := extendBorder_le word table (Byte.canonical ignoreCase c) k
    simp only [Option.some.injEq] at h
    omega
  | case4 i k _ _ skip _ c _ k' _ ih =>
    have hle := extendBorder_le word table (Byte.canonical ignoreCase c) k
    exact ih (by omega) h
  | _ => simp at h

theorem le_of_tabledOccurrence? {scan : ByteScan} {ignoreCase : Bool} {word text : Bytes}
    {table : Array UInt16} {s t : Nat}
    (h : tabledOccurrence? scan ignoreCase word table text s = some t) : s ≤ t := by
  unfold tabledOccurrence? at h
  split at h
  · simp_all
  · exact le_of_searchFrom (Nat.le_refl s) h

theorem le_of_nextOccurrence? {scan : ByteScan} {ignoreCase : Bool} {word text : Bytes}
    {table : Option (Array UInt16)} {s t : Nat}
    (h : nextOccurrence? scan ignoreCase word table text s = some t) : s ≤ t := by
  unfold nextOccurrence? at h
  split at h
  · exact le_of_tabledOccurrence? h
  · exact le_of_firstOccurrence? h

end Literal

end ByteRegex
