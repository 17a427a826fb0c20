import ByteRegex.Byte

/-!
# Sets of Bytes

A set of bytes is a mask of 256 bits, one for each byte. Union, complement and
insertion are single operations on the mask, and membership reads one bit, so a
matcher can test a byte against a class of any shape in the same time.

`ofPred` is the bridge to everything that is described by a test: the named
classes, ranges and the closure under letter case are all the set of the bytes
that pass. `mem_ofPred` says that nothing is lost on the way, and the lemmas
below it read off the members of every other operation. `caseClosure` adds to a
set the other case of each of its letters; `mem_caseClosure` describes it.

## Main definitions

* `ByteSet`: A set of bytes.
* `ByteSet.contains`: Membership as a test.
* `ByteSet.ofPred`: The bytes that pass a test.
* `ByteSet.range`: The bytes from one bound to another.
* `ByteSet.caseClosure`: The set with the other case of its letters.
* `CharClass.members`: The bytes of a named class.

## Theorems

* `mem_insert`, `mem_union`, `mem_complement`: Members of the basic operations.
* `mem_ofPred`: The members of `ofPred p` are the bytes that pass `p`.
* `mem_range`: The members of a range lie between its bounds.
* `mem_caseClosure`: A byte is in the closure when it or its partner is in the
  set.
-/

namespace ByteRegex

/-- A set of bytes: byte `c` is a member when bit `c` of the mask is set. -/
structure ByteSet where
  mask : BitVec 256
  deriving DecidableEq, Repr

namespace ByteSet

def empty : ByteSet := ⟨0⟩

instance : EmptyCollection ByteSet := ⟨empty⟩

instance : Inhabited ByteSet := ⟨empty⟩

def contains (s : ByteSet) (c : UInt8) : Bool := s.mask.getLsbD c.toNat

instance : Membership UInt8 ByteSet := ⟨fun s c => s.contains c = true⟩

instance (c : UInt8) (s : ByteSet) : Decidable (c ∈ s) :=
  inferInstanceAs (Decidable (s.contains c = true))

def insert (s : ByteSet) (c : UInt8) : ByteSet := ⟨s.mask ||| BitVec.twoPow 256 c.toNat⟩

def union (s t : ByteSet) : ByteSet := ⟨s.mask ||| t.mask⟩

instance : Union ByteSet := ⟨union⟩

def complement (s : ByteSet) : ByteSet := ⟨~~~s.mask⟩

/-- The bytes that pass a test. -/
def ofPred (p : UInt8 → Bool) : ByteSet :=
  (List.range 256).foldl (fun s n => if p (UInt8.ofNat n) then s.insert (UInt8.ofNat n) else s) ∅

def singleton (c : UInt8) : ByteSet := empty.insert c

/-- The bytes from `low` to `high`, both included. A bound past the last byte
    is as good as the last byte, and reversed bounds enclose nothing. -/
def range (low high : Nat) : ByteSet := ofPred fun c => low ≤ c.toNat && c.toNat ≤ high

/-- The set together with the other case of each of its letters. -/
def caseClosure (s : ByteSet) : ByteSet :=
  ofPred fun c => s.contains c || s.contains (Byte.otherCase c)

/-- How many bytes the set has. -/
def size (s : ByteSet) : Nat := (List.range 256).countP fun n => s.contains (UInt8.ofNat n)

theorem mem_iff {s : ByteSet} {c : UInt8} : c ∈ s ↔ s.contains c = true := Iff.rfl

theorem not_mem_empty (c : UInt8) : ¬ c ∈ (∅ : ByteSet) := by
  simp [mem_iff, contains, EmptyCollection.emptyCollection, empty]

theorem mem_insert {s : ByteSet} {c d : UInt8} : d ∈ s.insert c ↔ d = c ∨ d ∈ s := by
  have hc : c.toNat < 256 := c.toNat_lt
  simp only [mem_iff, contains, insert, BitVec.getLsbD_or, BitVec.getLsbD_twoPow, hc,
    decide_true, Bool.true_and, Bool.or_eq_true, decide_eq_true_eq, UInt8.toNat_inj]
  constructor
  · rintro (h | h)
    · exact Or.inr h
    · exact Or.inl h.symm
  · rintro (h | h)
    · exact Or.inr h.symm
    · exact Or.inl h

theorem mem_union {s t : ByteSet} {c : UInt8} : c ∈ s ∪ t ↔ c ∈ s ∨ c ∈ t := by
  change (s.mask ||| t.mask).getLsbD c.toNat = true ↔ _
  simp [mem_iff, contains]

theorem mem_complement {s : ByteSet} {c : UInt8} : c ∈ s.complement ↔ ¬ c ∈ s := by
  have hc : c.toNat < 256 := c.toNat_lt
  simp [mem_iff, contains, complement, hc]

/-- The fold behind `ofPred`, from any set and over any list of numbers. -/
theorem mem_foldl_insert (p : UInt8 → Bool) (c : UInt8) (ns : List Nat) (s : ByteSet) :
    c ∈ ns.foldl (fun s n => if p (UInt8.ofNat n) then s.insert (UInt8.ofNat n) else s) s ↔
      c ∈ s ∨ ∃ n ∈ ns, UInt8.ofNat n = c ∧ p c = true := by
  induction ns generalizing s with
  | nil => simp
  | cons n ns ih =>
    rw [List.foldl_cons, ih]
    by_cases hp : p (UInt8.ofNat n) = true
    · simp only [hp, if_true, mem_insert, List.mem_cons]
      constructor
      · rintro ((rfl | hs) | ⟨m, hm, rfl, hpm⟩)
        · exact Or.inr ⟨n, Or.inl rfl, rfl, hp⟩
        · exact Or.inl hs
        · exact Or.inr ⟨m, Or.inr hm, rfl, hpm⟩
      · rintro (hs | ⟨m, rfl | hm, rfl, hpm⟩)
        · exact Or.inl (Or.inr hs)
        · exact Or.inl (Or.inl rfl)
        · exact Or.inr ⟨m, hm, rfl, hpm⟩
    · simp only [hp, List.mem_cons]
      constructor
      · rintro (hs | ⟨m, hm, rfl, hpm⟩)
        · exact Or.inl hs
        · exact Or.inr ⟨m, Or.inr hm, rfl, hpm⟩
      · rintro (hs | ⟨m, rfl | hm, rfl, hpm⟩)
        · exact Or.inl hs
        · exact absurd hpm hp
        · exact Or.inr ⟨m, hm, rfl, hpm⟩

theorem mem_ofPred {p : UInt8 → Bool} {c : UInt8} : c ∈ ofPred p ↔ p c = true := by
  rw [ofPred, mem_foldl_insert]
  constructor
  · rintro (h | ⟨_, _, _, h⟩)
    · exact absurd h (not_mem_empty c)
    · exact h
  · intro h
    exact Or.inr ⟨c.toNat, List.mem_range.2 c.toNat_lt, UInt8.ofNat_toNat, h⟩

theorem mem_singleton {c d : UInt8} : d ∈ singleton c ↔ d = c := by
  rw [singleton, mem_insert]
  exact or_iff_left (not_mem_empty d)

theorem mem_range {low high : Nat} {c : UInt8} :
    c ∈ range low high ↔ low ≤ c.toNat ∧ c.toNat ≤ high := by
  simp [range, mem_ofPred]

theorem mem_caseClosure {s : ByteSet} {c : UInt8} :
    c ∈ s.caseClosure ↔ c ∈ s ∨ Byte.otherCase c ∈ s := by
  rw [caseClosure, mem_ofPred, Bool.or_eq_true]
  rfl

end ByteSet

/-- The bytes of a named class. -/
def CharClass.members (k : CharClass) : ByteSet := ByteSet.ofPred k.contains

end ByteRegex
