import ByteRegex.Proofs.Pattern.WellFormed

/-!
# The Sets of a Tree

What is known of the sets that a pattern spells. `Block.EachSet` says that every set of
a tree has a property, and it is inherited from the tokens: what holds of the named
sets behind a shorthand, and of every set that a bracket expression lists, holds of
every set of the tree.

The property in question is blindness for letter case. Matching compares a byte with a
set as it is, and folds nothing on the way, so a pattern can be blind for case only
because its sets are. A shorthand stands for a class that has both letters of a pair or
neither. A bracket expression may list one letter alone, and is closed under case
before anything else is done to it. The complement comes after that, and keeps what the
closure gave; the other way around the closure would add the letters back that the
expression excludes.

## Main definitions

* `Byte.CaseBlind`: A test answers alike for both letters of a pair.
* `Block.EachSet`, `Sequence.EachSet`, `Alternatives.EachSet`: Every set of a tree has a
  property.

## Theorems

* `caseClosure_caseBlind`, `complement_caseBlind`: How a set becomes and stays blind.
* `eachSet_inherited`: What the sets of tokens have, every set of a tree has.
* `parse_caseBlind`: Where letter case is ignored, every set is blind for it.
-/

namespace ByteRegex

namespace Byte

/-- A test gives a letter and its partner in the other case the same answer. -/
def CaseBlind (test : UInt8 → Bool) : Prop := ∀ c, test (otherCase c) = test c

-- Bytes that fold alike are equal or partners.
theorem CaseBlind.eq_of_fold {test : UInt8 → Bool} (h : CaseBlind test) (c d : UInt8)
    (hfold : fold c = fold d) : test c = test d := by
  rcases (fold_eq_fold_iff c d).1 hfold with rfl | rfl
  · rfl
  · exact h d

theorem isWord_caseBlind : CaseBlind isWord := forall_byte (by decide +kernel)

theorem lineFeed_caseBlind : CaseBlind (· == lineFeed) := forall_byte (by decide +kernel)

end Byte

namespace ByteSet

open Byte

theorem members_caseBlind (k : CharClass) (h : CaseBlind k.contains) :
    CaseBlind k.members.contains := by
  intro c
  rw [Bool.eq_iff_iff, ← mem_iff, ← mem_iff, CharClass.members, mem_ofPred, mem_ofPred, h c]

theorem caseClosure_caseBlind (s : ByteSet) : CaseBlind s.caseClosure.contains := by
  intro c
  rw [Bool.eq_iff_iff, ← mem_iff, ← mem_iff, mem_caseClosure, mem_caseClosure,
    otherCase_otherCase, or_comm]

theorem complement_caseBlind (s : ByteSet) (h : CaseBlind s.contains) :
    CaseBlind s.complement.contains := by
  intro c
  rw [Bool.eq_iff_iff, ← mem_iff, ← mem_iff, mem_complement, mem_complement, mem_iff, mem_iff, h c]

end ByteSet

mutual

/-- Every set of a block has a property. -/
def Block.EachSet (S : ByteSet → Prop) : Block → Prop
  | .literal _ => True
  | .set s => S s
  | .anyChar => True
  | .anyString => True
  | .anchor _ => True
  | .cursor => True
  | .group _ alternatives => Alternatives.EachSet S alternatives
  | .quantified _ element => element.EachSet S

/-- Every set of blocks in a row has a property. -/
def Sequence.EachSet (S : ByteSet → Prop) : List Block → Prop
  | [] => True
  | b :: rest => b.EachSet S ∧ Sequence.EachSet S rest

/-- Every set of sequences to choose from has a property. -/
def Alternatives.EachSet (S : ByteSet → Prop) : List (List Block) → Prop
  | [] => True
  | s :: rest => Sequence.EachSet S s ∧ Alternatives.EachSet S rest

end

theorem Sequence.eachSet_of_forall (S : ByteSet → Prop) (s : List Block)
    (h : ∀ b ∈ s, b.EachSet S) : Sequence.EachSet S s := by
  induction s with
  | nil => trivial
  | cons b rest ih =>
      exact ⟨h b List.mem_cons_self, ih fun b' hb' => h b' (List.mem_cons_of_mem b hb')⟩

theorem Alternatives.eachSet_of_forall (S : ByteSet → Prop) (alts : List (List Block))
    (h : ∀ s ∈ alts, ∀ b ∈ s, b.EachSet S) : Alternatives.EachSet S alts := by
  induction alts with
  | nil => trivial
  | cons s rest ih =>
      exact ⟨Sequence.eachSet_of_forall S s (h s List.mem_cons_self),
        ih fun s' hs' => h s' (List.mem_cons_of_mem s hs')⟩

mutual

-- What holds of every set holds of those of a tree.
theorem eachSet_block {S : ByteSet → Prop} (h : ∀ s, S s) (b : Block) : b.EachSet S := by
  cases b with
  | literal w => trivial
  | set s => exact h s
  | anyChar => trivial
  | anyString => trivial
  | anchor a => trivial
  | cursor => trivial
  | group n alts => exact eachSet_alternatives h alts
  | quantified q e => exact eachSet_block h e

theorem eachSet_sequence {S : ByteSet → Prop} (h : ∀ s, S s) (s : List Block) :
    Sequence.EachSet S s := by
  cases s with
  | nil => trivial
  | cons b rest => exact ⟨eachSet_block h b, eachSet_sequence h rest⟩

theorem eachSet_alternatives {S : ByteSet → Prop} (h : ∀ s, S s) (alts : List (List Block)) :
    Alternatives.EachSet S alts := by
  cases alts with
  | nil => trivial
  | cons s rest => exact ⟨eachSet_sequence h s, eachSet_alternatives h rest⟩

end

/-- What all sets have that tokens hold, every set of a tree has. -/
theorem eachSet_inherited (S : ByteSet → Prop) : Block.Inherited S (Block.EachSet S) where
  literal := fun _ _ => trivial
  set := fun _ h => h
  anyChar := trivial
  anyString := trivial
  anchor := fun _ => trivial
  cursor := trivial
  group := fun _ alts _ h => Alternatives.eachSet_of_forall S alts h
  quantified := fun _ _ _ _ h => h

namespace Pattern

open Byte ByteSet

/-- A shorthand stands for a class that is blind for letter case, or for the complement of
    one. -/
theorem classShorthand?_caseBlind (letter : UInt8) (s : ByteSet)
    (h : classShorthand? letter = some s) : CaseBlind s.contains := by
  have hdigit := members_caseBlind .digit (forall_byte (by decide +kernel))
  have hword := members_caseBlind .word isWord_caseBlind
  have hspace := members_caseBlind .space (forall_byte (by decide +kernel))
  unfold classShorthand? at h
  split at h
  · exact Option.some.inj h ▸ hdigit
  · exact Option.some.inj h ▸ hword
  · exact Option.some.inj h ▸ hspace
  · exact Option.some.inj h ▸ complement_caseBlind _ hdigit
  · exact Option.some.inj h ▸ complement_caseBlind _ hword
  · exact Option.some.inj h ▸ complement_caseBlind _ hspace
  · exact absurd h (by simp only [reduceCtorEq, not_false_eq_true])

/-- A bracket expression is closed under letter case, and its complement then is too. -/
theorem bracketSet_caseBlind (d : Dialect) :
    Scan.Ensures (fun s => CaseBlind s.contains) (bracketSet d true) := by
  unfold bracketSet
  refine ensures_bind (ensures_true _) (fun here _ => ?_)
  refine ensures_bind (ensures_true _) (fun negated _ => ?_)
  refine ensures_bind (ensures_true _) (fun leading _ => ?_)
  refine ensures_bind (ensures_true _) (fun listed _ => ensures_pure ?_)
  cases negated with
  | false => exact caseClosure_caseBlind listed
  | true => exact complement_caseBlind _ (caseClosure_caseBlind listed)

/-- Where letter case is ignored, every set of a tree is blind for it. -/
theorem parse_caseBlind (options : CompileOptions) (hcase : options.flags.ignoreCase = true)
    (pattern : Bytes) (t : Pattern) (h : parse options pattern = .ok t) :
    Alternatives.EachSet (fun s => CaseBlind s.contains) t.alternatives := by
  have hsets : Token.SetsHave options.dialect options.flags.ignoreCase
      fun s => CaseBlind s.contains :=
    ⟨classShorthand?_caseBlind, hcase ▸ bracketSet_caseBlind options.dialect⟩
  exact Alternatives.eachSet_of_forall _ _
    (parse_each (eachSet_inherited _) options hsets pattern t h).2.1

end Pattern

end ByteRegex
