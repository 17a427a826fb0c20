import ByteRegex.Proofs.Pattern.Brackets

/-!
# The Name of a Class

A bracket expression recognises a named class by its end and reads it by its name,
and the two look for different bytes. `[:` opens a class when the first closing bracket
has a colon in front of it; the name stops at the first colon, and the byte behind that
colon is used unseen, because it ought to be the bracket. For a name without a colon it
is, and `[:w:]` is taken as a unit: either all of `w` is the name of a class, whose
bytes are added, or the name is an error at the bracket that opens the class.

A colon inside of `w` tells the two apart. What stands in front of it may be the name of
a class, as in `[:alpha:x:]`; then this class is added, the byte behind the colon is
lost, and the rest of `w` is read as members of their own.

## Main definitions

* `namedSpelling`: A named class as it is written.
* `TakenAsUnit`: A named class is added as a whole or refused as a whole.

## Theorems

* `colon_notMem_of_ofSpelling?`: No class has a name with a colon.
* `bracketItems_named`: What is read where a named class stands.
* `namedClass_unit`: When a named class is taken as a unit.
* `namedClass_split`: One that is not.
-/

namespace ByteRegex

namespace Pattern

/-- A scan that follows `n` bytes that have been used. -/
def Scanned.after {α : Type} (n : Nat) (r : Scanned α) : Scanned α := ⟨n + r.used, r.value⟩

/-- A named class as it is written. -/
def namedSpelling (w : List UInt8) : List UInt8 := 0x5B :: 0x3A :: (w ++ [0x3A, 0x5D])

/-- Where the list of a bracket expression goes on with a named class, and `s` has been
    listed before, the class is taken as a unit: if `w` is the name of one, its bytes
    are added and reading resumes right behind, and otherwise the bracket that opens the
    class is reported. -/
def TakenAsUnit (d : Dialect) (openAt : Nat) (s : ByteSet) (offset : Nat)
    (w rest : List UInt8) : Prop :=
  match CharClass.ofSpelling? w with
  | some k =>
    bracketItems d openAt s offset (namedSpelling w ++ rest) =
      (bracketItems d openAt (s ∪ k.members) (offset + (namedSpelling w).length) rest).after
        (namedSpelling w).length
  | none =>
    ∃ used, bracketItems d openAt s offset (namedSpelling w ++ rest) =
      ⟨used, .error ⟨.invalidClassName, offset⟩⟩

-- A byte other than the character's own is not the character.
theorem is_eq_false (ch : Char) (c : UInt8) (h : c ≠ UInt8.ofNat ch.toNat) :
    Byte.is ch c = false := by
  rw [Byte.is, beq_eq_false_iff_ne]
  exact fun hc => h (Byte.eq_of_char c ch hc)

/-- No class has a name with a colon in it. -/
theorem colon_notMem_of_ofSpelling? (w : List UInt8) (k : CharClass)
    (h : CharClass.ofSpelling? w = some k) : 0x3A ∉ w := by
  intro hcolon
  have hspelled : k.spelling? = some (w.map Byte.char) := by
    have hfound := List.find?_some h
    exact eq_of_beq hfound
  have hmem : ':' ∈ k.spelling?.getD [] := by
    rw [hspelled]
    exact List.mem_map_of_mem hcolon
  revert hmem
  cases k <;> decide

section Items

variable (d : Dialect) (openAt : Nat) (s : ByteSet) (offset : Nat)

/-- Where a named class is recognised, what precedes the first colon is its name: the
    bytes of the class are added and the byte behind the colon is skipped, or the name is
    an error. -/
theorem bracketItems_named (name rest : List UInt8) (hname : 0x3A ∉ name)
    (hopens : opensNamedClass (0x5B :: 0x3A :: (name ++ 0x3A :: rest)) = true) :
    bracketItems d openAt s offset (0x5B :: 0x3A :: (name ++ 0x3A :: rest)) =
      match CharClass.ofSpelling? name with
      | some k =>
        (bracketItems d openAt (s ∪ k.members) (offset + (name.length + 4)) (rest.drop 1)).after
          (name.length + 4)
      | none => ⟨2, .error ⟨.invalidClassName, offset⟩⟩ := by
  have hread := namedClass_name name rest offset fun c hc =>
    is_eq_false ':' c (ne_of_mem_of_not_mem hc hname)
  have hitem : bracketItem d openAt offset (0x5B :: 0x3A :: (name ++ 0x3A :: rest)) =
      namedClass offset (0x5B :: 0x3A :: (name ++ 0x3A :: rest)) := if_pos hopens
  rw [bracketItems, if_neg (by decide), hitem, hread]
  cases CharClass.ofSpelling? name with
  | none => rfl
  | some k =>
      -- The name, its two colons and one more byte are used behind the bracket.
      have hdrop : (0x3A :: (name ++ 0x3A :: rest)).drop (name.length + 4 - 1) = rest.drop 1 := by
        exact List.drop_length_add_append 2
      simp only [hdrop]
      rfl

variable (w rest : List UInt8) (hne : w ≠ []) (hbracket : 0x5D ∉ w)

include hne hbracket

/-- A named class that is written out is recognised, also if its name holds a colon. -/
theorem opensNamedClass_spelling : opensNamedClass (namedSpelling w ++ rest) = true := by
  rw [namedSpelling, List.cons_append, List.cons_append, List.append_assoc]
  exact opensNamedClass_named w rest hne fun c hc =>
    is_eq_false ']' c (ne_of_mem_of_not_mem hc hbracket)

-- The class is added that is named in front of the first colon.
theorem bracketItems_colon (u v : List UInt8) (hw : w = u ++ 0x3A :: v) (hu : 0x3A ∉ u) :
    bracketItems d openAt s offset (namedSpelling w ++ rest) =
      match CharClass.ofSpelling? u with
      | some k =>
        (bracketItems d openAt (s ∪ k.members) (offset + (u.length + 4))
          ((v ++ 0x3A :: 0x5D :: rest).drop 1)).after (u.length + 4)
      | none => ⟨2, .error ⟨.invalidClassName, offset⟩⟩ := by
  have hopens := opensNamedClass_spelling w rest hne hbracket
  have hinput : namedSpelling w ++ rest =
      0x5B :: 0x3A :: (u ++ 0x3A :: (v ++ 0x3A :: 0x5D :: rest)) := by
    simp only [namedSpelling, hw, List.cons_append, List.append_assoc, List.nil_append]
  rw [hinput] at hopens ⊢
  exact bracketItems_named d openAt s offset u _ hu hopens

/-- Where a bracket expression lists `[:w:]`, it takes it as a unit unless `w` holds a
    colon behind the name of a class. Then this class is added, the byte behind the colon is
    skipped, and what follows it is read as members. -/
theorem namedClass_unit :
    ((∀ u v, w = u ++ 0x3A :: v → CharClass.ofSpelling? u = none) →
        TakenAsUnit d openAt s offset w rest) ∧
      ∀ u v k, w = u ++ 0x3A :: v → CharClass.ofSpelling? u = some k →
        bracketItems d openAt s offset (namedSpelling w ++ rest) =
          (bracketItems d openAt (s ∪ k.members) (offset + (u.length + 4))
            ((v ++ 0x3A :: 0x5D :: rest).drop 1)).after (u.length + 4) := by
  constructor
  · intro hunknown
    by_cases hcolon : 0x3A ∈ w
    · -- Neither `w` nor what precedes its first colon is the name of a class.
      rcases List.eq_append_cons_of_mem hcolon with ⟨u, v, hw, hu⟩
      have hread := bracketItems_colon d openAt s offset w rest hne hbracket u v hw hu
      rw [hunknown u v hw] at hread
      have hnone : CharClass.ofSpelling? w = none := by
        by_contra hsome
        rcases Option.ne_none_iff_exists'.1 hsome with ⟨k, hk⟩
        exact colon_notMem_of_ofSpelling? w k hk hcolon
      rw [TakenAsUnit, hnone]
      exact ⟨2, hread⟩
    · have hopens := opensNamedClass_spelling w rest hne hbracket
      have hinput : namedSpelling w ++ rest = 0x5B :: 0x3A :: (w ++ 0x3A :: 0x5D :: rest) := by
        simp only [namedSpelling, List.cons_append, List.append_assoc, List.nil_append]
      have hlength : (namedSpelling w).length = w.length + 4 := by
        simp only [namedSpelling, List.length_cons, List.length_append, List.length_nil]
      rw [hinput] at hopens
      have hread := bracketItems_named d openAt s offset w (0x5D :: rest) hcolon hopens
      rw [TakenAsUnit, hinput, hlength, hread]
      cases CharClass.ofSpelling? w with
      | none => exact ⟨2, rfl⟩
      | some k => rfl
  · intro u v k hw hk
    have hu := colon_notMem_of_ofSpelling? u k hk
    rw [bracketItems_colon d openAt s offset w rest hne hbracket u v hw hu, hk]

end Items

-- In `[[:alpha:]]` the class is taken as a unit behind the bracket.
theorem namedClass_unit_alpha :
    [0x61, 0x6C, 0x70, 0x68, 0x61] ≠ ([] : List UInt8) ∧
      (0x5D : UInt8) ∉ [0x61, 0x6C, 0x70, 0x68, 0x61] ∧
      TakenAsUnit .perl 0 ∅ 1 [0x61, 0x6C, 0x70, 0x68, 0x61] [0x5D] := by
  refine ⟨by decide, by decide, ?_⟩
  refine (namedClass_unit .perl 0 ∅ 1 _ [0x5D] (by decide) (by decide)).1 fun u v hw => ?_
  have hcolon : (0x3A : UInt8) ∈ [0x61, 0x6C, 0x70, 0x68, 0x61] := by
    rw [hw]
    exact List.mem_append_right u List.mem_cons_self
  exact absurd hcolon (by decide)

/-- In `[[:alpha:x:]]` the name `alpha:x` is not one of a class, but nothing is reported:
    the letters are listed, and the expression ends at the first closing bracket. -/
theorem namedClass_split :
    (0x5D : UInt8) ∉ [0x61, 0x6C, 0x70, 0x68, 0x61, 0x3A, 0x78] ∧
      CharClass.ofSpelling? [0x61, 0x6C, 0x70, 0x68, 0x61, 0x3A, 0x78] = none ∧
      ¬ TakenAsUnit .perl 0 ∅ 1 [0x61, 0x6C, 0x70, 0x68, 0x61, 0x3A, 0x78] [0x5D] := by
  have hunknown : CharClass.ofSpelling? [0x61, 0x6C, 0x70, 0x68, 0x61, 0x3A, 0x78] = none := by
    decide
  refine ⟨by decide, hunknown, fun h => ?_⟩
  rw [TakenAsUnit, hunknown] at h
  rcases h with ⟨used, hused⟩
  have hread : (bracketItems .perl 0 ∅ 1 (namedSpelling
      [0x61, 0x6C, 0x70, 0x68, 0x61, 0x3A, 0x78] ++ [0x5D])).value.isOk = true := by
    decide +kernel
  rw [hused] at hread
  exact Bool.false_ne_true hread

end Pattern

end ByteRegex
