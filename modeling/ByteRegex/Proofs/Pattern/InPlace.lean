import ByteRegex.Pattern.InPlace
import ByteRegex.Proofs.Pattern.ErrorPlaces

/-!
# The Lexer Stays in the Pattern

The lexer that works in place does what the scanners do, and never goes astray. `Follows`
says so of one walk and one scanner, from one cursor: the walk has an outcome, which is the
value or error of the scanner, and the cursor has moved on by the bytes that the scanner
uses and not past the end. It passes from the parts of a walk to the whole, each part being
asked only at the cursors that the parts before it can reach, so what remains are the
places where the walk relies on something that has been seen before.

There are four. A byte is skipped only where it has been looked at. The offset in front of
the cursor is named behind a byte that has been read. A named class is read only where one
opens: there is a colon in front of the first closing bracket, so the name ends before it,
and the byte behind the first colon is there, whatever it is. And the loop through the items
goes on only behind an item, which has at least one byte.

## Main definitions

* `Follows`: A walk ends as a scanner does, inside the pattern.

## Theorems

* `follows_bind`: Walks that follow scanners follow their sequence.
* `digitsFrom_eq`: The loop through the digits stops where they do.
* `follows_escapeValue`: An escape, with its letter read.
* `colon_of_opensNamedClass`: The name of a class ends in the pattern.
* `follows_namedClass`: A named class, where one opens.
* `follows_bracketItems`: The loop through the items comes to its end.
* `lexer_inPattern`: The lexer never goes astray.
-/

namespace ByteRegex

namespace Pattern

namespace InPlace

/-- From the cursor `p` the walk ends as the scanner does: with its value or error, and with
    the cursor behind what the scanner uses, which is in the pattern. -/
structure Follows {α : Type} (pattern : Bytes) (p : Nat) (x : Walk α) (s : Scan α) : Prop where
  inPattern : p + (s.runAt pattern p).used ≤ pattern.size
  outcome : x p pattern = some ((s.runAt pattern p).value, p + (s.runAt pattern p).used)

section Walks

variable {α β : Type} {pattern : Bytes} {p : Nat}

-- What a sequence of walks does once the first one has ended.
theorem walk_bind_ok (x : Walk α) (f : α → Walk β) (a : α) (q : Nat)
    (h : x p pattern = some (.ok a, q)) : (x >>= f) p pattern = f a q pattern := by
  change (x p pattern).bind _ = _
  rw [h]
  rfl

theorem walk_bind_error (x : Walk α) (f : α → Walk β) (e : PatternError) (q : Nat)
    (h : x p pattern = some (.error e, q)) : (x >>= f) p pattern = some (.error e, q) := by
  change (x p pattern).bind _ = _
  rw [h]
  rfl

-- The scanner sees the bytes from the cursor on.
theorem follows_of_scanned {x : Walk α} {s : Scan α} (used : Nat) (value : Except PatternError α)
    (hs : s p (pattern.toList.drop p) = ⟨used, value⟩) (hin : p + used ≤ pattern.size)
    (hx : x p pattern = some (value, p + used)) : Follows pattern p x s := by
  have hrun : s.runAt pattern p = ⟨used, value⟩ := hs
  constructor <;> rw [hrun]
  · exact hin
  · exact hx

/-- Walks that follow scanners follow their sequence. -/
theorem follows_bind {x : Walk α} {s : Scan α} {f : α → Walk β} {g : α → Scan β}
    (hx : Follows pattern p x s)
    (hf : ∀ used a, s.runAt pattern p = ⟨used, .ok a⟩ → p + used ≤ pattern.size →
      Follows pattern (p + used) (f a) (g a)) :
    Follows pattern p (x >>= f) (s >>= g) := by
  rcases hx with ⟨hin, hout⟩
  cases hread : s.runAt pattern p with
  | mk used value =>
      rw [hread] at hin hout
      have hread' : s p (pattern.toList.drop p) = ⟨used, value⟩ := hread
      cases value with
      | error e =>
          refine follows_of_scanned used (.error e) ?_ hin (walk_bind_error x f e _ hout)
          change Scan.bind s g p _ = _
          simp only [Scan.bind, hread']
      | ok a =>
          rcases hf used a hread hin with ⟨hin', hout'⟩
          rw [Nat.add_assoc] at hin' hout'
          refine follows_of_scanned (used + ((g a).runAt pattern (p + used)).used)
            ((g a).runAt pattern (p + used)).value ?_ hin' ?_
          · change Scan.bind s g p _ = _
            simp only [Scan.bind, hread', List.drop_drop]
            rfl
          · rw [walk_bind_ok x f a _ hout, hout']

-- The byte at the cursor is the next that the scanner sees, if there is one.
theorem head_cases (pattern : Bytes) (p : Nat) :
    (pattern[p]? = none ∧ pattern.toList.drop p = [] ∧ pattern.size ≤ p) ∨
      ∃ c, pattern[p]? = some c ∧ pattern.toList.drop p = c :: pattern.toList.drop (p + 1) ∧
        p < pattern.size := by
  rcases Nat.lt_or_ge p pattern.size with hlt | hge
  · refine Or.inr ⟨pattern[p], Array.getElem?_eq_getElem hlt, ?_, hlt⟩
    rw [List.drop_eq_getElem_cons (by rwa [Array.length_toList]), Array.getElem_toList]
  · refine Or.inl ⟨Array.getElem?_eq_none hge, ?_, hge⟩
    exact List.drop_eq_nil_of_le (by rwa [Array.length_toList])

theorem bind_peek (f : Option UInt8 → Walk β) :
    (peek >>= f) p pattern = f pattern[p]? p pattern := rfl

theorem bind_read (f : Bytes → Walk β) :
    ((read : Walk Bytes) >>= f) p pattern = f pattern p pattern := rfl

theorem bind_get (f : Nat → Walk β) :
    ((get : Walk Nat) >>= f) p pattern = f p p pattern := rfl

-- Only the offset zero has none in front of it.
theorem bind_before (offset : Nat) (f : Nat → Walk β) (h : offset ≠ 0) :
    (before offset >>= f) p pattern = f (offset - 1) p pattern := by
  rw [before, if_neg h]
  rfl

theorem bind_advance (n : Nat) (f : Unit → Walk β) :
    (advance n >>= f) p pattern = f () (p + n) pattern := rfl

section Steps

variable (hp : p ≤ pattern.size)

include hp

theorem follows_pure (a : α) : Follows pattern p (pure a) (pure a) := ⟨hp, rfl⟩

theorem follows_throw (cause : PatternError.Cause) (offset : Nat) :
    Follows pattern p (throw ⟨cause, offset⟩ : Walk α) (Scan.fail cause offset) := ⟨hp, rfl⟩

theorem follows_here : Follows pattern p get Scan.here := ⟨hp, rfl⟩

theorem follows_fetch : Follows pattern p fetch Scan.fetch := by
  rcases head_cases pattern p with ⟨hc, hrest, _⟩ | ⟨c, hc, hrest, hlt⟩
  · refine follows_of_scanned 0 (.ok none) (by rw [hrest]; rfl) hp ?_
    rw [fetch, bind_peek, hc]
    rfl
  · have hscan : Scan.fetch p (c :: pattern.toList.drop (p + 1)) = ⟨1, .ok (some c)⟩ :=
      reads_fetch p c _
    refine follows_of_scanned 1 (.ok (some c)) (by rw [hrest, hscan]) hlt ?_
    rw [fetch, bind_peek, hc]
    rfl

theorem follows_acceptsIf (test : UInt8 → Bool) :
    Follows pattern p (acceptsIf test) (Scan.acceptsIf test) := by
  have hhead : (pattern.toList.drop p).head? = pattern[p]? := by
    rw [List.head?_drop, Array.getElem?_toList]
  by_cases htest : (pattern[p]?).any test = true
  · have hlt : p < pattern.size := by
      by_contra hge
      rw [Array.getElem?_eq_none (by omega)] at htest
      exact Bool.false_ne_true htest
    refine follows_of_scanned 1 (.ok true) ?_ hlt ?_
    · rw [Scan.acceptsIf, hhead, if_pos htest]
    · rw [acceptsIf, bind_peek, if_pos htest]
      rfl
  · refine follows_of_scanned 0 (.ok false) ?_ hp ?_
    · rw [Scan.acceptsIf, hhead, if_neg htest]
    · rw [acceptsIf, bind_peek, if_neg htest]
      rfl

-- Behind a byte that has been read, the offset of that byte can be named.
omit hp in
theorem follows_behind {f : Nat → Walk α} {g : Nat → Scan α} (hpos : 0 < p)
    (h : Follows pattern p (f (p - 1)) (g p)) :
    Follows pattern p (get >>= fun q => before q >>= f) (Scan.here >>= g) := by
  refine follows_of_scanned _ _ (bind_of_reads_nil _ _ p _ p (reads_here p _)) h.inPattern ?_
  rw [bind_get, bind_before _ _ (Nat.ne_of_gt hpos)]
  exact h.outcome

-- Whoever stands in front of a byte can skip it.
omit hp in
theorem follows_skip (hlt : p < pattern.size) :
    Follows pattern p (advance 1) (Scan.skip 1) := by
  refine follows_of_scanned 1 (.ok ()) ?_ hlt rfl
  have hlength : (pattern.toList.drop p).length = pattern.size - p := by
    rw [List.length_drop, Array.length_toList]
  rw [Scan.skip, hlength, Nat.min_eq_left (by omega)]

end Steps

end Walks

section Numbers

variable {pattern : Bytes} {p : Nat} (base : Nat) (limit : Option Nat)

/-- The bytes that a limit leaves of an input. -/
def limited (limit : Option Nat) (input : List UInt8) : List UInt8 :=
  limit.elim input input.take

theorem limited_cons (c : UInt8) (rest : List UInt8) (h : limit ≠ some 0) :
    limited limit (c :: rest) = c :: limited (limit.map (· - 1)) rest := by
  cases limit with
  | none => rfl
  | some n =>
      cases n with
      | zero => exact absurd rfl h
      | succ n => exact List.take_succ_cons

-- The loop stops where the digits do.
theorem digitsFrom_eq (pattern : Bytes) (p : Nat) :
    digitsFrom base limit pattern p =
      (Pattern.digits base (limited limit (pattern.toList.drop p)),
        p + (Pattern.digits base (limited limit (pattern.toList.drop p))).length) := by
  fun_induction digitsFrom base limit pattern p with
  | case1 p => rfl
  | case2 limit p hlimit hlt hnone =>
      rcases head_cases pattern p with ⟨_, _, hge⟩ | ⟨c, hc, hrest, _⟩
      · omega
      · rw [hc, Option.bind_some] at hnone
        rw [hrest, limited_cons limit c _ hlimit, Pattern.digits, hnone]
        rfl
  | case3 limit p hlimit hlt v hv ds q heq ih =>
      rcases head_cases pattern p with ⟨_, _, hge⟩ | ⟨c, hc, hrest, _⟩
      · omega
      · rw [hc, Option.bind_some] at hv
        rw [heq, Prod.mk.injEq] at ih
        rw [hrest, limited_cons limit c _ hlimit, Pattern.digits, hv, ih.1, ih.2]
        simp only [List.length_cons, Nat.add_assoc, Nat.add_comm 1]
  | case4 limit p hlimit hge =>
      rcases head_cases pattern p with ⟨_, hrest, _⟩ | ⟨_, _, _, hlt⟩
      · rw [hrest]
        cases limit with
        | none => rfl
        | some n => rw [limited, Option.elim_some, List.take_nil]; rfl
      · exact absurd hlt hge

variable (hp : p ≤ pattern.size)

include hp

theorem follows_digits (most : Nat)
    (h : limited limit (pattern.toList.drop p) = (pattern.toList.drop p).take most) :
    Follows pattern p (digits base limit) (Scan.digits base most) := by
  have hbound : (Pattern.digits base ((pattern.toList.drop p).take most)).length ≤
      pattern.size - p := by
    rw [← Array.length_toList, ← List.length_drop]
    exact Scan.inBounds_digits base most p (pattern.toList.drop p)
  refine follows_of_scanned _ _ rfl (Nat.add_le_of_le_sub' hp hbound) ?_
  change some (Except.ok (digitsFrom base limit pattern p).1,
    (digitsFrom base limit pattern p).2) = _
  rw [digitsFrom_eq, h]

theorem follows_boundedNumber (least most : Nat)
    (h : limited limit (pattern.toList.drop p) = (pattern.toList.drop p).take most) :
    Follows pattern p (boundedNumber base least limit) (Scan.boundedNumber base least most) :=
  follows_bind (follows_digits base limit hp most h) fun _ _ _ hin => follows_pure hin _

-- A number without a limit is limited by what is left of the pattern.
theorem follows_number : Follows pattern p number Scan.number := by
  have h := follows_boundedNumber 10 none hp 1 (pattern.toList.drop p).length
    List.take_length.symm
  exact ⟨h.inPattern, h.outcome⟩

theorem follows_requiredNumber (most escapeAt : Nat) :
    Follows pattern p (requiredNumber base most escapeAt)
      (Pattern.requiredNumber base most escapeAt) := by
  refine follows_bind (follows_boundedNumber base (some most) hp 1 most rfl) fun _ code _ hin => ?_
  cases code with
  | none => exact follows_throw hin _ _
  | some code => exact follows_pure hin code

theorem follows_bracedNumber (escapeAt : Nat) :
    Follows pattern p (bracedNumber base escapeAt) (Pattern.bracedNumber base escapeAt) := by
  refine follows_bind (follows_requiredNumber base hp 11 escapeAt) fun _ code _ hin => ?_
  refine follows_bind (follows_fetch hin) fun _ close _ hin => ?_
  split
  · exact follows_pure hin code
  · exact follows_throw hin _ _

end Numbers

section Escapes

variable {pattern : Bytes} {p : Nat} (hp : p ≤ pattern.size) (letter : UInt8) (escapeAt : Nat)

include hp

theorem follows_escapeCode :
    Follows pattern p (escapeCode letter escapeAt) (Pattern.escapeCode letter escapeAt) := by
  unfold escapeCode Pattern.escapeCode
  generalize Byte.char letter = ch
  split
  · refine follows_bind (follows_acceptsIf hp _) fun _ brace _ hin => ?_
    split
    · exact follows_bind (follows_bracedNumber 16 hin escapeAt) fun _ _ _ hin => follows_pure hin _
    · exact follows_bind (follows_requiredNumber 16 hin 2 escapeAt) fun _ _ _ hin =>
        follows_pure hin _
  · exact follows_bind (follows_requiredNumber 16 hp 4 escapeAt) fun _ _ _ hin =>
      follows_pure hin _
  · refine follows_bind (follows_fetch hp) fun _ brace _ hin => ?_
    split
    · exact follows_bind (follows_bracedNumber 8 hin escapeAt) fun _ _ _ hin => follows_pure hin _
    · exact follows_throw hin _ _
  · exact follows_boundedNumber 8 (some 3) hp 0 3 rfl
  · by_cases hdigit : Byte.isDigit letter = true
    · simp only [hdigit, if_true]
      exact follows_bind (follows_digits 10 (some 2) hp 2 rfl) fun _ _ _ hin => follows_pure hin _
    · simp only [hdigit, Bool.false_eq_true, if_false]
      exact follows_pure hp none

theorem follows_escapeValue :
    Follows pattern p (escapeValue letter escapeAt) (Pattern.escapeValue letter escapeAt) := by
  unfold escapeValue Pattern.escapeValue
  cases controlEscape? letter with
  | some c => exact follows_pure hp _
  | none =>
      exact follows_bind (follows_escapeCode hp letter escapeAt) fun _ _ _ hin =>
        follows_pure hin _

end Escapes

section Brackets

variable {pattern : Bytes} {p : Nat} (d : Dialect) (openAt : Nat)

theorem follows_bracketMember (hp : p ≤ pattern.size) :
    Follows pattern p (bracketMember d openAt) (Pattern.bracketMember d openAt) := by
  refine follows_bind (follows_here hp) fun _ start _ hin => ?_
  refine follows_bind (follows_fetch hin) fun _ first _ hin => ?_
  cases first with
  | none => exact follows_throw hin _ _
  | some c =>
      simp only []
      split
      · refine follows_bind (follows_fetch hin) fun _ second _ hin => ?_
        cases second with
        | none => exact follows_throw hin _ _
        | some letter =>
            simp only []
            cases (if d.has .classShorthands then classShorthand? letter else none) with
            | some s => exact follows_pure hin _
            | none =>
                exact follows_bind (follows_escapeValue hin letter start) fun _ _ _ hin =>
                  follows_pure hin _
      · exact follows_pure hin _

theorem follows_continuesRange (hp : p ≤ pattern.size) :
    Follows pattern p continuesRange (Scan.ahead Pattern.continuesRange) := by
  refine follows_of_scanned 0 (.ok (Pattern.continuesRange (pattern.toList.drop p))) rfl hp ?_
  rw [continuesRange, bind_read, bind_get]
  rcases head_cases pattern p with ⟨hc, hrest, _⟩ | ⟨c, hc, hrest, _⟩
  · rw [hc, hrest]
    rfl
  · rw [hc, hrest]
    rcases head_cases pattern (p + 1) with ⟨hnext, hmore, _⟩ | ⟨next, hnext, hmore, _⟩
    · rw [hnext, hmore]
      simp only [Option.any_none, Bool.and_false]
      rfl
    · rw [hnext, hmore]
      rfl

-- A range that goes on has a hyphen to skip.
theorem lt_of_continuesRange (h : Pattern.continuesRange (pattern.toList.drop p) = true) :
    p < pattern.size := by
  rcases head_cases pattern p with ⟨_, hrest, _⟩ | ⟨_, _, _, hlt⟩
  · rw [hrest] at h
    exact absurd h Bool.false_ne_true
  · exact hlt

theorem follows_bracketRange (hp : p ≤ pattern.size) :
    Follows pattern p (bracketRange d openAt) (Pattern.bracketRange d openAt) := by
  refine follows_bind (follows_here hp) fun _ start _ hin => ?_
  refine follows_bind (follows_bracketMember d openAt hin) fun _ low _ hin => ?_
  cases low with
  | set s => exact follows_pure hin _
  | byte low =>
      refine follows_bind (follows_continuesRange hin) fun used continues hread hin => ?_
      rw [Scan.runAt, Scan.ahead, Scanned.mk.injEq, Except.ok.injEq] at hread
      rcases hread with ⟨rfl, rfl⟩
      split
      · rename_i hahead
        refine follows_bind (follows_skip (lt_of_continuesRange hahead)) fun _ _ _ hin => ?_
        refine follows_bind (follows_bracketMember d openAt hin) fun _ high _ hin => ?_
        cases high with
        | set s => exact follows_throw hin _ _
        | byte high =>
            simp only []
            split
            · exact follows_throw hin _ _
            · exact follows_pure hin _
      · exact follows_pure hin _

end Brackets

section Slices

variable {pattern : Bytes} {p : Nat} (start : Nat)

-- A slice whose ends are in order and in the pattern is there.
theorem slice_eq (n : Nat) (h : start + n ≤ pattern.size) :
    slice start (start + n) p pattern = some (.ok ((pattern.toList.drop start).take n), p) := by
  have hbytes :
      (pattern.extract start (start + n)).toList = (pattern.toList.drop start).take n := by
    rw [Array.toList_extract, List.extract_eq_take_drop, Nat.add_sub_cancel_left]
  rw [slice, bind_read, if_pos ⟨Nat.le_add_right start n, h⟩, hbytes]
  rfl

theorem sliceFrom_eq (h : start ≤ pattern.size) :
    sliceFrom start p pattern = some (.ok (pattern.toList.drop start), p) := by
  have hend : start + (pattern.size - start) = pattern.size := Nat.add_sub_cancel' h
  have hlength : (pattern.toList.drop start).length ≤ pattern.size - start := by
    rw [List.length_drop, Array.length_toList]
  rw [sliceFrom, bind_read, ← hend, slice_eq start _ (Nat.le_of_eq hend),
    List.take_of_length_le hlength]

theorem byteAt_eq (i : Nat) (c : UInt8) (h : pattern[i]? = some c) :
    byteAt i p pattern = some (.ok c, p) := by
  rw [byteAt, bind_read, h]
  rfl

end Slices

section NamedClasses

theorem takeWhile_not (ch : Char) (input : List UInt8) :
    input.takeWhile (fun c => !Byte.is ch c) = input.take (input.findIdx (Byte.is ch)) := by
  rw [List.takeWhile_eq_take_findIdx_not]
  simp only [Bool.not_not]

-- What opens a named class is a colon in front of the first closing bracket.
theorem opensNamedClass_cons (bracket colon : UInt8) (rest : List UInt8)
    (hbracket : Byte.is '[' bracket = true) (hcolon : Byte.is ':' colon = true) :
    Pattern.opensNamedClass (bracket :: colon :: rest) =
      (rest.findIdx? (Byte.is ']')).any fun i =>
        decide (1 < i) && (rest[i - 1]?).any (Byte.is ':') := by
  rw [Pattern.opensNamedClass, hbracket, hcolon]
  simp only [takeWhile_not]
  cases hfound : rest.findIdx? (Byte.is ']') with
  | none =>
      rw [List.findIdx?_eq_none_iff_findIdx_eq] at hfound
      rw [hfound, List.take_length]
      simp only [Nat.lt_irrefl, decide_false, Bool.and_false, Bool.false_and, Option.any_none]
  | some i =>
      rcases List.findIdx?_eq_some_iff_findIdx_eq.1 hfound with ⟨hlt, hi⟩
      have hlength : (rest.take i).length = i := by
        rw [List.length_take, Nat.min_eq_left (Nat.le_of_lt hlt)]
      rw [hi, hlength, Option.any_some]
      by_cases hmore : 1 < i
      · have hbyte : rest[i - 1]? = some rest[i - 1] := List.getElem?_eq_getElem (by omega)
        have hlong : 2 ≤ i := hmore
        rw [List.getLast?_take, if_neg (by omega), hbyte, Option.some_or]
        simp only [hlt, hmore, hlong, decide_true, Bool.true_and]
      · have hshort : ¬ 2 ≤ i := hmore
        simp only [hshort, hmore, decide_false, Bool.and_false, Bool.false_and]

-- The name ends in the pattern, and so does the byte behind its colon.
theorem colon_of_opensNamedClass (input : List UInt8)
    (h : Pattern.opensNamedClass input = true) :
    ∃ bracket colon rest, input = bracket :: colon :: rest ∧
      rest.findIdx (Byte.is ':') + 2 ≤ rest.length := by
  match input with
  | [] => exact absurd h Bool.false_ne_true
  | [_] => exact absurd h Bool.false_ne_true
  | bracket :: colon :: rest =>
      refine ⟨bracket, colon, rest, rfl, ?_⟩
      have hopens : Byte.is '[' bracket = true ∧ Byte.is ':' colon = true := by
        simp only [Pattern.opensNamedClass, Bool.and_eq_true] at h
        exact ⟨h.1.1.1.1, h.1.1.1.2⟩
      rw [opensNamedClass_cons bracket colon rest hopens.1 hopens.2, Option.any_eq_true] at h
      rcases h with ⟨i, hfound, hi⟩
      rw [Bool.and_eq_true, decide_eq_true_eq, Option.any_eq_true] at hi
      rcases hi with ⟨hmore, b, hb, hcolon⟩
      have hlt := (List.findIdx?_eq_some_iff_findIdx_eq.1 hfound).1
      -- The colon in front of the bracket is not before the first one.
      have hfirst : rest.findIdx (Byte.is ':') ≤ i - 1 := by
        by_contra hlater
        have hnot := List.not_of_lt_findIdx (Nat.lt_of_not_le hlater)
        rw [(List.getElem?_eq_some_iff.1 hb).2, hcolon] at hnot
        exact absurd hnot.symm Bool.false_ne_true
      omega

end NamedClasses

section Items

variable {pattern : Bytes} {p : Nat}

-- The walk and the scanner agree on where a named class opens.
theorem opensNamedClass_eq (c : UInt8) (hc : pattern[p]? = some c)
    (hbracket : Byte.is '[' c = true) :
    opensNamedClass (p + 1) p pattern =
      some (.ok (Pattern.opensNamedClass (pattern.toList.drop p)), p) := by
  rcases head_cases pattern p with ⟨hnone, _⟩ | ⟨c', hc', hrest, _⟩
  · rw [hnone] at hc
    exact absurd hc (by simp only [reduceCtorEq, not_false_eq_true])
  obtain rfl : c' = c := Option.some.inj (hc'.symm.trans hc)
  rw [opensNamedClass, bind_read, hrest]
  rcases head_cases pattern (p + 1) with ⟨hnext, hmore, _⟩ | ⟨colon, hnext, hmore, hlt⟩
  · rw [hnext, hmore]
    rfl
  · rw [hnext, hmore, Option.any_some]
    by_cases hcolon : Byte.is ':' colon = true
    · rw [if_pos hcolon, walk_bind_ok _ _ _ p (sliceFrom_eq (p + 1 + 1) hlt),
        opensNamedClass_cons c' colon _ hbracket hcolon]
      cases hfound : (pattern.toList.drop (p + 1 + 1)).findIdx? (Byte.is ']') with
      | none => rfl
      | some i =>
          simp only [Option.any_some]
          by_cases hlong : 1 < i
          · -- The byte in front of the closing bracket is there, as the bracket is.
            have hi := (List.findIdx?_eq_some_iff_findIdx_eq.1 hfound).1
            rw [List.length_drop, Array.length_toList] at hi
            have hbyte : pattern[p + 1 + i]? = some pattern[p + 1 + i] :=
              Array.getElem?_eq_getElem (by omega)
            have hbefore : (pattern.toList.drop (p + 1 + 1))[i - 1]? = pattern[p + 1 + i]? := by
              rw [List.getElem?_drop, Array.getElem?_toList, show p + 1 + 1 + (i - 1) = p + 1 + i by
                omega]
            rw [if_pos hlong, walk_bind_ok _ _ _ p (byteAt_eq _ _ hbyte), hbefore, hbyte,
              decide_eq_true hlong]
            rfl
          · rw [if_neg hlong, decide_eq_false hlong]
            rfl
    · rw [if_neg hcolon]
      rw [Bool.not_eq_true] at hcolon
      simp only [Pattern.opensNamedClass, hcolon, Bool.and_false, Bool.false_and]
      rfl

/-- Where a named class opens, its name is there to be cut out, and the byte behind its colon
    to be skipped. -/
theorem follows_namedClass (h : Pattern.opensNamedClass (pattern.toList.drop p) = true) :
    Follows pattern p (advance 1 >>= fun _ => namedClass) Pattern.namedClass := by
  rcases colon_of_opensNamedClass _ h with ⟨bracket, colon, rest, hinput, hcolon⟩
  have hrest : pattern.toList.drop (p + 2) = rest := by
    rw [← List.drop_drop, hinput]
    rfl
  have hlength : rest.length = pattern.size - (p + 2) := by
    rw [← hrest, List.length_drop, Array.length_toList]
  have hfound : rest.findIdx? (Byte.is ':') = some (rest.findIdx (Byte.is ':')) :=
    List.findIdx?_eq_some_iff_findIdx_eq.2 ⟨by omega, rfl⟩
  have hname : (rest.takeWhile fun c => !Byte.is ':' c) = rest.take (rest.findIdx (Byte.is ':')) :=
    takeWhile_not ':' rest
  generalize rest.findIdx (Byte.is ':') = k at hcolon hfound hname
  have hbound : p + 2 + k ≤ pattern.size := by omega
  have hcut : slice (p + 2) (p + 2 + k) (p + 2) pattern = some (.ok (rest.take k), p + 2) := by
    rw [slice_eq _ k hbound, hrest]
  have hwalk : (advance 1 >>= fun _ => namedClass) p pattern =
      (CharClass.ofSpelling? (rest.take k)).elim (some (.error ⟨.invalidClassName, p⟩, p + 2))
        fun cls => some (.ok cls.members, p + 2 + k + 2) := by
    rw [bind_advance, namedClass, bind_get,
      bind_before _ _ (Nat.succ_ne_zero p), bind_advance, bind_get,
      walk_bind_ok _ _ _ (p + 2) (sliceFrom_eq (p + 1 + 1) (by omega)), hrest, hfound]
    simp only []
    rw [walk_bind_ok _ _ _ (p + 2) hcut]
    cases CharClass.ofSpelling? (rest.take k) <;> rfl
  have hscan : Pattern.namedClass p (pattern.toList.drop p) =
      (CharClass.ofSpelling? (rest.take k)).elim ⟨2, .error ⟨.invalidClassName, p⟩⟩
        fun cls => ⟨k + 4, .ok cls.members⟩ := by
    have htake : (rest.take k).length = k := by rw [List.length_take, Nat.min_eq_left (by omega)]
    rw [hinput]
    simp only [Pattern.namedClass, List.drop_succ_cons, List.drop_zero, hname, htake]
    cases CharClass.ofSpelling? (rest.take k) with
    | none => rfl
    | some cls => exact if_pos (by omega)
  cases hclass : CharClass.ofSpelling? (rest.take k) with
  | none =>
      rw [hclass, Option.elim_none] at hwalk hscan
      exact follows_of_scanned _ _ hscan (by omega) hwalk
  | some cls =>
      rw [hclass, Option.elim_some] at hwalk hscan
      refine follows_of_scanned _ _ hscan (by omega) (hwalk.trans ?_)
      rw [show p + 2 + k + 2 = p + (k + 4) by omega]

-- Where none opens, the walk may go astray: there is nothing to cut out at the end.
example : (advance 1 >>= fun _ => namedClass) 0 #[0x5B] = none := rfl

theorem atNamedClass_eq :
    atNamedClass p pattern =
      some (.ok (Pattern.opensNamedClass (pattern.toList.drop p)), p) := by
  rw [atNamedClass, bind_get, bind_peek]
  rcases head_cases pattern p with ⟨hc, hrest, _⟩ | ⟨c, hc, hrest, _⟩
  · rw [hc, hrest]
    rfl
  · rw [hc, Option.any_some]
    by_cases hbracket : Byte.is '[' c = true
    · rw [if_pos hbracket]
      exact opensNamedClass_eq c hc hbracket
    · -- Without the bracket no class opens, whatever else there is.
      have hnot : Pattern.opensNamedClass (c :: pattern.toList.drop (p + 1)) = false := by
        rw [Bool.not_eq_true] at hbracket
        cases pattern.toList.drop (p + 1) with
        | nil => rfl
        | cons colon more => simp only [Pattern.opensNamedClass, hbracket, Bool.false_and]
      rw [if_neg hbracket, hrest, hnot]
      rfl

variable (d : Dialect) (openAt : Nat)

theorem follows_bracketItem (hp : p ≤ pattern.size) :
    Follows pattern p (bracketItem d openAt) (Pattern.bracketItem d openAt) := by
  have hwalk : bracketItem d openAt p pattern =
      if Pattern.opensNamedClass (pattern.toList.drop p) then
        (advance 1 >>= fun _ => namedClass) p pattern
      else bracketRange d openAt p pattern := by
    rw [bracketItem, walk_bind_ok _ _ _ p atNamedClass_eq]
    split <;> rfl
  have hscan : Pattern.bracketItem d openAt p (pattern.toList.drop p) =
      if Pattern.opensNamedClass (pattern.toList.drop p) then
        Pattern.namedClass p (pattern.toList.drop p)
      else Pattern.bracketRange d openAt p (pattern.toList.drop p) := rfl
  by_cases hopens : Pattern.opensNamedClass (pattern.toList.drop p) = true
  · rw [if_pos hopens] at hwalk hscan
    have h := follows_namedClass hopens
    exact follows_of_scanned _ _ hscan h.inPattern (hwalk.trans h.outcome)
  · rw [if_neg hopens] at hwalk hscan
    have h := follows_bracketRange d openAt hp
    exact follows_of_scanned _ _ hscan h.inPattern (hwalk.trans h.outcome)

-- What the scanner does where the list goes on: it reads an item and goes on behind it.
theorem bracketItems_next (s : ByteSet) (c : UInt8) (used : Nat)
    (value : Except PatternError ByteSet) (hc : pattern[p]? = some c)
    (hopen : ¬ Byte.is ']' c = true)
    (hitem : (Pattern.bracketItem d openAt).runAt pattern p = ⟨used, value⟩) :
    (Pattern.bracketItems d openAt s).runAt pattern p =
      match value with
      | .error e => ⟨used, .error e⟩
      | .ok t =>
        ⟨used + ((Pattern.bracketItems d openAt (s ∪ t)).runAt pattern (p + used)).used,
          ((Pattern.bracketItems d openAt (s ∪ t)).runAt pattern (p + used)).value⟩ := by
  rcases head_cases pattern p with ⟨hnone, _⟩ | ⟨c', hc', hrest, _⟩
  · rw [hnone] at hc
    exact absurd hc (by simp only [reduceCtorEq, not_false_eq_true])
  obtain rfl : c' = c := Option.some.inj (hc'.symm.trans hc)
  rw [Scan.runAt, hrest] at hitem
  rw [Scan.runAt, hrest, Pattern.bracketItems, if_neg hopen, hitem]
  cases value with
  | error e => rfl
  | ok t =>
      -- An item has at least one byte, so the rest starts behind it.
      have hpos := bracketItem_used_pos p used _ t hitem
      have hdrop :
          (pattern.toList.drop (p + 1)).drop (used - 1) = pattern.toList.drop (p + used) := by
        rw [List.drop_drop, show p + 1 + (used - 1) = p + used by omega]
      simp only [hdrop]
      rfl

/-- The loop goes on only behind an item that has been read, and an item has at least one
    byte. So it comes to its end, by induction on what is left of the pattern. -/
theorem follows_bracketItems (s : ByteSet) (hp : p ≤ pattern.size) :
    Follows pattern p (bracketItems d openAt s) (Pattern.bracketItems d openAt s) := by
  induction hleft : pattern.size - p using Nat.strong_induction_on generalizing s p with
  | _ left ih =>
    rcases head_cases pattern p with ⟨_, hrest, hge⟩ | ⟨c, hc, hrest, hlt⟩
    · refine follows_of_scanned 0 (.error ⟨.unmatchedBracket, openAt⟩) ?_ hp ?_
      · rw [hrest, Pattern.bracketItems]
      · rw [bracketItems, if_neg (Nat.not_lt_of_le hge), Nat.add_zero]
    by_cases hclose : Byte.is ']' c = true
    · refine follows_of_scanned 1 (.ok s) ?_ hlt ?_
      · rw [hrest, Pattern.bracketItems, if_pos hclose]
      · rw [bracketItems, if_pos hlt, hc, Option.any_some, if_pos hclose]
    have hopen : ¬ (pattern[p]?).any (Byte.is ']') = true := by rwa [hc]
    rcases follows_bracketItem d openAt hp with ⟨hin, hout⟩
    cases hitem : (Pattern.bracketItem d openAt).runAt pattern p with
    | mk used value =>
        have hnext := bracketItems_next d openAt s c used value hc hclose hitem
        rw [hitem] at hin hout
        cases value with
        | error e =>
            refine follows_of_scanned _ _ hnext hin ?_
            rw [bracketItems, if_pos hlt, if_neg hopen, hout]
        | ok t =>
            have hpos := bracketItem_used_pos p used _ t hitem
            rcases ih (pattern.size - (p + used)) (by omega) (s ∪ t) hin rfl with ⟨hin', hout'⟩
            rw [Nat.add_assoc] at hin' hout'
            refine follows_of_scanned _ _ hnext hin' ?_
            rw [bracketItems, if_pos hlt, if_neg hopen, hout]
            simp only [if_pos (Nat.lt_add_of_pos_right hpos), hout']

end Items

section Expressions

variable {pattern : Bytes} {p : Nat}

theorem follows_bracketSet (d : Dialect) (ignoreCase : Bool) (hpos : 0 < p)
    (hp : p ≤ pattern.size) :
    Follows pattern p (bracketSet d ignoreCase) (Pattern.bracketSet d ignoreCase) := by
  refine follows_behind hpos ?_
  refine follows_bind (follows_acceptsIf hp _) fun _ negated _ hin => ?_
  refine follows_bind (follows_acceptsIf hin _) fun _ leading _ hin => ?_
  exact follows_bind (follows_bracketItems d _ _ hin) fun _ listed _ hin => follows_pure hin _

theorem follows_intervalBounds (openAt : Nat) (hp : p ≤ pattern.size) :
    Follows pattern p (intervalBounds openAt) (Pattern.intervalBounds openAt) := by
  refine follows_bind (follows_number hp) fun _ low _ hin => ?_
  refine follows_bind (follows_acceptsIf hin _) fun _ comma _ hin => ?_
  split
  · refine follows_bind (follows_number hin) fun _ high _ hin => ?_
    split
    · exact follows_throw hin _ _
    · exact follows_pure hin _
  · split
    · exact follows_throw hin _ _
    · exact follows_pure hin _

theorem follows_interval (hpos : 0 < p) (hp : p ≤ pattern.size) :
    Follows pattern p interval Pattern.interval := by
  refine follows_behind hpos ?_
  refine follows_bind (follows_intervalBounds _ hp) fun _ bounds _ hin => ?_
  refine follows_bind (follows_fetch hin) fun _ close _ hin => ?_
  cases close with
  | none => exact follows_throw hin _ _
  | some c =>
      simp only []
      split
      · exact follows_throw hin _ _
      · split
        · exact follows_throw hin _ _
        · exact follows_pure hin _

end Expressions

/-- From every cursor in the pattern the lexer comes to an end in the pattern, with the value
    or error of the scanner and the cursor behind what the scanner uses: it looks up no byte
    and cuts out no slice that is not there, names no offset in front of the first byte and
    reads nothing forever. An escape and a member of a bracket expression are read from any
    cursor, a bracket expression and an interval from any that is behind a byte, and a named
    class from where one opens. -/
theorem lexer_inPattern (d : Dialect) (ignoreCase : Bool) (pattern : Bytes) (p : Nat)
    (hp : p ≤ pattern.size) :
    (0 < p → Follows pattern p (bracketSet d ignoreCase) (Pattern.bracketSet d ignoreCase) ∧
        Follows pattern p interval Pattern.interval) ∧
      (Pattern.opensNamedClass (pattern.toList.drop p) = true →
        Follows pattern p (advance 1 >>= fun _ => namedClass) Pattern.namedClass) ∧
      (∀ openAt,
        Follows pattern p (bracketMember d openAt) (Pattern.bracketMember d openAt)) ∧
      ∀ letter escapeAt,
        Follows pattern p (escapeValue letter escapeAt) (Pattern.escapeValue letter escapeAt) :=
  ⟨fun hpos => ⟨follows_bracketSet d ignoreCase hpos hp, follows_interval hpos hp⟩,
    follows_namedClass, fun openAt => follows_bracketMember d openAt hp,
    fun letter escapeAt => follows_escapeValue hp letter escapeAt⟩

-- In `[[:alpha:]` the class is read up to the end of the pattern, where the closing bracket of
-- the expression is missing.
theorem lexer_inPattern_unclosed :
    1 ≤ 10 ∧
      Pattern.opensNamedClass [0x5B, 0x3A, 0x61, 0x6C, 0x70, 0x68, 0x61, 0x3A, 0x5D] = true ∧
      (advance 1 >>= fun _ => namedClass) 1
          #[0x5B, 0x5B, 0x3A, 0x61, 0x6C, 0x70, 0x68, 0x61, 0x3A, 0x5D] =
        some (.ok CharClass.alpha.members, 10) ∧
      bracketSet .perl false 1 #[0x5B, 0x5B, 0x3A, 0x61, 0x6C, 0x70, 0x68, 0x61, 0x3A, 0x5D] =
        some (.error ⟨.unmatchedBracket, 0⟩, 10) := by
  have hopens :
      Pattern.opensNamedClass [0x5B, 0x3A, 0x61, 0x6C, 0x70, 0x68, 0x61, 0x3A, 0x5D] = true := by
    decide
  have hinside := lexer_inPattern .perl false
    #[0x5B, 0x5B, 0x3A, 0x61, 0x6C, 0x70, 0x68, 0x61, 0x3A, 0x5D] 1 (by decide)
  have hclass : Pattern.namedClass.runAt
      #[0x5B, 0x5B, 0x3A, 0x61, 0x6C, 0x70, 0x68, 0x61, 0x3A, 0x5D] 1 =
        ⟨9, .ok CharClass.alpha.members⟩ := by
    rfl
  have hused : ((Pattern.bracketSet .perl false).runAt
      #[0x5B, 0x5B, 0x3A, 0x61, 0x6C, 0x70, 0x68, 0x61, 0x3A, 0x5D] 1).used = 9 := by
    decide +kernel
  have herror : ((Pattern.bracketSet .perl false).runAt
      #[0x5B, 0x5B, 0x3A, 0x61, 0x6C, 0x70, 0x68, 0x61, 0x3A, 0x5D] 1).value =
        .error ⟨.unmatchedBracket, 0⟩ := by
    decide +kernel
  refine ⟨by decide, hopens, ?_, ?_⟩
  · rw [(hinside.2.1 hopens).outcome, hclass]
    rfl
  · rw [(hinside.1 Nat.zero_lt_one).1.outcome, hused, herror]

end InPlace

end Pattern

end ByteRegex
