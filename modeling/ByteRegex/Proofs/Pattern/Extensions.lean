import ByteRegex.Proofs.Pattern.Brackets
import ByteRegex.Proofs.Program.BlockStructure

/-!
# Dialects Built on the Extended One

Perl, Ruby and Tre have all constructs of the extended dialect and at most two more: a
letter behind a backslash may stand for a class, and a question mark behind a quantifier
may make it lazy. A pattern that does not write such a letter, and that the extended
dialect accepts, means the same in all of them.

Two parsers run over the pattern in lockstep, and the tokens are where they could part.
A class letter is ruled out by the pattern. That the suffix is ruled out too is not for
the token to say: behind a quantifier both dialects find the question mark, one reads it
as a suffix and the other as a quantifier of its own. But a quantified block cannot be
quantified, so the second reading is an error, and a pattern that is accepted does not
get there.

Tre has no lazy quantifiers, so there the two readings never part and the errors are the
same as well.

## Main definitions

* `Unabbreviated`: No shorthand for a class is written in an input.
* `Dialect.BuiltOnExtended`: A dialect has the constructs of the extended one.
* `Scan.AgreeUnabbreviated`: Two scanners do the same on such inputs.
* `Suffixed`: A quantifier has a question mark behind it.
* `Token.AgreeBehind`: Two scanners read the same token, unless it is suffixed.

## Theorems

* `bracketSet_agrees`: A bracket expression is read in the same way.
* `starting_agrees`: So is a token, unless it is a quantifier with a suffix.
* `run_extends`: So are the tokens of a pattern that is accepted.
* `run_agrees`: So are all tokens in a dialect without lazy quantifiers.
* `compile_extends`: The dialects extend the extended one conservatively.
-/

namespace ByteRegex

/-- A dialect has the constructs of the extended one, and besides these at most lazy
    quantifiers and shorthands for classes. -/
def Dialect.BuiltOnExtended (d : Dialect) : Prop :=
  ∀ c : Construct, c ≠ .lazySuffix → c ≠ .classShorthands → d.has c = Dialect.extended.has c

theorem builtOnExtended (d : Dialect) (h : d ∈ [Dialect.perl, .ruby, .tre]) :
    d.BuiltOnExtended := by
  intro c hlazy hclass
  simp only [List.mem_cons, List.not_mem_nil, or_false] at h
  rcases h with rfl | rfl | rfl <;> cases c <;> first | rfl | contradiction

namespace Pattern

/-- No shorthand for a class is written in an input: no backslash has one of the letters
    right behind it. -/
def Unabbreviated (input : List UInt8) : Prop := ∀ s : Shorthand, ¬ s.spelled <:+: input

theorem unabbreviated_drop (input : List UInt8) (n : Nat) (h : Unabbreviated input) :
    Unabbreviated (input.drop n) :=
  fun s hs => h s (hs.trans (List.drop_suffix n input).isInfix)

-- A letter that stands for a class is the letter of a shorthand.
theorem exists_shorthand (letter : UInt8) (s : ByteSet) (h : classShorthand? letter = some s) :
    ∃ sh : Shorthand, sh.letter = letter := by
  unfold classShorthand? at h
  split at h
  · rename_i hc
    exact ⟨⟨.digit, false⟩, (Byte.eq_of_char letter _ hc).symm⟩
  · rename_i hc
    exact ⟨⟨.word, false⟩, (Byte.eq_of_char letter _ hc).symm⟩
  · rename_i hc
    exact ⟨⟨.space, false⟩, (Byte.eq_of_char letter _ hc).symm⟩
  · rename_i hc
    exact ⟨⟨.digit, true⟩, (Byte.eq_of_char letter _ hc).symm⟩
  · rename_i hc
    exact ⟨⟨.word, true⟩, (Byte.eq_of_char letter _ hc).symm⟩
  · rename_i hc
    exact ⟨⟨.space, true⟩, (Byte.eq_of_char letter _ hc).symm⟩
  · exact absurd h (Option.some_ne_none s).symm

-- Behind a backslash no letter stands for a class.
theorem classShorthand?_unabbreviated (letter : UInt8) (rest : List UInt8)
    (h : Unabbreviated (0x5C :: letter :: rest)) : classShorthand? letter = none := by
  cases hs : classShorthand? letter with
  | none => rfl
  | some s =>
      rcases exists_shorthand letter s hs with ⟨sh, rfl⟩
      exact absurd ⟨[], rest, rfl⟩ (h sh)

/-- Two scanners do the same on inputs without shorthands. -/
def Scan.AgreeUnabbreviated {α : Type} (x y : Scan α) : Prop :=
  ∀ offset input, Unabbreviated input → x offset input = y offset input

theorem agree_refl {α : Type} (x : Scan α) : Scan.AgreeUnabbreviated x x := fun _ _ _ => rfl

theorem agree_bind {α β : Type} {x y : Scan α} {f g : α → Scan β}
    (hx : Scan.AgreeUnabbreviated x y) (hf : ∀ a, Scan.AgreeUnabbreviated (f a) (g a)) :
    Scan.AgreeUnabbreviated (x >>= f) (y >>= g) := by
  intro offset input h
  change Scan.bind x f offset input = Scan.bind y g offset input
  unfold Scan.bind
  rw [hx offset input h]
  split
  · rfl
  · rename_i used a _
    rw [hf a (offset + used) (input.drop used) (unabbreviated_drop input used h)]

section Brackets

variable (d d' : Dialect) (openAt : Nat)

-- Behind a backslash the dialect asks whether the letter stands for a class, and the
-- answer is no.
theorem bracketMember_agrees :
    Scan.AgreeUnabbreviated (bracketMember d openAt) (bracketMember d' openAt) := by
  intro offset input h
  rw [bracketMember, bracketMember, bind_of_reads_nil _ _ offset input offset (reads_here _ _),
    bind_of_reads_nil _ _ offset input offset (reads_here _ _)]
  cases input with
  | nil => rfl
  | cons c rest =>
      rw [bind_fetch_cons, bind_fetch_cons]
      by_cases hc : Byte.is '\\' c = true
      · simp only [if_pos hc]
        cases rest with
        | nil => rfl
        | cons letter more =>
            rw [Byte.eq_of_char c '\\' (eq_of_beq hc)] at h
            have hnone := classShorthand?_unabbreviated letter more h
            simp only [bind_fetch_cons, hnone, ite_self]
      · simp only [if_neg hc]

theorem bracketItem_agrees :
    Scan.AgreeUnabbreviated (bracketItem d openAt) (bracketItem d' openAt) := by
  intro offset input h
  have hrange : Scan.AgreeUnabbreviated (bracketRange d openAt) (bracketRange d' openAt) := by
    refine agree_bind (agree_refl _) fun start => ?_
    refine agree_bind (bracketMember_agrees d d' openAt) fun low => ?_
    cases low with
    | set s => exact agree_refl _
    | byte low =>
        refine agree_bind (agree_refl _) fun ahead => ?_
        cases ahead with
        | false => exact agree_refl _
        | true =>
            exact agree_bind (agree_refl _) fun _ =>
              agree_bind (bracketMember_agrees d d' openAt) fun _ => agree_refl _
  rw [bracketItem, bracketItem]
  split
  · rfl
  · exact hrange offset input h

-- The items of a list are read one after the other, by induction along them.
theorem bracketItems_agrees (s : ByteSet) :
    Scan.AgreeUnabbreviated (bracketItems d openAt s) (bracketItems d' openAt s) := by
  intro offset input h
  fun_induction bracketItems d openAt s offset input with
  | case1 s offset => rw [bracketItems]
  | case2 s offset c rest hc => rw [bracketItems, if_pos hc]
  | case3 s offset c rest hc used e hitem =>
      rw [bracketItem_agrees d d' openAt offset _ h] at hitem
      rw [bracketItems, if_neg hc, hitem]
  | case4 s offset c rest hc used t hitem more ih =>
      rw [bracketItem_agrees d d' openAt offset _ h] at hitem
      have hrest := unabbreviated_drop rest (used - 1) (unabbreviated_drop (c :: rest) 1 h)
      rw [bracketItems, if_neg hc, hitem]
      simp only [← ih hrest]
      rfl

/-- A bracket expression is read in the same way in all dialects. -/
theorem bracketSet_agrees (ignoreCase : Bool) :
    Scan.AgreeUnabbreviated (bracketSet d ignoreCase) (bracketSet d' ignoreCase) :=
  agree_bind (agree_refl _) fun _ => agree_bind (agree_refl _) fun _ =>
    agree_bind (agree_refl _) fun _ => agree_bind (bracketItems_agrees d d' _ _) fun _ =>
      agree_refl _

end Brackets

/-- What has been read is a quantifier, and the next byte is the suffix that makes it lazy
    where the dialect has one. -/
def Suffixed (d : Dialect) (input : List UInt8) (r : Scanned Token) : Prop :=
  d.has .lazySuffix = true ∧
    (∃ kind min max, r.value = .ok (.quantifier kind min max false)) ∧
    (input.drop r.used).head?.any (Byte.is '?') = true

/-- Behind the byte `c` two scanners read the same token, unless it is a quantifier with a
    suffix. -/
def Token.AgreeBehind (d : Dialect) (c : UInt8) (x y : Scan Token) : Prop :=
  ∀ offset rest, Unabbreviated (c :: rest) →
    x offset rest = y offset rest ∨ Suffixed d rest (y offset rest)

section Tokens

variable (d : Dialect) (c : UInt8)

theorem agreeBehind_of_agree {x y : Scan Token} (h : Scan.AgreeUnabbreviated x y) :
    Token.AgreeBehind d c x y :=
  fun offset rest hrest => Or.inl (h offset rest (unabbreviated_drop (c :: rest) 1 hrest))

-- Without the suffix a quantifier is the same in all dialects.
theorem quantifierToken_agrees (kind : Quantifier.Kind) (min : Nat) (max : Option Nat)
    (offset : Nat) (rest : List UInt8) :
    Token.quantifierToken d kind min max offset rest =
        Token.quantifierToken .extended kind min max offset rest ∨
      Suffixed d rest (Token.quantifierToken .extended kind min max offset rest) := by
  by_cases hlazy : d.has .lazySuffix = true
  · by_cases hmark : rest.head?.any (Byte.is '?') = true
    · exact Or.inr ⟨hlazy, ⟨kind, min, max, rfl⟩, hmark⟩
    · refine Or.inl ?_
      rw [Token.quantifierToken, Token.lazySuffix, if_pos hlazy, Scan.accepts,
        bind_of_reads_nil _ _ offset rest false
          (reads_acceptsIf_not _ offset rest (Bool.eq_false_iff.2 hmark))]
      rfl
  · refine Or.inl ?_
    rw [Token.quantifierToken, Token.lazySuffix, if_neg hlazy]
    rfl

-- The suffix of an interval stands behind its closing brace.
theorem intervalToken_agrees :
    Token.AgreeBehind d c
      (interval >>= fun b => Token.quantifierToken d .interval b.1 b.2)
      (interval >>= fun b => Token.quantifierToken .extended .interval b.1 b.2) := by
  intro offset rest _
  change Scan.bind interval _ offset rest = Scan.bind interval _ offset rest ∨
    Suffixed d rest (Scan.bind interval _ offset rest)
  unfold Scan.bind
  cases hinterval : interval offset rest with
  | mk used value =>
      cases value with
      | error e => exact Or.inl rfl
      | ok b =>
          rcases quantifierToken_agrees d .interval b.1 b.2 (offset + used) (rest.drop used)
            with h | ⟨hlazy, ⟨kind, min, max, hvalue⟩, hmark⟩
          · exact Or.inl (by simp only [h])
          · refine Or.inr ⟨hlazy, ⟨kind, min, max, hvalue⟩, ?_⟩
            rw [List.drop_drop] at hmark
            exact hmark

variable (hd : d.BuiltOnExtended)

include hd

-- The token of an escape is read in the same way if its letter stands for no class.
theorem escaped_agrees (start : Nat) (hc : Byte.char c = '\\') :
    Token.AgreeBehind d c (Token.escaped d start) (Token.escaped .extended start) := by
  intro offset rest h
  rw [Byte.eq_of_char c _ hc] at h
  refine Or.inl ?_
  rw [Token.escaped, Token.escaped]
  cases rest with
  | nil => rfl
  | cons letter more =>
      have hnone := classShorthand?_unabbreviated letter more h
      simp (disch := decide) only [bind_fetch_cons, hnone, ite_self, hd _]

/-- A token is read in the same way, unless it is a quantifier with a suffix. -/
theorem starting_agrees (ignoreCase : Bool) (start : Nat) :
    Token.AgreeBehind d c (Token.starting d ignoreCase c start)
      (Token.starting .extended ignoreCase c start) := by
  have hsame (x : Scan Token) : Token.AgreeBehind d c x x :=
    agreeBehind_of_agree d c (agree_refl x)
  have hquantifier (kind : Quantifier.Kind) (min : Nat) (max : Option Nat) :
      Token.AgreeBehind d c (Token.quantifierToken d kind min max)
        (Token.quantifierToken .extended kind min max) :=
    fun offset rest _ => quantifierToken_agrees d kind min max offset rest
  -- What a byte means is the same for all constructs but the two.
  unfold Token.starting
  simp +decide (disch := decide) only [hd _, if_true, if_false]
  split
  · rename_i hc
    exact escaped_agrees d c hd start hc
  · exact agreeBehind_of_agree d c (agree_bind (bracketSet_agrees d .extended ignoreCase)
      fun _ => agree_refl _)
  -- Of the other bytes three are quantifiers, and a fourth begins one.
  · exact hsame _
  · exact hquantifier _ _ _
  · exact hsame _
  · exact hquantifier _ _ _
  · exact hsame _
  · exact hquantifier _ _ _
  · exact intervalToken_agrees d c
  all_goals exact hsame _

end Tokens

-- A quantifier leaves a quantified block at the end.
theorem accept_quantifier (flags : CompileFlags) (p next : Parser) (start : Nat)
    (kind : Quantifier.Kind) (min : Nat) (max : Option Nat) (isLazy : Bool)
    (h : p.accept flags start (.quantifier kind min max isLazy) = .ok next) :
    ∃ q b before, next.level.current = .quantified q b :: before := by
  simp only [Parser.accept] at h
  split at h
  · rename_i l hl
    rw [← Except.ok.inj h]
    rcases Level.quantify?_cases _ l _ hl with ⟨b, before, _, _, rfl⟩ | ⟨_, c, before, _, _, rfl⟩
    · exact ⟨_, b, before, rfl⟩
    · exact ⟨_, _, _, rfl⟩
  · exact absurd h (by simp only [reduceCtorEq, not_false_eq_true])

-- To the extended dialect a question mark there is a quantifier with nothing to repeat.
theorem run_question_quantified (flags : CompileFlags) (p : Parser) (offset : Nat)
    (input : List UInt8) (q : Quantifier) (b : Block) (before : List Block)
    (hlevel : p.level.current = .quantified q b :: before)
    (hmark : input.head?.any (Byte.is '?') = true) :
    Parser.run ⟨.extended, flags⟩ p offset input = .error ⟨.emptyExpression, offset⟩ := by
  cases input with
  | nil => exact absurd hmark Bool.false_ne_true
  | cons c rest =>
      obtain rfl : c = 0x3F := Byte.eq_of_char c '?' (eq_of_beq hmark)
      have htoken : Token.starting .extended flags.ignoreCase 0x3F offset (offset + 1) rest =
          ⟨0, .ok (.quantifier .zeroOrOne 0 (some 1) false)⟩ := rfl
      have haccept : p.accept flags offset (.quantifier .zeroOrOne 0 (some 1) false) =
          .error ⟨.emptyExpression, offset⟩ := by
        simp only [Parser.accept, Level.quantify?, hlevel]
      rw [Parser.run]
      simp only [htoken, haccept]

section Runs

variable (d : Dialect) (hd : d.BuiltOnExtended) (flags : CompileFlags)

include hd

/-- The tokens of a pattern that the extended dialect accepts have the same effect in a
    dialect that is built on it, by induction along the tokens. -/
theorem run_extends (p p' : Parser) (offset : Nat) (input : List UInt8)
    (hinput : Unabbreviated input) (h : Parser.run ⟨.extended, flags⟩ p offset input = .ok p') :
    Parser.run ⟨d, flags⟩ p offset input = .ok p' := by
  fun_induction Parser.run ⟨.extended, flags⟩ p offset input with
  | case1 p offset => rw [Parser.run, h]
  | case2 p offset c rest used e hread =>
      exact absurd h (by simp only [reduceCtorEq, not_false_eq_true])
  | case3 p offset c rest used t hread e haccept =>
      exact absurd h (by simp only [reduceCtorEq, not_false_eq_true])
  | case4 p offset c rest used t hread next haccept ih =>
      have hrest := unabbreviated_drop rest used (unabbreviated_drop (c :: rest) 1 hinput)
      rcases starting_agrees d c hd flags.ignoreCase offset (offset + 1) rest hinput with
        htoken | ⟨_, ⟨kind, min, max, hvalue⟩, hmark⟩
      · rw [Parser.run]
        simp only [htoken, hread, haccept]
        exact ih hrest h
      · -- The suffix would have been an error.
        rw [hread] at hvalue hmark
        rw [Except.ok.inj hvalue] at haccept
        rcases accept_quantifier flags p next offset kind min max false haccept with
          ⟨q, b, before, hlevel⟩
        rw [run_question_quantified flags next _ _ q b before hlevel hmark] at h
        exact absurd h (by simp only [reduceCtorEq, not_false_eq_true])

/-- Without lazy quantifiers the tokens of every pattern have the same effect, errors
    included. -/
theorem run_agrees (hlazy : d.has .lazySuffix = false) (p : Parser) (offset : Nat)
    (input : List UInt8) (hinput : Unabbreviated input) :
    Parser.run ⟨d, flags⟩ p offset input = Parser.run ⟨.extended, flags⟩ p offset input := by
  have htoken (c : UInt8) (offset : Nat) (rest : List UInt8) (hrest : Unabbreviated (c :: rest)) :
      Token.starting d flags.ignoreCase c offset (offset + 1) rest =
        Token.starting .extended flags.ignoreCase c offset (offset + 1) rest := by
    rcases starting_agrees d c hd flags.ignoreCase offset (offset + 1) rest hrest with h | ⟨hhas, _⟩
    · exact h
    · rw [hlazy] at hhas
      exact absurd hhas Bool.false_ne_true
  fun_induction Parser.run ⟨.extended, flags⟩ p offset input with
  | case1 p offset => rw [Parser.run]
  | case2 p offset c rest used e hread =>
      rw [Parser.run]
      simp only [htoken c offset rest hinput, hread]
  | case3 p offset c rest used t hread e herror =>
      rw [Parser.run]
      simp only [htoken c offset rest hinput, hread, herror]
  | case4 p offset c rest used t hread next hnext ih =>
      rw [Parser.run]
      simp only [htoken c offset rest hinput, hread, hnext]
      exact ih (unabbreviated_drop rest used (unabbreviated_drop (c :: rest) 1 hinput))

-- A pattern that the extended dialect accepts has the same tree,
theorem parse_extends (pattern : Bytes) (hpattern : Unabbreviated pattern.toList) (t : Pattern)
    (h : parse ⟨.extended, flags⟩ pattern = .ok t) : parse ⟨d, flags⟩ pattern = .ok t := by
  rw [parse] at h ⊢
  cases hrun : Parser.run ⟨.extended, flags⟩ {} 0 pattern.toList with
  | error e =>
      rw [hrun] at h
      exact absurd h (by simp only [bind, Except.bind, reduceCtorEq, not_false_eq_true])
  | ok p =>
      rw [run_extends d hd flags {} p 0 _ hpattern hrun]
      rw [hrun] at h
      exact h

-- and without lazy quantifiers every pattern has the same tree or the same error.
theorem parse_agrees (hlazy : d.has .lazySuffix = false) (pattern : Bytes)
    (hpattern : Unabbreviated pattern.toList) :
    parse ⟨d, flags⟩ pattern = parse ⟨.extended, flags⟩ pattern := by
  rw [parse, parse, run_agrees d hd flags hlazy {} 0 _ hpattern]

end Runs

end Pattern

/-- The dialects that are built on the extended one extend it conservatively. A pattern
    without shorthands that the extended dialect accepts is accepted by each of them, with
    the same operations, groups and strategy; and Tre, which has no lazy quantifiers,
    refuses what the extended dialect refuses, for the same reason at the same place. -/
theorem compile_extends (flags : CompileFlags) (pattern : Bytes)
    (h : Pattern.Unabbreviated pattern.toList) :
    (∀ program, compile ⟨.extended, flags⟩ pattern = .ok program →
      ∀ d ∈ [Dialect.perl, .ruby, .tre],
        ∃ program', compile ⟨d, flags⟩ pattern = .ok program' ∧
          program'.operations = program.operations ∧ program'.groups = program.groups ∧
          program'.strategy = program.strategy) ∧
    ∀ e, compile ⟨.tre, flags⟩ pattern = .error e ↔
      compile ⟨.extended, flags⟩ pattern = .error e := by
  constructor
  · intro program hprogram d hd
    rcases compile_parse _ pattern program hprogram with ⟨t, hparse, rfl⟩
    refine ⟨Program.ofPattern ⟨d, flags⟩ t, ?_, rfl, rfl, rfl⟩
    rw [compile, Pattern.parse_extends d (builtOnExtended d hd) flags pattern h t hparse]
    rfl
  · intro e
    have htre : Dialect.tre ∈ [Dialect.perl, .ruby, .tre] := by decide
    rw [compile, compile, Pattern.parse_agrees .tre (builtOnExtended .tre htre) flags rfl pattern h]
    cases Pattern.parse ⟨.extended, flags⟩ pattern with
    | error e' => exact Iff.rfl
    | ok t =>
        have hok (program : Program) : (.ok program : Except PatternError Program) ≠ .error e := by
          simp only [ne_eq, reduceCtorEq, not_false_eq_true]
        exact iff_of_false (hok _) (hok _)

-- The pattern `([^\\a-c]|b){2,}\x64` is accepted by the extended dialect, and by Ruby with the
-- same operations. In `a+?` the suffix is a second quantifier, to the extended dialect and
-- to Tre.
theorem compile_extends_accepted :
    ∃ program program',
      Pattern.Unabbreviated [0x28, 0x5B, 0x5E, 0x5C, 0x5C, 0x61, 0x2D, 0x63, 0x5D, 0x7C, 0x62,
        0x29, 0x7B, 0x32, 0x2C, 0x7D, 0x5C, 0x78, 0x36, 0x34] ∧
      compile ⟨.extended, {}⟩ #[0x28, 0x5B, 0x5E, 0x5C, 0x5C, 0x61, 0x2D, 0x63, 0x5D, 0x7C, 0x62,
        0x29, 0x7B, 0x32, 0x2C, 0x7D, 0x5C, 0x78, 0x36, 0x34] = .ok program ∧
      compile ⟨.ruby, {}⟩ #[0x28, 0x5B, 0x5E, 0x5C, 0x5C, 0x61, 0x2D, 0x63, 0x5D, 0x7C, 0x62,
        0x29, 0x7B, 0x32, 0x2C, 0x7D, 0x5C, 0x78, 0x36, 0x34] = .ok program' ∧
      program'.operations = program.operations ∧
      compile ⟨.tre, {}⟩ #[0x61, 0x2B, 0x3F] = .error ⟨.emptyExpression, 2⟩ := by
  have hpattern : Pattern.Unabbreviated [0x28, 0x5B, 0x5E, 0x5C, 0x5C, 0x61, 0x2D, 0x63, 0x5D,
      0x7C, 0x62, 0x29, 0x7B, 0x32, 0x2C, 0x7D, 0x5C, 0x78, 0x36, 0x34] := by
    rintro ⟨_ | _ | _, _ | _⟩ <;> decide
  rcases exists_ok_of_isOk (compile ⟨.extended, {}⟩ #[0x28, 0x5B, 0x5E, 0x5C, 0x5C, 0x61, 0x2D,
    0x63, 0x5D, 0x7C, 0x62, 0x29, 0x7B, 0x32, 0x2C, 0x7D, 0x5C, 0x78, 0x36, 0x34])
    (by decide +kernel) with ⟨program, h⟩
  rcases (compile_extends {} _ hpattern).1 program h .ruby (by decide) with
    ⟨program', h', hoperations, _, _⟩
  refine ⟨program, program', hpattern, h, h', hoperations, ?_⟩
  refine ((compile_extends {} #[0x61, 0x2B, 0x3F] ?_).2 _).2 ?_
  · rintro ⟨_ | _ | _, _ | _⟩ <;> decide
  · with_unfolding_all rfl

end ByteRegex
