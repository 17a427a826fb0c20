import ByteRegex.Pattern.Parser

/-!
# Groups That Are Still Open

Whether a group is open can be seen from the tokens alone. A stretch of tokens is balanced
if each group that opens in it also closes in it, and the innermost group that is open is
the one whose opening delimiter has nothing but a balanced stretch behind it.

The parser does not look back. It keeps the open groups on a stack, each with the offset of
its opening delimiter, and what it says about them at the end it takes from there. The
stack agrees with the tokens at all times: below the last group and its balanced stretch
the tokens are again such a sequence, for the rest of the stack. One token keeps that, and
so do all of them.

## Main definitions

* `tokens`: The tokens of a pattern, each with its offset.
* `Token.Balanced`: Each group that opens among tokens also closes among them.
* `InnermostOpen`: The innermost group that tokens leave open.
* `Pending`: The groups on a stack are those that tokens leave open.

## Theorems

* `accept_pending`: A token keeps the stack in agreement with the tokens.
* `run_pending`: So do all the tokens of a byte sequence.
* `finish_innermost`: A group that is not closed is the innermost one open.
-/

namespace ByteRegex

namespace Pattern

/-- The tokens of the bytes that start at `offset`, each with the offset at which it
    starts, up to the first that cannot be read. -/
def tokens (d : Dialect) (ignoreCase : Bool) (offset : Nat) : List UInt8 → List (Nat × Token)
  | [] => []
  | c :: rest =>
    match Token.starting d ignoreCase c offset (offset + 1) rest with
    | ⟨_, .error _⟩ => []
    | ⟨used, .ok t⟩ =>
      (offset, t) :: tokens d ignoreCase (offset + 1 + used) (rest.drop used)
  termination_by input => input.length
  decreasing_by simp only [List.length_drop, List.length_cons]; omega

/-- Whether a token opens or closes a group. -/
def Token.isDelimiter : Token → Bool
  | .openGroup _ => true
  | .closeGroup _ => true
  | _ => false

/-- Each group that opens among tokens also closes among them, with a delimiter of the same
    kind, and none closes that did not open. -/
inductive Token.Balanced : List Token → Prop
  | nil : Balanced []
  | cons (t : Token) (after : List Token) (ht : t.isDelimiter = false)
      (hafter : Balanced after) : Balanced (t :: after)
  | group (d : Delimiter) (inside after : List Token) (hinside : Balanced inside)
      (hafter : Balanced after) :
      Balanced (.openGroup d :: (inside ++ .closeGroup d :: after))

theorem Token.balanced_append (ts more : List Token) (h : Token.Balanced ts)
    (hmore : Token.Balanced more) : Token.Balanced (ts ++ more) := by
  induction h with
  | nil => exact hmore
  | cons t after ht _ ih => exact .cons t _ ht ih
  | group d inside after hinside _ _ ih =>
      rw [List.cons_append, List.append_assoc, List.cons_append]
      exact .group d inside _ hinside ih

/-- The innermost group that tokens leave open starts at `offset`: its opening delimiter
    stands there, and the tokens behind it are balanced. -/
def InnermostOpen (ts : List (Nat × Token)) (offset : Nat) (d : Delimiter) : Prop :=
  ∃ before inside, ts = before ++ (offset, .openGroup d) :: inside ∧
    Token.Balanced (inside.map Prod.snd)

/-- The groups on a stack, the innermost first, are those that tokens leave open. -/
def Pending : List OpenGroup → List (Nat × Token) → Prop
  | [], ts => Token.Balanced (ts.map Prod.snd)
  | g :: outer, ts =>
    ∃ before inside, ts = before ++ (g.offset, .openGroup g.delimiter) :: inside ∧
      Token.Balanced (inside.map Prod.snd) ∧ Pending outer before

-- A balanced stretch leaves open what was open before it.
theorem pending_append (stack : List OpenGroup) (ts more : List (Nat × Token))
    (h : Pending stack ts) (hmore : Token.Balanced (more.map Prod.snd)) :
    Pending stack (ts ++ more) := by
  cases stack with
  | nil =>
      rw [Pending, List.map_append]
      exact Token.balanced_append _ _ h hmore
  | cons g outer =>
      rcases h with ⟨before, inside, rfl, hinside, houter⟩
      refine ⟨before, inside ++ more, List.append_assoc _ _ _, ?_, houter⟩
      rw [List.map_append]
      exact Token.balanced_append _ _ hinside hmore

-- Only delimiters touch the stack.
theorem accept_enclosing (flags : CompileFlags) (p next : Parser) (start : Nat) (t : Token)
    (ht : t.isDelimiter = false) (h : p.accept flags start t = .ok next) :
    next.enclosing = p.enclosing := by
  cases t with
  | openGroup d => exact absurd ht.symm Bool.false_ne_true
  | closeGroup d => exact absurd ht.symm Bool.false_ne_true
  | quantifier kind min max isLazy =>
      simp only [Parser.accept] at h
      split at h
      · rw [← Except.ok.inj h]
      · exact absurd h (by simp only [reduceCtorEq, not_false_eq_true])
  | _ => rw [← Except.ok.inj h]

/-- A token keeps the stack in agreement with the tokens. -/
theorem accept_pending (flags : CompileFlags) (p next : Parser) (start : Nat) (t : Token)
    (ts : List (Nat × Token)) (hp : Pending p.enclosing ts)
    (h : p.accept flags start t = .ok next) : Pending next.enclosing (ts ++ [(start, t)]) := by
  by_cases hdelimiter : t.isDelimiter = false
  · rw [accept_enclosing flags p next start t hdelimiter h]
    exact pending_append _ _ _ hp (.cons t [] hdelimiter .nil)
  cases t with
  | openGroup d =>
      simp only [Parser.accept, Parser.openGroup] at h
      split at h
      · split at h
        · rw [← Except.ok.inj h]
          exact ⟨ts, [], rfl, .nil, hp⟩
        · exact absurd h (by simp only [reduceCtorEq, not_false_eq_true])
      · exact absurd h (by simp only [reduceCtorEq, not_false_eq_true])
  | closeGroup d =>
      simp only [Parser.accept, Parser.closeGroup] at h
      split at h
      · exact absurd h (by simp only [reduceCtorEq, not_false_eq_true])
      · rename_i g outer henclosing
        split at h
        · rename_i hsame
          rw [henclosing] at hp
          rcases hp with ⟨before, inside, rfl, hinside, houter⟩
          -- The group that closes is a balanced stretch of its own.
          have hgroup : Token.Balanced
              (((g.offset, Token.openGroup d) :: (inside ++ [(start, .closeGroup d)])).map
                Prod.snd) := by
            rw [List.map_cons, List.map_append]
            exact .group d _ [] hinside .nil
          rw [← Except.ok.inj h, hsame, List.append_assoc]
          exact pending_append outer before _ houter hgroup
        · exact absurd h (by simp only [reduceCtorEq, not_false_eq_true])
  | _ => exact absurd rfl hdelimiter

/-- The tokens of a byte sequence keep the stack in agreement with all tokens so far, by
    induction along the tokens. -/
theorem run_pending (options : CompileOptions) (p last : Parser) (offset : Nat)
    (input : List UInt8) (ts : List (Nat × Token)) (hp : Pending p.enclosing ts)
    (h : Parser.run options p offset input = .ok last) :
    Pending last.enclosing
      (ts ++ tokens options.dialect options.flags.ignoreCase offset input) := by
  fun_induction Parser.run options p offset input generalizing ts with
  | case1 p offset =>
      rw [tokens, List.append_nil, ← Except.ok.inj h]
      exact hp
  | case2 p offset c rest used e hread =>
      exact absurd h (by simp only [reduceCtorEq, not_false_eq_true])
  | case3 p offset c rest used t hread e haccept =>
      exact absurd h (by simp only [reduceCtorEq, not_false_eq_true])
  | case4 p offset c rest used t hread next haccept ih =>
      have hnext := ih _ (accept_pending _ p next offset t ts hp haccept) h
      rw [tokens, hread]
      rwa [List.append_assoc] at hnext

/-- What is not closed at the end of the pattern is the innermost group that its tokens
    leave open. -/
theorem finish_innermost (options : CompileOptions) (input : List UInt8) (last : Parser)
    (e : PatternError) (h : Parser.run options {} 0 input = .ok last)
    (he : last.finish = .error e) :
    ∃ d : Delimiter, e.cause = d.unmatched ∧
      InnermostOpen (tokens options.dialect options.flags.ignoreCase 0 input) e.offset d := by
  have hpending := run_pending options {} last 0 input [] .nil h
  rw [List.nil_append] at hpending
  unfold Parser.finish at he
  split at he
  · exact absurd he (by simp only [reduceCtorEq, not_false_eq_true])
  · rename_i g outer henclosing
    rw [henclosing] at hpending
    rcases hpending with ⟨before, inside, htokens, hinside, _⟩
    rw [← Except.error.inj he]
    exact ⟨g.delimiter, rfl, before, inside, htokens, hinside⟩

end Pattern

end ByteRegex
