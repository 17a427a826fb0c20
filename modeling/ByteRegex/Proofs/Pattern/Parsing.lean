import ByteRegex.Program.Basic
import ByteRegex.Proofs.Pattern.Tokens

/-!
# Compiling Spelled Patterns

The parser reads a spelled pattern back as the tree that it stands for, and so the
pattern is compiled to the operations that its pieces stand for.

A piece acts on the parser by a step that can be named in advance: what was read
before it stays as it is, its groups are counted, and its tree becomes the last
block of the current sequence. Two kinds of piece do not act alone. A literal
joins the run of literals before it, so the statement about a sequence of pieces
carries that run along. A quantifier takes its element back from the sequence; if
the element is a literal, it is the last byte of a run, and what is left is the
run as it was before.

The limits on groups and on nesting are not met by a pattern of nine groups or
less, since no more groups can be open than have been opened.

## Main definitions

* `Takes`: The bytes bring the parser from one state to another.
* `extend`: The current sequence with a run of literals at its end.

## Theorems

* `takes_append`: Steps of the parser join.
* `quantify?_pushLiteral`: A quantifier takes hold of the last byte of a run.
* `takes_choice`: Alternatives are read one after the other.
* `takes_group`: Delimiters make a block of what is read between them.
* `takes_piece`: A piece adds its tree to the current sequence.
* `takes_pieces`: So do pieces in a row.
* `parse_spelled`: A spelled pattern is read as the tree it stands for.
* `compile_spelled`: It is compiled to the operations it stands for.
-/

namespace ByteRegex

namespace Pattern

/-- The parser, with `rest` behind the bytes, gets from one state to another. -/
def Takes (options : CompileOptions) (offset : Nat) (p : Parser) (bytes rest : List UInt8)
    (p' : Parser) : Prop :=
  Parser.run options p offset (bytes ++ rest) = Parser.run options p' (offset + bytes.length) rest

section Steps

variable (options : CompileOptions)

theorem takes_nil (offset : Nat) (p : Parser) (rest : List UInt8) :
    Takes options offset p [] rest p := rfl

theorem takes_append (offset : Nat) (p p' p'' : Parser) (bytes more rest : List UInt8)
    (h : Takes options offset p bytes (more ++ rest) p')
    (hmore : Takes options (offset + bytes.length) p' more rest p'') :
    Takes options offset p (bytes ++ more) rest p'' := by
  rw [Takes] at h hmore ⊢
  rw [List.append_assoc, h, hmore, List.length_append, Nat.add_assoc]

-- A token does to the parser what is said of it.
theorem takes_token (offset : Nat) (p p' : Parser) (bytes rest : List UInt8) (t : Token)
    (h : Spells options.dialect options.flags.ignoreCase bytes t rest)
    (haccept : p.accept options.flags offset t = .ok p') :
    Takes options offset p bytes rest p' := by
  rcases h with ⟨c, more, rfl, hreads⟩
  have hstart := hreads offset
  rw [Scan.Reads] at hstart
  rw [Takes, List.cons_append, Parser.run, hstart]
  simp only [haccept, List.drop_left, List.length_cons]
  rw [Nat.add_assoc, Nat.add_comm 1]

/-- The current sequence, the latest block first, with a run of literals at its end. -/
def extend (run : Bytes) (before : List Block) : List Block := (runBlocks run).reverse ++ before

/-- No run of literals stands at the end of the current sequence. -/
def Closed (before : List Block) : Prop := ∀ w more, before ≠ .literal w :: more

theorem closed_nil : Closed [] := fun w more => (List.cons_ne_nil (.literal w) more).symm

theorem extend_empty (before : List Block) : extend #[] before = before := rfl

theorem extend_push (run : Bytes) (c : UInt8) (before : List Block) :
    extend (run.push c) before = .literal (run.push c) :: before := by
  have hne : ¬ (run.push c).isEmpty = true := by
    rw [Array.isEmpty_iff]
    exact Array.push_ne_empty
  rw [extend, runBlocks, if_neg hne]
  rfl

-- A literal joins the run at the end of the current sequence.
theorem pushLiteral_extend (finished : List Sequence) (run : Bytes) (before : List Block)
    (c : UInt8) (h : Closed before) :
    (⟨finished, extend run before⟩ : Level).pushLiteral c
      = ⟨finished, extend (run.push c) before⟩ := by
  rw [extend_push]
  -- Without a run there is no literal to join, since the sequence is closed.
  by_cases hempty : run.isEmpty = true
  · rw [Array.isEmpty_iff] at hempty
    rw [hempty, extend_empty, Level.pushLiteral]
    split
    · rename_i w more heq
      exact absurd heq (h w more)
    · rfl
  · rw [extend, runBlocks, if_neg hempty]
    rfl

/-- A quantifier behind a literal takes hold of that byte alone, and the current
    sequence is otherwise as it was before the literal. -/
theorem quantify?_pushLiteral (finished : List Sequence) (run : Bytes) (before : List Block)
    (c : UInt8) (q : Quantifier) (h : Closed before) :
    ((⟨finished, extend run before⟩ : Level).pushLiteral c).quantify? q
      = some ⟨finished, .quantified q (.literal #[c]) :: extend run before⟩ := by
  rw [pushLiteral_extend finished run before c h, extend_push, Level.quantify?]
  simp only [Array.back?_push, Array.size_push, Array.pop_push]
  -- The run was empty before the byte, or it is what is left.
  by_cases hempty : run.isEmpty = true
  · rw [Array.isEmpty_iff] at hempty
    rw [hempty, extend_empty]
    exact if_pos rfl
  · have hsize : run.size ≠ 0 := fun hzero => hempty (by rw [Array.isEmpty, hzero]; rfl)
    rw [if_neg (by omega), extend, runBlocks, if_neg hempty]
    rfl

-- A quantifier behind any other element takes hold of it as a whole.
theorem quantify?_element (flags : CompileFlags) (n : Nat) (p : Piece) (finished : List Sequence)
    (before : List Block) (q : Quantifier) (h : p.isElement = true) (hbyte : ∀ b, p ≠ .byte b) :
    (⟨finished, p.block flags n :: before⟩ : Level).quantify? q
      = some ⟨finished, .quantified q (p.block flags n) :: before⟩ := by
  cases p with
  | byte b => exact absurd rfl (hbyte b)
  | bracket b => rfl
  | shorthand s => rfl
  | sign s => cases s <;> first | rfl | exact absurd h Bool.false_ne_true
  | group d first others => rfl
  | quantified r isLazy e => exact absurd h Bool.false_ne_true

-- The tree of a piece other than a literal ends a run of literals.
theorem closed_block (flags : CompileFlags) (n : Nat) (p : Piece) (before : List Block)
    (hbyte : ∀ b, p ≠ .byte b) : Closed (p.block flags n :: before) := by
  intro w more heq
  rw [List.cons.injEq] at heq
  cases p with
  | byte b => exact hbyte b rfl
  | sign s =>
      cases s <;> exact absurd heq.1 (by simp only [Piece.block, Sign.block, reduceCtorEq,
        not_false_eq_true])
  | _ => exact absurd heq.1 (by simp only [Piece.block, reduceCtorEq, not_false_eq_true])

-- A group opens while the limits allow it.
theorem openGroup_ok (p : Parser) (start : Nat) (d : Delimiter) (hgroups : p.groups + 1 ≤ 9)
    (hopen : p.enclosing.length ≤ p.groups) :
    p.openGroup start d = .ok {
      groups := p.groups + 1
      enclosing := ⟨d, start, groupNumber (p.groups + 1), p.level⟩ :: p.enclosing
      level := {} } := by
  have hslots : p.groups + 1 < slots := Nat.lt_succ_of_le hgroups
  have hdepth : p.enclosing.length + 1 < maxDepth := by
    rw [maxDepth]
    omega
  rw [Parser.openGroup, dif_pos hslots, if_pos hdepth]
  have hnumber : groupNumber (p.groups + 1) = ⟨p.groups + 1, hslots⟩ :=
    Fin.ext (Nat.mod_eq_of_lt hslots)
  rw [hnumber]

-- A quantifier repeats what the parser can take back.
theorem takes_repetition (offset : Nat) (groups : Nat) (enclosing : List OpenGroup)
    (l l' : Level) (r : Repetition) (isLazy : Bool) (rest : List UInt8)
    (hr : options.dialect.has r.construct = true)
    (hlazy : isLazy = true → options.dialect.has .lazySuffix = true)
    (hrest : isLazy = false → Unsuffixed options.dialect rest)
    (hl : l.quantify? (r.quantifier options.flags isLazy) = some l') :
    Takes options offset ⟨groups, enclosing, l⟩ (r.spelled ++ if isLazy then [0x3F] else []) rest
      ⟨groups, enclosing, l'⟩ := by
  refine takes_token options offset _ _ _ rest _
    (spells_repetition options.dialect _ r isLazy rest hr hlazy hrest) ?_
  have hgreedy : (!options.flags.minimal && !isLazy) = !(isLazy || options.flags.minimal) := by
    rw [Bool.not_or, Bool.and_comm]
  have hq : (⟨r.kind, r.min, r.max, !options.flags.minimal && !isLazy⟩ : Quantifier)
      = r.quantifier options.flags isLazy := by rw [hgreedy, Repetition.quantifier]
  simp only [Parser.accept, hq, hl]

/-- The alternatives of a choice are read one after the other on an empty level. -/
theorem takes_choice (offset groups groups' groups'' : Nat) (enclosing : List OpenGroup)
    (first : List Block) (others : List (List Block)) (bytes more rest : List UInt8)
    (hfirst : Takes options offset ⟨groups, enclosing, {}⟩ bytes (more ++ rest)
      ⟨groups', enclosing, ⟨[], first.reverse ++ []⟩⟩)
    (hothers : ∃ l : Level,
      l.alternatives = (⟨[], first.reverse ++ []⟩ : Level).alternatives ++ others ∧
        Takes options (offset + bytes.length) ⟨groups', enclosing, ⟨[], first.reverse ++ []⟩⟩
          more rest ⟨groups'', enclosing, l⟩) :
    ∃ l : Level, l.alternatives = first :: others ∧
      Takes options offset ⟨groups, enclosing, {}⟩ (bytes ++ more) rest
        ⟨groups'', enclosing, l⟩ := by
  rcases hothers with ⟨l, hl, htakes⟩
  refine ⟨l, ?_, takes_append options offset _ _ _ _ _ rest hfirst htakes⟩
  rw [hl, Level.alternatives, List.append_nil, List.reverse_reverse]
  rfl

/-- Delimiters enclose a group: what is read between them, on an empty level, becomes the
    last block of the level that was interrupted. -/
theorem takes_group (offset groups groups' : Nat) (enclosing : List OpenGroup) (l : Level)
    (d : Delimiter) (body : List UInt8) (alts : List (List Block)) (rest : List UInt8)
    (hd : options.dialect.has d.construct = true) (hgroups : groups + 1 ≤ 9)
    (hopen : enclosing.length ≤ groups)
    (hbody : ∀ (offset : Nat) (g : OpenGroup), ∃ l' : Level, l'.alternatives = alts ∧
      Takes options offset ⟨groups + 1, g :: enclosing, {}⟩ body (d.closing ++ rest)
        ⟨groups', g :: enclosing, l'⟩) :
    Takes options offset ⟨groups, enclosing, l⟩ (d.opening ++ (body ++ d.closing)) rest
      ⟨groups', enclosing, l.push (.group (groupNumber (groups + 1)) alts)⟩ := by
  have hopening := takes_token options offset ⟨groups, enclosing, l⟩ _ d.opening
    (body ++ d.closing ++ rest) _ (spells_opening _ _ d _ hd)
    (openGroup_ok ⟨groups, enclosing, l⟩ offset d hgroups hopen)
  rcases hbody (offset + d.opening.length) ⟨d, offset, groupNumber (groups + 1), l⟩
    with ⟨l', halts, hinside⟩
  -- The innermost open group is the one that this delimiter opened.
  have hclosing := takes_token options (offset + d.opening.length + body.length)
    ⟨groups', ⟨d, offset, groupNumber (groups + 1), l⟩ :: enclosing, l'⟩ _ d.closing rest _
    (spells_closing _ _ d rest hd) (if_pos rfl)
  rw [← halts]
  exact takes_append options offset _ _ _ _ _ rest hopening
    (takes_append options _ _ _ _ _ _ rest hinside hclosing)

mutual

/-- A piece other than a literal adds its tree to the current sequence, and its groups
    are counted. The recursion is on the piece. An element may be followed by anything,
    for what follows may be the quantifier that repeats it. -/
theorem takes_piece (p : Piece) (offset groups : Nat) (enclosing : List OpenGroup)
    (finished : List Sequence) (run : Bytes) (before : List Block) (rest : List UInt8)
    (hbyte : ∀ b, p ≠ .byte b) (hfits : p.fits options.dialect = true)
    (hgroups : groups + p.groups ≤ 9) (hopen : enclosing.length ≤ groups)
    (hbefore : Closed before) (hrest : p.isElement = false → Unsuffixed options.dialect rest) :
    Takes options offset ⟨groups, enclosing, ⟨finished, extend run before⟩⟩ p.spelled rest
      ⟨groups + p.groups, enclosing,
        ⟨finished, p.block options.flags groups :: extend run before⟩⟩ := by
  cases p with
  | byte b => exact absurd rfl (hbyte b)
  | bracket b =>
      exact takes_token options offset _ _ _ rest _ (spells_bracket _ _ b rest hfits) rfl
  | shorthand s =>
      exact takes_token options offset _ _ _ rest _ (spells_shorthand _ _ s rest hfits) rfl
  | sign s =>
      rcases spells_sign options.dialect options.flags.ignoreCase options.flags s rest hfits
        with ⟨t, hspells, haccept⟩
      exact takes_token options offset _ _ _ rest t hspells (haccept _ _)
  | group d first others =>
      rw [Piece.fits, Bool.and_eq_true, Bool.and_eq_true] at hfits
      rw [Piece.groups] at hgroups
      rw [Piece.groups, Piece.spelled, Piece.block, ← Nat.add_assoc, ← Nat.add_assoc,
        ← List.append_assoc (Pieces.spelled first)]
      have hclosing := unsuffixed_closing options.dialect d rest
      refine takes_group options offset groups _ enclosing _ d _ _ rest hfits.1.1 (by omega) hopen
        fun offset' g => ?_
      -- What stands between the delimiters is read on a level of its own.
      have hinside : (g :: enclosing).length ≤ groups + 1 := Nat.succ_le_succ hopen
      have hfirst := takes_pieces first offset' (groups + 1) (g :: enclosing) [] #[] []
        (Others.spelled others ++ (d.closing ++ rest)) hfits.1.2 (by omega) hinside closed_nil
        (unsuffixed_others _ others _ hclosing)
      exact takes_choice options offset' _ _ _ _ _ _ _ _ _ hfirst
        (takes_others others _ _ (g :: enclosing) _ (d.closing ++ rest) hfits.2 (by omega)
          (by omega) hclosing)
  | quantified r isLazy element =>
      rw [Piece.fits, Bool.and_eq_true, Bool.and_eq_true, Bool.and_eq_true] at hfits
      rw [Piece.groups] at hgroups
      rw [Piece.groups, Piece.spelled, Piece.block]
      have hlazy : isLazy = true → options.dialect.has .lazySuffix = true := by
        intro h
        have himp := hfits.1.1.2
        rw [h] at himp
        exact himp
      -- The quantifier follows an element which stands in the current sequence.
      have hrepetition (offset groups : Nat) (l l' : Level)
          (hl : l.quantify? (r.quantifier options.flags isLazy) = some l') :=
        takes_repetition options offset groups enclosing l l' r isLazy rest hfits.1.1.1 hlazy
          (fun _ => hrest rfl) hl
      by_cases hliteral : ∃ b, element = .byte b
      · rcases hliteral with ⟨b, rfl⟩
        have hbyte := takes_token options offset ⟨groups, enclosing, ⟨finished, extend run before⟩⟩
          _ b.spelled ((r.spelled ++ if isLazy then [0x3F] else []) ++ rest) _
          (spells_byte _ _ b _) rfl
        exact takes_append options offset _ _ _ _ _ rest hbyte
          (hrepetition _ _ _ _ (quantify?_pushLiteral finished run before _ _ hbefore))
      · rw [not_exists] at hliteral
        have helement := takes_piece element offset groups enclosing finished run before
          ((r.spelled ++ if isLazy then [0x3F] else []) ++ rest) hliteral hfits.2 hgroups hopen
          hbefore fun h => absurd hfits.1.2 (by rw [h]; exact Bool.false_ne_true)
        exact takes_append options offset _ _ _ _ _ rest helement
          (hrepetition _ _ _ _
            (quantify?_element _ _ element finished _ _ hfits.1.2 hliteral))

/-- Pieces in a row add their trees to the current sequence, and a run of literals
    before them goes on in them. -/
theorem takes_pieces (ps : List Piece) (offset groups : Nat) (enclosing : List OpenGroup)
    (finished : List Sequence) (run : Bytes) (before : List Block) (rest : List UInt8)
    (hfits : Pieces.fits options.dialect ps = true) (hgroups : groups + Pieces.groups ps ≤ 9)
    (hopen : enclosing.length ≤ groups) (hbefore : Closed before)
    (hrest : Unsuffixed options.dialect rest) :
    Takes options offset ⟨groups, enclosing, ⟨finished, extend run before⟩⟩
      (Pieces.spelled ps) rest
      ⟨groups + Pieces.groups ps, enclosing,
        ⟨finished, (Pieces.blocks options.flags groups run ps).reverse ++ before⟩⟩ := by
  cases ps with
  | nil => exact takes_nil options offset _ rest
  | cons p ps =>
      rw [Pieces.fits, Bool.and_eq_true] at hfits
      rw [Pieces.groups, ← Nat.add_assoc] at hgroups
      rw [Pieces.groups, ← Nat.add_assoc, Pieces.spelled]
      -- A piece that ends the run and the pieces behind it.
      have hpiece (hbyte : ∀ b, p ≠ .byte b) :
          Takes options offset ⟨groups, enclosing, ⟨finished, extend run before⟩⟩
            (p.spelled ++ Pieces.spelled ps) rest
            ⟨groups + p.groups + Pieces.groups ps, enclosing, ⟨finished,
              (runBlocks run ++ p.block options.flags groups ::
                Pieces.blocks options.flags (groups + p.groups) #[] ps).reverse ++ before⟩⟩ := by
        have hstep := takes_piece p offset groups enclosing finished run before
          (Pieces.spelled ps ++ rest) hbyte hfits.1 (by omega) hopen hbefore
          fun _ => unsuffixed_pieces _ ps rest hfits.2 hrest
        have hsteps := takes_pieces ps (offset + p.spelled.length) (groups + p.groups) enclosing
          finished #[] (p.block options.flags groups :: extend run before) rest hfits.2 hgroups
          (by omega) (closed_block _ _ p _ hbyte) hrest
        rw [List.reverse_append, List.reverse_cons, List.append_assoc, List.append_assoc,
          List.singleton_append]
        exact takes_append options offset _ _ _ _ _ rest hstep hsteps
      -- A literal goes on with the run, which stays open.
      cases p with
      | byte b =>
          have hliteral : Takes options offset ⟨groups, enclosing, ⟨finished, extend run before⟩⟩
              b.spelled (Pieces.spelled ps ++ rest) ⟨groups, enclosing,
                ⟨finished, extend (run.push (b.literal options.flags)) before⟩⟩ := by
            refine takes_token options offset _ _ _ _ _ (spells_byte _ _ b _) ?_
            rw [← pushLiteral_extend finished run before _ hbefore]
            rfl
          exact takes_append options offset _ _ _ _ _ rest hliteral
            (takes_pieces ps _ groups enclosing finished _ before rest hfits.2
              (by omega) hopen hbefore hrest)
      | _ => exact hpiece fun b => by simp only [ne_eq, reduceCtorEq, not_false_eq_true]

-- Further alternatives are added to those that were read.
theorem takes_others (others : List (List Piece)) (offset groups : Nat)
    (enclosing : List OpenGroup) (l : Level) (rest : List UInt8)
    (hfits : Others.fits options.dialect others = true)
    (hgroups : groups + Others.groups others ≤ 9) (hopen : enclosing.length ≤ groups)
    (hrest : Unsuffixed options.dialect rest) :
    ∃ l' : Level,
      l'.alternatives = l.alternatives ++ Others.blocks options.flags groups others ∧
        Takes options offset ⟨groups, enclosing, l⟩ (Others.spelled others) rest
          ⟨groups + Others.groups others, enclosing, l'⟩ := by
  cases others with
  | nil => exact ⟨l, (List.append_nil _).symm, takes_nil options offset _ rest⟩
  | cons s others =>
      rw [Others.fits, Bool.and_eq_true] at hfits
      rw [Others.groups, ← Nat.add_assoc] at hgroups
      -- The bar puts the current sequence away, and the next begins without a run.
      have hbar := takes_token options offset ⟨groups, enclosing, l⟩ _ [0x7C]
        (Pieces.spelled s ++ Others.spelled others ++ rest) _ (spells_bar _ _ _) rfl
      have hs := takes_pieces s (offset + 1) groups enclosing l.split.finished #[] []
        (Others.spelled others ++ rest) hfits.1 (by omega) hopen
        closed_nil (unsuffixed_others _ others rest hrest)
      rcases takes_others others (offset + 1 + (Pieces.spelled s).length)
        (groups + Pieces.groups s) enclosing
        ⟨l.split.finished, (Pieces.blocks options.flags groups #[] s).reverse ++ []⟩
        rest hfits.2 hgroups (by omega) hrest with ⟨l', hl', hothers⟩
      refine ⟨l', ?_, ?_⟩
      · rw [hl', Others.blocks, Level.alternatives, Level.split, List.append_nil,
          List.reverse_reverse, List.reverse_cons, List.append_assoc]
        rfl
      · rw [Others.groups, ← Nat.add_assoc, Others.spelled]
        exact takes_append options offset _ _ _ [0x7C] _ rest hbar
          (takes_append options _ _ _ _ _ _ rest hs hothers)

end

end Steps

/-- A pattern that is spelled in a dialect is read as the tree it stands for. -/
theorem parse_spelled (options : CompileOptions) (t : Tree)
    (hfits : t.fits options.dialect = true) (hgroups : t.groups ≤ 9) :
    parse options t.spelled.toArray = .ok ⟨t.alternatives options.flags, t.groups⟩ := by
  rw [Tree.fits, Bool.and_eq_true] at hfits
  rw [Tree.groups] at hgroups
  -- Nothing stands behind the pattern, so there is no suffix.
  have hend : Unsuffixed options.dialect [] := fun _ => rfl
  have hfirst := takes_pieces options t.first 0 0 [] [] #[] [] (Others.spelled t.others ++ [])
    hfits.1 (by omega) (Nat.le_refl 0) closed_nil (unsuffixed_others _ t.others [] hend)
  rcases takes_choice options 0 0 _ _ [] _ _ _ _ [] hfirst
    (takes_others options t.others _ _ [] _ [] hfits.2 (by omega) (Nat.zero_le _) hend)
    with ⟨l, hl, hrun⟩
  rw [Takes, List.append_nil, Parser.run] at hrun
  have hparser : Parser.run options {} 0 t.spelled
      = .ok ⟨0 + Pieces.groups t.first + Others.groups t.others, [], l⟩ := hrun
  rw [parse, hparser, Tree.alternatives, Tree.groups]
  rw [Nat.zero_add] at hl ⊢
  rw [← hl]
  rfl

end Pattern

/-- The compiler implements the grammars of its dialects. A pattern of at most nine groups
    that is spelled in a dialect is accepted, and its operations are those that its
    pieces stand for. -/
theorem compile_spelled (dialect : Dialect) (flags : CompileFlags) (t : Pattern.Tree)
    (hfits : t.fits dialect = true) (hgroups : t.groups ≤ 9) :
    ∃ program, compile ⟨dialect, flags⟩ t.spelled.toArray = .ok program ∧
      program.operations = link (t.emit flags) ∧ program.groups = t.groups := by
  have hparse := Pattern.parse_spelled ⟨dialect, flags⟩ t hfits hgroups
  refine ⟨Program.ofPattern ⟨dialect, flags⟩ ⟨t.alternatives flags, t.groups⟩, ?_, ?_, rfl⟩
  · rw [compile, hparse]
    rfl
  · rw [Program.ofPattern, Pattern.operations_alternatives]

-- The pattern `\x61\x62(.*?|\x63{2,3})+`: a run of two bytes, and a repeated group whose
-- alternatives repeat an element each.
theorem compile_spelled_nested :
    ∃ program, compile ⟨.perl, {}⟩
        #[0x5C, 0x78, 0x36, 0x31, 0x5C, 0x78, 0x36, 0x32, 0x28, 0x2E, 0x2A, 0x3F, 0x7C,
          0x5C, 0x78, 0x36, 0x33, 0x7B, 0x32, 0x2C, 0x33, 0x7D, 0x29, 0x2B] = .ok program ∧
      program.operations = link
        [.literal #[0x61, 0x62] none, .quantifier ⟨.oneOrMore, 1, none, true⟩,
          .openGroup ⟨1, by decide⟩, .branch, .quantifier ⟨.zeroOrMore, 0, none, false⟩, .anyChar,
          .loop, .branchEnd, .branch, .quantifier ⟨.interval, 2, some 3, true⟩,
          .literal #[0x63] none, .loop, .branchEnd, .closeGroup ⟨1, by decide⟩, .loop, .finish] ∧
      program.groups = 1 :=
  compile_spelled .perl {}
    ⟨[.byte ⟨⟨6, false⟩, ⟨1, false⟩⟩, .byte ⟨⟨6, false⟩, ⟨2, false⟩⟩,
      .quantified .plus false (.group .paren [.quantified .star true (.sign .dot)]
        [[.quantified (.interval (.between ⟨[2], List.cons_ne_nil _ _⟩ ⟨[3], List.cons_ne_nil _ _⟩)
          (by decide)) false (.byte ⟨⟨6, false⟩, ⟨3, false⟩⟩)]])], []⟩
    (by decide) (by decide)

end ByteRegex
