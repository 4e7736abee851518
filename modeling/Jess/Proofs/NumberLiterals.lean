import Jess.Proofs.MaximalMunch
import Jess.Proofs.Rounding
import Jess.Proofs.StatementWriting
import Mathlib.Data.Nat.Digits.Defs

/-!
# The numbers of a source

A token that is a number has a numeral for its lexeme and carries what the
decimal number of that is rounded to. It is no NaN and has no sign, and it is
finite exactly below the halfway point at which rounding overflows: the reading
of numbers has no other bound, and nothing checks the result. The grammar neither
makes numbers nor loses any, so the numbers written in a program without mistakes
are those of its tokens, each as often as it stands there.
-/

namespace Jess

open Token (Kind IsNumeral)

namespace Token

def digit (c : Char) : Nat := c.toNat - '0'.toNat

/-- The decimal number of digits before a point, and of digits behind it as tenths, hundredths and
so on. -/
def decimalValue (whole fraction : List Char) : ℚ :=
  (Nat.ofDigits 10 (whole.reverse.map digit) : Nat) +
    Nat.ofDigits (1 / 10) (0 :: fraction.map digit)

theorem digitsValue_cons (c : Char) (rest : List Char) :
    digitsValue (c :: rest) = digit c * 10 ^ rest.length + digitsValue rest := by
  have single : digitsValue [c] = digit c := by simp [digitsValue, digit]
  rw [← List.singleton_append, digitsValue_append, single]

theorem ofDigits_whole (whole : List Char) :
    Nat.ofDigits 10 (whole.reverse.map digit) = digitsValue whole := by
  induction whole with
  | nil => rfl
  | cons c rest ih =>
      rw [List.reverse_cons, List.map_append, Nat.ofDigits_append, ih, digitsValue_cons,
        List.map_singleton, Nat.ofDigits_singleton, List.length_map, List.length_reverse]
      ring

theorem ofDigits_fraction (fraction : List Char) :
    Nat.ofDigits (1 / 10 : ℚ) (0 :: fraction.map digit) =
      digitsValue fraction / 10 ^ fraction.length := by
  have first : ∀ (d : Nat) (rest : List Nat),
      Nat.ofDigits (1 / 10 : ℚ) (d :: rest) = d + 1 / 10 * Nat.ofDigits (1 / 10) rest :=
    fun _ _ => rfl
  induction fraction with
  | nil => simp [digitsValue, Nat.ofDigits]
  | cons c rest ih =>
      have tens : (10 : ℚ) ^ rest.length ≠ 0 := by positivity
      rw [first, Nat.cast_zero, zero_add] at ih ⊢
      rw [List.map_cons, first, ih, digitsValue_cons, List.length_cons, pow_succ]
      push_cast
      field_simp

theorem numberValue_rounds {lexeme whole fraction : List Char}
    (numeral : IsNumeral lexeme whole fraction) :
    Binary.Rounds (decimalValue whole fraction) (numberValue lexeme) := by
  have split : decimalValue whole fraction =
      (digitsValue (whole ++ fraction) : ℚ) / 10 ^ fraction.length := by
    have tens : (10 : ℚ) ^ fraction.length ≠ 0 := by positivity
    rw [decimalValue, ofDigits_whole, ofDigits_fraction, digitsValue_append]
    field_simp
    push_cast
    ring
  rw [split, numberValue_of_numeral numeral]
  exact Binary.read_rounds _ _

/-- The number that a token carries. -/
def number? (t : Token) : Option Float :=
  match t.kind, t.literal with
  | .number, some (.number x) => some x
  | _, _ => none

theorem number?_eq_none {t : Token} {kind : Kind} (same : t.kind = kind)
    (other : kind ≠ .number) : t.number? = none := by
  unfold number?
  split
  · rename_i own _
    exact absurd (same.symm.trans own) other
  · rfl

theorem number?_eq_some {t : Token} {x : Float} :
    t.number? = some x ↔ t.kind = .number ∧ t.literal = some (.number x) := by
  unfold number?
  split
  · rename_i kind literal
    simp [kind, literal]
  · rename_i others
    constructor
    · intro impossible
      cases impossible
    · rintro ⟨kind, literal⟩
      exact absurd literal (others x kind)

def numbers (tokens : List Token) : List Float := tokens.filterMap number?

theorem mem_numbers_iff {tokens : List Token} {x : Float} :
    x ∈ numbers tokens ↔ ∃ t ∈ tokens, t.kind = .number ∧ t.literal = some (.number x) := by
  simp only [numbers, List.mem_filterMap, number?_eq_some]

theorem numbers_singleton (t : Token) : numbers [t] = t.number?.toList := by
  rw [numbers, List.filterMap_cons]
  cases t.number? <;> rfl

theorem numbers_append (front back : List Token) :
    numbers (front ++ back) = numbers front ++ numbers back := List.filterMap_append

theorem numbers_skip {t : Token} {kind : Kind} (same : t.kind = kind) (other : kind ≠ .number)
    (rest : List Token) : numbers (t :: rest) = numbers rest :=
  List.filterMap_cons_none (number?_eq_none same other)

theorem numbers_skip_last {t : Token} {kind : Kind} (same : t.kind = kind) (other : kind ≠ .number)
    (front : List Token) : numbers (front ++ [t]) = numbers front := by
  rw [numbers_append, numbers_skip same other]
  exact List.append_nil _

theorem numbers_placeless (tokens : List Token) :
    numbers (tokens.map placeless) = numbers tokens := by
  rw [numbers, List.filterMap_map]
  rfl

theorem Piece.numeral_of_mem {text : List Char} {piece : Piece} (member : piece ∈ all text)
    (role : piece.role = .token .number) :
    ∃ whole fraction, IsNumeral piece.text whole fraction := by
  have munched := munched_all text
  generalize all text = pieces at munched member
  induction munched with
  | done => cases member
  | @piece first rest pieces munches later ih =>
      rcases List.mem_cons.mp member with rfl | member
      · rcases munches with ⟨fits, _⟩ | stray
        · rw [role] at fits
          generalize piece.text = lexeme at fits
          cases fits with
          | number _ numeral => exact ⟨_, _, numeral⟩
        · rw [stray.role] at role
          cases role
      · exact ih member

/-- What a token of the kind of numbers shows and carries: a decimal number, and the only number
that this is rounded to. -/
structure Denotes (t : Token) (v : ℚ) (x : Float) : Prop where
  shows : ∃ whole fraction,
    IsNumeral t.lexeme.toList whole fraction ∧ v = decimalValue whole fraction
  carries : t.literal = some (.number x)
  rounds : Binary.Rounds v x
  only : ∀ y, Binary.Rounds v y → y = x

theorem exists_denotes {source : String} {t : Token} (member : t ∈ (scan source).1)
    (kind : t.kind = .number) : ∃ v x, t.Denotes v x := by
  have placed : t.placeless ∈ (Piece.all source.toList).filterMap Piece.token? ++ [eof 0 0] := by
    rw [← scan_placeless]
    exact List.mem_map_of_mem member
  rcases List.mem_append.mp placed with made | ending
  · obtain ⟨piece, inside, token⟩ := List.mem_filterMap.mp made
    simp only [Piece.token?] at token
    split at token
    · rename_i own role
      have same := Option.some.inj token
      have kindEq : own = t.kind := congrArg Token.kind same
      have lexemeEq : String.ofList piece.text = t.lexeme := congrArg Token.lexeme same
      have literalEq : literalOf own piece.text = t.literal := congrArg Token.literal same
      rw [kindEq, kind] at role literalEq
      obtain ⟨whole, fraction, numeral⟩ := Piece.numeral_of_mem inside role
      have text : t.lexeme.toList = piece.text := by
        rw [← lexemeEq, String.toList_ofList]
      rw [← text] at numeral literalEq
      have rounds := numberValue_rounds numeral
      exact ⟨_, _, ⟨whole, fraction, numeral, rfl⟩, literalEq.symm, rounds, fun _ other =>
        other.unique rounds⟩
    · cases token
  · have same := List.mem_singleton.mp ending
    have kindEq : t.kind = .eof := congrArg Token.kind same
    rw [kind] at kindEq
    cases kindEq

end Token

open Grammar

namespace Expr

mutual

def numbers : Expr → List Float
  | .literal (.number x) => [x]
  | .literal _ => []
  | .grouping inner => inner.numbers
  | .unary _ _ operand => operand.numbers
  | .binary _ _ left right => left.numbers ++ right.numbers
  | .logical _ _ left right => left.numbers ++ right.numbers
  | .variable _ => []
  | .assign _ value => value.numbers
  | .call callee _ args => callee.numbers ++ numbersAll args

def numbersAll : List Expr → List Float
  | [] => []
  | arg :: rest => arg.numbers ++ numbersAll rest

end

end Expr

namespace Stmt

mutual

def numbers : Stmt → List Float
  | .expression e => e.numbers
  | .print e => e.numbers
  | .declare _ initializer => initializer.elim [] Expr.numbers
  | .block body => numbersAll body
  | .ifThen condition thenBranch => condition.numbers ++ thenBranch.numbers
  | .ifElse condition thenBranch elseBranch =>
      condition.numbers ++ (thenBranch.numbers ++ elseBranch.numbers)
  | .loop condition body => condition.numbers ++ body.numbers
  | .function _ _ body => numbersAll body
  | .giveBack _ value => value.elim [] Expr.numbers

def numbersAll : List Stmt → List Float
  | [] => []
  | s :: rest => s.numbers ++ numbersAll rest

end

end Stmt

namespace Grammar

open Token (numbers_singleton numbers_append numbers_skip numbers_skip_last)

variable {tokens : List Token}

def Phrase.numbers : Phrase → List Float
  | .expression _ e => e.numbers
  | .arguments args => Expr.numbersAll args
  | .items args => Expr.numbersAll args

theorem constant_numbers {t : Token} {v : Literal} (constant : Constant t v) (sound : t.IsSound) :
    (Expr.literal v).numbers = t.number?.toList := by
  have literal := sound.literal
  cases constant with
  | falsity kind => rw [Token.number?_eq_none kind (by decide)]; rfl
  | truth kind => rw [Token.number?_eq_none kind (by decide)]; rfl
  | nothing kind => rw [Token.number?_eq_none kind (by decide)]; rfl
  | number kind =>
      rw [kind] at literal
      rw [Token.number?_eq_some.mpr ⟨kind, literal⟩, literal]
      rfl
  | string kind =>
      rw [kind] at literal
      rw [Token.number?_eq_none kind (by decide), literal]
      rfl

theorem operator_ne_number {kind : Kind} {op : InfixOp}
    (stands : InfixOp.ofKind? kind = some op) : kind ≠ .number := by
  rintro rfl
  cases stands

theorem Derives.numbers {phrase : Phrase} (derived : Derives phrase tokens) :
    (∀ t ∈ tokens, t.IsSound) → phrase.numbers = Token.numbers tokens := by
  induction derived with
  | @literal t v constant =>
      intro sounds
      rw [Phrase.numbers, constant_numbers constant (sounds t (List.mem_singleton_self _))]
      exact (numbers_singleton t).symm
  | named kind =>
      intro _
      rw [numbers_skip kind (by decide)]
      rfl
  | @grouping opening closing tokens e left _ right ih =>
      intro sounds
      have inner : e.numbers = Token.numbers tokens :=
        ih fun t member => sounds t (by simp [member])
      rw [numbers_skip_last right (by decide), numbers_skip left (by decide)]
      exact inner
  | @call opening closing front tokens callee args _ left _ _ right ihCalled ihGiven =>
      intro sounds
      have called : callee.numbers = Token.numbers front :=
        ihCalled fun t member => sounds t (by simp [member])
      have given : Expr.numbersAll args = Token.numbers tokens :=
        ihGiven fun t member => sounds t (by simp [member])
      rw [numbers_skip_last right (by decide), numbers_append, numbers_skip left (by decide),
        ← called, ← given]
      rfl
  | noArguments =>
      intro _
      rfl
  | someArguments _ ih => exact ih
  | @lastItem e tokens _ ih =>
      intro sounds
      have item : e.numbers = Token.numbers tokens := ih sounds
      rw [← item]
      exact List.append_nil _
  | @moreItems comma e args tokens rest _ kind _ ihItem ihOthers =>
      intro sounds
      have item : e.numbers = Token.numbers tokens :=
        ihItem fun t member => sounds t (by simp [member])
      have others : Expr.numbersAll args = Token.numbers rest :=
        ihOthers fun t member => sounds t (by simp [member])
      rw [numbers_append, numbers_skip kind (by decide), ← item, ← others]
      rfl
  | @unary operator op e tokens listed _ ih =>
      intro sounds
      have operand : e.numbers = Token.numbers tokens :=
        ih fun t member => sounds t (by simp [member])
      have other : operator.kind ≠ .number := by
        intro same
        rw [same] at listed
        simp [unaryOperators] at listed
      rw [numbers_skip rfl other]
      exact operand
  | @operation level operator left right e front back _ joined _ ihFirst ihSecond =>
      intro sounds
      have first : left.numbers = Token.numbers front :=
        ihFirst fun t member => sounds t (by simp [member])
      have second : right.numbers = Token.numbers back :=
        ihSecond fun t member => sounds t (by simp [member])
      obtain ⟨op, stands, _, rfl⟩ := operation_iff.mp joined
      rw [numbers_append, numbers_skip rfl (operator_ne_number stands), ← first, ← second]
      cases op <;> rfl
  | @assign name equals e tokens kind sign _ ih =>
      intro sounds
      have value : e.numbers = Token.numbers tokens :=
        ih fun t member => sounds t (by simp [member])
      rw [numbers_skip kind (by decide), numbers_skip sign (by decide)]
      exact value
  | tighter _ ih => exact ih

theorem IsExpression.numbers {e : Expr} (derived : IsExpression e tokens)
    (sounds : ∀ t ∈ tokens, t.IsSound) : e.numbers = Token.numbers tokens :=
  Derives.numbers derived sounds

theorem IsVariable.numbers {s : Stmt} (formed : IsVariable s tokens)
    (sounds : ∀ t ∈ tokens, t.IsSound) : s.numbers = Token.numbers tokens := by
  cases formed with
  | bare kind semicolon =>
      rw [numbers_skip kind (by decide), numbers_skip semicolon (by decide)]
      rfl
  | @initialized name equals closing e tokens kind sign value semicolon =>
      have own := value.numbers fun t member => sounds t (by simp [member])
      rw [numbers_skip_last semicolon (by decide), numbers_skip kind (by decide),
        numbers_skip sign (by decide)]
      exact own

theorem AreNames.numbers {names : List Token} (listed : AreNames names tokens) :
    Token.numbers tokens = [] := by
  induction listed with
  | last kind =>
      rw [numbers_skip kind (by decide)]
      rfl
  | more kind separator _ ih =>
      rw [numbers_skip kind (by decide), numbers_skip separator (by decide), ih]

theorem AreParameters.numbers {params : List Token} (listed : AreParameters params tokens) :
    Token.numbers tokens = [] := by
  rcases listed with ⟨_, rfl⟩ | ⟨named, _⟩
  · rfl
  · exact named.numbers

theorem IsInitializer.numbers {initializer : Option Stmt}
    (formed : IsInitializer initializer tokens) (sounds : ∀ t ∈ tokens, t.IsSound) :
    initializer.elim [] Stmt.numbers = Token.numbers tokens := by
  cases formed with
  | absent semicolon =>
      rw [numbers_skip semicolon (by decide)]
      rfl
  | declared kind inner =>
      have own := inner.numbers fun t member => sounds t (by simp [member])
      rw [numbers_skip kind (by decide)]
      exact own
  | expression value semicolon =>
      have own := value.numbers fun t member => sounds t (by simp [member])
      rw [numbers_skip_last semicolon (by decide)]
      exact own

theorem IsClause.numbers {clause : Option Expr} (formed : IsClause clause tokens)
    (sounds : ∀ t ∈ tokens, t.IsSound) :
    clause.elim [] Expr.numbers = Token.numbers tokens := by
  cases formed with
  | absent => rfl
  | present value => exact value.numbers sounds

/-- A loop with clauses has its increment behind its body. -/
theorem desugarFor_numbers (initializer : Option Stmt) (condition increment : Option Expr)
    (body : Stmt) : (Parser.desugarFor initializer condition increment body).numbers =
      initializer.elim [] Stmt.numbers ++ (condition.elim [] Expr.numbers ++
        (body.numbers ++ increment.elim [] Expr.numbers)) := by
  cases initializer <;> cases condition <;> cases increment <;>
    simp [Parser.desugarFor, Stmt.numbers, Stmt.numbersAll, Expr.numbers]

def Part.numbers : Part → List Float
  | .statement _ _ s => s.numbers
  | .declaration _ _ s => s.numbers
  | .declarations _ body => Stmt.numbersAll body

theorem Forms.numbers {part : Part} (formed : Forms part tokens) :
    (∀ t ∈ tokens, t.IsSound) → part.numbers.Perm (Token.numbers tokens) := by
  induction formed with
  | expression value semicolon =>
      intro sounds
      have own := value.numbers fun t member => sounds t (by simp [member])
      rw [numbers_skip_last semicolon (by decide), ← own]
      exact .rfl
  | print kind value semicolon =>
      intro sounds
      have own := value.numbers fun t member => sounds t (by simp [member])
      rw [numbers_skip_last semicolon (by decide), numbers_skip kind (by decide), ← own]
      exact .rfl
  | giveBack kind semicolon =>
      intro _
      rw [numbers_skip kind (by decide), numbers_skip semicolon (by decide)]
      exact .rfl
  | giveBackValue kind value semicolon =>
      intro sounds
      have own := value.numbers fun t member => sounds t (by simp [member])
      rw [numbers_skip_last semicolon (by decide), numbers_skip kind (by decide), ← own]
      exact .rfl
  | block left _ right ih =>
      intro sounds
      rw [numbers_skip_last right (by decide), numbers_skip left (by decide)]
      exact ih fun t member => sounds t (by simp [member])
  | ifThen kind left test right _ ih =>
      intro sounds
      have condition := test.numbers fun t member => sounds t (by simp [member])
      have branch := ih fun t member => sounds t (by simp [member])
      rw [numbers_append, numbers_skip kind (by decide), numbers_skip left (by decide),
        numbers_skip right (by decide), ← condition]
      exact branch.append_left _
  | ifElse kind left test right _ middle _ ihFirst ihSecond =>
      intro sounds
      have condition := test.numbers fun t member => sounds t (by simp [member])
      have branch := ihFirst fun t member => sounds t (by simp [member])
      have other := ihSecond fun t member => sounds t (by simp [member])
      rw [numbers_append, numbers_skip middle (by decide), numbers_append,
        numbers_skip kind (by decide), numbers_skip left (by decide),
        numbers_skip right (by decide), ← condition, List.append_assoc]
      exact (branch.append other).append_left _
  | loop kind left test right _ ih =>
      intro sounds
      have condition := test.numbers fun t member => sounds t (by simp [member])
      have repeated := ih fun t member => sounds t (by simp [member])
      rw [numbers_append, numbers_skip kind (by decide), numbers_skip left (by decide),
        numbers_skip right (by decide), ← condition]
      exact repeated.append_left _
  | loopWithClauses kind left start test semicolon step right _ tree ih =>
      intro sounds
      obtain rfl := isLoop_iff.mp tree
      have first := start.numbers fun t member => sounds t (by simp [member])
      have condition := test.numbers fun t member => sounds t (by simp [member])
      have increment := step.numbers fun t member => sounds t (by simp [member])
      have repeated := ih fun t member => sounds t (by simp [member])
      rw [numbers_append, numbers_skip right (by decide), numbers_append,
        numbers_skip semicolon (by decide), numbers_append, numbers_skip kind (by decide),
        numbers_skip left (by decide), ← first, ← condition, ← increment, Part.numbers,
        desugarFor_numbers, List.append_assoc, List.append_assoc]
      -- The increment is read before the body.
      apply List.Perm.append_left
      apply List.Perm.append_left
      exact List.perm_append_comm.trans (repeated.append_left _)
  | function kind named left parameters right start _ stop ih =>
      intro sounds
      have inner := ih fun t member => sounds t (by simp [member])
      rw [numbers_skip_last stop (by decide), numbers_append, numbers_skip kind (by decide),
        numbers_skip named (by decide), numbers_skip left (by decide), parameters.numbers,
        numbers_skip right (by decide), numbers_skip start (by decide)]
      exact inner
  | declared kind inner =>
      intro sounds
      have own := inner.numbers fun t member => sounds t (by simp [member])
      rw [numbers_skip kind (by decide), ← own]
      exact .rfl
  | statement _ ih => exact ih
  | noDeclarations =>
      intro _
      exact .rfl
  | moreDeclarations _ _ ihFirst ihOthers =>
      intro sounds
      have first := ihFirst fun t member => sounds t (by simp [member])
      have others := ihOthers fun t member => sounds t (by simp [member])
      rw [numbers_append]
      exact first.append others

end Grammar

namespace Source

open Binary (overflow)

theorem IsClean.numbers {source : String} (clean : IsClean source) :
    (Stmt.numbersAll (statements source)).Perm (Token.numbers (Token.scan source).1) := by
  obtain ⟨tokens, placed, spelled, same, sounds, formed⟩ := clean.exists_program
  have whole := Token.scan_spelled spelled
  have scanned : Token.numbers (Token.scan source).1 = Token.numbers tokens := by
    rw [← Token.numbers_placeless, whole, Token.numbers_skip_last rfl (by decide)]
  have own : Token.numbers placed = Token.numbers tokens := by
    rw [← Token.numbers_placeless, same, Token.numbers_placeless]
  rw [scanned, ← own]
  exact formed.numbers sounds

/-- Every number of a source is the one nearest to what stands there, and infinite from halfway
behind the largest finite number on. A program without mistakes has the numbers of its source: none
is a NaN or has a sign, and one is infinite just if the source has one that is too large. -/
theorem numbers_are_rounded (source : String) :
    (∀ t ∈ (Token.scan source).1, t.kind = .number → ∃ v x, t.Denotes v x) ∧
      (IsClean source →
        (Stmt.numbersAll (statements source)).Perm (Token.numbers (Token.scan source).1) ∧
        (∀ x ∈ Stmt.numbersAll (statements source),
          x.isNaN = false ∧ Binary.isNegative x = false) ∧
        ((∃ x ∈ Stmt.numbersAll (statements source), x.isFinite = false) ↔
          ∃ t ∈ (Token.scan source).1, t.kind = .number ∧
            ∃ v x, t.Denotes v x ∧ overflow ≤ v)) := by
  have reads : ∀ t ∈ (Token.scan source).1, t.kind = .number → ∃ v x, t.Denotes v x :=
    fun t member kind => Token.exists_denotes member kind
  refine ⟨reads, fun clean => ?_⟩
  have same := clean.numbers
  have found : ∀ x, x ∈ Stmt.numbersAll (statements source) ↔
      ∃ t ∈ (Token.scan source).1, t.kind = .number ∧ ∃ v, t.Denotes v x := by
    intro x
    rw [same.mem_iff, Token.mem_numbers_iff]
    constructor
    · rintro ⟨t, member, kind, literal⟩
      obtain ⟨v, y, read⟩ := reads t member kind
      have equal : x = y := by
        have carried := read.carries
        rw [literal] at carried
        cases carried
        rfl
      rw [equal]
      exact ⟨t, member, kind, v, read⟩
    · rintro ⟨t, member, kind, v, read⟩
      exact ⟨t, member, kind, read.carries⟩
  refine ⟨same, fun x member => ?_, ?_⟩
  · obtain ⟨_, _, _, v, read⟩ := (found x).mp member
    exact ⟨read.rounds.known, read.rounds.unsigned⟩
  · constructor
    · rintro ⟨x, member, infinite⟩
      obtain ⟨t, inside, kind, v, read⟩ := (found x).mp member
      refine ⟨t, inside, kind, v, x, read, not_lt.mp fun small => ?_⟩
      rw [read.rounds.finite_iff.mpr small] at infinite
      cases infinite
    · rintro ⟨t, inside, kind, v, x, read, large⟩
      refine ⟨x, (found x).mpr ⟨t, inside, kind, v, read⟩, ?_⟩
      rw [Bool.eq_false_iff, ne_eq, read.rounds.finite_iff]
      exact not_lt.mpr large

def printing (lexeme : List Char) : String :=
  String.ofList ("print".toList ++ ' ' :: (lexeme ++ [';']))

theorem printing_numeral {lexeme whole fraction : List Char}
    (numeral : IsNumeral lexeme whole fraction) :
    IsClean (printing lexeme) ∧
      Token.numbers (Token.scan (printing lexeme)).1 = [Token.numberValue lexeme] := by
  have reads : ReadsAs (.statement false false
      (.print (.literal (.number (Token.numberValue lexeme)))))
      ("print".toList ++ ' ' :: (lexeme ++ [';'])) :=
    .print ((Reads.numeral numeral).loosen .assignment (by decide))
  obtain ⟨tokens, spells, formed⟩ := reads
  have text : (printing lexeme).toList = "print".toList ++ ' ' :: (lexeme ++ [';']) :=
    String.toList_ofList
  rw [← text] at spells
  have program : IsProgram [.print (.literal (.number (Token.numberValue lexeme)))] tokens := by
    have alone := Forms.moreDeclarations (.statement formed) .noDeclarations
    rwa [List.append_nil] at alone
  have own := program.numbers (Token.spelled_sound spells.whole)
  have scanned := Token.scan_spelled spells.whole
  refine ⟨(clean_of_program spells.whole rfl program).1, ?_⟩
  rw [← Token.numbers_placeless, scanned, Token.numbers_skip_last rfl (by decide)]
  exact List.perm_singleton.mp own.symm

theorem numbers_are_rounded_tenth :
    IsClean (printing "0.1".toList) ∧
      (∃ t ∈ (Token.scan (printing "0.1".toList)).1, t.kind = .number ∧ ∃ v x, t.Denotes v x) ∧
      Stmt.numbersAll (statements (printing "0.1".toList)) = [Token.numberValue "0.1".toList] := by
  have numeral : IsNumeral "0.1".toList ['0'] ['1'] :=
    ⟨by decide, List.forall_mem_singleton.mpr rfl, List.forall_mem_singleton.mpr rfl, by decide⟩
  obtain ⟨clean, numbers⟩ := printing_numeral numeral
  obtain ⟨tokens, program⟩ := numbers_are_rounded (printing "0.1".toList)
  have member : Token.numberValue "0.1".toList ∈
      Token.numbers (Token.scan (printing "0.1".toList)).1 := by
    rw [numbers]
    exact List.mem_singleton_self _
  obtain ⟨t, inside, kind, _⟩ := Token.mem_numbers_iff.mp member
  have same := (program clean).1
  rw [numbers] at same
  exact ⟨clean, ⟨t, inside, kind, tokens t inside kind⟩, List.perm_singleton.mp same⟩

/-- Ten to the power 309. -/
def tooLarge : List Char := '1' :: List.replicate 309 '0'

/-- The number of a token, and of a program without mistakes, can be infinite. -/
theorem numbers_infinite :
    IsClean (printing tooLarge) ∧
      (∃ t ∈ (Token.scan (printing tooLarge)).1, t.kind = .number ∧
        ∃ x, t.literal = some (.number x) ∧ x.isFinite = false) ∧
      ∃ x ∈ Stmt.numbersAll (statements (printing tooLarge)), x.isFinite = false := by
  have digits : ∀ c ∈ tooLarge, c.isDigit = true := by
    intro c member
    rcases List.mem_cons.mp member with rfl | zero
    · decide
    · rw [List.eq_of_mem_replicate zero]
      decide
  have numeral : IsNumeral tooLarge tooLarge [] := ⟨List.cons_ne_nil _ _, digits, by simp, rfl⟩
  obtain ⟨clean, numbers⟩ := printing_numeral numeral
  have infinite : (Token.numberValue tooLarge).isFinite = false := by
    rw [Bool.eq_false_iff, ne_eq, (Binary.status_of_code _).1]
    decide +kernel
  have member : Token.numberValue tooLarge ∈ Token.numbers (Token.scan (printing tooLarge)).1 := by
    rw [numbers]
    exact List.mem_singleton_self _
  obtain ⟨t, inside, kind, literal⟩ := Token.mem_numbers_iff.mp member
  exact ⟨clean, ⟨t, inside, kind, _, literal, infinite⟩, _, clean.numbers.mem_iff.mpr member,
    infinite⟩

end Source

end Jess
