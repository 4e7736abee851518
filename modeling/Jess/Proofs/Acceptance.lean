import Jess.Proofs.StatementReading
import Jess.Proofs.StatementSoundness

/-!
# The parser accepts its grammar

A token list that ends with its only end token is read without a complaint if
and only if the tokens before the end form a program, and then the statements
are the tree of every derivation, so a program has only one.
-/

namespace Jess.Parser

open Token (Kind)
open Grammar

theorem program_of_clean {tokens : List Token} {ending : Token}
    (inside : ∀ t ∈ tokens, t.kind ≠ .eof) (isEnd : ending.kind = .eof)
    (clean : (read (tokens ++ [ending])).isClean = true) :
    IsProgram (read (tokens ++ [ending])).statements tokens := by
  have closed := closed_append inside isEnd
  obtain ⟨t, rest, split⟩ := List.exists_cons_of_ne_nil closed.ne_nil
  have settles : Settles (declarations (enoughDepth (tokens ++ [ending]).length) #[]) []
      (tokens ++ [ending]) 0 _ :=
    declarations_settle #[] closed (by simp only [enoughDepth]; omega)
  have settled := settles #[]
  have place : (⟨⟨[], t, rest⟩, #[]⟩ : State) = .over [] (t :: rest) #[] := rfl
  rw [split] at settled clean ⊢
  simp only [read, Cursor.ofList?, readFrom, place] at clean ⊢
  cases run : declarations (enoughDepth (t :: rest).length) #[] (.over [] (t :: rest) #[]) with
  | ok program s =>
      rw [run] at settled clean
      obtain ⟨used, left, filed, passes, grown, _, promise⟩ := settled
      have none : filed = #[] := by
        simpa [Outcome.isClean, grown] using clean
      obtain ⟨later, rfl, formed, last, rfl⟩ := promise none
      have whole : tokens ++ [ending] = used ++ [last] := split.trans passes.split
      have same : tokens = used := (List.append_inj' whole rfl).1
      simpa [same] using formed
  | error stop s =>
      rw [run] at settled clean
      obtain ⟨_, _, _, filed, _, grown, some⟩ := settled
      have none : filed = #[] := by
        simpa [Outcome.isClean, grown] using clean
      exact absurd none some

/-- The parser reports nothing exactly on the programs of the grammar, and gives their trees. -/
theorem accepts_exactly_programs {tokens : List Token} {ending : Token}
    (inside : ∀ t ∈ tokens, t.kind ≠ .eof) (isEnd : ending.kind = .eof) :
    ((read (tokens ++ [ending])).isClean = true ↔ ∃ program, IsProgram program tokens) ∧
      ∀ program, IsProgram program tokens → (read (tokens ++ [ending])).statements = program := by
  refine ⟨⟨?_, ?_⟩, ?_⟩
  · intro clean
    exact ⟨_, program_of_clean inside isEnd clean⟩
  · rintro ⟨program, formed⟩
    rw [read_of_program formed isEnd]
    rfl
  · intro program formed
    rw [read_of_program formed isEnd]

private def nameToken (lexeme : String) : Token := .unplaced .identifier lexeme 1

private def symbolToken (s : Token.Symbol) : Token := .unplaced (.symbol s) s.spelling 1

private def keywordToken (w : Token.Keyword) : Token := .unplaced (.keyword w) w.spelling 1

/-- The tokens of `for (; f(a, b) < c + d * c;) if (a) if (b) c; else d = -a;` -/
private def loopOfConditionals : List Token :=
  [keywordToken .kwFor, symbolToken .leftParen, symbolToken .semicolon, nameToken "f",
    symbolToken .leftParen, nameToken "a", symbolToken .comma, nameToken "b",
    symbolToken .rightParen, symbolToken .less, nameToken "c", symbolToken .plus, nameToken "d",
    symbolToken .star, nameToken "c", symbolToken .semicolon, symbolToken .rightParen,
    keywordToken .kwIf, symbolToken .leftParen, nameToken "a", symbolToken .rightParen,
    keywordToken .kwIf, symbolToken .leftParen, nameToken "b", symbolToken .rightParen,
    nameToken "c", symbolToken .semicolon, keywordToken .kwElse, nameToken "d",
    symbolToken .equal, symbolToken .minus, nameToken "a", symbolToken .semicolon]

private def conditionOfLoop : Expr :=
  .binary .lt (symbolToken .less)
    (.call (.variable (nameToken "f")) (symbolToken .rightParen)
      [.variable (nameToken "a"), .variable (nameToken "b")])
    (.binary .add (symbolToken .plus) (.variable (nameToken "c"))
      (.binary .mul (symbolToken .star) (.variable (nameToken "d")) (.variable (nameToken "c"))))

private theorem name_derives (level : Level) (lexeme : String) :
    Derives (.expression level (.variable (nameToken lexeme))) [nameToken lexeme] := by
  have named : Derives (.expression .primary (.variable (nameToken lexeme))) [nameToken lexeme] :=
    .named rfl
  exact named.loosen level (Level.rank_le_nine level)

/-- The product is an operand of the sum, the sum one of the comparison, and the `else` goes to
the inner conditional. -/
theorem accepts_loop_of_conditionals :
    (∀ t ∈ loopOfConditionals, t.kind ≠ .eof) ∧ (Token.eof 1 0).kind = .eof ∧
      (read (loopOfConditionals ++ [Token.eof 1 0])).isClean = true ∧
      (read (loopOfConditionals ++ [Token.eof 1 0])).statements =
        [.loop conditionOfLoop
          (.ifThen (.variable (nameToken "a"))
            (.ifElse (.variable (nameToken "b")) (.expression (.variable (nameToken "c")))
              (.expression (.assign (nameToken "d")
                (.unary .negate (symbolToken .minus) (.variable (nameToken "a")))))))] := by
  have inside : ∀ t ∈ loopOfConditionals, t.kind ≠ .eof := by decide
  have symbol (s : Token.Symbol) : (symbolToken s).kind = .symbol s := rfl
  have keyword (w : Token.Keyword) : (keywordToken w).kind = .keyword w := rfl
  have given : Derives (.items _) _ :=
    .moreItems (name_derives .assignment "a") (symbol .comma)
      (.lastItem (name_derives .assignment "b"))
  have call : Derives (.expression .call _) _ :=
    .call (name_derives .call "f") (symbol .leftParen) (.someArguments given) (by decide)
      (symbol .rightParen)
  have product : Derives (.expression .multiplicative (.binary .mul (symbolToken .star) _ _)) _ :=
    .operation (name_derives _ "d") (.binary (by decide)) (name_derives _ "c")
  have sum : Derives (.expression .additive (.binary .add (symbolToken .plus) _ _)) _ :=
    .operation (name_derives _ "c") (.binary (by decide)) product
  have compared : Derives (.expression .comparison conditionOfLoop) _ :=
    .operation (call.loosen .comparison (by decide)) (.binary (by decide)) sum
  have negated : Derives (.expression .unary (.unary .negate (symbolToken .minus) _)) _ :=
    .unary (by decide) (name_derives _ "a")
  have assigned : IsExpression _ _ :=
    .assign (rfl : (nameToken "d").kind = .identifier) (symbol .equal)
      (negated.loosen .assignment (by decide))
  have inner : Forms (.statement false false _) _ :=
    .ifElse (keyword .kwIf) (symbol .leftParen) (name_derives .assignment "b") (symbol .rightParen)
      (.expression (name_derives .assignment "c") (symbol .semicolon)) (keyword .kwElse)
      (.expression assigned (symbol .semicolon))
  have outer : Forms (.statement false true _) _ :=
    .ifThen (keyword .kwIf) (symbol .leftParen) (name_derives .assignment "a") (symbol .rightParen)
      inner
  have tested : IsExpression conditionOfLoop _ := compared.loosen .assignment (by decide)
  have loop : Forms (.statement false true _) _ :=
    .loopWithClauses (keyword .kwFor) (symbol .leftParen) (.absent (symbol .semicolon))
      (.present tested) (symbol .semicolon) .absent (symbol .rightParen) outer .tested
  have formed : IsProgram _ loopOfConditionals :=
    .moreDeclarations (.statement loop) .noDeclarations
  have isEnd : (Token.eof 1 0).kind = .eof := rfl
  obtain ⟨clean, trees⟩ := accepts_exactly_programs inside isEnd
  exact ⟨inside, rfl, clean.mpr ⟨_, formed⟩, trees _ formed⟩

end Jess.Parser
