import Jess.Proofs.ExpressionWriting
import Jess.Proofs.Likeness
import Jess.Proofs.Lines

/-!
# The canonical text of a statement

The canonical text of a statement is spelled with tokens that form the
statement that the rewriting `reprint` gives. It is open exactly where the
statement is: the branch before an `else` is put into braces if it is open, so
the `else` stays with its own condition.
-/

namespace Jess

open Token (Spells IsIdentifier Keyword ofSymbol ofKeyword ofName)
open Grammar

namespace Stmt

mutual

/-- What a statement needs to have a canonical text that is read back: its expressions do, its
names are identifiers, functions have few parameters, branches declare nothing, and a `return` is
in a function. -/
def Writable : Stmt → Bool → Prop
  | .expression e, _ => e.Writable
  | .print e, _ => e.Writable
  | .declare name none, _ => IsIdentifier name.lexeme.toList
  | .declare name (some e), _ => IsIdentifier name.lexeme.toList ∧ e.Writable
  | .block body, inFunction => WritableAll body inFunction
  | .ifThen condition thenBranch, inFunction =>
      condition.Writable ∧ thenBranch.declares = false ∧ thenBranch.Writable inFunction
  | .ifElse condition thenBranch elseBranch, inFunction =>
      condition.Writable ∧ (thenBranch.declares = false ∧ thenBranch.Writable inFunction) ∧
        elseBranch.declares = false ∧ elseBranch.Writable inFunction
  | .loop condition body, inFunction =>
      condition.Writable ∧ body.declares = false ∧ body.Writable inFunction
  | .function name params body, _ =>
      IsIdentifier name.lexeme.toList ∧ params.length ≤ 255 ∧
        (∀ param ∈ params, IsIdentifier param.lexeme.toList) ∧ WritableAll body true
  | .giveBack _ none, inFunction => inFunction = true
  | .giveBack _ (some e), inFunction => inFunction = true ∧ e.Writable

def WritableAll : List Stmt → Bool → Prop
  | [], _ => True
  | s :: rest, inFunction => s.Writable inFunction ∧ WritableAll rest inFunction

end

end Stmt

namespace Token

variable {text later : List Char} {tokens others : List Token}

theorem Spells.ended (spells : Spells text tokens) :
    Spells (text ++ [';']) (tokens ++ [ofSymbol .semicolon]) :=
  spells.append (.symbol .semicolon) fun rest _ => breaks_cons rest (by decide)

theorem Spells.led (w : Keyword) (spells : Spells text tokens) :
    Spells (w.spelling.toList ++ ' ' :: text) (ofKeyword w :: tokens) :=
  (Spells.keyword w).spaced spells

theorem Spells.parenthesized (spells : Spells text tokens) (next : Spells later others) :
    Spells ('(' :: (text ++ (')' :: ' ' :: later)))
      (ofSymbol .leftParen :: tokens ++ ofSymbol .rightParen :: others) := by
  have closing : Spells [')'] [ofSymbol .rightParen] := .symbol .rightParen
  have closed : Spells (text ++ (')' :: ' ' :: later))
      (tokens ++ ([ofSymbol .rightParen] ++ others)) :=
    spells.append (closing.spaced next) fun rest _ => breaks_cons _ (by decide)
  exact closed.opened

theorem Spells.braced (spells : Spells text tokens) :
    Spells ('{' :: (text ++ [' ', '}']))
      (ofSymbol .leftBrace :: tokens ++ [ofSymbol .rightBrace]) := by
  have closing : Spells ['}'] [ofSymbol .rightBrace] := .symbol .rightBrace
  exact (spells.spaced closing).behind rfl rfl (by decide) fun _ _ _ => rfl

end Token

/-- A text is spelled with tokens that form a part of a program. -/
def ReadsAs (part : Part) (text : List Char) : Prop :=
  ∃ tokens, Spells text tokens ∧ Forms part tokens

namespace ReadsAs

variable {inFunction isOpen isOpen' : Bool} {e : Expr} {s p : Stmt} {body : List Stmt}
  {text later other : List Char}

theorem expression (reads : Reads .assignment text e) :
    ReadsAs (.statement inFunction false (.expression e)) (text ++ [';']) := by
  obtain ⟨⟨tokens, spells, derived⟩, _⟩ := reads
  have semicolon : (ofSymbol .semicolon).kind = .symbol .semicolon := rfl
  exact ⟨_, spells.ended, .expression derived semicolon⟩

theorem print (reads : Reads .assignment text e) :
    ReadsAs (.statement inFunction false (.print e))
      ("print".toList ++ ' ' :: (text ++ [';'])) := by
  obtain ⟨⟨tokens, spells, derived⟩, _⟩ := reads
  have keyword : (ofKeyword .kwPrint).kind = .keyword .kwPrint := rfl
  have semicolon : (ofSymbol .semicolon).kind = .symbol .semicolon := rfl
  exact ⟨_, spells.ended.led .kwPrint, .print keyword derived semicolon⟩

theorem giveBack : ReadsAs (.statement true false (.giveBack (ofKeyword .kwReturn) none))
    ("return".toList ++ [';']) := by
  have semicolon : (ofSymbol .semicolon).kind = .symbol .semicolon := rfl
  exact ⟨_, (Spells.keyword .kwReturn).ended, .giveBack rfl semicolon⟩

theorem giveBackValue (reads : Reads .assignment text e) :
    ReadsAs (.statement true false (.giveBack (ofKeyword .kwReturn) (some e)))
      ("return".toList ++ ' ' :: (text ++ [';'])) := by
  obtain ⟨⟨tokens, spells, derived⟩, _⟩ := reads
  have semicolon : (ofSymbol .semicolon).kind = .symbol .semicolon := rfl
  exact ⟨_, spells.ended.led .kwReturn, .giveBackValue rfl derived semicolon⟩

theorem declare {name : String} (identifier : IsIdentifier name.toList) :
    ReadsAs (.declaration inFunction false (.declare (ofName name) none))
      ("var".toList ++ ' ' :: (name.toList ++ [';'])) := by
  have keyword : (ofKeyword .kwVar).kind = .keyword .kwVar := rfl
  have semicolon : (ofSymbol .semicolon).kind = .symbol .semicolon := rfl
  exact ⟨_, (Spells.name identifier).ended.led .kwVar, .declared keyword (.bare rfl semicolon)⟩

theorem declareValue {name : String} (identifier : IsIdentifier name.toList)
    (reads : Reads .assignment text e) :
    ReadsAs (.declaration inFunction false (.declare (ofName name) (some e)))
      ("var".toList ++ ' ' :: (name.toList ++ ' ' :: ('=' :: ' ' :: (text ++ [';'])))) := by
  obtain ⟨⟨tokens, spells, derived⟩, _⟩ := reads
  have sign : Spells ['='] [ofSymbol .equal] := .symbol .equal
  have equals : (ofSymbol .equal).kind = .symbol .equal := rfl
  have keyword : (ofKeyword .kwVar).kind = .keyword .kwVar := rfl
  have semicolon : (ofSymbol .semicolon).kind = .symbol .semicolon := rfl
  exact ⟨_, ((Spells.name identifier).spaced (sign.spaced spells.ended)).led .kwVar,
    .declared keyword (.initialized rfl equals derived semicolon)⟩

theorem block (inner : ReadsAs (.declarations inFunction body) text) :
    ReadsAs (.statement inFunction false (.block body)) ('{' :: (text ++ [' ', '}'])) := by
  obtain ⟨tokens, spells, formed⟩ := inner
  have left : (ofSymbol .leftBrace).kind = .symbol .leftBrace := rfl
  have right : (ofSymbol .rightBrace).kind = .symbol .rightBrace := rfl
  exact ⟨_, spells.braced, .block left formed right⟩

theorem ifThen (condition : Reads .assignment text e)
    (first : ReadsAs (.statement inFunction isOpen s) later) :
    ReadsAs (.statement inFunction true (.ifThen e s))
      ("if".toList ++ ' ' :: '(' :: (text ++ (')' :: ' ' :: later))) := by
  obtain ⟨⟨tested, spells, derived⟩, _⟩ := condition
  obtain ⟨tokens, spells', formed⟩ := first
  have keyword : (ofKeyword .kwIf).kind = .keyword .kwIf := rfl
  have left : (ofSymbol .leftParen).kind = .symbol .leftParen := rfl
  have right : (ofSymbol .rightParen).kind = .symbol .rightParen := rfl
  exact ⟨_, (spells.parenthesized spells').led .kwIf, .ifThen keyword left derived right formed⟩

theorem ifElse (condition : Reads .assignment text e)
    (first : ReadsAs (.statement inFunction false s) later)
    (second : ReadsAs (.statement inFunction isOpen p) other) :
    ReadsAs (.statement inFunction isOpen (.ifElse e s p))
      ("if".toList ++ ' ' :: '(' ::
        (text ++ (')' :: ' ' :: (later ++ ' ' :: ("else".toList ++ ' ' :: other))))) := by
  obtain ⟨⟨tested, spells, derived⟩, _⟩ := condition
  obtain ⟨tokens, spells', formed⟩ := first
  obtain ⟨rest, spells'', formed'⟩ := second
  have keyword : (ofKeyword .kwIf).kind = .keyword .kwIf := rfl
  have left : (ofSymbol .leftParen).kind = .symbol .leftParen := rfl
  have right : (ofSymbol .rightParen).kind = .symbol .rightParen := rfl
  have divider : (ofKeyword .kwElse).kind = .keyword .kwElse := rfl
  have whole := (spells.parenthesized (spells'.spaced (spells''.led .kwElse))).led .kwIf
  refine ⟨_, ?_, .ifElse keyword left derived right formed divider formed'⟩
  simpa [Keyword.spelling] using whole

theorem loop (condition : Reads .assignment text e)
    (repeated : ReadsAs (.statement inFunction isOpen s) later) :
    ReadsAs (.statement inFunction isOpen (.loop e s))
      ("while".toList ++ ' ' :: '(' :: (text ++ (')' :: ' ' :: later))) := by
  obtain ⟨⟨tested, spells, derived⟩, _⟩ := condition
  obtain ⟨tokens, spells', formed⟩ := repeated
  have keyword : (ofKeyword .kwWhile).kind = .keyword .kwWhile := rfl
  have left : (ofSymbol .leftParen).kind = .symbol .leftParen := rfl
  have right : (ofSymbol .rightParen).kind = .symbol .rightParen := rfl
  exact ⟨_, (spells.parenthesized spells').led .kwWhile, .loop keyword left derived right formed⟩

theorem names {params : List String} (some_ : params ≠ [])
    (identifiers : ∀ param ∈ params, IsIdentifier param.toList) :
    ∃ tokens, Spells (String.intercalate ", " params).toList tokens ∧
      AreNames (params.map ofName) tokens := by
  induction params with
  | nil => exact absurd rfl some_
  | cons param rest ih =>
      have first := identifiers param (List.mem_cons_self ..)
      cases rest with
      | nil => exact ⟨[ofName param], by simpa using Spells.name first, .last rfl⟩
      | cons next rest =>
          obtain ⟨tokens, spells, named⟩ := ih (by simp) fun other member =>
            identifiers other (List.mem_cons_of_mem _ member)
          have comma : Spells [','] [ofSymbol .comma] := .symbol .comma
          have separator : (ofSymbol .comma).kind = .symbol .comma := rfl
          have text : (String.intercalate ", " (param :: next :: rest)).toList =
              param.toList ++ (',' :: ' ' :: (String.intercalate ", " (next :: rest)).toList) := by
            simp [String.intercalate_cons_cons]
          refine ⟨[ofName param] ++ ([ofSymbol .comma] ++ tokens), ?_, .more rfl separator named⟩
          rw [text]
          exact (Spells.name first).append (comma.spaced spells) fun rest _ =>
            Token.breaks_cons _ (by decide)

theorem parameters {params : List String} (few : params.length ≤ 255)
    (identifiers : ∀ param ∈ params, IsIdentifier param.toList) :
    ∃ tokens, Spells (String.intercalate ", " params).toList tokens ∧
      AreParameters (params.map ofName) tokens := by
  by_cases none : params = []
  · subst none
    exact ⟨[], by simpa using Spells.nil, .inl ⟨rfl, rfl⟩⟩
  · obtain ⟨tokens, spells, named⟩ := names none identifiers
    exact ⟨tokens, spells, .inr ⟨named, by simpa using few⟩⟩

theorem function {name : String} (identifier : IsIdentifier name.toList) {params : List String}
    (few : params.length ≤ 255) (identifiers : ∀ param ∈ params, IsIdentifier param.toList)
    (inner : ReadsAs (.declarations true body) text) :
    ReadsAs (.declaration inFunction false (.function (ofName name) (params.map ofName) body))
      ("func".toList ++ ' ' :: (name.toList ++
        ('(' :: ((String.intercalate ", " params).toList ++
          (')' :: ' ' :: ('{' :: (text ++ [' ', '}']))))))) := by
  obtain ⟨tokens, spells, formed⟩ := inner
  obtain ⟨listed, spells', parameters⟩ := parameters few identifiers
  have keyword : (ofKeyword .kwFunc).kind = .keyword .kwFunc := rfl
  have left : (ofSymbol .leftParen).kind = .symbol .leftParen := rfl
  have right : (ofSymbol .rightParen).kind = .symbol .rightParen := rfl
  have start : (ofSymbol .leftBrace).kind = .symbol .leftBrace := rfl
  have stop : (ofSymbol .rightBrace).kind = .symbol .rightBrace := rfl
  have header := (Spells.name identifier).append (spells'.parenthesized spells.braced)
    fun rest _ => Token.breaks_cons _ (by decide)
  refine ⟨_, ?_, .function keyword rfl left parameters right start formed stop⟩
  simpa [Keyword.spelling] using header.led .kwFunc

theorem noDeclarations : ReadsAs (.declarations inFunction []) [] := ⟨[], .nil, .noDeclarations⟩

theorem moreDeclarations (first : ReadsAs (.declaration inFunction isOpen s) text)
    (others : ReadsAs (.declarations inFunction body) later)
    (spaced : later = [] ∨ later.head? = some ' ') :
    ReadsAs (.declarations inFunction (s :: body)) (' ' :: text ++ later) := by
  obtain ⟨tokens, spells, formed⟩ := first
  obtain ⟨rest, spells', formed'⟩ := others
  refine ⟨_, ?_, .moreDeclarations formed formed'⟩
  have leading : Spells (' ' :: text) tokens := Spells.nil.spaced spells
  apply leading.append spells'
  intro follow ends
  rcases spaced with rfl | space
  · exact ends
  · obtain ⟨c, cs, rfl⟩ : ∃ c cs, later = c :: cs := by
      cases later with
      | nil => cases space
      | cons c cs => exact ⟨c, cs, rfl⟩
    cases space
    exact Token.breaks_space _

end ReadsAs

namespace Stmt

open Rewriting (reprint)

@[simp] theorem braced_toList (body : String) :
    (braced body).toList = '{' :: (body.toList ++ [' ', '}']) := by
  simp [braced]

theorem canonicalBody_spaced (body : List Stmt) :
    (canonicalBody body).toList = [] ∨ (canonicalBody body).toList.head? = some ' ' := by
  cases body with
  | nil => exact .inl rfl
  | cons s rest => exact .inr (by simp [canonicalBody])

theorem reads_statement {inFunction isOpen : Bool} {s : Stmt} {text : List Char} {declares : Bool}
    (reads : ReadsAs (.statement inFunction isOpen s) text) :
    (declares = false → ReadsAs (.statement inFunction isOpen s) text) ∧
      ReadsAs (.declaration inFunction isOpen s) text := by
  refine ⟨fun _ => reads, ?_⟩
  obtain ⟨tokens, spells, formed⟩ := reads
  exact ⟨tokens, spells, .statement formed⟩

theorem reads_declaration {inFunction isOpen : Bool} {s : Stmt} {text : List Char}
    (reads : ReadsAs (.declaration inFunction isOpen s) text) :
    (true = false → ReadsAs (.statement inFunction isOpen s) text) ∧
      ReadsAs (.declaration inFunction isOpen s) text :=
  ⟨nofun, reads⟩

mutual

/-- The canonical text of a statement is read as the statement with parentheses and braces. -/
theorem reads (s : Stmt) (inFunction : Bool) (writable : s.Writable inFunction) :
    (s.declares = false →
        ReadsAs (.statement inFunction s.endsOpen (s.rewrite reprint)) s.canonical.toList) ∧
      ReadsAs (.declaration inFunction s.endsOpen (s.rewrite reprint)) s.canonical.toList := by
  have inside : ∀ e : Expr, e.Writable →
      Reads .assignment e.canonical.toList (e.rewrite reprint) := fun e own =>
    (e.reads own).loosen .assignment (by decide)
  match s with
  | .expression e =>
      have text : (canonical (.expression e)).toList = e.canonical.toList ++ [';'] := by
        simp [canonical]
      rw [text]
      exact reads_statement (.expression (inside e writable))
  | .print e =>
      have text : (canonical (.print e)).toList =
          "print".toList ++ ' ' :: (e.canonical.toList ++ [';']) := by
        simp [canonical]
      rw [text]
      exact reads_statement (.print (inside e writable))
  | .declare name none =>
      have text : (canonical (.declare name none)).toList =
          "var".toList ++ ' ' :: (name.lexeme.toList ++ [';']) := by
        simp [canonical]
      rw [text]
      exact reads_declaration (.declare writable)
  | .declare name (some e) =>
      have text : (canonical (.declare name (some e))).toList = "var".toList ++
          ' ' :: (name.lexeme.toList ++ ' ' :: ('=' :: ' ' :: (e.canonical.toList ++ [';']))) := by
        simp [canonical]
      rw [text]
      exact reads_declaration (.declareValue writable.1 (inside e writable.2))
  | .block body =>
      have text : (canonical (.block body)).toList =
          '{' :: ((canonicalBody body).toList ++ [' ', '}']) := by
        simp [canonical]
      rw [text]
      exact reads_statement (.block (reads_body body inFunction writable))
  | .ifThen condition thenBranch =>
      have text : (canonical (.ifThen condition thenBranch)).toList = "if".toList ++
          ' ' :: '(' :: (condition.canonical.toList ++
            (')' :: ' ' :: thenBranch.canonical.toList)) := by
        simp [canonical]
      have branch := (reads thenBranch inFunction writable.2.2).1 writable.2.1
      rw [text]
      exact reads_statement (.ifThen (inside condition writable.1) branch)
  | .ifElse condition thenBranch elseBranch =>
      have branch := reads thenBranch inFunction writable.2.1.2
      have other := (reads elseBranch inFunction writable.2.2.2).1 writable.2.2.1
      have test := inside condition writable.1
      cases opens : thenBranch.endsOpen with
      | true =>
          have text : (canonical (.ifElse condition thenBranch elseBranch)).toList =
              "if".toList ++ ' ' :: '(' :: (condition.canonical.toList ++ (')' :: ' ' ::
                (('{' :: (' ' :: thenBranch.canonical.toList ++ [] ++ [' ', '}'])) ++
                  ' ' :: ("else".toList ++ ' ' :: elseBranch.canonical.toList)))) := by
            simp [canonical, opens]
          have only := ReadsAs.moreDeclarations branch.2 .noDeclarations (.inl rfl)
          have tree : (Stmt.ifElse condition thenBranch elseBranch).rewrite reprint =
              .ifElse (condition.rewrite reprint) (.block [thenBranch.rewrite reprint])
                (elseBranch.rewrite reprint) := by
            simp [rewrite, reprint, opens]
          rw [text, tree]
          exact reads_statement (.ifElse test only.block other)
      | false =>
          have text : (canonical (.ifElse condition thenBranch elseBranch)).toList =
              "if".toList ++ ' ' :: '(' :: (condition.canonical.toList ++ (')' :: ' ' ::
                (thenBranch.canonical.toList ++
                  ' ' :: ("else".toList ++ ' ' :: elseBranch.canonical.toList)))) := by
            simp [canonical, opens]
          have tree : (Stmt.ifElse condition thenBranch elseBranch).rewrite reprint =
              .ifElse (condition.rewrite reprint) (thenBranch.rewrite reprint)
                (elseBranch.rewrite reprint) := by
            simp [rewrite, reprint, opens]
          have closed := branch.1 writable.2.1.1
          rw [opens] at closed
          rw [text, tree]
          exact reads_statement (.ifElse test closed other)
  | .loop condition body =>
      have text : (canonical (.loop condition body)).toList = "while".toList ++
          ' ' :: '(' :: (condition.canonical.toList ++ (')' :: ' ' :: body.canonical.toList)) := by
        simp [canonical]
      have repeated := (reads body inFunction writable.2.2).1 writable.2.1
      rw [text]
      exact reads_statement (.loop (inside condition writable.1) repeated)
  | .function name params body =>
      have text : (canonical (.function name params body)).toList = "func".toList ++
          ' ' :: (name.lexeme.toList ++ ('(' ::
            ((String.intercalate ", " (params.map Token.lexeme)).toList ++
              (')' :: ' ' :: ('{' :: ((canonicalBody body).toList ++ [' ', '}'])))))) := by
        simp [canonical, canonicalParams]
      have tree : (Stmt.function name params body).rewrite reprint =
          .function (ofName name.lexeme) ((params.map Token.lexeme).map ofName)
            (rewriteAll reprint body) := by
        rw [List.map_map]
        rfl
      have identifiers : ∀ param ∈ params.map Token.lexeme, IsIdentifier param.toList := by
        intro param member
        obtain ⟨token, listed, rfl⟩ := List.mem_map.mp member
        exact writable.2.2.1 token listed
      have inner := reads_body body true writable.2.2.2
      rw [text, tree]
      exact reads_declaration (.function writable.1 (by simpa using writable.2.1) identifiers inner)
  | .giveBack keyword none =>
      cases (writable : inFunction = true)
      have text : (canonical (.giveBack keyword none)).toList = "return".toList ++ [';'] := by
        simp [canonical]
      rw [text]
      exact reads_statement .giveBack
  | .giveBack keyword (some e) =>
      obtain ⟨within, own⟩ := (writable : inFunction = true ∧ e.Writable)
      cases within
      have text : (canonical (.giveBack keyword (some e))).toList =
          "return".toList ++ ' ' :: (e.canonical.toList ++ [';']) := by
        simp [canonical]
      rw [text]
      exact reads_statement (.giveBackValue (inside e own))

theorem reads_body (body : List Stmt) (inFunction : Bool) (writable : WritableAll body inFunction) :
    ReadsAs (.declarations inFunction (rewriteAll reprint body)) (canonicalBody body).toList := by
  match body with
  | [] => exact .noDeclarations
  | s :: rest =>
      have text : (canonicalBody (s :: rest)).toList =
          ' ' :: s.canonical.toList ++ (canonicalBody rest).toList := by
        simp [canonicalBody]
      have first := (reads s inFunction writable.1).2
      have others := reads_body rest inFunction writable.2
      rw [text]
      exact .moreDeclarations first others (canonicalBody_spaced rest)

end

theorem canonicalProgram_eq (program : List Stmt) :
    canonicalProgram program = Text.unlines (program.map canonical) := by
  rw [canonicalProgram, Text.unlines, List.foldl_map]

theorem reads_program (program : List Stmt) (writable : WritableAll program false) :
    ReadsAs (.declarations false (rewriteAll reprint program))
      (canonicalProgram program).toList := by
  induction program with
  | nil => exact .noDeclarations
  | cons s rest ih =>
      have text : (canonicalProgram (s :: rest)).toList =
          s.canonical.toList ++ '\n' :: (canonicalProgram rest).toList := by
        rw [canonicalProgram_eq, List.map_cons, ← List.singleton_append, Text.unlines_append,
          canonicalProgram_eq]
        simp [Text.unlines]
      obtain ⟨tokens, spells, formed⟩ := (reads s false writable.1).2
      obtain ⟨others, spells', formed'⟩ := ih writable.2
      rw [text]
      exact ⟨_, spells.lined spells', .moreDeclarations formed formed'⟩

end Stmt

namespace Source

open Rewriting (reprint)

theorem clean_of_reads {source : String} {program : List Stmt}
    (reads : ReadsAs (.declarations false program) source.toList) :
    IsClean source ∧ Stmt.placelessAll (statements source) = Stmt.placelessAll program := by
  obtain ⟨tokens, spells, formed⟩ := reads
  exact clean_of_program spells.whole rfl formed

theorem clean_of_canonical (s : Stmt) (writable : s.Writable false) :
    IsClean s.canonical ∧
      Stmt.placelessAll (statements s.canonical) = [(s.rewrite reprint).placeless] := by
  obtain ⟨tokens, spells, formed⟩ := (s.reads false writable).2
  have alone : ReadsAs (.declarations false [s.rewrite reprint]) s.canonical.toList := by
    refine ⟨tokens ++ [], ?_, .moreDeclarations formed .noDeclarations⟩
    rwa [List.append_nil]
  exact clean_of_reads alone

end Source

end Jess
