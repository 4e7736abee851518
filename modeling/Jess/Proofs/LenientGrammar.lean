import Mathlib.Computability.Language
import Mathlib.Order.CompletePartialOrder
import Jess.Proofs.Grammar

/-!
# The lenient grammar

The grammar less the rules whose breach is reported without giving up the
statement: whatever has the level of `or` may stand on the left of `=`,
`return` may stand anywhere, and there is no limit on arguments and parameters.
The kinds of the tokens alone decide, so the words are lists of kinds, and no
trees are built. Nor is it said which condition an `else` belongs to, as that
makes no difference to what the words are.
-/

namespace Jess.Grammar.Lenient

open Token (Kind)
open scoped Computability

def constants : List Kind :=
  [.keyword .kwFalse, .keyword .kwTrue, .keyword .kwNil, .number, .string]

/-- What kinds of tokens can stand for within one statement. -/
inductive Phrase
  | expression (level : Level)
  | arguments
  | items

inductive Derives : Phrase → List Kind → Prop
  | literal {kind : Kind} (listed : kind ∈ constants) : Derives (.expression .primary) [kind]
  | named : Derives (.expression .primary) [.identifier]
  | grouping {word : List Kind} (inner : Derives (.expression .assignment) word) :
      Derives (.expression .primary) (.symbol .leftParen :: word ++ [.symbol .rightParen])
  | call {front word : List Kind} (called : Derives (.expression .call) front)
      (given : Derives .arguments word) :
      Derives (.expression .call)
        (front ++ .symbol .leftParen :: word ++ [.symbol .rightParen])
  | noArguments : Derives .arguments []
  | someArguments {word : List Kind} (given : Derives .items word) : Derives .arguments word
  | lastItem {word : List Kind} (item : Derives (.expression .assignment) word) :
      Derives .items word
  | moreItems {word rest : List Kind} (item : Derives (.expression .assignment) word)
      (others : Derives .items rest) : Derives .items (word ++ .symbol .comma :: rest)
  | unary {operator : Kind} {op : UnaryOp} {word : List Kind}
      (listed : (operator, op) ∈ unaryOperators) (operand : Derives (.expression .unary) word) :
      Derives (.expression .unary) (operator :: word)
  | operation {level : Level} {operator : Kind} {front back : List Kind}
      (first : Derives (.expression level) front) (listed : operator ∈ level.infixes)
      (second : Derives (.expression level.tighter) back) :
      Derives (.expression level) (front ++ operator :: back)
  | assign {front back : List Kind} (target : Derives (.expression .or) front)
      (value : Derives (.expression .assignment) back) :
      Derives (.expression .assignment) (front ++ .symbol .equal :: back)
  | tighter {level : Level} {word : List Kind} (inner : Derives (.expression level.tighter) word) :
      Derives (.expression level) word

def spelled (phrase : Phrase) : Language Kind := { word | Derives phrase word }

abbrev expressions : Language Kind := spelled (.expression .assignment)

abbrev just (kind : Kind) : Language Kind := {[kind]}

def bindings : Language Kind :=
  just .identifier * ((1 + just (.symbol .equal) * expressions) * just (.symbol .semicolon))

def names : Language Kind :=
  just .identifier * (just (.symbol .comma) * just .identifier)∗

def parameters : Language Kind := 1 + names

def initializers : Language Kind :=
  just (.symbol .semicolon) + just (.keyword .kwVar) * bindings +
    expressions * just (.symbol .semicolon)

def clauses : Language Kind := 1 + expressions

/-- What kinds of tokens can stand for as a whole. -/
inductive Part
  | statement
  | declaration
  | declarations

inductive Forms : Part → List Kind → Prop
  | expression {word : List Kind} (value : word ∈ expressions) :
      Forms .statement (word ++ [.symbol .semicolon])
  | print {word : List Kind} (value : word ∈ expressions) :
      Forms .statement (.keyword .kwPrint :: word ++ [.symbol .semicolon])
  | giveBack : Forms .statement [.keyword .kwReturn, .symbol .semicolon]
  | giveBackValue {word : List Kind} (value : word ∈ expressions) :
      Forms .statement (.keyword .kwReturn :: word ++ [.symbol .semicolon])
  | block {word : List Kind} (inner : Forms .declarations word) :
      Forms .statement (.symbol .leftBrace :: word ++ [.symbol .rightBrace])
  | ifThen {tested word : List Kind} (test : tested ∈ expressions)
      (first : Forms .statement word) :
      Forms .statement
        (.keyword .kwIf :: .symbol .leftParen :: tested ++ .symbol .rightParen :: word)
  | ifElse {tested word rest : List Kind} (test : tested ∈ expressions)
      (first : Forms .statement word) (second : Forms .statement rest) :
      Forms .statement
        (.keyword .kwIf :: .symbol .leftParen :: tested ++ .symbol .rightParen :: word ++
          .keyword .kwElse :: rest)
  | loop {tested word : List Kind} (test : tested ∈ expressions)
      (repeated : Forms .statement word) :
      Forms .statement
        (.keyword .kwWhile :: .symbol .leftParen :: tested ++ .symbol .rightParen :: word)
  | loopWithClauses {started tested stepped word : List Kind} (start : started ∈ initializers)
      (test : tested ∈ clauses) (step : stepped ∈ clauses) (repeated : Forms .statement word) :
      Forms .statement
        (.keyword .kwFor :: .symbol .leftParen :: started ++ tested ++ .symbol .semicolon ::
          stepped ++ .symbol .rightParen :: word)
  | function {listed word : List Kind} (params : listed ∈ parameters)
      (inner : Forms .declarations word) :
      Forms .declaration
        (.keyword .kwFunc :: .identifier :: .symbol .leftParen :: listed ++
          .symbol .rightParen :: .symbol .leftBrace :: word ++ [.symbol .rightBrace])
  | declared {word : List Kind} (inner : word ∈ bindings) :
      Forms .declaration (.keyword .kwVar :: word)
  | statement {word : List Kind} (inner : Forms .statement word) : Forms .declaration word
  | noDeclarations : Forms .declarations []
  | moreDeclarations {word rest : List Kind} (first : Forms .declaration word)
      (others : Forms .declarations rest) : Forms .declarations (word ++ rest)

def formed (part : Part) : Language Kind := { word | Forms part word }

/-- Tokens whose kinds are a program of the lenient grammar. -/
def IsProgram (tokens : List Token) : Prop := Forms .declarations (tokens.map Token.kind)

end Jess.Grammar.Lenient
