import Jess.Tree

/-!
# The grammar

A phrase is what a stretch of tokens stands for: an expression of a level, the
arguments of a call, a statement, a declaration, or the declarations of a
block. Each rule builds the tree of a phrase from the trees of its parts and
from the tokens themselves, so a derivation fixes which token stands in which
node.

A statement is open if an `else` behind it would become part of it. Only a
statement that is not open may stand between a condition and its `else`, and
so an `else` belongs to the nearest condition that can take it.
-/

namespace Jess.Grammar

open Token (Kind)

/-- The levels of expressions. Each one contains those after it. -/
inductive Level
  | assignment | or | and | equality | comparison | additive | multiplicative | unary | call
  | primary
deriving Repr, DecidableEq

namespace Level

/-- The level of the right operand of an operator, which binds more strongly. -/
def tighter : Level → Level
  | assignment => or
  | or => and
  | and => equality
  | equality => comparison
  | comparison => additive
  | additive => multiplicative
  | multiplicative => unary
  | unary => call
  | call => primary
  | primary => primary

def binaryOperators : Level → List (Kind × BinaryOp)
  | equality => [(.symbol .equalEqual, .eq), (.symbol .bangEqual, .notEq)]
  | comparison =>
      [(.symbol .less, .lt), (.symbol .lessEqual, .ltEq), (.symbol .greater, .gt),
        (.symbol .greaterEqual, .gtEq)]
  | additive => [(.symbol .plus, .add), (.symbol .minus, .sub)]
  | multiplicative => [(.symbol .star, .mul), (.symbol .slash, .div)]
  | _ => []

def logicalOperators : Level → List (Kind × LogicalOp)
  | or => [(.keyword .kwOr, .or)]
  | and => [(.keyword .kwAnd, .and)]
  | _ => []

def infixes (level : Level) : List Kind :=
  level.binaryOperators.map Prod.fst ++ level.logicalOperators.map Prod.fst

end Level

def unaryOperators : List (Kind × UnaryOp) :=
  [(.symbol .minus, .negate), (.symbol .bang, .not)]

inductive Operation (operator : Token) (left right : Expr) : Level → Expr → Prop
  | binary {level : Level} {op : BinaryOp} (listed : (operator.kind, op) ∈ level.binaryOperators) :
      Operation operator left right level (.binary op operator left right)
  | logical {level : Level} {op : LogicalOp}
      (listed : (operator.kind, op) ∈ level.logicalOperators) :
      Operation operator left right level (.logical op operator left right)

/-- The literal that a token is. A number or a string carries its own. -/
inductive Constant : Token → Literal → Prop
  | falsity {t : Token} (kind : t.kind = .keyword .kwFalse) : Constant t (.boolean false)
  | truth {t : Token} (kind : t.kind = .keyword .kwTrue) : Constant t (.boolean true)
  | nothing {t : Token} (kind : t.kind = .keyword .kwNil) : Constant t .nil
  | number {t : Token} (kind : t.kind = .number) : Constant t (t.literal.getD .nil)
  | string {t : Token} (kind : t.kind = .string) : Constant t (t.literal.getD .nil)

/-- What tokens can stand for within one statement. -/
inductive Phrase
  | expression (level : Level) (e : Expr)
  | arguments (args : List Expr)
  | items (args : List Expr)

inductive Derives : Phrase → List Token → Prop
  | literal {t : Token} {v : Literal} (constant : Constant t v) :
      Derives (.expression .primary (.literal v)) [t]
  | named {name : Token} (kind : name.kind = .identifier) :
      Derives (.expression .primary (.variable name)) [name]
  | grouping {opening closing : Token} {tokens : List Token} {e : Expr}
      (left : opening.kind = .symbol .leftParen)
      (inner : Derives (.expression .assignment e) tokens)
      (right : closing.kind = .symbol .rightParen) :
      Derives (.expression .primary (.grouping e)) (opening :: tokens ++ [closing])
  | call {opening closing : Token} {front tokens : List Token} {callee : Expr} {args : List Expr}
      (called : Derives (.expression .call callee) front)
      (left : opening.kind = .symbol .leftParen)
      (given : Derives (.arguments args) tokens)
      (few : args.length ≤ 255)
      (right : closing.kind = .symbol .rightParen) :
      Derives (.expression .call (.call callee closing args))
        (front ++ opening :: tokens ++ [closing])
  | noArguments : Derives (.arguments []) []
  | someArguments {args : List Expr} {tokens : List Token} (given : Derives (.items args) tokens) :
      Derives (.arguments args) tokens
  | lastItem {e : Expr} {tokens : List Token}
      (item : Derives (.expression .assignment e) tokens) : Derives (.items [e]) tokens
  | moreItems {comma : Token} {e : Expr} {args : List Expr} {tokens rest : List Token}
      (item : Derives (.expression .assignment e) tokens)
      (kind : comma.kind = .symbol .comma)
      (others : Derives (.items args) rest) :
      Derives (.items (e :: args)) (tokens ++ comma :: rest)
  | unary {operator : Token} {op : UnaryOp} {e : Expr} {tokens : List Token}
      (listed : (operator.kind, op) ∈ unaryOperators)
      (operand : Derives (.expression .unary e) tokens) :
      Derives (.expression .unary (.unary op operator e)) (operator :: tokens)
  | operation {level : Level} {operator : Token} {left right e : Expr} {front back : List Token}
      (first : Derives (.expression level left) front)
      (joined : Operation operator left right level e)
      (second : Derives (.expression level.tighter right) back) :
      Derives (.expression level e) (front ++ operator :: back)
  | assign {name equals : Token} {e : Expr} {tokens : List Token}
      (kind : name.kind = .identifier)
      (sign : equals.kind = .symbol .equal)
      (value : Derives (.expression .assignment e) tokens) :
      Derives (.expression .assignment (.assign name e)) (name :: equals :: tokens)
  | tighter {level : Level} {e : Expr} {tokens : List Token}
      (inner : Derives (.expression level.tighter e) tokens) :
      Derives (.expression level e) tokens

abbrev IsExpression (e : Expr) (tokens : List Token) : Prop :=
  Derives (.expression .assignment e) tokens

inductive IsVariable : Stmt → List Token → Prop
  | bare {name closing : Token} (kind : name.kind = .identifier)
      (semicolon : closing.kind = .symbol .semicolon) :
      IsVariable (.declare name none) [name, closing]
  | initialized {name equals closing : Token} {e : Expr} {tokens : List Token}
      (kind : name.kind = .identifier) (sign : equals.kind = .symbol .equal)
      (value : IsExpression e tokens) (semicolon : closing.kind = .symbol .semicolon) :
      IsVariable (.declare name (some e)) (name :: equals :: tokens ++ [closing])

inductive AreNames : List Token → List Token → Prop
  | last {name : Token} (kind : name.kind = .identifier) : AreNames [name] [name]
  | more {name comma : Token} {names tokens : List Token} (kind : name.kind = .identifier)
      (separator : comma.kind = .symbol .comma) (others : AreNames names tokens) :
      AreNames (name :: names) (name :: comma :: tokens)

def AreParameters (params tokens : List Token) : Prop :=
  (params = [] ∧ tokens = []) ∨ (AreNames params tokens ∧ params.length ≤ 255)

inductive IsInitializer : Option Stmt → List Token → Prop
  | absent {closing : Token} (semicolon : closing.kind = .symbol .semicolon) :
      IsInitializer none [closing]
  | declared {keyword : Token} {s : Stmt} {tokens : List Token}
      (kind : keyword.kind = .keyword .kwVar) (inner : IsVariable s tokens) :
      IsInitializer (some s) (keyword :: tokens)
  | expression {closing : Token} {e : Expr} {tokens : List Token} (value : IsExpression e tokens)
      (semicolon : closing.kind = .symbol .semicolon) :
      IsInitializer (some (.expression e)) (tokens ++ [closing])

inductive IsClause : Option Expr → List Token → Prop
  | absent : IsClause none []
  | present {e : Expr} {tokens : List Token} (value : IsExpression e tokens) :
      IsClause (some e) tokens

/-- The tree of a loop with clauses. Without a condition it goes on for good, an increment
stands behind the body in a block, and an initializer before the loop in another one. -/
inductive IsLoop : Option Stmt → Option Expr → Option Expr → Stmt → Stmt → Prop
  | endless {body : Stmt} : IsLoop none none none body (.loop (.literal (.boolean true)) body)
  | tested {condition : Expr} {body : Stmt} :
      IsLoop none (some condition) none body (.loop condition body)
  | stepped {condition : Option Expr} {increment : Expr} {body s : Stmt}
      (inner : IsLoop none condition none (.block [body, .expression increment]) s) :
      IsLoop none condition (some increment) body s
  | started {first : Stmt} {condition increment : Option Expr} {body s : Stmt}
      (inner : IsLoop none condition increment body s) :
      IsLoop (some first) condition increment body (.block [first, s])

/-- What tokens can stand for as a whole. -/
inductive Part
  | statement (inFunction isOpen : Bool) (s : Stmt)
  | declaration (inFunction isOpen : Bool) (s : Stmt)
  | declarations (inFunction : Bool) (body : List Stmt)

/-- The rules of statements. Branches and bodies of loops are statements, so they declare
nothing themselves, and a `return` is for functions only. -/
inductive Forms : Part → List Token → Prop
  | expression {inFunction : Bool} {closing : Token} {e : Expr} {tokens : List Token}
      (value : IsExpression e tokens) (semicolon : closing.kind = .symbol .semicolon) :
      Forms (.statement inFunction false (.expression e)) (tokens ++ [closing])
  | print {inFunction : Bool} {keyword closing : Token} {e : Expr} {tokens : List Token}
      (kind : keyword.kind = .keyword .kwPrint)
      (value : IsExpression e tokens) (semicolon : closing.kind = .symbol .semicolon) :
      Forms (.statement inFunction false (.print e)) (keyword :: tokens ++ [closing])
  | giveBack {keyword closing : Token} (kind : keyword.kind = .keyword .kwReturn)
      (semicolon : closing.kind = .symbol .semicolon) :
      Forms (.statement true false (.giveBack keyword none)) [keyword, closing]
  | giveBackValue {keyword closing : Token} {e : Expr} {tokens : List Token}
      (kind : keyword.kind = .keyword .kwReturn)
      (value : IsExpression e tokens) (semicolon : closing.kind = .symbol .semicolon) :
      Forms (.statement true false (.giveBack keyword (some e))) (keyword :: tokens ++ [closing])
  | block {inFunction : Bool} {opening closing : Token} {body : List Stmt} {tokens : List Token}
      (left : opening.kind = .symbol .leftBrace)
      (inner : Forms (.declarations inFunction body) tokens)
      (right : closing.kind = .symbol .rightBrace) :
      Forms (.statement inFunction false (.block body)) (opening :: tokens ++ [closing])
  | ifThen {inFunction isOpen : Bool} {keyword opening closing : Token} {condition : Expr}
      {branch : Stmt} {tested tokens : List Token}
      (kind : keyword.kind = .keyword .kwIf) (left : opening.kind = .symbol .leftParen)
      (test : IsExpression condition tested) (right : closing.kind = .symbol .rightParen)
      (first : Forms (.statement inFunction isOpen branch) tokens) :
      Forms (.statement inFunction true (.ifThen condition branch))
        (keyword :: opening :: tested ++ closing :: tokens)
  | ifElse {inFunction isOpen : Bool} {keyword opening closing divider : Token} {condition : Expr}
      {branch other : Stmt} {tested tokens rest : List Token}
      (kind : keyword.kind = .keyword .kwIf) (left : opening.kind = .symbol .leftParen)
      (test : IsExpression condition tested) (right : closing.kind = .symbol .rightParen)
      (first : Forms (.statement inFunction false branch) tokens)
      (middle : divider.kind = .keyword .kwElse)
      (second : Forms (.statement inFunction isOpen other) rest) :
      Forms (.statement inFunction isOpen (.ifElse condition branch other))
        (keyword :: opening :: tested ++ closing :: tokens ++ divider :: rest)
  | loop {inFunction isOpen : Bool} {keyword opening closing : Token} {condition : Expr}
      {body : Stmt} {tested tokens : List Token}
      (kind : keyword.kind = .keyword .kwWhile) (left : opening.kind = .symbol .leftParen)
      (test : IsExpression condition tested) (right : closing.kind = .symbol .rightParen)
      (repeated : Forms (.statement inFunction isOpen body) tokens) :
      Forms (.statement inFunction isOpen (.loop condition body))
        (keyword :: opening :: tested ++ closing :: tokens)
  | loopWithClauses {inFunction isOpen : Bool} {keyword opening middle closing : Token}
      {initializer : Option Stmt} {condition increment : Option Expr} {body s : Stmt}
      {started tested stepped tokens : List Token}
      (kind : keyword.kind = .keyword .kwFor) (left : opening.kind = .symbol .leftParen)
      (start : IsInitializer initializer started)
      (test : IsClause condition tested) (semicolon : middle.kind = .symbol .semicolon)
      (step : IsClause increment stepped) (right : closing.kind = .symbol .rightParen)
      (repeated : Forms (.statement inFunction isOpen body) tokens)
      (tree : IsLoop initializer condition increment body s) :
      Forms (.statement inFunction isOpen s)
        (keyword :: opening :: started ++ tested ++ middle :: stepped ++ closing :: tokens)
  | function {inFunction : Bool} {keyword name opening closing brace unbrace : Token}
      {params listed tokens : List Token} {body : List Stmt}
      (kind : keyword.kind = .keyword .kwFunc) (named : name.kind = .identifier)
      (left : opening.kind = .symbol .leftParen) (parameters : AreParameters params listed)
      (right : closing.kind = .symbol .rightParen) (start : brace.kind = .symbol .leftBrace)
      (inner : Forms (.declarations true body) tokens)
      (stop : unbrace.kind = .symbol .rightBrace) :
      Forms (.declaration inFunction false (.function name params body))
        (keyword :: name :: opening :: listed ++ closing :: brace :: tokens ++ [unbrace])
  | declared {inFunction : Bool} {keyword : Token} {s : Stmt} {tokens : List Token}
      (kind : keyword.kind = .keyword .kwVar) (inner : IsVariable s tokens) :
      Forms (.declaration inFunction false s) (keyword :: tokens)
  | statement {inFunction isOpen : Bool} {s : Stmt} {tokens : List Token}
      (inner : Forms (.statement inFunction isOpen s) tokens) :
      Forms (.declaration inFunction isOpen s) tokens
  | noDeclarations {inFunction : Bool} : Forms (.declarations inFunction []) []
  | moreDeclarations {inFunction isOpen : Bool} {s : Stmt} {body : List Stmt}
      {tokens rest : List Token}
      (first : Forms (.declaration inFunction isOpen s) tokens)
      (others : Forms (.declarations inFunction body) rest) :
      Forms (.declarations inFunction (s :: body)) (tokens ++ rest)

abbrev IsProgram (program : List Stmt) (tokens : List Token) : Prop :=
  Forms (.declarations false program) tokens

end Jess.Grammar
