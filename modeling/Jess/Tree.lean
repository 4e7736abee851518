import Jess.Token

/-!
Syntax trees. A node keeps the token that a runtime error at it is blamed on: the
operator, the name, or the closing parenthesis of a call.
-/

namespace Jess

inductive UnaryOp
  | negate
  | not
deriving Repr, DecidableEq

inductive BinaryOp
  | add | sub | mul | div | lt | ltEq | gt | gtEq | eq | notEq
deriving Repr, DecidableEq

inductive LogicalOp
  | and
  | or
deriving Repr, DecidableEq

namespace UnaryOp

def spelling : UnaryOp → String
  | negate => "-"
  | not => "!"

def ofKind? : Token.Kind → Option UnaryOp
  | .symbol .minus => some negate
  | .symbol .bang => some not
  | _ => none

def ofSpelling? (text : String) : Option UnaryOp :=
  [negate, not].find? fun op => op.spelling == text

end UnaryOp

namespace BinaryOp

def spelling : BinaryOp → String
  | add => "+"
  | sub => "-"
  | mul => "*"
  | div => "/"
  | lt => "<"
  | ltEq => "<="
  | gt => ">"
  | gtEq => ">="
  | eq => "=="
  | notEq => "!="

def all : List BinaryOp := [add, sub, mul, div, lt, ltEq, gt, gtEq, eq, notEq]

def ofSpelling? (text : String) : Option BinaryOp := all.find? fun op => op.spelling == text

end BinaryOp

namespace LogicalOp

def spelling : LogicalOp → String
  | and => "and"
  | or => "or"

def ofSpelling? (text : String) : Option LogicalOp :=
  [and, or].find? fun op => op.spelling == text

end LogicalOp

inductive Expr
  | literal (value : Literal)
  | grouping (inner : Expr)
  | unary (op : UnaryOp) (operator : Token) (operand : Expr)
  | binary (op : BinaryOp) (operator : Token) (left right : Expr)
  | logical (op : LogicalOp) (operator : Token) (left right : Expr)
  | variable (name : Token)
  | assign (name : Token) (value : Expr)
  | call (callee : Expr) (paren : Token) (args : List Expr)

instance : Inhabited Expr := ⟨.literal .nil⟩

/-- Statements. A loop with clauses is a `loop` inside of blocks, so it has no node of its
own, and a conditional has one node without and one with an `else`. -/
inductive Stmt
  | expression (e : Expr)
  | print (e : Expr)
  | declare (name : Token) (initializer : Option Expr)
  | block (body : List Stmt)
  | ifThen (condition : Expr) (thenBranch : Stmt)
  | ifElse (condition : Expr) (thenBranch elseBranch : Stmt)
  | loop (condition : Expr) (body : Stmt)
  | function (name : Token) (params : List Token) (body : List Stmt)
  | giveBack (keyword : Token) (value : Option Expr)

instance : Inhabited Stmt := ⟨.block []⟩

namespace Stmt

/-- Whether an `else` written after the statement would become part of it. -/
def endsOpen : Stmt → Bool
  | ifThen _ _ => true
  | ifElse _ _ elseBranch => elseBranch.endsOpen
  | loop _ body => body.endsOpen
  | _ => false

def subject? : Stmt → Option Expr
  | expression e => some e
  | print e => some e
  | declare _ initializer => initializer
  | _ => none

end Stmt

end Jess
