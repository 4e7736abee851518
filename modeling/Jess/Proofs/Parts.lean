import Jess.Tree

/-!
# Parts of trees

A statement runs the statements in it and evaluates the expressions in it,
however deep they stand. Only the body of a function is left to its calls. So
the statements and expressions that a program itself comes to, and those that a
call of a function comes to, are the ones within its own statements.
-/

namespace Jess

def Expr.parts : Expr → List Expr
  | .literal _ => []
  | .grouping inner => [inner]
  | .unary _ _ operand => [operand]
  | .binary _ _ left right => [left, right]
  | .logical _ _ left right => [left, right]
  | .variable _ => []
  | .assign _ value => [value]
  | .call callee _ args => callee :: args

namespace Stmt

def operands : Stmt → List Expr
  | .expression e => [e]
  | .print e => [e]
  | .declare _ initializer => initializer.toList
  | .block _ => []
  | .ifThen condition _ => [condition]
  | .ifElse condition _ _ => [condition]
  | .loop condition _ => [condition]
  | .function _ _ _ => []
  | .giveBack _ value => value.toList

/-- The statements that a statement runs. Those of a function are run by its calls. -/
def parts : Stmt → List Stmt
  | .block body => body
  | .ifThen _ s => [s]
  | .ifElse _ s r => [s, r]
  | .loop _ body => [body]
  | _ => []

/-- A statement that some statements come to: one of them, or a part of what they come to. -/
inductive Within (body : List Stmt) : Stmt → Prop
  | listed {s : Stmt} (member : s ∈ body) : Within body s
  | part {outer s : Stmt} (around : Within body outer) (member : s ∈ outer.parts) : Within body s

end Stmt

inductive Expr.Within (body : List Stmt) : Expr → Prop
  | operand {s : Stmt} {e : Expr} (around : s.Within body) (member : e ∈ s.operands) : Within body e
  | part {outer e : Expr} (around : Within body outer) (member : e ∈ outer.parts) : Within body e

end Jess
