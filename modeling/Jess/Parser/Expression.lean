import Jess.Parser.Basic
import Jess.Parser.Chain

/-!
Expressions. An expression is a chain of operands, or such a chain followed by `=` and an
expression. An operand is any number of prefix operators before a primary expression with
any number of argument lists behind it. Each parser takes the depth of nesting that is
left to it.
-/

namespace Jess.Parser

open Token

/-- The prefix operators at a place, which is given by its three parts, nearest to the
operand first, and the place after them. -/
def skipPrefixes (done : List (UnaryOp × Token)) (before : List Token) (current : Token) :
    List Token → List (UnaryOp × Token) × Cursor
  | [] => (done, ⟨before, current, []⟩)
  | next :: rest =>
      match UnaryOp.ofKind? current.kind with
      | some op => skipPrefixes ((op, current) :: done) (current :: before) next rest
      | none => (done, ⟨before, current, next :: rest⟩)

def prefixes : Parser (List (UnaryOp × Token)) := fun s =>
  let (ops, cursor) := skipPrefixes [] s.cursor.before s.cursor.current s.cursor.after
  .ok ops { s with cursor := cursor }

def applyPrefixes (ops : List (UnaryOp × Token)) (operand : Expr) : Expr :=
  ops.foldl (fun e op => .unary op.1 op.2 e) operand

def literalOf? (token : Token) : Option Literal :=
  match token.kind with
  | .keyword .kwFalse => some (.boolean false)
  | .keyword .kwTrue => some (.boolean true)
  | .keyword .kwNil => some .nil
  | .number => some (token.literal.getD .nil)
  | .string => some (token.literal.getD .nil)
  | _ => none

mutual

/-- An expression. What stands on the left of `=` has to be a variable, but if it is not,
only that is reported. -/
def expression : Nat → Parser Expr
  | 0 => tooDeep
  | depth + 1 => do
      let target ← chain depth
      if ← check (.symbol .equal) then
        let equals ← advance
        let value ← expression depth
        match target with
        | .variable name => pure (.assign name value)
        | _ =>
            report equals .invalidTarget
            pure target
      else
        pure target

def chain : Nat → Parser Expr
  | 0 => tooDeep
  | depth + 1 => do
      let first ← operand depth
      let links ← links depth #[]
      pure (Chain.toExpr first links)

def links : Nat → Array Chain.Link → Parser (List Chain.Link)
  | 0, _ => tooDeep
  | depth + 1, done => do
      match InfixOp.ofKind? (← current).kind with
      | none => pure done.toList
      | some op =>
          let operator ← advance
          let right ← operand depth
          links depth (done.push ⟨op, operator, right⟩)

def operand : Nat → Parser Expr
  | 0 => tooDeep
  | depth + 1 => do
      let ops ← prefixes
      let callee ← primary depth
      let called ← calls depth callee
      pure (applyPrefixes ops called)

def calls : Nat → Expr → Parser Expr
  | 0, _ => tooDeep
  | depth + 1, callee => do
      if ← eat (.symbol .leftParen) then
        let args ← if ← check (.symbol .rightParen) then pure [] else arguments depth #[]
        let paren ← expect (.symbol .rightParen) .parenAfterArguments
        calls depth (.call callee paren args)
      else
        pure callee

/-- Arguments with commas between them. Each one past the limit is reported. -/
def arguments : Nat → Array Expr → Parser (List Expr)
  | 0, _ => tooDeep
  | depth + 1, done => do
      if maxArity ≤ done.size then
        report (← current) .tooManyArguments
      let arg ← expression depth
      if ← eat (.symbol .comma) then
        arguments depth (done.push arg)
      else
        pure (done.push arg).toList

def primary : Nat → Parser Expr
  | 0 => tooDeep
  | depth + 1 => do
      let token ← current
      match literalOf? token with
      | some literal =>
          let _ ← advance
          pure (.literal literal)
      | none =>
          match token.kind with
          | .identifier =>
              let _ ← advance
              pure (.variable token)
          | .symbol .leftParen =>
              let _ ← advance
              let inner ← expression depth
              let _ ← expect (.symbol .rightParen) .parenAfterExpression
              pure (.grouping inner)
          | _ => fail .expression

end

end Jess.Parser
