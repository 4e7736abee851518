import Jess.Tree

/-!
The canonical text of a tree. Every operation stands in parentheses, so the text reads
back without knowing how strongly operators bind. Numbers that have no spelling of their
own are written as operations that give them.
-/

namespace Jess

/-- A number as an operand. The spelled ones are those without a sign. -/
def Number.canonical (x : Float) : String :=
  let code := Binary.code x
  if Binary.infinityCode < code then "(0 / 0)"
  else if code = Binary.infinityCode then
    if Binary.isNegative x then "(-1 / 0)" else "(1 / 0)"
  else if Binary.isNegative x then "(" ++ Number.text x ++ ")"
  else Number.text x

def Literal.canonical : Literal → String
  | .number x => Number.canonical x
  | .string s => "\"" ++ s ++ "\""
  | other => other.text

namespace Expr

mutual

def canonical : Expr → String
  | .literal value => value.canonical
  | .grouping inner => "(" ++ inner.canonical ++ ")"
  | .unary op _ operand => "(" ++ op.spelling ++ operand.canonical ++ ")"
  | .binary op _ left right =>
      "(" ++ left.canonical ++ " " ++ op.spelling ++ " " ++ right.canonical ++ ")"
  | .logical op _ left right =>
      "(" ++ left.canonical ++ " " ++ op.spelling ++ " " ++ right.canonical ++ ")"
  | .variable name => name.lexeme
  | .assign name value => "(" ++ name.lexeme ++ " = " ++ value.canonical ++ ")"
  | .call callee _ args => callee.canonical ++ "(" ++ canonicalArgs args ++ ")"

def canonicalArgs : List Expr → String
  | [] => ""
  | arg :: rest => arg.canonical ++ canonicalMore rest

def canonicalMore : List Expr → String
  | [] => ""
  | arg :: rest => ", " ++ arg.canonical ++ canonicalMore rest

end

end Expr

namespace Stmt

def canonicalParams (params : List Token) : String :=
  String.intercalate ", " (params.map Token.lexeme)

def braced (body : String) : String :=
  String.singleton '{' ++ body ++ " " ++ String.singleton '}'

mutual

/-- A branch that would take an `else` to itself is written as a block. -/
def canonical : Stmt → String
  | .expression e => e.canonical ++ ";"
  | .print e => "print " ++ e.canonical ++ ";"
  | .declare name (some e) => "var " ++ name.lexeme ++ " = " ++ e.canonical ++ ";"
  | .declare name none => "var " ++ name.lexeme ++ ";"
  | .block body => braced (canonicalBody body)
  | .ifThen condition thenBranch => "if (" ++ condition.canonical ++ ") " ++ thenBranch.canonical
  | .ifElse condition thenBranch elseBranch =>
      let first :=
        if thenBranch.endsOpen then braced (" " ++ thenBranch.canonical)
        else thenBranch.canonical
      "if (" ++ condition.canonical ++ ") " ++ first ++ " else " ++ elseBranch.canonical
  | .loop condition body => "while (" ++ condition.canonical ++ ") " ++ body.canonical
  | .function name params body =>
      "func " ++ name.lexeme ++ "(" ++ canonicalParams params ++ ") " ++ braced (canonicalBody body)
  | .giveBack _ (some e) => "return " ++ e.canonical ++ ";"
  | .giveBack _ none => "return;"

def canonicalBody : List Stmt → String
  | [] => ""
  | stmt :: rest => " " ++ stmt.canonical ++ canonicalBody rest

end

def canonicalProgram (stmts : List Stmt) : String :=
  stmts.foldl (fun text stmt => text ++ stmt.canonical ++ "\n") ""

end Stmt

end Jess
