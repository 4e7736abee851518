import Jess.Tree

/-!
The Lisp form of an expression: every operation is a list that starts with its operator.
-/

namespace Jess

/-- A literal in the Lisp form. Strings stand in quotes, numbers as they are printed. -/
def Literal.lisp : Literal → String
  | .string s => "\"" ++ s ++ "\""
  | other => other.text

namespace Expr

mutual

def lisp : Expr → String
  | .literal value => value.lisp
  | .grouping inner => "(group " ++ inner.lisp ++ ")"
  | .unary op _ operand => "(" ++ op.spelling ++ " " ++ operand.lisp ++ ")"
  | .binary op _ left right =>
      "(" ++ op.spelling ++ " " ++ left.lisp ++ " " ++ right.lisp ++ ")"
  | .logical op _ left right =>
      "(" ++ op.spelling ++ " " ++ left.lisp ++ " " ++ right.lisp ++ ")"
  | .variable name => name.lexeme
  | .assign name value => "(= " ++ name.lexeme ++ " " ++ value.lisp ++ ")"
  | .call callee _ args => "(call " ++ callee.lisp ++ lispArgs args ++ ")"

def lispArgs : List Expr → String
  | [] => ""
  | arg :: rest => " " ++ arg.lisp ++ lispArgs rest

end

end Expr

end Jess
