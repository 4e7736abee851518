import Jess.Diagnostic

/-!
The mistakes of grammar. Most of them say what should have come, and parsing of the
statement stops there. The other ones are noticed where the grammar itself is not in
doubt, so parsing goes on as if nothing had happened.
-/

namespace Jess.Parser

/-- What the grammar allows next where something else was found. -/
inductive Expectation
  | functionName
  | parenAfterFunctionName
  | parameterName
  | parenAfterParameters
  | braceBeforeBody
  | variableName
  | semicolonAfterDeclaration
  | braceAfterBlock
  | parenAfterFor
  | semicolonAfterLoopCondition
  | parenAfterForClauses
  | parenAfterIf
  | parenAfterIfCondition
  | semicolonAfterValue
  | semicolonAfterReturnValue
  | parenAfterWhile
  | parenAfterCondition
  | semicolonAfterExpression
  | parenAfterArguments
  | parenAfterExpression
  | expression
deriving Repr, DecidableEq

namespace Expectation

def message : Expectation → String
  | functionName => "Expect function name."
  | parenAfterFunctionName => "Expect '(' after function name."
  | parameterName => "Expect parameter name."
  | parenAfterParameters => "Expect ')' after parameters."
  | braceBeforeBody => "Expect '" ++ String.singleton '{' ++ "' before function body."
  | variableName => "Expect variable name."
  | semicolonAfterDeclaration => "Expect ';' after variable declaration."
  | braceAfterBlock => "Expect '" ++ String.singleton '}' ++ "' after block."
  | parenAfterFor => "Expect '(' after 'for'."
  | semicolonAfterLoopCondition => "Expect ';' after loop condition."
  | parenAfterForClauses => "Expect ')' after for clauses."
  | parenAfterIf => "Expect '(' after 'if'."
  | parenAfterIfCondition => "Expect ')' after if condition."
  | semicolonAfterValue => "Expect ';' after value."
  | semicolonAfterReturnValue => "Expect ';' after return value."
  | parenAfterWhile => "Expect '(' after 'while'."
  | parenAfterCondition => "Expect ')' after condition."
  | semicolonAfterExpression => "Expect ';' after expression."
  | parenAfterArguments => "Expect ')' after arguments."
  | parenAfterExpression => "Expect ')' after expression."
  | expression => "Expect expression."

end Expectation

inductive Mistake
  | expected (what : Expectation)
  | invalidTarget
  | topLevelReturn
  | tooManyArguments
  | tooManyParameters
deriving Repr, DecidableEq

namespace Mistake

def message : Mistake → String
  | expected what => what.message
  | invalidTarget => "Invalid assignment target."
  | topLevelReturn => "Can't return from top-level code."
  | tooManyArguments => "Can't have more than 255 arguments."
  | tooManyParameters => "Can't have more than 255 parameters."

/-- Whether the statement is given up at the mistake. -/
def unwinds : Mistake → Bool
  | expected _ => true
  | _ => false

end Mistake

structure Complaint where
  token : Token
  mistake : Mistake
deriving DecidableEq

namespace Complaint

def diagnostic (c : Complaint) : Diagnostic := .syntactic c.token c.mistake.message

end Complaint

end Jess.Parser
