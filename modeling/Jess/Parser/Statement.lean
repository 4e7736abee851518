import Jess.Parser.Expression

/-!
Statements and declarations. A loop with clauses is read as a loop inside of blocks: its
initializer and the loop make a block, and so do its body and the increment. A block
reads its declarations one by one and recovers after each, so a mistake in one of them
leaves the others as they are.
-/

namespace Jess.Parser

open Token

def closedBy (what : Expectation) : Parser Unit := do
  let _ ← expect (.symbol .semicolon) what

def variableDeclaration (depth : Nat) : Parser Stmt := do
  let name ← expect .identifier .variableName
  if ← eat (.symbol .equal) then
    let value ← expression depth
    closedBy .semicolonAfterDeclaration
    pure (.declare name (some value))
  else
    closedBy .semicolonAfterDeclaration
    pure (.declare name none)

def expressionStatement (depth : Nat) : Parser Stmt := do
  let e ← expression depth
  closedBy .semicolonAfterExpression
  pure (.expression e)

def printStatement (depth : Nat) : Parser Stmt := do
  let e ← expression depth
  closedBy .semicolonAfterValue
  pure (.print e)

def returnStatement (inFunction : Bool) (keyword : Token) (depth : Nat) : Parser Stmt := do
  if !inFunction then
    report keyword .topLevelReturn
  if ← check (.symbol .semicolon) then
    closedBy .semicolonAfterReturnValue
    pure (.giveBack keyword none)
  else
    let value ← expression depth
    closedBy .semicolonAfterReturnValue
    pure (.giveBack keyword (some value))

/-- The parameters of a function after the first parenthesis. Each one past the limit is
reported. -/
def parameters : Nat → Array Token → Parser (List Token)
  | 0, _ => tooDeep
  | depth + 1, done => do
      if maxArity ≤ done.size then
        report (← current) .tooManyParameters
      let param ← expect .identifier .parameterName
      if ← eat (.symbol .comma) then
        parameters depth (done.push param)
      else
        pure (done.push param).toList

/-- The clause of a loop before its first semicolon, which belongs to it. -/
def loopInitializer (depth : Nat) : Parser (Option Stmt) := do
  if ← eat (.symbol .semicolon) then
    pure none
  else if ← eat (.keyword .kwVar) then
    some <$> variableDeclaration depth
  else
    some <$> expressionStatement depth

def loopClause (stop : Kind) (what : Expectation) (depth : Nat) : Parser (Option Expr) := do
  let clause ← if ← check stop then pure none else some <$> expression depth
  let _ ← expect stop what
  pure clause

/-- A loop with clauses as a loop inside of blocks. -/
def desugarFor (initializer : Option Stmt) (condition increment : Option Expr) (body : Stmt) :
    Stmt :=
  let body := match increment with
    | none => body
    | some e => .block [body, .expression e]
  let loop := Stmt.loop (condition.getD (.literal (.boolean true))) body
  match initializer with
  | none => loop
  | some first => .block [first, loop]

mutual

def declaration : Nat → Bool → Parser Stmt
  | 0, _ => tooDeep
  | depth + 1, inFunction => do
      if ← eat (.keyword .kwFunc) then
        let name ← expect .identifier .functionName
        let _ ← expect (.symbol .leftParen) .parenAfterFunctionName
        let params ← if ← check (.symbol .rightParen) then pure [] else parameters depth #[]
        let _ ← expect (.symbol .rightParen) .parenAfterParameters
        let _ ← expect (.symbol .leftBrace) .braceBeforeBody
        let body ← block depth true #[]
        pure (.function name params body)
      else if ← eat (.keyword .kwVar) then
        variableDeclaration depth
      else
        statement depth inFunction

def block : Nat → Bool → Array Stmt → Parser (List Stmt)
  | 0, _, _ => tooDeep
  | depth + 1, inFunction, done => do
      if (← check (.symbol .rightBrace)) || (← atEnd) then
        let _ ← expect (.symbol .rightBrace) .braceAfterBlock
        pure done.toList
      else
        match ← recovering (declaration depth inFunction) with
        | some stmt => block depth inFunction (done.push stmt)
        | none => block depth inFunction done

def statement : Nat → Bool → Parser Stmt
  | 0, _ => tooDeep
  | depth + 1, inFunction => do
      match (← current).kind with
      | .keyword .kwFor =>
          let _ ← advance
          let _ ← expect (.symbol .leftParen) .parenAfterFor
          let initializer ← loopInitializer depth
          let condition ← loopClause (.symbol .semicolon) .semicolonAfterLoopCondition depth
          let increment ← loopClause (.symbol .rightParen) .parenAfterForClauses depth
          let body ← statement depth inFunction
          pure (desugarFor initializer condition increment body)
      | .keyword .kwIf =>
          let _ ← advance
          let _ ← expect (.symbol .leftParen) .parenAfterIf
          let condition ← expression depth
          let _ ← expect (.symbol .rightParen) .parenAfterIfCondition
          let thenBranch ← statement depth inFunction
          if ← eat (.keyword .kwElse) then
            let elseBranch ← statement depth inFunction
            pure (.ifElse condition thenBranch elseBranch)
          else
            pure (.ifThen condition thenBranch)
      | .keyword .kwPrint =>
          let _ ← advance
          printStatement depth
      | .keyword .kwReturn =>
          let keyword ← advance
          returnStatement inFunction keyword depth
      | .keyword .kwWhile =>
          let _ ← advance
          let _ ← expect (.symbol .leftParen) .parenAfterWhile
          let condition ← expression depth
          let _ ← expect (.symbol .rightParen) .parenAfterCondition
          let body ← statement depth inFunction
          pure (.loop condition body)
      | .symbol .leftBrace =>
          let _ ← advance
          .block <$> block depth inFunction #[]
      | _ => expressionStatement depth

end

def declarations : Nat → Array Stmt → Parser (List Stmt)
  | 0, _ => tooDeep
  | depth + 1, done => do
      if ← atEnd then
        pure done.toList
      else
        match ← recovering (declaration depth false) with
        | some stmt => declarations depth (done.push stmt)
        | none => declarations depth done

end Jess.Parser
