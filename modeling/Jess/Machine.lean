import Jess.Interpreter

/-!
Execution in small steps. A machine holds an interpreter and a control: the piece of tree
that is to be run next, or the outcome of one, together with what waits for that outcome.
What waits is kept as a continuation, so no nesting of a program nests the steps. Leaving
a block or a call, in whatever way, goes through a continuation that restores the scope
and the number of calls.
-/

namespace Jess

/-- How a statement ended: it came to its end, or a `return` ran. -/
inductive Completion
  | normal
  | returned (value : Value)

mutual

/-- What waits for the value of an expression. -/
inductive ValueCont
  | stop
  | discard (k : StmtCont)
  | print (k : StmtCont)
  | declare (name : Token) (k : StmtCont)
  | branch (thenBranch : Stmt) (elseBranch : Option Stmt) (k : StmtCont)
  | test (condition : Expr) (body : Stmt) (k : StmtCont)
  | giveBack (k : StmtCont)
  | unary (op : UnaryOp) (operator : Token) (k : ValueCont)
  | left (op : BinaryOp) (operator : Token) (right : Expr) (k : ValueCont)
  | right (op : BinaryOp) (operator : Token) (left : Value) (k : ValueCont)
  | decide (op : LogicalOp) (right : Expr) (k : ValueCont)
  | assign (name : Token) (k : ValueCont)
  | callee (paren : Token) (args : List Expr) (k : ValueCont)
  | argument (callee : Value) (done : List Value) (rest : List Expr) (paren : Token)
      (k : ValueCont)

/-- What waits for a statement to end. -/
inductive StmtCont
  | stop
  | program (rest : List Stmt)
  | sequence (rest : List Stmt) (k : StmtCont)
  | again (condition : Expr) (body : Stmt) (k : StmtCont)
  | leaveBlock (env : Nat) (k : StmtCont)
  | leaveCall (env : Nat) (k : ValueCont)

end

inductive Answer
  | value (v : Value)
  | completed (c : Completion)
  | failed (f : Fault)

inductive Control
  | evaluate (e : Expr) (k : ValueCont)
  | execute (s : Stmt) (k : StmtCont)
  | deliver (v : Value) (k : ValueCont)
  | finish (c : Completion) (k : StmtCont)
  | raise (f : Fault) (k : ValueCont)
  | abandon (f : Fault) (k : StmtCont)
  | halted (a : Answer)

structure Machine where
  control : Control
  interpreter : Interpreter

namespace Machine

def raiseAt (cause : Fault.Cause) (line : Nat) (k : ValueCont) (i : Interpreter) : Machine :=
  ⟨.raise ((Fault.ofCause cause).blamedOn line) k, i⟩

def deliverOr (result : Except Fault.Cause Value) (operator : Token) (k : ValueCont)
    (i : Interpreter) : Machine :=
  match result with
  | .ok v => ⟨.deliver v k, i⟩
  | .error cause => raiseAt cause operator.line k i

def evaluate (e : Expr) (k : ValueCont) (i : Interpreter) : Machine :=
  match e with
  | .literal l => ⟨.deliver (.ofLiteral l) k, i⟩
  | .grouping inner => ⟨.evaluate inner k, i⟩
  | .unary op operator operand => ⟨.evaluate operand (.unary op operator k), i⟩
  | .binary op operator left right => ⟨.evaluate left (.left op operator right k), i⟩
  | .logical op _ left right => ⟨.evaluate left (.decide op right k), i⟩
  | .variable name =>
      match i.store.get? i.env name.lexeme with
      | some v => ⟨.deliver v k, i⟩
      | none => raiseAt (.undefinedVariable name.lexeme) name.line k i
  | .assign name value => ⟨.evaluate value (.assign name k), i⟩
  | .call callee paren args => ⟨.evaluate callee (.callee paren args k), i⟩

/-- Binds a name in the current scope, which must not bind it yet. -/
def declare (name : Token) (v : Value) (k : StmtCont) (i : Interpreter) : Machine :=
  if i.binds name.lexeme then
    ⟨.abandon ((Fault.ofCause (.alreadyDefined name.lexeme)).blamedOn name.line) k, i⟩
  else ⟨.finish .normal k, i.define name.lexeme v⟩

def runBlock (body : List Stmt) (home : Nat) (k : StmtCont) (i : Interpreter) : Machine :=
  ⟨.finish .normal (.sequence body (.leaveBlock home k)), i⟩

def execute (s : Stmt) (k : StmtCont) (i : Interpreter) : Machine :=
  match s with
  | .expression e => ⟨.evaluate e (.discard k), i⟩
  | .print e => ⟨.evaluate e (.print k), i⟩
  | .declare name (some e) => ⟨.evaluate e (.declare name k), i⟩
  | .declare name none => declare name .nil k i
  | .block body =>
      let home := i.env
      runBlock body home k (i.enter home)
  | .ifThen condition thenBranch => ⟨.evaluate condition (.branch thenBranch none k), i⟩
  | .ifElse condition thenBranch elseBranch =>
      ⟨.evaluate condition (.branch thenBranch (some elseBranch) k), i⟩
  | .loop condition body => ⟨.evaluate condition (.test condition body k), i⟩
  | .function name params body =>
      let (v, i) := i.fresh (.function ⟨name, params, body⟩ i.env)
      declare name v k i
  | .giveBack _ (some e) => ⟨.evaluate e (.giveBack k), i⟩
  | .giveBack _ none => ⟨.finish (.returned .nil) k, i⟩

/-- What is to be done with the answer of a host function. Its fault keeps the line that
it has. -/
def take (answer : Native.Answer) (args : List Value) (k : ValueCont) : Control :=
  match answer with
  | .data l => .deliver (.ofLiteral l) k
  | .argument index => .deliver (args.getD index .nil) k
  | .fault f _ => .raise f k

def callNative (n : Native) (args : List Value) (k : ValueCont) (i : Interpreter) : Machine :=
  let reply := n.action (args.map Value.glimpse)
  ⟨take reply.answer args k, i.printAll reply.printed⟩

def callFunction (f : Function) (closure : Nat) (args : List Value) (k : ValueCont)
    (i : Interpreter) : Machine :=
  let home := i.env
  match (i.enter closure).bindParams (f.params.zip args) with
  | (i, none) =>
      ⟨.finish .normal (.sequence f.body (.leaveCall home k)), { i with depth := i.depth + 1 }⟩
  | (i, some clash) => raiseAt (.alreadyDefined clash.lexeme) clash.line k (i.moveTo home)

/-- Calls a value. What is wrong with the call itself is blamed on its parenthesis. -/
def call (callee : Value) (args : List Value) (paren : Token) (k : ValueCont)
    (i : Interpreter) : Machine :=
  match callee with
  | .callable _ c =>
      if c.arity ≠ args.length then raiseAt (.arityMismatch c.arity args.length) paren.line k i
      else if i.limit ≤ i.depth then raiseAt (.stackOverflow i.limit) paren.line k i
      else match c with
        | .native n => callNative n args k i
        | .function f closure => callFunction f closure args k i
  | other => raiseAt (.notCallable other.type) paren.line k i

def callNext (callee : Value) (done : List Value) (rest : List Expr) (paren : Token)
    (k : ValueCont) (i : Interpreter) : Machine :=
  match rest with
  | [] => call callee done.reverse paren k i
  | arg :: rest => ⟨.evaluate arg (.argument callee done rest paren k), i⟩

def deliver (v : Value) (k : ValueCont) (i : Interpreter) : Machine :=
  match k with
  | .stop => ⟨.halted (.value v), i⟩
  | .discard k => ⟨.finish .normal k, i⟩
  | .print k => ⟨.finish .normal k, i.print v.text⟩
  | .declare name k => declare name v k i
  | .branch thenBranch elseBranch k =>
      if v.isTruthy then ⟨.execute thenBranch k, i⟩
      else match elseBranch with
        | some other => ⟨.execute other k, i⟩
        | none => ⟨.finish .normal k, i⟩
  | .test condition body k =>
      if v.isTruthy then ⟨.execute body (.again condition body k), i⟩ else ⟨.finish .normal k, i⟩
  | .giveBack k => ⟨.finish (.returned v) k, i⟩
  | .unary op operator k => deliverOr (op.apply v) operator k i
  | .left op operator right k => ⟨.evaluate right (.right op operator v k), i⟩
  | .right op operator left k => deliverOr (op.apply left v) operator k i
  | .decide op right k => if op.decidedBy v then ⟨.deliver v k, i⟩ else ⟨.evaluate right k, i⟩
  | .assign name k =>
      match i.store.resolve i.env name.lexeme with
      | some home => ⟨.deliver v k, i.update home name.lexeme v⟩
      | none => raiseAt (.undefinedVariable name.lexeme) name.line k i
  | .callee paren args k => callNext v [] args paren k i
  | .argument callee done rest paren k => callNext callee (v :: done) rest paren k i

/-- Tells what waits for a statement that it ended. A `return` at the top of a program
ends only its own statement. -/
def finish (c : Completion) (k : StmtCont) (i : Interpreter) : Machine :=
  match k with
  | .stop => ⟨.halted (.completed c), i⟩
  | .program [] => ⟨.halted (.completed .normal), i⟩
  | .program (s :: rest) => ⟨.execute s (.program rest), i⟩
  | .sequence rest k =>
      match c, rest with
      | .normal, s :: rest => ⟨.execute s (.sequence rest k), i⟩
      | c, _ => ⟨.finish c k, i⟩
  | .again condition body k =>
      match c with
      | .normal => ⟨.evaluate condition (.test condition body k), i⟩
      | .returned v => ⟨.finish (.returned v) k, i⟩
  | .leaveBlock env k => ⟨.finish c k, i.moveTo env⟩
  | .leaveCall env k =>
      match c with
      | .normal => ⟨.deliver .nil k, i.endCall env⟩
      | .returned v => ⟨.deliver v k, i.endCall env⟩

def raise (f : Fault) (k : ValueCont) (i : Interpreter) : Machine :=
  match k with
  | .stop => ⟨.halted (.failed f), i⟩
  | .discard k => ⟨.abandon f k, i⟩
  | .print k => ⟨.abandon f k, i⟩
  | .declare _ k => ⟨.abandon f k, i⟩
  | .branch _ _ k => ⟨.abandon f k, i⟩
  | .test _ _ k => ⟨.abandon f k, i⟩
  | .giveBack k => ⟨.abandon f k, i⟩
  | .unary _ _ k => ⟨.raise f k, i⟩
  | .left _ _ _ k => ⟨.raise f k, i⟩
  | .right _ _ _ k => ⟨.raise f k, i⟩
  | .decide _ _ k => ⟨.raise f k, i⟩
  | .assign _ k => ⟨.raise f k, i⟩
  | .callee _ _ k => ⟨.raise f k, i⟩
  | .argument _ _ _ _ k => ⟨.raise f k, i⟩

def abandon (f : Fault) (k : StmtCont) (i : Interpreter) : Machine :=
  match k with
  | .stop => ⟨.halted (.failed f), i⟩
  | .program _ => ⟨.halted (.failed f), i⟩
  | .sequence _ k => ⟨.abandon f k, i⟩
  | .again _ _ k => ⟨.abandon f k, i⟩
  | .leaveBlock env k => ⟨.abandon f k, i.moveTo env⟩
  | .leaveCall env k => ⟨.raise f k, i.endCall env⟩

/-- One step. A halted machine stays as it is. -/
def step (m : Machine) : Machine :=
  match m.control with
  | .evaluate e k => evaluate e k m.interpreter
  | .execute s k => execute s k m.interpreter
  | .deliver v k => deliver v k m.interpreter
  | .finish c k => finish c k m.interpreter
  | .raise f k => raise f k m.interpreter
  | .abandon f k => abandon f k m.interpreter
  | .halted _ => m

def run : Nat → Machine → Option (Answer × Interpreter)
  | 0, _ => none
  | steps + 1, m =>
      match m.control with
      | .halted a => some (a, m.interpreter)
      | _ => run steps m.step

end Machine

end Jess
