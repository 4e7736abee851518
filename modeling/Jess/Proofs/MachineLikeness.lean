import Jess.Proofs.Runs
import Jess.Proofs.ScopeLikeness

/-!
# Machines that behave alike

One step of a machine is at least one step of the other: where the second one
runs a tree with more parentheses, spelled numbers or added blocks, it takes
some more. The chart of the scopes grows along the way, and what waits keeps
the pair of scopes that it will go on in.
-/

namespace Jess

inductive Waiting
  | value (k : ValueCont)
  | stmt (k : StmtCont)

/-- What waits goes on alike in a pair of scopes, the first of which the second stands for. -/
inductive Waiting.Like (free : Freedom) (c : Chart) : Nat → Nat → Waiting → Waiting → Prop
  | stop {e d : Nat} : Like free c e d (.value .stop) (.value .stop)
  | discard {e d : Nat} {k l : StmtCont} (later : Like free c e d (.stmt k) (.stmt l)) :
      Like free c e d (.value (.discard k)) (.value (.discard l))
  | print {e d : Nat} {k l : StmtCont} (later : Like free c e d (.stmt k) (.stmt l)) :
      Like free c e d (.value (.print k)) (.value (.print l))
  | giveBack {e d : Nat} {k l : StmtCont} (later : Like free c e d (.stmt k) (.stmt l)) :
      Like free c e d (.value (.giveBack k)) (.value (.giveBack l))
  | declare {e d : Nat} {t u : Token} {k l : StmtCont} (names : free.Names t u)
      (own : c.own d = true) (later : Like free c e d (.stmt k) (.stmt l)) :
      Like free c e d (.value (.declare t k)) (.value (.declare u l))
  | branch {e d : Nat} {s r : Stmt} {k l : StmtCont} (first : Stmt.Like free s r)
      (plain : free.Branch s) (later : Like free c e d (.stmt k) (.stmt l)) :
      Like free c e d (.value (.branch s none k)) (.value (.branch r none l))
  | branches {e d : Nat} {s r p q : Stmt} {k l : StmtCont} (first : Stmt.Like free s r)
      (plain : free.Branch s) (second : Stmt.Like free p q) (plain' : free.Branch p)
      (later : Like free c e d (.stmt k) (.stmt l)) :
      Like free c e d (.value (.branch s (some p) k)) (.value (.branch r (some q) l))
  | test {e d : Nat} {a b : Expr} {s r : Stmt} {k l : StmtCont} (condition : Expr.Like free a b)
      (body : Stmt.Like free s r) (plain : free.Branch s)
      (later : Like free c e d (.stmt k) (.stmt l)) :
      Like free c e d (.value (.test a s k)) (.value (.test b r l))
  | unary {e d : Nat} (op : UnaryOp) {t u : Token} {k l : ValueCont}
      (later : Like free c e d (.value k) (.value l)) :
      Like free c e d (.value (.unary op t k)) (.value (.unary op u l))
  | left {e d : Nat} (op : BinaryOp) {t u : Token} {a b : Expr} {k l : ValueCont}
      (right : Expr.Like free a b) (later : Like free c e d (.value k) (.value l)) :
      Like free c e d (.value (.left op t a k)) (.value (.left op u b l))
  | right {e d : Nat} (op : BinaryOp) {t u : Token} {v w : Value} {k l : ValueCont}
      (left : Value.Like free c v w) (later : Like free c e d (.value k) (.value l)) :
      Like free c e d (.value (.right op t v k)) (.value (.right op u w l))
  | decide {e d : Nat} (op : LogicalOp) {a b : Expr} {k l : ValueCont}
      (right : Expr.Like free a b) (later : Like free c e d (.value k) (.value l)) :
      Like free c e d (.value (.decide op a k)) (.value (.decide op b l))
  | assign {e d : Nat} {t u : Token} {k l : ValueCont} (names : free.Names t u)
      (later : Like free c e d (.value k) (.value l)) :
      Like free c e d (.value (.assign t k)) (.value (.assign u l))
  | callee {e d : Nat} {t u : Token} {args others : List Expr} {k l : ValueCont}
      (given : Fragment.Like free (.exprs args) (.exprs others))
      (later : Like free c e d (.value k) (.value l)) :
      Like free c e d (.value (.callee t args k)) (.value (.callee u others l))
  | argument {e d : Nat} {t u : Token} {v w : Value} {vs ws : List Value}
      {args others : List Expr} {k l : ValueCont} (called : Value.Like free c v w)
      (done : List.Forall₂ (Value.Like free c) vs ws)
      (given : Fragment.Like free (.exprs args) (.exprs others))
      (later : Like free c e d (.value k) (.value l)) :
      Like free c e d (.value (.argument v vs args t k)) (.value (.argument w ws others u l))
  | done {e d : Nat} : Like free c e d (.stmt .stop) (.stmt .stop)
  | program {e d : Nat} {rest others : List Stmt} (own : c.own d = true)
      (left : Fragment.Like free (.stmts rest) (.stmts others)) :
      Like free c e d (.stmt (.program rest)) (.stmt (.program others))
  | sequence {e d : Nat} {rest others : List Stmt} {k l : StmtCont} (own : c.own d = true)
      (left : Fragment.Like free (.stmts rest) (.stmts others))
      (later : Like free c e d (.stmt k) (.stmt l)) :
      Like free c e d (.stmt (.sequence rest k)) (.stmt (.sequence others l))
  | again {e d : Nat} {a b : Expr} {s r : Stmt} {k l : StmtCont} (condition : Expr.Like free a b)
      (body : Stmt.Like free s r) (plain : free.Branch s)
      (later : Like free c e d (.stmt k) (.stmt l)) :
      Like free c e d (.stmt (.again a s k)) (.stmt (.again b r l))
  | leaveBlock {e d home home' : Nat} {k l : StmtCont} (seats : c.Seats free home home')
      (later : Like free c home home' (.stmt k) (.stmt l)) :
      Like free c e d (.stmt (.leaveBlock home k)) (.stmt (.leaveBlock home' l))
  | leaveCall {e d home home' : Nat} {k l : ValueCont} (seats : c.Seats free home home')
      (later : Like free c home home' (.value k) (.value l)) :
      Like free c e d (.stmt (.leaveCall home k)) (.stmt (.leaveCall home' l))
  | padded {e d home : Nat} {k l : StmtCont} (seats : c.Seats free e home)
      (later : Like free c e home (.stmt k) (.stmt l)) :
      Like free c e d (.stmt k) (.stmt (.sequence [] (.leaveBlock home l)))

inductive Completion.Like (free : Freedom) (c : Chart) : Completion → Completion → Prop
  | normal : Like free c .normal .normal
  | returned {v w : Value} (values : Value.Like free c v w) :
      Like free c (.returned v) (.returned w)

/-- Answers that are alike. Of a fault only the cause counts. -/
inductive Answer.Like (free : Freedom) (c : Chart) : Answer → Answer → Prop
  | value {v w : Value} (values : Value.Like free c v w) : Like free c (.value v) (.value w)
  | completed {x y : Completion} (ends : Completion.Like free c x y) :
      Like free c (.completed x) (.completed y)
  | failed {f g : Fault} (cause : f.cause = g.cause) : Like free c (.failed f) (.failed g)

inductive Control.Like (free : Freedom) (c : Chart) (e d : Nat) : Control → Control → Prop
  | evaluate {a b : Expr} {k l : ValueCont} (trees : Expr.Like free a b)
      (waiting : Waiting.Like free c e d (.value k) (.value l)) :
      Like free c e d (.evaluate a k) (.evaluate b l)
  | execute {s r : Stmt} {k l : StmtCont} (trees : Stmt.Like free s r)
      (room : s.declares = true → c.own d = true)
      (waiting : Waiting.Like free c e d (.stmt k) (.stmt l)) :
      Like free c e d (.execute s k) (.execute r l)
  | deliver {v w : Value} {k l : ValueCont} (values : Value.Like free c v w)
      (waiting : Waiting.Like free c e d (.value k) (.value l)) :
      Like free c e d (.deliver v k) (.deliver w l)
  | finish {x y : Completion} {k l : StmtCont} (ends : Completion.Like free c x y)
      (waiting : Waiting.Like free c e d (.stmt k) (.stmt l)) :
      Like free c e d (.finish x k) (.finish y l)
  | raise {f g : Fault} {k l : ValueCont} (cause : f.cause = g.cause)
      (waiting : Waiting.Like free c e d (.value k) (.value l)) :
      Like free c e d (.raise f k) (.raise g l)
  | abandon {f g : Fault} {k l : StmtCont} (cause : f.cause = g.cause)
      (waiting : Waiting.Like free c e d (.stmt k) (.stmt l)) :
      Like free c e d (.abandon f k) (.abandon g l)
  | halted {a b : Answer} (answers : Answer.Like free c a b) :
      Like free c e d (.halted a) (.halted b)

structure Machine.LikeAt (free : Freedom) (base : List String) (c : Chart) (m n : Machine) :
    Prop where
  interpreter : Interpreter.Like free c base m.interpreter n.interpreter
  control : Control.Like free c m.interpreter.env n.interpreter.env m.control n.control

def Machine.Like (free : Freedom) (base : List String) (m n : Machine) : Prop :=
  ∃ c, Machine.LikeAt free base c m n

variable {free : Freedom} {base : List String} {c d : Chart}

theorem Waiting.Like.extend {e e' : Nat} {x y : Waiting} (like : Waiting.Like free c e e' x y)
    (extends_ : Chart.Extends free c d) (seats : c.Seats free e e') :
    Waiting.Like free d e e' x y := by
  have owns : ∀ {first n : Nat}, c.Seats free first n → c.own n = true → d.own n = true := by
    intro first n known own
    rw [extends_.own n known.inside, own]
  induction like with
  | stop => exact .stop
  | discard _ ih => exact .discard (ih seats)
  | print _ ih => exact .print (ih seats)
  | giveBack _ ih => exact .giveBack (ih seats)
  | declare names own _ ih => exact .declare names (owns seats own) (ih seats)
  | branch first plain _ ih => exact .branch first plain (ih seats)
  | branches first plain second plain' _ ih => exact .branches first plain second plain' (ih seats)
  | test condition body plain _ ih => exact .test condition body plain (ih seats)
  | unary op _ ih => exact .unary op (ih seats)
  | left op right _ ih => exact .left op right (ih seats)
  | right op left _ ih => exact .right op (left.extend extends_) (ih seats)
  | decide op right _ ih => exact .decide op right (ih seats)
  | assign names _ ih => exact .assign names (ih seats)
  | callee given _ ih => exact .callee given (ih seats)
  | argument called done given _ ih =>
      exact .argument (called.extend extends_) (values_extend done extends_) given (ih seats)
  | done => exact .done
  | program own left => exact .program (owns seats own) left
  | sequence own left _ ih => exact .sequence (owns seats own) left (ih seats)
  | again condition body plain _ ih => exact .again condition body plain (ih seats)
  | leaveBlock home _ ih => exact .leaveBlock (home.extend extends_) (ih home)
  | leaveCall home _ ih => exact .leaveCall (home.extend extends_) (ih home)
  | padded home _ ih => exact .padded (home.extend extends_) (ih home)

end Jess
