import Jess.Tree

/-!
Chains of operands with operators between them. How strongly an operator binds is its
rank; of two operators with the same rank the left one binds first. A chain becomes a
tree in one pass from left to right. The operators that still wait for their right
operand are kept with the nearest one first, and their ranks fall from there on.
-/

namespace Jess

open Token (Kind)

inductive InfixOp
  | binary (op : BinaryOp)
  | logical (op : LogicalOp)
deriving Repr, DecidableEq

namespace InfixOp

def ofKind? : Kind → Option InfixOp
  | .symbol .plus => some (.binary .add)
  | .symbol .minus => some (.binary .sub)
  | .symbol .star => some (.binary .mul)
  | .symbol .slash => some (.binary .div)
  | .symbol .less => some (.binary .lt)
  | .symbol .lessEqual => some (.binary .ltEq)
  | .symbol .greater => some (.binary .gt)
  | .symbol .greaterEqual => some (.binary .gtEq)
  | .symbol .equalEqual => some (.binary .eq)
  | .symbol .bangEqual => some (.binary .notEq)
  | .keyword .kwAnd => some (.logical .and)
  | .keyword .kwOr => some (.logical .or)
  | _ => none

def rank : InfixOp → Nat
  | .logical .or => 1
  | .logical .and => 2
  | .binary .eq => 3
  | .binary .notEq => 3
  | .binary .lt => 4
  | .binary .ltEq => 4
  | .binary .gt => 4
  | .binary .gtEq => 4
  | .binary .add => 5
  | .binary .sub => 5
  | .binary .mul => 6
  | .binary .div => 6

def apply (op : InfixOp) (operator : Token) (left right : Expr) : Expr :=
  match op with
  | .binary op => .binary op operator left right
  | .logical op => .logical op operator left right

end InfixOp

namespace Chain

structure Link where
  op : InfixOp
  operator : Token
  right : Expr

/-- An operator with the operand on its left, which waits for the other one. -/
structure Pending where
  left : Expr
  op : InfixOp
  operator : Token

/-- Gives an operand to the waiting operators that bind at least as strongly as `rank`. -/
def settle (rank : Nat) : List Pending → Expr → List Pending × Expr
  | [], right => ([], right)
  | p :: rest, right =>
      if rank ≤ p.op.rank then settle rank rest (p.op.apply p.operator p.left right)
      else (p :: rest, right)

/-- The tree of an operand, the operators that wait for it, and the rest of the chain. -/
def resolve (waiting : List Pending) (operand : Expr) : List Link → Expr
  | [] => (settle 0 waiting operand).2
  | link :: rest =>
      let (waiting, left) := settle link.op.rank waiting operand
      resolve (⟨left, link.op, link.operator⟩ :: waiting) link.right rest

def toExpr (first : Expr) (links : List Link) : Expr := resolve [] first links

end Chain

end Jess
