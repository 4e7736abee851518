import Jess.Interpreter
import Jess.Proofs.Placeless
import Mathlib.Data.List.Forall2

/-!
# Trees that behave alike

Three ways in which one tree may be written differently from another without
behaving differently. Its tokens may stand elsewhere; besides, expressions may
stand in more parentheses and numbers may be written as operations that give
them; and besides, a statement that declares nothing may stand in a block of
its own. Each way includes those before it.
-/

namespace Jess

/-- How much the second of two trees may differ from the first. -/
inductive Freedom
  | place
  | spelling
  | blocks
deriving DecidableEq

/-- Whether a statement binds a name in the scope that it runs in. -/
def Stmt.declares : Stmt → Bool
  | .declare _ _ => true
  | .function _ _ _ => true
  | _ => false

inductive Fragment
  | expr (e : Expr)
  | exprs (es : List Expr)
  | stmt (s : Stmt)
  | stmts (body : List Stmt)

namespace Freedom

/-- Tokens that only tell what a fault is blamed on. -/
def Marks (free : Freedom) (t u : Token) : Prop := free = place → t.placeless = u.placeless

def Names (free : Freedom) (t u : Token) : Prop := t.lexeme = u.lexeme ∧ free.Marks t u

/-- A statement that may stand in a block of its own declares nothing. -/
def Branch (free : Freedom) (s : Stmt) : Prop := free = blocks → s.declares = false

end Freedom

/-- An expression without names that gives a number. -/
inductive Computes : Float → Expr → Prop
  | number (x : Float) : Computes x (.literal (.number x))
  | negation {x : Float} {operator : Token} {e : Expr} (operand : Computes x e) :
      Computes (-x) (.unary .negate operator e)
  | quotient {x y : Float} {operator : Token} {a b : Expr} (first : Computes x a)
      (second : Computes y b) : Computes (x / y) (.binary .div operator a b)

inductive Fragment.Like (free : Freedom) : Fragment → Fragment → Prop
  | literal (value : Literal) : Like free (.expr (.literal value)) (.expr (.literal value))
  | grouping {a b : Expr} (inner : Like free (.expr a) (.expr b)) :
      Like free (.expr (.grouping a)) (.expr (.grouping b))
  | unary (op : UnaryOp) {t u : Token} {a b : Expr} (marks : free.Marks t u)
      (operand : Like free (.expr a) (.expr b)) :
      Like free (.expr (.unary op t a)) (.expr (.unary op u b))
  | binary (op : BinaryOp) {t u : Token} {a b c d : Expr} (marks : free.Marks t u)
      (left : Like free (.expr a) (.expr b)) (right : Like free (.expr c) (.expr d)) :
      Like free (.expr (.binary op t a c)) (.expr (.binary op u b d))
  | logical (op : LogicalOp) {t u : Token} {a b c d : Expr} (marks : free.Marks t u)
      (left : Like free (.expr a) (.expr b)) (right : Like free (.expr c) (.expr d)) :
      Like free (.expr (.logical op t a c)) (.expr (.logical op u b d))
  | named {t u : Token} (names : free.Names t u) :
      Like free (.expr (.variable t)) (.expr (.variable u))
  | assign {t u : Token} {a b : Expr} (names : free.Names t u)
      (value : Like free (.expr a) (.expr b)) :
      Like free (.expr (.assign t a)) (.expr (.assign u b))
  | call {t u : Token} {a b : Expr} {args others : List Expr} (marks : free.Marks t u)
      (callee : Like free (.expr a) (.expr b)) (given : Like free (.exprs args) (.exprs others)) :
      Like free (.expr (.call a t args)) (.expr (.call b u others))
  | regrouped {a b : Expr} (allowed : free ≠ .place) (inner : Like free (.expr a) (.expr b)) :
      Like free (.expr a) (.expr (.grouping b))
  | computed {x : Float} {e : Expr} (allowed : free ≠ .place) (computes : Computes x e) :
      Like free (.expr (.literal (.number x))) (.expr e)
  | noExprs : Like free (.exprs []) (.exprs [])
  | moreExprs {a b : Expr} {rest others : List Expr} (first : Like free (.expr a) (.expr b))
      (later : Like free (.exprs rest) (.exprs others)) :
      Like free (.exprs (a :: rest)) (.exprs (b :: others))
  | expression {a b : Expr} (value : Like free (.expr a) (.expr b)) :
      Like free (.stmt (.expression a)) (.stmt (.expression b))
  | print {a b : Expr} (value : Like free (.expr a) (.expr b)) :
      Like free (.stmt (.print a)) (.stmt (.print b))
  | declare {t u : Token} (names : free.Names t u) :
      Like free (.stmt (.declare t none)) (.stmt (.declare u none))
  | declareValue {t u : Token} {a b : Expr} (names : free.Names t u)
      (value : Like free (.expr a) (.expr b)) :
      Like free (.stmt (.declare t (some a))) (.stmt (.declare u (some b)))
  | block {body others : List Stmt} (inner : Like free (.stmts body) (.stmts others)) :
      Like free (.stmt (.block body)) (.stmt (.block others))
  | ifThen {a b : Expr} {s r : Stmt} (condition : Like free (.expr a) (.expr b))
      (branch : free.Branch s) (first : Like free (.stmt s) (.stmt r)) :
      Like free (.stmt (.ifThen a s)) (.stmt (.ifThen b r))
  | ifElse {a b : Expr} {s r p q : Stmt} (condition : Like free (.expr a) (.expr b))
      (branch : free.Branch s) (first : Like free (.stmt s) (.stmt r))
      (other : free.Branch p) (second : Like free (.stmt p) (.stmt q)) :
      Like free (.stmt (.ifElse a s p)) (.stmt (.ifElse b r q))
  | loop {a b : Expr} {s r : Stmt} (condition : Like free (.expr a) (.expr b))
      (branch : free.Branch s) (body : Like free (.stmt s) (.stmt r)) :
      Like free (.stmt (.loop a s)) (.stmt (.loop b r))
  | function {t u : Token} {params others : List Token} {body code : List Stmt}
      (names : free.Names t u) (bound : List.Forall₂ free.Names params others)
      (inner : Like free (.stmts body) (.stmts code)) :
      Like free (.stmt (.function t params body)) (.stmt (.function u others code))
  | giveBack {t u : Token} (marks : free.Marks t u) :
      Like free (.stmt (.giveBack t none)) (.stmt (.giveBack u none))
  | giveBackValue {t u : Token} {a b : Expr} (marks : free.Marks t u)
      (value : Like free (.expr a) (.expr b)) :
      Like free (.stmt (.giveBack t (some a))) (.stmt (.giveBack u (some b)))
  | wrapped {s r : Stmt} (allowed : free = .blocks) (plain : s.declares = false)
      (inner : Like free (.stmt s) (.stmt r)) : Like free (.stmt s) (.stmt (.block [r]))
  | noStmts : Like free (.stmts []) (.stmts [])
  | moreStmts {s r : Stmt} {rest others : List Stmt} (first : Like free (.stmt s) (.stmt r))
      (later : Like free (.stmts rest) (.stmts others)) :
      Like free (.stmts (s :: rest)) (.stmts (r :: others))

abbrev Expr.Like (free : Freedom) (a b : Expr) : Prop := Fragment.Like free (.expr a) (.expr b)

abbrev Stmt.Like (free : Freedom) (s r : Stmt) : Prop := Fragment.Like free (.stmt s) (.stmt r)

structure Function.Like (free : Freedom) (f g : Function) : Prop where
  name : free.Names f.name g.name
  params : List.Forall₂ free.Names f.params g.params
  body : Fragment.Like free (.stmts f.body) (.stmts g.body)

/-!
A run of the second tree may open more scopes, and these stay empty. A chart
tells for each of its scopes which one of the first run it stands for, and
whether it is the one that holds the bindings of that.
-/

structure Chart where
  seat : Nat → Nat
  own : Nat → Bool
  size : Nat

namespace Chart

def same (size : Nat) : Chart := ⟨id, fun _ => true, size⟩

def grow (c : Chart) (first : Nat) : Chart where
  seat n := if n = c.size then first else c.seat n
  own n := if n = c.size then true else c.own n
  size := c.size + 1

/-- The second run alone opens a scope. -/
def pad (c : Chart) (parent : Nat) : Chart where
  seat n := if n = c.size then c.seat parent else c.seat n
  own n := if n = c.size then false else c.own n
  size := c.size + 1

/-- Whether a scope of the second run stands for one of the first. Where blocks may differ, it
has been opened. -/
structure Seats (free : Freedom) (c : Chart) (first second : Nat) : Prop where
  seat : c.seat second = first
  inside : free = .blocks → second < c.size

structure Extends (free : Freedom) (c d : Chart) : Prop where
  size : c.size ≤ d.size
  seat : ∀ n, (free = .blocks → n < c.size) → d.seat n = c.seat n
  own : ∀ n, (free = .blocks → n < c.size) → d.own n = c.own n

end Chart

section Values

variable (free : Freedom) (c : Chart)

inductive Value.Like : Value → Value → Prop
  | number (x : Float) : Like (.number x) (.number x)
  | string (s : String) : Like (.string s) (.string s)
  | boolean (b : Bool) : Like (.boolean b) (.boolean b)
  | nil : Like .nil .nil
  | native (identity : Nat) (n : Native) :
      Like (.callable identity (.native n)) (.callable identity (.native n))
  | function (identity : Nat) {f g : Function} {first second : Nat} (like : f.Like free g)
      (closure : c.Seats free first second) :
      Like (.callable identity (.function f first)) (.callable identity (.function g second))

def BindsLike (b d : String × Value) : Prop := b.1 = d.1 ∧ Value.Like free c b.2 d.2

inductive ParentsLike : Option Nat → Option Nat → Prop
  | none : ParentsLike none none
  | some {first second : Nat} (seats : c.Seats free first second) :
      ParentsLike (some first) (some second)

structure Scope.Like (s r : Scope) : Prop where
  bindings : List.Forall₂ (BindsLike free c) s.bindings r.bindings
  parent : ParentsLike free c s.parent r.parent

/-- Stores with scopes that behave alike, up to empty scopes in the second one. -/
structure Store.Like (s r : Store) : Prop where
  size : r.size = c.size
  fixed : free ≠ .blocks → s.size = c.size ∧ c.seat = id ∧ ∀ n, c.own n = true
  inside : ∀ n, n < c.size → c.seat n < s.size
  single : ∀ m n, m < c.size → n < c.size → c.own m = true → c.own n = true →
    c.seat m = c.seat n → m = n
  owned : ∀ n scope, r.scopes[n]? = some scope → c.own n = true →
    ∃ first, s.scopes[c.seat n]? = some first ∧ Scope.Like free c first scope
  padded : ∀ n scope, r.scopes[n]? = some scope → c.own n = false →
    scope.bindings = [] ∧ ∃ parent, scope.parent = some parent ∧ c.seat parent = c.seat n

/-- Interpreters in states that behave alike. The first one may have printed more before. -/
structure Interpreter.Like (base : List String) (i j : Interpreter) : Prop where
  store : Store.Like free c i.store j.store
  env : c.Seats free i.env j.env
  depth : i.depth = j.depth
  limit : i.limit = j.limit
  supply : i.supply = j.supply
  printed : i.printed.toList = base ++ j.printed.toList

end Values

end Jess
