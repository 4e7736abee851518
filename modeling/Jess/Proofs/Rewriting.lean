import Jess.Proofs.Placeless
import Jess.Proofs.Writing

/-!
# Trees written anew

A rewriting goes over a tree and says what becomes of its numbers, of its
groupings, of its tokens, of the operations in it and of a branch before an
`else`. The tree that a canonical text is read as, the tree without groupings
and places, and the tree with numbers written out are all rewritings, and
rewriting a tree twice is rewriting it once.
-/

namespace Jess

open Token (Kind Symbol Keyword ofSymbol ofKeyword ofName)

def UnaryOp.symbol : UnaryOp → Symbol
  | negate => .minus
  | not => .bang

def BinaryOp.symbol : BinaryOp → Symbol
  | add => .plus
  | sub => .minus
  | mul => .star
  | div => .slash
  | lt => .less
  | ltEq => .lessEqual
  | gt => .greater
  | gtEq => .greaterEqual
  | eq => .equalEqual
  | notEq => .bangEqual

def LogicalOp.keyword : LogicalOp → Keyword
  | and => .kwAnd
  | or => .kwOr

theorem BinaryOp.spelling_symbol (op : BinaryOp) : op.symbol.spelling = op.spelling := by
  cases op <;> rfl

theorem LogicalOp.spelling_keyword (op : LogicalOp) : op.keyword.spelling = op.spelling := by
  cases op <;> rfl

namespace Number

def isPlain (x : Float) : Bool :=
  decide (Binary.code x < Binary.infinityCode) && !Binary.isNegative x

def whole (digits : Nat) : Expr := .literal (.number (read digits 0))

/-- The expression that a number is written as: infinities and what is no number as quotients, and
negative numbers as negations. -/
def expression (x : Float) : Expr :=
  let code := Binary.code x
  if Binary.infinityCode < code then .binary .div (ofSymbol .slash) (whole 0) (whole 0)
  else if code = Binary.infinityCode then
    if Binary.isNegative x then
      .binary .div (ofSymbol .slash) (.unary .negate (ofSymbol .minus) (whole 1)) (whole 0)
    else .binary .div (ofSymbol .slash) (whole 1) (whole 0)
  else if Binary.isNegative x then
    .unary .negate (ofSymbol .minus) (.literal (.number (Binary.ofCode code)))
  else .literal (.number x)

def reprint (x : Float) : Expr :=
  if isPlain x then .literal (.number x) else .grouping (expression x)

theorem expression_of_plain {x : Float} (plain : isPlain x = true) :
    expression x = .literal (.number x) := by
  simp only [isPlain, Bool.and_eq_true, decide_eq_true_eq, Bool.not_eq_true'] at plain
  have past : ¬Binary.infinityCode < Binary.code x := by omega
  have top : ¬Binary.code x = Binary.infinityCode := by omega
  simp [expression, past, top, plain.2]

end Number

/-- What becomes of the parts of a tree. A branch before an `else` comes with whether it is open. -/
structure Rewriting where
  number : Float → Expr
  group : Expr → Expr
  wrap : Expr → Expr
  mark : Kind → Token → Token
  name : Token → Token
  branch : Bool → Stmt → Stmt

namespace Expr

mutual

def rewrite (r : Rewriting) : Expr → Expr
  | .literal (.number x) => r.number x
  | .literal (.string s) => .literal (.string s)
  | .literal (.boolean b) => .literal (.boolean b)
  | .literal .nil => .literal .nil
  | .grouping inner => r.group (inner.rewrite r)
  | .unary op operator operand =>
      r.wrap (.unary op (r.mark (.symbol op.symbol) operator) (operand.rewrite r))
  | .binary op operator left right =>
      r.wrap (.binary op (r.mark (.symbol op.symbol) operator) (left.rewrite r) (right.rewrite r))
  | .logical op operator left right =>
      r.wrap (.logical op (r.mark (.keyword op.keyword) operator) (left.rewrite r)
        (right.rewrite r))
  | .variable name => .variable (r.name name)
  | .assign name value => r.wrap (.assign (r.name name) (value.rewrite r))
  | .call callee paren args =>
      .call (callee.rewrite r) (r.mark (.symbol .rightParen) paren) (rewriteAll r args)

def rewriteAll (r : Rewriting) : List Expr → List Expr
  | [] => []
  | arg :: rest => arg.rewrite r :: rewriteAll r rest

end

theorem rewriteAll_length (r : Rewriting) (args : List Expr) :
    (rewriteAll r args).length = args.length := by
  induction args with
  | nil => rfl
  | cons arg rest ih => rw [rewriteAll, List.length_cons, ih, List.length_cons]

end Expr

namespace Stmt

mutual

def rewrite (r : Rewriting) : Stmt → Stmt
  | .expression e => .expression (e.rewrite r)
  | .print e => .print (e.rewrite r)
  | .declare name initializer => .declare (r.name name) (initializer.map (Expr.rewrite r))
  | .block body => .block (rewriteAll r body)
  | .ifThen condition thenBranch => .ifThen (condition.rewrite r) (thenBranch.rewrite r)
  | .ifElse condition thenBranch elseBranch =>
      .ifElse (condition.rewrite r) (r.branch thenBranch.endsOpen (thenBranch.rewrite r))
        (elseBranch.rewrite r)
  | .loop condition body => .loop (condition.rewrite r) (body.rewrite r)
  | .function name params body => .function (r.name name) (params.map r.name) (rewriteAll r body)
  | .giveBack keyword value =>
      .giveBack (r.mark (.keyword .kwReturn) keyword) (value.map (Expr.rewrite r))

def rewriteAll (r : Rewriting) : List Stmt → List Stmt
  | [] => []
  | s :: rest => s.rewrite r :: rewriteAll r rest

end

theorem rewriteAll_length (r : Rewriting) (body : List Stmt) :
    (rewriteAll r body).length = body.length := by
  induction body with
  | nil => rfl
  | cons s rest ih => rw [rewriteAll, List.length_cons, ih, List.length_cons]

theorem endsOpen_rewrite (r : Rewriting) (s : Stmt) : (s.rewrite r).endsOpen = s.endsOpen := by
  match s with
  | .expression _ | .print _ | .declare _ _ | .block _ | .ifThen _ _ | .function _ _ _
  | .giveBack _ _ => rfl
  | .ifElse _ _ elseBranch =>
      simp only [rewrite, endsOpen]
      exact endsOpen_rewrite r elseBranch
  | .loop _ body =>
      simp only [rewrite, endsOpen]
      exact endsOpen_rewrite r body

end Stmt

namespace Rewriting

/-- One rewriting behind another is a third one. -/
structure Composes (r s t : Rewriting) : Prop where
  number : ∀ x, (r.number x).rewrite s = t.number x
  group : ∀ e, (r.group e).rewrite s = t.group (e.rewrite s)
  wrap : ∀ e, (r.wrap e).rewrite s = e.rewrite s
  around : s.wrap = t.wrap
  mark : ∀ kind token, s.mark kind (r.mark kind token) = t.mark kind token
  name : ∀ token, s.name (r.name token) = t.name token
  branch : ∀ stmt : Stmt, s.branch (r.branch stmt.endsOpen stmt).endsOpen
    ((r.branch stmt.endsOpen stmt).rewrite s) = t.branch stmt.endsOpen (stmt.rewrite s)

end Rewriting

section Composition

variable {r s t : Rewriting}

mutual

theorem Expr.rewrite_rewrite (composes : r.Composes s t) (e : Expr) :
    (e.rewrite r).rewrite s = e.rewrite t := by
  match e with
  | .literal value =>
      cases value with
      | number x => exact composes.number x
      | string text => rfl
      | boolean b => rfl
      | nil => rfl
  | .grouping inner =>
      simp only [rewrite, composes.group, Expr.rewrite_rewrite composes inner]
  | .unary op operator operand =>
      simp only [rewrite, composes.wrap, composes.around, composes.mark,
        Expr.rewrite_rewrite composes operand]
  | .binary op operator left right =>
      simp only [rewrite, composes.wrap, composes.around, composes.mark,
        Expr.rewrite_rewrite composes left, Expr.rewrite_rewrite composes right]
  | .logical op operator left right =>
      simp only [rewrite, composes.wrap, composes.around, composes.mark,
        Expr.rewrite_rewrite composes left, Expr.rewrite_rewrite composes right]
  | .variable name => simp only [rewrite, composes.name]
  | .assign name value =>
      simp only [rewrite, composes.wrap, composes.around, composes.name,
        Expr.rewrite_rewrite composes value]
  | .call callee paren args =>
      simp only [rewrite, composes.mark, Expr.rewrite_rewrite composes callee,
        Expr.rewriteAll_rewriteAll composes args]

theorem Expr.rewriteAll_rewriteAll (composes : r.Composes s t) (args : List Expr) :
    Expr.rewriteAll s (Expr.rewriteAll r args) = Expr.rewriteAll t args := by
  match args with
  | [] => rfl
  | arg :: rest =>
      simp only [rewriteAll, Expr.rewrite_rewrite composes arg,
        Expr.rewriteAll_rewriteAll composes rest]

end

theorem Expr.rewrite_map_rewrite (composes : r.Composes s t) (e : Option Expr) :
    (e.map (Expr.rewrite r)).map (Expr.rewrite s) = e.map (Expr.rewrite t) := by
  cases e with
  | none => rfl
  | some e => simp only [Option.map_some, Expr.rewrite_rewrite composes e]

mutual

theorem Stmt.rewrite_rewrite (composes : r.Composes s t) (stmt : Stmt) :
    (stmt.rewrite r).rewrite s = stmt.rewrite t := by
  match stmt with
  | .expression e => simp only [rewrite, Expr.rewrite_rewrite composes e]
  | .print e => simp only [rewrite, Expr.rewrite_rewrite composes e]
  | .declare name initializer =>
      simp only [rewrite, composes.name, Expr.rewrite_map_rewrite composes initializer]
  | .block body => simp only [rewrite, Stmt.rewriteAll_rewriteAll composes body]
  | .ifThen condition thenBranch =>
      simp only [rewrite, Expr.rewrite_rewrite composes condition,
        Stmt.rewrite_rewrite composes thenBranch]
  | .ifElse condition thenBranch elseBranch =>
      have branch := composes.branch (thenBranch.rewrite r)
      rw [endsOpen_rewrite, Stmt.rewrite_rewrite composes thenBranch] at branch
      simp only [rewrite, Expr.rewrite_rewrite composes condition, branch,
        Stmt.rewrite_rewrite composes elseBranch]
  | .loop condition body =>
      simp only [rewrite, Expr.rewrite_rewrite composes condition,
        Stmt.rewrite_rewrite composes body]
  | .function name params body =>
      have names : (params.map r.name).map s.name = params.map t.name := by
        rw [List.map_map]
        apply List.map_congr_left
        intro param _
        exact composes.name param
      simp only [rewrite, composes.name, names, Stmt.rewriteAll_rewriteAll composes body]
  | .giveBack keyword value =>
      simp only [rewrite, composes.mark, Expr.rewrite_map_rewrite composes value]

theorem Stmt.rewriteAll_rewriteAll (composes : r.Composes s t) (body : List Stmt) :
    Stmt.rewriteAll s (Stmt.rewriteAll r body) = Stmt.rewriteAll t body := by
  match body with
  | [] => rfl
  | stmt :: rest =>
      simp only [rewriteAll, Stmt.rewrite_rewrite composes stmt,
        Stmt.rewriteAll_rewriteAll composes rest]

end

end Composition

namespace Token

/-- The written token of a kind that is always spelled in the same way. -/
def ofKind (kind : Kind) : Token := made kind kind.display.toList

end Token

namespace Rewriting

def placing : Rewriting where
  number x := .literal (.number x)
  group := .grouping
  wrap := id
  mark _ token := token.placeless
  name token := token.placeless
  branch _ stmt := stmt

/-- Gives each node the token that it is spelled with. -/
def standard : Rewriting :=
  { placing with
    mark := fun kind _ => Token.ofKind kind
    name := fun token => ofName token.lexeme }

/-- The tree that the canonical text is read as. -/
def reprint : Rewriting :=
  { standard with
    number := Number.reprint
    wrap := .grouping
    branch := fun isOpen stmt => if isOpen then .block [stmt] else stmt }

/-- Takes the groupings out, and the places off the tokens. -/
def bare : Rewriting := { placing with group := id }

/-- Besides, writes numbers out as expressions and adds the braces of the printer. -/
def writtenOut : Rewriting :=
  { bare with
    number := Number.expression
    branch := fun isOpen stmt => if isOpen then .block [stmt] else stmt }

/-- Writes out only the numbers that are too large, and adds the braces of the printer. -/
def overflowing : Rewriting :=
  { writtenOut with
    number := fun x =>
      if Binary.code x = Binary.infinityCode then
        .binary .div (ofSymbol .slash) (Number.whole 1) (Number.whole 0)
      else .literal (.number x) }

def writtenStandard : Rewriting :=
  { writtenOut with
    mark := fun kind _ => Token.ofKind kind
    name := fun token => ofName token.lexeme }

theorem expression_bare (x : Float) : (Number.expression x).rewrite bare = Number.expression x := by
  unfold Number.expression
  simp only
  split
  · rfl
  split
  · split
    · rfl
    · rfl
  split
  · rfl
  · rfl

theorem reprint_bare : Composes reprint bare writtenStandard where
  number x := by
    change (Number.reprint x).rewrite bare = Number.expression x
    unfold Number.reprint
    split
    · rename_i plain
      rw [Number.expression_of_plain plain]
      rfl
    · exact expression_bare x
  group _ := rfl
  wrap _ := rfl
  around := rfl
  mark _ _ := rfl
  name _ := rfl
  branch stmt := by
    simp only [reprint, writtenStandard, writtenOut]
    cases stmt.endsOpen with
    | true => rfl
    | false => rfl

theorem standard_writtenOut : Composes standard writtenOut writtenStandard where
  number _ := rfl
  group _ := rfl
  wrap _ := rfl
  around := rfl
  mark _ _ := rfl
  name _ := rfl
  branch _ := rfl

theorem placing_composes {s : Rewriting} (mark : ∀ kind t, s.mark kind t.placeless = s.mark kind t)
    (name : ∀ t, s.name t.placeless = s.name t) : Composes placing s s where
  number _ := rfl
  group _ := rfl
  wrap _ := rfl
  around := rfl
  mark := mark
  name := name
  branch _ := rfl

theorem placing_bare : Composes placing bare bare :=
  placing_composes (fun _ _ => rfl) fun _ => rfl

theorem placing_writtenOut : Composes placing writtenOut writtenOut :=
  placing_composes (fun _ _ => rfl) fun _ => rfl

end Rewriting

section Placing

open Rewriting (placing)

mutual

theorem Expr.rewrite_placing (e : Expr) : e.rewrite placing = e.placeless := by
  match e with
  | .literal value =>
      cases value with
      | _ => rfl
  | .grouping inner =>
      simp only [rewrite, placeless, Expr.rewrite_placing inner]
      rfl
  | .unary op operator operand =>
      simp only [rewrite, placeless, Expr.rewrite_placing operand]
      rfl
  | .binary op operator left right =>
      simp only [rewrite, placeless, Expr.rewrite_placing left, Expr.rewrite_placing right]
      rfl
  | .logical op operator left right =>
      simp only [rewrite, placeless, Expr.rewrite_placing left, Expr.rewrite_placing right]
      rfl
  | .variable name => rfl
  | .assign name value =>
      simp only [rewrite, placeless, Expr.rewrite_placing value]
      rfl
  | .call callee paren args =>
      simp only [rewrite, placeless, Expr.rewrite_placing callee, Expr.rewriteAll_placing args]
      rfl

theorem Expr.rewriteAll_placing (args : List Expr) :
    Expr.rewriteAll placing args = Expr.placelessAll args := by
  match args with
  | [] => rfl
  | arg :: rest =>
      simp only [rewriteAll, placelessAll, Expr.rewrite_placing arg, Expr.rewriteAll_placing rest]

end

theorem Expr.rewrite_placing_eq : Expr.rewrite placing = Expr.placeless :=
  funext Expr.rewrite_placing

mutual

theorem Stmt.rewrite_placing (s : Stmt) : s.rewrite placing = s.placeless := by
  match s with
  | .expression e => simp only [rewrite, placeless, Expr.rewrite_placing e]
  | .print e => simp only [rewrite, placeless, Expr.rewrite_placing e]
  | .declare name initializer =>
      simp only [rewrite, placeless, Expr.rewrite_placing_eq]
      rfl
  | .block body => simp only [rewrite, placeless, Stmt.rewriteAll_placing body]
  | .ifThen condition thenBranch =>
      simp only [rewrite, placeless, Expr.rewrite_placing condition,
        Stmt.rewrite_placing thenBranch]
  | .ifElse condition thenBranch elseBranch =>
      simp only [rewrite, placeless, Expr.rewrite_placing condition,
        Stmt.rewrite_placing thenBranch, Stmt.rewrite_placing elseBranch]
      rfl
  | .loop condition body =>
      simp only [rewrite, placeless, Expr.rewrite_placing condition, Stmt.rewrite_placing body]
  | .function name params body =>
      simp only [rewrite, placeless, Stmt.rewriteAll_placing body]
      rfl
  | .giveBack keyword value =>
      simp only [rewrite, placeless, Expr.rewrite_placing_eq]
      rfl

theorem Stmt.rewriteAll_placing (body : List Stmt) :
    Stmt.rewriteAll placing body = Stmt.placelessAll body := by
  match body with
  | [] => rfl
  | s :: rest =>
      simp only [rewriteAll, placelessAll, Stmt.rewrite_placing s, Stmt.rewriteAll_placing rest]

end

variable {s : Rewriting} (ignores : placing.Composes s s)

include ignores

theorem Expr.rewrite_placeless (e : Expr) : e.placeless.rewrite s = e.rewrite s := by
  rw [← Expr.rewrite_placing, Expr.rewrite_rewrite ignores]

theorem Stmt.rewriteAll_placeless (body : List Stmt) :
    Stmt.rewriteAll s (Stmt.placelessAll body) = Stmt.rewriteAll s body := by
  rw [← Stmt.rewriteAll_placing, Stmt.rewriteAll_rewriteAll ignores]

end Placing

end Jess
