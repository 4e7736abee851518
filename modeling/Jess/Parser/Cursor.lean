import Jess.Token
import Jess.Token.KindSet

/-!
A place in a token list. A cursor always stands on a token, and it never goes on from an
end token, so it cannot leave the list.
-/

namespace Jess.Parser

open Token

/-- The tokens before the place, the nearest first, the token at it, and those after it. -/
structure Cursor where
  before : List Token
  current : Token
  after : List Token

namespace Cursor

def ofList? : List Token → Option Cursor
  | [] => none
  | token :: rest => some ⟨[], token, rest⟩

def tokens (c : Cursor) : List Token := c.before.reverse ++ c.current :: c.after

def position (c : Cursor) : Nat := c.before.length

def kind (c : Cursor) : Kind := c.current.kind

/-- The kind of the token before the place; at the start of the list, the end kind. -/
def kindBefore (c : Cursor) : Kind :=
  match c.before with
  | [] => .eof
  | token :: _ => token.kind

def atEnd (c : Cursor) : Bool := c.kind == .eof

def check (c : Cursor) (kind : Kind) : Bool := c.kind == kind

/-- The place after the current token, or the same place at an end token. -/
def advance (c : Cursor) : Cursor :=
  if c.atEnd then c
  else match c.after with
    | [] => c
    | token :: rest => ⟨c.current :: c.before, token, rest⟩

def eat (c : Cursor) (kind : Kind) : Bool × Cursor :=
  if c.check kind then (true, c.advance) else (false, c)

/-- Whether skipped tokens end here: after a semicolon, before a token that begins a
statement, or at the end. -/
def atBoundary (c : Cursor) : Bool :=
  c.atEnd || c.kindBefore == .symbol .semicolon || KindSet.statementStart.contains c.kind

/-- The next boundary at or after a place, which is given by its three parts. -/
def skip (before : List Token) (current : Token) : List Token → Cursor
  | [] => ⟨before, current, []⟩
  | next :: rest =>
      let c : Cursor := ⟨before, current, next :: rest⟩
      if c.atBoundary then c else skip (current :: before) next rest

def toBoundary (c : Cursor) : Cursor :=
  let moved := c.advance
  skip moved.before moved.current moved.after

def skipped (c : Cursor) : Nat := c.toBoundary.position - c.position

theorem tokens_advance (c : Cursor) : c.advance.tokens = c.tokens := by
  obtain ⟨before, current, after⟩ := c
  simp only [advance]
  split
  · rfl
  · cases after <;> simp [tokens]

theorem tokens_skip (before : List Token) (current : Token) (after : List Token) :
    (skip before current after).tokens = before.reverse ++ current :: after := by
  induction after generalizing before current with
  | nil => rfl
  | cons next rest ih =>
      simp only [skip]
      split
      · rfl
      · rw [ih]
        simp

theorem tokens_toBoundary (c : Cursor) : c.toBoundary.tokens = c.tokens := by
  rw [toBoundary, tokens_skip]
  exact tokens_advance c

theorem position_lt_length (c : Cursor) : c.position < c.tokens.length := by
  simp [position, tokens]

end Cursor

end Jess.Parser
