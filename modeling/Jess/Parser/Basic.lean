import Jess.Parser.Complaint
import Jess.Parser.Cursor
import Jess.Tree

/-!
The steps that a parser is made of. A parser moves a cursor and files complaints. It
stops early after a complaint that unwinds; what has been read and filed by then stays,
and the statement around it picks up at the next boundary. Nesting is bounded by an
explicit depth, which the number of tokens makes large enough.
-/

namespace Jess

open Token (Kind)

namespace Parser

/-- The most arguments of a call, and the most parameters of a function. -/
def maxArity : Nat := 255

inductive Stop
  | unwound
  | tooDeep
deriving Repr, DecidableEq

structure State where
  cursor : Cursor
  complaints : Array Complaint

end Parser

abbrev Parser := EStateM Parser.Stop Parser.State

namespace Parser

def current : Parser Token := fun s => .ok s.cursor.current s

def check (kind : Kind) : Parser Bool := fun s => .ok (s.cursor.check kind) s

def atEnd : Parser Bool := fun s => .ok s.cursor.atEnd s

def advance : Parser Token := fun s =>
  .ok s.cursor.current { s with cursor := s.cursor.advance }

def eat (kind : Kind) : Parser Bool := fun s =>
  if s.cursor.check kind then .ok true { s with cursor := s.cursor.advance } else .ok false s

def report (token : Token) (mistake : Mistake) : Parser Unit := fun s =>
  .ok () { s with complaints := s.complaints.push ⟨token, mistake⟩ }

def fail {α : Type} (what : Expectation) : Parser α := fun s =>
  .error .unwound { s with complaints := s.complaints.push ⟨s.cursor.current, .expected what⟩ }

def expect (kind : Kind) (what : Expectation) : Parser Token := fun s =>
  if s.cursor.check kind then .ok s.cursor.current { s with cursor := s.cursor.advance }
  else fail what s

def tooDeep {α : Type} : Parser α := fun s => .error .tooDeep s

/-- Runs a parser, and if it was unwound goes on at the next boundary without a value. -/
def recovering {α : Type} (p : Parser α) : Parser (Option α) := fun s =>
  match p s with
  | .ok value s => .ok (some value) s
  | .error .unwound s => .ok none { s with cursor := s.cursor.toBoundary }
  | .error .tooDeep s => .error .tooDeep s

end Parser

end Jess
