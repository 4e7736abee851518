import Jess.Parser.Statement

/-!
Programs. Parsing a token list gives the statements that were read without unwinding, in
order, and the complaints in the order they were filed.
-/

namespace Jess

namespace Parser

structure Outcome where
  statements : List Stmt
  complaints : List Complaint

namespace Outcome

def diagnostics (o : Outcome) : List Diagnostic := o.complaints.map Complaint.diagnostic

def errorCount (o : Outcome) : Nat := o.complaints.length

def isClean (o : Outcome) : Bool := o.complaints.isEmpty

end Outcome

/-- Enough nesting for a list of so many tokens: no rule goes more than this many steps
deeper before it goes past a token. -/
def enoughDepth (tokens : Nat) : Nat := 8 * tokens + 8

def readFrom (cursor : Cursor) (tokens : Nat) : Outcome :=
  match declarations (enoughDepth tokens) #[] ⟨cursor, #[]⟩ with
  | .ok statements s => ⟨statements, s.complaints.toList⟩
  | .error _ s => ⟨[], s.complaints.toList⟩

/-- Reads a token list. One that is not empty has to end with an end token. -/
def read (tokens : List Token) : Outcome :=
  match Cursor.ofList? tokens with
  | none => ⟨[], []⟩
  | some cursor => readFrom cursor tokens.length

end Parser

end Jess
