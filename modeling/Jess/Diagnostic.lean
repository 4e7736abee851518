import Jess.Token

/-!
Diagnostics: the reports of mistakes that a user reads. Mistakes of spelling and grammar
are static, they are found before a program runs. The others are found by running it.
-/

namespace Jess

namespace Diagnostic

inductive Kind
  | lexical
  | syntactic
  | runtime
deriving Repr, DecidableEq

/-- Where in its line a mistake was noticed, if that is known. -/
inductive Place
  | line
  | atEnd
  | at (lexeme : String)
deriving Repr, DecidableEq

end Diagnostic

structure Diagnostic where
  kind : Diagnostic.Kind
  line : Nat
  place : Diagnostic.Place
  message : String
deriving Repr, DecidableEq

namespace Diagnostic

def lexical (line : Nat) (message : String) : Diagnostic := ⟨.lexical, line, .line, message⟩

def syntactic (token : Token) (message : String) : Diagnostic :=
  ⟨.syntactic, token.line, if token.isEof then .atEnd else .at token.lexeme, message⟩

def runtime (line : Nat) (message : String) : Diagnostic := ⟨.runtime, line, .line, message⟩

def isStatic (d : Diagnostic) : Bool :=
  match d.kind with
  | .runtime => false
  | _ => true

def text (d : Diagnostic) : String :=
  let line := "[line " ++ toString d.line ++ "]"
  match d.kind with
  | .runtime => d.message ++ "\n" ++ line
  | _ =>
      let place := match d.place with
        | .line => ""
        | .atEnd => " at end"
        | .at lexeme => " at '" ++ lexeme ++ "'"
      line ++ " Error" ++ place ++ ": " ++ d.message

end Diagnostic

end Jess
