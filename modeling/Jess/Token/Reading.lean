import Jess.Diagnostic
import Jess.Token.Piece

/-!
Tokens of a source text. A reading goes over the pieces of the text and keeps the line
and the byte offset it has come to. Most pieces make one token or none; an unexpected
character and a string that is not closed are reported and make none. The token of a
string belongs to the line of its closing quote. One last token marks the end.
-/

namespace Jess.Token

inductive Misspelling
  | unexpectedCharacter (c : Char)
  | unterminatedString
deriving Repr, DecidableEq

namespace Misspelling

def message : Misspelling → String
  | unexpectedCharacter c => "Unexpected character: '" ++ c.toString ++ "'."
  | unterminatedString => "Unterminated string."

def diagnostic (m : Misspelling) (line : Nat) : Diagnostic := .lexical line m.message

end Misspelling

def byteLength (text : List Char) : Nat := text.foldl (fun total c => total + c.utf8Size) 0

def digitsValue (digits : List Char) : Nat :=
  digits.foldl (fun total c => total * 10 + (c.toNat - '0'.toNat)) 0

/-- The number nearest to digits with an optional point. -/
def numberValue (lexeme : List Char) : Float :=
  let fraction := (lexeme.dropWhile Char.isDigit).drop 1
  Number.read (digitsValue (lexeme.takeWhile Char.isDigit ++ fraction)) fraction.length

def literalOf (kind : Kind) (lexeme : List Char) : Option Literal :=
  match kind with
  | .number => some (.number (numberValue lexeme))
  | .string => some (.string (String.ofList (lexeme.drop 1).dropLast))
  | _ => none

/-- How far a source text has been read, and what it has given so far. -/
structure Reading where
  line : Nat
  offset : Nat
  tokens : Array Token
  diagnostics : Array Diagnostic

namespace Reading

def start : Reading := ⟨1, 0, #[], #[]⟩

/-- Goes past one piece. A string may hold newlines; they count before its token does. -/
def step (r : Reading) (piece : Piece) : Reading :=
  let line := r.line + piece.text.count '\n'
  let offset := r.offset + byteLength piece.text
  match piece.role with
  | .token kind =>
      let token : Token := ⟨kind, String.ofList piece.text, literalOf kind piece.text, line,
        Span.ofRange r.offset offset⟩
      ⟨line, offset, r.tokens.push token, r.diagnostics⟩
  | .unclosed =>
      ⟨line, offset, r.tokens, r.diagnostics.push (Misspelling.unterminatedString.diagnostic line)⟩
  | .unexpected =>
      let c := piece.text.headD '\ufffd'
      ⟨line, offset, r.tokens,
        r.diagnostics.push ((Misspelling.unexpectedCharacter c).diagnostic r.line)⟩
  | .comment => ⟨r.line, offset, r.tokens, r.diagnostics⟩
  | .blank => ⟨r.line, offset, r.tokens, r.diagnostics⟩
  | .newline => ⟨r.line + 1, offset, r.tokens, r.diagnostics⟩

def ofText (text : List Char) : Reading := (Piece.all text).foldl step start

end Reading

def scan (source : String) : List Token × List Diagnostic :=
  let r := Reading.ofText source.toList
  (r.tokens.toList ++ [Token.eof r.line r.offset], r.diagnostics.toList)

theorem scan_ends (source : String) :
    ∃ tokens line offset, (scan source).1 = tokens ++ [Token.eof line offset] :=
  ⟨_, _, _, rfl⟩

end Jess.Token
