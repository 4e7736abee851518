/-!
Kinds of tokens: symbols, keywords, the three kinds whose spelling varies, and the end of
the input. Kinds are numbered from 0 to 39, symbols first and the end last.
-/

namespace Jess.Token

inductive Symbol
  | leftParen | rightParen | leftBrace | rightBrace | comma | dot | minus | plus | semicolon
  | slash | star | bang | bangEqual | equal | equalEqual | greater | greaterEqual | less
  | lessEqual
deriving Repr, DecidableEq

namespace Symbol

def all : List Symbol :=
  [leftParen, rightParen, leftBrace, rightBrace, comma, dot, minus, plus, semicolon, slash,
    star, bang, bangEqual, equal, equalEqual, greater, greaterEqual, less, lessEqual]

def spelling : Symbol → String
  | leftParen => "("
  | rightParen => ")"
  | leftBrace => String.singleton '{'
  | rightBrace => String.singleton '}'
  | comma => ","
  | dot => "."
  | minus => "-"
  | plus => "+"
  | semicolon => ";"
  | slash => "/"
  | star => "*"
  | bang => "!"
  | bangEqual => "!="
  | equal => "="
  | equalEqual => "=="
  | greater => ">"
  | greaterEqual => ">="
  | less => "<"
  | lessEqual => "<="

def label : Symbol → String
  | leftParen => "LeftParen"
  | rightParen => "RightParen"
  | leftBrace => "LeftBrace"
  | rightBrace => "RightBrace"
  | comma => "Comma"
  | dot => "Dot"
  | minus => "Minus"
  | plus => "Plus"
  | semicolon => "Semicolon"
  | slash => "Slash"
  | star => "Star"
  | bang => "Bang"
  | bangEqual => "BangEqual"
  | equal => "Equal"
  | equalEqual => "EqualEqual"
  | greater => "Greater"
  | greaterEqual => "GreaterEqual"
  | less => "Less"
  | lessEqual => "LessEqual"

end Symbol

/-- Reserved words. Some have no use in the grammar, but none can name a variable. -/
inductive Keyword
  | kwAnd | kwClass | kwElse | kwFalse | kwFor | kwFunc | kwIf | kwNil | kwOr | kwPrint
  | kwReturn | kwSuper | kwThis | kwTrue | kwVar | kwLet | kwWhile
deriving Repr, DecidableEq

namespace Keyword

def all : List Keyword :=
  [kwAnd, kwClass, kwElse, kwFalse, kwFor, kwFunc, kwIf, kwNil, kwOr, kwPrint, kwReturn, kwSuper,
    kwThis, kwTrue, kwVar, kwLet, kwWhile]

def spelling : Keyword → String
  | kwAnd => "and"
  | kwClass => "class"
  | kwElse => "else"
  | kwFalse => "false"
  | kwFor => "for"
  | kwFunc => "func"
  | kwIf => "if"
  | kwNil => "nil"
  | kwOr => "or"
  | kwPrint => "print"
  | kwReturn => "return"
  | kwSuper => "super"
  | kwThis => "this"
  | kwTrue => "true"
  | kwVar => "var"
  | kwLet => "let"
  | kwWhile => "while"

def label : Keyword → String
  | kwAnd => "And"
  | kwClass => "Class"
  | kwElse => "Else"
  | kwFalse => "False"
  | kwFor => "For"
  | kwFunc => "Func"
  | kwIf => "If"
  | kwNil => "Nil"
  | kwOr => "Or"
  | kwPrint => "Print"
  | kwReturn => "Return"
  | kwSuper => "Super"
  | kwThis => "This"
  | kwTrue => "True"
  | kwVar => "Var"
  | kwLet => "Let"
  | kwWhile => "While"

def ofSpelling? (text : String) : Option Keyword := all.find? fun w => w.spelling == text

theorem ofSpelling?_eq_some_iff {text : String} {w : Keyword} :
    ofSpelling? text = some w ↔ text = w.spelling := by
  constructor
  · intro found
    have same := List.find?_some found
    exact (beq_iff_eq.mp same).symm
  · rintro rfl
    cases w <;> decide

end Keyword

inductive Kind
  | symbol (s : Symbol)
  | identifier
  | string
  | number
  | keyword (w : Keyword)
  | eof
deriving Repr, DecidableEq

namespace Kind

def all : List Kind :=
  Symbol.all.map symbol ++ [identifier, string, number] ++ Keyword.all.map keyword ++ [eof]

def index (k : Kind) : Nat := all.idxOf k

theorem all_index (k : Kind) : all[k.index]? = some k := by
  cases k with
  | symbol s => cases s <;> decide
  | keyword w => cases w <;> decide
  | _ => decide

theorem index_inj {j k : Kind} (h : j.index = k.index) : j = k := by
  have same := all_index j
  rw [h, all_index k] at same
  exact (Option.some.inj same).symm

def maxIndex : Nat := 39

theorem index_le (k : Kind) : k.index ≤ maxIndex := by
  cases k with
  | symbol s => cases s <;> decide
  | keyword w => cases w <;> decide
  | _ => decide

def label : Kind → String
  | symbol s => s.label
  | identifier => "Identifier"
  | string => "String"
  | number => "Number"
  | keyword w => w.label
  | eof => "Eof"

/-- The spelling where a kind has only one, and else what the kind is. -/
def display : Kind → String
  | symbol s => s.spelling
  | identifier => "identifier"
  | string => "string"
  | number => "number"
  | keyword w => w.spelling
  | eof => "end of input"

def ofLabel? (name : String) : Option Kind := all.find? fun k => k.label == name

end Kind

end Jess.Token
