import Jess.Token.Kind

/-!
A source text falls into pieces from left to right. Each piece is the longest start of
the remaining text that is a token, white space within a line, a newline, a comment, or
an opening quote with no closing one; where nothing fits it is one unexpected character.
The pieces one after another are the whole text.
-/

namespace Jess.Token

inductive Piece.Role
  | blank
  | newline
  | comment
  | token (kind : Kind)
  | unclosed
  | unexpected
deriving Repr, DecidableEq

structure Piece where
  role : Piece.Role
  text : List Char
deriving Repr, DecidableEq

/-- White space that does not end a line. -/
def isGap (c : Char) : Bool := c == ' ' || c == '\t' || c == '\r'

def isNameStart (c : Char) : Bool := c.isAlpha || c == '_'

def isNamePart (c : Char) : Bool := c.isAlphanum || c == '_'

def Symbol.ofChar? : Char → Option Symbol
  | '(' => some leftParen
  | ')' => some rightParen
  | '{' => some leftBrace
  | '}' => some rightBrace
  | ',' => some comma
  | '.' => some dot
  | '-' => some minus
  | '+' => some plus
  | ';' => some semicolon
  | '/' => some slash
  | '*' => some star
  | '!' => some bang
  | '=' => some equal
  | '>' => some greater
  | '<' => some less
  | _ => none

/-- The symbol that a directly following `=` makes of a symbol. -/
def Symbol.withEqual? : Symbol → Option Symbol
  | bang => some bangEqual
  | equal => some equalEqual
  | greater => some greaterEqual
  | less => some lessEqual
  | _ => none

namespace Piece

def nameKind (name : List Char) : Kind :=
  match Keyword.ofSpelling? (String.ofList name) with
  | some w => .keyword w
  | none => .identifier

def run (role : Role) (test : Char → Bool) (c : Char) (cs : List Char) : Piece × List Char :=
  (⟨role, c :: cs.takeWhile test⟩, cs.dropWhile test)

/-- Digits, and digits after a point where the point has some. -/
def number (c : Char) (cs : List Char) : Piece × List Char :=
  let whole := c :: cs.takeWhile Char.isDigit
  match cs.dropWhile Char.isDigit with
  | '.' :: d :: rest =>
      if d.isDigit then
        (⟨.token .number, whole ++ '.' :: d :: rest.takeWhile Char.isDigit⟩,
          rest.dropWhile Char.isDigit)
      else (⟨.token .number, whole⟩, '.' :: d :: rest)
  | rest => (⟨.token .number, whole⟩, rest)

def string (c : Char) (cs : List Char) : Piece × List Char :=
  let content := cs.takeWhile (· != '"')
  match cs.dropWhile (· != '"') with
  | quote :: rest => (⟨.token .string, c :: content ++ [quote]⟩, rest)
  | [] => (⟨.unclosed, c :: content⟩, [])

/-- A symbol, or two slashes and the rest of the line. -/
def symbol (s : Symbol) (c : Char) (cs : List Char) : Piece × List Char :=
  match cs with
  | [] => (⟨.token (.symbol s), [c]⟩, [])
  | d :: rest =>
      if s = .slash ∧ d = '/' then
        (⟨.comment, c :: d :: rest.takeWhile (· != '\n')⟩, rest.dropWhile (· != '\n'))
      else
        match if d = '=' then s.withEqual? else none with
        | some longer => (⟨.token (.symbol longer), [c, d]⟩, rest)
        | none => (⟨.token (.symbol s), [c]⟩, d :: rest)

def next (c : Char) (cs : List Char) : Piece × List Char :=
  if isGap c then run .blank isGap c cs
  else if c = '\n' then (⟨.newline, [c]⟩, cs)
  else if c.isDigit then number c cs
  else if isNameStart c then
    let name := c :: cs.takeWhile isNamePart
    (⟨.token (nameKind name), name⟩, cs.dropWhile isNamePart)
  else if c = '"' then string c cs
  else match Symbol.ofChar? c with
    | some s => symbol s c cs
    | none => (⟨.unexpected, [c]⟩, cs)

private theorem takeWhile_dropWhile (test : Char → Bool) (cs : List Char) :
    cs.takeWhile test ++ cs.dropWhile test = cs := List.takeWhile_append_dropWhile

theorem number_append (c : Char) (cs : List Char) :
    (number c cs).1.text ++ (number c cs).2 = c :: cs := by
  simp only [number]
  have whole := takeWhile_dropWhile Char.isDigit cs
  split
  · rename_i d rest eq
    rw [eq] at whole
    split
    · simpa using whole
    · simp [whole]
  · simp

theorem string_append (c : Char) (cs : List Char) :
    (string c cs).1.text ++ (string c cs).2 = c :: cs := by
  simp only [string]
  have whole := takeWhile_dropWhile (· != '"') cs
  split
  · rename_i quote rest eq
    rw [eq] at whole
    simpa using whole
  · rename_i eq
    rw [eq] at whole
    simpa using whole

theorem symbol_append (s : Symbol) (c : Char) (cs : List Char) :
    (symbol s c cs).1.text ++ (symbol s c cs).2 = c :: cs := by
  cases cs with
  | nil => rfl
  | cons d rest =>
      simp only [symbol]
      split
      · simp
      · split <;> rfl

theorem next_append (c : Char) (cs : List Char) :
    (next c cs).1.text ++ (next c cs).2 = c :: cs := by
  simp only [next]
  split
  · simp [run]
  split
  · rfl
  split
  · exact number_append c cs
  split
  · simp
  split
  · exact string_append c cs
  split
  · exact symbol_append _ c cs
  · rfl

theorem number_text_ne_nil (c : Char) (cs : List Char) : (number c cs).1.text ≠ [] := by
  simp only [number]
  split
  · split <;> simp
  · simp

theorem string_text_ne_nil (c : Char) (cs : List Char) : (string c cs).1.text ≠ [] := by
  simp only [string]
  split <;> simp

theorem symbol_text_ne_nil (s : Symbol) (c : Char) (cs : List Char) :
    (symbol s c cs).1.text ≠ [] := by
  cases cs with
  | nil => simp [symbol]
  | cons d rest =>
      simp only [symbol]
      split
      · simp
      · split <;> simp

theorem next_text_ne_nil (c : Char) (cs : List Char) : (next c cs).1.text ≠ [] := by
  simp only [next]
  split
  · simp [run]
  split
  · simp
  split
  · exact number_text_ne_nil c cs
  split
  · simp
  split
  · exact string_text_ne_nil c cs
  split
  · exact symbol_text_ne_nil _ c cs
  · simp

theorem next_rest_length (c : Char) (cs : List Char) :
    (next c cs).2.length < (c :: cs).length := by
  have whole := congrArg List.length (next_append c cs)
  have some_text := List.length_pos_iff.mpr (next_text_ne_nil c cs)
  rw [List.length_append] at whole
  omega

def collect (done : Array Piece) : List Char → Array Piece
  | [] => done
  | c :: cs =>
      match _eq : next c cs with
      | (piece, rest) => collect (done.push piece) rest
termination_by text => text.length
decreasing_by
  have shorter := next_rest_length c cs
  rwa [_eq] at shorter

def all (text : List Char) : List Piece := (collect #[] text).toList

theorem collect_nil (done : Array Piece) : collect done [] = done := by rw [collect]

theorem collect_cons (done : Array Piece) (c : Char) (cs : List Char) :
    collect done (c :: cs) = collect (done.push (next c cs).1) (next c cs).2 := by
  rw [collect]

theorem collect_toList (done : Array Piece) (text : List Char) :
    (collect done text).toList = done.toList ++ all text := by
  induction size : text.length using Nat.strongRecOn generalizing done text with
  | ind n ih =>
      cases text with
      | nil => simp [all, collect_nil]
      | cons c cs =>
          have shorter : (next c cs).2.length < n := size ▸ next_rest_length c cs
          have alone : all (c :: cs) = (next c cs).1 :: all (next c cs).2 := by
            rw [all, collect_cons, ih _ shorter _ _ rfl]
            rfl
          rw [collect_cons, ih _ shorter _ _ rfl, alone]
          simp

@[simp] theorem all_nil : all [] = [] := by simp [all, collect_nil]

theorem all_cons (c : Char) (cs : List Char) :
    all (c :: cs) = (next c cs).1 :: all (next c cs).2 := by
  rw [all, collect_cons, collect_toList]
  simp

theorem flatMap_text_all (text : List Char) : (all text).flatMap Piece.text = text := by
  induction size : text.length using Nat.strongRecOn generalizing text with
  | ind n ih =>
      cases text with
      | nil => simp
      | cons c cs =>
          have shorter : (next c cs).2.length < n := size ▸ next_rest_length c cs
          rw [all_cons, List.flatMap_cons, ih _ shorter _ rfl, next_append]

end Piece

end Jess.Token
