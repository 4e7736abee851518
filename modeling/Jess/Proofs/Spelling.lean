import Jess.Proofs.Numeral
import Jess.Proofs.Placeless
import Jess.Token.Reading

/-!
# The tokens of a text

What a text is spelled with, places aside: its tokens in order, or nothing where
a piece of it is misspelled. A piece is the longest one that fits, so a text
behind another one leaves the tokens of that one alone if its first character
does not go on with the last of them. A newline never goes on with a token, and
so the lines of a text are spelled one by one.
-/

namespace Jess.Token

namespace Piece

def isMistake (piece : Piece) : Bool := piece.role == .unclosed || piece.role == .unexpected

def token? (piece : Piece) : Option Token :=
  match piece.role with
  | .token kind =>
      some ⟨kind, String.ofList piece.text, literalOf kind piece.text, 0, .nowhere⟩
  | _ => none

end Piece

/-- The placeless tokens of a text in which nothing is misspelled. -/
def spelled? (text : List Char) : Option (List Token) :=
  if (Piece.all text).any Piece.isMistake then none
  else some ((Piece.all text).filterMap Piece.token?)

theorem placeless_eof (line offset : Nat) : (Token.eof line offset).placeless = Token.eof 0 0 := rfl

theorem step_tokens (r : Reading) (piece : Piece) :
    (r.step piece).tokens.toList.map placeless =
      r.tokens.toList.map placeless ++ piece.token?.toList := by
  obtain ⟨role, text⟩ := piece
  cases role <;> simp [Reading.step, Piece.token?, placeless]

theorem step_diagnostics (r : Reading) (piece : Piece) :
    (r.step piece).diagnostics.isEmpty = (r.diagnostics.isEmpty && !piece.isMistake) := by
  obtain ⟨role, text⟩ := piece
  cases role <;> simp [Reading.step, Piece.isMistake]

theorem foldl_tokens (pieces : List Piece) (r : Reading) :
    (pieces.foldl Reading.step r).tokens.toList.map placeless =
      r.tokens.toList.map placeless ++ pieces.filterMap Piece.token? := by
  induction pieces generalizing r with
  | nil => simp
  | cons piece rest ih =>
      rw [List.foldl_cons, ih, step_tokens, List.filterMap_cons]
      cases piece.token? <;> simp

theorem foldl_diagnostics (pieces : List Piece) (r : Reading) :
    (pieces.foldl Reading.step r).diagnostics.isEmpty =
      (r.diagnostics.isEmpty && !pieces.any Piece.isMistake) := by
  induction pieces generalizing r with
  | nil => simp
  | cons piece rest ih =>
      rw [List.foldl_cons, ih, step_diagnostics, List.any_cons, Bool.not_or, Bool.and_assoc]

/-- A source is read without diagnostics if and only if nothing in it is misspelled. -/
theorem scan_clean_iff (source : String) :
    (scan source).2 = [] ↔ (spelled? source.toList).isSome = true := by
  have clean := foldl_diagnostics (Piece.all source.toList) Reading.start
  simp only [scan, Reading.ofText, spelled?]
  cases mistaken : (Piece.all source.toList).any Piece.isMistake with
  | true =>
      rw [mistaken] at clean
      simpa [Reading.start] using clean
  | false =>
      rw [mistaken] at clean
      simpa [Reading.start] using clean

theorem scan_placeless (source : String) :
    (scan source).1.map placeless =
      (Piece.all source.toList).filterMap Piece.token? ++ [Token.eof 0 0] := by
  have found := foldl_tokens (Piece.all source.toList) Reading.start
  simp only [scan, Reading.ofText, List.map_append, List.map_cons, List.map_nil, placeless_eof,
    found]
  simp [Reading.start]

theorem scan_spelled {source : String} {tokens : List Token}
    (spelled : spelled? source.toList = some tokens) :
    (scan source).1.map placeless = tokens ++ [Token.eof 0 0] := by
  simp only [spelled?] at spelled
  split at spelled
  · cases spelled
  · cases spelled
    exact scan_placeless source

@[simp] theorem spelled_nil : spelled? [] = some [] := by
  simp [spelled?]

theorem spelled_cons (c : Char) (cs : List Char) :
    spelled? (c :: cs) =
      if (Piece.next c cs).1.isMistake then none
      else (spelled? (Piece.next c cs).2).map ((Piece.next c cs).1.token?.toList ++ ·) := by
  simp only [spelled?, Piece.all_cons, List.any_cons]
  cases (Piece.next c cs).1.isMistake with
  | true => simp
  | false =>
      simp only [Bool.false_or, Bool.false_eq_true, if_false]
      split
      · rfl
      · rw [List.filterMap_cons]
        cases (Piece.next c cs).1.token? <;> simp

theorem spelled_of_token {c : Char} {cs rest : List Char} {kind : Kind} {text : List Char}
    (first : Piece.next c cs = (⟨.token kind, text⟩, rest)) :
    spelled? (c :: cs) =
      (spelled? rest).map
        (⟨kind, String.ofList text, literalOf kind text, 0, .nowhere⟩ :: ·) := by
  rw [spelled_cons, first]
  simp [Piece.isMistake, Piece.token?]

theorem dropWhile_gap (cs : List Char) : spelled? (cs.dropWhile isGap) = spelled? cs := by
  induction size : cs.length using Nat.strongRecOn generalizing cs with
  | ind n ih =>
      cases cs with
      | nil => rfl
      | cons c cs =>
          by_cases gap : isGap c = true
          · rw [List.dropWhile_cons_of_pos gap, spelled_cons, Piece.next, if_pos gap]
            simp [Piece.run, Piece.isMistake, Piece.token?]
          · rw [List.dropWhile_cons_of_neg gap]

theorem spelled_gap {c : Char} (gap : isGap c = true) (cs : List Char) :
    spelled? (c :: cs) = spelled? cs := by
  rw [← dropWhile_gap (c :: cs), List.dropWhile_cons_of_pos gap, dropWhile_gap]

theorem spelled_newline (cs : List Char) : spelled? ('\n' :: cs) = spelled? cs := by
  have first : Piece.next '\n' cs = (⟨.newline, ['\n']⟩, cs) := by simp [Piece.next, isGap]
  rw [spelled_cons, first]
  simp [Piece.isMistake, Piece.token?]

section Lines

theorem takeWhile_newline (test : Char → Bool) (stops : test '\n' = false) (cs others : List Char) :
    (cs ++ '\n' :: others).takeWhile test = cs.takeWhile test := by
  induction cs with
  | nil => simp [stops]
  | cons c cs ih =>
      rw [List.cons_append, List.takeWhile_cons, List.takeWhile_cons, ih]

theorem dropWhile_newline (test : Char → Bool) (stops : test '\n' = false) (cs others : List Char) :
    (cs ++ '\n' :: others).dropWhile test = cs.dropWhile test ++ '\n' :: others := by
  induction cs with
  | nil => simp [stops]
  | cons c cs ih =>
      rw [List.cons_append, List.dropWhile_cons, List.dropWhile_cons, ih]
      split <;> rfl

theorem number_newline (c : Char) (cs others : List Char) :
    Piece.number c (cs ++ '\n' :: others) =
      ((Piece.number c cs).1, (Piece.number c cs).2 ++ '\n' :: others) := by
  have stops : Char.isDigit '\n' = false := by decide
  simp only [Piece.number, takeWhile_newline _ stops, dropWhile_newline _ stops]
  cases behind : cs.dropWhile Char.isDigit with
  | nil => rfl
  | cons d rest =>
      by_cases point : d = '.'
      · subst point
        cases rest with
        | nil =>
            have noDigit : ('\n' : Char).isDigit = false := by decide
            simp [noDigit]
        | cons e rest =>
            simp only [List.cons_append, takeWhile_newline _ stops, dropWhile_newline _ stops]
            split <;> rfl
      · have apart : ∀ a b : List Char, d :: a = '.' :: b → False := by
          intro a b same
          exact point (List.cons.inj same).1
        simp only [List.cons_append]
        split
        · rename_i same
          exact (apart _ _ same).elim
        · split
          · rename_i same
            exact (apart _ _ same).elim
          · rfl

theorem string_newline (c : Char) (cs others : List Char)
    (closed : (Piece.string c cs).1.role ≠ .unclosed) :
    Piece.string c (cs ++ '\n' :: others) =
      ((Piece.string c cs).1, (Piece.string c cs).2 ++ '\n' :: others) := by
  have whole := List.takeWhile_append_dropWhile (p := (· != '"')) (l := cs)
  simp only [Piece.string] at closed ⊢
  cases behind : cs.dropWhile (· != '"') with
  | nil => simp [behind] at closed
  | cons quote rest =>
      have shorter : (cs.takeWhile (· != '"')).length ≠ cs.length := by
        have lengths := congrArg List.length whole
        rw [behind, List.length_append, List.length_cons] at lengths
        omega
      rw [List.takeWhile_append, List.dropWhile_append, if_neg shorter, behind]
      rfl

theorem symbol_newline (s : Symbol) (c : Char) (cs others : List Char) :
    Piece.symbol s c (cs ++ '\n' :: others) =
      ((Piece.symbol s c cs).1, (Piece.symbol s c cs).2 ++ '\n' :: others) := by
  cases cs with
  | nil => simp [Piece.symbol]
  | cons d rest =>
      simp only [List.cons_append, Piece.symbol]
      split
      · rw [takeWhile_newline (fun e => e != '\n') rfl, dropWhile_newline (fun e => e != '\n') rfl]
      · split <;> rfl

/-- A newline behind a text leaves its first piece as it is, unless that is an open string. -/
theorem next_newline (c : Char) (cs others : List Char)
    (closed : (Piece.next c cs).1.role ≠ .unclosed) :
    Piece.next c (cs ++ '\n' :: others) =
      ((Piece.next c cs).1, (Piece.next c cs).2 ++ '\n' :: others) := by
  have gap : isGap '\n' = false := by decide
  have part : isNamePart '\n' = false := by decide
  simp only [Piece.next] at closed ⊢
  split
  · simp only [Piece.run, takeWhile_newline _ gap, dropWhile_newline _ gap]
  split
  · rfl
  split
  · exact number_newline c cs others
  split
  · simp only [takeWhile_newline _ part, dropWhile_newline _ part]
  split
  · rename_i noGap noNewline noDigit noName quote
    rw [if_neg noGap, if_neg noNewline, if_neg noDigit, if_neg noName, if_pos quote] at closed
    exact string_newline c cs others closed
  split
  · exact symbol_newline _ c cs others
  · rfl

theorem all_newline (text others : List Char)
    (closed : ∀ piece ∈ Piece.all text, piece.role ≠ .unclosed) :
    Piece.all (text ++ '\n' :: others) =
      Piece.all text ++ ⟨.newline, ['\n']⟩ :: Piece.all others := by
  induction size : text.length using Nat.strongRecOn generalizing text with
  | ind n ih =>
      cases text with
      | nil =>
          rw [List.nil_append, Piece.all_nil, Piece.all_cons]
          simp [Piece.next, isGap]
      | cons c cs =>
          rw [Piece.all_cons] at closed
          have first := closed _ (List.mem_cons_self ..)
          have shorter : (Piece.next c cs).2.length < n := size ▸ Piece.next_rest_length c cs
          have later := ih _ shorter _
            (fun piece member => closed piece (List.mem_cons_of_mem _ member)) rfl
          rw [List.cons_append, Piece.all_cons, Piece.all_cons, next_newline c cs others first,
            later, List.cons_append]

theorem spelled_lines {first second : List Char} {tokens : List Token}
    (spelled : spelled? first = some tokens) :
    spelled? (first ++ '\n' :: second) = (spelled? second).map (tokens ++ ·) := by
  simp only [spelled?] at spelled
  split at spelled
  · cases spelled
  · rename_i clean
    cases spelled
    have closed : ∀ piece ∈ Piece.all first, piece.role ≠ .unclosed := by
      intro piece member open_
      apply clean
      rw [List.any_eq_true]
      exact ⟨piece, member, by simp [Piece.isMistake, open_]⟩
    have sound : (Piece.all first).any Piece.isMistake = false := by simpa using clean
    simp only [spelled?, all_newline first second closed, List.any_append, List.any_cons, sound]
    rw [List.filterMap_append, List.filterMap_cons]
    have noMistake : Piece.isMistake ⟨.newline, ['\n']⟩ = false := by decide
    have noToken : Piece.token? ⟨.newline, ['\n']⟩ = none := rfl
    simp only [Bool.false_or, noMistake, noToken]
    split <;> simp

end Lines

end Jess.Token
