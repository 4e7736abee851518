import Jess.Proofs.MaximalMunch
import Mathlib.Data.List.Forall2

/-!
# Where the tokens of a text stand

The reading of a text keeps a line and an offset. Behind some of the pieces
they are the number of newlines in the text so far, and one, and the number of
its bytes. So each token that comes out tells where its piece stands, and each
mistake tells its line.
-/

namespace Jess.Token

def bytes (text : List Char) : Nat := (String.ofList text).utf8ByteSize

theorem bytes_append (front back : List Char) : bytes (front ++ back) = bytes front + bytes back := by
  simp only [bytes, String.ofList_append, String.utf8ByteSize_append]

theorem byteLength_eq (text : List Char) : byteLength text = bytes text := by
  have total : ∀ (cs : List Char) (start : Nat),
      cs.foldl (fun total c => total + c.utf8Size) start = start + bytes cs := by
    intro cs
    induction cs with
    | nil => simp [bytes]
    | cons c cs ih =>
        intro start
        have first : bytes [c] = c.utf8Size := by
          rw [bytes, String.ofList_cons, String.utf8ByteSize_append, String.utf8ByteSize_singleton]
          rfl
        have whole := bytes_append [c] cs
        rw [List.singleton_append, first] at whole
        rw [List.foldl_cons, ih, whole, Nat.add_assoc]
  rw [byteLength, total, Nat.zero_add]

def lineAfter (text : List Char) : Nat := 1 + text.count '\n'

namespace Piece

def isToken (piece : Piece) : Bool :=
  match piece.role with
  | .token _ => true
  | _ => false

/-- Pieces, each with the text before it. -/
def placed (before : List Char) : List Piece → List (List Char × Piece)
  | [] => []
  | piece :: rest => (before, piece) :: placed (before ++ piece.text) rest

/-- The token of a piece that stands behind a text. -/
structure Makes (before : List Char) (piece : Piece) (t : Token) : Prop where
  kind : piece.role = .token t.kind
  inside : t.kind ≠ .eof
  lexeme : t.lexeme = String.ofList piece.text
  string : t.kind = .string → ∃ content, piece.text = '"' :: content ++ ['"'] ∧
    t.literal = some (.string (String.ofList content))
  number : t.kind = .number → t.literal = some (.number (numberValue piece.text))
  bare : t.kind ≠ .string → t.kind ≠ .number → t.literal = none
  line : t.line = lineAfter (before ++ piece.text)
  span : t.span = ⟨bytes before, bytes (before ++ piece.text)⟩

/-- What is reported of a piece that stands behind a text. -/
def report? (before : List Char) (piece : Piece) : Option Diagnostic :=
  let line := lineAfter (before ++ piece.text)
  match piece.role with
  | .unexpected =>
      some (.lexical line ("Unexpected character: '" ++ String.ofList piece.text ++ "'."))
  | .unclosed => some (.lexical line "Unterminated string.")
  | _ => none

theorem makes_of_fits {kind : Kind} {text rest before : List Char} {line : Nat} {span : Span}
    (fits : Fits (.token kind) text rest) (isLine : line = lineAfter (before ++ text))
    (isSpan : span = ⟨bytes before, bytes (before ++ text)⟩) :
    Makes before ⟨.token kind, text⟩
      ⟨kind, String.ofList text, literalOf kind text, line, span⟩ := by
  refine ⟨rfl, ?_, rfl, ?_, ?_, ?_, isLine, isSpan⟩
  · rintro rfl
    cases fits
  · rintro rfl
    cases fits with
    | @string content rest plain => exact ⟨content, rfl, by simp [literalOf]⟩
  · rintro rfl
    rfl
  · intro noString noNumber
    cases kind with
    | string => exact absurd rfl noString
    | number => exact absurd rfl noNumber
    | _ => rfl

theorem newlines_of_munched {piece : Piece} {rest : List Char}
    (first : IsLongest piece rest ∨ IsStray piece rest) :
    piece.text.count '\n' = match piece.role with
      | .blank | .comment | .unexpected => 0
      | .newline => 1
      | .token _ | .unclosed => piece.text.count '\n' := by
  obtain ⟨role, text⟩ := piece
  rcases first with ⟨fits, _⟩ | ⟨stray, ⟨c, single⟩, nothing⟩
  · cases fits with
    | blank rest nonempty gaps =>
        refine List.count_eq_zero.mpr fun member => ?_
        cases gaps '\n' member
    | newline rest => rfl
    | comment rest inLine =>
        refine List.count_eq_zero.mpr ?_
        simpa using inLine
    | _ => rfl
  · simp only at stray single
    subst stray single
    refine List.count_eq_zero.mpr fun member => ?_
    rw [List.mem_singleton] at member
    subst member
    exact nothing .newline ['\n'] rest rfl (.newline rest)

end Piece

namespace Reading

open Piece

variable {before : List Char} {piece : Piece} {rest : List Char} {r : Reading}

/-- The reading has come to the end of a text. -/
structure IsAt (before : List Char) (r : Reading) : Prop where
  line : r.line = lineAfter before
  offset : r.offset = bytes before

theorem step_isAt (first : IsLongest piece rest ∨ IsStray piece rest) (isAt : IsAt before r) :
    IsAt (before ++ piece.text) (r.step piece) := by
  have newlines := newlines_of_munched first
  obtain ⟨role, text⟩ := piece
  obtain ⟨line, offset⟩ := isAt
  simp only [lineAfter] at line newlines
  refine ⟨?_, ?_⟩
  · cases role <;>
      simp only [step, lineAfter, List.count_append, line] at newlines ⊢ <;> omega
  · cases role <;> simp only [step, offset, byteLength_eq, bytes_append]

theorem step_makes (first : IsLongest piece rest ∨ IsStray piece rest) (isAt : IsAt before r)
    (bound : bytes (before ++ piece.text) ≤ Span.maxOffset) :
    ∃ made, (r.step piece).tokens.toList = r.tokens.toList ++ made ∧
      List.Forall₂ (fun place t => Makes place.1 place.2 t)
        ([(before, piece)].filter fun place => place.2.isToken) made := by
  have ends := step_isAt first isAt
  obtain ⟨role, text⟩ := piece
  have start := isAt.offset
  have smaller : bytes before ≤ Span.maxOffset := by
    rw [bytes_append] at bound
    omega
  cases role with
  | token kind =>
      refine ⟨[_], Array.toList_push .., .cons ?_ .nil⟩
      have span : Span.ofRange r.offset (r.step ⟨.token kind, text⟩).offset =
          ⟨bytes before, bytes (before ++ text)⟩ := by
        rw [start, ends.offset, Span.ofRange_eq smaller bound]
      rcases first with ⟨fits, _⟩ | ⟨stray, _⟩
      · exact makes_of_fits fits ends.line span
      · cases stray
  | _ => exact ⟨[], by simp [step], .nil⟩

theorem step_reports (first : IsLongest piece rest ∨ IsStray piece rest) (isAt : IsAt before r) :
    (r.step piece).diagnostics.toList = r.diagnostics.toList ++ (report? before piece).toList := by
  have ends := (step_isAt first isAt).line
  obtain ⟨role, text⟩ := piece
  cases role with
  | unclosed =>
      rw [report?, ← ends]
      exact Array.toList_push ..
  | unexpected =>
      have newlines := newlines_of_munched first
      rcases first with ⟨fits, _⟩ | ⟨_, ⟨c, rfl⟩, _⟩
      · exact absurd rfl fits.expected
      · have same : r.line = lineAfter (before ++ [c]) := by
          rw [isAt.line, lineAfter, lineAfter, List.count_append, newlines, Nat.add_zero]
        rw [report?, ← same]
        exact Array.toList_push ..
  | _ => simp [step, report?]

theorem foldl_reads {text : List Char} {pieces : List Piece} (munched : Munched text pieces)
    {before : List Char} {r : Reading} (isAt : IsAt before r)
    (bound : bytes (before ++ text) ≤ Span.maxOffset) :
    IsAt (before ++ text) (pieces.foldl step r) ∧
      (∃ made, (pieces.foldl step r).tokens.toList = r.tokens.toList ++ made ∧
        List.Forall₂ (fun place t => Makes place.1 place.2 t)
          ((placed before pieces).filter fun place => place.2.isToken) made) ∧
      (pieces.foldl step r).diagnostics.toList =
        r.diagnostics.toList ++ (placed before pieces).filterMap fun place =>
          report? place.1 place.2 := by
  induction munched generalizing before r with
  | done =>
      rw [List.append_nil]
      exact ⟨isAt, ⟨[], by simp, .nil⟩, by simp [placed]⟩
  | @piece piece rest pieces first later ih =>
      rw [← List.append_assoc] at bound ⊢
      have firstBound : bytes (before ++ piece.text) ≤ Span.maxOffset := by
        rw [bytes_append] at bound
        omega
      obtain ⟨made, tokens, makes⟩ := step_makes first isAt firstBound
      obtain ⟨ends, ⟨more, others, makesMore⟩, reports⟩ := ih (step_isAt first isAt) bound
      refine ⟨ends, ⟨made ++ more, ?_, ?_⟩, ?_⟩
      · rw [List.foldl_cons, others, tokens, List.append_assoc]
      · have split : placed before (piece :: pieces) =
            [(before, piece)] ++ placed (before ++ piece.text) pieces := rfl
        rw [split, List.filter_append]
        exact List.rel_append makes makesMore
      · rw [List.foldl_cons, reports, step_reports first isAt, placed, List.filterMap_cons]
        cases report? before piece <;> simp

end Reading

section Scan

open Piece

/-- A source falls into pieces in one way only, and what is read of it is what these make and
report, each at its own place. -/
structure IsRead (source : String) (pieces : List Piece) : Prop where
  munched : Munched source.toList pieces
  unique : ∀ others, Munched source.toList others → others = pieces
  whole : pieces.flatMap Piece.text = source.toList
  tokens : ∃ made,
    (scan source).1 = made ++
      [⟨.eof, "", none, lineAfter source.toList, ⟨source.utf8ByteSize, source.utf8ByteSize⟩⟩] ∧
    List.Forall₂ (fun place t => Makes place.1 place.2 t)
      ((placed [] pieces).filter fun place => place.2.isToken) made
  diagnostics : (scan source).2 =
    (placed [] pieces).filterMap fun place => report? place.1 place.2

/-- Reading a source is munching it, and every piece tells where it stands. -/
theorem scan_munches {source : String} (bound : source.utf8ByteSize ≤ 4294967294) :
    ∃ pieces, IsRead source pieces := by
  have size : bytes source.toList = source.utf8ByteSize := by
    rw [bytes, String.ofList_toList]
  have inside : source.utf8ByteSize ≤ Span.maxOffset := Nat.le_trans bound (by decide)
  have munched := munched_all source.toList
  have start : Reading.IsAt [] Reading.start := ⟨rfl, rfl⟩
  obtain ⟨ends, ⟨made, tokens, makes⟩, reports⟩ := Reading.foldl_reads munched start (by
    rw [List.nil_append, size]
    exact inside)
  refine ⟨Piece.all source.toList, munched, fun others other => munched_iff.mp other,
    flatMap_text_all _, ⟨made, ?_, makes⟩, ?_⟩
  · have line : (Reading.ofText source.toList).line = lineAfter source.toList := ends.line
    have offset : (Reading.ofText source.toList).offset = source.utf8ByteSize :=
      ends.offset.trans size
    have all : (Reading.ofText source.toList).tokens.toList = made := tokens
    simp only [scan, line, offset, all, Token.eof, Span.point, Span.ofRange_eq inside inside]
  · exact reports

/-- A point without digits behind it, a string over two lines, a character of three bytes that
starts nothing, a comment, and a string that is never closed. -/
private def mixed : String := "1.\"a\nb\"\u20ac//x\n\"y\n"

theorem scan_munches_mixed :
    mixed.utf8ByteSize ≤ 4294967294 ∧ ∃ pieces, IsRead mixed pieces := by
  have bound : mixed.utf8ByteSize ≤ 4294967294 := by decide
  exact ⟨bound, scan_munches bound⟩

end Scan

end Jess.Token
