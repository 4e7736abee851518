import Jess.Proofs.Placement

/-!
# Reading line by line

A newline behind a text ends every token of it but an open string. So what is
read below the text is what is read of the lower part alone, on later lines and
further on, and nothing that the upper part ends with goes on with it. The line
counter comes out as the sum of two counts, whether a newline was counted on its
own or inside a string.
-/

namespace Jess

def Span.moved (offset : Nat) (span : Span) : Span := ⟨offset + span.start, offset + span.stop⟩

theorem Span.ofRange_moved {start stop offset : Nat} (forward : start ≤ stop)
    (bound : offset + stop ≤ maxOffset) :
    ofRange (offset + start) (offset + stop) = (ofRange start stop).moved offset := by
  have first : offset + start ≤ maxOffset := by omega
  have startFits : start ≤ maxOffset := by omega
  have stopFits : stop ≤ maxOffset := by omega
  rw [ofRange_eq first bound, ofRange_eq startFits stopFits, moved]

/-- The diagnostic so many lines further down. -/
def Diagnostic.moved (lines : Nat) (d : Diagnostic) : Diagnostic :=
  { d with line := lines + d.line }

namespace Token

/-- The token so many lines and bytes further on. -/
def moved (lines offset : Nat) (t : Token) : Token :=
  { t with line := lines + t.line, span := t.span.moved offset }

theorem eof_moved {lines line offset place : Nat} (bound : offset + place ≤ Span.maxOffset) :
    eof (lines + line) (offset + place) = (eof line place).moved lines offset := by
  simp only [eof, moved, Span.point, Span.ofRange_moved (Nat.le_refl place) bound]

namespace Reading

/-- What has been read where a text stands on the lines below another one. -/
def below (upper lower : Reading) : Reading :=
  ⟨upper.line + lower.line, upper.offset + 1 + lower.offset,
    upper.tokens ++ lower.tokens.map (Token.moved upper.line (upper.offset + 1)),
    upper.diagnostics ++ lower.diagnostics.map (Diagnostic.moved upper.line)⟩

theorem step_newline (upper : Reading) : upper.step ⟨.newline, ['\n']⟩ = upper.below start := by
  simp [step, below, start, byteLength, Char.utf8Size]

theorem step_offset (r : Reading) (piece : Piece) :
    (r.step piece).offset = r.offset + byteLength piece.text := by
  obtain ⟨role, text⟩ := piece
  cases role <;> rfl

theorem step_below {upper lower : Reading} {piece : Piece}
    (bound : upper.offset + 1 + (lower.offset + byteLength piece.text) ≤ Span.maxOffset) :
    (upper.below lower).step piece = upper.below (lower.step piece) := by
  obtain ⟨role, text⟩ := piece
  cases role with
  | token kind =>
      have span := Span.ofRange_moved (Nat.le_add_right lower.offset (byteLength text)) bound
      simp [step, below, Token.moved, ← span, Nat.add_assoc]
  | unclosed =>
      simp [step, below, Diagnostic.moved, Misspelling.diagnostic, Diagnostic.lexical,
        Nat.add_assoc]
  | unexpected =>
      simp [step, below, Diagnostic.moved, Misspelling.diagnostic, Diagnostic.lexical,
        Nat.add_assoc]
  | _ => simp [step, below, Nat.add_assoc]

theorem foldl_below {upper : Reading} (pieces : List Piece) {lower : Reading}
    (bound : upper.offset + 1 + (lower.offset + bytes (pieces.flatMap Piece.text)) ≤
      Span.maxOffset) :
    pieces.foldl step (upper.below lower) = upper.below (pieces.foldl step lower) := by
  induction pieces generalizing lower with
  | nil => rfl
  | cons piece rest ih =>
      rw [List.flatMap_cons, bytes_append, ← byteLength_eq] at bound
      have here : upper.offset + 1 + (lower.offset + byteLength piece.text) ≤ Span.maxOffset := by
        omega
      have later : upper.offset + 1 +
          ((lower.step piece).offset + bytes (rest.flatMap Piece.text)) ≤ Span.maxOffset := by
        rw [step_offset]
        omega
      rw [List.foldl_cons, step_below here, ih later, List.foldl_cons]

theorem ofText_isAt {text : List Char} (bound : bytes text ≤ Span.maxOffset) :
    IsAt text (ofText text) := by
  have starts : IsAt [] start := ⟨rfl, rfl⟩
  exact (foldl_reads (Piece.munched_all text) starts bound).1

end Reading

namespace Piece

theorem placed_of_mem {pieces : List Piece} {piece : Piece} (member : piece ∈ pieces)
    (before : List Char) : ∃ front, (front, piece) ∈ placed before pieces := by
  induction pieces generalizing before with
  | nil => cases member
  | cons first rest ih =>
      cases member with
      | head => exact ⟨before, List.mem_cons_self ..⟩
      | tail _ later =>
          obtain ⟨front, inside⟩ := ih later (before ++ first.text)
          exact ⟨front, List.mem_cons_of_mem _ inside⟩

end Piece

theorem unclosed_reported {source : String} (bound : source.utf8ByteSize ≤ Span.maxOffset)
    {piece : Piece} (member : piece ∈ Piece.all source.toList) (role : piece.role = .unclosed) :
    ∃ d ∈ (scan source).2, d.message = Misspelling.unterminatedString.message := by
  have size : bytes ([] ++ source.toList) ≤ Span.maxOffset := by
    rwa [List.nil_append, bytes, String.ofList_toList]
  have starts : Reading.IsAt [] Reading.start := ⟨rfl, rfl⟩
  have reports : (scan source).2 = (Piece.placed [] (Piece.all source.toList)).filterMap
      fun place => Piece.report? place.1 place.2 :=
    (Reading.foldl_reads (Piece.munched_all source.toList) starts size).2.2
  obtain ⟨front, inside⟩ := Piece.placed_of_mem member []
  have report : Piece.report? front piece =
      some (Misspelling.unterminatedString.diagnostic (lineAfter (front ++ piece.text))) := by
    rw [Piece.report?, role]
    rfl
  rw [reports]
  exact ⟨_, List.mem_filterMap.mpr ⟨_, inside, report⟩, rfl⟩

/-- Two texts with a newline between them give the tokens of the first without its end and those
of the second, and the diagnostics of both, the second ones moved behind the first text. -/
theorem scan_below {first second : String}
    (closed : ∀ d ∈ (scan first).2, d.message ≠ Misspelling.unterminatedString.message)
    (bound : (first ++ "\n" ++ second).utf8ByteSize ≤ 4294967294) :
    scan (first ++ "\n" ++ second) =
      ((scan first).1.dropLast ++ (scan second).1.map
          (moved (1 + first.toList.count '\n') (first.utf8ByteSize + 1)),
        (scan first).2 ++ (scan second).2.map
          (Diagnostic.moved (1 + first.toList.count '\n'))) := by
  have newlineSize : ("\n" : String).utf8ByteSize = 1 := by decide
  rw [String.utf8ByteSize_append, String.utf8ByteSize_append, newlineSize] at bound
  have size : first.utf8ByteSize + 1 + second.utf8ByteSize ≤ Span.maxOffset :=
    Nat.le_trans bound (by decide)
  have firstBytes : bytes first.toList = first.utf8ByteSize := by rw [bytes, String.ofList_toList]
  have secondBytes : bytes second.toList = second.utf8ByteSize := by
    rw [bytes, String.ofList_toList]
  have firstFits : bytes first.toList ≤ Span.maxOffset := by omega
  have secondFits : bytes second.toList ≤ Span.maxOffset := by omega
  have firstEnds := Reading.ofText_isAt firstFits
  have secondEnds := Reading.ofText_isAt secondFits
  have line : (Reading.ofText first.toList).line = 1 + first.toList.count '\n' := firstEnds.line
  have offset : (Reading.ofText first.toList).offset = first.utf8ByteSize :=
    firstEnds.offset.trans firstBytes
  have ends : (Reading.ofText second.toList).offset = second.utf8ByteSize :=
    secondEnds.offset.trans secondBytes
  -- The newline ends the last piece above, since no string is open there.
  have closedPieces : ∀ piece ∈ Piece.all first.toList, piece.role ≠ .unclosed := by
    intro piece member role
    obtain ⟨d, reported, message⟩ := unclosed_reported (by omega) member role
    exact closed d reported message
  have text : (first ++ "\n" ++ second).toList = first.toList ++ '\n' :: second.toList := by
    simp
  have whole : Reading.ofText (first ++ "\n" ++ second).toList =
      (Reading.ofText first.toList).below (Reading.ofText second.toList) := by
    rw [text, Reading.ofText, all_newline _ _ closedPieces, List.foldl_append, List.foldl_cons,
      Reading.step_newline]
    apply Reading.foldl_below
    rw [Piece.flatMap_text_all, secondBytes]
    show (Reading.ofText first.toList).offset + 1 + (0 + second.utf8ByteSize) ≤ Span.maxOffset
    omega
  have inside :
      first.utf8ByteSize + 1 + (Reading.ofText second.toList).offset ≤ Span.maxOffset := by
    rw [ends]
    exact size
  simp only [scan, whole, Reading.below, line, offset, eof_moved inside]
  simp

/-- An unexpected character, a string over two lines, and a comment that runs up to the newline. -/
private def upperLines : String := "@ \"a\nb\" 1 //x"

theorem scan_below_comment :
    (∀ d ∈ (scan upperLines).2, d.message ≠ Misspelling.unterminatedString.message) ∧
      (upperLines ++ "\n" ++ "2.5\n;").utf8ByteSize ≤ 4294967294 ∧
      scan (upperLines ++ "\n" ++ "2.5\n;") =
        ((scan upperLines).1.dropLast ++ (scan "2.5\n;").1.map
            (moved (1 + upperLines.toList.count '\n') (upperLines.utf8ByteSize + 1)),
          (scan upperLines).2 ++ (scan "2.5\n;").2.map
            (Diagnostic.moved (1 + upperLines.toList.count '\n'))) := by
  have closed : ∀ d ∈ (scan upperLines).2,
      d.message ≠ Misspelling.unterminatedString.message := by decide +kernel
  have bound : (upperLines ++ "\n" ++ "2.5\n;").utf8ByteSize ≤ 4294967294 := by decide
  exact ⟨closed, bound, scan_below closed bound⟩

end Token

end Jess
