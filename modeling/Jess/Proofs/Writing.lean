import Jess.Proofs.Sources

/-!
# Texts that are spelled with given tokens

A written token is one whose text makes it by itself. A text is spelled with
some tokens if it is so before everything that does not go on with its last
character. Texts that are spelled with tokens can be put one behind the other,
with spaces between them or with an opening symbol in front.
-/

namespace Jess.Token

def made (kind : Kind) (text : List Char) : Token :=
  ⟨kind, String.ofList text, literalOf kind text, 0, .nowhere⟩

def ofSymbol (s : Symbol) : Token := made (.symbol s) s.spelling.toList

def ofKeyword (w : Keyword) : Token := made (.keyword w) w.spelling.toList

def ofName (name : String) : Token := made .identifier name.toList

@[simp] theorem lexeme_ofName (name : String) : (ofName name).lexeme = name := by
  simp [ofName, made]

/-- A text that does not go on with a token before it. -/
def Breaks (text : List Char) : Prop :=
  ∀ c, text.head? = some c → isNamePart c = false ∧ c ≠ '.' ∧ c ≠ '=' ∧ c ≠ '/'

theorem breaks_nil : Breaks [] := by
  intro c first
  cases first

theorem breaks_cons {c : Char} (text : List Char)
    (breaks : isNamePart c = false ∧ c ≠ '.' ∧ c ≠ '=' ∧ c ≠ '/') : Breaks (c :: text) := by
  intro d first
  cases first
  exact breaks

theorem breaks_space (text : List Char) : Breaks (' ' :: text) := breaks_cons text (by decide)

/-- Before a text that does not go on with it, a text is spelled with some tokens. -/
def Spells (text : List Char) (tokens : List Token) : Prop :=
  ∀ rest, Breaks rest → spelled? (text ++ rest) = (spelled? rest).map (tokens ++ ·)

theorem Spells.whole {text : List Char} {tokens : List Token} (spells : Spells text tokens) :
    spelled? text = some tokens := by
  have alone := spells [] breaks_nil
  rw [List.append_nil, spelled_nil] at alone
  simpa using alone

theorem Spells.nil : Spells [] [] := by
  intro rest _
  simp

/-- A text behind another one, where its first character does not go on with that. -/
theorem Spells.append {front back : List Char} {tokens others : List Token}
    (first : Spells front tokens) (second : Spells back others)
    (breaks : ∀ rest, Breaks rest → Breaks (back ++ rest)) :
    Spells (front ++ back) (tokens ++ others) := by
  intro rest ends
  rw [List.append_assoc, first _ (breaks rest ends), second rest ends, Option.map_map]
  congr 1
  funext later
  simp

theorem Spells.spaced {front back : List Char} {tokens others : List Token}
    (first : Spells front tokens) (second : Spells back others) :
    Spells (front ++ ' ' :: back) (tokens ++ others) := by
  apply first.append _ fun rest _ => breaks_space (back ++ rest)
  intro rest ends
  rw [List.cons_append, spelled_gap (by decide), second rest ends]

theorem Spells.lined {front back : List Char} {tokens others : List Token}
    (first : Spells front tokens) (second : Spells back others) :
    Spells (front ++ '\n' :: back) (tokens ++ others) := by
  apply first.append _ fun rest _ => breaks_cons (back ++ rest) (by decide)
  intro rest ends
  rw [List.cons_append, spelled_newline, second rest ends]

section Symbols

theorem next_symbol {c : Char} {s : Symbol} (found : Symbol.ofChar? c = some s)
    (rest : List Char) : Piece.next c rest = Piece.symbol s c rest := by
  unfold Symbol.ofChar? at found
  split at found <;> cases found <;> rfl

theorem spelled_symbol {c : Char} {s : Symbol} (found : Symbol.ofChar? c = some s)
    (spelling : s.spelling.toList = [c]) (alone : s ≠ .slash) (rest : List Char)
    (short : rest.head? = some '=' → s.withEqual? = none) :
    spelled? (c :: rest) = (spelled? rest).map (ofSymbol s :: ·) := by
  have piece : Piece.next c rest = (⟨.token (.symbol s), [c]⟩, rest) := by
    rw [next_symbol found]
    cases rest with
    | nil => rfl
    | cons d rest =>
        rw [Piece.symbol, if_neg (fun both => alone both.1)]
        by_cases equal : d = '='
        · rw [if_pos equal, short (by rw [equal]; rfl)]
        · rw [if_neg equal]
  rw [spelled_of_token piece, ofSymbol, spelling]
  rfl

theorem Spells.behind {text : List Char} {tokens : List Token} (spells : Spells text tokens)
    {c : Char} {s : Symbol} (found : Symbol.ofChar? c = some s)
    (spelling : s.spelling.toList = [c]) (alone : s ≠ .slash)
    (short : ∀ rest, Breaks rest → (text ++ rest).head? = some '=' → s.withEqual? = none) :
    Spells (c :: text) (ofSymbol s :: tokens) := by
  intro rest ends
  rw [List.cons_append, spelled_symbol found spelling alone _ (short rest ends), spells rest ends,
    Option.map_map]
  rfl

theorem Spells.opened {text : List Char} {tokens : List Token} (spells : Spells text tokens) :
    Spells ('(' :: text) (ofSymbol .leftParen :: tokens) :=
  spells.behind rfl rfl (by decide) fun _ _ _ => rfl

theorem Spells.symbol (s : Symbol) : Spells s.spelling.toList [ofSymbol s] := by
  intro rest ends
  have noEqual : rest.head? ≠ some '=' := fun first => (ends '=' first).2.2.1 rfl
  have noSlash : rest.head? ≠ some '/' := fun first => (ends '/' first).2.2.2 rfl
  have single : ∀ c, s.spelling.toList = [c] → Symbol.ofChar? c = some s → s ≠ .slash →
      spelled? (s.spelling.toList ++ rest) = (spelled? rest).map ([ofSymbol s] ++ ·) := by
    intro c spelling found alone
    rw [spelling]
    exact spelled_symbol found spelling alone rest fun first => absurd first noEqual
  have double : ∀ c short, s.spelling.toList = [c, '='] → Symbol.ofChar? c = some short →
      short.withEqual? = some s → short ≠ .slash →
      spelled? (s.spelling.toList ++ rest) = (spelled? rest).map ([ofSymbol s] ++ ·) := by
    intro c short spelling found longer alone
    have piece : Piece.next c ('=' :: rest) = (⟨.token (.symbol s), [c, '=']⟩, rest) := by
      rw [next_symbol found, Piece.symbol, if_neg (fun both => alone both.1), if_pos rfl, longer]
    rw [spelling]
    change spelled? (c :: '=' :: rest) = _
    rw [spelled_of_token piece, ofSymbol, spelling]
    rfl
  cases s with
  | slash =>
      -- Only a slash could be the start of something that is no symbol.
      have piece : Piece.next '/' rest = (⟨.token (.symbol .slash), ['/']⟩, rest) := by
        rw [next_symbol (s := .slash) rfl]
        cases rest with
        | nil => rfl
        | cons d rest =>
            have other : d ≠ '/' := fun same => noSlash (by rw [same]; rfl)
            rw [Piece.symbol, if_neg (fun both => other both.2)]
            by_cases equal : d = '='
            · rw [if_pos equal]
              rfl
            · rw [if_neg equal]
      exact spelled_of_token piece
  | bangEqual => exact double '!' .bang rfl rfl rfl (by decide)
  | equalEqual => exact double '=' .equal rfl rfl rfl (by decide)
  | greaterEqual => exact double '>' .greater rfl rfl rfl (by decide)
  | lessEqual => exact double '<' .less rfl rfl rfl (by decide)
  | leftParen => exact single '(' rfl rfl (by decide)
  | rightParen => exact single ')' rfl rfl (by decide)
  | leftBrace => exact single '{' rfl rfl (by decide)
  | rightBrace => exact single '}' rfl rfl (by decide)
  | comma => exact single ',' rfl rfl (by decide)
  | dot => exact single '.' rfl rfl (by decide)
  | minus => exact single '-' rfl rfl (by decide)
  | plus => exact single '+' rfl rfl (by decide)
  | semicolon => exact single ';' rfl rfl (by decide)
  | star => exact single '*' rfl rfl (by decide)
  | bang => exact single '!' rfl rfl (by decide)
  | equal => exact single '=' rfl rfl (by decide)
  | greater => exact single '>' rfl rfl (by decide)
  | less => exact single '<' rfl rfl (by decide)

end Symbols

section Words

theorem not_digit_of_nameStart {c : Char} (starts : isNameStart c = true) : c.isDigit = false := by
  rw [Bool.eq_false_iff]
  intro digit
  have atMost : c.val ≤ '9'.val := of_decide_eq_true (Bool.and_eq_true_iff.mp digit).2
  have atLeast : 'A'.val ≤ c.val := by
    rcases Bool.or_eq_true_iff.mp starts with letter | underscore
    · rcases Bool.or_eq_true_iff.mp letter with upper | lower
      · exact (of_decide_eq_true upper).1
      · have fromLower : 'a'.val ≤ c.val :=
          of_decide_eq_true (Bool.and_eq_true_iff.mp lower).1
        exact UInt32.le_trans (by decide) fromLower
    · rw [eq_of_beq underscore]
      decide
  exact absurd (UInt32.le_trans atLeast atMost) (by decide)

theorem next_name {c : Char} (starts : isNameStart c = true) (rest : List Char) :
    Piece.next c rest =
      (⟨.token (Piece.nameKind (c :: rest.takeWhile isNamePart)), c :: rest.takeWhile isNamePart⟩,
        rest.dropWhile isNamePart) := by
  have noGap : isGap c = false := by
    by_contra gap
    simp only [isGap, Bool.not_eq_false, Bool.or_eq_true, beq_iff_eq] at gap
    rcases gap with (rfl | rfl) | rfl <;> cases starts
  have noNewline : c ≠ '\n' := by
    rintro rfl
    cases starts
  have noDigit := not_digit_of_nameStart starts
  rw [Piece.next, if_neg (by simp [noGap]), if_neg noNewline, if_neg (by simp [noDigit]),
    if_pos starts]

theorem takeWhile_breaks {text rest : List Char} (parts : ∀ c ∈ text, isNamePart c = true)
    (ends : Breaks rest) :
    (text ++ rest).takeWhile isNamePart = text ∧ (text ++ rest).dropWhile isNamePart = rest := by
  rw [List.takeWhile_append_of_pos parts, List.dropWhile_append_of_pos parts]
  cases rest with
  | nil => simp
  | cons c rest =>
      have stops : ¬isNamePart c = true := by simp [(ends c rfl).1]
      rw [List.takeWhile_cons_of_neg stops, List.dropWhile_cons_of_neg stops]
      simp

theorem Spells.word {c : Char} {cs : List Char} (starts : isNameStart c = true)
    (parts : ∀ d ∈ cs, isNamePart d = true) :
    Spells (c :: cs) [made (Piece.nameKind (c :: cs)) (c :: cs)] := by
  intro rest ends
  obtain ⟨taken, dropped⟩ := takeWhile_breaks parts ends
  have piece := next_name starts (cs ++ rest)
  rw [taken, dropped] at piece
  exact spelled_of_token piece

theorem Spells.name {name : String} (identifier : IsIdentifier name.toList) :
    Spells name.toList [ofName name] := by
  obtain ⟨⟨c, cs, text, starts, parts⟩, free⟩ := identifier
  have spells := Spells.word starts parts
  rw [text] at free
  rwa [free, ← text] at spells

theorem nameKind_spelling (w : Keyword) : Piece.nameKind w.spelling.toList = .keyword w := by
  simp only [Piece.nameKind, String.ofList_toList, Keyword.ofSpelling?_eq_some_iff.mpr rfl]

theorem spelling_word (w : Keyword) :
    ∃ c cs, w.spelling.toList = c :: cs ∧ isNameStart c = true ∧ ∀ d ∈ cs, isNamePart d = true := by
  have word : ∃ c cs, w.spelling.toList = c :: cs ∧ isNameStart c = true ∧
      cs.all isNamePart = true := by
    cases w <;> exact ⟨_, _, rfl, by decide, by decide⟩
  obtain ⟨c, cs, text, starts, parts⟩ := word
  exact ⟨c, cs, text, starts, List.all_eq_true.mp parts⟩

theorem Spells.keyword (w : Keyword) : Spells w.spelling.toList [ofKeyword w] := by
  obtain ⟨c, cs, text, starts, parts⟩ := spelling_word w
  have spells := Spells.word starts parts
  rw [← text, nameKind_spelling] at spells
  exact spells

end Words

section Constants

theorem namePart_of_digit {c : Char} (digit : c.isDigit = true) : isNamePart c = true := by
  simp [isNamePart, Char.isAlphanum, digit]

theorem takeWhile_digits_breaks {text rest : List Char} (digits : ∀ c ∈ text, c.isDigit = true)
    (ends : Breaks rest) :
    (text ++ rest).takeWhile Char.isDigit = text ∧
      (text ++ rest).dropWhile Char.isDigit = rest := by
  rw [List.takeWhile_append_of_pos digits, List.dropWhile_append_of_pos digits]
  cases rest with
  | nil => simp
  | cons c rest =>
      have stops : ¬c.isDigit = true := by
        intro digit
        have part := namePart_of_digit digit
        rw [(ends c rfl).1] at part
        cases part
      rw [List.takeWhile_cons_of_neg stops, List.dropWhile_cons_of_neg stops]
      simp

theorem next_digit {c : Char} (digit : c.isDigit = true) (rest : List Char) :
    Piece.next c rest = Piece.number c rest := by
  have noGap : isGap c = false := by
    by_contra gap
    simp only [isGap, Bool.not_eq_false, Bool.or_eq_true, beq_iff_eq] at gap
    rcases gap with (rfl | rfl) | rfl <;> cases digit
  have noNewline : c ≠ '\n' := by
    rintro rfl
    cases digit
  rw [Piece.next, if_neg (by simp [noGap]), if_neg noNewline, if_pos digit]

theorem Spells.numeral {lexeme whole fraction : List Char}
    (numeral : IsNumeral lexeme whole fraction) : Spells lexeme [made .number lexeme] := by
  obtain ⟨some_, wholeDigits, fractionDigits, spelled⟩ := numeral
  obtain ⟨c, cs, rfl⟩ := List.exists_cons_of_ne_nil some_
  have digit := wholeDigits c (List.mem_cons_self ..)
  have digits : ∀ d ∈ cs, d.isDigit = true := fun d member =>
    wholeDigits d (List.mem_cons_of_mem _ member)
  intro rest ends
  cases fraction with
  | nil =>
      rw [if_pos rfl] at spelled
      subst spelled
      obtain ⟨taken, dropped⟩ := takeWhile_digits_breaks digits ends
      have piece : Piece.next c (cs ++ rest) = (⟨.token .number, c :: cs⟩, rest) := by
        rw [next_digit digit, Piece.number, taken, dropped]
        split
        · exact absurd rfl (ends '.' rfl).2.1
        · rfl
      exact spelled_of_token piece
  | cons d ds =>
      rw [if_neg (by simp)] at spelled
      subst spelled
      have first := fractionDigits d (List.mem_cons_self ..)
      have later : ∀ e ∈ ds, e.isDigit = true := fun e member =>
        fractionDigits e (List.mem_cons_of_mem _ member)
      obtain ⟨taken, dropped⟩ := takeWhile_digits_breaks later ends
      have point : ¬Char.isDigit '.' = true := by decide
      have whole : (cs ++ '.' :: d :: ds ++ rest).takeWhile Char.isDigit = cs ∧
          (cs ++ '.' :: d :: ds ++ rest).dropWhile Char.isDigit = '.' :: d :: (ds ++ rest) := by
        rw [List.append_assoc, List.takeWhile_append_of_pos digits,
          List.dropWhile_append_of_pos digits, List.cons_append, List.takeWhile_cons_of_neg point,
          List.dropWhile_cons_of_neg point]
        simp
      have piece : Piece.next c (cs ++ '.' :: d :: ds ++ rest) =
          (⟨.token .number, c :: cs ++ '.' :: d :: ds⟩, rest) := by
        rw [next_digit digit, Piece.number, whole.1, whole.2]
        simp only [first, if_true, taken, dropped]
      exact spelled_of_token piece

theorem quoted_split {content : List Char} (plain : '"' ∉ content) (rest : List Char) :
    (content ++ '"' :: rest).takeWhile (· != '"') = content ∧
      (content ++ '"' :: rest).dropWhile (· != '"') = '"' :: rest := by
  have inner : ∀ c ∈ content, (c != '"') = true := by
    intro c member
    rw [bne_iff_ne]
    rintro rfl
    exact plain member
  rw [List.takeWhile_append_of_pos inner, List.dropWhile_append_of_pos inner]
  simp

theorem Spells.quoted {content : List Char} (plain : '"' ∉ content) :
    Spells ('"' :: content ++ ['"']) [made .string ('"' :: content ++ ['"'])] := by
  intro rest _
  have split : (content ++ ['"'] ++ rest).takeWhile (· != '"') = content ∧
      (content ++ ['"'] ++ rest).dropWhile (· != '"') = '"' :: rest := by
    rw [List.append_assoc]
    exact quoted_split plain rest
  have piece : Piece.next '"' (content ++ ['"'] ++ rest) =
      (⟨.token .string, '"' :: content ++ ['"']⟩, rest) := by
    have start : Piece.next '"' (content ++ ['"'] ++ rest) =
        Piece.string '"' (content ++ ['"'] ++ rest) := rfl
    rw [start, Piece.string, split.1, split.2]
  exact spelled_of_token piece

end Constants

end Jess.Token
