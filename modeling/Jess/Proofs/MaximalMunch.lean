import Jess.Proofs.Writing

/-!
# The longest pieces of a text

The table of pieces says which texts are pieces of which role, and nothing
about how they are found. A text is munched if each of its pieces is the
longest start of what remains that the table has, or one character where the
table has none. A text is munched in exactly one way, which is the one that the
reading of tokens takes.
-/

namespace Jess.Token.Piece

/-- The table of pieces: the role and the text of a piece, and the text behind it. -/
inductive Fits : Role → List Char → List Char → Prop
  | blank {text : List Char} (rest : List Char) (nonempty : text ≠ [])
      (gaps : ∀ c ∈ text, isGap c = true) : Fits .blank text rest
  | newline (rest : List Char) : Fits .newline ['\n'] rest
  | comment {text : List Char} (rest : List Char) (inLine : '\n' ∉ text) :
      Fits .comment ('/' :: '/' :: text) rest
  | symbol (s : Symbol) (rest : List Char) : Fits (.token (.symbol s)) s.spelling.toList rest
  | number {text whole fraction : List Char} (rest : List Char)
      (numeral : IsNumeral text whole fraction) : Fits (.token .number) text rest
  | string {content : List Char} (rest : List Char) (plain : '"' ∉ content) :
      Fits (.token .string) ('"' :: content ++ ['"']) rest
  | keyword (w : Keyword) (rest : List Char) : Fits (.token (.keyword w)) w.spelling.toList rest
  | identifier {text : List Char} (rest : List Char) (name : IsIdentifier text) :
      Fits (.token .identifier) text rest
  | unclosed {content : List Char} (plain : '"' ∉ content) : Fits .unclosed ('"' :: content) []

/-- A piece is the longest one that the table has at the start of a text. -/
structure IsLongest (piece : Piece) (rest : List Char) : Prop where
  fits : Fits piece.role piece.text rest
  longest : ∀ role text more, text ++ more = piece.text ++ rest → Fits role text more →
    text.length ≤ piece.text.length

/-- A piece is a single character where the table has nothing. -/
structure IsStray (piece : Piece) (rest : List Char) : Prop where
  role : piece.role = .unexpected
  single : ∃ c, piece.text = [c]
  nothing : ∀ role text more, text ++ more = piece.text ++ rest → ¬Fits role text more

/-- A text and the pieces that it falls into from left to right. -/
inductive Munched : List Char → List Piece → Prop
  | done : Munched [] []
  | piece {piece : Piece} {rest : List Char} {pieces : List Piece}
      (first : IsLongest piece rest ∨ IsStray piece rest) (later : Munched rest pieces) :
      Munched (piece.text ++ rest) (piece :: pieces)

/-- No end of a run of characters is the start of a longer one. -/
private theorem takeWhile_longer {test : Char → Bool} {text : List Char}
    (passes : ∀ c ∈ text, test c = true) (more : List Char) :
    (text ++ more).takeWhile test = text ∨
      text.length < ((text ++ more).takeWhile test).length := by
  rw [List.takeWhile_append_of_pos passes]
  cases (more.takeWhile test) with
  | nil => exact .inl (List.append_nil text)
  | cons c cs =>
      refine .inr ?_
      rw [List.length_append, List.length_cons]
      omega

/-- The first piece of a text is a given one or longer than that. -/
def Covers (piece : Piece) (role : Role) (text : List Char) : Prop :=
  piece = ⟨role, text⟩ ∨ text.length < piece.text.length

theorem word_covers {c : Char} {cs more : List Char} (starts : isNameStart c = true)
    (parts : ∀ d ∈ cs, isNamePart d = true) :
    Covers (next c (cs ++ more)).1 (.token (nameKind (c :: cs))) (c :: cs) := by
  rw [next_name starts]
  rcases takeWhile_longer parts more with same | longer
  · rw [same]
    exact .inl rfl
  · refine .inr ?_
    simpa using longer

theorem number_covers {text whole fraction : List Char} (numeral : IsNumeral text whole fraction)
    {c : Char} {cs more : List Char} (split : text ++ more = c :: cs) :
    Covers (next c cs).1 (.token .number) text := by
  obtain ⟨nonempty, wholeDigits, fractionDigits, spelled⟩ := numeral
  obtain ⟨d, ds, rfl⟩ := List.exists_cons_of_ne_nil nonempty
  have digit := wholeDigits d (List.mem_cons_self ..)
  have digits : ∀ e ∈ ds, e.isDigit = true := fun e member =>
    wholeDigits e (List.mem_cons_of_mem _ member)
  cases fraction with
  | nil =>
      rw [if_pos rfl] at spelled
      subst spelled
      rw [List.cons_append, List.cons.injEq] at split
      obtain ⟨rfl, rfl⟩ := split
      rw [next_digit digit, number]
      -- More digits, or a point with digits behind it, only make the piece longer.
      rcases takeWhile_longer digits more with same | longer
      · rw [same]
        split
        · split
          · refine .inr ?_
            simp
          · exact .inl rfl
        · exact .inl rfl
      · split
        · split
          · refine .inr ?_
            simp only [List.length_append, List.length_cons]
            omega
          · refine .inr ?_
            simpa using longer
        · refine .inr ?_
          simpa using longer
  | cons f fs =>
      rw [if_neg (by simp)] at spelled
      subst spelled
      rw [List.append_assoc, List.cons_append, List.cons_append, List.cons_append,
        List.cons.injEq] at split
      obtain ⟨rfl, rfl⟩ := split
      have first := fractionDigits f (List.mem_cons_self ..)
      have later : ∀ e ∈ fs, e.isDigit = true := fun e member =>
        fractionDigits e (List.mem_cons_of_mem _ member)
      have point : ¬Char.isDigit '.' = true := by decide
      have taken : (ds ++ '.' :: f :: (fs ++ more)).takeWhile Char.isDigit = ds := by
        rw [List.takeWhile_append_of_pos digits, List.takeWhile_cons_of_neg point, List.append_nil]
      have dropped : (ds ++ '.' :: f :: (fs ++ more)).dropWhile Char.isDigit =
          '.' :: f :: (fs ++ more) := by
        rw [List.dropWhile_append_of_pos digits, List.dropWhile_cons_of_neg point]
      rw [next_digit digit, number, taken, dropped]
      simp only [first, if_true]
      rcases takeWhile_longer later more with same | longer
      · rw [same]
        exact .inl rfl
      · refine .inr ?_
        simpa using longer

theorem symbol_covers (s : Symbol) {c : Char} {cs more : List Char}
    (split : s.spelling.toList ++ more = c :: cs) :
    Covers (next c cs).1 (.token (.symbol s)) s.spelling.toList := by
  have single : ∀ d, s.spelling.toList = [d] → Symbol.ofChar? d = some s →
      Covers (next c cs).1 (.token (.symbol s)) s.spelling.toList := by
    intro d spelling found
    rw [spelling, List.singleton_append, List.cons.injEq] at split
    obtain ⟨rfl, rfl⟩ := split
    rw [spelling, next_symbol found]
    cases more with
    | nil => exact .inl rfl
    | cons e rest =>
        simp only [symbol]
        split
        · exact .inr (by simp)
        · split
          · exact .inr (by simp)
          · exact .inl rfl
  have double : ∀ d short, s.spelling.toList = [d, '='] → Symbol.ofChar? d = some short →
      short.withEqual? = some s → short ≠ .slash →
      Covers (next c cs).1 (.token (.symbol s)) s.spelling.toList := by
    intro d short spelling found longer other
    rw [spelling, List.cons_append, List.singleton_append, List.cons.injEq] at split
    obtain ⟨rfl, rfl⟩ := split
    have piece : next d ('=' :: more) = (⟨.token (.symbol s), [d, '=']⟩, more) := by
      rw [next_symbol found, symbol, if_neg (fun both => other both.1), if_pos rfl, longer]
    rw [spelling, piece]
    exact .inl rfl
  cases s with
  | bangEqual => exact double '!' .bang rfl rfl rfl (by decide)
  | equalEqual => exact double '=' .equal rfl rfl rfl (by decide)
  | greaterEqual => exact double '>' .greater rfl rfl rfl (by decide)
  | lessEqual => exact double '<' .less rfl rfl rfl (by decide)
  | _ => exact single _ rfl rfl

theorem quote_covers {content : List Char} (plain : '"' ∉ content) {role : Role}
    {text cs more : List Char} (split : text ++ more = '"' :: cs)
    (closed : role = .token .string ∧ text = '"' :: content ++ ['"'] ∨
      role = .unclosed ∧ text = '"' :: content ∧ more = []) :
    Covers (next '"' cs).1 role text := by
  have inner : ∀ c ∈ content, (c != '"') = true := by
    intro c member
    rw [bne_iff_ne]
    rintro rfl
    exact plain member
  have start : next '"' cs = string '"' cs := rfl
  rw [start, string]
  rcases closed with ⟨rfl, rfl⟩ | ⟨rfl, rfl, rfl⟩
  · have behind : cs = content ++ '"' :: more := by simpa using split.symm
    rw [behind, List.takeWhile_append_of_pos inner, List.dropWhile_append_of_pos inner]
    refine .inl ?_
    simp
  · have behind : cs = content ++ [] := by simpa using split.symm
    rw [behind, List.takeWhile_append_of_pos inner, List.dropWhile_append_of_pos inner]
    refine .inl ?_
    simp

theorem next_covers {role : Role} {text more : List Char} (fits : Fits role text more) {c : Char}
    {cs : List Char} (split : text ++ more = c :: cs) : Covers (next c cs).1 role text := by
  cases fits with
  | blank rest nonempty gaps =>
      obtain ⟨d, ds, rfl⟩ := List.exists_cons_of_ne_nil nonempty
      rw [List.cons_append, List.cons.injEq] at split
      obtain ⟨rfl, rfl⟩ := split
      have gap := gaps d (List.mem_cons_self ..)
      have later : ∀ e ∈ ds, isGap e = true := fun e member =>
        gaps e (List.mem_cons_of_mem _ member)
      rw [next, if_pos gap, run]
      rcases takeWhile_longer later more with same | longer
      · rw [same]
        exact .inl rfl
      · refine .inr ?_
        simpa using longer
  | newline rest =>
      cases split
      exact .inl rfl
  | @comment line rest inLine =>
      rw [List.cons_append, List.cons_append, List.cons.injEq] at split
      obtain ⟨rfl, rfl⟩ := split
      have passes : ∀ e ∈ line, (e != '\n') = true := by
        intro e member
        rw [bne_iff_ne]
        rintro rfl
        exact inLine member
      rw [next_symbol (s := .slash) rfl, symbol, if_pos ⟨rfl, rfl⟩]
      rcases takeWhile_longer passes more with same | longer
      · rw [same]
        exact .inl rfl
      · refine .inr ?_
        simpa using longer
  | symbol s rest => exact symbol_covers s split
  | number rest numeral => exact number_covers numeral split
  | string rest plain =>
      cases split
      exact quote_covers plain rfl (.inl ⟨rfl, rfl⟩)
  | keyword w rest =>
      obtain ⟨d, ds, spelling, starts, parts⟩ := spelling_word w
      rw [spelling, List.cons_append, List.cons.injEq] at split
      obtain ⟨rfl, rfl⟩ := split
      rw [spelling]
      have kind : nameKind (d :: ds) = .keyword w := by
        rw [← spelling, nameKind_spelling]
      rw [← kind]
      exact word_covers starts parts
  | identifier rest name =>
      obtain ⟨⟨d, ds, rfl, starts, parts⟩, free⟩ := name
      rw [List.cons_append, List.cons.injEq] at split
      obtain ⟨rfl, rfl⟩ := split
      rw [← free]
      exact word_covers starts parts
  | unclosed plain =>
      cases split
      exact quote_covers plain rfl (.inr ⟨rfl, rfl, rfl⟩)

theorem Fits.ne_nil {role : Role} {text rest : List Char} (fits : Fits role text rest) :
    text ≠ [] := by
  cases fits with
  | blank rest nonempty gaps => exact nonempty
  | symbol s rest => cases s <;> simp [Symbol.spelling]
  | number rest numeral =>
      obtain ⟨nonempty, _, _, spelled⟩ := numeral
      rw [spelled]
      split
      · exact nonempty
      · simp
  | keyword w rest =>
      obtain ⟨c, cs, spelling, _⟩ := spelling_word w
      simp [spelling]
  | identifier rest name =>
      obtain ⟨c, cs, spelling, _⟩ := name.starts
      simp [spelling]
  | _ => simp

theorem Fits.expected {role : Role} {text rest : List Char} (fits : Fits role text rest) :
    role ≠ .unexpected := by
  cases fits <;> simp

theorem number_fits {c : Char} (digit : c.isDigit = true) (cs : List Char) :
    Fits (number c cs).1.role (number c cs).1.text (number c cs).2 := by
  have digits : ∀ d ∈ c :: cs.takeWhile Char.isDigit, d.isDigit = true := by
    intro d member
    rcases List.mem_cons.mp member with rfl | member
    · exact digit
    · exact List.mem_takeWhile_imp member
  simp only [number]
  split
  · rename_i d rest _
    split
    · rename_i first
      refine .number _ ⟨List.cons_ne_nil c _, digits, fun e member => ?_,
        (if_neg (List.cons_ne_nil d (rest.takeWhile Char.isDigit))).symm⟩
      rcases List.mem_cons.mp member with rfl | member
      · exact first
      · exact List.mem_takeWhile_imp member
    · exact .number _ ⟨List.cons_ne_nil c _, digits, by simp, (if_pos rfl).symm⟩
  · exact .number _ ⟨List.cons_ne_nil c _, digits, by simp, (if_pos rfl).symm⟩

theorem string_fits (cs : List Char) :
    Fits (string '"' cs).1.role (string '"' cs).1.text (string '"' cs).2 := by
  have plain : '"' ∉ cs.takeWhile (· != '"') := by
    intro member
    have other := List.mem_takeWhile_imp member
    simp at other
  simp only [string]
  split
  · rename_i quote rest behind
    have stops := List.head_dropWhile_not (· != '"') (l := cs) (by rw [behind]; simp)
    have same : quote = '"' := by simpa [behind] using stops
    rw [same]
    exact .string _ plain
  · exact .unclosed plain

theorem symbol_fits {c : Char} {s : Symbol} (found : Symbol.ofChar? c = some s) (cs : List Char) :
    Fits (symbol s c cs).1.role (symbol s c cs).1.text (symbol s c cs).2 := by
  have alone := spelling_ofChar found
  have single : ∀ rest, Fits (.token (.symbol s)) [c] rest := by
    intro rest
    rw [← alone]
    exact .symbol s rest
  cases cs with
  | nil => exact single _
  | cons d rest =>
      simp only [symbol]
      split
      · rename_i both
        obtain ⟨rfl, rfl⟩ := both
        cases alone
        apply Fits.comment
        intro member
        have other := List.mem_takeWhile_imp member
        simp at other
      · split
        · rename_i longer extends_
          split at extends_
          · rename_i equal
            have spelling := spelling_withEqual extends_
            rw [alone, ← equal] at spelling
            rw [show [c, d] = longer.spelling.toList from spelling.symm]
            exact .symbol longer _
          · cases extends_
        · exact single _

theorem name_fits {c : Char} (starts : isNameStart c = true) (cs rest : List Char) :
    Fits (.token (nameKind (c :: cs.takeWhile isNamePart))) (c :: cs.takeWhile isNamePart)
      rest := by
  have parts : ∀ d ∈ cs.takeWhile isNamePart, isNamePart d = true := fun d member =>
    List.mem_takeWhile_imp member
  cases word : Keyword.ofSpelling? (String.ofList (c :: cs.takeWhile isNamePart)) with
  | some w =>
      have spelling := Keyword.ofSpelling?_eq_some_iff.mp word
      have text : c :: cs.takeWhile isNamePart = w.spelling.toList := by
        rw [← spelling, String.toList_ofList]
      rw [text, nameKind_spelling]
      exact .keyword w rest
  | none =>
      have free : nameKind (c :: cs.takeWhile isNamePart) = .identifier := by
        simp only [nameKind, word]
      rw [free]
      exact .identifier rest ⟨⟨c, _, rfl, starts, parts⟩, free⟩

theorem next_fits (c : Char) (cs : List Char) :
    Fits (next c cs).1.role (next c cs).1.text (next c cs).2 ∨
      next c cs = (⟨.unexpected, [c]⟩, cs) := by
  simp only [next]
  split
  · rename_i gap
    refine .inl (.blank _ (List.cons_ne_nil c _) fun d member => ?_)
    rcases List.mem_cons.mp member with rfl | member
    · exact gap
    · exact List.mem_takeWhile_imp member
  split
  · rename_i same
    subst same
    exact .inl (.newline cs)
  split
  · rename_i digit
    exact .inl (number_fits digit cs)
  split
  · rename_i starts
    exact .inl (name_fits starts cs _)
  split
  · rename_i same
    subst same
    exact .inl (string_fits cs)
  split
  · rename_i found
    exact .inl (symbol_fits found cs)
  · exact .inr rfl

theorem nothing_fits {c : Char} {cs : List Char} (stray : next c cs = (⟨.unexpected, [c]⟩, cs))
    {role : Role} {text more : List Char} (split : text ++ more = c :: cs) :
    ¬Fits role text more := by
  intro fits
  have covers := next_covers fits split
  rw [stray] at covers
  rcases covers with same | longer
  · obtain ⟨rfl, _⟩ := Piece.mk.inj same
    exact fits.expected rfl
  · have nonempty := List.length_pos_iff.mpr fits.ne_nil
    rw [List.length_singleton] at longer
    omega

theorem next_munches (c : Char) (cs : List Char) :
    IsLongest (next c cs).1 (next c cs).2 ∨ IsStray (next c cs).1 (next c cs).2 := by
  rcases next_fits c cs with fits | stray
  · refine .inl ⟨fits, fun role text more split other => ?_⟩
    rcases next_covers other (split.trans (next_append c cs)) with same | longer
    · rw [same]
    · exact Nat.le_of_lt longer
  · have single : IsStray ⟨.unexpected, [c]⟩ cs :=
      ⟨rfl, ⟨c, rfl⟩, fun role text more split => nothing_fits stray split⟩
    rw [stray]
    exact .inr single

theorem munches_next {piece : Piece} {rest : List Char}
    (munches : IsLongest piece rest ∨ IsStray piece rest) {c : Char} {cs : List Char}
    (split : piece.text ++ rest = c :: cs) : (piece, rest) = next c cs := by
  have whole := (next_append c cs).trans split.symm
  have samePiece : piece = (next c cs).1 := by
    rcases munches with ⟨fits, longest⟩ | ⟨role, ⟨d, single⟩, nothing⟩
    · rcases next_fits c cs with found | stray
      · have bound := longest _ _ _ whole found
        rcases next_covers fits split with same | longer
        · exact same.symm
        · omega
      · exact absurd fits (nothing_fits stray split)
    · rcases next_fits c cs with found | stray
      · exact absurd found (nothing _ _ _ whole)
      · rw [single, List.singleton_append, List.cons.injEq] at split
        rw [stray, ← split.1, ← single, ← role]
  have sameRest : rest = (next c cs).2 := by
    rw [samePiece] at whole
    exact (List.append_cancel_left whole).symm
  rw [samePiece, sameRest]

theorem munched_all (text : List Char) : Munched text (all text) := by
  induction size : text.length using Nat.strongRecOn generalizing text with
  | ind n ih =>
      cases text with
      | nil =>
          rw [all_nil]
          exact .done
      | cons c cs =>
          have shorter : (next c cs).2.length < n := size ▸ next_rest_length c cs
          rw [all_cons]
          have munched := Munched.piece (next_munches c cs) (ih _ shorter _ rfl)
          rwa [next_append] at munched

/-- A text falls into pieces in exactly one way. -/
theorem munched_iff {text : List Char} {pieces : List Piece} :
    Munched text pieces ↔ pieces = all text := by
  constructor
  · intro munched
    induction munched with
    | done => rw [all_nil]
    | @piece piece rest pieces first later ih =>
        have nonempty : piece.text ++ rest ≠ [] := by
          rcases first with ⟨fits, _⟩ | ⟨_, ⟨c, single⟩, _⟩
          · simp [fits.ne_nil]
          · simp [single]
        obtain ⟨c, cs, split⟩ := List.exists_cons_of_ne_nil nonempty
        have same := munches_next first split
        rw [split, all_cons, ← same, ih]
  · rintro rfl
    exact munched_all text

end Jess.Token.Piece
