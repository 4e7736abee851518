import Jess.Proofs.Elsewhere
import Jess.Proofs.MaximalMunch
import Jess.Proofs.ProgramRoundTrip
import Jess.Proofs.Records

/-!
# Layout

A source is laid out anew by putting its lexemes down in order, with white
space and comments between them. Every lexeme of a source is read back as
itself before a blank, whatever it could go on with elsewhere, so the new text
has the same tokens up to places. The parser does not look at places, and a run
keeps them for its reports only. So the new text is run as the old one is.
-/

namespace Jess

namespace Token

def isWhite (c : Char) : Bool := isGap c || c == '\n'

/-- White space, newlines, and comments that a newline ends. -/
inductive IsLayout : List Char → Prop
  | nothing : IsLayout []
  | white {c : Char} {rest : List Char} (blank : isWhite c = true) (later : IsLayout rest) :
      IsLayout (c :: rest)
  | comment {text rest : List Char} (inLine : '\n' ∉ text) (later : IsLayout rest) :
      IsLayout ('/' :: '/' :: text ++ '\n' :: rest)

/-- Layout that starts with white space or a newline. -/
inductive IsSeparator : List Char → Prop
  | intro {c : Char} {rest : List Char} (blank : isWhite c = true) (later : IsLayout rest) :
      IsSeparator (c :: rest)

/-- Lexemes in order, with a separator between neighbours. -/
inductive Separated : List String → List Char → Prop
  | nothing : Separated [] []
  | last (lexeme : String) : Separated [lexeme] lexeme.toList
  | more {lexeme next : String} {rest : List String} {separator text : List Char}
      (separates : IsSeparator separator) (others : Separated (next :: rest) text) :
      Separated (lexeme :: next :: rest) (lexeme.toList ++ (separator ++ text))

/-- Separators may also stand before the first lexeme and after the last one. -/
inductive IsLaidOut (lexemes : List String) : List Char → Prop
  | intro {before text after : List Char} (leading : before = [] ∨ IsSeparator before)
      (separated : Separated lexemes text) (trailing : after = [] ∨ IsSeparator after) :
      IsLaidOut lexemes (before ++ (text ++ after))

theorem spelled_comment {text : List Char} (inLine : '\n' ∉ text) (rest : List Char) :
    spelled? ('/' :: '/' :: text ++ '\n' :: rest) = spelled? rest := by
  have plain : ∀ c ∈ text, (c != '\n') = true := by
    intro c member
    rw [bne_iff_ne]
    intro same
    exact inLine (same ▸ member)
  have taken : (text ++ '\n' :: rest).takeWhile (· != '\n') = text := by
    rw [takeWhile_newline (· != '\n') rfl, List.takeWhile_eq_self_iff.mpr plain]
  have dropped : (text ++ '\n' :: rest).dropWhile (· != '\n') = '\n' :: rest := by
    rw [dropWhile_newline (· != '\n') rfl, List.dropWhile_eq_nil_iff.mpr plain, List.nil_append]
  have first : Piece.next '/' ('/' :: text ++ '\n' :: rest) =
      (⟨.comment, '/' :: '/' :: text⟩, '\n' :: rest) := by
    rw [next_symbol (s := .slash) rfl, List.cons_append, Piece.symbol, if_pos ⟨rfl, rfl⟩, taken,
      dropped]
  have whole := spelled_cons '/' ('/' :: text ++ '\n' :: rest)
  rw [first, spelled_newline] at whole
  simpa [Piece.isMistake, Piece.token?] using whole

theorem spelled_white {c : Char} (blank : isWhite c = true) (rest : List Char) :
    spelled? (c :: rest) = spelled? rest := by
  rcases Bool.or_eq_true_iff.mp blank with gap | newline
  · exact spelled_gap gap rest
  · rw [eq_of_beq newline]
    exact spelled_newline rest

theorem IsLayout.spelled {layout : List Char} (formed : IsLayout layout) (rest : List Char) :
    spelled? (layout ++ rest) = spelled? rest := by
  induction formed with
  | nothing => rfl
  | white blank _ ih => rw [List.cons_append, spelled_white blank, ih]
  | @comment text others inLine _ ih =>
      have split : '/' :: '/' :: text ++ '\n' :: others ++ rest =
          '/' :: '/' :: text ++ '\n' :: (others ++ rest) := by simp
      rw [split, spelled_comment inLine, ih]

theorem IsSeparator.isLayout {separator : List Char} (separates : IsSeparator separator) :
    IsLayout separator := by
  cases separates with
  | intro blank later => exact .white blank later

theorem IsSeparator.breaks {separator : List Char} (separates : IsSeparator separator)
    (rest : List Char) : Breaks (separator ++ rest) := by
  cases separates with
  | @intro c _ blank _ =>
      apply breaks_cons
      simp only [isWhite, isGap, Bool.or_eq_true, beq_iff_eq] at blank
      rcases blank with ((rfl | rfl) | rfl) | rfl <;> decide

theorem spells_of_fits {kind : Kind} {text rest : List Char}
    (fits : Piece.Fits (.token kind) text rest) : Spells text [made kind text] := by
  cases fits with
  | symbol s => exact Spells.symbol s
  | number _ numeral => exact Spells.numeral numeral
  | string _ plain => exact Spells.quoted plain
  | keyword w => exact Spells.keyword w
  | identifier _ name =>
      obtain ⟨⟨c, cs, rfl, starts, parts⟩, free⟩ := name
      have word := Spells.word starts parts
      rwa [free] at word

theorem fits_of_munched {text : List Char} {pieces : List Piece}
    (munched : Piece.Munched text pieces) {piece : Piece} (member : piece ∈ pieces) {kind : Kind}
    (role : piece.role = .token kind) : ∃ rest, Piece.Fits (.token kind) piece.text rest := by
  induction munched with
  | done => cases member
  | @piece first rest pieces longest _ ih =>
      cases member with
      | tail _ later => exact ih later
      | head =>
          rcases longest with longest | stray
          · exact ⟨rest, role ▸ longest.fits⟩
          · cases role.symm.trans stray.role

theorem spells_of_spelled {text : List Char} {tokens : List Token}
    (spelled : spelled? text = some tokens) : ∀ t ∈ tokens, Spells t.lexeme.toList [t] := by
  simp only [spelled?] at spelled
  split at spelled
  · cases spelled
  · cases spelled
    intro t member
    obtain ⟨piece, inside, makes⟩ := List.mem_filterMap.mp member
    unfold Piece.token? at makes
    split at makes
    · rename_i kind role
      cases makes
      obtain ⟨rest, fits⟩ := fits_of_munched (Piece.munched_all text) inside role
      rw [String.toList_ofList]
      exact spells_of_fits fits
    · cases makes

theorem Spells.separated {front separator back : List Char} {tokens others : List Token}
    (first : Spells front tokens) (separates : IsSeparator separator)
    (second : Spells back others) : Spells (front ++ (separator ++ back)) (tokens ++ others) := by
  have behind : Spells (separator ++ back) others := by
    intro rest ends
    rw [List.append_assoc, separates.isLayout.spelled, second rest ends]
  apply first.append behind
  intro rest _
  rw [List.append_assoc]
  exact separates.breaks (back ++ rest)

theorem Separated.spells {tokens : List Token} {text : List Char}
    (separated : Separated (tokens.map Token.lexeme) text)
    (alone : ∀ t ∈ tokens, Spells t.lexeme.toList [t]) : Spells text tokens := by
  induction tokens generalizing text with
  | nil =>
      cases separated
      exact .nil
  | cons t rest ih =>
      have first := alone t (List.mem_cons_self ..)
      have later : ∀ u ∈ rest, Spells u.lexeme.toList [u] := fun u member =>
        alone u (List.mem_cons_of_mem _ member)
      cases rest with
      | nil =>
          cases separated
          exact first
      | cons u rest =>
          cases separated with
          | more separates others => exact first.separated separates (ih others later)

theorem IsLaidOut.spelled {source other : List Char} {tokens : List Token}
    (spelled : spelled? source = some tokens)
    (laidOut : IsLaidOut (tokens.map Token.lexeme) other) : spelled? other = some tokens := by
  have ends : ∀ layout, layout = [] ∨ IsSeparator layout → IsLayout layout := by
    intro layout optional
    rcases optional with rfl | separates
    · exact .nothing
    · exact separates.isLayout
  obtain ⟨leading, separated, trailing⟩ := laidOut
  rename_i before text after
  have spells := separated.spells (spells_of_spelled spelled)
  have breaks : Breaks after := by
    rcases trailing with rfl | separates
    · exact breaks_nil
    · rw [← List.append_nil after]
      exact separates.breaks []
  have nothing : spelled? after = some [] := by
    rw [← List.append_nil after, (ends after trailing).spelled, spelled_nil]
  rw [(ends before leading).spelled, spells after breaks, nothing]
  simp

end Token

/-- The diagnostic without its line. -/
def Diagnostic.lineless (d : Diagnostic) : Diagnostic := { d with line := 0 }

namespace Parser

theorem Complaint.diagnostic_placeless (c : Complaint) :
    c.placeless.diagnostic = c.diagnostic.lineless := rfl

theorem Outcome.diagnostics_placeless (o : Outcome) :
    o.placeless.diagnostics = o.diagnostics.map Diagnostic.lineless := by
  simp only [diagnostics, placeless, List.map_map]
  exact List.map_congr_left fun c _ => c.diagnostic_placeless

end Parser

namespace Session

open Grammar (SameUpToPlace)
open Source

/-- How the run of a source ends: the outcome, what was printed, and the diagnostics without their
lines. -/
def Ends (s : Session) (source : String) (outcome : Outcome) (output : String)
    (reports : List Diagnostic) : Prop :=
  ∃ steps t, s.run steps source = some (outcome, t) ∧ t.interpreter.output = output ∧
    t.log.held.toList.map Diagnostic.lineless = reports

variable {source other : String} {limit : Nat} {outcome : Outcome}

theorem ends_of_reports {steps : Nat} {reported : List Diagnostic} {i : Interpreter}
    (reports : (Session.new (.new limit)).Reports steps other outcome reported i) :
    Ends (.new (.new limit)) other outcome i.output (reported.map Diagnostic.lineless) := by
  have none : (Session.new (.new limit)).log.held.toList = [] := rfl
  refine ⟨steps, _, run_of_reports reports, rfl, ?_⟩
  rw [Diagnostic.Log.held_append, none, List.nil_append]

theorem ends_elsewhere (clean : spellingMistakes source = []) (spelled : spellingMistakes other = [])
    (same : SameUpToPlace (Token.scan other).1 (Token.scan source).1) {output : String}
    {diagnostics : List Diagnostic}
    (ends : Ends (.new (.new limit)) source outcome output diagnostics) :
    Ends (.new (.new limit)) other outcome output diagnostics := by
  obtain ⟨steps, t, ran, rfl, rfl⟩ := ends
  obtain ⟨reported, i, reports, rfl⟩ := run_reports ran
  have held : (Session.new (.new limit)).log.held.toList = [] := rfl
  rw [Diagnostic.Log.held_append, held, List.nil_append]
  have reads := Parser.read_of_same same
  have mistakes : (grammarMistakes other).map Diagnostic.lineless =
      (grammarMistakes source).map Diagnostic.lineless := by
    rw [grammarMistakes, grammarMistakes, ← Parser.Outcome.diagnostics_placeless, reads,
      Parser.Outcome.diagnostics_placeless]
  have trees : Fragment.Like .place (.stmts (statements source)) (.stmts (statements other)) := by
    apply Stmt.likeAll_of_placeless (by decide)
    exact (congrArg Parser.Outcome.statements reads).symm
  have follows := (Interpreter.follows_of_like trees limit).1
  -- The mistakes are the same up to lines, so both sources come to the same stage.
  cases reports with
  | misspelled mistaken => exact absurd clean mistaken
  | blocked _ static => cases static
  | ungrammatical _ _ mistaken =>
      have others : grammarMistakes other ≠ [] := by
        intro none
        rw [none] at mistakes
        exact mistaken (List.map_eq_nil_iff.mp mistakes.symm)
      have report : (Session.new (.new limit)).Reports steps other .staticError
          (grammarMistakes other) (.new limit) := .ungrammatical spelled rfl others
      rw [← mistakes]
      exact ends_of_reports report
  | ended _ _ formed executed =>
      rw [formed] at mistakes
      have others : grammarMistakes other = [] := List.map_eq_nil_iff.mp mistakes
      obtain ⟨fault, j, ⟨enough, executes⟩, printed, cause⟩ := follows _ _ _ executed
      cases fault with
      | some f => cases cause
      | none =>
          rw [← printed]
          exact ends_of_reports (.ended spelled rfl others (executes enough (Nat.le_refl _)))
  | @failed _ _ formed i f executed =>
      rw [formed] at mistakes
      have others : grammarMistakes other = [] := List.map_eq_nil_iff.mp mistakes
      obtain ⟨fault, j, ⟨enough, executes⟩, printed, cause⟩ := follows _ _ _ executed
      cases fault with
      | none => cases cause
      | some g =>
          have causes : g.cause = f.cause := Option.some.inj cause
          have report : [f.diagnostic].map Diagnostic.lineless =
              [g.diagnostic].map Diagnostic.lineless := by
            simp only [List.map_cons, Fault.diagnostic, Fault.message, causes]
            rfl
          rw [← printed, report]
          exact ends_of_reports (.failed spelled rfl others (executes enough (Nat.le_refl _)))

/-- A source whose lexemes are laid out anew keeps its tokens up to places, and it is run as
before. -/
theorem layout_ignored {source other : String} (clean : (Token.scan source).2 = [])
    (laidOut : Token.IsLaidOut ((Token.scan source).1.dropLast.map Token.lexeme) other.toList) :
    (Token.scan other).2 = [] ∧ SameUpToPlace (Token.scan other).1 (Token.scan source).1 ∧
      ∀ limit outcome output diagnostics,
        Ends (.new (.new limit)) other outcome output diagnostics ↔
          Ends (.new (.new limit)) source outcome output diagnostics := by
  obtain ⟨tokens, spelled⟩ := Option.isSome_iff_exists.mp ((Token.scan_clean_iff source).mp clean)
  have scanned := Token.scan_spelled spelled
  have lexemes : (Token.scan source).1.dropLast.map Token.lexeme = tokens.map Token.lexeme := by
    have kept : ∀ ts : List Token, (ts.map Token.placeless).map Token.lexeme =
        ts.map Token.lexeme := by
      intro ts
      rw [List.map_map]
      rfl
    rw [List.map_dropLast, ← kept, scanned, List.map_append, List.map_singleton,
      List.dropLast_concat]
  rw [lexemes] at laidOut
  have respelled := laidOut.spelled spelled
  have cleanOther : (Token.scan other).2 = [] := by
    rw [Token.scan_clean_iff, respelled]
    rfl
  have same : SameUpToPlace (Token.scan other).1 (Token.scan source).1 :=
    (Token.scan_spelled respelled).trans scanned.symm
  refine ⟨cleanOther, same, fun limit outcome output diagnostics => ⟨?_, ?_⟩⟩
  · exact ends_elsewhere cleanOther clean same.symm
  · exact ends_elsewhere clean cleanOther same

/-- A division that fails, with a string over two lines. -/
private def narrow : String := "1/\"a\nb\";"

private def spread : String := "\n//c\n1 /\r//\n\"a\nb\"\t;\n"

theorem layout_ignored_spread :
    (Token.scan narrow).2 = [] ∧
      Token.IsLaidOut ((Token.scan narrow).1.dropLast.map Token.lexeme) spread.toList ∧
      (Token.scan spread).2 = [] ∧ SameUpToPlace (Token.scan spread).1 (Token.scan narrow).1 ∧
      ∀ limit outcome output diagnostics,
        Ends (.new (.new limit)) spread outcome output diagnostics ↔
          Ends (.new (.new limit)) narrow outcome output diagnostics := by
  have clean : (Token.scan narrow).2 = [] := by decide +kernel
  have lexemes : (Token.scan narrow).1.dropLast.map Token.lexeme =
      ["1", "/", "\"a\nb\"", ";"] := by decide +kernel
  have white : ∀ c, Token.isWhite c = true → Token.IsSeparator [c] := fun c blank =>
    .intro blank .nothing
  have leading : Token.IsSeparator ['\n', '/', '/', 'c', '\n'] := by
    have inLine : '\n' ∉ ['c'] := by decide
    exact .intro (by decide) (.comment inLine .nothing)
  have comment : Token.IsSeparator ['\r', '/', '/', '\n'] := by
    have inLine : '\n' ∉ ([] : List Char) := by decide
    exact .intro (by decide) (.comment inLine .nothing)
  have body : Token.Separated ["1", "/", "\"a\nb\"", ";"]
      ("1".toList ++ ([' '] ++ ("/".toList ++ (['\r', '/', '/', '\n'] ++
        ("\"a\nb\"".toList ++ (['\t'] ++ ";".toList)))))) :=
    .more (white ' ' (by decide)) (.more comment (.more (white '\t' (by decide)) (.last ";")))
  have laidOut : Token.IsLaidOut ((Token.scan narrow).1.dropLast.map Token.lexeme)
      spread.toList := by
    have whole := Token.IsLaidOut.intro (.inr leading) body (.inr (white '\n' (by decide)))
    rw [lexemes]
    exact whole
  exact ⟨clean, laidOut, layout_ignored clean laidOut⟩

end Session

end Jess
