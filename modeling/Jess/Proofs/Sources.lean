import Jess.Proofs.Acceptance
import Jess.Proofs.Spelling
import Jess.Session
import Mathlib.Data.List.TakeWhile

/-!
# Sources without static mistakes

A source without static mistakes is spelled with tokens that form a program,
and the tokens of a source are sound: a name is no keyword, and a string holds
no quote. A source whose tokens form a program up to their places has no static
mistakes, and its statements are that program up to places.
-/

namespace Jess

open Token (Kind spelled?)
open Grammar

namespace Token

/-- The characters of a name that is no keyword. -/
structure IsIdentifier (text : List Char) : Prop where
  starts : ∃ c cs, text = c :: cs ∧ isNameStart c = true ∧ ∀ d ∈ cs, isNamePart d = true
  free : Piece.nameKind text = .identifier

instance (text : List Char) : Decidable (IsIdentifier text) :=
  match text with
  | [] => isFalse fun identifier => by
      obtain ⟨c, cs, empty, _⟩ := identifier.starts
      cases empty
  | c :: cs =>
      decidable_of_iff
        ((isNameStart c && cs.all isNamePart) = true ∧ Piece.nameKind (c :: cs) = .identifier) (by
        rw [Bool.and_eq_true, List.all_eq_true]
        constructor
        · rintro ⟨⟨first, later⟩, free⟩
          exact ⟨⟨c, cs, rfl, first, later⟩, free⟩
        · rintro ⟨⟨c', cs', same, first, later⟩, free⟩
          cases same
          exact ⟨⟨first, later⟩, free⟩)

def Kind.isFixed : Kind → Bool
  | symbol _ => true
  | keyword _ => true
  | _ => false

/-- What holds of the kind and the text of every piece that is a token. -/
structure Piece.IsSound (kind : Kind) (text : List Char) : Prop where
  inside : kind ≠ .eof
  name : kind = .identifier → IsIdentifier text
  fixed : kind.isFixed = true → text = kind.display.toList
  quoted : kind = .string → ∃ content, '"' ∉ content ∧
    literalOf kind text = some (.string (String.ofList content))

structure IsSound (t : Token) : Prop where
  sound : Piece.IsSound t.kind t.lexeme.toList
  literal : t.literal = literalOf t.kind t.lexeme.toList

theorem IsSound.placeless {t : Token} : t.placeless.IsSound ↔ t.IsSound :=
  ⟨fun sound => ⟨sound.sound, sound.literal⟩, fun sound => ⟨sound.sound, sound.literal⟩⟩

namespace Piece

theorem number_sound {c : Char} {cs : List Char} {kind : Kind}
    (role : (number c cs).1.role = .token kind) : IsSound kind (number c cs).1.text := by
  have isNumber : (number c cs).1.role = .token .number := by
    unfold number
    split
    · split <;> rfl
    · rfl
  obtain rfl : Kind.number = kind := by
    simpa only [isNumber, Role.token.injEq] using role
  exact ⟨by decide, by simp, by simp [Kind.isFixed], by simp⟩

theorem string_sound {c : Char} {cs : List Char} {kind : Kind}
    (role : (string c cs).1.role = .token kind) : IsSound kind (string c cs).1.text := by
  unfold string at role ⊢
  generalize cs.dropWhile (· != '"') = left at role ⊢
  cases left with
  | nil => cases role
  | cons quote rest =>
      cases role
      refine ⟨by decide, by simp, by simp [Kind.isFixed], fun _ => ?_⟩
      refine ⟨cs.takeWhile (· != '"'), ?_, by simp [literalOf]⟩
      intro member
      have differs := List.mem_takeWhile_imp member
      simp at differs

theorem spelling_ofChar {c : Char} {s : Symbol} (found : Symbol.ofChar? c = some s) :
    s.spelling.toList = [c] := by
  unfold Symbol.ofChar? at found
  split at found <;> cases found <;> rfl

theorem spelling_withEqual {s longer : Symbol} (found : s.withEqual? = some longer) :
    longer.spelling.toList = s.spelling.toList ++ ['='] := by
  unfold Symbol.withEqual? at found
  split at found <;> cases found <;> rfl

theorem isSound_symbol {s : Symbol} {text : List Char} (spelling : text = s.spelling.toList) :
    IsSound (.symbol s) text :=
  ⟨by simp, nofun, fun _ => spelling, nofun⟩

theorem symbol_sound {s : Symbol} {c : Char} {cs : List Char} {kind : Kind}
    (found : Symbol.ofChar? c = some s) (role : (symbol s c cs).1.role = .token kind) :
    IsSound kind (symbol s c cs).1.text := by
  have alone := spelling_ofChar found
  cases cs with
  | nil =>
      cases role
      exact isSound_symbol alone.symm
  | cons d rest =>
      simp only [symbol] at role ⊢
      split at role
      · cases role
      rename_i noComment
      rw [if_neg noComment]
      split at role
      · rename_i longer extends_
        cases role
        split at extends_
        · rename_i equal
          apply isSound_symbol
          rw [spelling_withEqual extends_, alone, equal]
          rfl
        · cases extends_
      · cases role
        exact isSound_symbol alone.symm

theorem name_sound {c : Char} {cs : List Char} (starts : isNameStart c = true)
    (parts : ∀ d ∈ cs, isNamePart d = true) : IsSound (nameKind (c :: cs)) (c :: cs) := by
  unfold nameKind
  split
  · rename_i w found
    refine ⟨by simp, nofun, fun _ => ?_, nofun⟩
    have spelling := Keyword.ofSpelling?_eq_some_iff.mp found
    rw [Kind.display, ← spelling, String.toList_ofList]
  · rename_i free
    refine ⟨by simp, fun _ => ⟨⟨c, cs, rfl, starts, parts⟩, ?_⟩, nofun, nofun⟩
    simp only [nameKind, free]

theorem next_sound {c : Char} {cs : List Char} {kind : Kind}
    (role : (next c cs).1.role = .token kind) : IsSound kind (next c cs).1.text := by
  simp only [next] at role ⊢
  split at role
  · cases role
  rename_i noGap
  rw [if_neg noGap]
  split at role
  · cases role
  rename_i noNewline
  rw [if_neg noNewline]
  split at role
  · rename_i digit
    rw [if_pos digit]
    exact number_sound role
  rename_i noDigit
  rw [if_neg noDigit]
  split at role
  · rename_i starts
    rw [if_pos starts]
    cases role
    exact name_sound starts fun d member => List.mem_takeWhile_imp member
  rename_i noName
  rw [if_neg noName]
  split at role
  · rename_i quote
    rw [if_pos quote]
    exact string_sound role
  rename_i noQuote
  rw [if_neg noQuote]
  split at role
  · rename_i s found
    exact symbol_sound found role
  · cases role

theorem token_sound {piece : Piece} {t : Token} {c : Char} {cs : List Char}
    (first : (next c cs).1 = piece) (made : piece.token? = some t) : t.IsSound := by
  subst first
  simp only [token?] at made
  split at made
  · rename_i kind role
    cases made
    have sound := next_sound role
    exact ⟨by simpa using sound, by simp⟩
  · cases made

theorem all_sound (text : List Char) :
    ∀ t ∈ (all text).filterMap token?, t.IsSound := by
  induction size : text.length using Nat.strongRecOn generalizing text with
  | ind n ih =>
      intro t member
      cases text with
      | nil => simp at member
      | cons c cs =>
          have shorter : (next c cs).2.length < n := size ▸ next_rest_length c cs
          rw [all_cons, List.filterMap_cons] at member
          cases made : (next c cs).1.token? with
          | none =>
              rw [made] at member
              exact ih _ shorter _ rfl t member
          | some u =>
              rw [made] at member
              rcases List.mem_cons.mp member with rfl | member
              · exact token_sound rfl made
              · exact ih _ shorter _ rfl t member

end Piece

theorem spelled_sound {text : List Char} {tokens : List Token}
    (spelled : spelled? text = some tokens) : ∀ t ∈ tokens, t.IsSound := by
  simp only [spelled?] at spelled
  split at spelled
  · cases spelled
  · cases spelled
    exact Piece.all_sound text

theorem exists_scan {source : String} {tokens : List Token}
    (spelled : spelled? source.toList = some tokens) :
    ∃ placed ending, (scan source).1 = placed ++ [ending] ∧ SameUpToPlace placed tokens ∧
      (∀ t ∈ placed, t.IsSound) ∧ ending.kind = .eof := by
  obtain ⟨placed, line, offset, split⟩ := scan_ends source
  have whole := scan_spelled spelled
  have sounds := spelled_sound spelled
  rw [split, List.map_append, List.map_singleton, placeless_eof] at whole
  have same : placed.map placeless = tokens := (List.append_inj' whole rfl).1
  have placelessTwice : tokens.map placeless = tokens := by
    rw [← same, List.map_map]
    rfl
  refine ⟨placed, _, split, ?_, ?_, rfl⟩
  · rw [SameUpToPlace, same, placelessTwice]
  · intro t member
    rw [← IsSound.placeless]
    apply sounds
    rw [← same]
    exact List.mem_map_of_mem member

end Token

namespace Source

def statements (source : String) : List Stmt := (Parser.read (Token.scan source).1).statements

/-- A source in which neither the spelling nor the grammar has a mistake. -/
structure IsClean (source : String) : Prop where
  spelling : (Token.scan source).2 = []
  grammar : (Parser.read (Token.scan source).1).isClean = true

theorem IsClean.exists_program {source : String} (clean : IsClean source) :
    ∃ tokens placed, spelled? source.toList = some tokens ∧ SameUpToPlace placed tokens ∧
      (∀ t ∈ placed, t.IsSound) ∧ IsProgram (statements source) placed := by
  obtain ⟨tokens, spelled⟩ := Option.isSome_iff_exists.mp
    ((Token.scan_clean_iff source).mp clean.spelling)
  obtain ⟨placed, ending, split, same, sounds, isEnd⟩ := Token.exists_scan spelled
  have grammar := clean.grammar
  have formed : IsProgram (statements source) placed := by
    rw [split] at grammar
    rw [statements, split]
    exact Parser.program_of_clean (fun t member => (sounds t member).sound.inside) isEnd grammar
  exact ⟨tokens, placed, spelled, same, sounds, formed⟩

/-- A source that is spelled with the tokens of a program, up to their places, has no mistakes. -/
theorem clean_of_program {source : String} {tokens placed : List Token} {program : List Stmt}
    (spelled : spelled? source.toList = some tokens) (same : SameUpToPlace tokens placed)
    (formed : IsProgram program placed) :
    IsClean source ∧ Stmt.placelessAll (statements source) = Stmt.placelessAll program := by
  obtain ⟨own, ending, split, alike, _, isEnd⟩ := Token.exists_scan spelled
  obtain ⟨moved, formed', samePrograms⟩ := formed.move (Eq.trans alike same)
  have read : Parser.read (Token.scan source).1 = ⟨moved, []⟩ := by
    rw [split]
    exact Parser.read_of_program formed' isEnd
  refine ⟨⟨?_, ?_⟩, ?_⟩
  · rw [Token.scan_clean_iff, spelled]
    rfl
  · rw [read]
    rfl
  · rw [statements, read]
    exact samePrograms

end Source

namespace Session

open Source

theorem load_clean {source : String} (clean : IsClean source) {s : Session}
    (quiet : s.log.static = false) :
    s.load source = (some (statements source), { s with phase := .done }) := by
  have none : (Parser.read (Token.scan source).1).diagnostics = [] := by
    have grammar := clean.grammar
    simp only [Parser.Outcome.isClean, List.isEmpty_iff] at grammar
    simp only [Parser.Outcome.diagnostics, grammar, List.map_nil]
  have spelling := clean.spelling
  simp only [load, spelling, none, Diagnostic.Log.append_nil, quiet, statements]
  rfl

end Session

end Jess
