import Jess.Parser.Program

/-!
# Parser steps over tokens

The place of a parser as the tokens behind it and the tokens before it, and
what the elementary steps do there. A step past a token needs another token to
stand on, which the end token always provides.
-/

namespace Jess.Parser

open Token (Kind)

def Cursor.over (before : List Token) : List Token → Cursor
  | [] => ⟨before, Token.eof 0 0, []⟩
  | token :: rest => ⟨before, token, rest⟩

abbrev State.over (before tokens : List Token) (complaints : Array Complaint) : State :=
  ⟨Cursor.over before tokens, complaints⟩

theorem Cursor.advance_over {before rest : List Token} {token : Token}
    (inside : token.kind ≠ .eof) (more : rest ≠ []) :
    (Cursor.over before (token :: rest)).advance = Cursor.over (token :: before) rest := by
  obtain ⟨next, later, rfl⟩ := List.exists_cons_of_ne_nil more
  have notEnd : ¬(Cursor.over before (token :: next :: later)).atEnd = true := by
    simpa [Cursor.over, Cursor.atEnd, Cursor.kind] using inside
  rw [Cursor.advance, if_neg notEnd]
  rfl

variable {α β : Type}

theorem bind_apply (p : Parser α) (f : α → Parser β) (s : State) :
    (p >>= f) s =
      match p s with
      | .ok v s => f v s
      | .error stop s => .error stop s := by
  change EStateM.bind p f s = _
  unfold EStateM.bind
  cases p s <;> rfl

theorem pure_apply (v : α) (s : State) : (pure v : Parser α) s = .ok v s := rfl

theorem map_apply (f : α → β) (p : Parser α) (s : State) :
    (f <$> p) s =
      match p s with
      | .ok v s => .ok (f v) s
      | .error stop s => .error stop s := by
  change EStateM.map f p s = _
  unfold EStateM.map
  cases p s <;> rfl

theorem bind_of_ok {p : Parser α} {f : α → Parser β} {s s' : State} {v : α}
    (first : p s = .ok v s') : (p >>= f) s = f v s' := by
  rw [bind_apply, first]

section Over

variable (before rest : List Token) (token : Token) (complaints : Array Complaint)

theorem current_over :
    current (.over before (token :: rest) complaints) =
      .ok token (.over before (token :: rest) complaints) := rfl

theorem check_over (kind : Kind) :
    check kind (.over before (token :: rest) complaints) =
      .ok (token.kind == kind) (.over before (token :: rest) complaints) := rfl

theorem atEnd_over :
    atEnd (.over before (token :: rest) complaints) =
      .ok (token.kind == .eof) (.over before (token :: rest) complaints) := rfl

theorem advance_over (inside : token.kind ≠ .eof) (more : rest ≠ []) :
    advance (.over before (token :: rest) complaints) =
      .ok token (.over (token :: before) rest complaints) := by
  rw [advance, Cursor.advance_over inside more]
  rfl

theorem eat_over {kind : Kind} (same : token.kind = kind) (inside : kind ≠ .eof)
    (more : rest ≠ []) :
    eat kind (.over before (token :: rest) complaints) =
      .ok true (.over (token :: before) rest complaints) := by
  have found : (Cursor.over before (token :: rest)).check kind = true := by
    simpa [Cursor.over, Cursor.check, Cursor.kind] using same
  rw [eat, if_pos found, Cursor.advance_over (same ▸ inside) more]

theorem eat_over_of_ne {kind : Kind} (other : token.kind ≠ kind) :
    eat kind (.over before (token :: rest) complaints) =
      .ok false (.over before (token :: rest) complaints) := by
  have missing : ¬(Cursor.over before (token :: rest)).check kind = true := by
    simpa [Cursor.over, Cursor.check, Cursor.kind] using other
  rw [eat, if_neg missing]

theorem expect_over {kind : Kind} {what : Expectation} (same : token.kind = kind)
    (inside : kind ≠ .eof) (more : rest ≠ []) :
    expect kind what (.over before (token :: rest) complaints) =
      .ok token (.over (token :: before) rest complaints) := by
  have found : (Cursor.over before (token :: rest)).check kind = true := by
    simpa [Cursor.over, Cursor.check, Cursor.kind] using same
  rw [expect, if_pos found, Cursor.advance_over (same ▸ inside) more]
  rfl

theorem expect_over_of_ne {kind : Kind} {what : Expectation} (other : token.kind ≠ kind) :
    expect kind what (.over before (token :: rest) complaints) =
      fail what (.over before (token :: rest) complaints) := by
  have missing : ¬(Cursor.over before (token :: rest)).check kind = true := by
    simpa [Cursor.over, Cursor.check, Cursor.kind] using other
  rw [expect, if_neg missing]

end Over

end Jess.Parser
