import Jess.Proofs.StatementLocality
import Mathlib.Order.Bounds.Basic

/-!
# Recovery stops at the first boundary

A boundary is told by the number of a token: the token is an end token, or it
begins a statement, or the one before it is a semicolon. Skipping looks at one
place after the other, and a token list that ends with an end token has a
boundary ahead of every place. So skipping stops at the least boundary from its
start on, and recovery, which goes past one token in any case, at the least one
behind its place.
-/

namespace Jess.Parser

open Token (Kind KindSet)

/-- The kinds of the tokens that begin a statement, with two that are only reserved. -/
def statementWords : List Kind :=
  [.keyword .kwClass, .keyword .kwFunc, .keyword .kwVar, .keyword .kwLet, .keyword .kwFor,
    .keyword .kwIf, .keyword .kwWhile, .keyword .kwPrint, .keyword .kwReturn]

/-- Where skipped tokens may end, by the numbers of the tokens alone. -/
inductive IsBoundary (tokens : List Token) (q : Nat) : Prop
  | ended {t : Token} (here : tokens[q]? = some t) (isEnd : t.kind = .eof)
  | closed {r : Nat} {s t : Token} (here : tokens[q]? = some t) (next : r + 1 = q)
      (previous : tokens[r]? = some s) (semicolon : s.kind = .symbol .semicolon)
  | begun {t : Token} (here : tokens[q]? = some t) (begins : t.kind ∈ statementWords)

/-- The place before the token with a given number. -/
structure Cursor.IsAt (c : Cursor) (tokens : List Token) (p : Nat) : Prop where
  whole : c.tokens = tokens
  place : c.position = p

section Places

variable {tokens : List Token} {p : Nat} {c d : Cursor}

theorem Cursor.exists_isAt (inside : p < tokens.length) : ∃ c : Cursor, c.IsAt tokens p := by
  refine ⟨⟨(tokens.take p).reverse, tokens[p], tokens.drop (p + 1)⟩, ?_, ?_⟩
  · rw [Cursor.tokens, List.reverse_reverse, List.getElem_cons_drop, List.take_append_drop]
  · rw [Cursor.position, List.length_reverse, List.length_take]
    omega

theorem Cursor.IsAt.unique (first : c.IsAt tokens p) (second : d.IsAt tokens p) : d = c := by
  obtain ⟨before, current, after⟩ := c
  obtain ⟨before', current', after'⟩ := d
  have same : before'.reverse ++ current' :: after' = before.reverse ++ current :: after :=
    second.whole.trans first.whole.symm
  have places : before'.reverse.length = before.reverse.length := by
    rw [List.length_reverse, List.length_reverse]
    exact second.place.trans first.place.symm
  obtain ⟨passed, ahead⟩ := List.append_inj same places
  obtain ⟨rfl, rfl⟩ := List.cons.inj ahead
  rw [List.reverse_inj.mp passed]

theorem Cursor.current_isAt (c : Cursor) : c.tokens[c.position]? = some c.current := by
  rw [Cursor.tokens, Cursor.position, List.getElem?_append_right (by simp)]
  simp

theorem Cursor.IsAt.current (isAt : c.IsAt tokens p) : tokens[p]? = some c.current := by
  obtain ⟨rfl, rfl⟩ := isAt
  exact c.current_isAt

theorem Cursor.kindBefore_eq_semicolon_iff (c : Cursor) :
    c.kindBefore = .symbol .semicolon ↔
      ∃ r s, r + 1 = c.position ∧ c.tokens[r]? = some s ∧ s.kind = .symbol .semicolon := by
  obtain ⟨before, current, after⟩ := c
  cases before with
  | nil => simp [Cursor.kindBefore, Cursor.position]
  | cons u earlier =>
      have previous :
          (Cursor.mk (u :: earlier) current after).tokens[earlier.length]? = some u := by
        simp [Cursor.tokens]
      constructor
      · intro semicolon
        exact ⟨earlier.length, u, rfl, previous, semicolon⟩
      · rintro ⟨r, s, next, listed, semicolon⟩
        obtain rfl : r = earlier.length := Nat.succ.inj next
        obtain rfl : u = s := Option.some.inj (previous.symm.trans listed)
        exact semicolon

theorem Cursor.atBoundary_iff (c : Cursor) :
    c.atBoundary = true ↔ IsBoundary c.tokens c.position := by
  have here := c.current_isAt
  rw [Cursor.atBoundary, Bool.or_eq_true, Bool.or_eq_true, Cursor.atEnd, beq_iff_eq, beq_iff_eq,
    c.kindBefore_eq_semicolon_iff, KindSet.contains_statementStart]
  constructor
  · rintro ((isEnd | ⟨r, s, next, previous, semicolon⟩) | begins)
    · exact .ended here isEnd
    · exact .closed here next previous semicolon
    · exact .begun here begins
  · intro boundary
    cases boundary with
    | ended there isEnd =>
        cases here.symm.trans there
        exact .inl (.inl isEnd)
    | closed _ next previous semicolon => exact .inl (.inr ⟨_, _, next, previous, semicolon⟩)
    | begun there begins =>
        cases here.symm.trans there
        exact .inr begins

end Places

def EndsWithEof (tokens : List Token) : Prop :=
  ∃ last, tokens.getLast? = some last ∧ last.kind = .eof

theorem EndsWithEof.behind {t : Token} {rest : List Token} (front : List Token)
    (ends : EndsWithEof (front ++ t :: rest)) : EndsWithEof (t :: rest) := by
  obtain ⟨last, isLast, isEnd⟩ := ends
  rw [List.getLast?_append, List.getLast?_cons, Option.some_or, ← List.getLast?_cons] at isLast
  exact ⟨last, isLast, isEnd⟩

theorem skip_isLeast (before : List Token) (current : Token) (after : List Token)
    (ends : EndsWithEof (current :: after)) :
    IsLeast {q | before.length ≤ q ∧ IsBoundary (before.reverse ++ current :: after) q}
      (Cursor.skip before current after).position := by
  have start := Cursor.atBoundary_iff ⟨before, current, after⟩
  induction after generalizing before current with
  | nil =>
      obtain ⟨last, isLast, isEnd⟩ := ends
      obtain rfl : current = last := by simpa using isLast
      have stops : Cursor.atBoundary ⟨before, current, []⟩ = true := by
        simp [Cursor.atBoundary, Cursor.atEnd, Cursor.kind, isEnd]
      exact ⟨⟨Nat.le_refl _, start.mp stops⟩, fun q later => later.1⟩
  | cons next rest ih =>
      rw [Cursor.skip]
      split
      · rename_i stops
        exact ⟨⟨Nat.le_refl _, start.mp stops⟩, fun q later => later.1⟩
      · rename_i goesOn
        have further :=
          ih (current :: before) next (ends.behind [current]) (Cursor.atBoundary_iff _)
        have same : (current :: before).reverse ++ next :: rest =
            before.reverse ++ current :: next :: rest := by simp
        rw [same] at further
        obtain ⟨⟨behind, boundary⟩, least⟩ := further
        rw [List.length_cons] at behind
        refine ⟨⟨Nat.le_of_succ_le behind, boundary⟩, ?_⟩
        rintro q ⟨from_, other⟩
        -- The start itself is no boundary, so every other one lies behind it.
        have apart : before.length ≠ q := by
          rintro rfl
          exact goesOn (start.mpr other)
        exact least ⟨Nat.lt_of_le_of_ne from_ apart, other⟩

theorem toBoundary_isLeast {c : Cursor} (ends : EndsWithEof c.tokens) (inside : c.kind ≠ .eof) :
    IsLeast {q | c.position + 1 ≤ q ∧ IsBoundary c.tokens q} c.toBoundary.position := by
  obtain ⟨before, current, after⟩ := c
  cases after with
  | nil =>
      obtain ⟨last, isLast, isEnd⟩ := ends
      obtain rfl : current = last := by simpa [Cursor.tokens] using isLast
      exact absurd isEnd inside
  | cons next rest =>
      have moved : (Cursor.mk before current (next :: rest)).toBoundary =
          Cursor.skip (current :: before) next rest := toBoundary_inside inside before next rest
      have ahead : EndsWithEof (next :: rest) := (ends.behind before.reverse).behind [current]
      have least := skip_isLeast (current :: before) next rest ahead
      rw [List.reverse_cons, List.append_assoc] at least
      rw [moved]
      exact least

/-- Recovery stays at an end token. From any other token it goes to the least boundary behind its
place, and it skips the tokens between. -/
theorem recovers_to_first_boundary {tokens : List Token} (ends : EndsWithEof tokens) {p : Nat}
    (inside : p < tokens.length) :
    ∃ c : Cursor, (∀ d : Cursor, d.IsAt tokens p ↔ d = c) ∧
      ((∃ t, tokens[p]? = some t ∧ t.kind = .eof) → c.toBoundary.IsAt tokens p ∧ c.skipped = 0) ∧
      ((∃ t, tokens[p]? = some t ∧ t.kind ≠ .eof) →
        ∃ q, IsLeast {q | p + 1 ≤ q ∧ IsBoundary tokens q} q ∧ c.toBoundary.IsAt tokens q ∧
          c.skipped = q - p) := by
  obtain ⟨c, isAt⟩ := Cursor.exists_isAt inside
  refine ⟨c, fun d => ⟨isAt.unique, fun same => same ▸ isAt⟩, ?_, ?_⟩
  · rintro ⟨t, here, isEnd⟩
    obtain rfl : t = c.current := Option.some.inj (here.symm.trans isAt.current)
    have stays : c.toBoundary = c := toBoundary_end isEnd c.before c.after
    rw [Cursor.skipped, stays]
    exact ⟨isAt, Nat.sub_self _⟩
  · rintro ⟨t, here, goesOn⟩
    obtain rfl : t = c.current := Option.some.inj (here.symm.trans isAt.current)
    obtain ⟨rfl, rfl⟩ := isAt
    exact ⟨_, toBoundary_isLeast ends goesOn, ⟨Cursor.tokens_toBoundary c, rfl⟩, rfl⟩

private def spare (kind : Kind) : Token := .unplaced kind "" 1

/-- Two words `var`, a name, a semicolon, and a name before the end. -/
def stumbling : List Token :=
  [spare (.keyword .kwVar), spare (.keyword .kwVar), spare .identifier, spare (.symbol .semicolon),
    spare .identifier, .eof 1 0]

theorem recovers_between_words :
    EndsWithEof stumbling ∧ 1 < stumbling.length ∧
      ∃ c : Cursor, c.IsAt stumbling 1 ∧
        IsLeast {q | 2 ≤ q ∧ IsBoundary stumbling q} 4 ∧ c.toBoundary.IsAt stumbling 4 ∧
          c.skipped = 3 := by
  have ends : EndsWithEof stumbling := ⟨.eof 1 0, rfl, rfl⟩
  have inside : 1 < stumbling.length := by decide
  obtain ⟨c, only, _, further⟩ := recovers_to_first_boundary ends inside
  obtain ⟨q, least, stopped, skipped⟩ := further ⟨spare (.keyword .kwVar), rfl, by decide⟩
  have isAt : c.IsAt stumbling 1 := (only c).mpr rfl
  have second : Cursor.IsAt ⟨[spare (.keyword .kwVar)], spare (.keyword .kwVar),
      stumbling.drop 2⟩ stumbling 1 := ⟨rfl, rfl⟩
  have three : c.skipped = 3 := by
    rw [← (only _).mp second]
    decide
  have behind := least.1.1
  obtain rfl : q = 4 := by omega
  exact ⟨ends, inside, c, isAt, least, stopped, three⟩

end Jess.Parser
