import Jess.Proofs.Concatenation

/-!
# A declaration gets ahead

The tokens up to the first end token are all that is read of a list. A place in
it is told by the tokens that are left before that end: a step forward leaves no
more of them, and a step past a token that is no end leaves fewer. A declaration
that does not begin at the end leaves fewer as well, with what recovery skips,
and where it gives nothing it has filed a complaint.
-/

namespace Jess.Parser

open Token (Kind)

/-- The place before the last tokens of a front part, in a list that goes on behind it. -/
def Cursor.Stands (front behind left : List Token) (c : Cursor) : Prop :=
  ∃ used, front = used ++ left ∧ c = .over used.reverse (left ++ behind)

section Places

variable {front beyond left : List Token} {stop : Token} {c d : Cursor}

theorem over_inj {before before' tokens tokens' : List Token} (some : tokens ≠ [])
    (some' : tokens' ≠ []) (same : Cursor.over before tokens = Cursor.over before' tokens') :
    tokens = tokens' := by
  cases tokens with
  | nil => exact absurd rfl some
  | cons t rest =>
      cases tokens' with
      | nil => exact absurd rfl some'
      | cons u others =>
          obtain ⟨_, first, later⟩ := Cursor.mk.inj same
          rw [first, later]

theorem alike_length {tokens : List Token} (fits : ∀ t ∈ left, t.kind ≠ .eof)
    (isEnd : stop.kind = .eof) (alike : Alike [] tokens (left ++ stop :: beyond)) :
    tokens.length = left.length + 1 := by
  induction left generalizing tokens with
  | nil =>
      cases alike with
      | ended => rfl
      | parting cut => exact absurd rfl cut
      | more away => exact absurd isEnd away
  | cons t rest ih =>
      rw [List.cons_append] at alike
      generalize same : rest ++ stop :: beyond = behind at alike
      cases alike with
      | ended _ ends => exact absurd ends (fits t (List.mem_cons_self ..))
      | parting cut => exact absurd rfl cut
      | more _ others =>
          subst same
          have later := ih (fun u member => fits u (List.mem_cons_of_mem _ member)) others
          rw [List.length_cons, later, List.length_cons]

theorem over_start {tokens : List Token} (begins : Cursor.ofList? tokens = some c) :
    c = .over [] tokens := by
  cases tokens with
  | nil => cases begins
  | cons t rest => exact (Option.some.inj begins).symm

theorem stands_start (begins : Cursor.ofList? (front ++ stop :: beyond) = some c) :
    c.Stands front (stop :: beyond) front := ⟨[], rfl, over_start begins⟩

theorem stands_tokens (stands : c.Stands front (stop :: beyond) left) :
    c.tokens = front ++ stop :: beyond := by
  obtain ⟨used, rfl, rfl⟩ := stands
  cases left <;> simp [Cursor.over, Cursor.tokens]

theorem stands_position (stands : c.Stands front (stop :: beyond) left) :
    c.position + left.length = front.length := by
  obtain ⟨used, rfl, rfl⟩ := stands
  cases left <;> simp [Cursor.over, Cursor.position]

theorem stands_advance {t : Token} (inside : ∀ t ∈ front, t.kind ≠ .eof)
    (stands : c.Stands front (stop :: beyond) (t :: left)) :
    c.advance.Stands front (stop :: beyond) left := by
  obtain ⟨used, rfl, rfl⟩ := stands
  have here : t.kind ≠ .eof := inside t (by simp)
  have more : left ++ stop :: beyond ≠ [] := by simp
  refine ⟨used ++ [t], by simp, ?_⟩
  rw [List.cons_append, Cursor.advance_over here more]
  simp

variable (inside : ∀ t ∈ front, t.kind ≠ .eof) (isEnd : stop.kind = .eof)

include inside isEnd

theorem stands_atEnd (stands : c.Stands front (stop :: beyond) left) :
    c.atEnd = true ↔ left = [] := by
  obtain ⟨used, rfl, rfl⟩ := stands
  cases left with
  | nil => simp [Cursor.over, Cursor.atEnd, Cursor.kind, isEnd]
  | cons t rest =>
      have here : t.kind ≠ .eof := inside t (by simp)
      simp [Cursor.over, Cursor.atEnd, Cursor.kind, here]

theorem stands_begun (stands : c.Stands front (stop :: beyond) left)
    (more : c.atEnd = false) : left ≠ [] := by
  intro none
  rw [(stands_atEnd inside isEnd stands).mpr none] at more
  cases more

theorem stands_onward (stands : c.Stands front (stop :: beyond) left) (onward : c.Onward d) :
    ∃ ahead, d.Stands front (stop :: beyond) ahead ∧ ahead.length ≤ left.length := by
  induction onward generalizing left with
  | here => exact ⟨left, stands, Nat.le_refl _⟩
  | @further c d later ih =>
      cases left with
      | nil =>
          have ends := (stands_atEnd inside isEnd stands).mpr rfl
          have stays : c.advance = c := by rw [Cursor.advance, if_pos ends]
          exact ih (stays.symm ▸ stands)
      | cons t rest =>
          obtain ⟨ahead, there, fewer⟩ := ih (stands_advance inside stands)
          exact ⟨ahead, there, Nat.le_succ_of_le fewer⟩

theorem stands_past (stands : c.Stands front (stop :: beyond) left) (more : c.kind ≠ .eof) :
    ∃ ahead, c.advance.Stands front (stop :: beyond) ahead ∧ ahead.length < left.length := by
  cases left with
  | nil => exact absurd (eq_of_beq ((stands_atEnd inside isEnd stands).mpr rfl)) more
  | cons t rest => exact ⟨rest, stands_advance inside stands, Nat.lt_succ_self _⟩

theorem stands_proceed {α : Type} {p : Parser α} [Proceeds p] {s t : State} {v : α}
    (stands : s.cursor.Stands front (stop :: beyond) left) (ran : p s = .ok v t) :
    ∃ ahead, t.cursor.Stands front (stop :: beyond) ahead ∧ ahead.length ≤ left.length :=
  stands_onward inside isEnd stands (onward_of_ok ran)

end Places

section Declarations

theorem declaration_alone {t : Token} {rest : List Token} (closed : Closed (t :: rest))
    (begun : t.kind ≠ .eof) {depth : Nat} (enough : 8 * (t :: rest).length + 6 ≤ depth)
    (inFunction : Bool) :
    ∃ found before ahead filed,
      recovering (declaration depth inFunction) (.over [] (t :: rest) #[]) =
        .ok found (.over before ahead filed) ∧
      ahead ≠ [] ∧ ahead.length < (t :: rest).length ∧ (found = none → filed ≠ #[]) := by
  have settles : Settles (recovering (declaration depth inFunction)) [] (t :: rest) 1 _ :=
    ((statements_settle depth).declaration inFunction closed enough).recovering begun
  have settled := settles #[]
  cases run : recovering (declaration depth inFunction) (.over [] (t :: rest) #[]) with
  | error stop s =>
      rw [run] at settled
      cases settled.1.symm.trans (recovering_stop run)
  | ok found s =>
      rw [run] at settled
      obtain ⟨cursor, complaints⟩ := s
      obtain ⟨gone, ahead, filed, passes, grown, past, promise⟩ := settled
      have lengths := congrArg List.length passes.split
      rw [List.length_append] at lengths
      have place : cursor = Cursor.over (gone.reverse ++ []) ahead := passes.place
      have same : complaints = #[] ++ filed := grown
      rw [Array.empty_append] at same
      rw [place, same]
      refine ⟨found, _, ahead, filed, rfl, passes.closed.ne_nil, by omega, ?_⟩
      intro missing silent
      obtain ⟨v, given, _⟩ := promise silent
      cases missing.symm.trans given

/-- What a parser gives alone, it gives in the same way where more tokens are beyond the end. -/
theorem meets_alone {α : Type} {r r' : EStateM.Result Stop State α} {c filed : Array Complaint}
    {v : α} {before remains : List Token} (meets : Meets [] (Beside []) #[] c r r')
    (alone : r = .ok v (.over before remains filed)) (some : remains ≠ []) :
    ∃ before' ahead, r' = .ok v (.over before' ahead (c ++ filed)) ∧ Alike [] remains ahead := by
  cases meets with
  | tooDeep => cases alone
  | unwinds => cases alone
  | spoiled _ cut => exact absurd rfl cut
  | gives v b b' more beside =>
      obtain ⟨rfl, states⟩ := EStateM.Result.ok.inj alone
      obtain ⟨places, rfl⟩ := State.mk.inj states
      obtain rfl := over_inj beside.ne_nil.1 some places
      cases beside with
      | parted cut => exact absurd rfl cut
      | alike alike => exact ⟨b', _, by rw [Array.empty_append], alike⟩

variable {front beyond left : List Token} {stop : Token}

/-- A declaration before the end, read with recovery, gets past a token, and it complains if it
gives nothing. -/
theorem declaration_advances (inside : ∀ t ∈ front, t.kind ≠ .eof) (isEnd : stop.kind = .eof)
    {s : State} {depth : Nat} (inFunction : Bool)
    (stands : s.cursor.Stands front (stop :: beyond) left) (begun : left ≠ [])
    (enough : 8 * left.length + 14 ≤ depth) :
    ∃ found t ahead, recovering (declaration depth inFunction) s = .ok found t ∧
      t.cursor.Stands front (stop :: beyond) ahead ∧ ahead.length < left.length ∧
      ∃ filed, t.complaints = s.complaints ++ filed ∧ (found = none → filed ≠ #[]) := by
  obtain ⟨cursor, complaints⟩ := s
  obtain ⟨used, split, rfl⟩ := id stands
  have fits : ∀ t ∈ left, t.kind ≠ .eof := fun t member =>
    inside t (split ▸ List.mem_append_right used member)
  obtain ⟨u, rest, rfl⟩ := List.exists_cons_of_ne_nil begun
  have closed : Closed (u :: (rest ++ [stop])) := closed_append fits isEnd
  have size : (u :: (rest ++ [stop])).length = (u :: rest).length + 1 := by simp
  have deep : 8 * (u :: (rest ++ [stop])).length + 6 ≤ depth := by omega
  obtain ⟨found, _, remains, filed, alone, some, fewer, complains⟩ :=
    declaration_alone closed (fits u (List.mem_cons_self ..)) deep inFunction
  -- What the rule does alone it does before the tokens beyond the end.
  have alike : Alike [] (u :: (rest ++ [stop])) (u :: rest ++ stop :: beyond) :=
    (Alike.ended rfl isEnd beyond).behind fits
  have inStep := (statements_inStep (by simp) (Nat.le_refl depth)).declaration inFunction alike
  obtain ⟨before, tokens, ran, alike⟩ :=
    meets_alone (inStep.recovering [] used.reverse #[] complaints) alone some
  obtain ⟨ahead, there, _⟩ := stands_onward inside isEnd stands (onward_of_ok ran)
  obtain ⟨used', split', same⟩ := id there
  have fits' : ∀ t ∈ ahead, t.kind ≠ .eof := fun t member =>
    inside t (split' ▸ List.mem_append_right used' member)
  rw [over_inj alike.ne_nil.2 (by simp) same] at alike
  have remain := alike_length fits' isEnd alike
  exact ⟨found, _, ahead, ran, there, by omega, filed, rfl, complains⟩

end Declarations

end Jess.Parser
