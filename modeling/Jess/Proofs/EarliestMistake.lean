import Mathlib.Order.Bounds.Basic
import Jess.Proofs.Concatenation
import Jess.Proofs.StatementTracking

/-!
# The first mistake is noticed as early as possible

A complaint that gives up a statement is filed if and only if the tokens are no
program of the lenient grammar. The first one is at the first token with which
no such program goes on: the parser neither goes past a token that leads nowhere
nor gives up at one that leads to a program.
-/

namespace Jess.Parser

open Token (Kind)
open Grammar

/-- The messages of the mistakes that the parser goes on from as if nothing had happened. -/
def harmlessMessages : List String :=
  ["Invalid assignment target.", "Can't return from top-level code.",
    "Can't have more than 255 arguments.", "Can't have more than 255 parameters."]

theorem mem_harmlessMessages (mistake : Mistake) :
    mistake.message ∈ harmlessMessages ↔ mistake.unwinds = false := by
  cases mistake with
  | expected what => cases what <;> decide
  | _ => decide

/-- Some program of the lenient grammar with an end token behind it begins with the tokens. -/
def Viable (front : List Token) : Prop :=
  ∃ program ending, Lenient.IsProgram program ∧ ending.kind = .eof ∧ front <+: program ++ [ending]

theorem Viable.of_prefix {front longer : List Token} (begins : front <+: longer)
    (viable : Viable longer) : Viable front := by
  obtain ⟨program, ending, formed, isEnd, extends_⟩ := viable
  exact ⟨program, ending, formed, isEnd, begins.trans extends_⟩

theorem viable_iff (front : List Token) :
    Viable front ↔ ∃ w, kinds front ++ w ∈ Lenient.bodies * Lenient.just .eof := by
  constructor
  · rintro ⟨program, ending, formed, isEnd, rest, joined⟩
    refine ⟨kinds rest, Lenient.mem_mul_just.mpr ⟨kinds program, formed, ?_⟩⟩
    rw [← List.map_append, joined, List.map_append, List.map_singleton, isEnd]
  · rintro ⟨w, member⟩
    obtain ⟨word, formed, joined⟩ := Lenient.mem_mul_just.mp member
    have spelled : kinds (front ++ w.map bareToken) = word ++ [.eof] := by
      rw [← joined, kinds, List.map_append, List.map_map]
      exact congrArg (kinds front ++ ·) (List.map_id'' (fun _ => rfl) w)
    obtain ⟨program, last, split, rfl, ends⟩ := List.map_eq_append_iff.mp spelled
    obtain ⟨ending, rfl, isEnd⟩ := List.map_eq_singleton_iff.mp ends
    exact ⟨program, ending, formed, isEnd, w.map bareToken, split⟩

theorem declarations_atEnd {depth : Nat} {done : Array Stmt} {s s' : State} {program : List Stmt}
    (run : declarations depth done s = .ok program s') : s'.cursor.atEnd = true := by
  induction depth generalizing done s with
  | zero => cases run
  | succ depth ih =>
      rw [declarations, bind_of_ok (show atEnd s = .ok s.cursor.atEnd s from rfl)] at run
      split at run
      · rename_i isEnd
        cases run
        exact isEnd
      · rw [bind_apply] at run
        split at run
        · rename_i found t _
          cases found <;> exact ih run
        · cases run

theorem read_tracks {tokens : List Token} {ending : Token} (inside : ∀ t ∈ tokens, t.kind ≠ .eof)
    (isEnd : ending.kind = .eof) :
    (Lenient.IsProgram tokens ∧
      ∀ c ∈ (read (tokens ++ [ending])).complaints, c.mistake.unwinds = false) ∨
    ∃ used t rest harmless what more, tokens ++ [ending] = used ++ t :: rest ∧
      Rejects Lenient.bodies (Lenient.just .eof) used t ∧
      (∀ c ∈ harmless, c.mistake.unwinds = false) ∧
      (read (tokens ++ [ending])).complaints = harmless ++ ⟨t, .expected what⟩ :: more := by
  have closed := closed_append inside isEnd
  obtain ⟨t, rest, split⟩ := List.exists_cons_of_ne_nil closed.ne_nil
  have settles : Settles (declarations (enoughDepth (tokens ++ [ending]).length) #[]) []
      (tokens ++ [ending]) 0 _ :=
    declarations_settle #[] closed (by simp only [enoughDepth]; omega)
  have settled := settles #[]
  have tracks : Tracks (declarations (enoughDepth (tokens ++ [ending]).length) #[]) Lenient.bodies
      (Lenient.just .eof) [] (tokens ++ [ending]) := declarations_track _ #[] closed
  have tracked := tracks #[]
  have place : (⟨⟨[], t, rest⟩, #[]⟩ : State) = .over [] (t :: rest) #[] := rfl
  -- what is left over behind a miss
  have missed : ∀ s, Missed Lenient.bodies (Lenient.just .eof) (tokens ++ [ending]) #[] s →
      ∃ used t rest harmless what more, tokens ++ [ending] = used ++ t :: rest ∧
        Rejects Lenient.bodies (Lenient.just .eof) used t ∧
        (∀ c ∈ harmless, c.mistake.unwinds = false) ∧
        s.complaints.toList = harmless ++ ⟨t, .expected what⟩ :: more := by
    rintro s ⟨used, u, later, filed, what, more, whole, rejects, harmless, grown⟩
    refine ⟨used, u, later, filed.toList, what, more.toList, whole, rejects, ?_, by simp [grown]⟩
    exact fun c member => harmless c (Array.mem_toList_iff.mp member)
  rw [split] at settled tracked missed ⊢
  simp only [read, Cursor.ofList?, readFrom, place]
  cases run : declarations (enoughDepth (t :: rest).length) #[] (.over [] (t :: rest) #[]) with
  | ok program s =>
      rw [run] at tracked
      rcases tracked with ⟨used, left, filed, passes, grown, harmless, accepts⟩ | misses
      · have atEnd := declarations_atEnd run
        obtain ⟨last, beyond, rfl⟩ := List.exists_cons_of_ne_nil passes.closed.ne_nil
        rw [passes.place] at atEnd
        have alone : beyond = [] := passes.closed.head_eof (beq_iff_eq.mp atEnd)
        subst alone
        have whole : tokens ++ [ending] = used ++ [last] := split.trans passes.split
        have same : tokens = used := (List.append_inj' whole rfl).1
        refine .inl ⟨same ▸ accepts.word, fun c member => harmless c ?_⟩
        simpa [grown] using member
      · exact .inr (missed s misses)
  | error stop s =>
      rw [run] at settled tracked
      obtain ⟨rfl, _⟩ := settled
      exact .inr (missed s tracked)

section Rejected

variable {used rest : List Token} {t : Token}
  (rejects : Rejects Lenient.bodies (Lenient.just .eof) used t)

include rejects

theorem Rejects.not_isProgram {tokens : List Token} {ending : Token} (isEnd : ending.kind = .eof)
    (split : tokens ++ [ending] = used ++ t :: rest) : ¬Lenient.IsProgram tokens := by
  intro formed
  refine rejects.stuck (kinds rest) (Lenient.mem_mul_just.mpr ⟨kinds tokens, formed, ?_⟩)
  have same := congrArg kinds split
  rw [kinds, kinds, List.map_append, List.map_append, List.map_singleton, isEnd] at same
  exact same.symm

/-- All that was gone past is viable, and with the token that cannot stand there it is not. -/
theorem Rejects.isLeast :
    IsLeast { n | ¬Viable ((used ++ t :: rest).take (n + 1)) } used.length := by
  constructor
  · intro viable
    have front : (used ++ t :: rest).take (used.length + 1) = used ++ [t] := by
      simp [List.take_append]
    rw [front] at viable
    obtain ⟨w, member⟩ := (viable_iff _).mp viable
    rw [kinds, List.map_append, List.append_assoc] at member
    exact rejects.stuck w member
  · intro n notViable
    by_contra sooner
    refine notViable (Viable.of_prefix ?_ ((viable_iff used).mpr rejects.viable))
    rw [List.take_append_of_le_length (by omega)]
    exact List.take_prefix _ used

end Rejected

/-- A complaint that gives up a statement is filed just if the tokens are no program of the
lenient grammar, and the first one is at the first token with which none begins. -/
theorem first_mistake_is_earliest {tokens : List Token} {ending : Token}
    (inside : ∀ t ∈ tokens, t.kind ≠ .eof) (isEnd : ending.kind = .eof) :
    ((∃ c ∈ (read (tokens ++ [ending])).complaints, c.mistake.message ∉ harmlessMessages) ↔
      ¬Lenient.IsProgram tokens) ∧
    ∀ c, (read (tokens ++ [ending])).complaints.find?
        (fun c => c.mistake.message ∉ harmlessMessages) = some c →
      ∃ p, (tokens ++ [ending])[p]? = some c.token ∧
        IsLeast { n | ¬Viable ((tokens ++ [ending]).take (n + 1)) } p := by
  simp only [mem_harmlessMessages, Bool.not_eq_false]
  rcases read_tracks inside isEnd with ⟨formed, harmless⟩ |
    ⟨used, t, rest, harmless, what, more, split, rejects, none, filed⟩
  · refine ⟨⟨?_, fun notFormed => absurd formed notFormed⟩, ?_⟩
    · rintro ⟨c, member, unwinds⟩
      rw [harmless c member] at unwinds
      cases unwinds
    · intro c found
      have unwinds := List.find?_some found
      simp [harmless c (List.mem_of_find?_eq_some found)] at unwinds
  · have unwinds : (⟨t, .expected what⟩ : Complaint).mistake.unwinds = true := rfl
    have member : ⟨t, .expected what⟩ ∈ (read (tokens ++ [ending])).complaints := by simp [filed]
    refine ⟨⟨fun _ => rejects.not_isProgram isEnd split, fun _ => ⟨_, member, unwinds⟩⟩, ?_⟩
    intro c found
    have skipped : harmless.find? (fun c => decide (c.mistake.unwinds = true)) = Option.none :=
      List.find?_eq_none.mpr fun c member => by simp [none c member]
    rw [filed, List.find?_append, skipped, Option.none_or, List.find?_cons, unwinds] at found
    cases found
    refine ⟨used.length, ?_, split ▸ rejects.isLeast⟩
    rw [split]
    simp

/-- A block with an assignment to a sum and a call that lacks its last argument, each token on a
line of its own. -/
def brokenBlock : List Token :=
  [Kind.symbol .leftBrace, .identifier, .symbol .plus, .identifier, .symbol .equal,
    .keyword .kwNil, .symbol .semicolon, .keyword .kwPrint, .identifier, .symbol .leftParen,
    .keyword .kwNil, .symbol .comma, .symbol .semicolon, .symbol .rightBrace].mapIdx
      fun place kind => .unplaced kind "" (place + 1)

theorem first_mistake_is_earliest_brokenBlock :
    (∀ t ∈ brokenBlock, t.kind ≠ .eof) ∧ (Token.eof 14 0).kind = .eof ∧
      (read (brokenBlock ++ [Token.eof 14 0])).complaints =
        [⟨.unplaced (.symbol .equal) "" 5, .invalidTarget⟩,
          ⟨.unplaced (.symbol .semicolon) "" 13, .expected .expression⟩] ∧
      ¬Lenient.IsProgram brokenBlock ∧
      IsLeast { n | ¬Viable ((brokenBlock ++ [Token.eof 14 0]).take (n + 1)) } 12 := by
  have inside : ∀ t ∈ brokenBlock, t.kind ≠ .eof := by decide
  have isEnd : (Token.eof 14 0).kind = .eof := rfl
  have filed : (read (brokenBlock ++ [Token.eof 14 0])).complaints =
      [⟨.unplaced (.symbol .equal) "" 5, .invalidTarget⟩,
        ⟨.unplaced (.symbol .semicolon) "" 13, .expected .expression⟩] := by decide +kernel
  obtain ⟨noProgram, earliest⟩ := first_mistake_is_earliest inside isEnd
  obtain ⟨p, place, least⟩ := earliest ⟨.unplaced (.symbol .semicolon) "" 13, .expected .expression⟩
    (by rw [filed]; decide +kernel)
  have known : ∀ p < 15, (brokenBlock ++ [Token.eof 14 0])[p]? =
      some (.unplaced (.symbol .semicolon) "" 13) → p = 12 := by decide +kernel
  have bound := (List.getElem?_eq_some_iff.mp place).1
  refine ⟨inside, isEnd, filed, noProgram.mp ?_, known p bound place ▸ least⟩
  exact ⟨_, filed ▸ List.mem_cons_of_mem _ (List.mem_singleton_self _), by decide⟩

end Jess.Parser
