import Jess.Proofs.Steps

/-!
# What a parser does to the tokens before it

A parser settles at a place if it goes past some of the tokens there and then
either gives a value or is unwound. It only ever adds complaints, it is never
unwound without one, and what its value says about the tokens is promised
where it added none. Each way of putting parsers together has a rule here, so
a parser settles because its parts do. The number of tokens that a parser goes
past at least is part of the rules, since the depth it needs is paid from it.
-/

namespace Jess.Parser

open Token (Kind)

/-- Tokens that end with their only end token. -/
inductive Closed : List Token → Prop
  | ending {t : Token} (isEnd : t.kind = .eof) : Closed [t]
  | more {t : Token} {rest : List Token} (inside : t.kind ≠ .eof) (others : Closed rest) :
      Closed (t :: rest)

theorem Closed.ne_nil {tokens : List Token} (closed : Closed tokens) : tokens ≠ [] := by
  cases closed <;> simp

theorem Closed.tail {t : Token} {rest : List Token} (closed : Closed (t :: rest))
    (inside : t.kind ≠ .eof) : Closed rest := by
  cases closed with
  | ending isEnd => exact absurd isEnd inside
  | more _ others => exact others

theorem Closed.head_eof {t : Token} {rest : List Token} (closed : Closed (t :: rest))
    (isEnd : t.kind = .eof) : rest = [] := by
  cases closed with
  | ending _ => rfl
  | more inside _ => exact absurd isEnd inside

theorem closed_append {tokens : List Token} {ending : Token}
    (inside : ∀ t ∈ tokens, t.kind ≠ .eof) (isEnd : ending.kind = .eof) :
    Closed (tokens ++ [ending]) := by
  induction tokens with
  | nil => exact .ending isEnd
  | cons t rest ih =>
      have others := ih fun u member => inside u (List.mem_cons_of_mem _ member)
      exact .more (inside t (List.mem_cons_self ..)) others

/-- The tokens split into those gone past and those still ahead. -/
structure Passes (before pending : List Token) (cursor : Cursor) (used rest : List Token) :
    Prop where
  split : pending = used ++ rest
  closed : Closed rest
  place : cursor = Cursor.over (used.reverse ++ before) rest

/-- What a parser leaves behind at a place: see the head of the file. -/
def Settled {α : Type} (before pending : List Token) (complaints : Array Complaint) (least : Nat)
    (Promise : α → List Token → List Token → Prop) : EStateM.Result Stop State α → Prop
  | .ok v s => ∃ used rest filed, Passes before pending s.cursor used rest ∧
      s.complaints = complaints ++ filed ∧ least ≤ used.length ∧ (filed = #[] → Promise v used rest)
  | .error stop s => stop = .unwound ∧ ∃ used rest filed,
      Passes before pending s.cursor used rest ∧ s.complaints = complaints ++ filed ∧ filed ≠ #[]

/-- A parser goes past at least so many of the pending tokens, and keeps its promise about
those gone past and those still ahead unless it complains. -/
def Settles {α : Type} (p : Parser α) (before pending : List Token) (least : Nat)
    (Promise : α → List Token → List Token → Prop) : Prop :=
  ∀ complaints,
    Settled before pending complaints least Promise (p (.over before pending complaints))

section Rules

variable {α β : Type} {before pending : List Token} {least : Nat}
  {Promise Weaker : α → List Token → List Token → Prop} {Last : β → List Token → List Token → Prop}

theorem Settles.mono {p : Parser α} (settles : Settles p before pending least Promise)
    (weaker : ∀ v used rest, Promise v used rest → Weaker v used rest) :
    Settles p before pending least Weaker := by
  intro complaints
  have settled := settles complaints
  cases run : p (.over before pending complaints) with
  | ok v s =>
      rw [run] at settled
      obtain ⟨used, rest, filed, passes, grown, enough, promise⟩ := settled
      exact ⟨used, rest, filed, passes, grown, enough,
        fun none => weaker v used rest (promise none)⟩
  | error stop s =>
      rw [run] at settled
      exact settled

theorem Settles.any {p : Parser α} (settles : Settles p before pending least Promise) :
    Settles p before pending 0 Promise := by
  intro complaints
  have settled := settles complaints
  cases run : p (.over before pending complaints) with
  | ok v s =>
      rw [run] at settled
      obtain ⟨used, rest, filed, passes, grown, _, promise⟩ := settled
      exact ⟨used, rest, filed, passes, grown, Nat.zero_le _, promise⟩
  | error stop s =>
      rw [run] at settled
      exact settled

theorem settles_pure {v : α} (closed : Closed pending) (promise : Promise v [] pending) :
    Settles (pure v) before pending 0 Promise := by
  intro complaints
  rw [pure_apply]
  exact ⟨[], pending, #[], ⟨rfl, closed, rfl⟩, by simp, Nat.zero_le _, fun _ => promise⟩

theorem settles_fail {what : Expectation} (closed : Closed pending) :
    Settles (fail what : Parser α) before pending least Promise := by
  intro complaints
  refine ⟨rfl, [], pending, #[_], ⟨rfl, closed, rfl⟩, rfl, by simp⟩

theorem Settles.report {token : Token} {mistake : Mistake} {f : Unit → Parser β}
    {Any : β → List Token → List Token → Prop} (later : Settles (f ()) before pending least Any) :
    Settles (report token mistake >>= f) before pending least Last := by
  intro complaints
  have settled := later (complaints.push ⟨token, mistake⟩)
  have filed : ∀ more : Array Complaint, #[(⟨token, mistake⟩ : Complaint)] ++ more ≠ #[] := by
    intro more none
    have sizes := congrArg Array.size none
    simp at sizes
  rw [bind_of_ok (show Parser.report token mistake (.over before pending complaints) =
    .ok () (.over before pending (complaints.push ⟨token, mistake⟩)) from rfl)]
  cases run : f () (.over before pending (complaints.push ⟨token, mistake⟩)) with
  | ok v s =>
      rw [run] at settled
      obtain ⟨used, rest, more, passes, grown, enough, _⟩ := settled
      exact ⟨used, rest, #[⟨token, mistake⟩] ++ more, passes, by simp [grown], enough,
        fun none => absurd none (filed more)⟩
  | error stop s =>
      rw [run] at settled
      obtain ⟨unwound, used, rest, more, passes, grown, _⟩ := settled
      exact ⟨unwound, used, rest, #[⟨token, mistake⟩] ++ more, passes, by simp [grown], filed more⟩

/-- One parser after another: the second one starts where the first one stopped, and has to
turn the promise of the first one into that of both. -/
theorem Settles.chain {p : Parser α} {f : α → Parser β} {m n : Nat}
    (first : Settles p before pending m Promise)
    (second : ∀ v used rest, pending = used ++ rest → Closed rest → m ≤ used.length →
      Settles (f v) (used.reverse ++ before) rest n fun w others left =>
        Promise v used (others ++ left) → Last w (used ++ others) left) :
    Settles (p >>= f) before pending (m + n) Last := by
  intro complaints
  have settled := first complaints
  rw [bind_apply]
  cases run : p (.over before pending complaints) with
  | ok v s =>
      rw [run] at settled
      obtain ⟨used, rest, filed, passes, grown, enough, promise⟩ := settled
      obtain ⟨cursor, complaints'⟩ := s
      obtain ⟨split, closed, rfl⟩ := passes
      have later := second v used rest split closed enough complaints'
      simp only at grown ⊢
      cases run' : f v (.over (used.reverse ++ before) rest complaints') with
      | ok w s' =>
          rw [run'] at later
          obtain ⟨others, left, filed', ⟨split', closed', place'⟩, grown', enough', promise'⟩ :=
            later
          refine ⟨used ++ others, left, filed ++ filed', ⟨by simp [split, split'], closed', ?_⟩,
            by rw [grown', grown, Array.append_assoc], ?_, ?_⟩
          · rw [place', List.reverse_append, List.append_assoc]
          · rw [List.length_append]
            exact Nat.add_le_add enough enough'
          · intro none
            obtain ⟨noneFirst, noneLater⟩ := Array.append_eq_empty_iff.mp none
            exact promise' noneLater (split' ▸ promise noneFirst)
      | error stop s' =>
          rw [run'] at later
          obtain ⟨unwound, others, left, filed', ⟨split', closed', place'⟩, grown', some'⟩ := later
          refine ⟨unwound, used ++ others, left, filed ++ filed',
            ⟨by simp [split, split'], closed', ?_⟩, by rw [grown', grown, Array.append_assoc], ?_⟩
          · rw [place', List.reverse_append, List.append_assoc]
          · intro none
            exact some' (Array.append_eq_empty_iff.mp none).2
  | error stop s =>
      rw [run] at settled
      exact settled

theorem Settles.bind {p : Parser α} {f : α → Parser β}
    (first : Settles p before pending least Promise)
    (second : ∀ v used rest, pending = used ++ rest → Closed rest → least ≤ used.length →
      Settles (f v) (used.reverse ++ before) rest 0 fun w others left =>
        Promise v used (others ++ left) → Last w (used ++ others) left) :
    Settles (p >>= f) before pending least Last :=
  first.chain second

theorem Settles.lead {p : Parser α} {f : α → Parser β} (first : Settles p before pending 0 Promise)
    (second : ∀ v used rest, pending = used ++ rest → Closed rest →
      Settles (f v) (used.reverse ++ before) rest least fun w others left =>
        Promise v used (others ++ left) → Last w (used ++ others) left) :
    Settles (p >>= f) before pending least Last := by
  have both := first.chain fun v used rest split closed _ => second v used rest split closed
  rwa [Nat.zero_add] at both

theorem Settles.map {p : Parser α} {f : α → β} (settles : Settles p before pending least Promise)
    (kept : ∀ v used rest, Promise v used rest → Last (f v) used rest) :
    Settles (f <$> p) before pending least Last := by
  intro complaints
  have settled := settles complaints
  rw [map_apply]
  cases run : p (.over before pending complaints) with
  | ok v s =>
      rw [run] at settled
      obtain ⟨used, rest, filed, passes, grown, enough, promise⟩ := settled
      exact ⟨used, rest, filed, passes, grown, enough, fun none => kept _ _ _ (promise none)⟩
  | error stop s =>
      rw [run] at settled
      exact settled

theorem Settles.past {p : Parser α} {f : α → Parser β} {t : Token} {rest : List Token} {v : α}
    (stepped : ∀ complaints, p (.over before (t :: rest) complaints) =
      .ok v (.over (t :: before) rest complaints))
    (later : Settles (f v) (t :: before) rest 0 fun w used left => Last w (t :: used) left) :
    Settles (p >>= f) before (t :: rest) 1 Last := by
  intro complaints
  have settled := later complaints
  rw [bind_of_ok (stepped complaints)]
  cases run : f v (.over (t :: before) rest complaints) with
  | ok w s =>
      rw [run] at settled
      obtain ⟨used, left, filed, ⟨split, closed, place⟩, grown, _, promise⟩ := settled
      exact ⟨t :: used, left, filed, ⟨by simp [split], closed, by simp [place]⟩, grown, by simp,
        promise⟩
  | error stop s =>
      rw [run] at settled
      obtain ⟨unwound, used, left, filed, ⟨split, closed, place⟩, grown, some⟩ := settled
      exact ⟨unwound, t :: used, left, filed, ⟨by simp [split], closed, by simp [place]⟩, grown,
        some⟩

theorem Settles.look {p : Parser α} {f : α → Parser β} {v : α}
    (looked : ∀ complaints, p (.over before pending complaints) =
      .ok v (.over before pending complaints))
    (later : Settles (f v) before pending least Last) :
    Settles (p >>= f) before pending least Last := by
  intro complaints
  rw [bind_of_ok (looked complaints)]
  exact later complaints

theorem Settles.check {kind : Kind} {f : Bool → Parser β} {t : Token} {rest : List Token}
    (found : t.kind = kind → Settles (f true) before (t :: rest) least Last)
    (missing : t.kind ≠ kind → Settles (f false) before (t :: rest) least Last) :
    Settles (check kind >>= f) before (t :: rest) least Last := by
  apply Settles.look (v := t.kind == kind) fun complaints => check_over ..
  by_cases same : t.kind = kind
  · rw [beq_iff_eq.mpr same]
    exact found same
  · rw [beq_eq_false_iff_ne.mpr same]
    exact missing same

theorem Settles.eat {kind : Kind} {f : Bool → Parser β} {t : Token} {rest : List Token}
    (closed : Closed (t :: rest)) (inside : kind ≠ .eof)
    (found : t.kind = kind → Closed rest →
      Settles (f true) (t :: before) rest 0 fun w used left => Last w (t :: used) left)
    (missing : t.kind ≠ kind → Settles (f false) before (t :: rest) 0 Last) :
    Settles (eat kind >>= f) before (t :: rest) 0 Last := by
  by_cases same : t.kind = kind
  · have others := closed.tail (same ▸ inside)
    exact (Settles.past (fun complaints => eat_over _ _ _ _ same inside others.ne_nil)
      (found same others)).any
  · exact Settles.look (fun complaints => eat_over_of_ne _ _ _ _ same) (missing same)

theorem Settles.expect {kind : Kind} {what : Expectation} {f : Token → Parser β} {t : Token}
    {rest : List Token} (closed : Closed (t :: rest)) (inside : kind ≠ .eof)
    (found : t.kind = kind → Closed rest →
      Settles (f t) (t :: before) rest 0 fun w used left => Last w (t :: used) left) :
    Settles (expect kind what >>= f) before (t :: rest) 1 Last := by
  by_cases same : t.kind = kind
  · have others := closed.tail (same ▸ inside)
    exact Settles.past (fun complaints => expect_over _ _ _ _ same inside others.ne_nil)
      (found same others)
  · intro complaints
    rw [bind_apply, expect_over_of_ne before rest t complaints same]
    have fails : Settles (Parser.fail what : Parser β) before (t :: rest) 1 Last :=
      settles_fail closed
    exact fails complaints

theorem Settles.advance {f : Token → Parser β} {t : Token} {rest : List Token}
    (closed : Closed (t :: rest)) (inside : t.kind ≠ .eof)
    (later : Closed rest →
      Settles (f t) (t :: before) rest 0 fun w used left => Last w (t :: used) left) :
    Settles (advance >>= f) before (t :: rest) 1 Last := by
  have others := closed.tail inside
  exact Settles.past (fun complaints => advance_over _ _ _ _ inside others.ne_nil) (later others)

end Rules

end Jess.Parser
