import Jess.Proofs.Beginnings
import Jess.Proofs.Filing
import Jess.Proofs.Settling

/-!
# Parsers that give up at the first token that cannot follow

A parser tracks a language at a place, in front of another language that says
what may come behind. Either it goes past a word, and then whatever the token
ahead can begin is left to what comes behind, or the first complaint that makes
it give up is at a token that cannot stand there, while up to that token all
could still have been completed. Both languages together say what the tokens
from the place on may be, so the judgment is exact in both directions. It passes
from the parts of a parser to the whole, and it says nothing of a parser that
runs out of depth.
-/

namespace Jess.Parser

open Token (Kind)
open Grammar.Lenient

abbrev kinds (tokens : List Token) : List Kind := tokens.map Token.kind

/-- No complaint among these gives up a statement. -/
def Harmless (filed : Array Complaint) : Prop := ∀ c ∈ filed, c.mistake.unwinds = false

theorem harmless_empty : Harmless #[] := fun _ member => absurd member (Array.not_mem_empty _)

theorem Harmless.append {filed more : Array Complaint} (first : Harmless filed)
    (second : Harmless more) : Harmless (filed ++ more) := by
  intro c member
  rcases Array.mem_append.mp member with inFirst | inSecond
  · exact first c inFirst
  · exact second c inSecond

/-- The tokens gone past are a word, and what the token ahead begins is left to what comes
behind. -/
structure Accepts (L K : Language Kind) (used rest : List Token) : Prop where
  word : kinds used ∈ L
  ahead : ∀ t ∈ rest.head?, ∀ w, kinds used ++ t.kind :: w ∈ L * K → t.kind :: w ∈ K

/-- What was gone past can be completed, but not with the token that comes next. -/
structure Rejects (L K : Language Kind) (used : List Token) (t : Token) : Prop where
  viable : ∃ w, kinds used ++ w ∈ L * K
  stuck : ∀ w, kinds used ++ t.kind :: w ∉ L * K

section Languages

variable {A B L K : Language Kind} {used others rest left : List Token} {t u : Token}

theorem exists_head (others : List Token) (ahead : u ∈ left.head?) (w : List Kind) :
    ∃ t ∈ (others ++ left).head?, ∃ v, kinds others ++ u.kind :: w = t.kind :: v := by
  cases others with
  | nil => exact ⟨u, ahead, w, rfl⟩
  | cons t _ => exact ⟨t, rfl, _, rfl⟩

theorem Accepts.mul (first : Accepts A (B * K) used (others ++ left))
    (second : Accepts B K others left) : Accepts (A * B) K (used ++ others) left where
  word := by
    rw [kinds, List.map_append]
    exact Language.append_mem_mul first.word second.word
  ahead u ahead w member := by
    obtain ⟨t, headed, v, same⟩ := exists_head others ahead w
    rw [kinds, List.map_append, List.append_assoc, same, mul_assoc] at member
    have behind := first.ahead t headed v member
    rw [← same] at behind
    exact second.ahead u ahead w behind

theorem Rejects.mul (first : Accepts A (B * K) used (others ++ t :: left))
    (second : Rejects B K others t) : Rejects (A * B) K (used ++ others) t where
  viable := by
    obtain ⟨w, member⟩ := second.viable
    refine ⟨w, ?_⟩
    rw [kinds, List.map_append, List.append_assoc, mul_assoc]
    exact Language.append_mem_mul first.word member
  stuck w member := by
    have ahead : t ∈ (t :: left).head? := rfl
    obtain ⟨u, headed, v, same⟩ := exists_head others ahead w
    rw [kinds, List.map_append, List.append_assoc, same, mul_assoc] at member
    have behind := first.ahead u headed v member
    rw [← same] at behind
    exact second.stuck w behind

theorem Accepts.narrow (within : A ≤ L)
    (chosen : ∀ t ∈ (used ++ left).head?, ∀ w, t.kind :: w ∈ L * K → t.kind :: w ∈ A * K)
    (accepts : Accepts A K used left) : Accepts L K used left where
  word := within accepts.word
  ahead u ahead w member := by
    obtain ⟨t, headed, v, same⟩ := exists_head used ahead w
    rw [same] at member
    have narrower := chosen t headed v member
    rw [← same] at narrower
    exact accepts.ahead u ahead w narrower

theorem Rejects.narrow (within : A ≤ L)
    (chosen : ∀ t ∈ (used ++ u :: left).head?, ∀ w, t.kind :: w ∈ L * K → t.kind :: w ∈ A * K)
    (rejects : Rejects A K used u) : Rejects L K used u where
  viable := by
    obtain ⟨w, member⟩ := rejects.viable
    exact ⟨w, mul_le_mul_left within K member⟩
  stuck w member := by
    have ahead : u ∈ (u :: left).head? := rfl
    obtain ⟨t, headed, v, same⟩ := exists_head used ahead w
    rw [same] at member
    have narrower := chosen t headed v member
    rw [← same] at narrower
    exact rejects.stuck w narrower

end Languages

def Gained (L K : Language Kind) (before pending : List Token) (complaints : Array Complaint)
    (s : State) : Prop :=
  ∃ used rest filed, Passes before pending s.cursor used rest ∧
    s.complaints = complaints ++ filed ∧ Harmless filed ∧ Accepts L K used rest

/-- The first new complaint that gives up a statement is at a token that cannot stand there. -/
def Missed (L K : Language Kind) (pending : List Token) (complaints : Array Complaint)
    (s : State) : Prop :=
  ∃ used t rest filed what more, pending = used ++ t :: rest ∧ Rejects L K used t ∧
    Harmless filed ∧ s.complaints = complaints ++ filed ++ #[⟨t, .expected what⟩] ++ more

/-- What a parser that tracks a language leaves behind: see the head of the file. -/
def Tracked {α : Type} (L K : Language Kind) (before pending : List Token)
    (complaints : Array Complaint) : EStateM.Result Stop State α → Prop
  | .ok _ s => Gained L K before pending complaints s ∨ Missed L K pending complaints s
  | .error .unwound s => Missed L K pending complaints s
  | .error .tooDeep _ => True

def Tracks {α : Type} (p : Parser α) (L K : Language Kind) (before pending : List Token) : Prop :=
  ∀ complaints, Tracked L K before pending complaints (p (.over before pending complaints))

abbrev Follows {α : Type} (p : Parser α) (L K : Language Kind) : Prop :=
  ∀ {before pending}, Closed pending → Tracks p L K before pending

section Tracked

variable {α : Type} {A B L K : Language Kind} {before pending used rest : List Token}
  {complaints filed : Array Complaint} {s : State} {result : EStateM.Result Stop State α}

theorem Missed.narrow (within : A ≤ L)
    (chosen : ∀ t ∈ pending.head?, ∀ w, t.kind :: w ∈ L * K → t.kind :: w ∈ A * K)
    (missed : Missed A K pending complaints s) : Missed L K pending complaints s := by
  obtain ⟨used, t, left, filed, what, more, rfl, rejects, harmless, grown⟩ := missed
  exact ⟨used, t, left, filed, what, more, rfl, rejects.narrow within chosen, harmless, grown⟩

theorem Tracked.narrow (within : A ≤ L)
    (chosen : ∀ t ∈ pending.head?, ∀ w, t.kind :: w ∈ L * K → t.kind :: w ∈ A * K)
    (tracked : Tracked A K before pending complaints result) :
    Tracked L K before pending complaints result := by
  cases result with
  | ok v s =>
      rcases tracked with ⟨used, left, filed, passes, grown, harmless, accepts⟩ | missed
      · rw [passes.split] at chosen
        exact .inl ⟨used, left, filed, passes, grown, harmless, accepts.narrow within chosen⟩
      · exact .inr (missed.narrow within chosen)
  | error stop s =>
      cases stop with
      | unwound => exact Missed.narrow within chosen tracked
      | tooDeep => trivial

theorem Missed.behind (split : pending = used ++ rest) (harmless : Harmless filed)
    (accepts : Accepts A (B * K) used rest) (missed : Missed B K rest (complaints ++ filed) s) :
    Missed (A * B) K pending complaints s := by
  obtain ⟨others, t, left, filed', what, more, rfl, rejects, harmless', grown⟩ := missed
  refine ⟨used ++ others, t, left, filed ++ filed', what, more, by simp [split],
    rejects.mul accepts, harmless.append harmless', ?_⟩
  rw [grown]
  simp only [Array.append_assoc]

theorem Tracked.behind (split : pending = used ++ rest) (harmless : Harmless filed)
    (accepts : Accepts A (B * K) used rest)
    (tracked : Tracked B K (used.reverse ++ before) rest (complaints ++ filed) result) :
    Tracked (A * B) K before pending complaints result := by
  cases result with
  | ok v s =>
      rcases tracked with gained | missed
      · obtain ⟨others, left, filed', ⟨split', closed, place⟩, grown, harmless', accepts'⟩ := gained
        subst split'
        refine .inl ⟨used ++ others, left, filed ++ filed', ⟨by simp [split], closed, ?_⟩,
          by rw [grown, Array.append_assoc], harmless.append harmless', accepts.mul accepts'⟩
        rw [place, List.reverse_append, List.append_assoc]
      · exact .inr (missed.behind split harmless accepts)
  | error stop s =>
      cases stop with
      | unwound => exact Missed.behind split harmless accepts tracked
      | tooDeep => trivial

theorem Missed.within (missed : Missed A (B * K) pending complaints s) :
    Missed (A * B) K pending complaints s := by
  obtain ⟨used, t, rest, filed, what, more, split, ⟨viable, stuck⟩, harmless, grown⟩ := missed
  rw [← mul_assoc] at viable stuck
  exact ⟨used, t, rest, filed, what, more, split, ⟨viable, stuck⟩, harmless, grown⟩

theorem Missed.keeps {p : Parser α} (keep : Keeps p) (missed : Missed L K pending complaints s) :
    Tracked L K before pending complaints (p s) := by
  obtain ⟨used, t, rest, filed, what, more, split, rejects, harmless, grown⟩ := missed
  obtain ⟨others, grownLater⟩ := keep.grows s
  rw [grown, Array.append_assoc] at grownLater
  have still : Missed L K pending complaints (leaves (p s)) :=
    ⟨used, t, rest, filed, what, more ++ others, split, rejects, harmless, grownLater⟩
  match p s, still with
  | .ok _ _, still => exact .inr still
  | .error .unwound _, still => exact still
  | .error .tooDeep _, _ => trivial

end Tracked

section Rules

variable {α β : Type} {A B L K : Language Kind} {before pending rest : List Token} {t : Token}
  {kind : Kind}

theorem tracks_tooDeep : Tracks (tooDeep : Parser α) L K before pending := fun _ => trivial

theorem tracks_pure {v : α} (closed : Closed pending) : Tracks (pure v) 1 K before pending := by
  intro complaints
  refine .inl ⟨[], pending, #[], ⟨rfl, closed, rfl⟩, Array.append_empty.symm, harmless_empty, rfl,
    fun t _ w member => ?_⟩
  rwa [one_mul] at member

theorem tracks_fail {what : Expectation} [viable : Productive (L * K)]
    (stuck : ∀ w, t.kind :: w ∉ L * K) :
    Tracks (fail what : Parser α) L K before (t :: rest) := by
  intro complaints
  exact ⟨[], t, rest, #[], what, #[], rfl, ⟨viable.exists_word, stuck⟩, harmless_empty,
    by simp [Cursor.over]⟩

/-- The token ahead may tell that only a part of a language is left. -/
theorem Tracks.narrow {p : Parser α} (tracks : Tracks p A K before (t :: rest)) (within : A ≤ L)
    (chosen : ∀ w, t.kind :: w ∈ L * K → t.kind :: w ∈ A * K) :
    Tracks p L K before (t :: rest) := fun complaints =>
  (tracks complaints).narrow within fun _ headed => by
    cases headed
    exact chosen

theorem Tracks.without {p : Parser α} (tracks : Tracks p B K before (t :: rest))
    (apart : ∀ w, t.kind :: w ∉ A * B * K) : Tracks p ((1 + A) * B) K before (t :: rest) := by
  rw [one_add_mul]
  refine tracks.narrow (fun _ member => .inl member) fun w member => ?_
  rw [add_mul] at member
  exact member.resolve_right (apart w)

/-- What may be left out is there if nothing behind it begins here. -/
theorem Tracks.within {p : Parser α} (tracks : Tracks p (A * B) K before (t :: rest))
    (apart : ∀ w, t.kind :: w ∉ B * K) : Tracks p ((1 + A) * B) K before (t :: rest) := by
  rw [one_add_mul]
  refine tracks.narrow (fun _ member => .inr member) fun w member => ?_
  rw [add_mul] at member
  exact member.resolve_left (apart w)

theorem Tracks.absent {p : Parser α} (tracks : Tracks p 1 K before (t :: rest))
    (apart : ∀ w, t.kind :: w ∉ A * K) : Tracks p (1 + A) K before (t :: rest) := by
  have alone := tracks.without (A := A) (by rwa [mul_one])
  rwa [mul_one] at alone

theorem Tracks.present {p : Parser α} (tracks : Tracks p A K before (t :: rest))
    (apart : ∀ w, t.kind :: w ∉ K) : Tracks p (1 + A) K before (t :: rest) := by
  rw [← mul_one A] at tracks
  have alone := tracks.within (by rwa [one_mul])
  rwa [mul_one] at alone

theorem Tracks.choose {p : Parser α} {Starts : Kind → Prop}
    (tracks : Tracks p A K before (t :: rest)) (begins : Begins L Starts) (within : A ≤ L)
    (chosen : ∀ w, t.kind :: w ∈ L → t.kind :: w ∈ A) : Tracks p L K before (t :: rest) := by
  refine tracks.narrow within ?_
  rintro w ⟨front, member, back, behind, joined⟩
  cases front with
  | nil => exact absurd member begins.nonempty
  | cons _ front =>
      cases joined
      exact Language.append_mem_mul (chosen front member) behind

/-- One parser after another tracks one language after another. What may come behind the first
one begins with what the second one tracks. -/
theorem Tracks.bindKeeping {p : Parser α} {f : α → Parser β} (keep : ∀ v, Keeps (f v))
    (first : Tracks p A (B * K) before pending) (second : ∀ v, Follows (f v) B K) :
    Tracks (p >>= f) (A * B) K before pending := by
  intro complaints
  have tracked := first complaints
  rw [bind_apply]
  cases run : p (.over before pending complaints) with
  | error stop s =>
      rw [run] at tracked
      cases stop with
      | unwound => exact Missed.within tracked
      | tooDeep => trivial
  | ok v s =>
      rw [run] at tracked
      rcases tracked with gained | missed
      · obtain ⟨used, rest, filed, ⟨split, closed, place⟩, grown, harmless, accepts⟩ := gained
        obtain ⟨cursor, filedSoFar⟩ := s
        cases place
        cases grown
        exact (second v closed _).behind split harmless accepts
      · exact missed.within.keeps (keep v)

theorem Tracks.bind {p : Parser α} {f : α → Parser β} [∀ v, Keeps (f v)]
    (first : Tracks p A (B * K) before pending) (second : ∀ v, Follows (f v) B K) :
    Tracks (p >>= f) (A * B) K before pending := .bindKeeping inferInstance first second

/-- A parser that goes past nothing may come last. -/
theorem Tracks.finishKeeping {p : Parser α} {f : α → Parser β} (keep : ∀ v, Keeps (f v))
    (first : Tracks p L K before pending) (second : ∀ v, Follows (f v) 1 K) :
    Tracks (p >>= f) L K before pending := by
  rw [← one_mul K] at first
  have both := first.bindKeeping keep second
  rwa [mul_one] at both

theorem Tracks.finish {p : Parser α} {f : α → Parser β} [∀ v, Keeps (f v)]
    (first : Tracks p L K before pending) (second : ∀ v, Follows (f v) 1 K) :
    Tracks (p >>= f) L K before pending := .finishKeeping inferInstance first second

theorem Tracks.map {p : Parser α} {f : α → β} (tracks : Tracks p L K before pending) :
    Tracks (f <$> p) L K before pending := by
  rw [map_eq_pure_bind]
  exact tracks.finish fun _ _ _ closed => tracks_pure closed

theorem Tracks.look {p : Parser α} {f : α → Parser β} {v : α}
    (looked : ∀ complaints, p (.over before pending complaints) =
      .ok v (.over before pending complaints))
    (later : Tracks (f v) L K before pending) : Tracks (p >>= f) L K before pending := by
  intro complaints
  rw [bind_of_ok (looked complaints)]
  exact later complaints

/-- Recovery loses no complaint. -/
theorem Tracks.recovering {p : Parser α} (tracks : Tracks p L K before pending) :
    Tracks (recovering p) L K before pending := by
  intro complaints
  have tracked := tracks complaints
  rw [Parser.recovering]
  cases run : p (.over before pending complaints) with
  | ok v s =>
      rw [run] at tracked
      exact tracked
  | error stop s =>
      rw [run] at tracked
      cases stop with
      | unwound => exact .inr tracked
      | tooDeep => trivial

theorem Tracks.report {token : Token} {mistake : Mistake} {f : Unit → Parser β}
    (harmless : mistake.unwinds = false) (later : Tracks (f ()) L K before pending) :
    Tracks (report token mistake >>= f) L K before pending := by
  intro complaints
  have nothing : Accepts 1 (L * K) [] pending :=
    ⟨rfl, fun t _ w member => by rwa [one_mul] at member⟩
  have one : Harmless #[⟨token, mistake⟩] := by
    intro c member
    rw [Array.mem_singleton.mp member]
    exact harmless
  have tracked : Tracked L K (([] : List Token).reverse ++ before) pending
      (complaints ++ #[⟨token, mistake⟩]) _ := later (complaints.push ⟨token, mistake⟩)
  have whole := tracked.behind rfl one nothing
  rwa [one_mul] at whole

theorem Tracks.past {p : Parser α} {f : α → Parser β} {v : α}
    (stepped : ∀ complaints, p (.over before (t :: rest) complaints) =
      .ok v (.over (t :: before) rest complaints))
    (same : t.kind = kind) (later : Tracks (f v) B K (t :: before) rest) :
    Tracks (p >>= f) (just kind * B) K before (t :: rest) := by
  intro complaints
  have token : Accepts (just kind) (B * K) [t] rest :=
    ⟨congrArg (fun k => [k]) same, fun u _ w member => (cons_mem_just_mul.mp member).2⟩
  have nothing : complaints ++ #[] = complaints := Array.append_empty
  have tracked : Tracked B K ([t].reverse ++ before) rest (complaints ++ #[]) _ :=
    nothing.symm ▸ later complaints
  rw [bind_of_ok (stepped complaints)]
  exact tracked.behind rfl harmless_empty token

section Steps

variable (closed : Closed (t :: rest))

include closed

theorem Tracks.advance {f : Token → Parser β} (same : t.kind = kind) (inside : kind ≠ .eof)
    (later : Closed rest → Tracks (f t) B K (t :: before) rest) :
    Tracks (Parser.advance >>= f) (just kind * B) K before (t :: rest) := by
  have others := closed.tail (same ▸ inside)
  exact Tracks.past (fun _ => advance_over _ _ _ _ (same ▸ inside) others.ne_nil) same
    (later others)

theorem Tracks.takes {f : Token → Parser β} (same : t.kind = kind) (inside : kind ≠ .eof)
    (later : ∀ v, Follows (f v) 1 K) :
    Tracks (Parser.advance >>= f) (just kind) K before (t :: rest) := by
  have whole : Tracks (Parser.advance >>= f) (just kind * 1) K before (t :: rest) :=
    Tracks.advance closed same inside fun others => later t others
  rwa [mul_one] at whole

theorem Tracks.eats {f : Bool → Parser β} (same : t.kind = kind) (inside : kind ≠ .eof)
    (later : Closed rest → Tracks (f true) B K (t :: before) rest) :
    Tracks (eat kind >>= f) (just kind * B) K before (t :: rest) := by
  have others := closed.tail (same ▸ inside)
  exact Tracks.past (fun _ => eat_over _ _ _ _ same inside others.ne_nil) same
    (later others)

theorem Tracks.expects {what : Expectation} {f : Token → Parser β} (inside : kind ≠ .eof)
    [Productive (just kind * B * K)]
    (later : t.kind = kind → Closed rest → Tracks (f t) B K (t :: before) rest) :
    Tracks (expect kind what >>= f) (just kind * B) K before (t :: rest) := by
  by_cases same : t.kind = kind
  · have others := closed.tail (same ▸ inside)
    exact Tracks.past (fun _ => expect_over _ _ _ _ same inside others.ne_nil) same
      (later same others)
  · intro complaints
    rw [bind_apply, expect_over_of_ne before rest t complaints same]
    have fails : Tracks (fail what : Parser β) (just kind * B) K before (t :: rest) := by
      refine tracks_fail fun w member => ?_
      rw [mul_assoc] at member
      exact same (cons_mem_just_mul.mp member).1
    exact fails complaints

theorem Tracks.ends {what : Expectation} {f : Token → Parser β} (inside : kind ≠ .eof)
    [Productive K] (later : ∀ v, Follows (f v) 1 K) :
    Tracks (expect kind what >>= f) (just kind) K before (t :: rest) := by
  have whole : Tracks (expect kind what >>= f) (just kind * 1) K before (t :: rest) :=
    Tracks.expects closed inside fun _ others => later t others
  rwa [mul_one] at whole

omit closed in
theorem Tracks.checks {f : Bool → Parser β}
    (found : t.kind = kind → Tracks (f true) L K before (t :: rest))
    (missing : t.kind ≠ kind → Tracks (f false) L K before (t :: rest)) :
    Tracks (check kind >>= f) L K before (t :: rest) := by
  apply Tracks.look (v := t.kind == kind) fun _ => check_over ..
  by_cases same : t.kind = kind
  · rw [beq_iff_eq.mpr same]
    exact found same
  · rw [beq_eq_false_iff_ne.mpr same]
    exact missing same

omit closed in
theorem Tracks.skips {f : Bool → Parser β} (other : t.kind ≠ kind)
    (later : Tracks (f false) L K before (t :: rest)) :
    Tracks (eat kind >>= f) L K before (t :: rest) :=
  Tracks.look (fun _ => eat_over_of_ne _ _ _ _ other) later

end Steps

end Rules

end Jess.Parser
