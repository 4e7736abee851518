import Jess.Proofs.Growth
import Jess.Proofs.Traces

/-!
# Calls that last

A call lasts from the step that begins it for as long as the machine is in more
calls than what waits for its value. Of the calls that last, the machine runs
the one that it is in one call more for, and there is only one such: a call
opens a scope, so a machine never comes back to where it began one, and a call
that begins later waits inside of the earlier one or after it.
-/

namespace Jess

namespace Account

/-- What one account knows, another one knows as well. Of the calls that were begun, it may forget
those that are left once so many are active. -/
structure Carries (h later : Account) (calls : Nat) : Prop where
  program : later.program = h.program
  seen : ∀ c, h.seen c → later.seen c
  begun : ∀ a, a.waiting.calls < calls → h.begun a → later.begun a
  owns : ∀ r id, h.owns r id → later.owns r id
  holds : ∀ v, h.holds v → later.holds v

variable {h later : Account} {calls : Nat}

theorem Carries.body (carries : h.Carries later calls) (r : Option Activation) :
    later.body r = h.body r := by
  cases r with
  | none => exact carries.program
  | some a => rfl

theorem Carries.fewer (carries : h.Carries later calls) {fewer : Nat} (bound : fewer ≤ calls) :
    h.Carries later fewer :=
  { carries with begun := fun a waits => carries.begun a (Nat.lt_of_lt_of_le waits bound) }

theorem Began.mono {r : Option Activation} {e : Expr} {k : ValueCont} (began : h.Began r e k)
    (carries : h.Carries later calls) : later.Began r e k :=
  ⟨carries.seen _ began.seen, carries.body r ▸ began.inside⟩

theorem GivesBack.mono {r : Option Activation} (gives : h.GivesBack r)
    (carries : h.Carries later calls) : later.GivesBack r := by
  obtain ⟨keyword, value, inside⟩ := gives
  exact ⟨keyword, value, carries.body r ▸ inside⟩

end Account

def Waiting.calls : Waiting → Nat
  | .value k => k.calls
  | .stmt k => k.calls

section Traced

variable {h later : Account} {r : Option Activation}

theorem Waiting.Traced.mono {w : Waiting} (traced : Traced h r w) :
    h.Carries later w.calls → Traced later r w := by
  induction traced with
  | stop => exact fun _ => .stop
  | program listed => exact fun carries => .program (carries.program ▸ listed)
  | discard _ ih => exact fun carries => .discard (ih carries)
  | print _ ih => exact fun carries => .print (ih carries)
  | declare seen inside _ ih =>
      exact fun carries => .declare (carries.seen _ seen) (carries.body _ ▸ inside) (ih carries)
  | branch first second _ ih =>
      exact fun carries => .branch (carries.body _ ▸ first) (carries.body _ ▸ second) (ih carries)
  | test inside _ ih => exact fun carries => .test (carries.body _ ▸ inside) (ih carries)
  | giveBack gives _ ih => exact fun carries => .giveBack (gives.mono carries) (ih carries)
  | unary began _ ih => exact fun carries => .unary (began.mono carries) (ih carries)
  | left began _ ih => exact fun carries => .left (began.mono carries) (ih carries)
  | right began held _ ih =>
      exact fun carries => .right (began.mono carries) (carries.holds _ held) (ih carries)
  | decide inside _ ih => exact fun carries => .decide (carries.body _ ▸ inside) (ih carries)
  | assign began _ ih => exact fun carries => .assign (began.mono carries) (ih carries)
  | callee began _ ih => exact fun carries => .callee (began.mono carries) (ih carries)
  | argument began listed held given _ ih =>
      exact fun carries => .argument (began.mono carries) listed (carries.holds _ held)
        (fun w member => carries.holds w (given w member)) (ih carries)
  | sequence inside _ ih => exact fun carries => .sequence (carries.body _ ▸ inside) (ih carries)
  | again inside _ ih => exact fun carries => .again (carries.body _ ▸ inside) (ih carries)
  | leaveBlock owned _ ih => exact fun carries => .leaveBlock (carries.owns _ _ owned) (ih carries)
  | leaveCall begun owned _ ih =>
      exact fun carries => .leaveCall (carries.begun _ (Nat.lt_succ_self _) begun)
        (carries.owns _ _ owned) (ih (carries.fewer (Nat.le_succ _)))

theorem Control.Traced.mono {c : Control} (traced : c.Traced h r)
    (carries : h.Carries later c.calls) : c.Traced later r := by
  cases traced with
  | evaluate inside waits => exact .evaluate (carries.body r ▸ inside) (waits.mono carries)
  | execute inside waits => exact .execute (carries.body r ▸ inside) (waits.mono carries)
  | deliver held waits => exact .deliver (carries.holds _ held) (waits.mono carries)
  | finish waits => exact .finish (waits.mono carries)
  | giveBack held gives waits =>
      exact .giveBack (carries.holds _ held) (gives.mono carries) (waits.mono carries)
  | raise f waits => exact .raise f (waits.mono carries)
  | abandon f waits => exact .abandon f (waits.mono carries)
  | halted outside gives => exact .halted outside fun v same => (gives v same).mono carries

theorem Machine.Traced.mono {m : Machine} (traced : m.Traced h r)
    (carries : h.Carries later m.activeCalls) : m.Traced later r :=
  ⟨traced.control.mono carries, carries.owns _ _ traced.owned, traced.stored.mono carries.holds⟩

theorem Waiting.Traced.region {w : Waiting} (traced : Traced h r w) :
    (∀ a, r = some a → h.begun a) ∧ w.calls = r.elim 0 fun a => a.waiting.calls + 1 := by
  induction traced with
  | stop => exact ⟨nofun, rfl⟩
  | program _ => exact ⟨nofun, rfl⟩
  | leaveCall begun _ _ _ => exact ⟨fun _ same => Option.some.inj same ▸ begun, rfl⟩
  | _ => assumption

theorem Machine.Traced.region {m : Machine} (traced : m.Traced h r) :
    (∀ a, r = some a → h.begun a) ∧ m.activeCalls = r.elim 0 fun a => a.waiting.calls + 1 := by
  obtain ⟨control, i⟩ := m
  cases traced.control with
  | evaluate _ later => exact later.region
  | execute _ later => exact later.region
  | deliver _ later => exact later.region
  | finish later => exact later.region
  | giveBack _ _ later => exact later.region
  | raise _ later => exact later.region
  | abandon _ later => exact later.region
  | halted outside _ =>
      subst outside
      exact ⟨nofun, rfl⟩

end Traced

namespace Machine

theorem Reaches.invariant {start m : Machine} {P : Machine → Prop} (reaches : Reaches start m)
    (here : P start) (next : ∀ n, Reaches start n → P n → P n.step) : P m := by
  induction reaches with
  | refl => exact here
  | step _ ih => exact ih (next _ .refl here) fun n later => next n (.step later)

theorem Reaches.next {start m : Machine} (reaches : Reaches start m) : Reaches start m.step :=
  reaches.trans (.step .refl)

theorem reaches_iterate (m : Machine) (steps : Nat) : Reaches m (step^[steps] m) := by
  induction steps generalizing m with
  | zero => exact .refl
  | succ steps ih => exact .step (ih m.step)

theorem Reaches.total {start m n : Machine} (first : Reaches start m) (second : Reaches start n) :
    Reaches m n ∨ Reaches n m := by
  induction first with
  | refl => exact .inl second
  | step later ih =>
      cases second with
      | refl => exact .inr (.step later)
      | step second => exact ih second

theorem Reaches.traced {h : Machine → Account} {start m : Machine} (reaches : Reaches start m)
    {r : Option Activation} (begins : start.Traced (h start) r)
    (covers : ∀ n r, Reaches start n → n.Traced (h n) r → (h n).Covers r n)
    (carries : ∀ n, Reaches start n → (h n).Carries (h n.step) n.step.activeCalls) :
    ∃ r, m.Traced (h m) r := by
  refine reaches.invariant (P := fun m => ∃ r, m.Traced (h m) r) ⟨r, begins⟩ ?_
  rintro n reached ⟨r, traced⟩
  obtain ⟨r, next⟩ := traced.step (covers n r reached traced)
  exact ⟨r, next.mono (carries n reached)⟩

theorem Calls.unique {m : Machine} {callee other : Value} {args values : List Value}
    (first : m.Calls callee args) (second : m.Calls other values) : callee = other := by
  cases first <;> cases second <;> rfl

theorem Traced.callee_held {m : Machine} {h : Account} {r : Option Activation}
    (traced : m.Traced h r) {callee : Value} {args : List Value} (calls : m.Calls callee args) :
    h.holds callee := by
  have runs := traced.control
  cases calls with
  | bare callee paren k i =>
      cases runs with
      | deliver held _ => exact held
  | given callee last done paren k i =>
      cases runs with
      | deliver _ later =>
          cases later with
          | argument _ _ held _ _ => exact held

/-- All machines on the way from one to the other are in at least so many calls. -/
inductive During (calls : Nat) : Machine → Machine → Prop
  | here {m : Machine} (active : calls ≤ m.activeCalls) : During calls m m
  | step {m n : Machine} (active : calls ≤ m.activeCalls) (later : During calls m.step n) :
      During calls m n

section During

variable {calls : Nat} {m n p : Machine}

theorem During.reaches (during : During calls m n) : Reaches m n := by
  induction during with
  | here _ => exact .refl
  | step _ _ ih => exact .step ih

theorem During.next (during : During calls m n) (active : calls ≤ n.step.activeCalls) :
    During calls m n.step := by
  induction during with
  | here now => exact .step now (.here active)
  | step now _ ih => exact .step now (ih active)

/-- A machine that is reached is on the way, or it comes after the end of the way. -/
theorem During.meets (during : During calls m n) (reaches : Reaches m p) :
    calls ≤ p.activeCalls ∨ Reaches n p := by
  induction during with
  | here _ => exact .inr reaches
  | step now _ ih =>
      cases reaches with
      | refl => exact .inl now
      | step later => exact ih later

end During

end Machine

namespace Activation

open Machine

variable {a b : Activation} {start m n p : Machine}

/-- Where a call begins, its parameters are bound in a scope of their own, and the machine is in
no call yet that what waits for the value is not in. -/
theorem Begins.entry (begins : a.Begins m) :
    m.activeCalls = a.waiting.calls ∧ ∃ args j,
      (m.interpreter.enter a.closure).bindParams (a.function.params.zip args) = (j, none) ∧
        m.step.interpreter = { j with depth := j.depth + 1 } := by
  obtain ⟨⟨identity, args, calls⟩, _, enters⟩ := begins
  -- Whatever delivers the last part of the call, what waits for its value is what waits here.
  suffices starts : ∃ paren k, m.step = call (.callable identity (.function a.function a.closure))
      args paren k m.interpreter ∧ m.activeCalls = k.calls by
    obtain ⟨paren, k, step, active⟩ := starts
    rw [step] at enters ⊢
    obtain ⟨cause, raises⟩ | starts := call_callable_cases identity
      (.function a.function a.closure) args paren k m.interpreter
    · rw [raises] at enters
      cases enters
    · simp only at starts
      rw [starts] at enters ⊢
      cases bound : (m.interpreter.enter a.closure).bindParams (a.function.params.zip args) with
      | mk j clash =>
          cases clash with
          | none =>
              rw [callFunction_bound bound] at enters ⊢
              have waits : k = a.waiting := by
                injection enters with _ behind
                injection behind with _ behind
                injection behind
              exact ⟨active.trans (congrArg ValueCont.calls waits), args, j, bound, rfl⟩
          | some clash =>
              rw [callFunction_clash bound] at enters
              cases enters
  cases calls with
  | bare _ paren k i => exact ⟨paren, k, rfl, rfl⟩
  | given _ last done paren k i => exact ⟨paren, k, rfl, rfl⟩

theorem Begins.active (begins : a.Begins m) : m.step.activeCalls = a.waiting.calls + 1 :=
  congrArg Control.calls begins.enters

theorem Begins.opens (begins : a.Begins m) :
    m.interpreter.store.size < m.step.interpreter.store.size := by
  obtain ⟨_, args, j, bound, step⟩ := begins.entry
  have grown := ((m.interpreter.enter a.closure).bindParams_grows (a.function.params.zip args)).size
  rw [bound] at grown
  rw [step]
  exact Nat.lt_of_lt_of_le (Nat.lt_of_lt_of_eq (Nat.lt_succ_self _)
    (m.interpreter.store.openScope_size (some a.closure)).symm) grown

theorem Begins.unique (first : a.Begins m) (second : b.Begins m) : a = b := by
  obtain ⟨⟨identity, args, calls⟩, home, enters⟩ := first
  obtain ⟨⟨identity', args', calls'⟩, home', enters'⟩ := second
  have called := calls.unique calls'
  have waits : Control.finish .normal (.sequence a.function.body (.leaveCall a.home a.waiting)) =
      .finish .normal (.sequence b.function.body (.leaveCall b.home b.waiting)) :=
    enters.symm.trans enters'
  obtain ⟨f, closure, h, k⟩ := a
  obtain ⟨f', closure', h', k'⟩ := b
  cases called
  cases waits
  rfl

/-- A call that the machine began on its way, and that it has not left since then. -/
def Lasts (a : Activation) (start m : Machine) : Prop :=
  ∃ n, Reaches start n ∧ a.Begins n ∧ During (a.waiting.calls + 1) n.step m

/-- The call that the machine is in right now. -/
structure Runs (a : Activation) (start m : Machine) : Prop where
  lasts : a.Lasts start m
  innermost : m.activeCalls = a.waiting.calls + 1

theorem Lasts.reaches (lasts : a.Lasts start m) : Reaches start m := by
  obtain ⟨n, reaches, _, during⟩ := lasts
  exact reaches.next.trans during.reaches

theorem Lasts.next (lasts : a.Lasts start m) (active : a.waiting.calls < m.step.activeCalls) :
    a.Lasts start m.step := by
  obtain ⟨n, reaches, begins, during⟩ := lasts
  exact ⟨n, reaches, begins, during.next active⟩

theorem Begins.lasts (begins : a.Begins m) (reaches : Reaches start m) : a.Lasts start m.step :=
  ⟨m, reaches, begins, .here (Nat.le_of_eq begins.active.symm)⟩

theorem Begins.not_during (begins : b.Begins n) (later : Reaches n.step m)
    (during : During (b.waiting.calls + 1) p m) (reaches : Reaches p n) : False := by
  obtain active | after := during.meets reaches
  · rw [begins.entry.1] at active
    exact Nat.not_succ_le_self _ active
  · exact Nat.lt_irrefl _ (Nat.lt_of_lt_of_le begins.opens (later.trans after).grows.size)

theorem Runs.unique (first : a.Runs start m) (second : b.Runs start m) : a = b := by
  obtain ⟨⟨n, reaches, begins, during⟩, innermost⟩ := first
  obtain ⟨⟨p, reaches', begins', during'⟩, innermost'⟩ := second
  have same : a.waiting.calls = b.waiting.calls := Nat.succ.inj (innermost.symm.trans innermost')
  obtain before | before := reaches.total reaches'
  · cases before with
    | refl => exact begins.unique begins'
    | step later => exact (begins'.not_during during'.reaches (same ▸ during) later).elim
  · cases before with
    | refl => exact begins.unique begins'
    | step later => exact (begins.not_during during.reaches (same ▸ during') later).elim

/-- An account knows of a call from the step that begins it on. -/
def IsBegun (a : Activation) (start m : Machine) : Prop := a.Begins m ∨ a.Lasts start m

theorem IsBegun.next (begun : a.IsBegun start m) (reaches : Reaches start m)
    (active : a.waiting.calls < m.step.activeCalls) : a.IsBegun start m.step := by
  obtain begins | lasts := begun
  · exact .inr (begins.lasts reaches)
  · exact .inr (lasts.next active)

/-- A machine that can be traced back to the calls of its run runs the call that it is in. -/
theorem runs_of_traced {h : Account} (known : ∀ b, h.begun b → b.IsBegun start m)
    (traced : m.Traced h (some a)) : a.Runs start m := by
  obtain ⟨begun, active⟩ := traced.region
  obtain begins | lasts := known a (begun a rfl)
  · exact absurd (begins.entry.1.symm.trans active) (Nat.ne_of_lt (Nat.lt_succ_self _))
  · exact ⟨lasts, active⟩

end Activation

end Jess
