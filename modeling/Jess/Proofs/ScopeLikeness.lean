import Jess.Proofs.Likeness
import Jess.Proofs.Scopes

/-!
# Stores that behave alike

A name stands for the same thing in two stores that behave alike: the empty
scopes of the second one are passed over on the way to the binding. Both
stores stay alike when a scope that holds bindings is changed in the same way
in both, and when both open a scope, or the second one alone opens one that
stays empty.
-/

namespace Jess

variable {free : Freedom} {c d : Chart}

namespace Chart

variable {first parent n : Nat}

@[simp] theorem grow_seat_size : (c.grow first).seat c.size = first := if_pos rfl

@[simp] theorem grow_own_size : (c.grow first).own c.size = true := if_pos rfl

theorem grow_seat_of_ne (old : n ≠ c.size) : (c.grow first).seat n = c.seat n := if_neg old

theorem grow_own_of_ne (old : n ≠ c.size) : (c.grow first).own n = c.own n := if_neg old

@[simp] theorem pad_seat_size : (c.pad parent).seat c.size = c.seat parent := if_pos rfl

@[simp] theorem pad_own_size : (c.pad parent).own c.size = false := if_pos rfl

theorem pad_seat_of_ne (old : n ≠ c.size) : (c.pad parent).seat n = c.seat n := if_neg old

theorem pad_own_of_ne (old : n ≠ c.size) : (c.pad parent).own n = c.own n := if_neg old

theorem lt_of_ne {size : Nat} (known : n < size + 1) (old : n ≠ size) : n < size := by omega

end Chart

theorem Chart.Seats.extend {first second : Nat} (seats : c.Seats free first second)
    (extends_ : Chart.Extends free c d) : d.Seats free first second where
  seat := (extends_.seat second seats.inside).trans seats.seat
  inside blocks := Nat.lt_of_lt_of_le (seats.inside blocks) extends_.size

theorem Value.Like.extend {v w : Value} (like : Value.Like free c v w)
    (extends_ : Chart.Extends free c d) : Value.Like free d v w := by
  cases like with
  | number x => exact .number x
  | string s => exact .string s
  | boolean b => exact .boolean b
  | nil => exact .nil
  | native identity n => exact .native identity n
  | function identity like closure => exact .function identity like (closure.extend extends_)

theorem values_extend {vs ws : List Value} (like : List.Forall₂ (Value.Like free c) vs ws)
    (extends_ : Chart.Extends free c d) : List.Forall₂ (Value.Like free d) vs ws :=
  like.imp fun _ _ one => one.extend extends_

theorem ParentsLike.extend {p q : Option Nat} (like : ParentsLike free c p q)
    (extends_ : Chart.Extends free c d) : ParentsLike free d p q := by
  cases like with
  | none => exact .none
  | some seats => exact .some (seats.extend extends_)

theorem Scope.Like.extend {s r : Scope} (like : Scope.Like free c s r)
    (extends_ : Chart.Extends free c d) : Scope.Like free d s r where
  bindings := like.bindings.imp fun _ _ one => ⟨one.1, one.2.extend extends_⟩
  parent := like.parent.extend extends_

theorem lookup_like {bs ds : List (String × Value)} (like : List.Forall₂ (BindsLike free c) bs ds)
    (name : String) :
    Option.Rel (Value.Like free c) (bs.lookup name) (ds.lookup name) := by
  induction like with
  | nil => exact .none
  | @cons b d _ _ first _ ih =>
      obtain ⟨key, v⟩ := b
      obtain ⟨key', w⟩ := d
      obtain ⟨same, one⟩ := first
      simp only at same one
      subst same
      rw [List.lookup_cons, List.lookup_cons]
      split
      · exact .some one
      · exact ih

theorem Scope.Like.binds {s r : Scope} (like : Scope.Like free c s r) (name : String) :
    s.binds name = r.binds name := by
  have found := lookup_like like.bindings name
  unfold Scope.binds Scope.get?
  revert found
  generalize s.bindings.lookup name = x
  generalize r.bindings.lookup name = y
  intro found
  cases found <;> rfl

section Stores

variable {s r : Store}

theorem Store.Like.seats_eq (like : Store.Like free c s r) (fixed : free ≠ .blocks)
    {first second : Nat} (seats : c.Seats free first second) : second = first := by
  have same := seats.seat
  rwa [(like.fixed fixed).2.1] at same

theorem Store.Like.missing (like : Store.Like free c s r) {first second : Nat}
    (seats : c.Seats free first second) (missing : r.scopes[second]? = none) :
    s.scopes[first]? = none := by
  have outside : r.size ≤ second := Array.getElem?_eq_none_iff.mp missing
  rw [like.size] at outside
  have fixed : free ≠ .blocks := fun blocks => absurd (seats.inside blocks) (by omega)
  rw [Array.getElem?_eq_none_iff]
  have sizes := (like.fixed fixed).1
  rw [Store.size] at sizes
  have same := like.seats_eq fixed seats
  omega

theorem Store.Like.parent_inside (like : Store.Like free c s r) {n parent : Nat} {scope : Scope}
    (found : r.scopes[n]? = some scope) (enclosed : scope.parent = some parent) :
    parent < c.size := by
  have below := r.parent_lt n scope parent found enclosed
  have inside : n < r.scopes.size := (Array.getElem?_eq_some_iff.mp found).1
  have sizes := like.size
  rw [Store.size] at sizes
  omega

/-- The binding of a name is in scopes of which one holds the bindings of the other. -/
inductive HomesLike (c : Chart) : Option Nat → Option Nat → Prop
  | none : HomesLike c none none
  | some {home : Nat} (own : c.own home = true) (inside : home < c.size) :
      HomesLike c (some (c.seat home)) (some home)

/-- A name stands for the same binding in both stores. -/
theorem Store.Like.resolve (like : Store.Like free c s r) (name : String) (second : Nat) :
    ∀ first, c.Seats free first second →
      HomesLike c (s.resolve first name) (r.resolve second name) := by
  -- The search goes up in the second store, and passes by the scopes that were only added.
  induction second using Nat.strongRecOn with
  | ind second ih =>
      intro first seats
      cases found : r.scopes[second]? with
      | none =>
          rw [s.resolve_missing name (like.missing seats found), r.resolve_missing name found]
          exact .none
      | some scope =>
          have bound : second < r.scopes.size := (Array.getElem?_eq_some_iff.mp found).1
          have inside : second < c.size := by
            have sizes := like.size
            rw [Store.size] at sizes
            omega
          have same := seats.seat
          cases own : c.own second with
          | true =>
              obtain ⟨other, foundFirst, alike⟩ := like.owned second scope found own
              rw [same] at foundFirst
              have binds := alike.binds name
              cases bound : scope.binds name with
              | true =>
                  rw [s.resolve_here name foundFirst (binds.trans bound),
                    r.resolve_here name found bound, ← same]
                  exact .some own inside
              | false =>
                  have parents := alike.parent
                  cases enclosed : scope.parent with
                  | none =>
                      rw [enclosed] at parents
                      cases top : other.parent with
                      | some p =>
                          rw [top] at parents
                          cases parents
                      | none =>
                          rw [s.resolve_top name foundFirst (binds.trans bound) top,
                            r.resolve_top name found bound enclosed]
                          exact .none
                  | some parent =>
                      rw [enclosed] at parents
                      cases up : other.parent with
                      | none =>
                          rw [up] at parents
                          cases parents
                      | some p =>
                          rw [up] at parents
                          cases parents with
                          | some seatsParent =>
                              rw [s.resolve_up name foundFirst (binds.trans bound) up,
                                r.resolve_up name found bound enclosed]
                              exact ih parent (r.parent_lt second scope parent found enclosed) p
                                seatsParent
          | false =>
              obtain ⟨empty, parent, enclosed, seatParent⟩ := like.padded second scope found own
              have unbound : scope.binds name = false := by
                simp [Scope.binds, Scope.get?, empty]
              rw [r.resolve_up name found unbound enclosed]
              exact ih parent (r.parent_lt second scope parent found enclosed) first
                ⟨seatParent.trans same, fun _ => like.parent_inside found enclosed⟩

theorem Store.Like.home (like : Store.Like free c s r) {home : Nat} (own : c.own home = true)
    (inside : home < c.size) :
    ∃ first second, s.scopes[c.seat home]? = some first ∧ r.scopes[home]? = some second ∧
      Scope.Like free c first second := by
  have bound : home < r.scopes.size := by
    have sizes := like.size
    rw [Store.size] at sizes
    omega
  have found := Array.getElem?_eq_getElem bound
  obtain ⟨first, foundFirst, alike⟩ := like.owned home _ found own
  exact ⟨first, _, foundFirst, found, alike⟩

theorem Store.Like.get (like : Store.Like free c s r) (name : String) {first second : Nat}
    (seats : c.Seats free first second) :
    Option.Rel (Value.Like free c) (s.get? first name) (r.get? second name) := by
  have homes := like.resolve name second first seats
  unfold Store.get?
  revert homes
  generalize s.resolve first name = x
  generalize r.resolve second name = y
  intro homes
  cases homes with
  | none => exact .none
  | some own inside =>
      obtain ⟨scope, other, found, foundOther, alike⟩ := like.home own inside
      simp only [found, foundOther]
      exact lookup_like alike.bindings name

theorem Store.Like.binds (like : Store.Like free c s r) (name : String) {first second : Nat}
    (seats : c.Seats free first second) (own : c.own second = true) :
    s.binds first name = r.binds second name := by
  unfold Store.binds
  cases found : r.scopes[second]? with
  | none => rw [like.missing seats found]
  | some scope =>
      obtain ⟨other, foundFirst, alike⟩ := like.owned second scope found own
      rw [seats.seat] at foundFirst
      rw [foundFirst]
      exact alike.binds name

theorem Store.Like.modify (like : Store.Like free c s r) {first second : Nat}
    (seats : c.Seats free first second) (own : c.own second = true) {f g : Scope → Scope}
    (keeps : ∀ scope, (f scope).parent = scope.parent)
    (keeps' : ∀ scope, (g scope).parent = scope.parent)
    (alike : ∀ a b, Scope.Like free c a b → Scope.Like free c (f a) (g b)) :
    Store.Like free c (s.modify first f keeps) (r.modify second g keeps') where
  size := by
    have sizes := like.size
    simpa [Store.size, Store.modify] using sizes
  fixed fixed := by
    have sizes := like.fixed fixed
    simpa [Store.size, Store.modify] using sizes
  inside n known := by
    have inside := like.inside n known
    simpa [Store.size, Store.modify] using inside
  single := like.single
  owned n scope found ownN := by
    simp only [Store.modify, Array.getElem?_modify] at found ⊢
    by_cases same : second = n
    · subst same
      rw [if_pos rfl] at found
      obtain ⟨old, foundOld, rfl⟩ := Option.map_eq_some_iff.mp found
      obtain ⟨other, foundFirst, both⟩ := like.owned second old foundOld own
      refine ⟨f other, ?_, alike other old both⟩
      rw [if_pos seats.seat.symm, foundFirst]
      rfl
    · rw [if_neg same] at found
      obtain ⟨other, foundFirst, both⟩ := like.owned n scope found ownN
      have inside : n < c.size := by
        have bound : n < r.scopes.size := (Array.getElem?_eq_some_iff.mp found).1
        have sizes := like.size
        rw [Store.size] at sizes
        omega
      -- No other scope stands for the one that is changed.
      have apart : first ≠ c.seat n := by
        intro seat
        apply same
        by_cases blocks : free = .blocks
        · exact like.single second n (seats.inside blocks) inside own ownN
            (seats.seat.trans seat)
        · have id := (like.fixed blocks).2.1
          have seatSecond := seats.seat
          rw [id] at seatSecond seat
          exact seatSecond.trans seat
      exact ⟨other, by rw [if_neg apart, foundFirst], both⟩
  padded n scope found ownN := by
    simp only [Store.modify, Array.getElem?_modify] at found
    have apart : second ≠ n := by
      rintro rfl
      rw [own] at ownN
      cases ownN
    rw [if_neg apart] at found
    exact like.padded n scope found ownN

theorem Store.Like.insert (like : Store.Like free c s r) {first second : Nat}
    (seats : c.Seats free first second) (own : c.own second = true) (name : String) {v w : Value}
    (values : Value.Like free c v w) :
    Store.Like free c (s.insert first name v) (r.insert second name w) := by
  apply like.modify seats own
  intro a b both
  exact ⟨.cons ⟨rfl, values⟩ both.bindings, both.parent⟩

theorem Store.Like.update (like : Store.Like free c s r) {home : Nat} (own : c.own home = true)
    (inside : home < c.size) (name : String) {v w : Value} (values : Value.Like free c v w) :
    Store.Like free c (s.update (c.seat home) name v) (r.update home name w) := by
  apply like.modify ⟨rfl, fun _ => inside⟩ own
  intro a b both
  refine ⟨?_, both.parent⟩
  rw [Scope.update, Scope.update]
  apply List.rel_map _ both.bindings
  rintro ⟨key, x⟩ ⟨key', y⟩ ⟨same, one⟩
  simp only at same
  subst same
  simp only
  split
  · exact ⟨rfl, values⟩
  · exact ⟨rfl, one⟩

theorem Store.Like.grow_extends (like : Store.Like free c s r) :
    Chart.Extends free c (c.grow s.size) where
  size := Nat.le_succ _
  seat n known := by
    by_cases fresh : n = c.size
    · have fixed : free ≠ .blocks := fun blocks => absurd (known blocks) (by omega)
      obtain ⟨size, id, _⟩ := like.fixed fixed
      rw [fresh, Chart.grow_seat_size, id, size]
      rfl
    · exact Chart.grow_seat_of_ne fresh
  own n known := by
    by_cases fresh : n = c.size
    · have fixed : free ≠ .blocks := fun blocks => absurd (known blocks) (by omega)
      rw [fresh, Chart.grow_own_size, (like.fixed fixed).2.2]
    · exact Chart.grow_own_of_ne fresh

theorem Store.Like.enclosing (like : Store.Like free c s r) {first second : Nat}
    (seats : c.Seats free first second) :
    ParentsLike free (c.grow s.size) ((some first).filter (· < s.size))
      ((some second).filter (· < r.size)) := by
  have both : first < s.size ↔ second < r.size := by
    rw [like.size]
    by_cases blocks : free = .blocks
    · have inside := seats.inside blocks
      have below := like.inside second inside
      rw [seats.seat] at below
      exact ⟨fun _ => inside, fun _ => below⟩
    · rw [like.seats_eq blocks seats, (like.fixed blocks).1]
  simp only [Option.filter_some]
  by_cases below : first < s.size
  · rw [if_pos (by simpa using below), if_pos (by simpa using both.mp below)]
    exact .some (seats.extend like.grow_extends)
  · rw [if_neg (by simpa using below), if_neg (by simpa using fun h => below (both.mpr h))]
    exact .none

theorem Store.Like.openScope (like : Store.Like free c s r) {first second : Nat}
    (seats : c.Seats free first second) :
    Store.Like free (c.grow s.size) (s.openScope (some first)) (r.openScope (some second)) where
  size := by
    rw [Store.openScope_size, like.size]
    rfl
  fixed fixed := by
    obtain ⟨size, id, own⟩ := like.fixed fixed
    refine ⟨by rw [Store.openScope_size, size]; rfl, ?_, ?_⟩
    · funext n
      by_cases fresh : n = c.size
      · rw [fresh, Chart.grow_seat_size, size]
        rfl
      · rw [Chart.grow_seat_of_ne fresh, id]
    · intro n
      by_cases fresh : n = c.size
      · rw [fresh, Chart.grow_own_size]
      · rw [Chart.grow_own_of_ne fresh, own]
  inside n known := by
    rw [Store.openScope_size]
    by_cases fresh : n = c.size
    · rw [fresh, Chart.grow_seat_size]
      exact Nat.lt_succ_self _
    · have below := like.inside n (Chart.lt_of_ne known fresh)
      rw [Chart.grow_seat_of_ne fresh]
      exact Nat.lt_succ_of_lt below
  single m n insideM insideN ownM ownN same := by
    by_cases freshM : m = c.size
    · by_cases freshN : n = c.size
      · rw [freshM, freshN]
      · have below := like.inside n (Chart.lt_of_ne insideN freshN)
        rw [freshM, Chart.grow_seat_size, Chart.grow_seat_of_ne freshN] at same
        omega
    · have below := like.inside m (Chart.lt_of_ne insideM freshM)
      rw [Chart.grow_own_of_ne freshM] at ownM
      rw [Chart.grow_seat_of_ne freshM] at same
      by_cases freshN : n = c.size
      · rw [freshN, Chart.grow_seat_size] at same
        omega
      · rw [Chart.grow_own_of_ne freshN] at ownN
        rw [Chart.grow_seat_of_ne freshN] at same
        exact like.single m n (Chart.lt_of_ne insideM freshM) (Chart.lt_of_ne insideN freshN) ownM
          ownN same
  owned n scope found own := by
    by_cases fresh : n = r.size
    · rw [fresh, Store.openScope_fresh] at found
      cases found
      refine ⟨⟨[], (some first).filter (· < s.size)⟩, ?_, ⟨.nil, like.enclosing seats⟩⟩
      rw [fresh, like.size, Chart.grow_seat_size, Store.openScope_fresh]
    · rw [Store.openScope_old _ _ fresh] at found
      rw [like.size] at fresh
      rw [Chart.grow_own_of_ne fresh] at own
      obtain ⟨other, foundFirst, alike⟩ := like.owned n scope found own
      have bound : c.seat n < s.size := (Array.getElem?_eq_some_iff.mp foundFirst).1
      refine ⟨other, ?_, alike.extend like.grow_extends⟩
      rw [Chart.grow_seat_of_ne fresh, Store.openScope_old _ _ (Nat.ne_of_lt bound), foundFirst]
  padded n scope found own := by
    by_cases fresh : n = r.size
    · rw [fresh, like.size, Chart.grow_own_size] at own
      cases own
    · rw [Store.openScope_old _ _ fresh] at found
      rw [like.size] at fresh
      rw [Chart.grow_own_of_ne fresh] at own
      obtain ⟨empty, parent, enclosed, seat⟩ := like.padded n scope found own
      have inside := like.parent_inside found enclosed
      refine ⟨empty, parent, enclosed, ?_⟩
      rw [Chart.grow_seat_of_ne (Nat.ne_of_lt inside), Chart.grow_seat_of_ne fresh, seat]

theorem Chart.pad_extends (blocks : free = .blocks) (parent : Nat) :
    Chart.Extends free c (c.pad parent) where
  size := Nat.le_succ _
  seat n known := by
    have below := known blocks
    simp only [Chart.pad]
    rw [if_neg (by omega)]
  own n known := by
    have below := known blocks
    simp only [Chart.pad]
    rw [if_neg (by omega)]

theorem Store.Like.pad (like : Store.Like free c s r) (blocks : free = .blocks) {parent : Nat}
    (inside : parent < c.size) :
    Store.Like free (c.pad parent) s (r.openScope (some parent)) where
  size := by
    rw [Store.openScope_size, like.size]
    rfl
  fixed fixed := absurd blocks fixed
  inside n known := by
    by_cases fresh : n = c.size
    · rw [fresh, Chart.pad_seat_size]
      exact like.inside parent inside
    · rw [Chart.pad_seat_of_ne fresh]
      exact like.inside n (Chart.lt_of_ne known fresh)
  single m n insideM insideN ownM ownN same := by
    have old : ∀ k, (c.pad parent).own k = true → k ≠ c.size := by
      intro k own fresh
      rw [fresh, Chart.pad_own_size] at own
      cases own
    have oldM := old m ownM
    have oldN := old n ownN
    rw [Chart.pad_own_of_ne oldM] at ownM
    rw [Chart.pad_own_of_ne oldN] at ownN
    rw [Chart.pad_seat_of_ne oldM, Chart.pad_seat_of_ne oldN] at same
    exact like.single m n (Chart.lt_of_ne insideM oldM) (Chart.lt_of_ne insideN oldN) ownM ownN same
  owned n scope found own := by
    by_cases fresh : n = r.size
    · rw [fresh, like.size, Chart.pad_own_size] at own
      cases own
    · rw [Store.openScope_old _ _ fresh] at found
      rw [like.size] at fresh
      rw [Chart.pad_own_of_ne fresh] at own
      obtain ⟨other, foundFirst, alike⟩ := like.owned n scope found own
      refine ⟨other, ?_, alike.extend (Chart.pad_extends blocks parent)⟩
      rw [Chart.pad_seat_of_ne fresh, foundFirst]
  padded n scope found own := by
    by_cases fresh : n = r.size
    · rw [fresh, Store.openScope_fresh] at found
      cases found
      have below : parent < r.size := by
        rw [like.size]
        exact inside
      refine ⟨rfl, parent, by simp [below], ?_⟩
      rw [fresh, like.size, Chart.pad_seat_size, Chart.pad_seat_of_ne (Nat.ne_of_lt inside)]
    · rw [Store.openScope_old _ _ fresh] at found
      rw [like.size] at fresh
      rw [Chart.pad_own_of_ne fresh] at own
      obtain ⟨empty, up, enclosed, seat⟩ := like.padded n scope found own
      have below := like.parent_inside found enclosed
      refine ⟨empty, up, enclosed, ?_⟩
      rw [Chart.pad_seat_of_ne (Nat.ne_of_lt below), Chart.pad_seat_of_ne fresh, seat]

end Stores

end Jess
