import Jess.Proofs.Bindings
import Jess.Proofs.Encapsulation
import Jess.Proofs.Environments
import Mathlib.Data.List.Forall2

/-!
# Stores whose scopes are paired

Two runs of the same statements differ in where their scopes are, and one of
them may run in an empty scope where the other one has none. Twins are scopes
that bind the same names to values that behave alike. An empty scope without a
twin stands for the scope around it. So a name that is found from one scope of
a pair is found from the other one as well, in twins.
-/

namespace Jess

/-- Pairs of scopes, the first of one store and the second of another one. In a loose pair one of
the two is empty and stands for the scope around it. -/
structure Pairing where
  twin : Nat → Nat → Prop
  loose : Nat → Nat → Prop

namespace Pairing

def Pairs (p : Pairing) (m n : Nat) : Prop := p.twin m n ∨ p.loose m n

def same (size : Nat) : Pairing := ⟨fun m n => m = n ∧ m < size, fun _ _ => False⟩

def addTwin (p : Pairing) (m n : Nat) : Pairing :=
  { p with twin := fun a b => p.twin a b ∨ a = m ∧ b = n }

def addLoose (p : Pairing) (m n : Nat) : Pairing :=
  { p with loose := fun a b => p.loose a b ∨ a = m ∧ b = n }

structure Extends (p q : Pairing) : Prop where
  twin : ∀ {m n}, p.twin m n → q.twin m n
  loose : ∀ {m n}, p.loose m n → q.loose m n

/-- A later pairing has more twins only. -/
structure Grows (p q : Pairing) : Prop where
  twin : ∀ {m n}, p.twin m n → q.twin m n
  loose : q.loose = p.loose

variable {p q r : Pairing} {m n : Nat}

theorem Grows.refl (p : Pairing) : p.Grows p := ⟨id, rfl⟩

theorem Grows.trans (first : p.Grows q) (second : q.Grows r) : p.Grows r :=
  ⟨fun known => second.twin (first.twin known), second.loose.trans first.loose⟩

theorem Grows.extends_ (grows : p.Grows q) : p.Extends q :=
  ⟨grows.twin, fun known => grows.loose ▸ known⟩

theorem Extends.refl (p : Pairing) : p.Extends p := ⟨id, id⟩

theorem Extends.trans (first : p.Extends q) (second : q.Extends r) : p.Extends r :=
  ⟨fun known => second.twin (first.twin known), fun known => second.loose (first.loose known)⟩

theorem Pairs.extend (pairs : p.Pairs m n) (extends_ : p.Extends q) : q.Pairs m n :=
  pairs.imp extends_.twin extends_.loose

theorem addTwin_grows (p : Pairing) (m n : Nat) : p.Grows (p.addTwin m n) := ⟨.inl, rfl⟩

theorem addLoose_extends (p : Pairing) (m n : Nat) : p.Extends (p.addLoose m n) := ⟨id, .inl⟩

theorem addTwin_twin (p : Pairing) (m n : Nat) : (p.addTwin m n).twin m n := .inr ⟨rfl, rfl⟩

theorem addLoose_loose (p : Pairing) (m n : Nat) : (p.addLoose m n).loose m n := .inr ⟨rfl, rfl⟩

end Pairing

/-- Equal values, up to scopes that are paired. -/
inductive Value.Paired (p : Pairing) : Value → Value → Prop
  | plain {v : Value} (nowhere : v.closure? = none) : Paired p v v
  | function (identity : Nat) (f : Function) {m n : Nat} (closures : p.Pairs m n) :
      Paired p (.callable identity (.function f m)) (.callable identity (.function f n))

structure Scope.Paired (p : Pairing) (a b : Scope) : Prop where
  values : ∀ name, Option.Rel (Value.Paired p) (a.get? name) (b.get? name)
  parent : Option.Rel p.Pairs a.parent b.parent

/-- One scope of a pair is empty and no twin, and the scope around it is paired with the other. -/
inductive Store.Passes (p : Pairing) (s r : Store) (m n : Nat) : Prop
  | first {outer : Nat} (hollow : s.scopes[m]? = some ⟨[], some outer⟩)
      (apart : ∀ other, ¬p.twin m other) (around : p.Pairs outer n)
  | second {outer : Nat} (hollow : r.scopes[n]? = some ⟨[], some outer⟩)
      (apart : ∀ other, ¬p.twin other n) (around : p.Pairs m outer)

structure Store.Paired (p : Pairing) (s r : Store) : Prop where
  known : ∀ {m n}, p.Pairs m n → m < s.size ∧ n < r.size
  single : ∀ {m n m' n'}, p.twin m n → p.twin m' n' → (m = m' ↔ n = n')
  alike : ∀ {m n}, p.twin m n →
    ∃ a b, s.scopes[m]? = some a ∧ r.scopes[n]? = some b ∧ Scope.Paired p a b
  passes : ∀ {m n}, p.loose m n → Store.Passes p s r m n

variable {p q : Pairing}

theorem rel_extend {α : Type} {R R' : α → α → Prop} {x y : Option α} (rel : Option.Rel R x y)
    (more : ∀ {v w}, R v w → R' v w) : Option.Rel R' x y := by
  cases rel with
  | some one => exact .some (more one)
  | none => exact .none

section Extending

variable (extends_ : p.Extends q)

include extends_

theorem Value.Paired.extend {v w : Value} (paired : Value.Paired p v w) : Value.Paired q v w := by
  cases paired with
  | plain nowhere => exact .plain nowhere
  | function identity f closures => exact .function identity f (closures.extend extends_)

theorem Scope.Paired.extend {a b : Scope} (paired : Scope.Paired p a b) : Scope.Paired q a b where
  values name := rel_extend (paired.values name) fun one => one.extend extends_
  parent := rel_extend paired.parent fun pairs => pairs.extend extends_

end Extending

theorem Scope.Paired.binds {a b : Scope} (paired : Scope.Paired p a b) (name : String) :
    a.binds name = b.binds name := by
  have found := paired.values name
  unfold Scope.binds
  revert found
  generalize a.get? name = x
  generalize b.get? name = y
  intro found
  cases found <;> rfl

theorem Value.IsRooted.paired_same {size : Nat} {v : Value} (rooted : v.IsRooted size) :
    Value.Paired (.same size) v v := by
  cases v with
  | callable identity c =>
      cases c with
      | function f closure => exact .function identity f (.inl ⟨rfl, rooted f closure rfl⟩)
      | native n => exact .plain rfl
  | _ => exact .plain rfl

namespace Store

variable {s r : Store} {m n : Nat}

theorem resolve_hollow {outer : Nat} (hollow : s.scopes[m]? = some ⟨[], some outer⟩)
    (name : String) : s.resolve m name = s.resolve outer name :=
  s.resolve_up name hollow rfl rfl

theorem hollow_lt {outer : Nat} (hollow : s.scopes[m]? = some ⟨[], some outer⟩) : outer < m :=
  s.parent_lt m _ outer hollow rfl

namespace Paired

theorem resolve_twins (paired : Paired p s r) (twins : p.twin m n) (name : String)
    (around : ∀ outer outer', outer < m → outer' < n → p.Pairs outer outer' →
      Option.Rel p.twin (s.resolve outer name) (r.resolve outer' name)) :
    Option.Rel p.twin (s.resolve m name) (r.resolve n name) := by
  obtain ⟨⟨xs, outer⟩, ⟨ys, outer'⟩, found, found', alike⟩ := paired.alike twins
  have binds := alike.binds name
  cases bound : Scope.binds ⟨ys, outer'⟩ name with
  | true =>
      rw [s.resolve_here name found (binds.trans bound), r.resolve_here name found' bound]
      exact .some twins
  | false =>
      have parents := alike.parent
      cases parents with
      | none =>
          rw [s.resolve_top name found (binds.trans bound) rfl, r.resolve_top name found' bound rfl]
          exact .none
      | some pairs =>
          rw [s.resolve_up name found (binds.trans bound) rfl, r.resolve_up name found' bound rfl]
          exact around _ _ (s.parent_lt m _ _ found rfl) (r.parent_lt n _ _ found' rfl) pairs

/-- A name is found from both scopes of a pair, in twins, or from none of the two. -/
theorem resolve (paired : Paired p s r) (pairs : p.Pairs m n) (name : String) :
    Option.Rel p.twin (s.resolve m name) (r.resolve n name) := by
  -- One of the two searches comes closer to the top each time.
  induction sum : m + n using Nat.strongRecOn generalizing m n with
  | ind total ih =>
      obtain twins | loose := pairs
      · apply paired.resolve_twins twins name
        intro outer outer' closer _ pairs
        exact ih _ (by omega) pairs rfl
      · obtain ⟨hollow, _, around⟩ | ⟨hollow, _, around⟩ := paired.passes loose
        · have closer := hollow_lt hollow
          rw [resolve_hollow hollow]
          exact ih _ (by omega) around rfl
        · have closer := hollow_lt hollow
          rw [resolve_hollow hollow]
          exact ih _ (by omega) around rfl

theorem held (paired : Paired p s r) (twins : p.twin m n) (name : String) :
    Option.Rel (Value.Paired p) (s.held? m name) (r.held? n name) := by
  obtain ⟨a, b, found, found', alike⟩ := paired.alike twins
  unfold held?
  rw [found, found']
  exact alike.values name

theorem get (paired : Paired p s r) (pairs : p.Pairs m n) (name : String) :
    Option.Rel (Value.Paired p) (s.get? m name) (r.get? n name) := by
  have homes := paired.resolve pairs name
  rw [get?_eq_held?, get?_eq_held?]
  revert homes
  generalize s.resolve m name = x
  generalize r.resolve n name = y
  intro homes
  cases homes with
  | none => exact .none
  | some twins => exact paired.held twins name

theorem binds (paired : Paired p s r) (twins : p.twin m n) (name : String) :
    s.binds m name = r.binds n name := by
  obtain ⟨a, b, found, found', alike⟩ := paired.alike twins
  unfold Store.binds
  rw [found, found']
  exact alike.binds name

theorem modify (paired : Paired p s r) (twins : p.twin m n) {f g : Scope → Scope}
    (keeps : ∀ scope, (f scope).parent = scope.parent)
    (keeps' : ∀ scope, (g scope).parent = scope.parent)
    (alike : ∀ a b, Scope.Paired p a b → Scope.Paired p (f a) (g b)) :
    Paired p (s.modify m f keeps) (r.modify n g keeps') where
  known pairs := by
    rw [s.modify_size, r.modify_size]
    exact paired.known pairs
  single := paired.single
  alike {m' n'} twins' := by
    obtain ⟨a, b, found, found', both⟩ := paired.alike twins'
    rw [s.modify_scope, r.modify_scope, found, found']
    by_cases here : m = m'
    · have here' := (paired.single twins twins').mp here
      rw [if_pos here, if_pos here']
      exact ⟨f a, g b, rfl, rfl, alike a b both⟩
    · have apart : n ≠ n' := fun same => here ((paired.single twins twins').mpr same)
      rw [if_neg here, if_neg apart]
      exact ⟨a, b, rfl, rfl, both⟩
  passes {m' n'} loose := by
    obtain ⟨hollow, apart, around⟩ | ⟨hollow, apart, around⟩ := paired.passes loose
    · have other : m ≠ m' := by
        rintro rfl
        exact apart n twins
      refine .first ?_ apart around
      rw [s.modify_scope, if_neg other, hollow]
    · have other : n ≠ n' := by
        rintro rfl
        exact apart m twins
      refine .second ?_ apart around
      rw [r.modify_scope, if_neg other, hollow]

section Bindings

variable {v w : Value} (values : Value.Paired p v w)

include values

theorem insert (paired : Paired p s r) (twins : p.twin m n) (name : String) :
    Paired p (s.insert m name v) (r.insert n name w) := by
  apply paired.modify twins
  intro a b both
  refine ⟨fun other => ?_, both.parent⟩
  rw [Scope.get?_insert, Scope.get?_insert]
  split
  · exact .some values
  · exact both.values other

theorem update (paired : Paired p s r) (twins : p.twin m n) (name : String) :
    Paired p (s.update m name v) (r.update n name w) := by
  apply paired.modify twins
  intro a b both
  refine ⟨fun other => ?_, both.parent⟩
  have held := both.values other
  rw [Scope.get?_update, Scope.get?_update]
  split
  · revert held
    generalize a.get? other = x
    generalize b.get? other = y
    rintro (_ | _)
    · exact .some values
    · exact .none
  · exact held

end Bindings

theorem keep (paired : Paired p s r) {s' r' : Store}
    (kept : ∀ (id : Nat) scope, s.scopes[id]? = some scope → s'.scopes[id]? = some scope)
    (kept' : ∀ (id : Nat) scope, r.scopes[id]? = some scope → r'.scopes[id]? = some scope) :
    Paired p s' r' where
  known {m n} pairs := by
    obtain ⟨inside, inside'⟩ := paired.known pairs
    have found : s'.scopes[m]? = _ := kept m _ (Array.getElem?_eq_getElem inside)
    have found' : r'.scopes[n]? = _ := kept' n _ (Array.getElem?_eq_getElem inside')
    exact ⟨(Array.getElem?_eq_some_iff.mp found).1, (Array.getElem?_eq_some_iff.mp found').1⟩
  single := paired.single
  alike twins := by
    obtain ⟨a, b, found, found', both⟩ := paired.alike twins
    exact ⟨a, b, kept _ a found, kept' _ b found', both⟩
  passes loose := by
    obtain ⟨hollow, apart, around⟩ | ⟨hollow, apart, around⟩ := paired.passes loose
    · exact .first (kept _ _ hollow) apart around
    · exact .second (kept' _ _ hollow) apart around

theorem addTwin (paired : Paired p s r) {a b : Scope} (found : s.scopes[m]? = some a)
    (found' : r.scopes[n]? = some b) (alike : Scope.Paired p a b)
    (fresh : ∀ other, ¬p.Pairs m other) (fresh' : ∀ other, ¬p.Pairs other n) :
    Paired (p.addTwin m n) s r where
  known pairs := by
    obtain (twins | ⟨rfl, rfl⟩) | loose := pairs
    · exact paired.known (.inl twins)
    · exact ⟨(Array.getElem?_eq_some_iff.mp found).1, (Array.getElem?_eq_some_iff.mp found').1⟩
    · exact paired.known (.inr loose)
  single twins twins' := by
    obtain twins | ⟨rfl, rfl⟩ := twins
    · obtain twins' | ⟨rfl, rfl⟩ := twins'
      · exact paired.single twins twins'
      · constructor
        · rintro rfl
          exact absurd (.inl twins) (fresh _)
        · rintro rfl
          exact absurd (.inl twins) (fresh' _)
    · obtain twins' | ⟨rfl, rfl⟩ := twins'
      · constructor
        · rintro rfl
          exact absurd (.inl twins') (fresh _)
        · rintro rfl
          exact absurd (.inl twins') (fresh' _)
      · exact ⟨fun _ => rfl, fun _ => rfl⟩
  alike twins := by
    have grows := (p.addTwin_grows m n).extends_
    obtain twins | ⟨rfl, rfl⟩ := twins
    · obtain ⟨a, b, found, found', both⟩ := paired.alike twins
      exact ⟨a, b, found, found', both.extend grows⟩
    · exact ⟨a, b, found, found', alike.extend grows⟩
  passes loose := by
    have grows := (p.addTwin_grows m n).extends_
    obtain ⟨hollow, apart, around⟩ | ⟨hollow, apart, around⟩ := paired.passes loose
    · refine .first hollow ?_ (around.extend grows)
      rintro other (twins | ⟨rfl, rfl⟩)
      · exact apart other twins
      · exact fresh _ (.inr loose)
    · refine .second hollow ?_ (around.extend grows)
      rintro other (twins | ⟨rfl, rfl⟩)
      · exact apart other twins
      · exact fresh' _ (.inr loose)

theorem addLoose (paired : Paired p s r) (inside : m < s.size) (inside' : n < r.size)
    (passes : Passes p s r m n) : Paired (p.addLoose m n) s r where
  known pairs := by
    obtain twins | loose | ⟨rfl, rfl⟩ := pairs
    · exact paired.known (.inl twins)
    · exact paired.known (.inr loose)
    · exact ⟨inside, inside'⟩
  single := paired.single
  alike twins := by
    obtain ⟨a, b, found, found', both⟩ := paired.alike twins
    exact ⟨a, b, found, found', both.extend (p.addLoose_extends m n)⟩
  passes {m' n'} loose := by
    have grows := p.addLoose_extends m n
    have known : Passes p s r m' n' := by
      obtain loose | ⟨rfl, rfl⟩ := loose
      · exact paired.passes loose
      · exact passes
    obtain ⟨hollow, apart, around⟩ | ⟨hollow, apart, around⟩ := known
    · exact .first hollow apart (around.extend grows)
    · exact .second hollow apart (around.extend grows)

end Paired

theorem openScope_kept (s : Store) (parent : Option Nat) (id : Nat) (scope : Scope)
    (found : s.scopes[id]? = some scope) : (s.openScope parent).scopes[id]? = some scope := by
  have inside : id < s.size := (Array.getElem?_eq_some_iff.mp found).1
  rw [s.openScope_old parent (Nat.ne_of_lt inside), found]

theorem openScope_hollow (s : Store) {outer : Nat} (inside : outer < s.size) :
    (s.openScope (some outer)).scopes[s.size]? = some ⟨[], some outer⟩ := by
  rw [s.openScope_fresh, Option.filter_some, if_pos (decide_eq_true inside)]

namespace Paired

theorem openScope (paired : Paired p s r) (pairs : p.Pairs m n) :
    Paired (p.addTwin s.size r.size) (s.openScope (some m)) (r.openScope (some n)) := by
  obtain ⟨inside, inside'⟩ := paired.known pairs
  have kept := paired.keep (s.openScope_kept (some m)) (r.openScope_kept (some n))
  refine kept.addTwin (s.openScope_hollow inside) (r.openScope_hollow inside')
    ⟨fun _ => .none, .some pairs⟩ ?_ ?_
  · intro other pairs
    exact absurd (paired.known pairs).1 (Nat.lt_irrefl _)
  · intro other pairs
    exact absurd (paired.known pairs).2 (Nat.lt_irrefl _)

theorem openFirst (paired : Paired p s r) (pairs : p.Pairs m n) :
    Paired (p.addLoose s.size n) (s.openScope (some m)) r := by
  obtain ⟨inside, inside'⟩ := paired.known pairs
  have kept := paired.keep (s.openScope_kept (some m)) (fun _ _ => id)
  refine kept.addLoose (Nat.lt_of_lt_of_eq (Nat.lt_succ_self _) (s.openScope_size _).symm) inside'
    (.first (s.openScope_hollow inside) ?_ pairs)
  intro other twins
  exact absurd (paired.known (.inl twins)).1 (Nat.lt_irrefl _)

theorem openSecond (paired : Paired p s r) (pairs : p.Pairs m n) :
    Paired (p.addLoose m r.size) s (r.openScope (some n)) := by
  obtain ⟨inside, inside'⟩ := paired.known pairs
  have kept := paired.keep (fun _ _ => id) (r.openScope_kept (some n))
  refine kept.addLoose inside (Nat.lt_of_lt_of_eq (Nat.lt_succ_self _) (r.openScope_size _).symm)
    (.second (r.openScope_hollow inside') ?_ pairs)
  intro other twins
  exact absurd (paired.known (.inl twins)).2 (Nat.lt_irrefl _)

end Paired

/-- A store whose functions were declared in scopes that it has is paired with itself. -/
theorem paired_same (rooted : s.Holds (Value.IsRooted s.size)) :
    Paired (.same s.size) s s where
  known {m n} pairs := by
    obtain ⟨rfl, inside⟩ | loose := pairs
    · exact ⟨inside, inside⟩
    · cases loose
  single := by
    rintro m _ m' _ ⟨rfl, _⟩ ⟨rfl, _⟩
    exact Iff.rfl
  alike {m n} twins := by
    obtain ⟨rfl, inside⟩ := twins
    have found : s.scopes[m]? = _ := Array.getElem?_eq_getElem inside
    refine ⟨_, _, found, found, fun name => ?_, ?_⟩
    · cases held : (s.scopes[m]).get? name with
      | none => exact .none
      | some v => exact .some ((rooted m _ name v found held).paired_same)
    · cases enclosed : (s.scopes[m]).parent with
      | none => exact .none
      | some outer =>
          have below := s.parent_lt m _ outer found enclosed
          exact .some (.inl ⟨rfl, Nat.lt_trans below inside⟩)
  passes loose := loose.elim

end Store

end Jess
