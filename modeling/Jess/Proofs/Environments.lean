import Jess.Proofs.History
import Jess.Proofs.Shadowing

/-!
# Environments and their history

Environments that are served from one store of scopes reply to each request as
the history of all requests before it asks for: a scope that many environments
share holds a name as soon as it was defined through one of them, and a name
stands for the last value that was written to it in the nearest scope.
-/

namespace Jess

namespace Store

def held? (store : Store) (id : Nat) (name : String) : Option Value :=
  store.scopes[id]?.bind (·.get? name)

variable (store : Store)

theorem binds_eq_held? (id : Nat) (name : String) :
    store.binds id name = (store.held? id name).isSome := by
  unfold Store.binds Store.held?
  cases store.scopes[id]? with
  | none => rfl
  | some scope => rfl

theorem get?_eq_held? (id : Nat) (name : String) :
    store.get? id name = (store.resolve id name).bind (store.held? · name) := by
  unfold Store.get? Store.held?
  cases store.resolve id name with
  | none => rfl
  | some home =>
      cases found : store.scopes[home]? with
      | none => simp [found]
      | some scope => simp [found]

theorem held?_size (name : String) : store.held? store.size name = none := by
  unfold Store.held?
  rw [Array.getElem?_eq_none_iff.mpr (Nat.le_refl store.size)]
  rfl

theorem openScope_held? (parent : Option Nat) (id : Nat) (name : String) :
    (store.openScope parent).held? id name = store.held? id name := by
  unfold Store.held?
  rw [Store.openScope_scope]
  by_cases fresh : id = store.size
  · have missing : store.scopes[id]? = none :=
      Array.getElem?_eq_none_iff.mpr (Nat.le_of_eq fresh.symm)
    rw [if_pos fresh, missing]
    rfl
  · rw [if_neg fresh]

theorem insert_held? {id : Nat} (inside : id < store.size) (name : String) (v : Value) (place : Nat)
    (other : String) :
    (store.insert id name v).held? place other =
      if place = id ∧ other = name then some v else store.held? place other := by
  unfold Store.held?
  rw [Store.insert_scope]
  by_cases here : id = place
  · cases here
    have found := Array.getElem?_eq_getElem inside
    rw [if_pos rfl, found, Option.map_some, Option.bind_some, Scope.get?_insert]
    simp only [true_and, Option.bind_some]
  · rw [if_neg here, if_neg fun both => here both.1.symm]

theorem update_held? (id : Nat) (name : String) (v : Value) (place : Nat) (other : String) :
    (store.update id name v).held? place other =
      if place = id ∧ other = name then (store.held? place other).map fun _ => v
      else store.held? place other := by
  unfold Store.held?
  rw [Store.update_scope]
  by_cases here : id = place
  · cases here
    rw [if_pos rfl]
    cases store.scopes[id]? with
    | none => simp
    | some scope => simp only [Option.map_some, Option.bind_some, Scope.get?_update, true_and]
  · rw [if_neg here, if_neg fun both => here both.1.symm]

end Store

open Environment

/-- A store, and the scope that each environment is a handle of. -/
structure Environments where
  store : Store
  scopes : List Nat

namespace Environments

def unmade : Environments := ⟨Store.empty, []⟩

def add (s : Environments) (store : Store) (id : Nat) : Reply × Environments :=
  (.opened, ⟨store, s.scopes ++ [id]⟩)

def answer (s : Environments) : Request → Reply × Environments
  | .openGlobal => s.add (s.store.openScope none) s.store.size
  | .openChild e =>
      match s.scopes[e]? with
      | none => (.noEnvironment, s)
      | some id => s.add (s.store.openScope (some id)) s.store.size
  | .openAlias e =>
      match s.scopes[e]? with
      | none => (.noEnvironment, s)
      | some id => s.add s.store id
  | .define e name value =>
      match s.scopes[e]? with
      | none => (.noEnvironment, s)
      | some id =>
          match s.store.define? id name value with
          | none => (.alreadyDefined, s)
          | some store => (.defined, { s with store := store })
  | .assign e name value =>
      match s.scopes[e]? with
      | none => (.noEnvironment, s)
      | some id =>
          match s.store.assign? id name value with
          | none => (.undefined, s)
          | some store => (.assigned, { s with store := store })
  | .get e name =>
      match s.scopes[e]? with
      | none => (.noEnvironment, s)
      | some id =>
          match s.store.get? id name with
          | none => (.missing, s)
          | some value => (.found value, s)

def log (s : Environments) : List Request → Log
  | [] => []
  | r :: rest => (r, (s.answer r).1) :: (s.answer r).2.log rest

def serve (s : Environments) : List Request → Environments
  | [] => s
  | r :: rest => (s.answer r).2.serve rest

theorem log_append (s : Environments) (before later : List Request) :
    s.log (before ++ later) = s.log before ++ (s.serve before).log later := by
  induction before generalizing s with
  | nil => rfl
  | cons r rest ih =>
      simp only [List.cons_append, log, serve]
      rw [ih]

/-- A request that is not fulfilled leaves everything as it was. -/
theorem answer_of_fails (s : Environments) (r : Request) (fails : (s.answer r).1.fails = true) :
    (s.answer r).2 = s := by
  cases r with
  | openGlobal => cases fails
  | openChild e | openAlias e =>
      simp only [answer] at fails ⊢
      cases found : s.scopes[e]? with
      | none => rfl
      | some id =>
          rw [found] at fails
          cases fails
  | define e name value | assign e name value =>
      simp only [answer] at fails ⊢
      split
      · rfl
      · rename_i id found
        simp only [found] at fails ⊢
        split
        · rfl
        · rename_i store done
          rw [done] at fails
          cases fails
  | get e name =>
      simp only [answer]
      split
      · rfl
      · split
        · rfl
        · rfl

def history (requests : List Request) : Log := unmade.log requests

theorem history_append (before later : List Request) :
    history (before ++ later) = history before ++ (unmade.serve before).log later :=
  unmade.log_append before later

/-- Every environment is a handle of the scope that its history tells, and every scope holds what
was written to it last. -/
structure Represents (log : Log) (s : Environments) : Prop where
  consistent : Consistent log
  count : s.scopes.length = (made log).length
  inside : ∀ e id : Nat, s.scopes[e]? = some id → id < s.store.size
  top : ∀ e id : Nat, (made log)[e]? = some .openGlobal → s.scopes[e]? = some id →
    s.store.parent? id = none
  child : ∀ e outer id : Nat, (made log)[e]? = some (.openChild outer) → s.scopes[e]? = some id →
    ∃ around, s.scopes[outer]? = some around ∧ s.store.parent? id = some around
  aliased : ∀ e other : Nat, (made log)[e]? = some (.openAlias other) →
    s.scopes[e]? = s.scopes[other]?
  apart : ∀ e older : Nat, e < (made log).length →
    (∀ other, (made log)[e]? ≠ some (.openAlias other)) → older < e →
    s.scopes[older]? ≠ s.scopes[e]?
  bound : ∀ scope id : Nat, Names log scope scope → s.scopes[scope]? = some id →
    ∀ name, s.store.binds id name = true ↔ Defines log scope name
  value : ∀ scope id : Nat, Names log scope scope → s.scopes[scope]? = some id →
    ∀ name v, s.store.held? id name = some v ↔ Latest log scope name v

section Represents

variable {log : Log} {s : Environments} (represents : Represents log s) {e scope id : Nat}
  {name : String}

include represents

theorem Represents.known (place : s.scopes[e]? = some id) : e < (made log).length := by
  rw [← represents.count]
  exact (List.getElem?_eq_some_iff.mp place).1

theorem Represents.exists_place (known : e < (made log).length) :
    ∃ id, s.scopes[e]? = some id := by
  rw [← represents.count] at known
  exact ⟨_, List.getElem?_eq_getElem known⟩

theorem Represents.place_eq {scopes : List Nat} (chain : Chain log e scopes) {outer : List Nat}
    (names : scopes = scope :: outer) : s.scopes[e]? = s.scopes[scope]? := by
  induction chain with
  | top _ =>
      cases names
      rfl
  | child _ _ _ =>
      cases names
      rfl
  | aliased made _ ih => exact (represents.aliased _ _ made).trans (ih names)

theorem Represents.scope_eq {other : Nat} (first : Names log scope scope)
    (second : Names log other other) (same : s.scopes[scope]? = s.scopes[other]?) :
    scope = other := by
  obtain ⟨_, chain⟩ := first
  obtain ⟨_, chain'⟩ := second
  obtain before | here | after := Nat.lt_trichotomy scope other
  · have opens := chain'.opens List.mem_cons_self
    exact absurd same (represents.apart _ _ chain'.made opens before)
  · exact here
  · have opens := chain.opens List.mem_cons_self
    exact absurd same.symm (represents.apart _ _ chain.made opens after)

theorem Represents.resolve (name : String) {scopes : List Nat} (chain : Chain log e scopes)
    (place : s.scopes[e]? = some id) :
    (∃ nearer scope outer home, scopes = nearer ++ scope :: outer ∧ Defines log scope name ∧
        (∀ n ∈ nearer, ¬Defines log n name) ∧ s.scopes[scope]? = some home ∧
        s.store.resolve id name = some home) ∨
      (∀ n ∈ scopes, ¬Defines log n name) ∧ s.store.resolve id name = none := by
  -- The chain and the parents in the store lead outward side by side.
  induction chain generalizing id with
  | @top e made =>
      have bound := represents.bound e id ⟨[], .top made⟩ place name
      cases binds : s.store.binds id name with
      | true =>
          exact .inl ⟨[], e, [], id, rfl, bound.mp binds, by simp, place,
            s.store.resolve_bound name binds⟩
      | false =>
          refine .inr ⟨fun n member => ?_, ?_⟩
          · cases List.mem_singleton.mp member
            rw [← bound, binds]
            exact Bool.false_ne_true
          · rw [s.store.resolve_unbound name binds, represents.top e id made place]
            rfl
  | @child e outer scopes made around ih =>
      have bound := represents.bound e id ⟨scopes, .child made around⟩ place name
      cases binds : s.store.binds id name with
      | true =>
          exact .inl ⟨[], e, scopes, id, rfl, bound.mp binds, by simp, place,
            s.store.resolve_bound name binds⟩
      | false =>
          have free : ¬Defines log e name := by
            rw [← bound, binds]
            exact Bool.false_ne_true
          obtain ⟨parent, place', enclosed⟩ := represents.child e outer id made place
          have up : s.store.resolve id name = s.store.resolve parent name := by
            rw [s.store.resolve_unbound name binds, enclosed]
            rfl
          rw [up]
          obtain ⟨nearer, scope, rest, home, split, defines, frees, found⟩ | ⟨frees, none⟩ :=
            ih place'
          · refine .inl ⟨e :: nearer, scope, rest, home, ?_, defines, ?_, found⟩
            · rw [split]
              rfl
            · exact List.forall_mem_cons.mpr ⟨free, frees⟩
          · exact .inr ⟨List.forall_mem_cons.mpr ⟨free, frees⟩, none⟩
  | aliased made same ih => exact ih ((represents.aliased _ _ made).symm.trans place)

variable {last : Request × Reply} {store : Store}

/-- A request that makes no environment keeps what it does not write to. -/
theorem Represents.stays (makes : maker? last = none)
    (definer : ∀ e name value, last = (.define e name value, .defined) → e < (made log).length)
    (size : store.size = s.store.size)
    (parents : ∀ id, store.parent? id = s.store.parent? id)
    (bound : ∀ scope id : Nat, Names log scope scope → s.scopes[scope]? = some id →
      ∀ name, store.binds id name = true ↔ Defines (log ++ [last]) scope name)
    (value : ∀ scope id : Nat, Names log scope scope → s.scopes[scope]? = some id →
      ∀ name v, store.held? id name = some v ↔ Latest (log ++ [last]) scope name v) :
    Represents (log ++ [last]) { s with store := store } := by
  have same : made (log ++ [last]) = made log := made_of_none makes
  have names {scope : Nat} (names : Names (log ++ [last]) scope scope) : Names log scope scope := by
    obtain ⟨outer, chain⟩ := names
    exact ⟨outer, chain.congr same⟩
  have consistent : Consistent (log ++ [last]) := by
    refine represents.consistent.concat (fun r new => ?_) definer
    rw [maker?_eq_some_iff.mpr new] at makes
    cases makes
  exact {
    consistent
    count := represents.count.trans (congrArg List.length same).symm
    inside := fun e id place => size ▸ represents.inside e id place
    top := fun e id made place => (parents id).trans (represents.top e id (same ▸ made) place)
    child := fun e outer id made place => by
      obtain ⟨around, there, enclosed⟩ := represents.child e outer id (same ▸ made) place
      exact ⟨around, there, (parents id).trans enclosed⟩
    aliased := fun e other made => represents.aliased e other (same ▸ made)
    apart := same ▸ represents.apart
    bound := fun scope id named => bound scope id (names named)
    value := fun scope id named => value scope id (names named) }

theorem Represents.idle (makes : maker? last = none)
    (defines : ∀ e name value, last ≠ (.define e name value, .defined))
    (assigns : ∀ e name value, last ≠ (.assign e name value, .assigned)) :
    Represents (log ++ [last]) s := by
  have definer : ∀ e name value, last = (.define e name value, .defined) →
      e < (made log).length := fun e name value here => absurd here (defines e name value)
  have longer : Consistent (log ++ [last]) := by
    refine represents.consistent.concat (fun r new => ?_) definer
    rw [maker?_eq_some_iff.mpr new] at makes
    cases makes
  refine represents.stays makes definer rfl (fun _ => rfl) ?_ ?_
  · intro scope id names place name
    rw [defines_concat_of_none defines represents.consistent longer]
    exact represents.bound scope id names place name
  · intro scope id names place name v
    rw [latest_concat_of_none defines assigns]
    exact represents.value scope id names place name v

theorem Represents.writes {target place : Nat} {key : String} {new : Value}
    (makes : maker? last = none)
    (definer : ∀ e name value, last = (.define e name value, .defined) → e < (made log).length)
    (names : Names log target target) (there : s.scopes[target]? = some place)
    (size : store.size = s.store.size)
    (parents : ∀ id, store.parent? id = s.store.parent? id)
    (held : ∀ id name, store.held? id name =
      if id = place ∧ name = key then some new else s.store.held? id name)
    (defines : ∀ scope name, Defines (log ++ [last]) scope name ↔
      Defines log scope name ∨ scope = target ∧ name = key)
    (writes : ∀ scope name v, Writes (log ++ [last]) log.length scope name v ↔
      scope = target ∧ name = key ∧ v = new) :
    Represents (log ++ [last]) { s with store := store } := by
  -- Scopes have places of their own, so no other one is written to.
  have here {scope id : Nat} (named : Names log scope scope) (placed : s.scopes[scope]? = some id) :
      id = place ↔ scope = target := by
    constructor
    · rintro rfl
      exact represents.scope_eq named names (placed.trans there.symm)
    · rintro rfl
      exact Option.some.inj (placed.symm.trans there)
  refine represents.stays makes definer size parents ?_ ?_
  · intro scope id named placed name
    have old := represents.bound scope id named placed name
    rw [defines, ← old, store.binds_eq_held?, s.store.binds_eq_held?, held]
    simp only [here named placed]
    by_cases both : scope = target ∧ name = key
    · simp [both]
    · simp [both]
  · intro scope id named placed name v
    have old := represents.value scope id named placed name v
    rw [latest_concat_iff, ← old, writes, held]
    simp only [here named placed]
    by_cases both : scope = target ∧ name = key
    · obtain ⟨rfl, rfl⟩ := both
      have some_written : ¬∀ other, ¬Writes (log ++ [last]) log.length scope name other :=
        fun none => none new ((writes scope name new).mpr ⟨rfl, rfl, rfl⟩)
      simp only [and_self, if_true, true_and, Option.some.injEq]
      exact ⟨fun same => .inl same.symm, fun either =>
        (either.resolve_right fun old => some_written old.1).symm⟩
    · have none_written : ∀ other, ¬Writes (log ++ [last]) log.length scope name other :=
        fun other written => both ⟨((writes scope name other).mp written).1,
          ((writes scope name other).mp written).2.1⟩
      rw [if_neg both]
      exact ⟨fun old => .inr ⟨none_written, old⟩, fun either =>
        (either.resolve_left fun now => both ⟨now.1, now.2.1⟩).2⟩

/-- What a request that makes an environment does: there is one handle more, of a fresh scope unless
it is another handle of an old one. -/
structure Opens (log : Log) (s : Environments) (r : Request) (store : Store) (place : Nat) :
    Prop where
  maker : r = .openGlobal ∨
    ∃ older, older < (made log).length ∧ (r = .openChild older ∨ r = .openAlias older)
  size : s.store.size ≤ store.size
  inside : place < store.size
  parents : ∀ id, id < s.store.size → store.parent? id = s.store.parent? id
  held : ∀ id name, store.held? id name = s.store.held? id name
  top : r = .openGlobal → store.parent? place = none
  child : ∀ outer, r = .openChild outer →
    ∃ around, s.scopes[outer]? = some around ∧ store.parent? place = some around
  aliased : ∀ other, r = .openAlias other → s.scopes[other]? = some place
  fresh : (∀ other, r ≠ .openAlias other) → place = s.store.size

section Opens

variable {r : Request} {place : Nat}

theorem Represents.old_handle (old : e < (made log).length) :
    (s.scopes ++ [place])[e]? = s.scopes[e]? :=
  List.getElem?_append_left (represents.count ▸ old)

theorem Represents.new_handle : (s.scopes ++ [place])[(made log).length]? = some place := by
  rw [← represents.count]
  exact List.getElem?_concat_length

theorem Represents.handle_cases (found : (s.scopes ++ [place])[e]? = some id) :
    s.scopes[e]? = some id ∨ e = (made log).length ∧ id = place := by
  obtain old | new := Nat.lt_or_ge e (made log).length
  · exact .inl ((represents.old_handle old).symm.trans found)
  · have known := (List.getElem?_eq_some_iff.mp found).1
    rw [List.length_append, List.length_singleton, represents.count] at known
    obtain rfl : e = (made log).length := by omega
    rw [represents.new_handle] at found
    exact .inr ⟨rfl, (Option.some.inj found).symm⟩

variable (opening : Opens log s r store place)

include opening

theorem Opens.consistent : Consistent (log ++ [(r, .opened)]) := by
  refine represents.consistent.concat (fun request new => ?_) (fun e name v here => by cases here)
  cases new
  exact opening.maker

theorem Opens.scope_cases (names : Names (log ++ [(r, .opened)]) scope scope)
    (placed : (s.scopes ++ [place])[scope]? = some id) :
    (Names log scope scope ∧ s.scopes[scope]? = some id) ∨
      scope = (made log).length ∧ id = s.store.size := by
  obtain ⟨outer, chain⟩ := names
  obtain old | ⟨rfl, rfl⟩ := represents.handle_cases placed
  · have known := represents.known old
    exact .inl ⟨⟨outer, (chain_append_iff represents.consistent _ known).mp chain⟩, old⟩
  · refine .inr ⟨rfl, opening.fresh fun other same => ?_⟩
    apply chain.opens List.mem_cons_self other
    rw [made_opened, List.getElem?_concat_length, same]

theorem Opens.inside_of (placed : (s.scopes ++ [place])[e]? = some id) : id < store.size := by
  obtain old | ⟨_, rfl⟩ := represents.handle_cases placed
  · exact Nat.lt_of_lt_of_le (represents.inside e id old) opening.size
  · exact opening.inside

theorem Opens.top_of (found : (made (log ++ [(r, .opened)]))[e]? = some .openGlobal)
    (placed : (s.scopes ++ [place])[e]? = some id) : store.parent? id = none := by
  obtain ⟨old, found⟩ | ⟨rfl, same⟩ := made_opened_cases found
  · rw [represents.old_handle old] at placed
    rw [opening.parents id (represents.inside e id placed)]
    exact represents.top e id found placed
  · rw [represents.new_handle] at placed
    cases placed
    exact opening.top same.symm

theorem Opens.child_of {outer : Nat}
    (found : (made (log ++ [(r, .opened)]))[e]? = some (.openChild outer))
    (placed : (s.scopes ++ [place])[e]? = some id) :
    ∃ around, (s.scopes ++ [place])[outer]? = some around ∧ store.parent? id = some around := by
  have before := (opening.consistent represents).child_lt found
  obtain ⟨old, found⟩ | ⟨rfl, same⟩ := made_opened_cases found
  · rw [represents.old_handle old] at placed
    rw [represents.old_handle (Nat.lt_trans before old),
      opening.parents id (represents.inside e id placed)]
    exact represents.child e outer id found placed
  · rw [represents.new_handle] at placed
    cases placed
    rw [represents.old_handle before]
    exact opening.child outer same.symm

theorem Opens.aliased_of {other : Nat}
    (found : (made (log ++ [(r, .opened)]))[e]? = some (.openAlias other)) :
    (s.scopes ++ [place])[e]? = (s.scopes ++ [place])[other]? := by
  have before := (opening.consistent represents).alias_lt found
  obtain ⟨old, found⟩ | ⟨rfl, same⟩ := made_opened_cases found
  · rw [represents.old_handle old, represents.old_handle (Nat.lt_trans before old)]
    exact represents.aliased e other found
  · rw [represents.new_handle, represents.old_handle before]
    exact (opening.aliased other same.symm).symm

theorem Opens.apart_of {older : Nat} (known : e < (made (log ++ [(r, .opened)])).length)
    (own : ∀ other, (made (log ++ [(r, .opened)]))[e]? ≠ some (.openAlias other))
    (before : older < e) : (s.scopes ++ [place])[older]? ≠ (s.scopes ++ [place])[e]? := by
  rw [made_opened, List.length_append, List.length_singleton] at known
  obtain old | new := Nat.lt_or_ge e (made log).length
  · rw [represents.old_handle old, represents.old_handle (Nat.lt_trans before old)]
    rw [made_opened, List.getElem?_append_left old] at own
    exact represents.apart e older old own before
  · obtain rfl : e = (made log).length := by omega
    rw [made_opened, List.getElem?_concat_length] at own
    rw [represents.new_handle, represents.old_handle before,
      opening.fresh fun other same => own other (congrArg some same)]
    intro placed
    exact absurd (represents.inside older _ placed) (Nat.lt_irrefl _)

theorem Opens.bound_of (names : Names (log ++ [(r, .opened)]) scope scope)
    (placed : (s.scopes ++ [place])[scope]? = some id) :
    store.binds id name = true ↔ Defines (log ++ [(r, .opened)]) scope name := by
  rw [defines_concat_of_none (fun _ _ _ => by simp) represents.consistent
      (opening.consistent represents),
    store.binds_eq_held?, opening.held, ← s.store.binds_eq_held?]
  obtain ⟨names, placed⟩ | ⟨rfl, rfl⟩ := opening.scope_cases represents names placed
  · exact represents.bound scope id names placed name
  · have undefined : ¬Defines log (made log).length name := by
      rintro ⟨_, _, _, names⟩
      exact absurd names.self.made (Nat.lt_irrefl _)
    simp [s.store.binds_eq_held?, s.store.held?_size, undefined]

theorem Opens.value_of (names : Names (log ++ [(r, .opened)]) scope scope)
    (placed : (s.scopes ++ [place])[scope]? = some id) {v : Value} :
    store.held? id name = some v ↔ Latest (log ++ [(r, .opened)]) scope name v := by
  rw [latest_concat_of_none (fun _ _ _ => by simp) (fun _ _ _ => by simp), opening.held]
  obtain ⟨names, placed⟩ | ⟨rfl, rfl⟩ := opening.scope_cases represents names placed
  · exact represents.value scope id names placed name v
  · have unwritten : ¬Latest log (made log).length name v := by
      rintro ⟨_, writes, _⟩
      exact absurd writes.known (Nat.lt_irrefl _)
    simp [s.store.held?_size, unwritten]

theorem Represents.opens : Represents (log ++ [(r, .opened)]) ⟨store, s.scopes ++ [place]⟩ where
  consistent := opening.consistent represents
  count := by
    rw [made_opened, List.length_append, List.length_append, represents.count]
    rfl
  inside := fun _ _ placed => opening.inside_of represents placed
  top := fun _ _ found placed => opening.top_of represents found placed
  child := fun _ _ _ found placed => opening.child_of represents found placed
  aliased := fun _ _ found => opening.aliased_of represents found
  apart := fun _ _ known own before => opening.apart_of represents known own before
  bound := fun _ _ names placed _ => opening.bound_of represents names placed
  value := fun _ _ names placed _ _ => opening.value_of represents names placed

end Opens

omit represents in
theorem Opens.of_openScope {r : Request} {parent : Option Nat}
    (maker : r = .openGlobal ∨ ∃ older, older < (made log).length ∧ r = .openChild older)
    (top : r = .openGlobal → parent = none)
    (child : ∀ outer, r = .openChild outer →
      ∃ around, s.scopes[outer]? = some around ∧ around < s.store.size ∧ parent = some around) :
    Opens log s r (s.store.openScope parent) s.store.size := by
  have larger : s.store.size < (s.store.openScope parent).size := by
    rw [s.store.openScope_size]
    exact Nat.lt_succ_self _
  exact {
    maker := maker.imp_right fun ⟨older, known, same⟩ => ⟨older, known, .inl same⟩
    size := Nat.le_of_lt larger
    inside := larger
    parents := fun _ old => s.store.openScope_parent? parent old
    held := s.store.openScope_held? parent
    top := fun same => by
      unfold Store.parent?
      rw [s.store.openScope_fresh, top same]
      rfl
    child := fun outer same => by
      obtain ⟨around, place, inside, rfl⟩ := child outer same
      exact ⟨around, place, s.store.openScope_parent inside⟩
    aliased := fun other same => by
      obtain rfl | ⟨_, _, rfl⟩ := maker <;> cases same
    fresh := fun _ => rfl }

theorem Represents.openGlobal :
    Represents (log ++ [(.openGlobal, .opened)]) (s.answer .openGlobal).2 :=
  represents.opens (.of_openScope (.inl rfl) (fun _ => rfl) fun _ same => by cases same)

theorem Represents.openChild (place : s.scopes[e]? = some id) :
    Represents (log ++ [(.openChild e, .opened)])
      ⟨s.store.openScope (some id), s.scopes ++ [s.store.size]⟩ := by
  apply represents.opens
  apply Opens.of_openScope (.inr ⟨e, represents.known place, rfl⟩) fun same => by cases same
  intro outer same
  cases same
  exact ⟨id, place, represents.inside e id place, rfl⟩

theorem Represents.openAlias (place : s.scopes[e]? = some id) :
    Represents (log ++ [(.openAlias e, .opened)]) ⟨s.store, s.scopes ++ [id]⟩ :=
  represents.opens {
    maker := .inr ⟨e, represents.known place, .inr rfl⟩
    size := Nat.le_refl _
    inside := represents.inside e id place
    parents := fun _ _ => rfl
    held := fun _ _ => rfl
    top := fun other => by cases other
    child := fun _ other => by cases other
    aliased := fun other same => by
      cases same
      exact place
    fresh := fun own => absurd rfl (own e) }

theorem Represents.define (place : s.scopes[e]? = some id) {value : Value}
    (free : s.store.binds id name = false) :
    Represents (log ++ [(.define e name value, .defined)])
      { s with store := s.store.insert id name value } := by
  have known := represents.known place
  obtain ⟨scope, names⟩ := exists_names represents.consistent known
  have ⟨outer, chain⟩ := names
  have inside := represents.inside e id place
  have definer : ∀ e' name' value', (Request.define e name value, Reply.defined) =
      (.define e' name' value', .defined) → e' < (made log).length := by
    intro e' name' value' same
    cases same
    exact known
  have longer : Consistent (log ++ [(.define e name value, .defined)]) :=
    represents.consistent.concat (fun _ new => by cases new) definer
  apply represents.writes rfl definer names.self
    ((represents.place_eq chain rfl).symm.trans place)
  · exact s.store.modify_size _ _ _
  · exact fun other => s.store.modify_parent? _ _ _ other
  · exact s.store.insert_held? inside name value
  · intro scope' name'
    rw [defines_concat_iff represents.consistent longer]
    constructor
    · rintro (old | ⟨_, _, same, names'⟩)
      · exact .inl old
      · cases same
        exact .inr ⟨names'.unique names, rfl⟩
    · rintro (old | ⟨rfl, rfl⟩)
      · exact .inl old
      · exact .inr ⟨e, value, rfl, names⟩
  · intro scope' name' v
    rw [writes_last_iff]
    constructor
    · rintro (⟨_, same, names'⟩ | ⟨_, other, _⟩)
      · cases same
        exact ⟨names'.unique names, rfl, rfl⟩
      · cases other
    · rintro ⟨rfl, rfl, rfl⟩
      exact .inl ⟨e, rfl, names⟩

/-- Where a name is found is the place of the nearest scope that defines it, and the scope holds the
last value that was written to it there. -/
theorem Represents.found (place : s.scopes[e]? = some id) {home : Nat}
    (found : s.store.resolve id name = some home) :
    ∃ scope, Nearest log e name scope ∧ s.scopes[scope]? = some home ∧
      ∃ old, s.store.held? home name = some old ∧ Latest log scope name old := by
  obtain ⟨scopes, chain⟩ := exists_chain represents.consistent (represents.known place)
  obtain ⟨nearer, scope, outer, home', split, defines, free, there, resolves⟩ | ⟨_, none⟩ :=
    represents.resolve name chain place
  · cases resolves.symm.trans found
    have names : Names log scope scope := ⟨outer, chain.rest split⟩
    have binds := (represents.bound scope home names there name).mpr defines
    rw [s.store.binds_eq_held?] at binds
    obtain ⟨old, held⟩ := Option.isSome_iff_exists.mp binds
    exact ⟨scope, ⟨nearer, outer, split ▸ chain, defines, free⟩, there, old, held,
      (represents.value scope home names there name old).mp held⟩
  · rw [none] at found
    cases found

theorem Represents.not_found (place : s.scopes[e]? = some id) :
    s.store.resolve id name = none ↔
      ∀ scopes, Chain log e scopes → ∀ scope ∈ scopes, ¬Defines log scope name := by
  obtain ⟨scopes, chain⟩ := exists_chain represents.consistent (represents.known place)
  obtain ⟨nearer, scope, outer, home, split, defines, _, _, resolves⟩ | ⟨free, none⟩ :=
    represents.resolve name chain place
  · rw [resolves]
    constructor
    · intro none
      cases none
    · intro free
      exact absurd defines (free scopes chain scope (split ▸ List.mem_append_cons_self))
  · refine ⟨fun _ others chain' => ?_, fun _ => none⟩
    rw [← chain.unique chain']
    exact free

theorem Represents.assign (place : s.scopes[e]? = some id) {value : Value} {home : Nat}
    (resolves : s.store.resolve id name = some home) :
    Represents (log ++ [(.assign e name value, .assigned)])
      { s with store := s.store.update home name value } := by
  obtain ⟨scope, nearest, there, old, held, _⟩ := represents.found place resolves
  have ⟨nearer, outer, chain, defines, _⟩ := nearest
  have names : Names log scope scope := ⟨outer, chain.rest rfl⟩
  have definer : ∀ e' name' value', (Request.assign e name value, Reply.assigned) =
      (.define e' name' value', .defined) → e' < (made log).length := by
    intro e' name' value' other
    cases other
  have longer : Consistent (log ++ [(.assign e name value, .assigned)]) :=
    represents.consistent.concat (fun _ new => by cases new) definer
  apply represents.writes rfl definer names there
  · exact s.store.modify_size _ _ _
  · exact fun other => s.store.modify_parent? _ _ _ other
  · intro place' name'
    rw [s.store.update_held?]
    by_cases both : place' = home ∧ name' = name
    · rw [if_pos both, if_pos both, both.1, both.2, held]
      rfl
    · rw [if_neg both, if_neg both]
  · intro scope' name'
    rw [defines_concat_of_none (fun _ _ _ => by simp) represents.consistent longer]
    constructor
    · exact .inl
    · rintro (old | ⟨rfl, rfl⟩)
      · exact old
      · exact defines
  · intro scope' name' v
    rw [writes_last_iff]
    constructor
    · rintro (⟨_, other, _⟩ | ⟨_, same, nearest'⟩)
      · cases other
      · cases same
        exact ⟨nearest'.unique nearest, rfl, rfl⟩
    · rintro ⟨rfl, rfl, rfl⟩
      exact .inr ⟨e, rfl, nearest⟩

theorem Represents.answer (r : Request) :
    Represents (log ++ [(r, (s.answer r).1)]) (s.answer r).2 := by
  cases r with
  | openGlobal => exact represents.openGlobal
  | openChild e =>
      simp only [Environments.answer]
      split
      · exact represents.idle rfl (fun _ _ _ => by simp) (fun _ _ _ => by simp)
      · rename_i id place
        exact represents.openChild place
  | openAlias e =>
      simp only [Environments.answer]
      split
      · exact represents.idle rfl (fun _ _ _ => by simp) (fun _ _ _ => by simp)
      · rename_i id place
        exact represents.openAlias place
  | define e name value =>
      simp only [Environments.answer]
      split
      · exact represents.idle rfl (fun _ _ _ => by simp) (fun _ _ _ => by simp)
      · rename_i id place
        unfold Store.define?
        cases free : s.store.binds id name with
        | true => exact represents.idle rfl (fun _ _ _ => by simp) (fun _ _ _ => by simp)
        | false => exact represents.define place free
  | assign e name value =>
      simp only [Environments.answer]
      split
      · exact represents.idle rfl (fun _ _ _ => by simp) (fun _ _ _ => by simp)
      · rename_i id place
        unfold Store.assign?
        cases found : s.store.resolve id name with
        | none => exact represents.idle rfl (fun _ _ _ => by simp) (fun _ _ _ => by simp)
        | some home => exact represents.assign place found
  | get e name =>
      simp only [Environments.answer]
      split
      · exact represents.idle rfl (fun _ _ _ => by simp) (fun _ _ _ => by simp)
      · split
        · exact represents.idle rfl (fun _ _ _ => by simp) (fun _ _ _ => by simp)
        · exact represents.idle rfl (fun _ _ _ => by simp) (fun _ _ _ => by simp)

theorem Represents.serve (requests : List Request) :
    Represents (log ++ s.log requests) (s.serve requests) := by
  induction requests generalizing log s with
  | nil =>
      rw [Environments.log, List.append_nil]
      exact represents
  | cons r rest ih =>
      have next := ih (represents.answer r)
      rw [List.append_assoc] at next
      exact next

end Represents

section Replies

variable {log : Log} {s : Environments} (represents : Represents log s) {e : Nat}
  (known : e < (made log).length) (name : String) (value : Value)

include represents known

theorem Represents.reply_define :
    ((s.answer (.define e name value)).1 = .alreadyDefined ↔
      ∃ other old, (.define other name old, .defined) ∈ log ∧ Alias log e other) ∧
    ((s.answer (.define e name value)).1 = .defined ↔
      ¬∃ other old, (.define other name old, .defined) ∈ log ∧ Alias log e other) := by
  obtain ⟨id, place⟩ := represents.exists_place known
  obtain ⟨scope, names⟩ := exists_names represents.consistent known
  have ⟨outer, chain⟩ := names
  have there := (represents.place_eq chain rfl).symm.trans place
  have bound := represents.bound scope id names.self there name
  have defines : Defines log scope name ↔
      ∃ other old, (.define other name old, .defined) ∈ log ∧ Alias log e other := by
    constructor
    · rintro ⟨other, old, member, names'⟩
      exact ⟨other, old, member, scope, names, names'⟩
    · rintro ⟨other, old, member, scope', names', there⟩
      cases names'.unique names
      exact ⟨other, old, member, there⟩
  rw [← defines, ← bound]
  simp only [Environments.answer, place]
  unfold Store.define?
  cases s.store.binds id name with
  | true => simp
  | false => simp

theorem Represents.reply_assign :
    ((s.answer (.assign e name value)).1 = .undefined ↔
      ∀ scopes, Chain log e scopes → ∀ scope ∈ scopes, ¬Defines log scope name) ∧
    ((s.answer (.assign e name value)).1 = .assigned ↔
      ¬∀ scopes, Chain log e scopes → ∀ scope ∈ scopes, ¬Defines log scope name) := by
  obtain ⟨id, place⟩ := represents.exists_place known
  rw [← represents.not_found place]
  simp only [Environments.answer, place]
  unfold Store.assign?
  cases s.store.resolve id name with
  | none => simp
  | some home => simp

theorem Represents.reply_get :
    (∀ v, (s.answer (.get e name)).1 = .found v ↔
      ∃ scope, Nearest log e name scope ∧ Latest log scope name v) ∧
    ((s.answer (.get e name)).1 = .missing ↔ ¬∃ scope, Nearest log e name scope) := by
  obtain ⟨id, place⟩ := represents.exists_place known
  simp only [Environments.answer, place]
  rw [s.store.get?_eq_held?]
  cases found : s.store.resolve id name with
  | none =>
      have free := (represents.not_found place).mp found
      have nowhere : ∀ scope, ¬Nearest log e name scope := by
        rintro scope ⟨nearer, outer, chain, defines, _⟩
        exact free _ chain scope List.mem_append_cons_self defines
      simp [nowhere]
  | some home =>
      obtain ⟨scope, nearest, there, old, held, latest⟩ := represents.found place found
      have names : Names log scope scope := by
        obtain ⟨_, outer, chain, _⟩ := nearest
        exact ⟨outer, chain.rest rfl⟩
      rw [Option.bind_some, held]
      constructor
      · intro v
        constructor
        · rintro same
          cases same
          exact ⟨scope, nearest, latest⟩
        · rintro ⟨scope', nearest', latest'⟩
          cases nearest'.unique nearest
          have held' := (represents.value scope home names there name v).mpr latest'
          rw [held] at held'
          exact congrArg Reply.found (Option.some.inj held')
      · simp only [reduceCtorEq, false_iff]
        exact fun nowhere => nowhere ⟨scope, nearest⟩

theorem Represents.chain_ends :
    ∃ scopes last, Chain log e scopes ∧ (∀ others, Chain log e others → others = scopes) ∧
      scopes.getLast? = some last ∧ (made log)[last]? = some .openGlobal := by
  obtain ⟨scopes, chain⟩ := exists_chain represents.consistent known
  obtain ⟨last, ends, top⟩ := chain.ends
  exact ⟨scopes, last, chain, fun others chain' => chain'.unique chain, ends, top⟩

end Replies

theorem represents_unmade : Represents [] unmade where
  consistent := {
    maker := fun e r found => by cases found
    definer := fun e name value member => by cases member }
  count := rfl
  inside := fun e id place => by cases place
  top := fun e id found => by cases found
  child := fun e outer id found => by cases found
  aliased := fun e other found => by cases found
  apart := fun e older known => by cases known
  bound := fun scope id names => absurd names.made (Nat.not_lt_zero _)
  value := fun scope id names => absurd names.made (Nat.not_lt_zero _)

theorem represents_history (requests : List Request) :
    Represents (history requests) (unmade.serve requests) := represents_unmade.serve requests

/-- Each request is replied to as the history before it asks for, and one that is not fulfilled
changes no later reply. -/
theorem replies_follow_history (before later : List Request) (r : Request) :
    ∃ reply rest, history (before ++ r :: later) = history before ++ (r, reply) :: rest ∧
      (reply.fails = true → history (before ++ later) = history before ++ rest) ∧
      (r = .openGlobal → reply = .opened) ∧
      ∀ e < (made (history before)).length,
        (∃ scopes last, Chain (history before) e scopes ∧
          (∀ others, Chain (history before) e others → others = scopes) ∧
          scopes.getLast? = some last ∧ (made (history before))[last]? = some .openGlobal) ∧
        (r = .openChild e ∨ r = .openAlias e → reply = .opened) ∧
        (∀ name value, r = .define e name value →
          (reply = .alreadyDefined ↔ ∃ other old,
            (.define other name old, .defined) ∈ history before ∧ Alias (history before) e other) ∧
          (reply = .defined ↔ ¬∃ other old,
            (.define other name old, .defined) ∈ history before ∧
              Alias (history before) e other)) ∧
        (∀ name value, r = .assign e name value →
          (reply = .undefined ↔ ∀ scopes, Chain (history before) e scopes →
            ∀ scope ∈ scopes, ¬Defines (history before) scope name) ∧
          (reply = .assigned ↔ ¬∀ scopes, Chain (history before) e scopes →
            ∀ scope ∈ scopes, ¬Defines (history before) scope name)) ∧
        (∀ name, r = .get e name →
          (∀ v, reply = .found v ↔ ∃ scope, Nearest (history before) e name scope ∧
            Latest (history before) scope name v) ∧
          (reply = .missing ↔ ¬∃ scope, Nearest (history before) e name scope)) := by
  have represents := represents_history before
  generalize served : unmade.serve before = s at represents
  refine ⟨(s.answer r).1, (s.answer r).2.log later, ?_, ?_, ?_, ?_⟩
  · rw [history_append, served]
    rfl
  · intro fails
    rw [history_append, served, s.answer_of_fails r fails]
  · rintro rfl
    rfl
  · intro e known
    refine ⟨represents.chain_ends known, ?_, ?_, ?_, ?_⟩
    · obtain ⟨id, place⟩ := represents.exists_place known
      rintro (rfl | rfl)
      · simp only [answer, place]
        rfl
      · simp only [answer, place]
        rfl
    · rintro name value rfl
      exact represents.reply_define known name value
    · rintro name value rfl
      exact represents.reply_assign known name value
    · rintro name rfl
      exact represents.reply_get known name

/-- A name that was defined through a child is taken for an alias of the child, though not for the
environment around it. -/
theorem alias_shares_definitions :
    ∃ rest, history [.openGlobal, .openChild 0, .openAlias 1, .define 1 "a" .nil,
        .define 2 "a" (.boolean true), .define 0 "a" .nil] =
      history [.openGlobal, .openChild 0, .openAlias 1, .define 1 "a" .nil] ++
        (.define 2 "a" (.boolean true), .alreadyDefined) :: rest := by
  have known : 2 < (made (history [.openGlobal, .openChild 0, .openAlias 1,
      .define 1 "a" .nil])).length := by decide +kernel
  obtain ⟨reply, rest, replied, _, _, told⟩ :=
    replies_follow_history [.openGlobal, .openChild 0, .openAlias 1, .define 1 "a" .nil]
      [.define 0 "a" .nil] (.define 2 "a" (.boolean true))
  obtain ⟨_, _, defines, _⟩ := told 2 known
  have child : Chain (history [.openGlobal, .openChild 0, .openAlias 1, .define 1 "a" .nil]) 1
      [1, 0] := .child rfl (.top rfl)
  have taken : reply = .alreadyDefined := (defines "a" _ rfl).1.mpr
    ⟨1, .nil, List.mem_of_getElem? (i := 3) rfl, 1, ⟨[0], .aliased rfl child⟩, ⟨[0], child⟩⟩
  exact ⟨rest, taken ▸ replied⟩

end Environments

end Jess
