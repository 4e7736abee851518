import Jess.Value

/-!
# The history of environments

An environment is a handle of a scope, and environments are numbered in the
order in which they are made. The log of all that was asked of environments and
replied to it tells, without any store, which scope an environment stands for,
which scopes lie around it, which names a scope defines, and which write to a
name of a scope came last. A scope is known by the number of the environment
that it was opened with, and an alias of an environment stands for its scope.
-/

namespace Jess.Environment

inductive Request
  | openGlobal
  | openChild (e : Nat)
  | openAlias (e : Nat)
  | define (e : Nat) (name : String) (value : Value)
  | assign (e : Nat) (name : String) (value : Value)
  | get (e : Nat) (name : String)

inductive Reply
  | opened
  | defined
  | alreadyDefined
  | assigned
  | undefined
  | found (value : Value)
  | missing
  | noEnvironment

abbrev Log := List (Request × Reply)

/-- Whether a request was not fulfilled. -/
def Reply.fails : Reply → Bool
  | .alreadyDefined => true
  | .undefined => true
  | .missing => true
  | .noEnvironment => true
  | _ => false

/-- The request that an environment was made by, if an entry of the log made one. -/
def maker? : Request × Reply → Option Request
  | (r, .opened) => some r
  | _ => none

/-- The requests that environments were made by, in the order of their numbers. -/
def made (log : Log) : List Request := log.filterMap maker?

/-- The scopes from an environment outward, up to a global one. -/
inductive Chain (log : Log) : Nat → List Nat → Prop
  | top {e : Nat} (made : (made log)[e]? = some .openGlobal) : Chain log e [e]
  | child {e outer : Nat} {scopes : List Nat} (made : (made log)[e]? = some (.openChild outer))
      (around : Chain log outer scopes) : Chain log e (e :: scopes)
  | aliased {e other : Nat} {scopes : List Nat} (made : (made log)[e]? = some (.openAlias other))
      (same : Chain log other scopes) : Chain log e scopes

/-- An environment stands for a scope. -/
def Names (log : Log) (e scope : Nat) : Prop := ∃ outer, Chain log e (scope :: outer)

/-- Two environments stand for the same scope. -/
def Alias (log : Log) (e other : Nat) : Prop := ∃ scope, Names log e scope ∧ Names log other scope

/-- A name was successfully defined in a scope. -/
def Defines (log : Log) (scope : Nat) (name : String) : Prop :=
  ∃ e value, (.define e name value, .defined) ∈ log ∧ Names log e scope

/-- The nearest scope from an environment outward that defines a name. -/
def Nearest (log : Log) (e : Nat) (name : String) (scope : Nat) : Prop :=
  ∃ nearer outer, Chain log e (nearer ++ scope :: outer) ∧ Defines log scope name ∧
    ∀ s ∈ nearer, ¬Defines log s name

/-- An entry of the log writes a value to a name of a scope. What an assignment writes to is told
by what comes before it. -/
inductive Writes (log : Log) (entry scope : Nat) (name : String) (value : Value) : Prop
  | define {e : Nat} (done : log[entry]? = some (.define e name value, .defined))
      (target : Names (log.take entry) e scope)
  | assign {e : Nat} (done : log[entry]? = some (.assign e name value, .assigned))
      (target : Nearest (log.take entry) e name scope)

/-- The last value that was written to a name of a scope. -/
def Latest (log : Log) (scope : Nat) (name : String) (value : Value) : Prop :=
  ∃ entry, Writes log entry scope name value ∧
    ∀ other old, Writes log other scope name old → other ≤ entry

/-- Environments are made by requests that make one, from older ones, and names are defined through
environments that were made. -/
structure Consistent (log : Log) : Prop where
  maker : ∀ (e : Nat) (r : Request), (made log)[e]? = some r →
    r = .openGlobal ∨ ∃ older, older < e ∧ (r = .openChild older ∨ r = .openAlias older)
  definer : ∀ e name value, (.define e name value, .defined) ∈ log → e < (made log).length

section Makers

variable {log : Log} {e : Nat} {r request : Request}

theorem made_append (log more : Log) : made (log ++ more) = made log ++ made more :=
  List.filterMap_append

theorem maker?_eq_some_iff {entry : Request × Reply} :
    maker? entry = some r ↔ entry = (r, .opened) := by
  obtain ⟨request, reply⟩ := entry
  cases reply with
  | opened => simp [maker?]
  | _ => simp [maker?]

theorem made_of_none {last : Request × Reply} (makes : maker? last = none) :
    made (log ++ [last]) = made log := by
  rw [made_append]
  simp [made, makes]

theorem made_opened : made (log ++ [(r, .opened)]) = made log ++ [r] := made_append _ _

theorem made_opened_cases (found : (made (log ++ [(r, .opened)]))[e]? = some request) :
    e < (made log).length ∧ (made log)[e]? = some request ∨
      e = (made log).length ∧ request = r := by
  rw [made_opened] at found
  obtain old | new | beyond := Nat.lt_trichotomy e (made log).length
  · rw [List.getElem?_append_left old] at found
    exact .inl ⟨old, found⟩
  · rw [new, List.getElem?_concat_length] at found
    exact .inr ⟨new, (Option.some.inj found).symm⟩
  · have bound := (List.getElem?_eq_some_iff.mp found).1
    rw [List.length_append, List.length_singleton] at bound
    omega

theorem Consistent.child_lt (consistent : Consistent log) {outer : Nat}
    (child : (made log)[e]? = some (.openChild outer)) : outer < e := by
  obtain top | ⟨older, before, same | aliased⟩ := consistent.maker e _ child
  · cases top
  · cases same
    exact before
  · cases aliased

theorem Consistent.alias_lt (consistent : Consistent log) {other : Nat}
    (aliased : (made log)[e]? = some (.openAlias other)) : other < e := by
  obtain top | ⟨older, before, child | same⟩ := consistent.maker e _ aliased
  · cases top
  · cases child
  · cases same
    exact before

theorem Consistent.concat {last : Request × Reply} (consistent : Consistent log)
    (maker : ∀ r : Request, last = (r, .opened) → r = .openGlobal ∨
      ∃ older, older < (made log).length ∧ (r = .openChild older ∨ r = .openAlias older))
    (definer : ∀ e name value, last = (.define e name value, .defined) → e < (made log).length) :
    Consistent (log ++ [last]) where
  maker := by
    intro e r found
    cases makes : maker? last with
    | none =>
        rw [made_of_none makes] at found
        exact consistent.maker e r found
    | some request =>
        cases maker?_eq_some_iff.mp makes
        obtain ⟨_, old⟩ | ⟨rfl, rfl⟩ := made_opened_cases found
        · exact consistent.maker e r old
        · exact maker r rfl
  definer := by
    intro e name value member
    have known : e < (made log).length := by
      obtain before | here := List.mem_append.mp member
      · exact consistent.definer e name value before
      · exact definer e name value (List.mem_singleton.mp here).symm
    rw [made_append, List.length_append]
    exact Nat.lt_add_right _ known

end Makers

section Chains

variable {log : Log} {e scope : Nat} {scopes others : List Nat}

theorem Chain.congr {other : Log} (same : made log = made other) (chain : Chain log e scopes) :
    Chain other e scopes := by
  induction chain with
  | top made => exact .top (same ▸ made)
  | child made _ ih => exact .child (same ▸ made) ih
  | aliased made _ ih => exact .aliased (same ▸ made) ih

theorem Chain.made (chain : Chain log e scopes) : e < (made log).length := by
  cases chain with
  | top made => exact (List.getElem?_eq_some_iff.mp made).1
  | child made _ => exact (List.getElem?_eq_some_iff.mp made).1
  | aliased made _ => exact (List.getElem?_eq_some_iff.mp made).1

theorem Chain.unique (first : Chain log e scopes) (second : Chain log e others) :
    scopes = others := by
  induction first generalizing others with
  | top made =>
      cases second with
      | top _ => rfl
      | child made' _ => cases made.symm.trans made'
      | aliased made' _ => cases made.symm.trans made'
  | child made _ ih =>
      cases second with
      | top made' => cases made.symm.trans made'
      | child made' around =>
          cases made.symm.trans made'
          rw [ih around]
      | aliased made' _ => cases made.symm.trans made'
  | aliased made _ ih =>
      cases second with
      | top made' => cases made.symm.trans made'
      | child made' _ => cases made.symm.trans made'
      | aliased made' same =>
          cases made.symm.trans made'
          exact ih same

theorem Chain.rest (chain : Chain log e scopes) {nearer outer : List Nat}
    (split : scopes = nearer ++ scope :: outer) : Chain log scope (scope :: outer) := by
  induction chain generalizing nearer with
  | top made =>
      cases nearer with
      | nil =>
          cases split
          exact .top made
      | cons s nearer => simp at split
  | child made around ih =>
      cases nearer with
      | nil =>
          cases split
          exact .child made around
      | cons s nearer =>
          cases split
          exact ih rfl
  | aliased made same ih => exact ih split

theorem Names.self (names : Names log e scope) : Names log scope scope := by
  obtain ⟨outer, chain⟩ := names
  exact ⟨outer, chain.rest (List.nil_append _).symm⟩

theorem Names.unique {other : Nat} (first : Names log e scope) (second : Names log e other) :
    scope = other := by
  obtain ⟨_, chain⟩ := first
  obtain ⟨_, chain'⟩ := second
  cases chain.unique chain'
  rfl

theorem Names.made (names : Names log e scope) : e < (made log).length := by
  obtain ⟨_, chain⟩ := names
  exact chain.made

theorem Chain.ends (chain : Chain log e scopes) :
    ∃ last, scopes.getLast? = some last ∧ (Environment.made log)[last]? = some .openGlobal := by
  induction chain with
  | @top e made => exact ⟨e, rfl, made⟩
  | child made around ih =>
      obtain ⟨last, ends, top⟩ := ih
      refine ⟨last, ?_, top⟩
      rw [List.getLast?_cons, ends]
      rfl
  | aliased made same ih => exact ih

theorem Chain.opens (chain : Chain log e scopes) {s : Nat} (member : s ∈ scopes) (older : Nat) :
    (Environment.made log)[s]? ≠ some (.openAlias older) := by
  induction chain with
  | top made =>
      cases List.mem_singleton.mp member
      rw [made]
      simp
  | child made _ ih =>
      cases member with
      | head =>
          rw [made]
          simp
      | tail _ member => exact ih member
  | aliased _ _ ih => exact ih member

theorem Nearest.unique {name : String} {other : Nat} (first : Nearest log e name scope)
    (second : Nearest log e name other) : scope = other := by
  obtain ⟨nearer, outer, chain, defines, free⟩ := first
  obtain ⟨nearer', outer', chain', defines', free'⟩ := second
  have same := chain.unique chain'
  clear chain chain'
  induction nearer generalizing nearer' with
  | nil =>
      cases nearer' with
      | nil => exact (List.cons.inj same).1
      | cons s nearer' =>
          cases (List.cons.inj same).1
          exact absurd defines (free' _ List.mem_cons_self)
  | cons s nearer ih =>
      cases nearer' with
      | nil =>
          cases (List.cons.inj same).1
          exact absurd defines' (free _ List.mem_cons_self)
      | cons s' nearer' =>
          exact ih (fun s member => free s (.tail _ member)) nearer'
            (fun s member => free' s (.tail _ member)) (List.cons.inj same).2

variable (consistent : Consistent log)

include consistent

theorem exists_chain (known : e < (made log).length) : ∃ scopes, Chain log e scopes := by
  induction e using Nat.strongRecOn with
  | ind e ih =>
      have made := List.getElem?_eq_getElem known
      obtain top | ⟨older, before, child | aliased⟩ := consistent.maker e _ made
      · exact ⟨[e], .top (top ▸ made)⟩
      · obtain ⟨scopes, around⟩ := ih older before (Nat.lt_trans before known)
        exact ⟨e :: scopes, .child (child ▸ made) around⟩
      · obtain ⟨scopes, same⟩ := ih older before (Nat.lt_trans before known)
        exact ⟨scopes, .aliased (aliased ▸ made) same⟩

theorem exists_names (known : e < (made log).length) : ∃ scope, Names log e scope := by
  obtain ⟨scopes, chain⟩ := exists_chain consistent known
  cases scopes with
  | nil =>
      obtain ⟨_, none, _⟩ := chain.ends
      cases none
  | cons scope outer => exact ⟨scope, outer, chain⟩

theorem chain_append_iff (more : Log) (known : e < (made log).length) :
    Chain (log ++ more) e scopes ↔ Chain log e scopes := by
  have same : ∀ {n}, n < (made log).length → (made (log ++ more))[n]? = (made log)[n]? := by
    intro n inside
    rw [made_append, List.getElem?_append_left inside]
  constructor
  · intro chain
    induction chain with
    | top made => exact .top ((same known).symm.trans made)
    | child made _ ih =>
        have made := (same known).symm.trans made
        exact .child made (ih (Nat.lt_trans (consistent.child_lt made) known))
    | aliased made _ ih =>
        have made := (same known).symm.trans made
        exact .aliased made (ih (Nat.lt_trans (consistent.alias_lt made) known))
  · intro chain
    clear known
    induction chain with
    | top made => exact .top ((same (Chain.top made).made).trans made)
    | child made around ih => exact .child ((same (Chain.child made around).made).trans made) ih
    | aliased made same' ih => exact .aliased ((same (Chain.aliased made same').made).trans made) ih

theorem names_append_iff (more : Log) (known : e < (made log).length) :
    Names (log ++ more) e scope ↔ Names log e scope :=
  exists_congr fun _ => chain_append_iff consistent more known

end Chains

section Writes

variable {log : Log} {scope entry : Nat} {name : String} {value : Value}

theorem defines_concat_iff {last : Request × Reply} (consistent : Consistent log)
    (longer : Consistent (log ++ [last])) :
    Defines (log ++ [last]) scope name ↔
      Defines log scope name ∨
        ∃ e value, last = (.define e name value, .defined) ∧ Names log e scope := by
  constructor
  · rintro ⟨e, value, member, names⟩
    obtain before | here := List.mem_append.mp member
    · have known := consistent.definer e name value before
      exact .inl ⟨e, value, before, (names_append_iff consistent _ known).mp names⟩
    · have here := List.mem_singleton.mp here
      have known := longer.definer e name value member
      rw [← here, made_of_none rfl] at known
      exact .inr ⟨e, value, here.symm, (names_append_iff consistent _ known).mp names⟩
  · rintro (⟨e, value, member, names⟩ | ⟨e, value, here, names⟩)
    · exact ⟨e, value, List.mem_append_left _ member,
        (names_append_iff consistent _ names.made).mpr names⟩
    · exact ⟨e, value, List.mem_append_right _ (List.mem_singleton.mpr here.symm),
        (names_append_iff consistent _ names.made).mpr names⟩

theorem Writes.known (writes : Writes log entry scope name value) : scope < (made log).length := by
  have inside : (made (log.take entry)).length ≤ (made log).length :=
    ((List.take_sublist _ _).filterMap _).length_le
  cases writes with
  | define _ target => exact Nat.lt_of_lt_of_le target.self.made inside
  | assign _ target =>
      obtain ⟨_, _, chain, _⟩ := target
      exact Nat.lt_of_lt_of_le (chain.rest rfl).made inside

theorem writes_concat_iff (last : Request × Reply) :
    Writes (log ++ [last]) entry scope name value ↔
      Writes log entry scope name value ∨
        entry = log.length ∧ Writes (log ++ [last]) log.length scope name value := by
  have inside {x : Request × Reply} (done : log[entry]? = some x) : entry < log.length :=
    (List.getElem?_eq_some_iff.mp done).1
  constructor
  · intro writes
    by_cases old : entry < log.length
    · have same : (log ++ [last])[entry]? = log[entry]? := List.getElem?_append_left old
      have before : (log ++ [last]).take entry = log.take entry :=
        List.take_append_of_le_length (Nat.le_of_lt old)
      cases writes with
      | define done target => exact .inl (.define (same ▸ done) (before ▸ target))
      | assign done target => exact .inl (.assign (same ▸ done) (before ▸ target))
    · have here : entry = log.length := by
        have bound : entry < (log ++ [last]).length := by
          cases writes with
          | define done _ => exact (List.getElem?_eq_some_iff.mp done).1
          | assign done _ => exact (List.getElem?_eq_some_iff.mp done).1
        rw [List.length_append, List.length_singleton] at bound
        omega
      exact .inr ⟨here, here ▸ writes⟩
  · rintro (writes | ⟨rfl, writes⟩)
    · cases writes with
      | define done target =>
          have old := inside done
          refine .define ((List.getElem?_append_left old).trans done) ?_
          rwa [List.take_append_of_le_length (Nat.le_of_lt old)]
      | assign done target =>
          have old := inside done
          refine .assign ((List.getElem?_append_left old).trans done) ?_
          rwa [List.take_append_of_le_length (Nat.le_of_lt old)]
    · exact writes

theorem writes_last_iff (last : Request × Reply) :
    Writes (log ++ [last]) log.length scope name value ↔
      (∃ e, last = (.define e name value, .defined) ∧ Names log e scope) ∨
        ∃ e, last = (.assign e name value, .assigned) ∧ Nearest log e name scope := by
  have here : (log ++ [last])[log.length]? = some last := List.getElem?_concat_length
  have before : (log ++ [last]).take log.length = log := List.take_left
  constructor
  · rintro (⟨done, target⟩ | ⟨done, target⟩)
    · rw [here] at done
      rw [before] at target
      exact .inl ⟨_, Option.some.inj done, target⟩
    · rw [here] at done
      rw [before] at target
      exact .inr ⟨_, Option.some.inj done, target⟩
  · rintro (⟨e, rfl, target⟩ | ⟨e, rfl, target⟩)
    · exact .define here (before.symm ▸ target)
    · exact .assign here (before.symm ▸ target)

/-- The last value of a name in a longer log is what the last entry writes, or the last one of
before if it writes nothing there. -/
theorem latest_concat_iff (last : Request × Reply) :
    Latest (log ++ [last]) scope name value ↔
      Writes (log ++ [last]) log.length scope name value ∨
        (∀ new, ¬Writes (log ++ [last]) log.length scope name new) ∧
          Latest log scope name value := by
  have bound {entry : Nat} {value : Value} (writes : Writes log entry scope name value) :
      entry < log.length := by
    cases writes with
    | define done _ => exact (List.getElem?_eq_some_iff.mp done).1
    | assign done _ => exact (List.getElem?_eq_some_iff.mp done).1
  constructor
  · rintro ⟨entry, writes, latest⟩
    obtain old | ⟨rfl, now⟩ := (writes_concat_iff last).mp writes
    · refine .inr ⟨fun new now => ?_, entry, old, fun other before earlier => ?_⟩
      · exact absurd (latest _ _ now) (Nat.not_le.mpr (bound old))
      · exact latest other before ((writes_concat_iff last).mpr (.inl earlier))
    · exact .inl now
  · rintro (now | ⟨nothing, entry, writes, latest⟩)
    · refine ⟨log.length, now, fun other old writes => ?_⟩
      obtain before | ⟨rfl, _⟩ := (writes_concat_iff last).mp writes
      · exact Nat.le_of_lt (bound before)
      · exact Nat.le_refl _
    · refine ⟨entry, (writes_concat_iff last).mpr (.inl writes), fun other old writes' => ?_⟩
      obtain before | ⟨rfl, now⟩ := (writes_concat_iff last).mp writes'
      · exact latest other old before
      · exact absurd now (nothing old)

variable {last : Request × Reply}
  (definesNone : ∀ e name value, last ≠ (.define e name value, .defined))

include definesNone

theorem defines_concat_of_none (consistent : Consistent log) (longer : Consistent (log ++ [last])) :
    Defines (log ++ [last]) scope name ↔ Defines log scope name := by
  rw [defines_concat_iff consistent longer]
  constructor
  · rintro (old | ⟨e, value, here, _⟩)
    · exact old
    · exact absurd here (definesNone e name value)
  · exact .inl

theorem latest_concat_of_none
    (assignsNone : ∀ e name value, last ≠ (.assign e name value, .assigned)) :
    Latest (log ++ [last]) scope name value ↔ Latest log scope name value := by
  have nothing : ∀ new, ¬Writes (log ++ [last]) log.length scope name new := by
    intro new writes
    obtain ⟨e, here, _⟩ | ⟨e, here, _⟩ := (writes_last_iff last).mp writes
    · exact definesNone e name new here
    · exact assignsNone e name new here
  rw [latest_concat_iff]
  constructor
  · rintro (now | ⟨_, old⟩)
    · exact absurd now (nothing value)
    · exact old
  · exact fun old => .inr ⟨nothing, old⟩

end Writes

end Jess.Environment
