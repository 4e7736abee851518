import Jess.Proofs.ForLoops
import Jess.Proofs.Precedence

/-!
# The tree of a loop with clauses

The tree has a block around the initializer and the loop, and one around the
body and the increment, but only where there is an initializer or an increment.
So in each turn it runs in other scopes than the clauses say, and these are
loosely paired with the ones that they stand for. A loop comes to its outcome
after the same rounds, each of which leaves the scopes paired.
-/

namespace Jess

namespace Machine

/-- What is left of a block is passed over by a result that ends it. -/
theorem leaves_block (result : Except Fault Completion) (rest : List Stmt)
    (ends : rest = [] ∨ result ≠ .ok .normal) (home : Nat) (k : StmtCont) (j : Interpreter) :
    Reaches ⟨(StmtCont.sequence rest (.leaveBlock home k)).take result, j⟩
      ⟨k.take result, j.moveTo home⟩ := by
  cases result with
  | error f => exact .step (.step .refl)
  | ok c =>
      cases c with
      | returned v => exact .step (.step .refl)
      | normal =>
          obtain rfl | ends := ends
          · exact .step (.step .refl)
          · exact absurd rfl ends

section Loops

variable (condition : Expr) (body : Stmt) (k : StmtCont) (j : Interpreter)

theorem leaves_loop {result : Except Fault Completion} (ends : result ≠ .ok .normal) :
    Reaches ⟨(StmtCont.again condition body k).take result, j⟩ ⟨k.take result, j⟩ := by
  cases result with
  | error f => exact .step .refl
  | ok c =>
      cases c with
      | returned v => exact .step .refl
      | normal => exact absurd rfl ends

theorem test_holds {v : Value} (truthy : v.isTruthy = true) :
    (⟨.deliver v (.test condition body k), j⟩ : Machine).step =
      ⟨.execute body (.again condition body k), j⟩ := by
  simp only [step, deliver, truthy, if_true]

theorem test_fails {v : Value} (falsy : v.isTruthy = false) :
    (⟨.deliver v (.test condition body k), j⟩ : Machine).step = ⟨.finish .normal k, j⟩ := by
  simp only [step, deliver, falsy, Bool.false_eq_true, if_false]

end Loops

end Machine

namespace ForLoop

open Machine

variable {loop : ForLoop} {p : Pairing} {i j : Interpreter}

variable (loop) in
theorem tests_mirrors (paired : Interpreter.Paired p i j) (k : ValueCont) :
    Mirrors p (fun _ b v => b = Value.isTruthy v) k.take (loop.Tests i)
      ⟨.evaluate loop.test k, j⟩ := by
  cases given : loop.condition with
  | none =>
      have missing : loop.test = .literal (.boolean true) := by rw [test, given, Option.getD_none]
      rw [missing]
      constructor
      · intro result i' tested
        cases tested with
        | absent _ => exact ⟨p, .ok (.boolean true), j, .refl p, .ok rfl, paired, .step .refl⟩
        | present given' _ => exact absurd (given.symm.trans given') nofun
      · exact fun _ => ⟨_, _, .absent given⟩
  | some e =>
      have present : loop.test = e := by rw [test, given, Option.getD_some]
      rw [present]
      have mirrors := evaluate_mirrors paired e k
      constructor
      · intro result i' tested
        cases tested with
        | absent nothing => exact absurd (given.symm.trans nothing) nofun
        | present given' ran =>
            cases given.symm.trans given'
            obtain ⟨q, result', j', later, results, paired, way⟩ := mirrors.follows ran
            refine ⟨q, result', j', later, ?_, paired, way⟩
            cases results with
            | ok alike => exact .ok alike.isTruthy
            | error f => exact .error f
      · intro halts
        obtain ⟨result, i', ran⟩ := mirrors.tells halts
        exact ⟨_, _, .present given ran⟩

section Turns

variable (plain : loop.body.IsPlain) (paired : Interpreter.Paired p i j) (k : StmtCont)

include plain paired

theorem bare_mirrors (nothing : loop.increment = none) :
    Mirrors p Completion.Paired k.take (loop.Turns i) ⟨.execute loop.body k, j⟩ := by
  have mirrors := plain_mirrors paired plain k
  constructor
  · intro result i' turned
    cases turned with
    | early ran _ => exact mirrors.follows ran
    | bare ran _ => exact mirrors.follows ran
    | advanced _ given _ => exact absurd (nothing.symm.trans given) nofun
  · intro halts
    obtain ⟨result, i', ran⟩ := mirrors.tells halts
    by_cases ends : result = .ok .normal
    · subst ends
      exact ⟨_, _, .bare ran nothing⟩
    · exact ⟨_, _, .early ran ends⟩

omit plain in
theorem increment_mirrors {home : Nat} (around : p.Pairs i.env home) (e : Expr) :
    Mirrors p Completion.Paired k.take
      (fun result i' => ∃ value, i.Evaluates e value i' ∧ result = value.map fun _ => .normal)
      ⟨.execute (.expression e) (.sequence [] (.leaveBlock home k)), j⟩ := by
  have mirrors := (evaluate_mirrors paired e (.discard (.sequence [] (.leaveBlock home k)))).after
    (m := ⟨.execute (.expression e) (.sequence [] (.leaveBlock home k)), j⟩) (.step .refl)
  constructor
  · rintro result i' ⟨value, ran, rfl⟩
    obtain ⟨q, value', j', later, results, both, way⟩ := mirrors.follows ran
    have home' : q.Pairs i'.env home := ran.env ▸ around.extend later
    have leaves (result : Except Fault Completion) :=
      leaves_block result [] (.inl rfl) home k j'
    cases results with
    | ok _ =>
        exact ⟨q, .ok .normal, j'.moveTo home, later, .ok .normal, { both with env := home' },
          way.trans (.step (leaves (.ok .normal)))⟩
    | error f =>
        exact ⟨q, .error f, j'.moveTo home, later, .error f, { both with env := home' },
          way.trans (.step (leaves (.error f)))⟩
  · intro halts
    obtain ⟨value, i', ran⟩ := mirrors.tells halts
    exact ⟨_, i', value, ran, rfl⟩

theorem advanced_mirrors {e : Expr} (given : loop.increment = some e) :
    Mirrors p Completion.Paired k.take (loop.Turns i)
      ⟨.execute (.block [loop.body, .expression e]) k, j⟩ := by
  let inner := StmtCont.sequence [.expression e] (.leaveBlock j.env k)
  have enters : Reaches ⟨.execute (.block [loop.body, .expression e]) k, j⟩
      ⟨.execute loop.body inner, j.enter j.env⟩ := .step (.step .refl)
  have extends_ := p.addLoose_extends i.env j.store.size
  have mirrors := plain_mirrors paired.enterSecond plain inner
  -- Once the body has come to its end, the increment is next.
  have goesOn {i' : Interpreter} (ran : i.Executes loop.body (.ok .normal) i') :
      ∃ q j', p.Extends q ∧ Reaches ⟨.execute loop.body inner, j.enter j.env⟩
        ⟨.execute (.expression e) (.sequence [] (.leaveBlock j.env k)), j'⟩ ∧
        Interpreter.Paired q i' j' ∧ q.Pairs i'.env j.env := by
    obtain ⟨q, result', j', later, results, both, way⟩ := mirrors.follows ran
    cases results.normal_of
    have home : q.Pairs i'.env j.env := ran.env ▸ paired.env.extend (extends_.trans later)
    exact ⟨q, j', extends_.trans later, way.trans (.step .refl), both, home⟩
  constructor
  · intro result i' turned
    cases turned with
    | early ran ends =>
        obtain ⟨q, result', j', later, results, both, way⟩ := mirrors.follows ran
        have home : q.Pairs i'.env j.env := ran.env ▸ paired.env.extend (extends_.trans later)
        have leaves := leaves_block result' [.expression e] (.inr (results.ends_of ends)) j.env k j'
        exact ⟨q, result', j'.moveTo j.env, extends_.trans later, results,
          { both with env := home }, enters.trans (way.trans leaves)⟩
    | bare _ nothing => exact absurd (given.symm.trans nothing) nofun
    | advanced ran given' advanced =>
        cases given.symm.trans given'
        obtain ⟨q, j', later, way, both, home⟩ := goesOn ran
        have follows := (increment_mirrors both k home e).follows ⟨_, advanced, rfl⟩
        exact (follows.extend later).after (enters.trans way)
  · intro halts
    have halts := halts.rest enters
    obtain ⟨result, i', ran⟩ := mirrors.tells halts
    by_cases ends : result = .ok .normal
    · subst ends
      obtain ⟨q, j', _, way, both, home⟩ := goesOn ran
      obtain ⟨_, i'', value, advanced, rfl⟩ := 
        (increment_mirrors both k home e).tells (halts.rest way)
      exact ⟨_, i'', .advanced ran given advanced⟩
    · exact ⟨_, _, .early ran ends⟩

theorem turns_mirrors :
    Mirrors p Completion.Paired k.take (loop.Turns i) ⟨.execute loop.round k, j⟩ := by
  cases given : loop.increment with
  | none =>
      have alone : loop.round = loop.body := by rw [round, given]
      rw [alone]
      exact bare_mirrors plain paired k given
  | some e =>
      have both : loop.round = .block [loop.body, .expression e] := by rw [round, given]
      rw [both]
      exact advanced_mirrors plain paired k given

end Turns

section Rounds

variable (loop) in
/-- The machine that is about to test the condition. -/
def tester (k : StmtCont) (j : Interpreter) : Machine :=
  ⟨.evaluate loop.test (.test loop.test loop.round k), j⟩

theorem tests_true (paired : Interpreter.Paired p i j) {i' : Interpreter}
    (tested : loop.Tests i (.ok true) i') (k : StmtCont) :
    ∃ q j', p.Extends q ∧ Interpreter.Paired q i' j' ∧
      Reaches (loop.tester k j) ⟨.execute loop.round (.again loop.test loop.round k), j'⟩ := by
  have mirrors := tests_mirrors loop paired (.test loop.test loop.round k)
  obtain ⟨q, result', j', later, results, both, way⟩ := mirrors.follows tested
  cases results with
  | @ok _ v alike =>
      have turns := test_holds loop.test loop.round k j' alike.symm
      exact ⟨q, j', later, both, way.trans (.step (turns ▸ .refl))⟩

theorem turns_normal (plain : loop.body.IsPlain) (paired : Interpreter.Paired p i j)
    {i' : Interpreter} (turned : loop.Turns i (.ok .normal) i') (k : StmtCont) :
    ∃ q j', p.Extends q ∧ Interpreter.Paired q i' j' ∧
      Reaches ⟨.execute loop.round (.again loop.test loop.round k), j⟩
        ⟨.finish .normal (.again loop.test loop.round k), j'⟩ := by
  have mirrors := turns_mirrors plain paired (.again loop.test loop.round k)
  obtain ⟨q, result', j', later, results, both, way⟩ := mirrors.follows turned
  cases results.normal_of
  exact ⟨q, j', later, both, way⟩

variable (plain : loop.body.IsPlain) (k : StmtCont)

include plain

/-- The rounds of a loop are those of its tree. The induction is on the rounds that are told. -/
theorem rounds_follow {result : Except Fault Completion} {i' : Interpreter}
    (rounds : loop.Rounds i result i') (paired : Interpreter.Paired p i j) :
    Follows p Completion.Paired k.take result i' (loop.tester k j) := by
  induction rounds generalizing p j with
  | untold tested =>
      have mirrors := tests_mirrors loop paired (.test loop.test loop.round k)
      obtain ⟨q, result', j', later, results, both, way⟩ := mirrors.follows tested
      cases results with
      | error => exact ⟨q, .error _, j', later, .error _, both, way.trans (.step .refl)⟩
  | ended tested =>
      have mirrors := tests_mirrors loop paired (.test loop.test loop.round k)
      obtain ⟨q, result', j', later, results, both, way⟩ := mirrors.follows tested
      cases results with
      | @ok _ v alike =>
          have ends := test_fails loop.test loop.round k j' alike.symm
          exact ⟨q, .ok .normal, j', later, .ok .normal, both, way.trans (.step (ends ▸ .refl))⟩
  | last tested turned ends =>
      obtain ⟨q, j', later, both, way⟩ := tests_true paired tested k
      have mirrors := turns_mirrors plain both (.again loop.test loop.round k)
      obtain ⟨q', result', j'', later', results, both', way'⟩ := mirrors.follows turned
      have leaves := leaves_loop loop.test loop.round k j'' (results.ends_of ends)
      exact ⟨q', result', j'', later.trans later', results, both', way.trans (way'.trans leaves)⟩
  | more tested turned _ ih =>
      obtain ⟨q, j', later, both, way⟩ := tests_true paired tested k
      obtain ⟨q', j'', later', both', way'⟩ := turns_normal plain both turned k
      exact ((ih both').extend (later.trans later')).after (way.trans (way'.trans (.step .refl)))

theorem rounds_tell {steps : Nat} {answer : Answer × Interpreter}
    (ran : Machine.run steps (loop.tester k j) = some answer)
    (paired : Interpreter.Paired p i j) : ∃ result i', loop.Rounds i result i' := by
  induction steps using Nat.strongRecOn generalizing p i j with
  | ind steps ih =>
      have mirrors := tests_mirrors loop paired (.test loop.test loop.round k)
      have halts : (loop.tester k j).Halts := ⟨answer.1, answer.2, reaches_of_run ran⟩
      obtain ⟨result, i₁, tested⟩ := mirrors.tells halts
      cases result with
      | error f => exact ⟨_, _, .untold tested⟩
      | ok holds =>
          cases holds with
          | false => exact ⟨_, _, .ended tested⟩
          | true =>
              obtain ⟨q, j₁, later, both, way⟩ := tests_true paired tested k
              obtain ⟨fewer, less, ran⟩ := run_on_the_way way ran
              have turns := turns_mirrors plain both (.again loop.test loop.round k)
              obtain ⟨result, i₂, turned⟩ := turns.tells ⟨_, _, reaches_of_run ran⟩
              by_cases ends : result = .ok .normal
              · subst ends
                obtain ⟨q', j₂, later', both', way'⟩ := turns_normal plain both turned k
                obtain ⟨fewer', less', ran⟩ := run_on_the_way way' ran
                have running :
                    ¬IsHalted ⟨.finish .normal (.again loop.test loop.round k), j₂⟩ := nofun
                have goesOn : Passes ⟨.finish .normal (.again loop.test loop.round k), j₂⟩
                    (loop.tester k j₂) := .refl
                obtain ⟨rest, less'', ran⟩ := run_passes running goesOn ran
                obtain ⟨result, i', rounds⟩ := ih rest (by omega) ran both'
                exact ⟨result, i', .more tested turned rounds⟩
              · exact ⟨_, _, .last tested turned ends⟩

theorem rounds_mirrors (paired : Interpreter.Paired p i j) :
    Mirrors p Completion.Paired k.take (loop.Rounds i) (loop.tester k j) where
  follows rounds := rounds_follow plain k rounds paired
  tells := by
    rintro ⟨a, j', reaches⟩
    obtain ⟨enough, runs⟩ := run_of_reaches reaches
    exact rounds_tell plain k (runs enough (Nat.le_refl _)) paired

end Rounds

section Runs

theorem paired_same (intact : i.IsIntact) : Interpreter.Paired (.same i.store.size) i i :=
  ⟨Store.paired_same intact.rooted, .inl ⟨rfl, intact.env⟩, rfl, rfl, rfl, rfl⟩

theorem env_of_reaches {s : Stmt} {result : Except Fault Completion} {i j : Interpreter}
    (reaches : Reaches ⟨.execute s .stop, i⟩ ⟨StmtCont.stop.take result, j⟩) : j.env = i.env := by
  have home := reaches.home
  cases result <;> exact congrArg Standing.env home

variable (plain : loop.body.IsPlain) (intact : i.IsIntact)

include plain intact

theorem uninitialized_mirrors (nothing : loop.initializer = none) :
    Mirrors (.same i.store.size) Completion.Paired StmtCont.stop.take (loop.Runs i)
      ⟨.execute (.loop loop.test loop.round) .stop, i⟩ := by
  have starts : Reaches ⟨.execute (.loop loop.test loop.round) .stop, i⟩ (loop.tester .stop i) :=
    .step .refl
  have around : (Pairing.same i.store.size).Pairs i.env i.env := .inl ⟨rfl, intact.env⟩
  have extends_ := (Pairing.same i.store.size).addLoose_extends i.store.size i.env
  have mirrors := rounds_mirrors plain .stop (paired_same intact).enterFirst
  constructor
  · intro result i' runs
    cases runs with
    | early started ends =>
        cases started with
        | absent _ => exact absurd rfl ends
        | present given _ => exact absurd (nothing.symm.trans given) nofun
    | started started rounds =>
        cases started with
        | present given _ => exact absurd (nothing.symm.trans given) nofun
        | absent _ =>
            obtain ⟨q, result', j', later, results, both, way⟩ := mirrors.follows rounds
            have way := starts.trans way
            have home : q.Pairs i.env j'.env :=
              (env_of_reaches way).symm ▸ around.extend (extends_.trans later)
            exact ⟨q, result', j', extends_.trans later, results, { both with env := home }, way⟩
  · intro halts
    obtain ⟨result, i', rounds⟩ := mirrors.tells (halts.rest starts)
    exact ⟨_, _, .started (.absent nothing) rounds⟩

theorem initialized_mirrors {s : Stmt} (given : loop.initializer = some s) :
    Mirrors (.same i.store.size) Completion.Paired StmtCont.stop.take (loop.Runs i)
      ⟨.execute (.block [s, .loop loop.test loop.round]) .stop, i⟩ := by
  let size := i.store.size
  let inner := StmtCont.sequence [.loop loop.test loop.round] (.leaveBlock i.env .stop)
  have enters : Reaches ⟨.execute (.block [s, .loop loop.test loop.round]) .stop, i⟩
      ⟨.execute s inner, i.enter i.env⟩ := .step (.step .refl)
  have around : (Pairing.same size).Pairs i.env i.env := .inl ⟨rfl, intact.env⟩
  have extends_ := ((Pairing.same size).addTwin_grows size size).extends_
  have old : size ≤ (i.enter i.env).store.size := (i.store.openScope_grows (some i.env)).size
  have mirrors := execute_mirrors ((paired_same intact).enter around) (s := s)
    (.inl (Nat.le_refl size)) old nofun inner
  -- Once the initializer has come to its end, the condition is next.
  have goesOn {i' : Interpreter} (ran : (i.enter i.env).Executes s (.ok .normal) i') :
      ∃ q j', (Pairing.same size).Extends q ∧ Interpreter.Paired q i' j' ∧
        Reaches ⟨.execute s inner, i.enter i.env⟩
          (loop.tester (.sequence [] (.leaveBlock i.env .stop)) j') := by
    obtain ⟨q, result', j', later, results, both, way⟩ := mirrors.follows ran
    cases results.normal_of
    exact ⟨q, j', extends_.trans later, both, way.trans (.step (.step .refl))⟩
  constructor
  · intro result i' runs
    cases runs with
    | early started ends =>
        cases started with
        | absent _ => exact absurd rfl ends
        | present given' ran =>
            cases given.symm.trans given'
            obtain ⟨q, result', j', later, results, both, way⟩ := mirrors.follows ran
            have leaves := leaves_block result' [.loop loop.test loop.round]
              (.inr (results.ends_of ends)) i.env .stop j'
            exact ⟨q, result', j'.moveTo i.env, extends_.trans later, results,
              both.moveTo (around.extend (extends_.trans later)),
              enters.trans (way.trans leaves)⟩
    | started started rounds =>
        cases started with
        | absent nothing => exact absurd (given.symm.trans nothing) nofun
        | present given' ran =>
            cases given.symm.trans given'
            obtain ⟨q, j', later, both, way⟩ := goesOn ran
            have rounds_ := rounds_mirrors plain (.sequence [] (.leaveBlock i.env .stop)) both
            obtain ⟨q', result', j'', later', results, both', way'⟩ := rounds_.follows rounds
            have leaves := leaves_block result' [] (.inl rfl) i.env .stop j''
            exact ⟨q', result', j''.moveTo i.env, later.trans later', results,
              both'.moveTo (around.extend (later.trans later')),
              enters.trans (way.trans (way'.trans leaves))⟩
  · intro halts
    have halts := halts.rest enters
    obtain ⟨result, i', ran⟩ := mirrors.tells halts
    by_cases ends : result = .ok .normal
    · subst ends
      obtain ⟨q, j', _, both, way⟩ := goesOn ran
      have rounds_ := rounds_mirrors plain (.sequence [] (.leaveBlock i.env .stop)) both
      obtain ⟨result, i'', rounds⟩ := rounds_.tells (halts.rest way)
      exact ⟨_, _, .started (.present given ran) rounds⟩
    · exact ⟨_, _, .early (.present given ran) ends⟩

theorem runs_mirrors :
    Mirrors (.same i.store.size) Completion.Paired StmtCont.stop.take (loop.Runs i)
      ⟨.execute loop.tree .stop, i⟩ := by
  cases given : loop.initializer with
  | none =>
      rw [loop.tree_of_none given]
      exact uninitialized_mirrors plain intact given
  | some s =>
      rw [loop.tree_of_some given]
      exact initialized_mirrors plain intact given

end Runs

end ForLoop

/-- Two runs that start in one state end alike: in the same outcome, with the same output, and with
scopes that are paired so that all old ones are their own twins, which bind no more names. -/
structure Interpreter.EndsAlike (i : Interpreter) (p : Pairing) (result : Except Fault Completion)
    (j : Interpreter) (result' : Except Fault Completion) (j' : Interpreter) : Prop where
  outcome : Results (Completion.Paired p) result result'
  state : Interpreter.Paired p j j'
  home : j.env = i.env ∧ j'.env = i.env
  old : ∀ {id}, id < i.store.size → p.twin id id
  names : Machine.SameNames i.store.size i.store j.store ∧
    Machine.SameNames i.store.size i.store j'.store
  bindings : ∀ id, id < i.store.size → ∀ name,
    Option.Rel (Value.Paired p) (j.store.held? id name) (j'.store.held? id name)

namespace Grammar

def Part.IsShaped : Part → Prop
  | .statement _ _ s => s.IsPlain
  | .declaration _ _ s => s.IsShaped
  | .declarations _ body => ∀ s ∈ body, s.IsShaped

theorem IsVariable.isShaped {s : Stmt} {tokens : List Token} (formed : IsVariable s tokens) :
    s.IsShaped := by
  cases formed <;> exact .declare ..

theorem IsInitializer.isShaped {initializer : Option Stmt} {tokens : List Token}
    (formed : IsInitializer initializer tokens) : ∀ s, initializer = some s → s.IsShaped := by
  rintro s rfl
  cases formed with
  | declared _ inner => exact inner.isShaped
  | expression _ _ => exact .expression _

theorem Forms.isShaped {part : Part} {tokens : List Token} (formed : Forms part tokens) :
    part.IsShaped := by
  induction formed with
  | expression _ _ => exact ⟨.expression _, rfl⟩
  | print _ _ _ => exact ⟨.print _, rfl⟩
  | giveBack _ _ => exact ⟨.giveBack .., rfl⟩
  | giveBackValue _ _ _ => exact ⟨.giveBack .., rfl⟩
  | block _ _ _ inner => exact ⟨.block inner, rfl⟩
  | ifThen _ _ _ _ _ first => exact ⟨.ifThen _ first.plain first.shaped, rfl⟩
  | ifElse _ _ _ _ _ _ _ first second =>
      exact ⟨.ifElse _ first.plain first.shaped second.plain second.shaped, rfl⟩
  | loop _ _ _ _ _ body => exact Parser.isPlain_loop _ body
  | loopWithClauses _ _ start _ _ _ _ _ tree body =>
      obtain rfl := isLoop_iff.mp tree
      exact Parser.isPlain_desugarFor start.isShaped _ _ body
  | function _ _ _ _ _ _ _ _ inner => exact .function _ _ inner
  | declared _ inner => exact inner.isShaped
  | statement _ inner => exact inner.shaped
  | noDeclarations => exact List.forall_mem_nil _
  | moreDeclarations _ _ first others => exact List.forall_mem_cons.mpr ⟨first, others⟩

end Grammar

namespace ForLoop

open Grammar Machine

/-- Tokens that are a loop with clauses. -/
inductive IsWritten (loop : ForLoop) (inFunction isOpen : Bool) : List Token → Prop
  | written {keyword opening middle closing : Token} {started tested stepped tokens : List Token}
      (kind : keyword.kind = .keyword .kwFor) (left : opening.kind = .symbol .leftParen)
      (start : IsInitializer loop.initializer started)
      (test : IsClause loop.condition tested) (semicolon : middle.kind = .symbol .semicolon)
      (step : IsClause loop.increment stepped) (right : closing.kind = .symbol .rightParen)
      (repeated : Forms (.statement inFunction isOpen loop.body) tokens) :
      IsWritten loop inFunction isOpen
        (keyword :: opening :: started ++ tested ++ middle :: stepped ++ closing :: tokens)

section Main

variable {loop : ForLoop} {i : Interpreter}

theorem endsAlike_of_follows {result result' : Except Fault Completion} {j j' : Interpreter}
    {p : Pairing} (isPlain : loop.tree.IsPlain) (runs : loop.Runs i result j)
    (ran : i.Executes loop.tree result' j') (extends_ : (Pairing.same i.store.size).Extends p)
    (results : Results (Completion.Paired p) result result') (paired : Interpreter.Paired p j j') :
    i.EndsAlike p result j result' j' := by
  have old {id : Nat} (inside : id < i.store.size) : p.twin id id := extends_.twin ⟨rfl, inside⟩
  obtain ⟨a, halts, _⟩ := executes_halts ran
  have names := plain_names isPlain halts
  have home : j.env = i.env := by cases runs <;> rfl
  refine ⟨results, paired, ⟨home, ran.env⟩, old, ⟨fun id inside name => ?_, names⟩, ?_⟩
  · rw [paired.store.binds (old inside) name]
    exact names id inside name
  · exact fun id inside name => paired.store.held (old inside) name

end Main

/-- The tree of a loop with clauses does what its clauses say. From any state, it comes to an
outcome just where they tell one, and both end alike. -/
theorem tree_runs_as_clauses {loop : ForLoop} {inFunction isOpen : Bool} {tokens : List Token}
    (written : loop.IsWritten inFunction isOpen tokens) {i : Interpreter} (intact : i.IsIntact) :
    Forms (.statement inFunction isOpen loop.tree) tokens ∧
    (∀ result j, loop.Runs i result j →
      ∃ p result' j', i.Executes loop.tree result' j' ∧ i.EndsAlike p result j result' j') ∧
    ∀ result' j', i.Executes loop.tree result' j' →
      ∃ p result j, loop.Runs i result j ∧ i.EndsAlike p result j result' j' := by
  obtain ⟨kind, left, start, test, semicolon, step, right, repeated⟩ := written
  have plain : loop.body.IsPlain := repeated.isShaped
  have forms : Forms (.statement inFunction isOpen loop.tree) _ :=
    .loopWithClauses kind left start test semicolon step right repeated (isLoop_iff.mpr rfl)
  have mirrors := runs_mirrors plain intact
  refine ⟨forms, ?_, ?_⟩
  · intro result j runs
    obtain ⟨p, result', j', extends_, results, paired, way⟩ := mirrors.follows runs
    have ran := executes_of_reaches way
    have alike := endsAlike_of_follows forms.isShaped runs ran extends_ results paired
    exact ⟨p, result', j', ran, alike⟩
  · intro result' j' ran
    obtain ⟨a, halts, _⟩ := executes_halts ran
    obtain ⟨result, j, runs⟩ := mirrors.tells ⟨a, j', halts⟩
    obtain ⟨p, other, k, extends_, results, paired, way⟩ := mirrors.follows runs
    obtain ⟨rfl, rfl⟩ := executes_unique ran (executes_of_reaches way)
    have alike := endsAlike_of_follows forms.isShaped runs ran extends_ results paired
    exact ⟨p, result, j, runs, alike⟩

section Capturing

private def word (kind : Token.Keyword) : Token := .unplaced (.keyword kind) kind.spelling 1

private def sign (kind : Token.Symbol) : Token := .unplaced (.symbol kind) kind.spelling 1

private def done : Token := .unplaced .identifier "done" 1

private def show_ : Token := .unplaced .identifier "show" 1

/-- A loop of one turn, which declares a function in its body that prints the variable of the loop,
and calls it. -/
def capturing : ForLoop where
  initializer := some (.declare done (some (.literal (.boolean false))))
  condition := some (.unary .not (sign .bang) (.variable done))
  increment := some (.assign done (.literal (.boolean true)))
  body := .block [.function show_ [] [.print (.variable done)],
    .expression (.call (.variable show_) (sign .rightParen) [])]

private def showBody : List Token := [word .kwPrint] ++ [done] ++ [sign .semicolon]

private def capturingBody : List Token :=
  sign .leftBrace :: ((word .kwFunc :: show_ :: sign .leftParen :: [] ++ sign .rightParen ::
    sign .leftBrace :: (showBody ++ []) ++ [sign .rightBrace]) ++
    (([show_] ++ sign .leftParen :: [] ++ [sign .rightParen] ++ [sign .semicolon]) ++ [])) ++
    [sign .rightBrace]

def capturingTokens : List Token :=
  word .kwFor :: sign .leftParen ::
    (word .kwVar :: (done :: sign .equal :: [word .kwFalse] ++ [sign .semicolon])) ++
    [sign .bang, done] ++ sign .semicolon :: [done, sign .equal, word .kwTrue] ++
    sign .rightParen :: capturingBody

private theorem capturingBody_forms :
    Forms (.statement false false capturing.body) capturingBody := by
  have name : IsExpression (.variable done) [done] :=
    (Derives.named rfl).loosen .assignment (by decide)
  have prints : Forms (.statement true false (.print (.variable done))) showBody :=
    .print rfl name rfl
  have inner : Forms (.declarations true [.print (.variable done)]) (showBody ++ []) :=
    .moreDeclarations (.statement prints) .noDeclarations
  have called : Derives (.expression .call (.variable show_)) [show_] :=
    (Derives.named rfl).loosen .call (by decide)
  have call : Derives (.expression .call (.call (.variable show_) (sign .rightParen) []))
      ([show_] ++ sign .leftParen :: [] ++ [sign .rightParen]) :=
    .call called rfl .noArguments (by decide) rfl
  have calls : Forms (.statement false false (.expression (.call (.variable show_) _ [])))
      ([show_] ++ sign .leftParen :: [] ++ [sign .rightParen] ++ [sign .semicolon]) :=
    .expression (call.loosen .assignment (by decide)) rfl
  have declares : Forms (.declaration false false (.function show_ [] _))
      (word .kwFunc :: show_ :: sign .leftParen :: [] ++ sign .rightParen :: sign .leftBrace ::
        (showBody ++ []) ++ [sign .rightBrace]) :=
    .function rfl rfl rfl (.inl ⟨rfl, rfl⟩) rfl rfl inner rfl
  exact .block rfl (.moreDeclarations declares (.moreDeclarations (.statement calls)
    .noDeclarations)) rfl

theorem capturing_isWritten : capturing.IsWritten false false capturingTokens := by
  have falsity : IsExpression (.literal (.boolean false)) [word .kwFalse] :=
    (Derives.literal (.falsity rfl)).loosen .assignment (by decide)
  have truth : IsExpression (.literal (.boolean true)) [word .kwTrue] :=
    (Derives.literal (.truth rfl)).loosen .assignment (by decide)
  have name : Derives (.expression .unary (.variable done)) [done] :=
    (Derives.named rfl).loosen .unary (by decide)
  have negated : Derives (.expression .unary (.unary .not (sign .bang) (.variable done)))
      [sign .bang, done] := .unary (by decide) name
  have condition := negated.loosen .assignment (by decide)
  exact .written rfl rfl (.declared rfl (.initialized rfl rfl falsity rfl)) (.present condition) rfl
    (.present (.assign rfl rfl truth)) rfl capturingBody_forms

theorem tree_runs_as_clauses_capturing :
    capturing.IsWritten false false capturingTokens ∧ (Interpreter.new 1).IsIntact ∧
      ∃ result' j', (Interpreter.new 1).Executes capturing.tree result' j' ∧
        j'.printed = #["false"] ∧
        ∃ p result j, capturing.Runs (Interpreter.new 1) result j ∧
          (Interpreter.new 1).EndsAlike p result j result' j' := by
  have intact := Interpreter.new_isIntact 1
  have prints : ((Interpreter.new 1).execute 60 capturing.tree).map (fun r => r.2.printed) =
      some #["false"] := by decide +kernel
  obtain ⟨⟨result', j'⟩, ran, printed⟩ := Option.map_eq_some_iff.mp prints
  have runs := (tree_runs_as_clauses capturing_isWritten intact).2.2 result' j' ⟨60, ran⟩
  exact ⟨capturing_isWritten, intact, result', j', ⟨60, ran⟩, printed, runs⟩

end Capturing

end ForLoop

end Jess
