import Jess.Proofs.Output
import Jess.Proofs.Rereading
import Jess.Proofs.Sequencing
import Jess.Proofs.StatementWriting

/-!
# Scripts and the prompt

Lines that are sources without static mistakes form one when they are joined,
with the statements of the lines one after another. Running that source and
running the lines one by one go on alike: the prompt only takes out what was
printed after each line, and comes to a fault in the line that the faulty
statement is from.
-/

namespace Jess

open Source
open Grammar
open Machine (Runs interpret_of_runs runs_of_interpret)

namespace Source

/-- Lines as one source. -/
def joined (lines : List String) : String := String.intercalate "\n" lines

theorem spelled_joined {lines : List String} {tokens : List (List Token)}
    (spelled : List.Forall₂ (fun line own => Token.spelled? line.toList = some own) lines tokens) :
    Token.spelled? (joined lines).toList = some tokens.flatten := by
  induction spelled with
  | nil => exact Token.spelled_nil
  | @cons line own lines tokens first later ih =>
      cases later with
      | nil => simpa [joined] using first
      | @cons next _ rest _ _ _ =>
          have split : (joined (line :: next :: rest)).toList =
              line.toList ++ '\n' :: (joined (next :: rest)).toList := by
            simp [joined, String.intercalate_cons_cons]
          rw [split, Token.spelled_lines first, ih, List.flatten_cons]
          rfl

theorem joined_clean {lines : List String} (clean : ∀ line ∈ lines, IsClean line) :
    IsClean (joined lines) ∧
      Stmt.placelessAll (statements (joined lines)) =
        Stmt.placelessAll (lines.flatMap statements) := by
  have parts : ∃ tokens placed,
      List.Forall₂ (fun line own => Token.spelled? line.toList = some own) lines tokens ∧
        SameUpToPlace tokens.flatten placed ∧ IsProgram (lines.flatMap statements) placed := by
    induction lines with
    | nil => exact ⟨[], [], .nil, rfl, .noDeclarations⟩
    | cons line rest ih =>
        obtain ⟨own, placed, spelled, same, _, formed⟩ :=
          (clean line (List.mem_cons_self ..)).exists_program
        obtain ⟨tokens, others, all, sameLater, later⟩ :=
          ih fun other member => clean other (List.mem_cons_of_mem _ member)
        refine ⟨own :: tokens, placed ++ others, .cons spelled all, ?_, formed.append later⟩
        rw [SameUpToPlace, List.flatten_cons, List.map_append, List.map_append, ← same, sameLater]
  obtain ⟨tokens, placed, all, same, formed⟩ := parts
  exact clean_of_program (spelled_joined all) same formed

end Source

/-- Two interpreters hold the same scopes with the same bindings, up to places in functions. -/
def Interpreter.SameScopes (i j : Interpreter) : Prop :=
  ∀ home : Nat, i.store.scopes[home]?.map Scope.placeless =
    j.store.scopes[home]?.map Scope.placeless

namespace Session

/-- A session with nothing to report and nothing printed. -/
structure IsQuiet (s : Session) : Prop where
  static : s.log.static = false
  held : s.log.held = #[]
  printed : s.interpreter.printed = #[]

def after (s : Session) (a : Answer) (j : Interpreter) : Session :=
  { s with
    interpreter := j
    log := s.log.append (a.fault?.toList.map Fault.diagnostic)
    phase := .done }

def outcomeOf (a : Answer) : Outcome :=
  match a.fault? with
  | none => .ok
  | some _ => .runtimeError

theorem run_of_runs {source : String} (clean : IsClean source) {s : Session}
    (quiet : s.log.static = false) {a : Answer} {j : Interpreter}
    (runs : Runs (statements source) s.interpreter a j) :
    ∃ enough, ∀ steps, enough ≤ steps → s.run steps source = some (outcomeOf a, s.after a j) := by
  obtain ⟨enough, halts⟩ := interpret_of_runs runs
  refine ⟨enough, fun steps bound => ?_⟩
  simp only [run, load_clean clean quiet, halts steps bound, outcomeOf, after]
  cases a.fault? with
  | none => rfl
  | some f => rfl

theorem runs_of_run {source : String} (clean : IsClean source) {s t : Session}
    (quiet : s.log.static = false) {steps : Nat} {outcome : Outcome}
    (ran : s.run steps source = some (outcome, t)) :
    ∃ a, Runs (statements source) s.interpreter a t.interpreter ∧ outcome = outcomeOf a ∧
      t = s.after a t.interpreter := by
  simp only [run, load_clean clean quiet] at ran
  cases finished : s.interpreter.interpret steps (statements source) with
  | none =>
      rw [finished] at ran
      cases ran
  | some result =>
      obtain ⟨fault, j⟩ := result
      rw [finished] at ran
      obtain ⟨a, reaches, failed⟩ := runs_of_interpret finished
      simp only [Option.some.injEq] at ran
      cases fault with
      | none =>
          cases ran
          exact ⟨a, reaches, by rw [outcomeOf, failed], by simp [after, failed]⟩
      | some f =>
          cases ran
          have filed : s.log.push f.diagnostic = s.log.append [f.diagnostic] := rfl
          exact ⟨a, reaches, by rw [outcomeOf, failed], by simp [after, failed, filed]⟩

/-- The statement at a place is the one that a program fails in. -/
def FailsAt (program : List Stmt) (place : Nat) (i : Interpreter) (f : Fault) (j : Interpreter) :
    Prop :=
  ∃ s between, program[place]? = some s ∧ Runs (program.take place) i (.completed .normal) between ∧
    Runs [s] between (.failed f) j

theorem runs_nil (i : Interpreter) : Runs [] i (.completed .normal) i := .step .refl

theorem answer_of_runs {program : List Stmt} {i j : Interpreter} {a : Answer}
    (runs : Runs program i a j) : a = .completed .normal ∨ ∃ f, a = .failed f := by
  have alone : Runs (program ++ []) i a j := by rwa [List.append_nil]
  rcases (Machine.program_append program [] a i j).mp alone with
    ⟨f, failed, _⟩ | ⟨between, _, rest⟩
  · exact .inr ⟨f, failed⟩
  · exact .inl (rest.unique (runs_nil between)).1

theorem exists_failsAt {program : List Stmt} {i j : Interpreter} {f : Fault}
    (runs : Runs program i (.failed f) j) :
    ∃ place, place < program.length ∧ FailsAt program place i f j := by
  induction program generalizing i with
  | nil =>
      have same := runs.unique (runs_nil i)
      cases same.1
  | cons s rest ih =>
      rcases (Machine.program_append [s] rest _ i j).mp runs with
        ⟨g, same, failed⟩ | ⟨between, ended, later⟩
      · cases same
        exact ⟨0, Nat.succ_pos _, s, i, rfl, runs_nil i, failed⟩
      · obtain ⟨place, inside, s', between', found, before, failed⟩ := ih later
        refine ⟨place + 1, Nat.succ_lt_succ inside, s', between', found, ?_, failed⟩
        exact (Machine.program_append [s] (rest.take place) _ i between').mpr
          (.inr ⟨between, ended, before⟩)

theorem FailsAt.split {before part later : List Stmt} {place : Nat} {i j : Interpreter} {f : Fault}
    (fails : FailsAt (before ++ part ++ later) place i f j) (start : before.length ≤ place)
    (inside : place < before.length + part.length) :
    ∃ between, Runs before i (.completed .normal) between ∧ Runs part between (.failed f) j := by
  obtain ⟨s, reached, found, ran, failed⟩ := fails
  obtain ⟨offset, rfl⟩ : ∃ offset, place = before.length + offset :=
    ⟨place - before.length, by omega⟩
  have short : offset < part.length := by omega
  have taken : (before ++ part ++ later).take (before.length + offset) =
      before ++ part.take offset := by
    rw [List.append_assoc, List.take_length_add_append, List.take_append_of_le_length (by omega)]
  have here : part[offset]? = some s := by
    rw [List.append_assoc, List.getElem?_append_right (by omega),
      List.getElem?_append_left (by omega)] at found
    simpa using found
  have whole : part = part.take offset ++ [s] ++ part.drop (offset + 1) := by
    obtain ⟨bound, same⟩ := List.getElem?_eq_some_iff.mp here
    rw [List.append_assoc, List.singleton_append, ← same, ← List.drop_eq_getElem_cons,
      List.take_append_drop]
  rw [taken] at ran
  rcases (Machine.program_append before _ _ i reached).mp ran with
    ⟨g, same, _⟩ | ⟨between, ended, rest⟩
  · cases same
  · refine ⟨between, ended, ?_⟩
    rw [whole]
    apply (Machine.program_append _ _ _ between j).mpr
    refine .inl ⟨f, rfl, ?_⟩
    exact (Machine.program_append _ _ _ between j).mpr (.inr ⟨reached, rest, failed⟩)

end Session

namespace Source

/-- A place in the statements of some lines belongs to one of the lines. -/
structure ComesFrom (lines : List String) (place k : Nat) : Prop where
  known : k < lines.length
  start : ((lines.take k).flatMap statements).length ≤ place
  inside : place < ((lines.take (k + 1)).flatMap statements).length

theorem exists_comesFrom {lines : List String} {place : Nat}
    (inside : place < (lines.flatMap statements).length) : ∃ k, ComesFrom lines place k := by
  induction lines generalizing place with
  | nil => exact absurd inside (Nat.not_lt_zero _)
  | cons line rest ih =>
      rw [List.flatMap_cons, List.length_append] at inside
      by_cases first : place < (statements line).length
      · exact ⟨0, Nat.succ_pos _, Nat.zero_le _, by simpa using first⟩
      · have later : place - (statements line).length < (rest.flatMap statements).length := by omega
        obtain ⟨k, known, start, below⟩ := ih later
        refine ⟨k + 1, Nat.succ_lt_succ known, ?_, ?_⟩
        · rw [List.take_succ_cons, List.flatMap_cons, List.length_append]
          omega
        · rw [List.take_succ_cons, List.flatMap_cons, List.length_append]
          omega

end Source

theorem Stmt.split_of_placeless {program first second : List Stmt}
    (same : placelessAll program = placelessAll (first ++ second)) :
    ∃ front back, program = front ++ back ∧ placelessAll front = placelessAll first ∧
      placelessAll back = placelessAll second := by
  simp only [placelessAll_eq_map, List.map_append] at same ⊢
  exact List.map_eq_append_iff.mp same

namespace Prompt

open Session (IsQuiet FailsAt)

def Answers (steps : Nat) (s : Session) (lines : List String) (replies : List Reply)
    (t : Session) : Prop :=
  ∀ done first rest, first.map Text.decode? = lines.map some →
    converse steps done s (first ++ rest) = converse steps (done ++ replies.toArray) t rest

theorem Answers.nil (steps : Nat) (s : Session) : Answers steps s [] [] s := by
  intro done first rest decoded
  cases List.map_eq_nil_iff.mp decoded
  simp

theorem Answers.append {steps : Nat} {s t u : Session} {lines others : List String}
    {replies more : List Reply} (first : Answers steps s lines replies t)
    (second : Answers steps t others more u) :
    Answers steps s (lines ++ others) (replies ++ more) u := by
  intro done bytes rest decoded
  rw [List.map_append] at decoded
  obtain ⟨front, back, rfl, frontDecoded, backDecoded⟩ := List.map_eq_append_iff.mp decoded
  rw [List.append_assoc, first done front _ frontDecoded, second _ back rest backDecoded]
  simp

theorem Answers.single {steps : Nat} {s t : Session} {line : String} {reply : Reply}
    (responds : respond steps line s = some (reply, t)) : Answers steps s [line] [reply] t := by
  intro done bytes rest decoded
  obtain ⟨own, later, rfl, decodes, none⟩ := List.map_eq_cons_iff.mp decoded
  cases List.map_eq_nil_iff.mp none
  simp only [List.cons_append, List.nil_append, converse, decodes, responds]
  rw [Array.push_eq_append]

def next (s : Session) (a : Answer) (j : Interpreter) : Session :=
  ((s.after a j).drain.2.forgetStatic).takeOutput.2

theorem next_isQuiet (s : Session) (a : Answer) (j : Interpreter) : (next s a j).IsQuiet :=
  ⟨rfl, rfl, rfl⟩

theorem respond_of_runs {line : String} (clean : IsClean line) {s : Session} (quiet : s.IsQuiet)
    {a : Answer} {j : Interpreter} (runs : Runs (statements line) s.interpreter a j) :
    ∃ enough, ∀ steps, enough ≤ steps → respond steps line s =
      some (⟨j.output, Diagnostic.Log.emitted (a.fault?.toList.map Fault.diagnostic)⟩,
        next s a j) := by
  obtain ⟨enough, ran⟩ := Session.run_of_runs clean quiet.static runs
  refine ⟨enough, fun steps bound => ?_⟩
  have held : (s.after a j).drain.1 = a.fault?.toList.map Fault.diagnostic := by
    have filed := Diagnostic.Log.held_append s.log (a.fault?.toList.map Fault.diagnostic)
    rw [quiet.held] at filed
    exact filed
  simp only [respond, Session.runEmitting, ran steps bound, held]
  rfl

/-- A script and the prompt stand at the same point, after the prompt has given replies. -/
structure Abreast (replies : List Reply) (i : Interpreter) (s : Session) : Prop where
  quiet : s.IsQuiet
  like : ∃ c base, Interpreter.Like .place c base i s.interpreter ∧
    Text.unlines base = printedBy replies

theorem line_like {program others : List Stmt}
    (same : Stmt.placelessAll program = Stmt.placelessAll others) {replies : List Reply}
    {i i' : Interpreter} {s : Session} (abreast : Abreast replies i s) {a : Answer}
    (runs : Runs program i a i') :
    ∃ c base b j, Runs others s.interpreter b j ∧ Answer.Like .place c a b ∧
      Interpreter.Like .place c base i' j ∧ Text.unlines base = printedBy replies := by
  obtain ⟨c, base, like, written⟩ := abreast.like
  have strict : Freedom.place ≠ .blocks := by decide
  have own : c.own s.interpreter.env = true := (like.store.fixed strict).2.2 _
  have trees := Stmt.likeAll_of_placeless strict program others same
  obtain ⟨c', b, j, reaches, answers, after⟩ :=
    Machine.reaches_like (Machine.ofProgram_like trees like own) runs
  exact ⟨c', base, b, j, reaches, answers, after, written⟩

theorem lines_abreast {lines : List String} (clean : ∀ line ∈ lines, IsClean line)
    {program : List Stmt} {replies : List Reply} {i i' : Interpreter} {s : Session}
    (same : Stmt.placelessAll program = Stmt.placelessAll (lines.flatMap statements))
    (abreast : Abreast replies i s) (runs : Runs program i (.completed .normal) i') :
    ∃ more t, (∃ enough, ∀ steps, enough ≤ steps → Answers steps s lines more t) ∧
      Abreast (replies ++ more) i' t ∧ emittedBy more = "" := by
  induction lines generalizing program replies i s with
  | nil =>
      rw [List.flatMap_nil, Stmt.placelessAll, Stmt.placelessAll_eq_map,
        List.map_eq_nil_iff] at same
      subst same
      obtain ⟨_, rfl⟩ := runs.unique (Session.runs_nil i)
      refine ⟨[], s, ⟨0, fun steps _ => .nil steps s⟩, ?_, rfl⟩
      rwa [List.append_nil]
  | cons line rest ih =>
      rw [List.flatMap_cons] at same
      obtain ⟨front, back, rfl, sameFront, sameBack⟩ := Stmt.split_of_placeless same
      rcases (Machine.program_append front back _ i i').mp runs with
        ⟨g, failed, _⟩ | ⟨between, first, later⟩
      · cases failed
      obtain ⟨c, base, b, j, ran, answers, like, written⟩ := line_like sameFront abreast first
      cases answers with
      | @completed _ y _ =>
          have here := clean line (List.mem_cons_self ..)
          obtain ⟨enough, responds⟩ := respond_of_runs here abreast.quiet ran
          have cleared := (next_isQuiet s (.completed y) j).printed
          have on : Abreast (replies ++ [⟨j.output, ""⟩]) between
              (next s (.completed y) j) := by
            refine ⟨next_isQuiet _ _ _, c, base ++ j.printed.toList, ?_, ?_⟩
            · exact { like with printed := by simp [like.printed, cleared] }
            · rw [Text.unlines_append, written, printedBy_append, Interpreter.output_eq]
              simp [printedBy]
          obtain ⟨more, t, ⟨enough', all⟩, abreast', silent⟩ :=
            ih (fun other member => clean other (List.mem_cons_of_mem _ member)) sameBack on later
          refine ⟨⟨j.output, ""⟩ :: more, t, ⟨max enough enough', fun steps bound => ?_⟩, ?_, ?_⟩
          · have own : Answers steps s [line] [⟨j.output, ""⟩] (next s (.completed y) j) :=
              .single (responds steps (by omega))
            exact own.append (all steps (by omega))
          · simpa using abreast'
          · have split := emittedBy_append [⟨j.output, ""⟩] more
            rw [silent] at split
            simpa [emittedBy] using split

/-- What the prompt does with any input that begins with some lines. -/
def Meets (steps : Nat) (s : Session) (lines : List String) (replies : List Reply)
    (t : Session) : Prop :=
  ∀ input first rest, Text.lines input = first ++ rest → first.map Text.decode? = lines.map some →
    run steps input s = converse steps replies.toArray t rest

theorem Answers.meets {steps : Nat} {s t : Session} {lines : List String} {replies : List Reply}
    (answers : Answers steps s lines replies t) : Meets steps s lines replies t := by
  intro input first rest split decoded
  rw [run, split, answers #[] first rest decoded]
  simp

theorem abreast_new (limit : Nat) : Abreast [] (.new limit) (Session.new (.new limit)) :=
  ⟨⟨rfl, rfl, rfl⟩, _, [], Interpreter.like_new limit, rfl⟩

theorem transcript_of_ok {lines : List String} (clean : ∀ line ∈ lines, IsClean line)
    {limit steps : Nat} {t : Session}
    (ran : (Session.new (.new limit)).run steps (joined lines) = some (.ok, t)) :
    ∀ input, (Text.lines input).map Text.decode? = lines.map some →
      ∃ enough, ∀ more, enough ≤ more → ∃ transcript,
        run more input (Session.new (.new limit)) = some transcript ∧
          transcript.ending = .endOfInput ∧ transcript.printed = t.interpreter.output ∧
          transcript.emitted = "" ∧
          transcript.session.interpreter.SameScopes t.interpreter := by
  intro input decoded
  obtain ⟨whole, same⟩ := joined_clean clean
  obtain ⟨a, runs, ended, _⟩ := Session.runs_of_run whole rfl ran
  rcases Session.answer_of_runs runs with rfl | ⟨f, rfl⟩
  · obtain ⟨replies, s, ⟨enough, answers⟩, abreast, silent⟩ :=
      lines_abreast clean same (abreast_new limit) runs
    obtain ⟨c, base, like, written⟩ := abreast.like
    refine ⟨enough, fun more bound => ?_⟩
    have meets := (answers more bound).meets input (Text.lines input) [] (by simp) decoded
    refine ⟨⟨replies, .endOfInput, s⟩, ?_, rfl, ?_, silent, ?_⟩
    · rw [meets]
      simp [converse]
    · have printed := like.printed
      rw [abreast.quiet.printed, Array.toList_empty, List.append_nil] at printed
      rw [Interpreter.output_eq, printed, written]
      rfl
    · intro home
      exact (like.store.placeless_eq home).symm
  · cases ended

theorem replies_of_failure {lines : List String} (clean : ∀ line ∈ lines, IsClean line)
    {limit : Nat} {i : Interpreter} {f : Fault} {place k : Nat} (origin : ComesFrom lines place k)
    (fails : FailsAt (statements (joined lines)) place (.new limit) f i) :
    ∃ replies s, (∃ enough, ∀ more, enough ≤ more →
        Meets more (Session.new (.new limit)) (lines.take (k + 1)) replies s) ∧
      printedBy replies = i.output ∧
      ∃ line, emittedBy replies =
        Diagnostic.Log.emitted [{ Fault.diagnostic f with line := line }] := by
  obtain ⟨_, same⟩ := joined_clean clean
  obtain ⟨known, start, inside⟩ := origin
  have parts : lines = lines.take k ++ [lines[k]] ++ lines.drop (k + 1) := by
    rw [List.append_assoc, List.singleton_append, ← List.drop_eq_getElem_cons,
      List.take_append_drop]
  have upTo : lines.take (k + 1) = lines.take k ++ [lines[k]] :=
    List.take_succ_eq_append_getElem known
  have here := clean lines[k] (List.getElem_mem known)
  have earlier : ∀ line ∈ lines.take k, IsClean line := fun line member =>
    clean line (List.mem_of_mem_take member)
  -- The statements of the joined lines fall into those before line `k`, its own and the others.
  rw [parts, List.flatMap_append, List.flatMap_append, List.flatMap_singleton, ← parts] at same
  obtain ⟨front, later, split, sameFront, _⟩ := Stmt.split_of_placeless same
  obtain ⟨before, own, rfl, sameBefore, sameOwn⟩ := Stmt.split_of_placeless sameFront
  have countBefore := congrArg List.length sameBefore
  have countOwn := congrArg List.length sameOwn
  simp only [Stmt.placelessAll_length] at countBefore countOwn
  rw [upTo, List.flatMap_append, List.flatMap_singleton, List.length_append] at inside
  rw [split] at fails
  obtain ⟨between, ran, failed⟩ := fails.split (by omega) (by omega)
  obtain ⟨more, s, ⟨enough, answers⟩, abreast, silent⟩ :=
    lines_abreast earlier sameBefore (abreast_new limit) ran
  obtain ⟨c, base, b, j, ranLine, alike, like, written⟩ := line_like sameOwn abreast failed
  cases alike with
  | @failed _ g cause =>
      obtain ⟨enough', responds⟩ := respond_of_runs here abreast.quiet ranLine
      refine ⟨more ++ [⟨j.output, Diagnostic.Log.emitted [g.diagnostic]⟩], next s (.failed g) j,
        ⟨max enough enough', fun steps bound => ?_⟩, ?_, g.line.getD 0, ?_⟩
      · rw [upTo]
        have line : Answers steps s [lines[k]] _ _ := .single (responds steps (by omega))
        exact ((answers steps (by omega)).append line).meets
      · rw [printedBy_append, Interpreter.output_eq i, like.printed, Text.unlines_append,
          written, Interpreter.output_eq]
        simp [printedBy]
      · have message : g.diagnostic = { Fault.diagnostic f with line := g.line.getD 0 } := by
          simp only [Fault.diagnostic, Fault.message, cause, Diagnostic.runtime]
        rw [emittedBy_append, silent, message]
        simp [emittedBy]

/-- Running lines as one source and giving them to the prompt agree. -/
structure AgreesWithScript (lines : List String) (limit : Nat) : Prop where
  typed : ∃ input, (Text.lines input).map Text.decode? = lines.map some
  clean : IsClean (joined lines)
  statements : Stmt.placelessAll (statements (joined lines)) =
    Stmt.placelessAll (lines.flatMap statements)
  /-- The prompt prints the same, reports nothing and leaves the same scopes, the global one among
  them. -/
  ended : ∀ steps t, (Session.new (.new limit)).run steps (joined lines) = some (.ok, t) →
    ∀ input, (Text.lines input).map Text.decode? = lines.map some →
      ∃ enough, ∀ more, enough ≤ more → ∃ transcript,
        run more input (Session.new (.new limit)) = some transcript ∧
          transcript.ending = .endOfInput ∧ transcript.printed = t.interpreter.output ∧
          transcript.emitted = "" ∧ transcript.session.interpreter.SameScopes t.interpreter
  /-- A fault is in a statement from one of the lines. Up to that line the prompt prints the same
  and reports one fault, with the same message. -/
  failed : ∀ steps t,
    (Session.new (.new limit)).run steps (joined lines) = some (.runtimeError, t) →
      ∃ f, t.log.held.toList = [Fault.diagnostic f] ∧
        (∃ place k, ComesFrom lines place k ∧
          FailsAt (Source.statements (joined lines)) place (.new limit) f t.interpreter) ∧
        ∀ place k, ComesFrom lines place k →
          FailsAt (Source.statements (joined lines)) place (.new limit) f t.interpreter →
          ∃ replies s, (∃ enough, ∀ more, enough ≤ more →
              Meets more (Session.new (.new limit)) (lines.take (k + 1)) replies s) ∧
            printedBy replies = t.interpreter.output ∧
            ∃ line, emittedBy replies =
              Diagnostic.Log.emitted [{ Fault.diagnostic f with line := line }]

/-- Lines without static mistakes agree as a script and at the prompt. -/
theorem agrees_with_script {lines : List String} (plain : ∀ line ∈ lines, '\n' ∉ line.toList)
    (clean : ∀ line ∈ lines, IsClean line) (limit : Nat) : AgreesWithScript lines limit := by
  obtain ⟨whole, same⟩ := joined_clean clean
  refine ⟨⟨Text.typed lines, Text.lines_typed lines plain⟩, whole, same, ?_, ?_⟩
  · intro steps t ran
    exact transcript_of_ok clean ran
  · intro steps t ran
    obtain ⟨a, runs, ended, left⟩ := Session.runs_of_run whole rfl ran
    rcases Session.answer_of_runs runs with rfl | ⟨f, rfl⟩
    · cases ended
    · refine ⟨f, ?_, ?_, ?_⟩
      · rw [left]
        rfl
      · obtain ⟨place, inside, fails⟩ := Session.exists_failsAt runs
        have count := congrArg List.length same
        rw [Stmt.placelessAll_length, Stmt.placelessAll_length] at count
        obtain ⟨k, origin⟩ := exists_comesFrom (count ▸ inside)
        exact ⟨place, k, origin, fails⟩
      · intro place k origin fails
        exact replies_of_failure clean origin fails

private def printAndFail : List String := ["print nil;", "a;"]

private theorem printAndFail_clean : ∀ line ∈ printAndFail, IsClean line := by
  intro line member
  have identifier : Token.IsIdentifier "a".toList := by decide
  let name : Token := .unplaced .identifier "a" 1
  rcases List.mem_pair.mp member with rfl | rfl
  · exact (clean_of_canonical (.print (.literal .nil)) trivial).1
  · exact (clean_of_canonical (.expression (.variable name)) identifier).1

theorem agrees_on_print_and_fail :
    (∀ line ∈ printAndFail, '\n' ∉ line.toList) ∧ (∀ line ∈ printAndFail, IsClean line) ∧
      AgreesWithScript printAndFail Interpreter.defaultLimit := by
  have plain : ∀ line ∈ printAndFail, '\n' ∉ line.toList := by decide
  exact ⟨plain, printAndFail_clean, agrees_with_script plain printAndFail_clean _⟩

end Prompt

end Jess
