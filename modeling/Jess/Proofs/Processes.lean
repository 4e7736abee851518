import Jess.Command
import Jess.Proofs.Output

/-!
# What the command leaves

Whoever serves a process of the command does one action at a time. In the end
there is what a run of the script as a whole gives, or what the conversation at
the prompt gives, whatever the files and the lines are.
-/

namespace Jess

theorem Session.load_interpreter (source : String) (s : Session) :
    (s.load source).2.interpreter = s.interpreter := by
  simp only [load]
  split
  · rfl
  split <;> rfl

theorem Session.conclude_clearOutput (fault : Option Fault) (i : Interpreter) (s : Session) :
    s.conclude fault i.clearOutput =
      ((s.conclude fault i).1, (s.conclude fault i).2.takeOutput.2) := by
  cases fault <;> rfl

theorem Session.conclude_interpreter (fault : Option Fault) (i : Interpreter) (s : Session) :
    (s.conclude fault i).2.interpreter = i := by
  cases fault <;> rfl

namespace Command

namespace World

/-- A process that is served exits and leaves a result. -/
def Ends (w : World) (p : Process) (r : Result) : Prop := ∃ steps, w.serve steps p = some r

/-- What is left where a source has come to a result, and a process goes on behind its report. -/
def EndsBehind (w : World) (mode : Mode) (result : Session.Outcome × String × Session)
    (r : Result) : Prop :=
  ((w.write result.2.2.interpreter.output).report result.2.1).Ends
    (.leave mode result.1 result.2.2.takeOutput.2) r

theorem write_write (w : World) (first second : String) :
    (w.write first).write second = w.write (first ++ second) := by
  simp only [write, String.append_assoc]

theorem write_empty (w : World) : w.write "" = w := by
  simp only [write, String.append_empty]

variable {w w' : World} {p q : Process} {r : Result}

theorem ends_iff_of_answer (answers : w.answer p.act = .ok (w', q)) :
    w.Ends p r ↔ w'.Ends q r := by
  constructor
  · rintro ⟨steps, served⟩
    cases steps with
    | zero => cases served
    | succ steps =>
        simp only [serve, answers] at served
        exact ⟨steps, served⟩
  · rintro ⟨steps, served⟩
    refine ⟨steps + 1, ?_⟩
    simp only [serve, answers]
    exact served

theorem ends_done_iff (code : Nat) :
    w.Ends (.done code) r ↔ r = ⟨code, w.output, w.errors⟩ := by
  constructor
  · rintro ⟨steps, served⟩
    cases steps with
    | zero => cases served
    | succ steps =>
        cases served
        rfl
  · rintro rfl
    exact ⟨1, rfl⟩

theorem ends_refusing_iff (refusal : Refusal) :
    w.Ends (.refusing refusal) r ↔
      r = ⟨refusal.exitCode, w.output, w.errors ++ (refusal.message ++ "\n")⟩ :=
  (ends_iff_of_answer rfl).trans (ends_done_iff _)

end World

section Sources

variable {w : World} {mode : Mode} {s t : Session} {m : Machine} {r : Result}

theorem running_answer (running : ¬m.IsHalted) :
    w.answer (Process.running mode s m).act =
      .ok (w.write m.step.interpreter.output, .running mode s m.step.quiet) := by
  have acts : (Process.running mode s m).act = Process.advance mode s m := by
    simp only [Process.act]
    split
    · rename_i a halted
      exact absurd ⟨a, halted⟩ running
    · rfl
  simp only [acts, Process.advance]
  split
  · rename_i silent
    have fresh := Array.isEmpty_iff.mp silent
    rw [World.answer, Interpreter.output_of_fresh fresh, World.write_empty, Machine.quiet,
      Interpreter.clearOutput_of_fresh fresh]
  · rfl

theorem halted_answer {a : Answer} (halted : m.control = .halted a) :
    w.answer (Process.running mode s m).act =
      .ok (w, .reporting mode (s.conclude a.fault? m.interpreter).1
        (s.conclude a.fault? m.interpreter).2) := by
  simp only [Process.act, halted]
  rfl

/-- A program that is served until it halts has written all that it would have printed. -/
theorem ends_running_iff {steps : Nat} {a : Answer} {i : Interpreter}
    (ran : Machine.run steps m = some (a, i)) (fresh : m.interpreter.printed = #[]) :
    w.Ends (.running mode s m) r ↔
      (w.write i.output).Ends (.reporting mode (s.conclude a.fault? i).1
        (s.conclude a.fault? i).2.takeOutput.2) r := by
  induction steps generalizing m w i with
  | zero => cases ran
  | succ steps ih =>
      by_cases halted : m.IsHalted
      · obtain ⟨b, halted⟩ := halted
        rw [Machine.run_halted halted] at ran
        cases ran
        rw [World.ends_iff_of_answer (halted_answer halted), Interpreter.output_of_fresh fresh,
          World.write_empty, ← Interpreter.clearOutput_of_fresh fresh,
          Session.conclude_clearOutput]
        rfl
      · rw [Machine.run_succ halted, ← m.step.quiet_behind, Machine.run_behind] at ran
        obtain ⟨⟨b, j⟩, later, same⟩ := Option.map_eq_some_iff.mp ran
        cases same
        rw [World.ends_iff_of_answer (running_answer halted), ih later rfl, World.write_write,
          Interpreter.output_behind]
        cases b.fault? <;> rfl

theorem halts_of_ends (ends : w.Ends (.running mode s m) r) :
    ∃ steps a i, Machine.run steps m = some (a, i) := by
  obtain ⟨steps, served⟩ := ends
  induction steps generalizing m w with
  | zero => cases served
  | succ steps ih =>
      by_cases halted : m.IsHalted
      · obtain ⟨a, halted⟩ := halted
        exact ⟨1, a, m.interpreter, Machine.run_halted halted 0⟩
      · simp only [World.serve, running_answer halted] at served
        obtain ⟨steps, a, i, ran⟩ := ih served
        refine ⟨steps + 1, a, i.behind m.step.interpreter.printed, ?_⟩
        rw [Machine.run_succ halted, ← m.step.quiet_behind, Machine.run_behind, ran]
        rfl

theorem runEmitting_of_unloaded {source : String} (loaded : s.load source = (none, t))
    (steps : Nat) :
    s.runEmitting steps source =
      some (.staticError, Diagnostic.Log.emitted t.drain.1, t.drain.2) := by
  simp only [Session.runEmitting, Session.run, loaded]

theorem runEmitting_of_loaded {source : String} {program : List Stmt}
    (loaded : s.load source = (some program, t)) (steps : Nat) :
    s.runEmitting steps source =
      (Machine.run steps (Machine.ofProgram program t.interpreter)).map fun result =>
        let u := t.conclude result.1.fault? result.2
        (u.1, Diagnostic.Log.emitted u.2.drain.1, u.2.drain.2) := by
  simp only [Session.runEmitting, Session.run, loaded, Interpreter.interpret]
  cases Machine.run steps (Machine.ofProgram program t.interpreter) <;> rfl

theorem ends_start_of_unloaded {source : String} (loaded : s.load source = (none, t))
    (fresh : t.interpreter.printed = #[]) :
    w.Ends (.start mode source s) r ↔
      w.EndsBehind mode (.staticError, Diagnostic.Log.emitted t.drain.1, t.drain.2) r := by
  have still : t.drain.2.interpreter.printed = #[] := fresh
  rw [World.EndsBehind, Interpreter.output_of_fresh still, World.write_empty, Session.takeOutput,
    Interpreter.clearOutput_of_fresh still]
  simp only [Process.start, loaded]
  exact World.ends_iff_of_answer rfl

theorem ends_start_of_loaded {source : String} {program : List Stmt}
    (loaded : s.load source = (some program, t)) :
    w.Ends (.start mode source s) r ↔
      w.Ends (.running mode t (Machine.ofProgram program t.interpreter)) r := by
  simp only [Process.start, loaded]

theorem ends_program_iff {program : List Stmt} {steps : Nat} {a : Answer} {i : Interpreter}
    (halts : Machine.run steps (Machine.ofProgram program t.interpreter) = some (a, i))
    (fresh : t.interpreter.printed = #[]) :
    w.Ends (.running mode t (Machine.ofProgram program t.interpreter)) r ↔
      w.EndsBehind mode
        ((t.conclude a.fault? i).1, Diagnostic.Log.emitted (t.conclude a.fault? i).2.drain.1,
          (t.conclude a.fault? i).2.drain.2) r := by
  have printed : (t.conclude a.fault? i).2.drain.2.interpreter = i := t.conclude_interpreter _ i
  rw [ends_running_iff halts fresh, World.EndsBehind, printed]
  exact World.ends_iff_of_answer rfl

theorem ends_start_iff (source : String) (fresh : s.interpreter.printed = #[]) :
    w.Ends (.start mode source s) r ↔
      ∃ steps result, s.runEmitting steps source = some result ∧ w.EndsBehind mode result r := by
  have kept := s.load_interpreter source
  cases loaded : s.load source with
  | mk program t =>
      rw [loaded] at kept
      have still : t.interpreter.printed = #[] := kept ▸ fresh
      cases program with
      | none =>
          simp only [ends_start_of_unloaded loaded still, runEmitting_of_unloaded loaded,
            Option.some.injEq]
          constructor
          · intro ends
            exact ⟨0, _, rfl, ends⟩
          · rintro ⟨_, _, rfl, ends⟩
            exact ends
      | some program =>
          simp only [ends_start_of_loaded loaded, runEmitting_of_loaded loaded,
            Option.map_eq_some_iff]
          constructor
          · intro ends
            obtain ⟨steps, a, i, halts⟩ := halts_of_ends ends
            exact ⟨steps, _, ⟨_, halts, rfl⟩, (ends_program_iff halts still).mp ends⟩
          · rintro ⟨steps, _, ⟨⟨a, i⟩, halts, rfl⟩, ends⟩
            exact (ends_program_iff halts still).mpr ends

theorem runEmitting_of_le {source : String} {steps more : Nat}
    {result : Session.Outcome × String × Session} (ran : s.runEmitting steps source = some result)
    (bound : steps ≤ more) : s.runEmitting more source = some result := by
  cases loaded : s.load source with
  | mk program t =>
      cases program with
      | none => rwa [runEmitting_of_unloaded loaded] at ran ⊢
      | some program =>
          rw [runEmitting_of_loaded loaded, Option.map_eq_some_iff] at ran ⊢
          obtain ⟨came, halts, same⟩ := ran
          exact ⟨came, Machine.run_of_le halts bound, same⟩

end Sources

section Conversations

open Prompt (Reply Transcript emittedBy)

/-- What is written for replies, each behind the mark of its line. -/
def spoken (replies : List Reply) : String :=
  replies.foldl (fun text r => text ++ Prompt.mark ++ r.printed) ""

def Result.ofTranscript (t : Transcript) : Result :=
  match refusalOf? t.ending with
  | none => ⟨0, t.conversation, t.emitted⟩
  | some r => ⟨r.exitCode, t.conversation, t.emitted ++ (r.message ++ "\n")⟩

variable {s : Session} {r : Result}

theorem respond_eq_some_iff {steps : Nat} {line : String} {reply : Reply} {u : Session} :
    Prompt.respond steps line s = some (reply, u) ↔
      ∃ outcome emitted t, s.runEmitting steps line = some (outcome, emitted, t) ∧
        reply = ⟨t.interpreter.output, emitted⟩ ∧ u = t.takeOutput.2.forgetStatic := by
  unfold Prompt.respond
  cases s.runEmitting steps line with
  | none => simp
  | some result =>
      obtain ⟨outcome, emitted, t⟩ := result
      constructor
      · intro same
        cases same
        exact ⟨outcome, emitted, t, rfl, rfl, rfl⟩
      · rintro ⟨_, _, _, same, rfl, rfl⟩
        cases same
        rfl

theorem converse_undecoded {line : List UInt8} (decoded : Text.decode? line = none) (steps : Nat)
    (done : Array Reply) (s : Session) (rest : List (List UInt8)) :
    Prompt.converse steps done s (line :: rest) = some ⟨done.toList, .notText, s⟩ := by
  unfold Prompt.converse
  rw [decoded]

/-- A line is answered with what its run left, and then the others are. -/
theorem converse_decoded_iff {line : List UInt8} {text : String}
    (decoded : Text.decode? line = some text) {steps : Nat} {done : Array Reply}
    {rest : List (List UInt8)} {u : Transcript} :
    Prompt.converse steps done s (line :: rest) = some u ↔
      ∃ outcome emitted t, s.runEmitting steps text = some (outcome, emitted, t) ∧
        Prompt.converse steps (done.push ⟨t.interpreter.output, emitted⟩)
          t.takeOutput.2.forgetStatic rest = some u := by
  rw [Prompt.converse]
  simp only [decoded]
  cases responded : Prompt.respond steps text s with
  | none =>
      constructor
      · intro talked
        cases talked
      · rintro ⟨outcome, emitted, t, ran, _⟩
        cases responded.symm.trans (respond_eq_some_iff.mpr ⟨outcome, emitted, t, ran, rfl, rfl⟩)
  | some result =>
      obtain ⟨reply, v⟩ := result
      constructor
      · intro talked
        obtain ⟨outcome, emitted, t, ran, rfl, rfl⟩ := respond_eq_some_iff.mp responded
        exact ⟨outcome, emitted, t, ran, talked⟩
      · rintro ⟨outcome, emitted, t, ran, talked⟩
        cases responded.symm.trans (respond_eq_some_iff.mpr ⟨outcome, emitted, t, ran, rfl, rfl⟩)
        exact talked

theorem converse_of_le {steps more : Nat} (bound : steps ≤ more) {lines : List (List UInt8)}
    {done : Array Reply} {t : Transcript} (talked : Prompt.converse steps done s lines = some t) :
    Prompt.converse more done s lines = some t := by
  induction lines generalizing done s with
  | nil => exact talked
  | cons line rest ih =>
      cases decoded : Text.decode? line with
      | none =>
          rw [converse_undecoded decoded] at talked ⊢
          exact talked
      | some text =>
          obtain ⟨outcome, emitted, u, ran, later⟩ := (converse_decoded_iff decoded).mp talked
          exact (converse_decoded_iff decoded).mpr
            ⟨outcome, emitted, u, runEmitting_of_le ran bound, ih later⟩

/-- The world in which some replies were written already. -/
def World.speaking (file : String → Except Unreadable (List UInt8)) (lines : List (List UInt8))
    (replies : List Reply) : World :=
  ⟨file, lines, spoken replies, emittedBy replies⟩

variable {file : String → Except Unreadable (List UInt8)} {rest : List (List UInt8)}

theorem ends_at_end (replies : List Reply) :
    (World.speaking file [] replies).Ends (.prompting s) r ↔
      r = .ofTranscript ⟨replies, .endOfInput, s⟩ :=
  (World.ends_iff_of_answer rfl).trans <| (World.ends_iff_of_answer rfl).trans <|
    (World.ends_iff_of_answer rfl).trans (World.ends_done_iff 0)

theorem ends_heard_iff (line : List UInt8) (replies : List Reply) :
    (World.speaking file (line :: rest) replies).Ends (.prompting s) r ↔
      ((World.speaking file rest replies).write Prompt.mark).Ends (.heard (some line) s) r :=
  (World.ends_iff_of_answer rfl).trans (World.ends_iff_of_answer rfl)

theorem ends_undecoded_iff {line : List UInt8} (decoded : Text.decode? line = none)
    (replies : List Reply) :
    (World.speaking file (line :: rest) replies).Ends (.prompting s) r ↔
      r = .ofTranscript ⟨replies, .notText, s⟩ := by
  have left : Result.ofTranscript ⟨replies, .notText, s⟩ =
      ⟨(Refusal.prompt .notText).exitCode, spoken replies ++ Prompt.mark,
        emittedBy replies ++ ((Refusal.prompt .notText).message ++ "\n")⟩ := by
    simp only [Result.ofTranscript, refusalOf?, Transcript.conversation, Prompt.Ending.text,
      String.append_empty]
    rfl
  rw [ends_heard_iff, left]
  simp only [Process.heard, decoded]
  exact World.ends_refusing_iff _

theorem ends_behind_reply (outcome : Session.Outcome) (emitted : String) (t : Session)
    (replies : List Reply) :
    ((World.speaking file rest replies).write Prompt.mark).EndsBehind .prompt
        (outcome, emitted, t) r ↔
      (World.speaking file rest (replies ++ [⟨t.interpreter.output, emitted⟩])).Ends
        (.prompting t.takeOutput.2.forgetStatic) r := by
  simp only [World.speaking, spoken, emittedBy, List.foldl_append, List.foldl_cons,
    List.foldl_nil]
  exact Iff.rfl

/-- Lines are served as the prompt answers them, behind the replies that were given before. -/
theorem ends_prompting_iff (lines : List (List UInt8)) (done : Array Reply) (s : Session)
    (fresh : s.interpreter.printed = #[]) :
    (World.speaking file lines done.toList).Ends (.prompting s) r ↔
      ∃ steps t, Prompt.converse steps done s lines = some t ∧ r = .ofTranscript t := by
  induction lines generalizing done s with
  | nil =>
      rw [ends_at_end]
      constructor
      · intro left
        exact ⟨0, _, rfl, left⟩
      · rintro ⟨_, _, talked, left⟩
        cases talked
        exact left
  | cons line rest ih =>
      cases decoded : Text.decode? line with
      | none =>
          simp only [ends_undecoded_iff decoded, converse_undecoded decoded, Option.some.injEq]
          constructor
          · intro left
            exact ⟨0, _, rfl, left⟩
          · rintro ⟨_, _, rfl, left⟩
            exact left
      | some text =>
          simp only [ends_heard_iff, Process.heard, decoded, ends_start_iff text fresh,
            converse_decoded_iff decoded]
          constructor
          · rintro ⟨steps, ⟨outcome, emitted, t⟩, ran, ends⟩
            rw [ends_behind_reply, ← Array.toList_push, ih _ _ rfl] at ends
            obtain ⟨more, u, talked, left⟩ := ends
            refine ⟨max steps more, u, ⟨outcome, emitted, t, ?_, ?_⟩, left⟩
            · exact runEmitting_of_le ran (Nat.le_max_left steps more)
            · exact converse_of_le (Nat.le_max_right steps more) talked
          · rintro ⟨steps, u, ⟨outcome, emitted, t, ran, talked⟩, left⟩
            refine ⟨steps, (outcome, emitted, t), ran, ?_⟩
            rw [ends_behind_reply, ← Array.toList_push, ih _ _ rfl]
            exact ⟨steps, u, talked, left⟩

end Conversations

section Command

variable {file : String → Except Unreadable (List UInt8)} {lines : List (List UInt8)} {r : Result}

/-- What is left by a script: a refusal where it cannot be read, and else what its run gives. -/
inductive LeavesScript (file : String → Except Unreadable (List UInt8)) (path : String)
    (s : Session) : Result → Prop
  | unread {refusal : Refusal} (missing : source path (file path) = .error refusal) :
      LeavesScript file path s ⟨refusal.exitCode, "", refusal.message ++ "\n"⟩
  | ran {text emitted : String} {steps : Nat} {outcome : Session.Outcome} {t : Session}
      (read : source path (file path) = .ok text)
      (runs : s.runEmitting steps text = some (outcome, emitted, t)) :
      LeavesScript file path s ⟨outcome.exitCode, t.interpreter.output, emitted⟩

/-- What is left by a command with some arguments, a limit that is asked for, files and lines. -/
inductive Leaves (args : List String) (depth : Option String)
    (file : String → Except Unreadable (List UInt8)) (lines : List (List UInt8)) : Result → Prop
  | refused {refusal : Refusal} (asked : Settings.ofParts args depth = .error refusal) :
      Leaves args depth file lines ⟨refusal.exitCode, "", refusal.message ++ "\n"⟩
  | script {settings : Settings} {path : String} {r : Result}
      (asked : Settings.ofParts args depth = .ok settings) (given : settings.script = some path)
      (left : LeavesScript file path (.new settings.interpreter) r) :
      Leaves args depth file lines r
  | talked {settings : Settings} {steps : Nat} {t : Prompt.Transcript}
      (asked : Settings.ofParts args depth = .ok settings) (none : settings.script = none)
      (talks : Prompt.converse steps #[] (.new settings.interpreter) lines = some t) :
      Leaves args depth file lines (.ofTranscript t)

theorem ends_refused_iff (refusal : Refusal) :
    World.Ends ⟨file, lines, "", ""⟩ (.refusing refusal) r ↔
      r = ⟨refusal.exitCode, "", refusal.message ++ "\n"⟩ := by
  rw [World.ends_refusing_iff, String.empty_append]

theorem ends_behind_script (outcome : Session.Outcome) (emitted : String) (t : Session) :
    World.EndsBehind ⟨file, lines, "", ""⟩ .script (outcome, emitted, t) r ↔
      r = ⟨outcome.exitCode, t.interpreter.output, emitted⟩ := by
  refine (World.ends_done_iff _).trans ?_
  simp only [World.report, World.write, String.empty_append]

theorem ends_opening_iff (path : String) {s : Session} (fresh : s.interpreter.printed = #[]) :
    World.Ends ⟨file, lines, "", ""⟩ (.opening path s) r ↔ LeavesScript file path s r := by
  have opens : World.Ends ⟨file, lines, "", ""⟩ (.opening path s) r ↔
      World.Ends ⟨file, lines, "", ""⟩ (.opened path (file path) s) r :=
    World.ends_iff_of_answer rfl
  rw [opens]
  cases found : source path (file path) with
  | error refusal =>
      simp only [Process.opened, found, ends_refused_iff]
      constructor
      · rintro rfl
        exact .unread found
      · intro left
        cases left with
        | unread missing =>
            cases found.symm.trans missing
            rfl
        | ran read => cases found.symm.trans read
  | ok text =>
      simp only [Process.opened, found, ends_start_iff text fresh]
      constructor
      · rintro ⟨steps, ⟨outcome, emitted, t⟩, runs, ends⟩
        obtain rfl := (ends_behind_script outcome emitted t).mp ends
        exact .ran found runs
      · intro left
        cases left with
        | unread missing => cases found.symm.trans missing
        | ran read runs =>
            cases found.symm.trans read
            exact ⟨_, _, runs, (ends_behind_script _ _ _).mpr rfl⟩

/-- The command ends just where a run of the script or the conversation does, and it leaves the
same, whatever files and lines it finds. -/
theorem ends_iff_leaves (args : List String) (depth : Option String) :
    World.Ends ⟨file, lines, "", ""⟩ (.ofParts args depth) r ↔
      Leaves args depth file lines r := by
  cases asked : Settings.ofParts args depth with
  | error refusal =>
      simp only [Process.ofParts, asked, ends_refused_iff]
      constructor
      · rintro rfl
        exact .refused asked
      · intro leaves
        cases leaves with
        | refused asked' =>
            cases asked.symm.trans asked'
            rfl
        | script asked' | talked asked' => cases asked.symm.trans asked'
  | ok settings =>
      have fresh : (Session.new settings.interpreter).interpreter.printed = #[] := rfl
      cases given : settings.script with
      | none =>
          simp only [Process.ofParts, asked, given]
          refine (ends_prompting_iff lines #[] _ fresh).trans ⟨?_, fun leaves => ?_⟩
          · rintro ⟨steps, t, talks, rfl⟩
            exact .talked asked given talks
          · cases leaves with
            | refused asked' => cases asked.symm.trans asked'
            | script asked' given' =>
                cases asked.symm.trans asked'
                cases given.symm.trans given'
            | talked asked' _ talks =>
                cases asked.symm.trans asked'
                exact ⟨_, _, talks, rfl⟩
      | some path =>
          simp only [Process.ofParts, asked, given, ends_opening_iff path fresh]
          refine ⟨.script asked given, fun leaves => ?_⟩
          cases leaves with
          | refused asked' => cases asked.symm.trans asked'
          | script asked' given' left =>
              cases asked.symm.trans asked'
              cases given.symm.trans given'
              exact left
          | talked asked' none =>
              cases asked.symm.trans asked'
              cases given.symm.trans none

theorem run_iff_leaves (around : Surroundings) :
    (∃ steps, run steps around = some r) ↔
      Leaves around.args around.depth around.folder.read (Text.lines around.input) r :=
  ends_iff_leaves around.args around.depth

end Command

end Command

end Jess
