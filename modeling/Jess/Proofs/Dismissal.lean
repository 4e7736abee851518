import Jess.Proofs.Modes
import Jess.Proofs.Records

/-!
# Bad lines at the prompt

A line with a static mistake is answered with the report of it. It is not run,
and the mistake is forgotten before the next line. So it leaves the interpreter
as it was, and the other lines are answered as if it had not been there.
-/

namespace Jess

namespace Source

/-- What is reported about a source that is only read: mistakes in its spelling, or if there are none
those in its grammar. -/
def mistakes (source : String) : List Diagnostic :=
  match spellingMistakes source with
  | [] => grammarMistakes source
  | found => found

def isGood (source : String) : Bool := (mistakes source).isEmpty

variable {source : String}

theorem mistakes_of_spelled (spelled : spellingMistakes source = []) :
    mistakes source = grammarMistakes source := by
  rw [mistakes, spelled]

theorem mistakes_of_misspelled (mistaken : spellingMistakes source ≠ []) :
    mistakes source = spellingMistakes source := by
  unfold mistakes
  split
  · rename_i spelled
    exact absurd spelled mistaken
  · rfl

theorem mistakes_eq_nil_iff :
    mistakes source = [] ↔ spellingMistakes source = [] ∧ grammarMistakes source = [] := by
  by_cases spelled : spellingMistakes source = []
  · rw [mistakes_of_spelled spelled]
    exact ⟨fun formed => ⟨spelled, formed⟩, And.right⟩
  · rw [mistakes_of_misspelled spelled]
    exact ⟨fun none => absurd none spelled, fun none => absurd none.1 spelled⟩

theorem mistakes_static : ∀ d ∈ mistakes source, d.kind ≠ .runtime := by
  intro d member runtime
  by_cases spelled : spellingMistakes source = []
  · rw [mistakes_of_spelled spelled] at member
    cases (grammarMistakes_syntactic source d member).symm.trans runtime
  · rw [mistakes_of_misspelled spelled] at member
    cases (spellingMistakes_lexical source d member).symm.trans runtime

end Source

namespace Prompt

open Source
open Session (IsQuiet)
open Machine (Runs)

/-- The programs of the lines without static mistakes come to their ends, each one run by the
interpreter that the earlier ones left. -/
inductive Finish : Interpreter → List String → Prop
  | nil {i : Interpreter} : Finish i []
  | dismissed {i : Interpreter} {line : String} {rest : List String} (mistaken : mistakes line ≠ [])
      (later : Finish i rest) : Finish i (line :: rest)
  | ran {i j : Interpreter} {a : Answer} {line : String} {rest : List String}
      (formed : mistakes line = []) (runs : Runs (statements line) i a j)
      (later : Finish j.clearOutput rest) : Finish i (line :: rest)

inductive Handles (i : Interpreter) (line : String) : List Diagnostic → Interpreter → Prop
  | dismissed (mistaken : mistakes line ≠ []) : Handles i line (mistakes line) i
  | ran {a : Answer} {j : Interpreter} (formed : mistakes line = [])
      (runs : Runs (statements line) i a j) :
      Handles i line (a.fault?.toList.map Fault.diagnostic) j

structure Exchange where
  line : String
  printed : String
  reported : List Diagnostic

def Exchange.reply (e : Exchange) : Reply := ⟨e.printed, Diagnostic.Log.emitted e.reported⟩

/-- Lines are answered one after another, and what one printed is taken out before the next one. -/
inductive Talks : Interpreter → List Exchange → Interpreter → Prop
  | nil {i : Interpreter} : Talks i [] i
  | cons {i j k : Interpreter} {line : String} {reported : List Diagnostic} {rest : List Exchange}
      (handles : Handles i line reported j) (later : Talks j.clearOutput rest k) :
      Talks i (⟨line, j.output, reported⟩ :: rest) k

section Lines

variable {steps : Nat} {line : String} {s t : Session} {reported : List Diagnostic}
  {i j k : Interpreter}

theorem Handles.reports (handles : Handles i line reported j) :
    ∃ outcome enough, ∀ steps, enough ≤ steps → ∀ s : Session, s.interpreter = i →
      s.log.static = false → s.Reports steps line outcome reported j := by
  cases handles with
  | dismissed mistaken =>
      refine ⟨.staticError, 0, fun steps _ s same free => ?_⟩
      subst same
      by_cases spelled : spellingMistakes line = []
      · rw [mistakes_of_spelled spelled] at mistaken ⊢
        exact .ungrammatical spelled free mistaken
      · rw [mistakes_of_misspelled spelled]
        exact .misspelled spelled
  | @ran a j formed runs =>
      obtain ⟨spelled, formed⟩ := mistakes_eq_nil_iff.mp formed
      obtain ⟨enough, halts⟩ := Machine.interpret_of_runs runs
      cases failed : a.fault? with
      | none =>
          refine ⟨.ok, enough, fun steps bound s same free => ?_⟩
          subst same
          exact .ended spelled free formed ((halts steps bound).trans (by rw [failed]))
      | some f =>
          refine ⟨.runtimeError, enough, fun steps bound s same free => ?_⟩
          subst same
          exact .failed spelled free formed ((halts steps bound).trans (by rw [failed]))

def goesOn (s : Session) (reported : List Diagnostic) (j : Interpreter) : Session :=
  ⟨j.clearOutput, (s.log.append reported).drain.2.forgetStatic, .done⟩

theorem respond_of_reports (quiet : s.IsQuiet) {outcome : Session.Outcome}
    (reports : s.Reports steps line outcome reported j) :
    respond steps line s =
      some (⟨j.output, Diagnostic.Log.emitted reported⟩, goesOn s reported j) := by
  have held : (s.log.append reported).held.toList = reported := by
    rw [Diagnostic.Log.held_append, quiet.held, Array.toList_empty, List.nil_append]
  simp only [respond, Session.runEmitting, Session.run_of_reports reports, Session.drain,
    Diagnostic.Log.drain, held]
  rfl

theorem respond_of_handles (handles : Handles i line reported j) :
    ∃ enough, ∀ steps, enough ≤ steps → ∀ s : Session, s.IsQuiet → s.interpreter = i →
      respond steps line s =
        some (⟨j.output, Diagnostic.Log.emitted reported⟩, goesOn s reported j) := by
  obtain ⟨outcome, enough, reports⟩ := handles.reports
  exact ⟨enough, fun steps bound s quiet same =>
    respond_of_reports quiet (reports steps bound s same quiet.static)⟩

theorem handles_of_respond (quiet : s.IsQuiet) {reply : Reply}
    (responds : respond steps line s = some (reply, t)) :
    ∃ reported j, Handles s.interpreter line reported j ∧ t = goesOn s reported j := by
  cases ran : s.run steps line with
  | none =>
      rw [respond, Session.runEmitting, ran] at responds
      cases responds
  | some result =>
      obtain ⟨outcome, u⟩ := result
      obtain ⟨reported, j, reports, _⟩ := Session.run_reports ran
      have next : t = goesOn s reported j :=
        congrArg Prod.snd (Option.some.inj (responds.symm.trans (respond_of_reports quiet reports)))
      refine ⟨reported, j, ?_, next⟩
      cases reports with
      | misspelled mistaken =>
          have same := mistakes_of_misspelled mistaken
          rw [← same] at mistaken ⊢
          exact .dismissed mistaken
      | blocked _ static => cases quiet.static.symm.trans static
      | ungrammatical spelled _ mistaken =>
          have same := mistakes_of_spelled spelled
          rw [← same] at mistaken ⊢
          exact .dismissed mistaken
      | ended spelled _ formed ran =>
          obtain ⟨a, runs, came⟩ := Machine.runs_of_interpret ran
          have handles := Handles.ran (mistakes_eq_nil_iff.mpr ⟨spelled, formed⟩) runs
          rwa [came] at handles
      | failed spelled _ formed ran =>
          obtain ⟨a, runs, came⟩ := Machine.runs_of_interpret ran
          have handles := Handles.ran (mistakes_eq_nil_iff.mpr ⟨spelled, formed⟩) runs
          rwa [came] at handles

end Lines

section Conversations

variable {i j : Interpreter} {exchanges : List Exchange} {lines : List String}

theorem Finish.talks (finish : Finish i lines) (fresh : i.printed = #[]) :
    ∃ exchanges j, Talks i exchanges j ∧ exchanges.map Exchange.line = lines := by
  induction finish with
  | nil => exact ⟨[], _, .nil, rfl⟩
  | dismissed mistaken _ ih =>
      obtain ⟨exchanges, j, talks, rfl⟩ := ih fresh
      rw [← Interpreter.clearOutput_of_fresh fresh] at talks
      exact ⟨_, j, .cons (.dismissed mistaken) talks, rfl⟩
  | ran formed runs _ ih =>
      obtain ⟨exchanges, k, talks, rfl⟩ := ih rfl
      exact ⟨_, k, .cons (.ran formed runs) talks, rfl⟩

theorem Talks.answers (talks : Talks i exchanges j) {s : Session} (quiet : s.IsQuiet)
    (same : s.interpreter = i) :
    ∃ t, t.interpreter = j ∧ ∃ enough, ∀ steps, enough ≤ steps →
      Answers steps s (exchanges.map Exchange.line) (exchanges.map Exchange.reply) t := by
  induction talks generalizing s with
  | nil => exact ⟨s, same, 0, fun steps _ => .nil steps s⟩
  | @cons i j k line reported rest handles _ ih =>
      obtain ⟨enough, responds⟩ := respond_of_handles handles
      obtain ⟨t, left, enough', later⟩ := ih (s := goesOn s reported j) ⟨rfl, rfl, rfl⟩ rfl
      refine ⟨t, left, max enough enough', fun steps bound => ?_⟩
      have first := Answers.single (responds steps (le_of_max_le_left bound) s quiet same)
      exact first.append (later steps (le_of_max_le_right bound))

/-- The exchanges over lines without static mistakes. -/
def goodOnes (exchanges : List Exchange) : List Exchange := exchanges.filter fun e => isGood e.line

theorem goodOnes_of_good {e : Exchange} (good : isGood e.line = true) :
    goodOnes (e :: exchanges) = e :: goodOnes exchanges := by
  simp only [goodOnes, List.filter_cons, good, if_true]

theorem goodOnes_of_bad {e : Exchange} (bad : isGood e.line = false) :
    goodOnes (e :: exchanges) = goodOnes exchanges := by
  simp only [goodOnes, List.filter_cons, bad, Bool.false_eq_true, if_false]

theorem goodOnes_lines (exchanges : List Exchange) :
    (goodOnes exchanges).map Exchange.line = (exchanges.map Exchange.line).filter isGood := by
  rw [List.filter_map]
  rfl

theorem Talks.without_bad (talks : Talks i exchanges j) (fresh : i.printed = #[]) :
    Talks i (goodOnes exchanges) j := by
  induction talks with
  | nil => exact .nil
  | @cons i j k line reported rest handles _ ih =>
      cases handles with
      | dismissed mistaken =>
          have bad : isGood line = false := List.isEmpty_eq_false_iff.mpr mistaken
          rw [Interpreter.clearOutput_of_fresh fresh] at ih
          rw [goodOnes_of_bad (e := ⟨line, i.output, mistakes line⟩) bad]
          exact ih fresh
      | ran formed runs =>
          have good : isGood line = true := List.isEmpty_iff.mpr formed
          rw [goodOnes_of_good (e := ⟨line, j.output, _⟩) good]
          exact .cons (.ran formed runs) (ih rfl)

/-- What a line is answered with: its static mistakes and nothing else, or what its program prints
and one runtime error at most. -/
structure Exchange.IsJudged (e : Exchange) : Prop where
  bad : mistakes e.line ≠ [] → e.reported = mistakes e.line ∧ e.printed = ""
  good : mistakes e.line = [] → e.reported.length ≤ 1 ∧ ∀ d ∈ e.reported, d.kind = .runtime

theorem Talks.judged (talks : Talks i exchanges j) (fresh : i.printed = #[]) :
    ∀ e ∈ exchanges, e.IsJudged := by
  induction talks with
  | nil => exact List.forall_mem_nil _
  | cons handles _ ih =>
      refine List.forall_mem_cons.mpr ⟨?_, ih rfl⟩
      cases handles with
      | dismissed mistaken =>
          refine ⟨fun _ => ⟨rfl, ?_⟩, fun none => absurd none mistaken⟩
          rw [Interpreter.output, fresh]
          rfl
      | @ran a _ formed _ =>
          refine ⟨fun mistaken => absurd formed mistaken, fun _ => ?_⟩
          cases a.fault? with
          | none => exact ⟨Nat.zero_le _, List.forall_mem_nil _⟩
          | some f => exact ⟨Nat.le_refl _, List.forall_mem_singleton.mpr rfl⟩

theorem printedBy_cons (r : Reply) (rest : List Reply) :
    printedBy (r :: rest) = r.printed ++ printedBy rest := by
  rw [printedBy, List.foldl_cons, Text.foldl_text, String.empty_append]
  rfl

theorem printedBy_goodOnes (judged : ∀ e ∈ exchanges, e.IsJudged) :
    printedBy ((goodOnes exchanges).map Exchange.reply) =
      printedBy (exchanges.map Exchange.reply) := by
  induction exchanges with
  | nil => rfl
  | cons e rest ih =>
      obtain ⟨first, others⟩ := List.forall_mem_cons.mp judged
      rw [List.map_cons, printedBy_cons, ← ih others]
      by_cases mistaken : mistakes e.line = []
      · have good : isGood e.line = true := List.isEmpty_iff.mpr mistaken
        rw [goodOnes_of_good good, List.map_cons, printedBy_cons]
      · have bad : isGood e.line = false := List.isEmpty_eq_false_iff.mpr mistaken
        have silent : e.reply.printed = "" := (first.bad mistaken).2
        rw [goodOnes_of_bad bad, silent, String.empty_append]

theorem reported_goodOnes (judged : ∀ e ∈ exchanges, e.IsJudged) :
    (goodOnes exchanges).flatMap Exchange.reported =
      (exchanges.flatMap Exchange.reported).filter fun d => d.kind = .runtime := by
  induction exchanges with
  | nil => rfl
  | cons e rest ih =>
      obtain ⟨first, others⟩ := List.forall_mem_cons.mp judged
      rw [List.flatMap_cons, List.filter_append, ← ih others]
      by_cases mistaken : mistakes e.line = []
      · have good : isGood e.line = true := List.isEmpty_iff.mpr mistaken
        have all : (e.reported.filter fun d => d.kind = .runtime) = e.reported :=
          List.filter_eq_self.mpr fun d member => decide_eq_true ((first.good mistaken).2 d member)
        rw [goodOnes_of_good good, List.flatMap_cons, all]
      · have bad : isGood e.line = false := List.isEmpty_eq_false_iff.mpr mistaken
        have none : (e.reported.filter fun d => d.kind = .runtime) = [] := by
          refine List.filter_eq_nil_iff.mpr fun d member => ?_
          rw [(first.bad mistaken).1] at member
          exact fun runtime => mistakes_static d member (of_decide_eq_true runtime)
        rw [goodOnes_of_bad bad, none, List.nil_append]

theorem emittedBy_exchanges (exchanges : List Exchange) :
    emittedBy (exchanges.map Exchange.reply) =
      Diagnostic.Log.emitted (exchanges.flatMap Exchange.reported) := by
  have bundle (reported : List Diagnostic) (text : String) :
      reported.foldl (fun text d => text ++ d.text ++ "\n") text =
        text ++ Diagnostic.Log.emitted reported := by
    simp only [Diagnostic.Log.emitted, String.append_assoc]
    exact Text.foldl_text _ text reported
  rw [emittedBy, Diagnostic.Log.emitted, List.foldl_map, List.foldl_flatMap]
  simp only [bundle]
  rfl

theorem marks_of_ended {t : Transcript} (ended : t.ending = .endOfInput) :
    t.marks = String.join (List.replicate (t.replies.length + 1) mark) ++ "\n" := by
  have each : t.replies.foldl (fun text _ => text ++ mark) "" =
      String.join (List.replicate t.replies.length mark) := by
    rw [String.join, ← List.map_const', List.foldl_map]
  rw [Transcript.marks, ended, each, List.replicate_succ', String.join_append]
  rfl

end Conversations

section Inputs

variable {i : Interpreter} {lines : List String} {input input' : List UInt8} {t : Transcript}

def Gives (input : List UInt8) (lines : List String) : Prop :=
  (Text.lines input).map Text.decode? = lines.map some

theorem finish_of_converse {steps : Nat} {s : Session} (quiet : s.IsQuiet) {done : Array Reply}
    {bytes : List (List UInt8)} (decoded : bytes.map Text.decode? = lines.map some)
    (answered : converse steps done s bytes = some t) : Finish s.interpreter lines := by
  induction lines generalizing s done bytes with
  | nil => exact .nil
  | cons line rest ih =>
      obtain ⟨own, later, rfl, decodes, decoded⟩ := List.map_eq_cons_iff.mp decoded
      rw [converse, decodes] at answered
      cases responds : respond steps line s with
      | none =>
          simp only [responds] at answered
          cases answered
      | some result =>
          obtain ⟨reply, u⟩ := result
          obtain ⟨reported, j, handles, rfl⟩ := handles_of_respond quiet responds
          simp only [responds] at answered
          have finish : Finish j.clearOutput rest := ih ⟨rfl, rfl, rfl⟩ decoded answered
          cases handles with
          | dismissed mistaken =>
              rw [Interpreter.clearOutput_of_fresh quiet.printed] at finish
              exact .dismissed mistaken finish
          | ran formed runs => exact .ran formed runs finish

theorem session_new_isQuiet (fresh : i.printed = #[]) : (Session.new i).IsQuiet :=
  ⟨rfl, rfl, fresh⟩

theorem Talks.transcript {exchanges : List Exchange} {j : Interpreter}
    (talks : Talks i exchanges j) (fresh : i.printed = #[]) :
    ∃ s, s.interpreter = j ∧ ∃ enough, ∀ steps, enough ≤ steps →
      ∀ input, Gives input (exchanges.map Exchange.line) →
        run steps input (Session.new i) =
          some ⟨exchanges.map Exchange.reply, .endOfInput, s⟩ := by
  obtain ⟨s, left, enough, answers⟩ := talks.answers (session_new_isQuiet fresh) rfl
  refine ⟨s, left, enough, fun steps bound input gives => ?_⟩
  have meets := (answers steps bound).meets input (Text.lines input) []
    (List.append_nil _).symm gives
  rw [meets, converse, List.toList_toArray]

theorem finish_iff (fresh : i.printed = #[]) (gives : Gives input lines) :
    Finish i lines ↔ ∃ steps, (run steps input (Session.new i)).isSome := by
  constructor
  · intro finish
    obtain ⟨exchanges, j, talks, rfl⟩ := finish.talks fresh
    obtain ⟨s, _, enough, answered⟩ := talks.transcript fresh
    exact ⟨enough, by rw [answered enough (Nat.le_refl _) input gives]; rfl⟩
  · rintro ⟨steps, answered⟩
    obtain ⟨t, answered⟩ := Option.isSome_iff_exists.mp answered
    exact finish_of_converse (session_new_isQuiet fresh) gives answered

/-- The first of two transcripts is over some lines, and the second one over those of them without
static mistakes. -/
structure Dismisses (lines : List String) (t t' : Transcript) : Prop where
  ended : t.ending = .endOfInput ∧ t'.ending = .endOfInput
  marks : t.marks = String.join (List.replicate (lines.length + 1) mark) ++ "\n"
  printed : t.printed = t'.printed
  /-- The interpreters that are left are the same, and so are their globals. -/
  interpreter : t.session.interpreter = t'.session.interpreter
  /-- Each line is judged alone. The reports stand in the order of the lines, and those of the good
  lines are the runtime errors among them. -/
  reports : ∃ exchanges : List Exchange, exchanges.map Exchange.line = lines ∧
    (∀ e ∈ exchanges, e.IsJudged) ∧
    t.replies = exchanges.map Exchange.reply ∧
    t'.replies = (goodOnes exchanges).map Exchange.reply ∧
    t.emitted = Diagnostic.Log.emitted (exchanges.flatMap Exchange.reported) ∧
    t'.emitted = Diagnostic.Log.emitted
      ((exchanges.flatMap Exchange.reported).filter fun d => d.kind = .runtime)

/-- With enough steps the prompt answers all inputs that give some lines, and dismisses the lines
with static mistakes. -/
structure DismissesBad (i : Interpreter) (lines : List String) : Prop where
  typed : ∃ input, Gives input lines
  goodTyped : ∃ input, Gives input (lines.filter isGood)
  answers : ∀ input input', Gives input lines → Gives input' (lines.filter isGood) →
    ∃ t t', (∃ enough, ∀ steps, enough ≤ steps →
        run steps input (Session.new i) = some t ∧ run steps input' (Session.new i) = some t') ∧
      Dismisses lines t t'

/-- Lines with static mistakes never influence what the others do. -/
theorem bad_lines_dismissed (plain : ∀ line ∈ lines, '\n' ∉ line.toList)
    (fresh : i.printed = #[]) (finish : Finish i lines) : DismissesBad i lines := by
  have goodPlain : ∀ line ∈ lines.filter isGood, '\n' ∉ line.toList := fun line member =>
    plain line (List.mem_of_mem_filter member)
  refine ⟨⟨_, Text.lines_typed lines plain⟩, ⟨_, Text.lines_typed _ goodPlain⟩, ?_⟩
  intro input input' gives gives'
  obtain ⟨exchanges, j, talks, rfl⟩ := finish.talks fresh
  have judged := talks.judged fresh
  rw [← goodOnes_lines] at gives'
  obtain ⟨s, left, enough, answered⟩ := talks.transcript fresh
  obtain ⟨s', left', enough', answered'⟩ := (talks.without_bad fresh).transcript fresh
  refine ⟨⟨exchanges.map Exchange.reply, .endOfInput, s⟩,
    ⟨(goodOnes exchanges).map Exchange.reply, .endOfInput, s'⟩,
    ⟨max enough enough', fun steps bound => ⟨?_, ?_⟩⟩, ?_⟩
  · exact answered steps (le_of_max_le_left bound) input gives
  · exact answered' steps (le_of_max_le_right bound) input' gives'
  · refine ⟨⟨rfl, rfl⟩, ?_, (printedBy_goodOnes judged).symm, left.trans left'.symm, ?_⟩
    · rw [marks_of_ended rfl, List.length_map, List.length_map]
    · refine ⟨exchanges, rfl, judged, rfl, rfl, emittedBy_exchanges exchanges, ?_⟩
      rw [← reported_goodOnes judged]
      exact emittedBy_exchanges (goodOnes exchanges)

end Inputs

/-- A misspelled line, an ungrammatical one and one that fails, between lines that end. -/
private def mixedLines : List String :=
  ["var a = 1;", "@", "print a", "print -nil;", "print a;"]

theorem bad_lines_dismissed_mixed :
    (∀ line ∈ mixedLines, '\n' ∉ line.toList) ∧
      (Interpreter.new Interpreter.defaultLimit).printed = #[] ∧
      Finish (.new Interpreter.defaultLimit) mixedLines ∧
      mixedLines.filter isGood = ["var a = 1;", "print -nil;", "print a;"] ∧
      DismissesBad (.new Interpreter.defaultLimit) mixedLines := by
  have plain : ∀ line ∈ mixedLines, '\n' ∉ line.toList := by decide
  have answered : (run 50 (Text.typed mixedLines)
      (Session.new (.new Interpreter.defaultLimit))).isSome := by decide +kernel
  have finish := (finish_iff rfl (Text.lines_typed mixedLines plain)).mpr ⟨50, answered⟩
  exact ⟨plain, rfl, finish, by decide +kernel, bad_lines_dismissed plain rfl finish⟩

end Prompt

end Jess
