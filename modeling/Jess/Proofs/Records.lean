import Jess.Proofs.Sources

/-!
# What is on record about a session

A run reports the mistakes of one kind only: those in the spelling of its
source, or if there are none those of its grammar, or if there are none either
the fault that its execution ends with. An execution needs a record without
static mistakes. So along every sequence of runs, resets and drains the flags
of a session tell what was reported, and the diagnostics that were taken and
those that are held make up all of them.
-/

namespace Jess

namespace Source

variable (source : String)

def spellingMistakes : List Diagnostic := (Token.scan source).2

def grammarMistakes : List Diagnostic := (Parser.read (Token.scan source).1).diagnostics

theorem step_lexical {r : Token.Reading} (known : ∀ d ∈ r.diagnostics, d.kind = .lexical)
    (piece : Token.Piece) : ∀ d ∈ (r.step piece).diagnostics, d.kind = .lexical := by
  obtain ⟨role, text⟩ := piece
  cases role with
  | unclosed => exact Array.forall_mem_push.mpr ⟨rfl, known⟩
  | unexpected => exact Array.forall_mem_push.mpr ⟨rfl, known⟩
  | _ => exact known

theorem spellingMistakes_lexical : ∀ d ∈ spellingMistakes source, d.kind = .lexical := by
  have pieces : ∀ (pieces : List Token.Piece) (r : Token.Reading),
      (∀ d ∈ r.diagnostics, d.kind = .lexical) →
      ∀ d ∈ (pieces.foldl Token.Reading.step r).diagnostics, d.kind = .lexical := by
    intro pieces
    induction pieces with
    | nil => exact fun r known => known
    | cons piece rest ih => exact fun r known => ih _ (step_lexical known piece)
  intro d member
  have start : ∀ d ∈ Token.Reading.start.diagnostics, d.kind = .lexical := by
    simp [Token.Reading.start]
  exact pieces _ _ start d (Array.mem_toList_iff.mp member)

theorem grammarMistakes_syntactic : ∀ d ∈ grammarMistakes source, d.kind = .syntactic := by
  intro d member
  obtain ⟨complaint, _, rfl⟩ := List.mem_map.mp member
  rfl

end Source

namespace Diagnostic

theorem isStatic_iff (d : Diagnostic) :
    d.isStatic = true ↔ d.kind = .lexical ∨ d.kind = .syntactic := by
  obtain ⟨kind, line, place, message⟩ := d
  cases kind <;> simp [isStatic]

theorem not_isStatic_iff (d : Diagnostic) : (!d.isStatic) = true ↔ d.kind = .runtime := by
  obtain ⟨kind, line, place, message⟩ := d
  cases kind <;> simp [isStatic]

theorem Log.static_append_iff {ds : List Diagnostic}
    (static : ∀ d ∈ ds, d.kind = .lexical ∨ d.kind = .syntactic) (log : Log) :
    (log.append ds).static = true ↔ log.static = true ∨ ds ≠ [] := by
  rw [static_append, Bool.or_eq_true]
  apply or_congr_right
  cases ds with
  | nil => simp
  | cons d rest =>
      have first := (isStatic_iff d).mpr (static d (List.mem_cons_self ..))
      simp [first]

end Diagnostic

namespace Session

open Source

/-- How a run of a source ends, what it reports, and the interpreter that it leaves. -/
inductive Reports (steps : Nat) (source : String) (s : Session) :
    Outcome → List Diagnostic → Interpreter → Prop
  | misspelled (mistaken : spellingMistakes source ≠ []) :
      Reports steps source s .staticError (spellingMistakes source) s.interpreter
  | blocked (spelled : spellingMistakes source = []) (static : s.log.static = true) :
      Reports steps source s .staticError [] s.interpreter
  | ungrammatical (spelled : spellingMistakes source = []) (free : s.log.static = false)
      (mistaken : grammarMistakes source ≠ []) :
      Reports steps source s .staticError (grammarMistakes source) s.interpreter
  | ended (spelled : spellingMistakes source = []) (free : s.log.static = false)
      (formed : grammarMistakes source = []) {i : Interpreter}
      (ran : s.interpreter.interpret steps (statements source) = some (none, i)) :
      Reports steps source s .ok [] i
  | failed (spelled : spellingMistakes source = []) (free : s.log.static = false)
      (formed : grammarMistakes source = []) {i : Interpreter} {f : Fault}
      (ran : s.interpreter.interpret steps (statements source) = some (some f, i)) :
      Reports steps source s .runtimeError [f.diagnostic] i

variable {steps : Nat} {source : String} {s t : Session} {outcome : Outcome}

theorem static_spelled (log : Diagnostic.Log) (source : String) :
    (log.append (spellingMistakes source)).static = true ↔
      log.static = true ∨ spellingMistakes source ≠ [] :=
  Diagnostic.Log.static_append_iff
    (fun d known => .inl (spellingMistakes_lexical source d known)) log

theorem static_formed (log : Diagnostic.Log) (source : String) :
    (log.append (grammarMistakes source)).static = true ↔
      log.static = true ∨ grammarMistakes source ≠ [] :=
  Diagnostic.Log.static_append_iff
    (fun d known => .inr (grammarMistakes_syntactic source d known)) log

theorem load_eq (source : String) (s : Session) :
    s.load source =
      if (s.log.append (spellingMistakes source)).static then
        (none, { s with log := s.log.append (spellingMistakes source), phase := .done })
      else if ((s.log.append (spellingMistakes source)).append (grammarMistakes source)).static then
        (none, { s with
          log := (s.log.append (spellingMistakes source)).append (grammarMistakes source)
          phase := .done })
      else (some (statements source), { s with
          log := (s.log.append (spellingMistakes source)).append (grammarMistakes source)
          phase := .done }) := rfl

theorem run_of_reports {reported : List Diagnostic} {i : Interpreter}
    (reports : s.Reports steps source outcome reported i) :
    s.run steps source = some (outcome, ⟨i, s.log.append reported, .done⟩) := by
  cases reports with
  | misspelled mistaken =>
      have static := (static_spelled s.log source).mpr (.inr mistaken)
      rw [run, load_eq, if_pos static]
  | blocked spelled static =>
      rw [run, load_eq, spelled, Diagnostic.Log.append_nil, if_pos static]
  | ungrammatical spelled free mistaken =>
      have static := (static_formed s.log source).mpr (.inr mistaken)
      rw [run, load_eq, spelled, Diagnostic.Log.append_nil, if_neg (by simp [free]), if_pos static]
  | ended spelled free formed ran =>
      rw [run, load_eq, spelled, formed]
      simp only [Diagnostic.Log.append_nil, free, Bool.false_eq_true, if_false, ran]
      rfl
  | failed spelled free formed ran =>
      rw [run, load_eq, spelled, formed]
      simp only [Diagnostic.Log.append_nil, free, Bool.false_eq_true, if_false, ran]
      rfl

theorem run_reports (ran : s.run steps source = some (outcome, t)) :
    ∃ reported i, s.Reports steps source outcome reported i ∧
      t = ⟨i, s.log.append reported, .done⟩ := by
  have same {o : Outcome} {reported : List Diagnostic} {i : Interpreter}
      (reports : s.Reports steps source o reported i) :
      ∃ reported i, s.Reports steps source outcome reported i ∧
        t = ⟨i, s.log.append reported, .done⟩ := by
    cases ran.symm.trans (run_of_reports reports)
    exact ⟨reported, i, reports, rfl⟩
  by_cases mistaken : spellingMistakes source ≠ []
  · exact same (.misspelled mistaken)
  have spelled := not_not.mp mistaken
  cases free : s.log.static with
  | true => exact same (.blocked spelled free)
  | false =>
      by_cases mistaken : grammarMistakes source ≠ []
      · exact same (.ungrammatical spelled free mistaken)
      have formed := not_not.mp mistaken
      cases executed : s.interpreter.interpret steps (statements source) with
      | none =>
          rw [run, load_eq, spelled, formed] at ran
          simp [free, executed] at ran
      | some result =>
          obtain ⟨fault, i⟩ := result
          cases fault with
          | none => exact same (.ended spelled free formed executed)
          | some f => exact same (.failed spelled free formed executed)

/-- A run fails to be executed for a mistake of its own or for one on record, and for nothing
else. -/
theorem run_static_iff :
    (∃ t, s.run steps source = some (.staticError, t)) ↔
      s.log.static = true ∨ spellingMistakes source ≠ [] ∨
        spellingMistakes source = [] ∧ grammarMistakes source ≠ [] := by
  constructor
  · rintro ⟨t, ran⟩
    obtain ⟨reported, i, reports, _⟩ := run_reports ran
    cases reports with
    | misspelled mistaken => exact .inr (.inl mistaken)
    | blocked spelled static => exact .inl static
    | ungrammatical spelled free mistaken => exact .inr (.inr ⟨spelled, mistaken⟩)
  · intro stopped
    by_cases mistaken : spellingMistakes source ≠ []
    · exact ⟨_, run_of_reports (.misspelled mistaken)⟩
    have spelled := not_not.mp mistaken
    cases free : s.log.static with
    | true => exact ⟨_, run_of_reports (.blocked spelled free)⟩
    | false =>
        have mistaken : grammarMistakes source ≠ [] := by simpa [free, spelled] using stopped
        exact ⟨_, run_of_reports (.ungrammatical spelled free mistaken)⟩

/-- What the end of a run may change. -/
structure Concludes (s : Session) (outcome : Outcome) (reported : List Diagnostic)
    (t : Session) : Prop where
  phase : t.phase = .done
  keeps : outcome = .staticError → t.interpreter = s.interpreter
  held : t.log.held.toList = s.log.held.toList ++ reported
  oneKind : (∀ d ∈ reported, d.kind = .lexical) ∨ (∀ d ∈ reported, d.kind = .syntactic) ∨
    reported.length ≤ 1 ∧ ∀ d ∈ reported, d.kind = .runtime
  failed : outcome = .runtimeError ↔ ∃ d ∈ reported, d.kind = .runtime

theorem Reports.oneKind {reported : List Diagnostic} {i : Interpreter}
    (reports : s.Reports steps source outcome reported i) :
    (∀ d ∈ reported, d.kind = .lexical) ∨ (∀ d ∈ reported, d.kind = .syntactic) ∨
      reported.length ≤ 1 ∧ ∀ d ∈ reported, d.kind = .runtime := by
  cases reports with
  | misspelled => exact .inl (spellingMistakes_lexical source)
  | blocked => exact .inl (List.forall_mem_nil _)
  | ungrammatical => exact .inr (.inl (grammarMistakes_syntactic source))
  | ended => exact .inl (List.forall_mem_nil _)
  | failed => exact .inr (.inr ⟨Nat.le_refl 1, List.forall_mem_singleton.mpr rfl⟩)

theorem Reports.failed_iff {reported : List Diagnostic} {i : Interpreter}
    (reports : s.Reports steps source outcome reported i) :
    outcome = .runtimeError ↔ ∃ d ∈ reported, d.kind = .runtime := by
  have none {k : Diagnostic.Kind} (other : k ≠ .runtime) {o : Outcome} (ends : o ≠ .runtimeError)
      (known : ∀ d ∈ reported, d.kind = k) :
      o = .runtimeError ↔ ∃ d ∈ reported, d.kind = .runtime := by
    constructor
    · exact fun fails => absurd fails ends
    · rintro ⟨d, member, found⟩
      exact absurd ((known d member).symm.trans found) other
  cases reports with
  | misspelled => exact none (by decide) (by decide) (spellingMistakes_lexical source)
  | blocked => exact none (k := .lexical) (by decide) (by decide) (List.forall_mem_nil _)
  | ungrammatical => exact none (by decide) (by decide) (grammarMistakes_syntactic source)
  | ended => exact none (k := .lexical) (by decide) (by decide) (List.forall_mem_nil _)
  | failed => exact ⟨fun _ => ⟨_, List.mem_singleton_self _, rfl⟩, fun _ => rfl⟩

theorem run_concludes (ran : s.run steps source = some (outcome, t)) :
    ∃ reported, s.Reports steps source outcome reported t.interpreter ∧
      s.Concludes outcome reported t := by
  obtain ⟨reported, i, reports, rfl⟩ := run_reports ran
  refine ⟨reported, reports, rfl, ?_, s.log.held_append reported, reports.oneKind,
    reports.failed_iff⟩
  intro ends
  subst ends
  cases reports <;> rfl

/-- What a session has reported, what of it since the last reset, and what was taken out. -/
structure History where
  reported : List Diagnostic
  sinceReset : List Diagnostic
  taken : List Diagnostic

namespace History

def empty : History := ⟨[], [], []⟩

def report (h : History) (ds : List Diagnostic) : History :=
  ⟨h.reported ++ ds, h.sinceReset ++ ds, h.taken⟩

def reset (h : History) : History := { h with sinceReset := [] }

def take (h : History) (ds : List Diagnostic) : History := { h with taken := h.taken ++ ds }

end History

/-- The sessions that come from a new one by runs, resets and drains, with their histories. -/
inductive Lives (i : Interpreter) : History → Session → Prop
  | fresh : Lives i .empty (.new i)
  | run {h : History} {s t : Session} {steps : Nat} {source : String} {outcome : Outcome}
      {reported : List Diagnostic} (lives : Lives i h s)
      (ran : s.run steps source = some (outcome, t))
      (reports : s.Reports steps source outcome reported t.interpreter) :
      Lives i (h.report reported) t
  | reset {h : History} {s : Session} (lives : Lives i h s) : Lives i h.reset s.forgetStatic
  | take {h : History} {s : Session} (lives : Lives i h s) :
      Lives i (h.take s.drain.1) s.drain.2

/-- What a session has on record about its history. -/
structure Records (s : Session) (h : History) : Prop where
  static : s.log.static = true ↔
    ∃ d ∈ h.sinceReset, d.kind = .lexical ∨ d.kind = .syntactic
  runtime : s.log.runtime = true ↔ ∃ d ∈ h.reported, d.kind = .runtime
  whole : h.taken ++ s.log.held.toList = h.reported

variable {h : History} {i : Interpreter}

theorem Records.fresh : (Session.new i).Records .empty where
  static := by simp [Session.new, Diagnostic.Log.empty, History.empty]
  runtime := by simp [Session.new, Diagnostic.Log.empty, History.empty]
  whole := rfl

theorem Records.report (records : s.Records h) (reported : List Diagnostic) (j : Interpreter)
    (phase : Phase) :
    Records ⟨j, s.log.append reported, phase⟩ (h.report reported) where
  static := by
    simp only [Diagnostic.Log.static_append, History.report, Bool.or_eq_true, records.static,
      List.any_eq_true, Diagnostic.isStatic_iff, List.mem_append, or_and_right, exists_or]
  runtime := by
    simp only [Diagnostic.Log.runtime_append, History.report, Bool.or_eq_true, records.runtime,
      List.any_eq_true, Diagnostic.not_isStatic_iff, List.mem_append, or_and_right, exists_or]
  whole := by
    rw [Diagnostic.Log.held_append, History.report, ← List.append_assoc, records.whole]

theorem Records.run {reported : List Diagnostic} (records : s.Records h)
    (ran : s.run steps source = some (outcome, t))
    (reports : s.Reports steps source outcome reported t.interpreter) :
    t.Records (h.report reported) := by
  have same : t = ⟨t.interpreter, s.log.append reported, .done⟩ :=
    congrArg Prod.snd (Option.some.inj (ran.symm.trans (run_of_reports reports)))
  rw [same]
  exact records.report reported t.interpreter .done

theorem Records.reset (records : s.Records h) : s.forgetStatic.Records h.reset where
  static := by simp [forgetStatic, Diagnostic.Log.forgetStatic, History.reset]
  runtime := records.runtime
  whole := records.whole

theorem Records.take (records : s.Records h) : s.drain.2.Records (h.take s.drain.1) where
  static := records.static
  runtime := records.runtime
  whole := (List.append_nil _).trans records.whole

/-- A session always has its history on record: its flags, and the diagnostics that it still
holds behind those that were taken. And each further run goes by the rules from there. -/
theorem lives_by_rule (lives : Lives i h s) :
    s.Records h ∧ ∀ steps source,
      ((∃ t, s.run steps source = some (.staticError, t)) ↔
        s.log.static = true ∨ spellingMistakes source ≠ [] ∨
          spellingMistakes source = [] ∧ grammarMistakes source ≠ []) ∧
      ∀ outcome t, s.run steps source = some (outcome, t) →
        ∃ reported, s.Reports steps source outcome reported t.interpreter ∧
          s.Concludes outcome reported t := by
  refine ⟨?_, fun steps source => ⟨run_static_iff, fun outcome t ran => run_concludes ran⟩⟩
  induction lives with
  | fresh => exact .fresh
  | run _ ran reports records => exact records.run ran reports
  | reset _ records => exact records.reset
  | take _ records => exact records.take

theorem lives_by_rule_stained :
    ∃ h s, Lives (.new 1) h s ∧ (h.taken ≠ [] ∧ h.sinceReset.length = 1) ∧
      s.log.static ≠ true ∧ s.log.runtime = true ∧ h.taken ++ s.log.held.toList = h.reported := by
  have misspelled : spellingMistakes "@" ≠ [] := by decide +kernel
  have blank : spellingMistakes "" = [] := by decide +kernel
  have spelled : spellingMistakes "-nil;" = [] := by decide +kernel
  have formed : grammarMistakes "-nil;" = [] := by decide +kernel
  have fails : ((Interpreter.new 1).interpret 20 (statements "-nil;")).map
      (fun r => r.1.isSome) = some true := by decide +kernel
  obtain ⟨⟨fault, j⟩, ran, failed⟩ := Option.map_eq_some_iff.mp fails
  obtain ⟨f, rfl⟩ := Option.isSome_iff_exists.mp failed
  let log := Diagnostic.Log.empty.append (spellingMistakes "@")
  have static : log.drain.2.static = true := (static_spelled .empty "@").mpr (.inr misspelled)
  have held : log.held.toList ≠ [] := by
    rw [Diagnostic.Log.held_append]
    exact misspelled
  have first : (Session.new (.new 1)).Reports 20 "@" .staticError _ _ := .misspelled misspelled
  have lives := (Lives.fresh.run (run_of_reports first) first).take
  have second : (Session.mk (.new 1) log.drain.2 .done).Reports 20 "" .staticError _ _ :=
    .blocked blank static
  have lives := (lives.run (run_of_reports second) second).reset
  have third : (Session.mk (.new 1) (log.drain.2.append []).forgetStatic .done).Reports 20 "-nil;"
      .runtimeError _ _ := .failed spelled rfl formed ran
  have lives := lives.run (run_of_reports third) third
  have records := (lives_by_rule lives).1
  refine ⟨_, _, lives, ⟨held, rfl⟩, ?_, ?_, records.whole⟩
  · intro static
    obtain ⟨d, member, kind⟩ := records.static.mp static
    cases List.mem_singleton.mp member
    cases kind with
    | inl kind => cases kind
    | inr kind => cases kind
  · exact records.runtime.mpr ⟨_, List.mem_append_right _ (List.mem_singleton_self _), rfl⟩

end Session
end Jess
