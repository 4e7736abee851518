import Jess.Diagnostic.Log
import Jess.Execution
import Jess.Parser.Program
import Jess.Token.Reading

/-!
Sessions. A session runs one source text after another with the same globals and keeps
the diagnostics of all of them. A source is only executed if no static mistake is on
record, be it its own or an earlier one that was not reset.
-/

namespace Jess

namespace Session

/-- Where a session stands between two runs. -/
inductive Phase
  | idle
  | done
deriving Repr, DecidableEq

inductive Outcome
  | ok
  | staticError
  | runtimeError
deriving Repr, DecidableEq

def Outcome.exitCode : Outcome → Nat
  | ok => 0
  | staticError => 65
  | runtimeError => 70

end Session

structure Session where
  interpreter : Interpreter
  log : Diagnostic.Log
  phase : Session.Phase

namespace Session

def new (interpreter : Interpreter) : Session := ⟨interpreter, .empty, .idle⟩

/-- Reads a source and reports its static mistakes. Without any on record, gives the
statements to be executed. -/
def load (source : String) (s : Session) : Option (List Stmt) × Session :=
  let (tokens, misspellings) := Token.scan source
  let spelled := s.log.append misspellings
  if spelled.static then (none, { s with log := spelled, phase := .done })
  else
    let parsed := Parser.read tokens
    let log := spelled.append parsed.diagnostics
    if log.static then (none, { s with log := log, phase := .done })
    else (some parsed.statements, { s with log := log, phase := .done })

/-- Takes over the interpreter after an execution, and reports the fault of it. -/
def conclude (fault : Option Fault) (i : Interpreter) (s : Session) : Outcome × Session :=
  match fault with
  | none => (.ok, { s with interpreter := i })
  | some f => (.runtimeError, { s with interpreter := i, log := s.log.push f.diagnostic })

def run (steps : Nat) (source : String) (s : Session) : Option (Outcome × Session) :=
  match s.load source with
  | (none, s) => some (.staticError, s)
  | (some program, s) =>
      match s.interpreter.interpret steps program with
      | none => none
      | some (fault, i) => some (s.conclude fault i)

/-- Forgets static mistakes, so that the next source can be executed. -/
def forgetStatic (s : Session) : Session := { s with log := s.log.forgetStatic }

def drain (s : Session) : List Diagnostic × Session :=
  let (taken, log) := s.log.drain
  (taken, { s with log := log })

def takeOutput (s : Session) : String × Session :=
  (s.interpreter.output, { s with interpreter := s.interpreter.clearOutput })

def runEmitting (steps : Nat) (source : String) (s : Session) :
    Option (Outcome × String × Session) :=
  match s.run steps source with
  | none => none
  | some (outcome, s) =>
      let (taken, s) := s.drain
      some (outcome, Diagnostic.Log.emitted taken, s)

end Session

end Jess
