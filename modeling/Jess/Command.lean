import Jess.Command.Folder
import Jess.Command.Process

/-!
The command in a world of its own: its files are those of a folder, its lines are known in
advance, and what it writes is collected. Programs write where the prompt does.
-/

namespace Jess.Command

structure Surroundings where
  args : List String
  depth : Option String
  input : List UInt8
  folder : Folder

structure Result where
  exitCode : Nat
  output : String
  errors : String
deriving Repr, DecidableEq

def refusalOf? : Prompt.Ending → Option Refusal
  | .endOfInput => none
  | .notText => some (.prompt .notText)

/-- The files, the lines that were not read yet, and what was written so far. -/
structure World where
  file : String → Except Unreadable (List UInt8)
  pending : List (List UInt8)
  output : String
  errors : String

namespace World

def of (around : Surroundings) : World :=
  ⟨around.folder.read, Text.lines around.input, "", ""⟩

def write (w : World) (text : String) : World := { w with output := w.output ++ text }

def report (w : World) (text : String) : World := { w with errors := w.errors ++ text }

/-- Does what a process asks for, or gives the code that it exits with. -/
def answer (w : World) : Action → Except Nat (World × Process)
  | .proceed next => .ok (w, next)
  | .write text next => .ok (w.write text, next)
  | .report text next => .ok (w.report text, next)
  | .readFile path next => .ok (w, next (w.file path))
  | .readLine next => .ok ({ w with pending := w.pending.tail }, next w.pending.head?)
  | .exit code => .error code

def serve : Nat → World → Process → Option Result
  | 0, _, _ => none
  | steps + 1, w, p =>
      match w.answer p.act with
      | .ok (w, p) => serve steps w p
      | .error code => some ⟨code, w.output, w.errors⟩

end World

def run (steps : Nat) (around : Surroundings) : Option Result :=
  World.serve steps (.of around) (.ofParts around.args around.depth)

end Jess.Command
