import Jess.Command.Settings
import Jess.Prompt

/-!
The command as a process. A process says what it does next, and whoever runs it does that
and hands back what was asked for. With a script it runs the script, and without one it
holds a conversation at the prompt. What a program prints is written at once.
-/

namespace Jess.Command

inductive Mode
  | script
  | prompt

/-- How far the command has come. -/
inductive Process
  | opening (path : String) (s : Session)
  | prompting (s : Session)
  | listening (s : Session)
  | running (mode : Mode) (s : Session) (m : Machine)
  | reporting (mode : Mode) (outcome : Session.Outcome) (s : Session)
  | closing
  | refusing (r : Refusal)
  | done (exitCode : Nat)

inductive Action
  | proceed (next : Process)
  | write (text : String) (next : Process)
  | report (text : String) (next : Process)
  | readFile (path : String) (next : Except Unreadable (List UInt8) → Process)
  | readLine (next : Option (List UInt8) → Process)
  | exit (code : Nat)

def source (path : String) (content : Except Unreadable (List UInt8)) : Except Refusal String :=
  match content with
  | .error why => .error (.unreadable path why)
  | .ok bytes =>
      match Text.decode? bytes with
      | none => .error (.unreadable path .notText)
      | some text => .ok text

namespace Process

def ofParts (args : List String) (depth : Option String) : Process :=
  match Settings.ofParts args depth with
  | .error r => refusing r
  | .ok settings =>
      let s := Session.new settings.interpreter
      match settings.script with
      | none => prompting s
      | some path => opening path s

def start (mode : Mode) (source : String) (s : Session) : Process :=
  match s.load source with
  | (none, s) => reporting mode .staticError s
  | (some program, s) => running mode s (Machine.ofProgram program s.interpreter)

def opened (path : String) (content : Except Unreadable (List UInt8)) (s : Session) : Process :=
  match source path content with
  | .error r => refusing r
  | .ok text => start .script text s

def heard (line : Option (List UInt8)) (s : Session) : Process :=
  match line with
  | none => closing
  | some bytes =>
      match Text.decode? bytes with
      | none => refusing (.prompt .notText)
      | some text => start .prompt text s

def advance (mode : Mode) (s : Session) (m : Machine) : Action :=
  let next := m.step
  if next.interpreter.printed.isEmpty then .proceed (running mode s next)
  else
    .write next.interpreter.output
      (running mode s { next with interpreter := next.interpreter.clearOutput })

def leave (mode : Mode) (outcome : Session.Outcome) (s : Session) : Process :=
  match mode with
  | .script => done outcome.exitCode
  | .prompt => prompting s.forgetStatic

def act : Process → Action
  | opening path s => .readFile path fun content => opened path content s
  | prompting s => .write Prompt.mark (listening s)
  | listening s => .readLine fun line => heard line s
  | running mode s m =>
      match m.control with
      | .halted a =>
          let (outcome, s) := s.conclude a.fault? m.interpreter
          .proceed (reporting mode outcome s)
      | _ => advance mode s m
  | reporting mode outcome s =>
      let (taken, s) := s.drain
      .report (Diagnostic.Log.emitted taken) (leave mode outcome s)
  | closing => .write Prompt.Ending.endOfInput.text (done 0)
  | refusing r => .report (r.message ++ "\n") (done r.exitCode)
  | done code => .exit code

end Process

end Jess.Command
