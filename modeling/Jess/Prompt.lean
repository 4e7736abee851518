import Jess.Session
import Jess.Text.Line

/-!
The prompt. Each line is run as a source of its own in one session, and a mistake in it
is forgotten before the next one. A line that is not valid text ends the conversation.
-/

namespace Jess.Prompt

def mark : String := "> "

/-- What a line printed, and the diagnostics that it caused. -/
structure Reply where
  printed : String
  emitted : String
deriving Repr, DecidableEq

inductive Ending
  | endOfInput
  | notText
deriving Repr, DecidableEq

def Ending.text : Ending → String
  | endOfInput => "\n"
  | notText => ""

structure Transcript where
  replies : List Reply
  ending : Ending
  session : Session

def respond (steps : Nat) (line : String) (s : Session) : Option (Reply × Session) :=
  match s.runEmitting steps line with
  | none => none
  | some (_, emitted, s) =>
      let (printed, s) := s.forgetStatic.takeOutput
      some (⟨printed, emitted⟩, s)

def converse (steps : Nat) (done : Array Reply) (s : Session) :
    List (List UInt8) → Option Transcript
  | [] => some ⟨done.toList, .endOfInput, s⟩
  | line :: rest =>
      match Text.decode? line with
      | none => some ⟨done.toList, .notText, s⟩
      | some line =>
          match respond steps line s with
          | none => none
          | some (reply, s) => converse steps (done.push reply) s rest

def run (steps : Nat) (input : List UInt8) (s : Session) : Option Transcript :=
  converse steps #[] s (Text.lines input)

namespace Transcript

def marks (t : Transcript) : String :=
  t.replies.foldl (fun text _ => text ++ mark) "" ++ mark ++ t.ending.text

def printed (t : Transcript) : String := t.replies.foldl (fun text r => text ++ r.printed) ""

def emitted (t : Transcript) : String := t.replies.foldl (fun text r => text ++ r.emitted) ""

/-- What the prompt and the programs wrote, where they write to the same place. -/
def conversation (t : Transcript) : String :=
  t.replies.foldl (fun text r => text ++ mark ++ r.printed) "" ++ mark ++ t.ending.text

end Transcript

end Jess.Prompt
