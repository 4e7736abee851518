import Jess.Command

/-!
The program itself. It serves a process of the command with what the system has: arguments,
environment, files and the standard streams.
-/

namespace Jess.Terminal

/-- Reads the bytes of a line, behind those that were read of it already. -/
partial def readLine (input : IO.FS.Stream) (line : List UInt8) : IO (Option (List UInt8)) := do
  match (← input.read 1).toList with
  | [] => pure (if line.isEmpty then none else some line.reverse)
  | byte :: _ =>
      if byte = 10 then pure (some (Text.withoutReturn line.reverse))
      else readLine input (byte :: line)

/-- The code of a system error, which may come negated. -/
def errorCode (code : UInt32) : Nat := min code.toNat (0 - code).toNat

def unreadable (e : IO.Error) : Command.Unreadable :=
  match e with
  | .noFileOrDirectory _ _ _ => .notFound
  | .permissionDenied _ _ _ => .notPermitted
  | .inappropriateType _ code _ => if errorCode code = 20 then .notDirectory else .isDirectory
  | .invalidArgument _ code _ =>
      if errorCode code = 36 then .nameTooLong else .other (toString e)
  | other => .other (toString other)

def readFile (path : String) : IO (Except Command.Unreadable (List UInt8)) := do
  if path.isEmpty then pure (.error .notFound)
  else
    match ← (IO.FS.readBinFile path).toBaseIO with
    | .ok bytes => pure (.ok bytes.toList)
    | .error e => pure (.error (unreadable e))

partial def serve (p : Command.Process) : IO UInt32 := do
  match p.act with
  | .proceed next => serve next
  | .write text next =>
      let out ← IO.getStdout
      out.putStr text
      out.flush
      serve next
  | .report text next =>
      (← IO.getStderr).putStr text
      serve next
  | .readFile path next => serve (next (← readFile path))
  | .readLine next => serve (next (← readLine (← IO.getStdin) []))
  | .exit code => pure (UInt32.ofNat code)

end Jess.Terminal

def main (args : List String) : IO UInt32 := do
  Jess.Terminal.serve (.ofParts args (← IO.getEnv "JESS_MAX_CALL_DEPTH"))
