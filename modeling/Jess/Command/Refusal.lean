/-!
Why the command ends without having run a program to its end.
-/

namespace Jess.Command

/-- Why a file cannot be read as a source. -/
inductive Unreadable
  | notFound
  | notPermitted
  | isDirectory
  | notDirectory
  | nameTooLong
  | notText
  | other (why : String)
deriving Repr, DecidableEq

def Unreadable.text : Unreadable → String
  | notFound => "No such file or directory (os error 2)"
  | notPermitted => "Permission denied (os error 13)"
  | isDirectory => "Is a directory (os error 21)"
  | notDirectory => "Not a directory (os error 20)"
  | nameTooLong => "File name too long (os error 36)"
  | notText => "stream did not contain valid UTF-8"
  | other why => why

inductive Refusal
  | usage
  | invalidCallDepth (given : String)
  | unreadable (path : String) (why : Unreadable)
  | prompt (why : Unreadable)
deriving Repr, DecidableEq

namespace Refusal

def message : Refusal → String
  | usage => "Usage: jess [script]"
  | invalidCallDepth given =>
      "JESS_MAX_CALL_DEPTH must be a positive integer, got '" ++ given ++ "'"
  | unreadable path why => "Could not read '" ++ path ++ "': " ++ why.text
  | prompt why => "I/O error at the prompt: " ++ why.text

def exitCode : Refusal → Nat
  | usage => 64
  | invalidCallDepth _ => 64
  | unreadable _ _ => 74
  | prompt _ => 74

end Refusal

end Jess.Command
