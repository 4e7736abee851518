import Jess.Command.Refusal

/-!
A folder of files that paths are looked up in. A path that leaves the folder finds no
file, and a path that goes on behind a file is wrong in itself. Paths from the root are
looked up in the root folder, which nothing leaves.
-/

namespace Jess.Command

/-- Files and folders, each under its path from here. Folders that hold files need not be
listed. -/
structure Folder where
  files : List (String × List UInt8)
  folders : List String
  isRoot : Bool

namespace Folder

def maxPartSize : Nat := 255

def maxPathSize : Nat := 4095

def parts (path : String) : List String := (path.toList.splitOn '/').map String.ofList

def staysHere (part : String) : Bool := part == "" || part == "."

def ofFiles (files : List (String × List UInt8)) : Folder where
  files := files.map fun file =>
    (String.intercalate "/" ((parts file.1).filter fun part => !staysHere part), file.2)
  folders := []
  isRoot := false

/-- What is known of the root: the folders that systems agree on, and the empty device. -/
def root : Folder where
  files := [("dev/null", [])]
  folders := ["bin", "boot", "dev", "etc", "home", "lib", "media", "mnt", "opt", "proc", "run",
    "sbin", "srv", "sys", "tmp", "usr", "var"]
  isRoot := true

def hasFolder (f : Folder) (path : String) : Bool :=
  f.folders.contains path ||
    f.files.any fun file => (path ++ "/").toList.isPrefixOf file.1.toList

/-- The place above a place in the folder. Outside of the folder no place is known. -/
def above (f : Folder) : Option (List String) → Option (List String)
  | none => none
  | some [] => if f.isRoot then some [] else none
  | some place => some place.dropLast

def follow (f : Folder) (place : Option (List String)) :
    List String → Except Unreadable (List UInt8)
  | [] => .error .isDirectory
  | part :: rest =>
      if staysHere part then f.follow place rest
      else if part = ".." then f.follow (f.above place) rest
      else if maxPartSize < part.utf8ByteSize then .error .nameTooLong
      else match place with
        | none => .error .notFound
        | some place =>
            let here := place ++ [part]
            let path := String.intercalate "/" here
            match f.files.lookup path with
            | some bytes => if rest.isEmpty then .ok bytes else .error .notDirectory
            | none => if f.hasFolder path then f.follow (some here) rest else .error .notFound

def read (f : Folder) (path : String) : Except Unreadable (List UInt8) :=
  if path.isEmpty then .error .notFound
  else if maxPathSize < path.utf8ByteSize then .error .nameTooLong
  else if path.front = '/' then root.follow (some []) (parts path)
  else f.follow (some []) (parts path)

end Folder

end Jess.Command
