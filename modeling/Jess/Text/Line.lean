/-!
Lines of a stream of bytes. A line runs up to a newline, and a carriage return right
before that newline belongs to the line's end. Bytes after the last newline are a line
too, with nothing taken off, and a stream that ends in a newline has no line after it.
-/

namespace Jess.Text

def withoutReturn (line : List UInt8) : List UInt8 :=
  if line.getLast? = some 13 then line.dropLast else line

/-- Collects lines, the bytes of the unfinished one in reverse. -/
def collectLines (done : Array (List UInt8)) (open_ : List UInt8) : List UInt8 → Array (List UInt8)
  | [] => if open_.isEmpty then done else done.push open_.reverse
  | byte :: rest =>
      if byte = 10 then collectLines (done.push (withoutReturn open_.reverse)) [] rest
      else collectLines done (byte :: open_) rest

def lines (bytes : List UInt8) : List (List UInt8) := (collectLines #[] [] bytes).toList

def decode? (bytes : List UInt8) : Option String :=
  String.fromUTF8? (ByteArray.mk bytes.toArray)

end Jess.Text
