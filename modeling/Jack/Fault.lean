/-!
# Faults of files and streams

The ways in which reading or writing fails outside the compiler's control.
-/

namespace Jack

/-- Why an operation on a file or a stream failed. -/
inductive Fault where
  /-- Nothing stands at the path. -/
  | notFound
  /-- A part of the path that should be a directory is a regular file. -/
  | notADirectory
  /-- A directory stands where a regular file is needed. -/
  | isADirectory
  /-- A name in the path, or the whole path, has too many bytes. -/
  | nameTooLong
  /-- The path has a character with the code 0, which no name can have. -/
  | nulInName
  /-- The bytes are not the UTF-8 form of a text. -/
  | notText
  /-- A stream of limited size takes no further byte. -/
  | full
  /-- A stream could not be flushed. -/
  | flush
  /-- Any other failure, as its source describes it. -/
  | other (text : String)
deriving DecidableEq, Repr

/-- The wording of a fault. -/
def Fault.message : Fault → String
  | notFound => "No such file or directory (os error 2)"
  | notADirectory => "Not a directory (os error 20)"
  | isADirectory => "Is a directory (os error 21)"
  | nameTooLong => "File name too long (os error 36)"
  | nulInName => "file name contained an unexpected NUL byte"
  | notText => "stream did not contain valid UTF-8"
  | full => "sink full"
  | flush => "flush failed"
  | other text => text

end Jack
