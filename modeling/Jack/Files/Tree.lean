import Jack.Fault
import Jack.Files.Path

/-!
# File trees

A file tree without links, and a working directory in it. Files and directories are known by the
names that lead to them from the root. A path leads from the working directory, or from the root if
it starts with a slash.
-/

namespace Jack

/-- A regular file with its bytes, or a directory. -/
inductive Entry where
  | file (bytes : ByteArray)
  | directory

/-- What there is at each place, the root aside, which is always a directory. -/
structure FileTree where
  entries : List (List String × Entry) := []
  /-- The place of the working directory. -/
  home : List String := []

namespace FileTree

/-! ## Places -/

/-- What stands at a place. -/
def get? (t : FileTree) (place : List String) : Option Entry :=
  if place.isEmpty then some .directory else t.entries.lookup place

/-- Puts a file or a directory at a place. -/
def set (t : FileTree) (place : List String) (entry : Entry) : FileTree :=
  { t with entries := (place, entry) :: t.entries.filter fun (other, _) => other != place }

/-- The names in a directory and what they stand for. -/
def children (t : FileTree) (directory : List String) : List (String × Entry) :=
  t.entries.filterMap fun (place, entry) =>
    match place.getLast? with
    | some name => if place.dropLast = directory then some (name, entry) else none
    | none => none

/-- Puts a file or a directory at a place, and the directories that lead to it. -/
def create (t : FileTree) (place : List String) (entry : Entry) : FileTree :=
  let above := ((List.range place.length).map place.take).filter fun p => (t.get? p).isNone
  (above.foldl (fun t p => t.set p .directory) t).set place entry

/-- A tree with nothing in it but a working directory at the given place. -/
def startingAt (home : List String) : FileTree :=
  if home.isEmpty then {} else create { home } home .directory

/-! ## Paths -/

/-- How many bytes a name may have at most. -/
def maxNameSize : Nat := 255

/-- How many bytes a whole path may have at most. -/
def maxPathSize : Nat := 4095

/-- Where a piece of a path leads from a directory. -/
def step (directory : List String) (piece : String) : List String :=
  if piece = "" ∨ piece = "." then directory
  else if piece = ".." then directory.dropLast
  else directory ++ [piece]

/-- Follows the pieces of a path. Every piece needs a directory to start from, which matters before
its own length does. -/
def walk (t : FileTree) (place : List String) : List String → Except Fault (List String)
  | [] => .ok place
  | piece :: pieces =>
    match t.get? place with
    | some .directory =>
      if maxNameSize < piece.utf8ByteSize then .error .nameTooLong
      else walk t (step place piece) pieces
    | some (.file _) => .error .notADirectory
    | none => .error .notFound

/-- The place that a path leads to, where something may stand or not. The empty path leads
nowhere. -/
def locate (t : FileTree) (p : Path) : Except Fault (List String) :=
  if '\x00' ∈ p.text.toList then .error .nulInName
  else if maxPathSize < p.text.utf8ByteSize then .error .nameTooLong
  else if p.text = "" then .error .notFound
  else t.walk (if p.isAbsolute then [] else t.home) p.pieces

/-- The place of a path and what stands there. -/
def find (t : FileTree) (p : Path) : Except Fault (List String × Entry) := do
  let place ← t.locate p
  match t.get? place with
  | some entry => return (place, entry)
  | none => throw .notFound

/-- The bytes of a file. -/
def read (t : FileTree) (p : Path) : Except Fault ByteArray := do
  match ← t.find p with
  | (_, .file bytes) => return bytes
  | (_, .directory) => throw .isADirectory

/-- What a directory holds. -/
def list (t : FileTree) (p : Path) : Except Fault (List (String × Entry)) := do
  match ← t.find p with
  | (place, .directory) => return t.children place
  | (_, .file _) => throw .notADirectory

/-- Writes a file, in place of one that may be there. Its directory has to exist. -/
def write (t : FileTree) (p : Path) (bytes : ByteArray) : Except Fault FileTree := do
  let place ← t.locate p
  match t.get? place with
  | some .directory => throw .isADirectory
  | _ => return t.set place (.file bytes)

end FileTree

end Jack
