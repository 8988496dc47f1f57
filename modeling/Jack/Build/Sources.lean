import Jack.Files.Host

/-!
# Sources of a build

Which files a target stands for: a source is itself, and a directory is the sources directly in
it.
-/

namespace Jack

universe u

/-- The extension of sources. -/
def sourceExtension : String := "jack"

/-- The extension of VM code. -/
def outputExtension : String := "vm"

/-- Why a target stands for no sources. -/
inductive TargetError where
  /-- A regular file with another extension. -/
  | notASource (target : Path)
  /-- Neither a regular file nor a directory that can be listed. -/
  | unreadable (target : Path) (fault : Fault)
deriving DecidableEq, Repr

/-- The wording of an error. -/
def TargetError.message : TargetError → String
  | notASource target => "'" ++ target.text ++ "' is not a ." ++ sourceExtension ++ " file"
  | unreadable target fault =>
    "IO error for operation on " ++ target.text ++ ": " ++ fault.message

/-- Whether a path has the extension of a source. -/
def Path.isSource (p : Path) : Bool :=
  p.extension? = some sourceExtension

/-- The sources among the files in a directory, in the order of their names. -/
def sourcesIn (directory : Path) (entries : List (String × EntryKind)) : List Path :=
  let files := entries.filterMap fun (name, kind) => if kind = .file then some name else none
  ((files.mergeSort fun a b => a ≤ b).map directory.child).filter Path.isSource

/-- The sources that a target stands for. There are none at what is neither a regular file nor a
directory. -/
def findSources {m : Type → Type u} [Monad m] [Host m] (target : Path) :
    m (Except TargetError (List Path)) := do
  match ← Host.look target with
  | .ok .file => return if target.isSource then .ok [target] else .error (.notASource target)
  | .ok .other => return .ok []
  | _ =>
    match ← Host.list target with
    | .ok entries => return .ok (sourcesIn target entries)
    | .error fault => return .error (.unreadable target fault)

end Jack
