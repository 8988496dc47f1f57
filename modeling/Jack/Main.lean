import Jack.Console.Program

/-!
# The command

The program on the files, clock and streams of the machine it runs on.
-/

namespace Jack

/-- Actions on the machine itself. Jobs share the alarms, each raised or not. -/
abbrev Native := ReaderT (IO.Ref (List Bool)) IO

namespace Native

/-- A fault in the machine's own words. -/
def described (code : UInt32) (details : String) : Fault :=
  .other (details ++ " (os error " ++ code.toNat.repr ++ ")")

/-- The fault that a failure of the machine amounts to. -/
def fault : IO.Error → Fault
  | .noFileOrDirectory .. => .notFound
  | .inappropriateType _ 20 _ => .notADirectory
  | .inappropriateType _ 21 _ => .isADirectory
  | .invalidArgument _ 36 _ => .nameTooLong
  | .inappropriateType _ code details | .permissionDenied _ code details
  | .resourceExhausted _ code details | .invalidArgument _ code details
  | .otherError code details => described code details
  | e => .other e.toString

/-- The result of an action, or its fault. -/
def attempt {α : Type} (action : IO α) : Native (Except Fault α) := fun _ => do
  try return .ok (← action) catch e => return .error (fault e)

/-- What a file of some type counts as. -/
def kindOf : IO.FS.FileType → EntryKind
  | .file => .file
  | .dir => .directory
  | _ => .other

/-- The name `name` in the directory `root`, as the machine knows it. -/
def entryAt (root name : String) : IO.FS.DirEntry :=
  { root, fileName := name }

/-- What stands at a path. -/
def look (p : Path) : IO EntryKind := do
  return kindOf (← (entryAt p.text "").root.metadata).type

/-- The names in a directory and what they stand for. Links count as neither. -/
def list (p : Path) : IO (List (String × EntryKind)) := do
  let entries ← (entryAt p.text "").root.readDir
  entries.toList.mapM fun entry => do
    return (entry.fileName, kindOf (← entry.path.symlinkMetadata).type)

/-- Takes jobs from the list until none is left, and puts their results into `results`. -/
partial def work {α : Type} (jobs : IO.Ref (List (Nat × IO α)))
    (results : IO.Ref (List (Nat × α))) : IO Unit := do
  match ← jobs.modifyGet fun jobs => (jobs.head?, jobs.tail) with
  | none => return
  | some (index, job) => do
    let result ← job
    results.modify ((index, result) :: ·)
    work jobs results

/-- Runs jobs on so many threads. -/
def runJobs {α : Type} (workers : Nat) (jobs : List (IO α)) : IO (List α) := do
  let queue ← IO.mkRef (jobs.zipIdx.map fun (job, index) => (index, job))
  let results ← IO.mkRef []
  let threads ← (List.range workers).mapM fun _ => IO.asTask (work queue results) .dedicated
  threads.forM fun thread => do IO.ofExcept (← IO.wait thread)
  return inOrder jobs.length (← results.get).reverse

end Native

instance : Host Native where
  look p := Native.attempt (Native.look p)
  list p := Native.attempt (Native.list p)
  read p := Native.attempt (IO.FS.readBinFile p.text)
  write p bytes := Native.attempt (IO.FS.writeBinFile p.text bytes)
  print
    | .out, text => fun _ => IO.print text
    | .err, text => fun _ => IO.eprint text
  now := fun _ => IO.monoNanosNow
  newAlarm := fun alarms => alarms.modifyGet fun raised => (⟨raised.length⟩, raised ++ [false])
  raise a := fun alarms => alarms.modify fun raised => raised.set a.number true
  isRaised a := fun alarms => return (← alarms.get).getD a.number false
  runJobs workers jobs := fun alarms => Native.runJobs workers (jobs.map fun job => job alarms)

/-- How many processors the machine has, as far as it tells. -/
def countProcessors : IO Nat := do
  try
    let lines ← IO.FS.lines "/proc/cpuinfo"
    return max 1 (lines.toList.countP fun line => line.toList.take 9 = "processor".toList)
  catch _ => return 1

/-- Runs the program and gives its exit status. -/
def command (args : List String) : IO UInt32 := do
  let colours := Style.wanted (← IO.getEnv "CLICOLOR_FORCE") (← IO.getEnv "NO_COLOR")
    (← IO.getEnv "CLICOLOR") (← (← IO.getStdout).isTty)
  let terminal := { colours, processors := ← countProcessors }
  let status ← (runProgram terminal args : Native Nat) (← IO.mkRef [])
  return status.toUInt32

end Jack

def main (args : List String) : IO UInt32 :=
  Jack.command args
