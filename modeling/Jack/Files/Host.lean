import Jack.Files.Tree

/-!
# Surroundings of a build

A build reads and writes files, prints, looks at the clock and runs jobs side by side. `Host` says
what it needs for that. A `Session` is a host made of values: a file tree and the texts printed so
far, where jobs run one after the other and no time passes.
-/

namespace Jack

universe u

/-- What can stand at a path. -/
inductive EntryKind where
  | file | directory | other
deriving DecidableEq, Repr

/-- The two streams that a program prints to. -/
inductive Stream where
  | out | err
deriving DecidableEq, Repr

/-- A flag that several jobs can see, known by its number. -/
structure Alarm where
  number : Nat
deriving DecidableEq, Repr

/-- A monad in which builds can run. -/
class Host (m : Type → Type u) where
  /-- What stands at a path. -/
  look : Path → m (Except Fault EntryKind)
  /-- The names in a directory, in any order, and what they stand for. -/
  list : Path → m (Except Fault (List (String × EntryKind)))
  /-- The bytes of a file. -/
  read : Path → m (Except Fault ByteArray)
  /-- Writes a file, in place of one that may be there. -/
  write : Path → ByteArray → m (Except Fault Unit)
  /-- Prints a text. -/
  print : Stream → String → m Unit
  /-- Nanoseconds since some fixed moment. -/
  now : m Nat
  /-- A new alarm, which is not raised. -/
  newAlarm : m Alarm
  /-- Raises an alarm. -/
  raise : Alarm → m Unit
  /-- Whether an alarm was raised. -/
  isRaised : Alarm → m Bool
  /-- Runs jobs, at most so many at a time. They start in the order of the list, and so do their
  results come. -/
  runJobs {α : Type} : Nat → List (m α) → m (List α)

/-- Puts results into the slots with their numbers. -/
def fillSlots {α : Type} (slots : List (Option α)) (results : List (Nat × α)) : List (Option α) :=
  results.foldl (fun slots (number, result) => slots.set number (some result)) slots

/-- The results of so many jobs in the order of the jobs. Each result comes with the number of its
job, in the order in which the jobs came to their ends. -/
def inOrder {α : Type} (jobs : Nat) (results : List (Nat × α)) : List α :=
  (fillSlots (List.replicate jobs none) results).filterMap id

/-! ## Sessions -/

/-- A file tree, the texts printed so far, and which of the alarms were raised. -/
structure Session where
  tree : FileTree := {}
  out : String := ""
  err : String := ""
  alarms : List Bool := []

/-- The sort of an entry. -/
def Entry.kind : Entry → EntryKind
  | file _ => .file
  | directory => .directory

instance : Host (StateM Session) where
  look p := return (← get).tree.find p |>.map fun (_, entry) => entry.kind
  list p := return (← get).tree.list p |>.map fun l => l.map fun (name, entry) => (name, entry.kind)
  read p := return (← get).tree.read p
  write p bytes := modifyGet fun s =>
    match s.tree.write p bytes with
    | .ok tree => (.ok (), { s with tree })
    | .error fault => (.error fault, s)
  print
    | .out, text => modify fun s => { s with out := s.out ++ text }
    | .err, text => modify fun s => { s with err := s.err ++ text }
  now := return 0
  newAlarm := modifyGet fun s => (⟨s.alarms.length⟩, { s with alarms := s.alarms ++ [false] })
  raise a := modify fun s => { s with alarms := s.alarms.set a.number true }
  isRaised a := return (← get).alarms.getD a.number false
  runJobs _ jobs := jobs.mapM id

end Jack
