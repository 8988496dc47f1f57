import Jack.Compile
import Jack.Files.Host
import Jack.Text.Duration
import Jack.Text.Style

/-!
# Reports of builds

What became of each source of a build, and how that is told to the user.
-/

namespace Jack

/-- What became of a source. -/
inductive Status where
  | compiled (output : Path)
  | failed (error : Error)
  | skipped
deriving DecidableEq, Repr

/-- A source, what became of it and how long that took. -/
structure Outcome where
  source : Path
  status : Status
  duration : Duration := {}
deriving DecidableEq, Repr

/-- The outcomes of a build, in the order in which the sources were given. -/
structure Report where
  outcomes : List Outcome := []
  elapsed : Duration := {}
deriving DecidableEq, Repr

namespace Status

/-- Whether there is code now. -/
def isCompiled : Status → Bool
  | compiled _ => true
  | _ => false

/-- Whether there was an error. -/
def isFailed : Status → Bool
  | failed _ => true
  | _ => false

/-- Whether the source was not looked at. -/
def isSkipped : Status → Bool
  | skipped => true
  | _ => false

end Status

namespace Report

/-- How many sources were compiled. -/
def compiled (r : Report) : Nat :=
  r.outcomes.countP fun o => o.status.isCompiled

/-- How many sources failed. -/
def failed (r : Report) : Nat :=
  r.outcomes.countP fun o => o.status.isFailed

/-- How many sources were skipped. -/
def skipped (r : Report) : Nat :=
  r.outcomes.countP fun o => o.status.isSkipped

/-- A build succeeds if nothing failed and nothing was skipped. -/
def isSuccess (r : Report) : Bool :=
  r.failed = 0 && r.skipped = 0

/-! ## The printed report -/

/-- The line on one source, and the stream it goes to. -/
def outcomeLine (colours : Bool) (o : Outcome) : Stream × String :=
  let time := Style.dimmed.paint colours o.duration.text
  match o.status with
  | .compiled output =>
    (.out, "  " ++ Style.green.paint colours "✓" ++ " " ++ o.source.text ++ " -> " ++
      output.text ++ " " ++ time ++ "\n")
  | .failed e =>
    (.err, "  " ++ Style.red.paint colours "✗" ++ " " ++ o.source.text ++ ": " ++ e.message ++
      " " ++ time ++ "\n")
  | .skipped =>
    (.out, "  " ++ Style.yellow.paint colours "-" ++ " " ++ o.source.text ++ " (skipped)\n")

/-- The line on all sources together. -/
def summary (colours : Bool) (r : Report) : String :=
  (if r.isSuccess then Style.green else Style.red).paint colours
    (r.compiled.repr ++ " compiled, " ++ r.failed.repr ++ " failed, " ++ r.skipped.repr ++
      " skipped in " ++ r.elapsed.text) ++ "\n"

/-- All lines of a report: one on each source, a blank one and the summary. -/
def lines (colours : Bool) (r : Report) : List (Stream × String) :=
  r.outcomes.map (outcomeLine colours) ++ [(.out, "\n"), (.out, r.summary colours)]

end Report

end Jack
