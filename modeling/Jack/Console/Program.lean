import Jack.Build.Run
import Jack.Console.Request

/-!
# The program

Reads the arguments, builds, reports, and ends with 0 for success, 1 for failure and 64 for
arguments that make no sense.
-/

namespace Jack

universe u

variable {m : Type → Type u} [Monad m] [Host m]

/-- What a run of the program depends on besides its arguments and the files. -/
structure Terminal where
  /-- Whether text is printed in colour. -/
  colours : Bool := false
  /-- How many processors there are. -/
  processors : Nat := 1

/-- Says what is wrong, and gives the status of failure. -/
def complain (terminal : Terminal) (message : String) : m Nat := do
  Host.print .err (Style.boldRed.paint terminal.colours "error:" ++ " " ++ message ++ "\n")
  return 1

/-- Builds a target, and gives the exit status. -/
def buildTarget (terminal : Terminal) (target : Path) (options : BuildOptions) : m Nat := do
  match ← Host.look target with
  | .error _ => complain terminal ("Path '" ++ target.text ++ "' does not exist")
  | .ok _ =>
    match ← findSources target with
    | .error e => complain terminal e.message
    | .ok [] => do
      Host.print .out ("No ." ++ sourceExtension ++ " files found.\n")
      return 0
    | .ok sources => do
      let report ← build terminal.colours options sources
      (report.lines terminal.colours).forM fun (stream, line) => Host.print stream line
      return if report.isSuccess then 0 else 1

/-- Runs the program on its arguments, and gives the exit status. -/
def runProgram (terminal : Terminal) (args : List String) : m Nat := do
  match Request.parse terminal.processors args with
  | .error e => do
    Host.print .err (e.message ++ "\n" ++ usage)
    return 64
  | .ok .help => do
    Host.print .err usage
    return 0
  | .ok (.build target options) => buildTarget terminal target options

end Jack
