import Jack.Build.Options
import Jack.Files.Path

/-!
# Requests on the command line

The arguments of the program are options and one target, in any order. They are read from left to
right up to the first fault or the first request for help.
-/

namespace Jack

/-- What the user wants. -/
inductive Request where
  | help
  | build (target : Path) (options : BuildOptions)
deriving DecidableEq, Repr

/-- What is wrong with the arguments. -/
inductive UsageError where
  | jobsMissing
  | jobsInvalid (text : String)
  | unknownOption (text : String)
  | secondTarget
  | noTarget
deriving DecidableEq, Repr

/-- The wording of an error. -/
def UsageError.message : UsageError → String
  | jobsMissing => "--jobs requires a number"
  | jobsInvalid text => "Invalid jobs number: " ++ text
  | unknownOption text => "Unknown option: " ++ text
  | secondTarget => "Only one file or directory can be specified"
  | noTarget => "No input file or directory given"

/-- How the program is used, line by line. -/
def usageLines : List String :=
  ["Jackc 0.1.0 - Jack to VM compiler",
    "",
    "Usage: jackc [options] <file.jack | directory>",
    "",
    "Each Foo.jack is compiled to Foo.vm in the same directory.",
    "A directory compiles every .jack file directly inside it.",
    "",
    "Options:",
    "  --jobs N        Number of parallel compile workers (default: CPU cores)",
    "  --fail-fast     Stop starting new files after the first failure",
    "  --verbose, -v   Print each file as it is compiled",
    "  --help, -h      Show this help message",
    "",
    "Examples:",
    "  jackc Main.jack               Compile a single class",
    "  jackc Pong/                   Compile a whole program",
    "  jackc Pong/ --jobs 4 -v       Compile with 4 workers, verbosely"]

/-- How the program is used. -/
def usage : String :=
  String.join (usageLines.map (· ++ "\n"))

namespace Request

/-- The largest number of jobs: it has 64 bits. -/
def maxJobs : Nat := 18446744073709551615

/-- Reads a number of jobs: decimal digits, maybe after a plus sign, for a positive number up to
`maxJobs`. -/
def jobs? (text : String) : Option Nat :=
  let digits :=
    match text.toList with
    | '+' :: digits => digits
    | digits => digits
  if digits.isEmpty || !digits.all Char.isDigit then none
  else
    let n := Nat.ofDigitChars 10 digits 0
    if 0 < n ∧ n ≤ maxJobs then some n else none

/-- Reads the arguments that follow, given the options and the target so far. -/
def parseFrom (options : BuildOptions) (target : Option Path) :
    List String → Except UsageError Request
  | [] =>
    match target with
    | some target => .ok (.build target options)
    | none => .error .noTarget
  | arg :: args =>
    if arg = "--help" ∨ arg = "-h" then .ok .help
    else if arg = "--jobs" ∨ arg = "-j" then
      match args with
      | [] => .error .jobsMissing
      | text :: args =>
        match jobs? text with
        | some jobs => parseFrom { options with jobs } target args
        | none => .error (.jobsInvalid text)
    else if arg = "--fail-fast" then parseFrom { options with failFast := true } target args
    else if arg = "--verbose" ∨ arg = "-v" then
      parseFrom { options with verbose := true } target args
    else if arg.toList.head? = some '-' then .error (.unknownOption arg)
    else if target.isSome then .error .secondTarget
    else parseFrom options (some (.ofString arg)) args

/-- Reads the arguments of the program on a machine with so many processors. -/
def parse (processors : Nat) (args : List String) : Except UsageError Request :=
  parseFrom { jobs := processors } none args

end Request

end Jack
