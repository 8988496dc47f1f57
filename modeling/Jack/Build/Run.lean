import Jack.Build.Options
import Jack.Build.Report
import Jack.Build.Sources

/-!
# Running a build

Each source is compiled by itself, and its code is written next to it. A source that does not
compile changes no file.
-/

namespace Jack

universe u

variable {m : Type → Type u} [Monad m] [Host m]

/-- Compiles one file and gives the path of the code. -/
def compileFile (source : Path) : m (Except Error Path) := do
  match ← Host.read source with
  | .error fault => return .error (.system fault)
  | .ok bytes =>
    match String.fromUTF8? bytes with
    | none => return .error (.system .notText)
    | some text =>
      match compileBytes text with
      | .error e => return .error e
      | .ok code =>
        let output := source.withExtension outputExtension
        match ← Host.write output code with
        | .error fault => return .error (.system fault)
        | .ok _ => return .ok output

/-- Whether a source is to be skipped: with fail-fast, once another one has failed. -/
def skips (options : BuildOptions) (failed : Alarm) : m Bool :=
  if options.failFast then Host.isRaised failed else return false

/-- Does the part of a build that concerns one source. -/
def buildOne (colours : Bool) (options : BuildOptions) (failed : Alarm) (source : Path) :
    m Outcome := do
  if ← skips options failed then
    return { source, status := .skipped }
  else
    if options.verbose then
      Host.print .out (Style.boldCyan.paint colours "Compiling" ++ " " ++ source.text ++ "\n")
    let started ← Host.now
    let result ← compileFile source
    let stopped ← Host.now
    let duration := ⟨stopped - started⟩
    match result with
    | .ok output => return { source, status := .compiled output, duration }
    | .error e => do
      Host.raise failed
      return { source, status := .failed e, duration }

/-- Compiles all sources. The build has an alarm of its own, which the sources that fail raise. -/
def build (colours : Bool) (options : BuildOptions) (sources : List Path) : m Report := do
  if sources.isEmpty then return {}
  let started ← Host.now
  let failed ← Host.newAlarm
  let outcomes ←
    Host.runJobs (options.workers sources.length) (sources.map (buildOne colours options failed))
  let stopped ← Host.now
  return { outcomes, elapsed := ⟨stopped - started⟩ }

end Jack
