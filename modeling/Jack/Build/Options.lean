/-!
# Options of a build
-/

namespace Jack

/-- How a build is to be done. -/
structure BuildOptions where
  /-- How many sources may be compiled at a time. -/
  jobs : Nat
  /-- Whether each source is announced. -/
  verbose : Bool := false
  /-- Whether sources not yet begun are skipped once one has failed. -/
  failFast : Bool := false
deriving DecidableEq, Repr

/-- How many of some sources are compiled at a time: as many as wanted, but at least one, and no
more than there are. -/
def BuildOptions.workers (options : BuildOptions) (sources : Nat) : Nat :=
  max 1 (min options.jobs sources)

end Jack
