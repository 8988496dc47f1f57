/-!
# Durations

How long something took, and how that is shown.
-/

namespace Jack

/-- A stretch of time. -/
structure Duration where
  nanoseconds : Nat := 0
deriving DecidableEq, Repr

namespace Duration

/-- Parts of a microsecond are cut off. -/
def microseconds (d : Duration) : Nat :=
  d.nanoseconds / 1000

/-- A number below 100 with two digits. -/
def twoDigits (n : Nat) : String :=
  if n < 10 then "0" ++ n.repr else n.repr

/-- Below a millisecond in microseconds; below a second in milliseconds, a half rounded up; above
that in seconds with two places, the rest cut off. -/
def text (d : Duration) : String :=
  let n := d.microseconds
  if n < 1000 then n.repr ++ "µs"
  else if n < 1000000 then ((n + 500) / 1000).repr ++ "ms"
  else (n / 1000000).repr ++ "." ++ twoDigits (n % 1000000 / 10000) ++ "s"

end Duration

end Jack
