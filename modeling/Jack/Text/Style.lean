/-!
# Styles of printed text

Text in colour for terminals that understand ANSI escape sequences.
-/

namespace Jack

/-- The ways in which a text can be made to stand out. -/
inductive Style where
  | green | red | yellow | dimmed | boldCyan | boldRed
deriving DecidableEq, Repr

namespace Style

/-- The codes of a style. -/
def codes : Style → String
  | green => "32"
  | red => "31"
  | yellow => "33"
  | dimmed => "2"
  | boldCyan => "1;36"
  | boldRed => "1;31"

/-- A text in a style, or as it is where there are no colours. -/
def paint (colours : Bool) (style : Style) (text : String) : String :=
  if colours then "\x1b[" ++ style.codes ++ "m" ++ text ++ "\x1b[0m" else text

/-- Whether to use colours. The variables are `CLICOLOR_FORCE`, `NO_COLOR` and `CLICOLOR` of the
environment, where any value but `0` means yes. The first can demand colours, the second can forbid
them, and otherwise a terminal gets them unless the third says no. -/
def wanted (force forbid allow : Option String) (terminal : Bool) : Bool :=
  if force.any (· ≠ "0") then true
  else if forbid.isSome then false
  else allow.all (· ≠ "0") && terminal

end Style

end Jack
