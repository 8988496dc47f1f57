/-!
# Places in a source text

A `Position` is a place between two characters. It counts bytes of the UTF-8 form from 0, and
lines and columns from 1. Only a newline starts a line, and a column is one character wide
whatever its byte size. A `Span` is a stretch of text with the line and column of its start.
-/

namespace Jack

/-! ## Positions -/

/-- A place in a source text. -/
structure Position where
  /-- Bytes before this place. -/
  offset : Nat := 0
  line : Nat := 1
  column : Nat := 1
deriving DecidableEq, Repr

namespace Position

/-- The place just after the character `c` that stands at `p`. -/
def after (p : Position) (c : Char) : Position :=
  if c = '\n' then ⟨p.offset + c.utf8Size, p.line + 1, 1⟩
  else ⟨p.offset + c.utf8Size, p.line, p.column + 1⟩

/-- The place just after a run of characters that starts at `p`. -/
def advance (p : Position) (cs : List Char) : Position :=
  cs.foldl after p

/-- The place just after a whole text, read off the text. -/
def endOf (source : String) : Position where
  offset := source.utf8ByteSize
  line := source.toList.count '\n' + 1
  column := (source.toList.reverse.takeWhile (· ≠ '\n')).length + 1

end Position

/-! ## Spans -/

/-- The bytes from `start` up to but not including `stop`, and where they start. -/
structure Span where
  start : Nat
  stop : Nat
  line : Nat
  column : Nat
deriving DecidableEq, Repr, Inhabited

namespace Span

/-- The stretch between two places. -/
def between (start stop : Position) : Span :=
  ⟨start.offset, stop.offset, start.line, start.column⟩

/-- The empty stretch at a place. -/
def point (p : Position) : Span :=
  between p p

/-- A span is shown as the line and column where it starts. -/
def text (s : Span) : String :=
  s.line.repr ++ ":" ++ s.column.repr

end Span

end Jack
