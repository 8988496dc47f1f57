import Jack.Codegen.Error
import Jack.Token.Scan

/-!
# Cursors

A cursor moves forward over the tokens of a class, one at a time. It knows which tokens are left
and where the text ends.
-/

namespace Jack

/-- The tokens not yet consumed, and the place of the end of file. -/
structure Cursor where
  rest : List Token
  ending : Span
deriving DecidableEq, Repr

namespace Cursor

/-- The cursor before the first token of a source text. -/
def ofSource (source : String) : Except ScanError Cursor := do
  return { rest := ← scan source, ending := .point (.endOf source) }

/-- The cursor before the first of some tokens. The text is taken to end just after the last of
them, one column to the right of where it starts. -/
def ofTokens (tokens : List Token) : Cursor where
  rest := tokens
  ending :=
    match tokens.getLast? with
    | some t => ⟨t.span.stop, t.span.stop, t.span.line, t.span.column + 1⟩
    | none => ⟨0, 0, 0, 0⟩

/-- Moves past the current token, if there is one. -/
def advance (c : Cursor) : Cursor :=
  { c with rest := c.rest.tail }

/-- Whether all tokens are consumed. -/
def atEnd (c : Cursor) : Bool :=
  c.rest.isEmpty

/-- The current token. -/
def current? (c : Cursor) : Option Token :=
  c.rest.head?

/-- What the current token is. -/
def kind? (c : Cursor) : Option TokenKind :=
  c.current?.map Token.kind

/-- Where the current token stands, or the end of file. -/
def span (c : Cursor) : Span :=
  match c.current? with
  | some t => t.span
  | none => c.ending

/-- Whether the current token is this symbol. -/
def isSymbol (c : Cursor) (symbol : Char) : Bool :=
  c.kind? == some (.symbol symbol)

/-- Whether the current token is this reserved word. -/
def isKeyword (c : Cursor) (keyword : Keyword) : Bool :=
  c.kind? == some (.keyword keyword)

/-! ## Tokens of a given sort -/

/-- The content of the current token, which has to be of the sort `type`. -/
def read {α : Type} (c : Cursor) (type : TokenType) (content? : TokenKind → Option α) :
    Except CompileError α :=
  match c.current? with
  | none => .error (.unexpectedEnd c.ending)
  | some t =>
    match content? t.kind with
    | some a => .ok a
    | none => .error (.mismatch type t.kind t.span)

/-- The sort of the current token. -/
def type (c : Cursor) : Except CompileError TokenType :=
  match c.kind? with
  | some kind => .ok kind.type
  | none => .error (.unexpectedEnd c.ending)

/-- The reserved word at the cursor. -/
def keyword (c : Cursor) : Except CompileError Keyword :=
  c.read .keyword TokenKind.keyword?

/-- The symbol at the cursor. -/
def symbol (c : Cursor) : Except CompileError Char :=
  c.read .symbol TokenKind.symbol?

/-- The value of the integer constant at the cursor. -/
def int (c : Cursor) : Except CompileError Nat :=
  c.read .int TokenKind.int?

/-- The text of the string constant at the cursor. -/
def string (c : Cursor) : Except CompileError String :=
  c.read .string TokenKind.string?

/-- The identifier at the cursor. -/
def identifier (c : Cursor) : Except CompileError String :=
  c.read .identifier TokenKind.identifier?

/-- The error that something else should stand at the cursor. -/
def unexpected (c : Cursor) (expected : Expectation) : CompileError :=
  match c.current? with
  | some t => .unexpected expected t.kind t.span
  | none => .unexpectedEnd c.ending

end Cursor

end Jack
