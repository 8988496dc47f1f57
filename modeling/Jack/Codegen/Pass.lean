import Jack.Codegen.Cursor
import Jack.VM.Sink

/-!
# The compiling pass

The compiler goes over the tokens of a class once and writes instructions as soon as it has
recognised what they belong to. A step of the pass may consume tokens, declare variables, take
fresh labels and write code. When it fails, all that was done before remains.
-/

namespace Jack

/-- How far a pass has come: the tokens left, the variables declared, the number of labels taken
and the code written. -/
structure Progress (σ : Type) where
  cursor : Cursor
  symbols : SymbolTable := {}
  labels : Nat := 0
  sink : σ

/-- A step of a pass that writes to a sink of type `σ`. -/
abbrev Pass (σ : Type) := EStateM CompileError (Progress σ)

namespace Pass

variable {σ α : Type}

/-! ## Tokens -/

/-- What the current token is. -/
def peek : Pass σ (Option TokenKind) :=
  return (← get).cursor.kind?

/-- Where the current token stands. -/
def here : Pass σ Span :=
  return (← get).cursor.span

/-- Consumes the current token. -/
def advance : Pass σ Unit :=
  modify fun p => { p with cursor := p.cursor.advance }

/-- Fails because something else should stand at the cursor. -/
def unexpected (expected : Expectation) : Pass σ α := do
  throw ((← get).cursor.unexpected expected)

/-- Consumes a token that has to be this symbol. -/
def symbol (c : Char) : Pass σ Unit := do
  if (← get).cursor.isSymbol c then advance else unexpected (.symbol c)

/-- Consumes a token that has to be this reserved word. -/
def keyword (k : Keyword) : Pass σ Unit := do
  if (← get).cursor.isKeyword k then advance else unexpected (.keyword k)

/-- Consumes a token that has to be an identifier. -/
def identifier : Pass σ String := do
  match (← get).cursor.identifier with
  | .ok name => do
    advance
    return name
  | .error e => throw e

/-- Consumes this symbol if it is the current token, and tells whether it was. -/
def accept (c : Char) : Pass σ Bool := do
  if (← get).cursor.isSymbol c then
    advance
    return true
  else return false

/-! ## Variables -/

/-- Forgets the arguments and locals of the previous subroutine. -/
def startSubroutine : Pass σ Unit :=
  modify fun p => { p with symbols := p.symbols.startSubroutine }

/-- Declares a variable whose name stands at `span`. -/
def define (name type : String) (kind : Kind) (span : Span) : Pass σ Unit := do
  match (← get).symbols.define? name type kind with
  | some (_, symbols) => modify fun p => { p with symbols }
  | none => throw (.tooMany (.declarations kind) span)

/-- How many variables of a kind are declared. -/
def count (kind : Kind) : Pass σ Nat :=
  return (← get).symbols.count kind

/-- The variable that a name stands for, if it is declared. -/
def lookup (name : String) : Pass σ (Option Variable) :=
  return (← get).symbols.lookup name

/-- The variable that a name at `span` has to stand for. -/
def resolve (name : String) (span : Span) : Pass σ Variable := do
  match ← lookup name with
  | some v => return v
  | none => throw (.undefined name span)

/-! ## Code -/

/-- A label of the class `cls` that was not taken before. -/
def freshLabel (cls : String) : Pass σ String :=
  modifyGet fun p => (cls ++ ".L" ++ p.labels.repr, { p with labels := p.labels + 1 })

/-- Writes one instruction. -/
def emit [Sink σ] (i : Instruction) : Pass σ Unit := fun ⟨cursor, symbols, labels, sink⟩ =>
  match Sink.write i sink with
  | .ok _ sink => .ok () ⟨cursor, symbols, labels, sink⟩
  | .error fault sink => .error (.write fault) ⟨cursor, symbols, labels, sink⟩

/-- Writes some instructions in order. -/
def emitAll [Sink σ] : List Instruction → Pass σ Unit
  | [] => pure ()
  | i :: code => do
    emit i
    emitAll code

/-- Fails because the allowance of the pass is used up. -/
def exhausted : Pass σ α := do
  throw (.tooMany .constructs (← here))

end Pass

end Jack
