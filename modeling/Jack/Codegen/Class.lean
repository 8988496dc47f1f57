import Jack.Codegen.Body

/-!
# Code of a class

Declarations count from where they stand, so a subroutine sees the class variables declared before
it. Each subroutine becomes one function of the machine, named after the class and itself.
-/

namespace Jack

/-! ## Sorts of subroutine -/

/-- The three sorts of subroutine. -/
inductive SubroutineKind where
  | constructor | function | method
deriving DecidableEq, Repr

/-- What a subroutine does before its first statement: a constructor makes the new object, which
has room for `fields` fields, and a method takes the object it is called on. -/
def prologue (kind : SubroutineKind) (fields : Nat) : List Instruction :=
  match kind with
  | .constructor => [.push .constant fields, .call "Memory.alloc" 1, .pop .pointer 0]
  | .function => []
  | .method => [.push .argument 0, .pop .pointer 0]

namespace Pass

variable {σ : Type}

/-! ## Declarations -/

/-- A type: `int`, `char`, `boolean`, the name of a class, or `void` where that is allowed. -/
def typeName (allowVoid : Bool) : Pass σ String := do
  match ← peek with
  | some (.keyword k) =>
    if k = .int ∨ k = .char ∨ k = .boolean ∨ (k = .void ∧ allowVoid) then
      advance
      return k.text
    else unexpected .type
  | _ => identifier

/-- `name (, name)*`, all of one type and kind. -/
def names (type : String) (kind : Kind) : Nat → Pass σ Unit
  | 0 => exhausted
  | n + 1 => do
    let span ← here
    let name ← identifier
    define name type kind span
    if ← accept ',' then names type kind n

/-- The rest of a declaration after its first word: `type name (, name)* ;`. -/
def declaration (kind : Kind) (n : Nat) : Pass σ Unit := do
  let type ← typeName false
  names type kind n
  symbol ';'

/-- `type name (, type name)*` -/
def parameters : Nat → Pass σ Unit
  | 0 => exhausted
  | n + 1 => do
    let type ← typeName false
    let span ← here
    let name ← identifier
    define name type .argument span
    if ← accept ',' then parameters n

/-- `(var type name (, name)* ;)*` -/
def locals : Nat → Pass σ Unit
  | 0 => exhausted
  | n + 1 => do
    if (← get).cursor.isKeyword .var then
      advance
      declaration .local n
      locals n

/-! ## Subroutines -/

variable [Sink σ]

/-- The rest of a subroutine after its first word:
`type name ( (type name (, type name)*)? ) { locals statements }`. -/
def subroutine (cls : String) (kind : SubroutineKind) (n : Nat) : Pass σ Unit := do
  startSubroutine
  let _ ← typeName true
  let span ← here
  let name ← identifier
  if kind = .method then define "this" cls .argument span
  symbol '('
  unless (← get).cursor.isSymbol ')' do parameters n
  symbol ')'
  symbol '{'
  locals n
  emit (.function (cls ++ "." ++ name) (← count .local))
  emitAll (prologue kind (← count .field))
  statements cls n
  symbol '}'

/-! ## Classes -/

/-- Class variables and subroutines, in any order. -/
def members (cls : String) : Nat → Pass σ Unit
  | 0 => exhausted
  | n + 1 => do
    match ← peek with
    | some (.keyword .static) => do
      advance
      declaration .static n
      members cls n
    | some (.keyword .field) => do
      advance
      declaration .field n
      members cls n
    | some (.keyword .constructor) => do
      advance
      subroutine cls .constructor n
      members cls n
    | some (.keyword .function) => do
      advance
      subroutine cls .function n
      members cls n
    | some (.keyword .method) => do
      advance
      subroutine cls .method n
      members cls n
    | _ => pure ()

/-- `class name { members }`, and nothing after it. -/
def classUnit (n : Nat) : Pass σ Unit := do
  keyword .class
  let cls ← identifier
  symbol '{'
  members cls n
  symbol '}'
  unless (← get).cursor.atEnd do unexpected .endOfFile

end Pass

/-! ## Whole passes -/

/-- An allowance that is never used up by a pass over so many tokens. -/
def allowance (tokens : Nat) : Nat :=
  3 * tokens + 3

/-- Compiles the class at the cursor into a sink. The sink holds all that was written, also when
the class does not compile. -/
def compileClass {σ : Type} [Sink σ] (cursor : Cursor) (sink : σ) :
    EStateM.Result CompileError σ Unit :=
  match Pass.classUnit (allowance cursor.rest.length) { cursor, sink } with
  | .error e p => .error e p.sink
  | .ok _ p =>
    match Sink.flush p.sink with
    | .error fault => .error (.write fault) p.sink
    | .ok _ => .ok () p.sink

end Jack
