import Jack.Codegen.Expression

/-!
# Code of statements

The code of a statement leaves the stack as it was. A condition that is false jumps over the
statements it guards. The labels of a statement are taken before those of the statements in it.
-/

namespace Jack

/-- Assigns the top of the stack to the array element whose address lies below it. -/
def storeElement : List Instruction :=
  [.pop .temp 0, .pop .pointer 1, .push .temp 0, .pop .that 0]

namespace Pass

variable {σ : Type} [Sink σ]

/-- The rest of `let name ([ expression ])? = expression ;` after the first word. -/
def letStatement (cls : String) (n : Nat) : Pass σ Unit := do
  let span ← here
  let name ← identifier
  let target ← resolve name span
  if ← accept '[' then
    emit target.push
    expression cls n
    symbol ']'
    emit (.arithmetic .add)
    symbol '='
    expression cls n
    symbol ';'
    emitAll storeElement
  else
    symbol '='
    expression cls n
    symbol ';'
    emit target.pop

/-- The rest of `do call ;` after the first word. The result of the call is dropped. -/
def doStatement (cls : String) (n : Nat) : Pass σ Unit := do
  let name ← identifier
  call cls name n
  symbol ';'
  emit (.pop .temp 0)

/-- The rest of `return expression? ;` after the first word. Nothing to return counts as 0. -/
def returnStatement (cls : String) (n : Nat) : Pass σ Unit := do
  if (← get).cursor.isSymbol ';' then emit (.push .constant 0) else expression cls n
  symbol ';'
  emit .return

/-- `( expression )`, and a jump to `label` if it is false. -/
def condition (cls : String) (n : Nat) (label : String) : Pass σ Unit := do
  symbol '('
  expression cls n
  symbol ')'
  emitAll [.arithmetic .not, .ifGoto label]

mutual

/-- Statements, up to the first token that starts none. -/
def statements (cls : String) : Nat → Pass σ Unit
  | 0 => exhausted
  | n + 1 => do
    match ← peek with
    | some (.keyword .let) => do
      advance
      letStatement cls n
      statements cls n
    | some (.keyword .if) => do
      advance
      ifStatement cls n
      statements cls n
    | some (.keyword .while) => do
      advance
      whileStatement cls n
      statements cls n
    | some (.keyword .do) => do
      advance
      doStatement cls n
      statements cls n
    | some (.keyword .return) => do
      advance
      returnStatement cls n
      statements cls n
    | _ => pure ()

/-- `{ statements }` -/
def block (cls : String) : Nat → Pass σ Unit
  | 0 => exhausted
  | n + 1 => do
    symbol '{'
    statements cls n
    symbol '}'

/-- The rest of `if ( expression ) block (else block)?` after the first word. -/
def ifStatement (cls : String) : Nat → Pass σ Unit
  | 0 => exhausted
  | n + 1 => do
    let otherwise ← freshLabel cls
    let done ← freshLabel cls
    condition cls n otherwise
    block cls n
    emitAll [.goto done, .label otherwise]
    if (← get).cursor.isKeyword .else then
      advance
      block cls n
    emit (.label done)

/-- The rest of `while ( expression ) block` after the first word. -/
def whileStatement (cls : String) : Nat → Pass σ Unit
  | 0 => exhausted
  | n + 1 => do
    let top ← freshLabel cls
    let done ← freshLabel cls
    emit (.label top)
    condition cls n done
    block cls n
    emitAll [.goto top, .label done]

end

end Pass

end Jack
