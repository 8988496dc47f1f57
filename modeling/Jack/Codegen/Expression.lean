import Jack.Codegen.Pass

/-!
# Code of expressions

An expression is a chain of terms with operators between them. All operators bind alike: each one
is applied to the value of all that stands before it and to the next term. The code leaves one
value on the stack.

The functions that call one another take an allowance, which each call lowers by one. An allowance
of three for each token left, and three more, is never used up.
-/

namespace Jack

/-! ## Pieces of code -/

/-- The instruction of a binary operator. The machine cannot multiply and divide by itself. -/
def operator? : Char → Option Instruction
  | '+' => some (.arithmetic .add)
  | '-' => some (.arithmetic .sub)
  | '&' => some (.arithmetic .and)
  | '|' => some (.arithmetic .or)
  | '<' => some (.arithmetic .lt)
  | '>' => some (.arithmetic .gt)
  | '=' => some (.arithmetic .eq)
  | '*' => some (.call "Math.multiply" 2)
  | '/' => some (.call "Math.divide" 2)
  | _ => none

/-- A string constant is built when the program runs: a new string of the right length, and then
one character after the other. -/
def stringCode (s : String) : List Instruction :=
  .push .constant s.length :: .call "String.new" 1 ::
    s.toList.flatMap fun c => [.push .constant c.toNat, .call "String.appendChar" 2]

/-- Whether the length of a string and the codes of its characters are constants of the machine. -/
def isEncodable (s : String) : Bool :=
  s.toList.all (fun c => c.toNat ≤ maxConstant) && s.length ≤ maxConstant

/-- The most arguments of a call: their number is a 16-bit number. -/
def maxArguments : Nat := 65535

namespace Pass

variable {σ : Type} [Sink σ]

/-- The code of a string constant whose token, at `span`, is consumed. -/
def stringConstant (s : String) (span : Span) : Pass σ Unit := do
  if isEncodable s then emitAll (stringCode s) else throw (.tooMany .characters span)

/-- What a call that starts with the consumed identifier `name` calls, and the number of arguments
that it passes unseen. The object of a method call is pushed: it is the variable `name` in
`name.method`, and the current object in `method`. If `name` is no variable in `name.function`,
then it is a class, and no object is passed. -/
def callee (cls name : String) : Pass σ (String × Nat) := do
  if ← accept '.' then
    let subroutine ← identifier
    match ← lookup name with
    | some v => do
      emit v.push
      return (v.type ++ "." ++ subroutine, 1)
    | none => return (name ++ "." ++ subroutine, 0)
  else
    emit (.push .pointer 0)
    return (cls ++ "." ++ name, 1)

/-! ## Expressions -/

mutual

/-- `term (operator term)*` -/
def expression (cls : String) : Nat → Pass σ Unit
  | 0 => exhausted
  | n + 1 => do
    term cls n
    operators cls n

/-- `(operator term)*`, where the code of an operator follows that of its second operand. -/
def operators (cls : String) : Nat → Pass σ Unit
  | 0 => exhausted
  | n + 1 => do
    match ← peek with
    | some (.symbol c) =>
      match operator? c with
      | some i => do
        advance
        term cls n
        emit i
        operators cls n
      | none => pure ()
    | _ => pure ()

/-- A constant, a variable, an array element, a call, an expression in parentheses, or a term
with a sign. -/
def term (cls : String) : Nat → Pass σ Unit
  | 0 => exhausted
  | n + 1 => do
    let span ← here
    match ← peek with
    | some (.int k) => do
      advance
      emit (.push .constant k)
    | some (.string s) => do
      advance
      stringConstant s span
    | some (.keyword .this) => do
      emit (.push .pointer 0)
      advance
    | some (.keyword .null) | some (.keyword .false) => do
      emit (.push .constant 0)
      advance
    | some (.keyword .true) => do
      emitAll [.push .constant 0, .arithmetic .not]
      advance
    | some (.identifier name) => do
      advance
      match ← peek with
      | some (.symbol '(') | some (.symbol '.') => call cls name n
      | some (.symbol '[') => do
        let base ← resolve name span
        advance
        emit base.push
        expression cls n
        symbol ']'
        emitAll [.arithmetic .add, .pop .pointer 1, .push .that 0]
      | _ => do
        let v ← resolve name span
        emit v.push
    | some (.symbol '(') => do
      advance
      expression cls n
      symbol ')'
    | some (.symbol '-') => do
      advance
      term cls n
      emit (.arithmetic .neg)
    | some (.symbol '~') => do
      advance
      term cls n
      emit (.arithmetic .not)
    | _ => unexpected .term

/-- The rest of a call whose first identifier `name` is consumed:
`(. identifier)? ( (expression (, expression)*)? )`. -/
def call (cls name : String) : Nat → Pass σ Unit
  | 0 => exhausted
  | n + 1 => do
    let span ← here
    let (target, unseen) ← callee cls name
    symbol '('
    let seen ← if (← get).cursor.isSymbol ')' then pure 0 else arguments cls 0 n
    symbol ')'
    if seen + unseen ≤ maxArguments then emit (.call target (seen + unseen))
    else throw (.tooMany .arguments span)

/-- `expression (, expression)*` after `before` arguments, and how many there are then. -/
def arguments (cls : String) (before : Nat) : Nat → Pass σ Nat
  | 0 => exhausted
  | n + 1 => do
    let span ← here
    expression cls n
    if before < maxArguments then
      if ← accept ',' then arguments cls (before + 1) n else return before + 1
    else throw (.tooMany .arguments span)

end

end Pass

end Jack
