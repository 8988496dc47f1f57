import Jack.Proofs.Pass.CompleteBody
import Jack.Proofs.Pass.SoundClass

/-!
# The pass as plans

The functions of the pass call one another. To speak about the calls that are under way at some
moment, each function is written down once more as a plan, a tree of primitive steps and of calls,
which are left open. If the calls of a plan are answered by the functions with an allowance `n`,
then it does what its function does with the allowance `n`, or `n + 1` if the function lowers its
allowance (`Routine.run_eq`).
-/

namespace Jack

variable {σ α β : Type}

/-! ## Primitive steps -/

/-- The steps of a pass that call no other function of it. -/
inductive Primitive : Type → Type 1
  | here : Primitive Span
  | peek : Primitive (Option TokenKind)
  | test (f : Cursor → Bool) : Primitive Bool
  | advance : Primitive Unit
  | symbol (c : Char) : Primitive Unit
  | keyword (k : Keyword) : Primitive Unit
  | identifier : Primitive String
  | accept (c : Char) : Primitive Bool
  | unexpected {α : Type} (expected : Expectation) : Primitive α
  | startSubroutine : Primitive Unit
  | define (name type : String) (kind : Kind) (span : Span) : Primitive Unit
  | count (kind : Kind) : Primitive Nat
  | lookup (name : String) : Primitive (Option Variable)
  | resolve (name : String) (span : Span) : Primitive Variable
  | freshLabel (cls : String) : Primitive String
  | emit (i : Instruction) : Primitive Unit
  | emitAll (code : List Instruction) : Primitive Unit

/-- What a primitive step does. -/
def Primitive.run [Sink σ] : Primitive α → Pass σ α
  | here => Pass.here
  | peek => Pass.peek
  | test f => return f (← get).cursor
  | advance => Pass.advance
  | symbol c => Pass.symbol c
  | keyword k => Pass.keyword k
  | identifier => Pass.identifier
  | accept c => Pass.accept c
  | unexpected expected => Pass.unexpected expected
  | startSubroutine => Pass.startSubroutine
  | define name type kind span => Pass.define name type kind span
  | count kind => Pass.count kind
  | lookup name => Pass.lookup name
  | resolve name span => Pass.resolve name span
  | freshLabel cls => Pass.freshLabel cls
  | emit i => Pass.emit i
  | emitAll code => Pass.emitAll code

/-! ## Routines -/

/-- The constructs for which the pass has a function. -/
inductive Construct where
  | members | declaration | names | subroutine | parameters | locals
  | statements | letStatement | ifStatement | whileStatement | doStatement | returnStatement
  | condition | block
  | expression | operators | term | call | arguments
deriving DecidableEq, Repr

/-- The functions of the pass, with all that they are given apart from the allowance. -/
inductive Routine : Type → Type
  | members (cls : String) : Routine Unit
  | declaration (kind : Kind) : Routine Unit
  | names (type : String) (kind : Kind) : Routine Unit
  | subroutine (cls : String) (kind : SubroutineKind) : Routine Unit
  | parameters : Routine Unit
  | locals : Routine Unit
  | statements (cls : String) : Routine Unit
  | letStatement (cls : String) : Routine Unit
  | ifStatement (cls : String) : Routine Unit
  | whileStatement (cls : String) : Routine Unit
  | doStatement (cls : String) : Routine Unit
  | returnStatement (cls : String) : Routine Unit
  | condition (cls label : String) : Routine Unit
  | block (cls : String) : Routine Unit
  | expression (cls : String) : Routine Unit
  | operators (cls : String) : Routine Unit
  | term (cls : String) : Routine Unit
  | call (cls name : String) : Routine Unit
  | arguments (cls : String) (before : Nat) : Routine Nat

namespace Routine

/-- Which construct a routine is for. -/
def construct : Routine α → Construct
  | members _ => .members
  | declaration _ => .declaration
  | names _ _ => .names
  | subroutine _ _ => .subroutine
  | parameters => .parameters
  | locals => .locals
  | statements _ => .statements
  | letStatement _ => .letStatement
  | ifStatement _ => .ifStatement
  | whileStatement _ => .whileStatement
  | doStatement _ => .doStatement
  | returnStatement _ => .returnStatement
  | condition _ _ => .condition
  | block _ => .block
  | expression _ => .expression
  | operators _ => .operators
  | term _ => .term
  | call _ _ => .call
  | arguments _ _ => .arguments

/-- What a routine does with the allowance `n`. -/
def run [Sink σ] (n : Nat) : Routine α → Pass σ α
  | members cls => Pass.members cls n
  | declaration kind => Pass.declaration kind n
  | names type kind => Pass.names type kind n
  | subroutine cls kind => Pass.subroutine cls kind n
  | parameters => Pass.parameters n
  | locals => Pass.locals n
  | statements cls => Pass.statements cls n
  | letStatement cls => Pass.letStatement cls n
  | ifStatement cls => Pass.ifStatement cls n
  | whileStatement cls => Pass.whileStatement cls n
  | doStatement cls => Pass.doStatement cls n
  | returnStatement cls => Pass.returnStatement cls n
  | condition cls label => Pass.condition cls n label
  | block cls => Pass.block cls n
  | expression cls => Pass.expression cls n
  | operators cls => Pass.operators cls n
  | term cls => Pass.term cls n
  | call cls name => Pass.call cls name n
  | arguments cls before => Pass.arguments cls before n

end Routine

/-! ## Plans -/

/-- What a function of the pass does, step by step, up to its result. -/
inductive Plan (α : Type) : Type 1
  | done (a : α)
  | fail (e : CompileError)
  | step {β : Type} (x : Primitive β) (more : β → Plan α)
  | enter {β : Type} (r : Routine β) (more : β → Plan α)

namespace Plan

/-- A plan of one primitive step. -/
def own (x : Primitive α) : Plan α :=
  .step x .done

/-- A plan of one call. -/
def perform (r : Routine α) : Plan α :=
  .enter r .done

/-- One plan after the other. -/
def bind : Plan α → (α → Plan β) → Plan β
  | done a, f => f a
  | fail e, _ => .fail e
  | step x more, f => .step x fun b => (more b).bind f
  | enter r more, f => .enter r fun b => (more b).bind f

instance : Monad Plan where
  pure := done
  bind := bind

/-- What a plan does, if its calls are answered with the allowance `n`. -/
def run [Sink σ] (n : Nat) : Plan α → Pass σ α
  | done a => pure a
  | fail e => throw e
  | step x more => x.run >>= fun b => (more b).run n
  | enter r more => r.run n >>= fun b => (more b).run n

/-! ### Classes -/

/-- A type. -/
def typeName (allowVoid : Bool) : Plan String := do
  match ← own .peek with
  | some (.keyword k) =>
    if k = .int ∨ k = .char ∨ k = .boolean ∨ (k = .void ∧ allowVoid) then
      own .advance
      return k.text
    else own (.unexpected .type)
  | _ => own .identifier

def names (type : String) (kind : Kind) : Plan Unit := do
  let span ← own .here
  let name ← own .identifier
  own (.define name type kind span)
  if ← own (.accept ',') then perform (.names type kind) else return

def declaration (kind : Kind) : Plan Unit := do
  let type ← typeName false
  perform (.names type kind)
  own (.symbol ';')

def parameters : Plan Unit := do
  let type ← typeName false
  let span ← own .here
  let name ← own .identifier
  own (.define name type .argument span)
  if ← own (.accept ',') then perform .parameters else return

def locals : Plan Unit := do
  if ← own (.test (·.isKeyword .var)) then
    own .advance
    perform (.declaration .local)
    perform .locals
  else return

/-- A method has its object as the first argument. -/
def receiver (cls : String) (kind : SubroutineKind) (span : Span) : Plan Unit :=
  if kind = .method then own (.define "this" cls .argument span) else return

def parameterList : Plan Unit := do
  if ← own (.test (·.isSymbol ')')) then return else perform .parameters

def subroutine (cls : String) (kind : SubroutineKind) : Plan Unit := do
  own .startSubroutine
  let _ ← typeName true
  let span ← own .here
  let name ← own .identifier
  receiver cls kind span
  own (.symbol '(')
  parameterList
  own (.symbol ')')
  own (.symbol '{')
  perform .locals
  own (.emit (.function (cls ++ "." ++ name) (← own (.count .local))))
  own (.emitAll (prologue kind (← own (.count .field))))
  perform (.statements cls)
  own (.symbol '}')

def members (cls : String) : Plan Unit := do
  match ← own .peek with
  | some (.keyword .static) => do
    own .advance
    perform (.declaration .static)
    perform (.members cls)
  | some (.keyword .field) => do
    own .advance
    perform (.declaration .field)
    perform (.members cls)
  | some (.keyword .constructor) => do
    own .advance
    perform (.subroutine cls .constructor)
    perform (.members cls)
  | some (.keyword .function) => do
    own .advance
    perform (.subroutine cls .function)
    perform (.members cls)
  | some (.keyword .method) => do
    own .advance
    perform (.subroutine cls .method)
    perform (.members cls)
  | _ => return

/-- The whole pass. -/
def classUnit : Plan Unit := do
  own (.keyword .class)
  let cls ← own .identifier
  own (.symbol '{')
  perform (.members cls)
  own (.symbol '}')
  if ← own (.test Cursor.atEnd) then return else own (.unexpected .endOfFile)

/-! ### Statements -/

def letStatement (cls : String) : Plan Unit := do
  let span ← own .here
  let name ← own .identifier
  let target ← own (.resolve name span)
  if ← own (.accept '[') then
    own (.emit target.push)
    perform (.expression cls)
    own (.symbol ']')
    own (.emit (.arithmetic .add))
    own (.symbol '=')
    perform (.expression cls)
    own (.symbol ';')
    own (.emitAll storeElement)
  else
    own (.symbol '=')
    perform (.expression cls)
    own (.symbol ';')
    own (.emit target.pop)

def doStatement (cls : String) : Plan Unit := do
  let name ← own .identifier
  perform (.call cls name)
  own (.symbol ';')
  own (.emit (.pop .temp 0))

/-- The value that a subroutine returns. -/
def returned (cls : String) : Plan Unit := do
  if ← own (.test (·.isSymbol ';')) then own (.emit (.push .constant 0))
  else perform (.expression cls)

def returnStatement (cls : String) : Plan Unit := do
  returned cls
  own (.symbol ';')
  own (.emit .return)

def condition (cls label : String) : Plan Unit := do
  own (.symbol '(')
  perform (.expression cls)
  own (.symbol ')')
  own (.emitAll [.arithmetic .not, .ifGoto label])

def block (cls : String) : Plan Unit := do
  own (.symbol '{')
  perform (.statements cls)
  own (.symbol '}')

/-- What stands after `else`, if anything. -/
def elsePart (cls : String) : Plan Unit := do
  if ← own (.test (·.isKeyword .else)) then
    own .advance
    perform (.block cls)
  else return

def ifStatement (cls : String) : Plan Unit := do
  let otherwise ← own (.freshLabel cls)
  let done ← own (.freshLabel cls)
  perform (.condition cls otherwise)
  perform (.block cls)
  own (.emitAll [.goto done, .label otherwise])
  elsePart cls
  own (.emit (.label done))

def whileStatement (cls : String) : Plan Unit := do
  let top ← own (.freshLabel cls)
  let done ← own (.freshLabel cls)
  own (.emit (.label top))
  perform (.condition cls done)
  perform (.block cls)
  own (.emitAll [.goto top, .label done])

def statements (cls : String) : Plan Unit := do
  match ← own .peek with
  | some (.keyword .let) => do
    own .advance
    perform (.letStatement cls)
    perform (.statements cls)
  | some (.keyword .if) => do
    own .advance
    perform (.ifStatement cls)
    perform (.statements cls)
  | some (.keyword .while) => do
    own .advance
    perform (.whileStatement cls)
    perform (.statements cls)
  | some (.keyword .do) => do
    own .advance
    perform (.doStatement cls)
    perform (.statements cls)
  | some (.keyword .return) => do
    own .advance
    perform (.returnStatement cls)
    perform (.statements cls)
  | _ => return

/-! ### Expressions -/

def expression (cls : String) : Plan Unit := do
  perform (.term cls)
  perform (.operators cls)

def operators (cls : String) : Plan Unit := do
  match ← own .peek with
  | some (.symbol c) =>
    match operator? c with
    | some i => do
      own .advance
      perform (.term cls)
      own (.emit i)
      perform (.operators cls)
    | none => return
  | _ => return

/-- The code of a string constant. -/
def stringConstant (s : String) (span : Span) : Plan Unit :=
  if isEncodable s then own (.emitAll (stringCode s)) else .fail (.tooMany .characters span)

/-- What follows a name at the start of a term. -/
def afterName (cls name : String) (span : Span) : Plan Unit := do
  match ← own .peek with
  | some (.symbol '(') | some (.symbol '.') => perform (.call cls name)
  | some (.symbol '[') => do
    let base ← own (.resolve name span)
    own .advance
    own (.emit base.push)
    perform (.expression cls)
    own (.symbol ']')
    own (.emitAll [.arithmetic .add, .pop .pointer 1, .push .that 0])
  | _ => do
    let v ← own (.resolve name span)
    own (.emit v.push)

def term (cls : String) : Plan Unit := do
  let span ← own .here
  match ← own .peek with
  | some (.int k) => do
    own .advance
    own (.emit (.push .constant k))
  | some (.string s) => do
    own .advance
    stringConstant s span
  | some (.keyword .this) => do
    own (.emit (.push .pointer 0))
    own .advance
  | some (.keyword .null) | some (.keyword .false) => do
    own (.emit (.push .constant 0))
    own .advance
  | some (.keyword .true) => do
    own (.emitAll [.push .constant 0, .arithmetic .not])
    own .advance
  | some (.identifier name) => do
    own .advance
    afterName cls name span
  | some (.symbol '(') => do
    own .advance
    perform (.expression cls)
    own (.symbol ')')
  | some (.symbol '-') => do
    own .advance
    perform (.term cls)
    own (.emit (.arithmetic .neg))
  | some (.symbol '~') => do
    own .advance
    perform (.term cls)
    own (.emit (.arithmetic .not))
  | _ => own (.unexpected .term)

/-- What is called, and the number of arguments passed unseen. -/
def callee (cls name : String) : Plan (String × Nat) := do
  if ← own (.accept '.') then
    let subroutine ← own .identifier
    match ← own (.lookup name) with
    | some v => do
      own (.emit v.push)
      return (v.type ++ "." ++ subroutine, 1)
    | none => return (name ++ "." ++ subroutine, 0)
  else
    own (.emit (.push .pointer 0))
    return (cls ++ "." ++ name, 1)

def argumentList (cls : String) : Plan Nat := do
  if ← own (.test (·.isSymbol ')')) then return 0 else perform (.arguments cls 0)

def call (cls name : String) : Plan Unit := do
  let span ← own .here
  let (target, unseen) ← callee cls name
  own (.symbol '(')
  let seen ← argumentList cls
  own (.symbol ')')
  if seen + unseen ≤ maxArguments then own (.emit (.call target (seen + unseen)))
  else .fail (.tooMany .arguments span)

def arguments (cls : String) (before : Nat) : Plan Nat := do
  let span ← own .here
  perform (.expression cls)
  if before < maxArguments then
    if ← own (.accept ',') then perform (.arguments cls (before + 1)) else return before + 1
  else .fail (.tooMany .arguments span)

end Plan

/-- The plan of a routine. -/
def Routine.plan : Routine α → Plan α
  | members cls => .members cls
  | declaration kind => .declaration kind
  | names type kind => .names type kind
  | subroutine cls kind => .subroutine cls kind
  | parameters => .parameters
  | locals => .locals
  | statements cls => .statements cls
  | letStatement cls => .letStatement cls
  | ifStatement cls => .ifStatement cls
  | whileStatement cls => .whileStatement cls
  | doStatement cls => .doStatement cls
  | returnStatement cls => .returnStatement cls
  | condition cls label => .condition cls label
  | block cls => .block cls
  | expression cls => .expression cls
  | operators cls => .operators cls
  | term cls => .term cls
  | call cls name => .call cls name
  | arguments cls before => .arguments cls before

/-! ## Plans do what the functions do -/

namespace Plan

variable [Sink σ] (n : Nat)

section Rules

theorem run_pure (a : α) : (pure a : Plan α).run n = (pure a : Pass σ α) :=
  rfl

theorem run_fail (e : CompileError) : (fail e : Plan α).run n = (throw e : Pass σ α) :=
  rfl

theorem run_own (x : Primitive α) : (own x).run n = (x.run : Pass σ α) :=
  bind_pure x.run

theorem run_perform (r : Routine α) : (perform r).run n = (r.run n : Pass σ α) :=
  bind_pure (r.run n)

theorem run_bind (x : Plan α) (f : α → Plan β) :
    (x >>= f).run n = (x.run n >>= fun a => (f a).run n : Pass σ β) := by
  induction x with
  | done a => rfl
  | fail e => rfl
  | step x more ih =>
    refine Eq.trans ?_ (bind_assoc _ _ _).symm
    exact bind_congr ih
  | enter r more ih =>
    refine Eq.trans ?_ (bind_assoc _ _ _).symm
    exact bind_congr ih

theorem run_ite (c : Prop) [Decidable c] (x y : Plan α) :
    (if c then x else y).run n = (if c then x.run n else y.run n : Pass σ α) := by
  split <;> rfl

end Rules

theorem run_typeName (allowVoid : Bool) :
    ((typeName allowVoid).run n : Pass σ String) = Pass.typeName allowVoid := by
  simp only [typeName, Pass.typeName, run_bind, run_own, Primitive.run]
  refine bind_congr fun k => ?_
  split <;> simp only [run_ite, run_bind, run_own, run_pure, Primitive.run]

theorem run_names (type : String) (kind : Kind) :
    ((names type kind).run n : Pass σ Unit) = Pass.names type kind (n + 1) := by
  simp only [names, Pass.names, run_bind, run_own, run_ite, run_perform, run_pure, Primitive.run,
    Routine.run]

theorem run_declaration (kind : Kind) :
    ((declaration kind).run n : Pass σ Unit) = Pass.declaration kind n := by
  simp only [declaration, Pass.declaration, run_typeName, run_bind, run_own, run_perform,
    Primitive.run, Routine.run]

theorem run_parameters : (parameters.run n : Pass σ Unit) = Pass.parameters (n + 1) := by
  simp only [parameters, Pass.parameters, run_typeName, run_bind, run_own, run_ite, run_perform,
    run_pure, Primitive.run, Routine.run]

theorem run_locals : (locals.run n : Pass σ Unit) = Pass.locals (n + 1) := by
  simp only [locals, Pass.locals, run_bind, run_own, run_ite, run_perform, run_pure, Primitive.run,
    Routine.run, bind_assoc, pure_bind]

theorem run_subroutine (cls : String) (kind : SubroutineKind) :
    ((subroutine cls kind).run n : Pass σ Unit) = Pass.subroutine cls kind n := by
  rw [Pass.subroutine_eq]
  simp only [subroutine, receiver, parameterList, Pass.receiver, Pass.parameterList, Pass.body,
    run_typeName, run_bind, run_own, run_ite, run_perform, run_pure, Primitive.run, Routine.run,
    bind_assoc, pure_bind]

theorem run_members (cls : String) :
    ((members cls).run n : Pass σ Unit) = Pass.members cls (n + 1) := by
  simp only [members, Pass.members, run_bind, run_own, Primitive.run]
  refine bind_congr fun k => ?_
  split <;> simp only [run_bind, run_own, run_perform, run_pure, Primitive.run, Routine.run]

theorem run_classUnit : (classUnit.run n : Pass σ Unit) = Pass.classUnit n := by
  simp only [classUnit, Pass.classUnit, run_bind, run_own, run_ite, run_perform, run_pure,
    Primitive.run, Routine.run, bind_assoc, pure_bind]

theorem run_letStatement (cls : String) :
    ((letStatement cls).run n : Pass σ Unit) = Pass.letStatement cls n := by
  simp only [letStatement, Pass.letStatement, run_bind, run_own, run_ite, run_perform,
    Primitive.run, Routine.run]

theorem run_doStatement (cls : String) :
    ((doStatement cls).run n : Pass σ Unit) = Pass.doStatement cls n := by
  simp only [doStatement, Pass.doStatement, run_bind, run_own, run_perform, Primitive.run,
    Routine.run]

theorem run_returnStatement (cls : String) :
    ((returnStatement cls).run n : Pass σ Unit) = Pass.returnStatement cls n := by
  simp only [returnStatement, returned, Pass.returnStatement, run_bind, run_own, run_ite,
    run_perform, Primitive.run, Routine.run, bind_assoc, pure_bind, Pass.ite_bind]

theorem run_condition (cls label : String) :
    ((condition cls label).run n : Pass σ Unit) = Pass.condition cls n label := by
  simp only [condition, Pass.condition, run_bind, run_own, run_perform, Primitive.run, Routine.run]

theorem run_block (cls : String) :
    ((block cls).run n : Pass σ Unit) = Pass.block cls (n + 1) := by
  simp only [block, Pass.block, run_bind, run_own, run_perform, Primitive.run, Routine.run]

theorem run_ifStatement (cls : String) :
    ((ifStatement cls).run n : Pass σ Unit) = Pass.ifStatement cls (n + 1) := by
  rw [Pass.ifStatement_eq]
  simp only [ifStatement, elsePart, Pass.ifStart, Pass.elsePart, run_bind, run_own, run_ite,
    run_perform, run_pure, Primitive.run, Routine.run, bind_assoc, pure_bind]

theorem run_whileStatement (cls : String) :
    ((whileStatement cls).run n : Pass σ Unit) = Pass.whileStatement cls (n + 1) := by
  simp only [whileStatement, Pass.whileStatement, run_bind, run_own, run_perform, Primitive.run,
    Routine.run]

theorem run_statements (cls : String) :
    ((statements cls).run n : Pass σ Unit) = Pass.statements cls (n + 1) := by
  simp only [statements, Pass.statements, run_bind, run_own, Primitive.run]
  refine bind_congr fun k => ?_
  split <;> simp only [run_bind, run_own, run_perform, run_pure, Primitive.run, Routine.run]

theorem run_expression (cls : String) :
    ((expression cls).run n : Pass σ Unit) = Pass.expression cls (n + 1) := by
  simp only [expression, Pass.expression, run_bind, run_perform, Routine.run]

theorem run_operators (cls : String) :
    ((operators cls).run n : Pass σ Unit) = Pass.operators cls (n + 1) := by
  simp only [operators, Pass.operators, run_bind, run_own, Primitive.run]
  refine bind_congr fun k => ?_
  cases k with
  | none => rfl
  | some kind =>
    cases kind with
    | symbol c =>
      cases found : operator? c with
      | none => simp only [found, run_pure]
      | some i => simp only [found, run_bind, run_own, run_perform, Primitive.run, Routine.run]
    | _ => rfl

theorem run_stringConstant (s : String) (span : Span) :
    ((stringConstant s span).run n : Pass σ Unit) = Pass.stringConstant s span := by
  simp only [stringConstant, Pass.stringConstant, run_ite, run_own, run_fail, Primitive.run]

theorem run_term (cls : String) :
    ((term cls).run n : Pass σ Unit) = Pass.term cls (n + 1) := by
  simp only [term, Pass.term, run_bind, run_own, Primitive.run]
  refine bind_congr fun span => bind_congr fun k => ?_
  split
  case h_7 name =>
    simp only [afterName, run_bind, run_own, Primitive.run]
    refine bind_congr fun _ => bind_congr fun k => ?_
    split <;> simp only [run_bind, run_own, run_perform, Primitive.run, Routine.run]
  all_goals simp only [run_bind, run_own, run_perform, run_stringConstant, Primitive.run,
    Routine.run]

theorem run_callee (cls name : String) :
    ((callee cls name).run n : Pass σ (String × Nat)) = Pass.callee cls name := by
  simp only [callee, Pass.callee, run_bind, run_own, run_ite, run_pure, Primitive.run]
  refine bind_congr fun found => ?_
  split
  · refine bind_congr fun sub => bind_congr fun v => ?_
    split <;> simp only [run_bind, run_own, run_pure, Primitive.run]
  · rfl

theorem run_call (cls name : String) :
    ((call cls name).run n : Pass σ Unit) = Pass.call cls name (n + 1) := by
  rw [Pass.call_eq]
  simp only [call, argumentList, Pass.argumentList, run_callee, run_bind, run_own, run_ite,
    run_perform, run_pure, run_fail, Primitive.run, Routine.run, bind_assoc, pure_bind]

theorem run_arguments (cls : String) (before : Nat) :
    ((arguments cls before).run n : Pass σ Nat) = Pass.arguments cls before (n + 1) := by
  simp only [arguments, Pass.arguments, run_bind, run_own, run_ite, run_perform, run_pure, run_fail,
    Primitive.run, Routine.run]

end Plan

/-- A function with no allowance left fails. With an allowance `n` it does what its plan does if
the calls are answered with the allowance `n`, or with one less. -/
theorem Routine.run_eq [Sink σ] (r : Routine α) (n : Nat) :
    (n = 0 ∧ (r.run n : Pass σ α) = Pass.exhausted) ∨
      ∃ m, m ≤ n ∧ n ≤ m + 1 ∧ (r.run n : Pass σ α) = r.plan.run m := by
  have lower {x : Plan α} {f : Nat → Pass σ α} (zero : f 0 = Pass.exhausted)
      (succ : ∀ m, x.run m = f (m + 1)) :
      (n = 0 ∧ f n = Pass.exhausted) ∨ ∃ m, m ≤ n ∧ n ≤ m + 1 ∧ f n = x.run m := by
    cases n with
    | zero => exact .inl ⟨rfl, zero⟩
    | succ m => exact .inr ⟨m, Nat.le_succ m, Nat.le_refl _, (succ m).symm⟩
  have keep {x : Plan α} {f : Nat → Pass σ α} (same : ∀ m, x.run m = f m) :
      (n = 0 ∧ f n = Pass.exhausted) ∨ ∃ m, m ≤ n ∧ n ≤ m + 1 ∧ f n = x.run m :=
    .inr ⟨n, Nat.le_refl n, Nat.le_succ n, (same n).symm⟩
  cases r with
  | members cls => exact lower rfl (Plan.run_members · cls)
  | declaration kind => exact keep (Plan.run_declaration · kind)
  | names type kind => exact lower rfl (Plan.run_names · type kind)
  | subroutine cls kind => exact keep (Plan.run_subroutine · cls kind)
  | parameters => exact lower rfl Plan.run_parameters
  | locals => exact lower rfl Plan.run_locals
  | statements cls => exact lower rfl (Plan.run_statements · cls)
  | letStatement cls => exact keep (Plan.run_letStatement · cls)
  | ifStatement cls => exact lower rfl (Plan.run_ifStatement · cls)
  | whileStatement cls => exact lower rfl (Plan.run_whileStatement · cls)
  | doStatement cls => exact keep (Plan.run_doStatement · cls)
  | returnStatement cls => exact keep (Plan.run_returnStatement · cls)
  | condition cls label => exact keep (Plan.run_condition · cls label)
  | block cls => exact lower rfl (Plan.run_block · cls)
  | expression cls => exact lower rfl (Plan.run_expression · cls)
  | operators cls => exact lower rfl (Plan.run_operators · cls)
  | term cls => exact lower rfl (Plan.run_term · cls)
  | call cls name => exact lower rfl (Plan.run_call · cls name)
  | arguments cls before => exact lower rfl (Plan.run_arguments · cls before)

end Jack
