import Jack.Proofs.Machine.Semantics
import Jack.Proofs.Syntax.Lowering

/-!
# The meaning of expressions and statements

A big-step semantics on syntax trees. An expression has a value and may change the store through
the calls in it. Operators have no precedence: a chain is evaluated from the left. A condition
holds exactly if its value is the word of all ones. Statements end normally, or return a word.
-/

namespace Jack

/-! ## Variables and calls -/

namespace Machine

/-- The value of a variable of the class `cls` or of the current subroutine. -/
def Store.value (s : Store) (cls : String) (v : Variable) : Word :=
  match v.kind with
  | .static => s.statics cls v.index
  | .field => s.heap (s.object + BitVec.ofNat 16 v.index)
  | .argument => s.arguments v.index
  | .local => s.locals v.index

/-- The store after an assignment to a variable. -/
def Store.set (s : Store) (cls : String) (v : Variable) (w : Word) : Store :=
  match v.kind with
  | .static =>
    { s with statics := Function.update s.statics cls (Function.update (s.statics cls) v.index w) }
  | .field => s.poke (s.object + BitVec.ofNat 16 v.index) w
  | .argument => { s with arguments := Function.update s.arguments v.index w }
  | .local => { s with locals := Function.update s.locals v.index w }

end Machine

namespace Syntax

open Machine

/-- A call returns `w`. The caller keeps its own variables and its object. -/
def Returns (calls : Calls) (f : String) (arguments : List Word) (before : Store) (w : Word)
    (after : Store) : Prop :=
  ∃ shared temp, calls f arguments before.toShared w shared temp ∧
    after = { before with toShared := shared }

/-- Characters are appended to the string `x`, which each time may become another one. -/
def Appends (calls : Calls) : List Char → Word → Store → Word → Store → Prop
  | [], x, before, w, after => w = x ∧ after = before
  | c :: more, x, before, w, after => ∃ y middle,
      Returns calls "String.appendChar" [x, BitVec.ofNat 16 c.toNat] before y middle ∧
      Appends calls more y middle w after

/-! ## Expressions -/

/-- The value of a constant. -/
def Constant.value (s : Store) : Constant → Word
  | true => 0xFFFF
  | false => 0
  | null => 0
  | this => s.object

/-- What a sign does. -/
def Sign.apply (x : Word) : Sign → Word
  | minus => -x
  | tilde => ~~~x

/-- What an operator does. Products and quotients are left to the library. -/
def Operator.Gives (calls : Calls) (x y : Word) (before : Store) (w : Word) (after : Store) :
    Operator → Prop
  | add => w = x + y ∧ after = before
  | sub => w = x - y ∧ after = before
  | and => w = x &&& y ∧ after = before
  | or => w = x ||| y ∧ after = before
  | lt => w = flag (x.slt y) ∧ after = before
  | gt => w = flag (y.slt x) ∧ after = before
  | eq => w = flag (x == y) ∧ after = before
  | mul => Returns calls "Math.multiply" [x, y] before w after
  | div => Returns calls "Math.divide" [x, y] before w after

mutual

/-- A term has the value `w`. -/
def Term.Gives (calls : Calls) (s : Scope) (t : Term) (before : Store) (w : Word)
    (after : Store) : Prop :=
  match t with
  | .int n => w = BitVec.ofNat 16 n ∧ after = before
  | .string text => ∃ x middle,
      Returns calls "String.new" [BitVec.ofNat 16 text.length] before x middle ∧
      Appends calls text.toList x middle w after
  | .constant c => w = c.value before ∧ after = before
  | .var name => ∃ v, s.resolve? name = some v ∧ w = before.value s.cls v ∧
      after = before
  | .element name index => ∃ v i, s.resolve? name = some v ∧ index.Gives calls s before i after ∧
      w = after.heap (before.value s.cls v + i)
  | .call c => c.Gives calls s before w after
  | .group e => e.Gives calls s before w after
  | .signed sign t => ∃ x, t.Gives calls s before x after ∧ w = sign.apply x

/-- An expression has the value `w`. -/
def Expression.Gives (calls : Calls) (s : Scope) (e : Expression) (before : Store) (w : Word)
    (after : Store) : Prop :=
  match e with
  | .mk first rest => ∃ x middle, first.Gives calls s before x middle ∧
      rest.Gives calls s x middle w after

/-- An expression that starts with the value `x` and goes on like this has the value `w`. -/
def Chain.Gives (calls : Calls) (s : Scope) (c : Chain) (x : Word) (before : Store) (w : Word)
    (after : Store) : Prop :=
  match c with
  | .nil => w = x ∧ after = before
  | .cons op t rest => ∃ y s₁ z s₂, t.Gives calls s before y s₁ ∧
      op.Gives calls x y s₁ z s₂ ∧ rest.Gives calls s z s₂ w after

/-- A call returns `w`. What is called by name alone, or through a variable, gets an object as its
first argument. -/
def Call.Gives (calls : Calls) (s : Scope) (c : Call) (before : Store) (w : Word)
    (after : Store) : Prop :=
  match c with
  | .own name arguments => ∃ ws middle, arguments.Give calls s before ws middle ∧
      Returns calls (s.cls ++ "." ++ name) (before.object :: ws) middle w after
  | .qualified qualifier name arguments => ∃ ws middle,
      arguments.Give calls s before ws middle ∧
      match s.resolve? qualifier with
      | some v => Returns calls (v.type ++ "." ++ name) (before.value s.cls v :: ws) middle
          w after
      | none => Returns calls (qualifier ++ "." ++ name) ws middle w after

/-- Arguments have the values `ws`. They are evaluated in the order of the text. -/
def Arguments.Give (calls : Calls) (s : Scope) (as : Arguments) (before : Store) (ws : List Word)
    (after : Store) : Prop :=
  match as with
  | .nil => ws = [] ∧ after = before
  | .cons e rest => ∃ w middle more, e.Gives calls s before w middle ∧
      rest.Give calls s middle more after ∧ ws = w :: more

end

/-! ## Statements -/

/-- How statements end: normally, or by returning a word. -/
inductive Ending where
  | next (s : Store)
  | returned (w : Word) (s : Store)

/-- The executions of a loop, given the values of its condition and the outcomes of its body. -/
inductive Loop (condition : Store → Word → Store → Prop) (body : Store → Ending → Prop) :
    Store → Ending → Prop
  | done {s s₁ : Store} {w : Word} : condition s w s₁ → w ≠ 0xFFFF →
      Loop condition body s (.next s₁)
  | again {s s₁ s₂ : Store} {o : Ending} : condition s 0xFFFF s₁ → body s₁ (.next s₂) →
      Loop condition body s₂ o → Loop condition body s o
  | left {s s₁ s₂ : Store} {w : Word} : condition s 0xFFFF s₁ → body s₁ (.returned w s₂) →
      Loop condition body s (.returned w s₂)

/-- One thing after the other, unless the first one returns. -/
inductive Sequence (first rest : Store → Ending → Prop) : Store → Ending → Prop
  | next {s s₁ : Store} {o : Ending} : first s (.next s₁) → rest s₁ o → Sequence first rest s o
  | returned {s s₁ : Store} {w : Word} : first s (.returned w s₁) →
      Sequence first rest s (.returned w s₁)

/-- One thing if the condition holds, the other one if it does not. -/
inductive Branch (condition : Store → Word → Store → Prop) (yes no : Store → Ending → Prop) :
    Store → Ending → Prop
  | yes {s s₁ : Store} {o : Ending} : condition s 0xFFFF s₁ → yes s₁ o →
      Branch condition yes no s o
  | no {s s₁ : Store} {w : Word} {o : Ending} : condition s w s₁ → w ≠ 0xFFFF → no s₁ o →
      Branch condition yes no s o

mutual

/-- The executions of a statement. -/
def Statement.Runs (calls : Calls) (s : Scope) : Statement → Store → Ending → Prop
  | .assign name value => fun before o => ∃ v w after, s.resolve? name = some v ∧
      value.Gives calls s before w after ∧ o = .next (after.set s.cls v w)
  | .assignElement name index value => fun before o => ∃ v i middle w after,
      s.resolve? name = some v ∧ index.Gives calls s before i middle ∧
      value.Gives calls s middle w after ∧
      o = .next (after.poke (before.value s.cls v + i) w)
  | .when condition yes =>
    Branch (condition.Gives calls s) (yes.Runs calls s) fun before o => o = .next before
  | .choose condition yes no =>
    Branch (condition.Gives calls s) (yes.Runs calls s) (no.Runs calls s)
  | .loop condition body => Loop (condition.Gives calls s) (body.Runs calls s)
  | .perform call => fun before o => ∃ w after, call.Gives calls s before w after ∧
      o = .next after
  | .leave none => fun before o => o = .returned 0 before
  | .leave (some value) => fun before o => ∃ w after, value.Gives calls s before w after ∧
      o = .returned w after

/-- The executions of statements. -/
def Statements.Runs (calls : Calls) (s : Scope) : Statements → Store → Ending → Prop
  | .nil => fun before o => o = .next before
  | .cons first rest => Sequence (first.Runs calls s) (rest.Runs calls s)

end

end Syntax

end Jack
