import Jack.Proofs.Syntax.Tree

/-!
# Code of syntax trees

The second pass of a compiler with two passes: which trees are correct, and the code of a tree.
Both are read off the tree, construct by construct. A scope says what names refer to. It is made
from the declarations that stand before a place, of which the latest counts, and a variable has
the number of earlier declarations of its kind.
-/

namespace Jack.Syntax

/-! ## Scopes -/

/-- What a name refers to: the class it stands in, and the variables in sight. -/
structure Scope where
  cls : String
  resolve? : String → Option Variable

/-- Where the variables of a kind are. Fields are in the object that `this` points to. -/
def segmentOf : Kind → Segment
  | .static => .static
  | .field => .this
  | .argument => .argument
  | .local => .local

theorem segmentOf_ne_constant (kind : Kind) : segmentOf kind ≠ .constant := by
  cases kind <;> decide

/-- The instruction that reads a variable. -/
def load (v : Variable) : Instruction :=
  .push (segmentOf v.kind) v.index

/-- The instruction that assigns to a variable. -/
def save (v : Variable) : Instruction :=
  .pop (segmentOf v.kind) v.index

namespace Scope

/-- A name is declared. -/
def Declares (s : Scope) (name : String) : Prop :=
  (s.resolve? name).isSome

/-- The code that reads a variable. -/
def read (s : Scope) (name : String) : List Instruction :=
  ((s.resolve? name).map load).toList

/-- The code that assigns to a variable. -/
def write (s : Scope) (name : String) : List Instruction :=
  ((s.resolve? name).map save).toList

/-- The name of a subroutine called through a qualifier: of the type of a variable, or of a
class. -/
def target (s : Scope) (qualifier name : String) : String :=
  ((s.resolve? qualifier).elim qualifier Variable.type) ++ "." ++ name

end Scope

/-- A declared name. -/
structure Declaration where
  name : String
  type : String
  kind : Kind
deriving DecidableEq, Repr

/-- How many of some declarations are of a kind. -/
def countKind (kind : Kind) (ds : List Declaration) : Nat :=
  ds.countP fun d => d.kind = kind

/-- The variable that a name refers to under some declarations, the latest first. -/
def latest (name : String) : List Declaration → Option Variable
  | [] => none
  | d :: earlier =>
    if d.name = name then some ⟨d.type, d.kind, countKind d.kind earlier⟩ else latest name earlier

/-- The scope after some declarations of the class and of the current subroutine, both in the
order of the text. Those of the subroutine hide those of the class. -/
def Scope.of (cls : String) (inClass inSubroutine : List Declaration) : Scope where
  cls := cls
  resolve? name := (latest name inSubroutine.reverse).or (latest name inClass.reverse)

/-! ## Correct trees -/

mutual

/-- The names of a term that need a variable are declared, and its strings and calls are within
the limits of the machine. -/
def Term.Valid (s : Scope) : Term → Prop
  | .int _ => True
  | .string text => text.length ≤ 32767 ∧ ∀ c ∈ text.toList, c.toNat ≤ 32767
  | .constant _ => True
  | .var name => s.Declares name
  | .element name index => s.Declares name ∧ index.Valid s
  | .call c => c.Valid s
  | .group e => e.Valid s
  | .signed _ t => t.Valid s

/-- All terms are valid. -/
def Expression.Valid (s : Scope) : Expression → Prop
  | .mk first rest => first.Valid s ∧ rest.Valid s

/-- All terms are valid. -/
def Chain.Valid (s : Scope) : Chain → Prop
  | .nil => True
  | .cons _ t rest => t.Valid s ∧ rest.Valid s

/-- There are not too many arguments, with the object that is passed unseen, and they are
valid. -/
def Call.Valid (s : Scope) : Call → Prop
  | .own _ arguments => arguments.length + 1 ≤ 65535 ∧ arguments.Valid s
  | .qualified qualifier _ arguments =>
    arguments.length + (s.read qualifier).length ≤ 65535 ∧ arguments.Valid s

/-- All expressions are valid. -/
def Arguments.Valid (s : Scope) : Arguments → Prop
  | .nil => True
  | .cons e rest => e.Valid s ∧ rest.Valid s

end

mutual

/-- The targets of assignments are declared, and all expressions are valid. -/
def Statement.Valid (s : Scope) : Statement → Prop
  | .assign name value => s.Declares name ∧ value.Valid s
  | .assignElement name index value => s.Declares name ∧ index.Valid s ∧ value.Valid s
  | .when condition yes => condition.Valid s ∧ yes.Valid s
  | .choose condition yes no => condition.Valid s ∧ yes.Valid s ∧ no.Valid s
  | .loop condition body => condition.Valid s ∧ body.Valid s
  | .perform call => call.Valid s
  | .leave none => True
  | .leave (some value) => value.Valid s

/-- All statements are valid. -/
def Statements.Valid (s : Scope) : Statements → Prop
  | .nil => True
  | .cons first rest => first.Valid s ∧ rest.Valid s

end

/-! ## Code of expressions -/

/-- The instruction of a binary operator. -/
def Operator.code : Operator → Instruction
  | add => .arithmetic .add
  | sub => .arithmetic .sub
  | and => .arithmetic .and
  | or => .arithmetic .or
  | lt => .arithmetic .lt
  | gt => .arithmetic .gt
  | eq => .arithmetic .eq
  | mul => .call "Math.multiply" 2
  | div => .call "Math.divide" 2

/-- The instruction of a sign. -/
def Sign.code : Sign → Instruction
  | minus => .arithmetic .neg
  | tilde => .arithmetic .not

/-- The code of a constant. -/
def Constant.code : Constant → List Instruction
  | true => [.push .constant 0, .arithmetic .not]
  | false => [.push .constant 0]
  | null => [.push .constant 0]
  | this => [.push .pointer 0]

mutual

/-- The code of a term. -/
def Term.code (s : Scope) : Term → List Instruction
  | .int n => [.push .constant n]
  | .string text =>
    [.push .constant text.length, .call "String.new" 1] ++
      text.toList.flatMap fun c => [.push .constant c.toNat, .call "String.appendChar" 2]
  | .constant c => c.code
  | .var name => s.read name
  | .element name index =>
    s.read name ++ index.code s ++ [.arithmetic .add, .pop .pointer 1, .push .that 0]
  | .call c => c.code s
  | .group e => e.code s
  | .signed sign t => t.code s ++ [sign.code]

/-- The code of an expression. -/
def Expression.code (s : Scope) : Expression → List Instruction
  | .mk first rest => first.code s ++ rest.code s

/-- The code of a chain: each operator after its second operand. -/
def Chain.code (s : Scope) : Chain → List Instruction
  | .nil => []
  | .cons op t rest => t.code s ++ op.code :: rest.code s

/-- The code of a call: the object, if one is passed, then the arguments. -/
def Call.code (s : Scope) : Call → List Instruction
  | .own name arguments =>
    [.push .pointer 0] ++ arguments.code s ++
      [.call (s.cls ++ "." ++ name) (arguments.length + 1)]
  | .qualified qualifier name arguments =>
    s.read qualifier ++ arguments.code s ++
      [.call (s.target qualifier name) (arguments.length + (s.read qualifier).length)]

/-- The code of arguments. -/
def Arguments.code (s : Scope) : Arguments → List Instruction
  | .nil => []
  | .cons e rest => e.code s ++ rest.code s

end

/-! ## Code of statements -/

/-- The label with a number in a class. -/
def label (cls : String) (k : Nat) : String :=
  cls ++ ".L" ++ k.repr

mutual

/-- How many labels the code of a statement has. -/
def Statement.labels : Statement → Nat
  | .assign _ _ => 0
  | .assignElement _ _ _ => 0
  | .when _ yes => yes.labels + 2
  | .choose _ yes no => yes.labels + no.labels + 2
  | .loop _ body => body.labels + 2
  | .perform _ => 0
  | .leave _ => 0

/-- How many labels the code of statements has. -/
def Statements.labels : Statements → Nat
  | .nil => 0
  | .cons first rest => first.labels + rest.labels

end

/-- The code of a condition, and a jump if it does not hold. -/
def conditionCode (s : Scope) (condition : Expression) (k : Nat) : List Instruction :=
  condition.code s ++ [.arithmetic .not, .ifGoto (label s.cls k)]

mutual

/-- The code of a statement whose labels are numbered from `k`. -/
def Statement.code (s : Scope) (k : Nat) : Statement → List Instruction
  | .assign name value => value.code s ++ s.write name
  | .assignElement name index value =>
    s.read name ++ index.code s ++ [.arithmetic .add] ++ value.code s ++
      [.pop .temp 0, .pop .pointer 1, .push .temp 0, .pop .that 0]
  | .when condition yes =>
    conditionCode s condition k ++ yes.code s (k + 2) ++
      [.goto (label s.cls (k + 1)), .label (label s.cls k), .label (label s.cls (k + 1))]
  | .choose condition yes no =>
    conditionCode s condition k ++ yes.code s (k + 2) ++
      [.goto (label s.cls (k + 1)), .label (label s.cls k)] ++
      no.code s (k + 2 + yes.labels) ++ [.label (label s.cls (k + 1))]
  | .loop condition body =>
    [.label (label s.cls k)] ++ conditionCode s condition (k + 1) ++ body.code s (k + 2) ++
      [.goto (label s.cls k), .label (label s.cls (k + 1))]
  | .perform call => call.code s ++ [.pop .temp 0]
  | .leave none => [.push .constant 0, .return]
  | .leave (some value) => value.code s ++ [.return]

/-- The code of statements whose labels are numbered from `k`. -/
def Statements.code (s : Scope) (k : Nat) : Statements → List Instruction
  | .nil => []
  | .cons first rest => first.code s k ++ rest.code s (k + first.labels)

end

/-! ## Classes -/

/-- The declarations of a list of names. -/
def Names.declarations (kind : Kind) (d : Names) : List Declaration :=
  (d.first :: d.more).map fun name => ⟨name, d.type.text, kind⟩

/-- The declaration of a parameter. -/
def Parameter.declaration (q : Parameter) : Declaration :=
  ⟨q.name, q.type.text, .argument⟩

/-- The declarations in a subroutine. A method has its object as a first parameter. -/
def Subroutine.declarations (cls : String) (r : Subroutine) : List Declaration :=
  (if r.kind = .method then [⟨"this", cls, .argument⟩] else []) ++
    r.parameters.map Parameter.declaration ++ r.locals.flatMap (Names.declarations .local)

/-- The declarations that a member adds to its class. -/
def Member.declarations : Member → List Declaration
  | statics d => d.declarations .static
  | fields d => d.declarations .field
  | subroutine _ => []

/-- What the body of a subroutine refers to, where `inClass` was declared before it. -/
def Subroutine.scope (cls : String) (inClass : List Declaration) (r : Subroutine) : Scope :=
  .of cls inClass (r.declarations cls)

/-- A subroutine has not too many variables, and its body is valid. -/
structure Subroutine.Valid (cls : String) (inClass : List Declaration) (r : Subroutine) :
    Prop where
  arguments : countKind .argument (r.declarations cls) ≤ 65535
  locals : countKind .local (r.declarations cls) ≤ 65535
  body : r.body.Valid (r.scope cls inClass)

/-- Each subroutine among some members is valid where it stands, after `inClass` was declared. -/
def membersValid (cls : String) : List Declaration → List Member → Prop
  | _, [] => True
  | inClass, .subroutine r :: more => r.Valid cls inClass ∧ membersValid cls inClass more
  | inClass, m :: more => membersValid cls (inClass ++ m.declarations) more

/-- A class has not too many variables, and its subroutines are valid. -/
structure Class.Valid (c : Class) : Prop where
  statics : countKind .static (c.members.flatMap Member.declarations) ≤ 65535
  fields : countKind .field (c.members.flatMap Member.declarations) ≤ 65535
  members : membersValid c.name [] c.members

/-- What stands before the code of the body: a constructor makes an object with room for all fields,
a method takes the object that it is called on, and both point `this` to it. -/
def opening (fields : Nat) : SubroutineKind → List Instruction
  | .constructor => [.push .constant fields, .call "Memory.alloc" 1, .pop .pointer 0]
  | .function => []
  | .method => [.push .argument 0, .pop .pointer 0]

/-- The code of a subroutine whose labels are numbered from `k`. -/
def Subroutine.code (cls : String) (inClass : List Declaration) (k : Nat) (r : Subroutine) :
    List Instruction :=
  .function (cls ++ "." ++ r.name) (countKind .local (r.declarations cls)) ::
    (opening (countKind .field inClass) r.kind ++ r.body.code (r.scope cls inClass) k)

/-- The code of members after `inClass` was declared, with labels numbered from `k`. -/
def membersCode (cls : String) : List Declaration → Nat → List Member → List Instruction
  | _, _, [] => []
  | inClass, k, .subroutine r :: more =>
    r.code cls inClass k ++ membersCode cls inClass (k + r.body.labels) more
  | inClass, k, m :: more => membersCode cls (inClass ++ m.declarations) k more

/-- The code of a class. -/
def Class.code (c : Class) : List Instruction :=
  membersCode c.name [] 0 c.members

end Jack.Syntax
