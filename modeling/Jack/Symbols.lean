import Jack.VM.Instruction

/-!
# Declared names

A class has static and field variables, visible from their declaration to the end of the class.
A subroutine has arguments and locals, which hide class variables of the same name and are
forgotten when the next subroutine begins. Variables of one kind are numbered from 0 in the order
of their declarations. A name declared again gets a new number, and its last declaration counts.
-/

namespace Jack

/-! ## Kinds of variable -/

/-- The kinds of variable. -/
inductive Kind where
  | static | field | argument | «local»
deriving DecidableEq, Repr

namespace Kind

/-- How a kind is called. -/
def text : Kind → String
  | static => "static"
  | field => "field"
  | argument => "argument"
  | «local» => "local"

/-- The memory segment that holds the variables of a kind. -/
def segment : Kind → Segment
  | static => .static
  | field => .this
  | argument => .argument
  | «local» => .local

end Kind

/-! ## Variables -/

/-- A declared variable. -/
structure Variable where
  type : String
  kind : Kind
  index : Nat
deriving DecidableEq, Repr

namespace Variable

/-- The instruction that reads a variable. -/
def push (v : Variable) : Instruction :=
  .push v.kind.segment v.index

/-- The instruction that assigns to a variable. -/
def pop (v : Variable) : Instruction :=
  .pop v.kind.segment v.index

end Variable

/-! ## The table of a class -/

/-- How many variables of one kind can be visible: their count is a 16-bit number. -/
def maxVariables : Nat := 65535

/-- What is declared at some place of a class: the declarations of the class and of the current
subroutine, the latest first, and how many there are of each kind. -/
structure SymbolTable where
  inClass : List (String × Variable) := []
  inSubroutine : List (String × Variable) := []
  statics : Nat := 0
  fields : Nat := 0
  arguments : Nat := 0
  locals : Nat := 0
deriving DecidableEq, Repr

namespace SymbolTable

/-- How many variables of a kind are declared. -/
def count (t : SymbolTable) : Kind → Nat
  | .static => t.statics
  | .field => t.fields
  | .argument => t.arguments
  | .local => t.locals

/-- Forgets arguments and locals, and numbers them from 0 again. -/
def startSubroutine (t : SymbolTable) : SymbolTable :=
  { t with inSubroutine := [], arguments := 0, locals := 0 }

/-- One more variable. -/
def declare (t : SymbolTable) (name : String) (v : Variable) : SymbolTable :=
  match v.kind with
  | .static => { t with inClass := (name, v) :: t.inClass, statics := t.statics + 1 }
  | .field => { t with inClass := (name, v) :: t.inClass, fields := t.fields + 1 }
  | .argument =>
    { t with inSubroutine := (name, v) :: t.inSubroutine, arguments := t.arguments + 1 }
  | .local => { t with inSubroutine := (name, v) :: t.inSubroutine, locals := t.locals + 1 }

/-- Declares a variable and gives its number, unless its kind has all the variables it can
have. -/
def define? (t : SymbolTable) (name type : String) (kind : Kind) : Option (Nat × SymbolTable) :=
  if t.count kind < maxVariables then
    some (t.count kind, t.declare name ⟨type, kind, t.count kind⟩)
  else none

/-- The variable that a name stands for: the last declaration of the subroutine counts before
that of the class. -/
def lookup (t : SymbolTable) (name : String) : Option Variable :=
  (t.inSubroutine.lookup name).or (t.inClass.lookup name)

end SymbolTable

end Jack
