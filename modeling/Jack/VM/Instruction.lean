/-!
# Code of the stack machine

Instructions of the virtual machine and their text, one instruction to a line.
-/

namespace Jack

/-! ## Segments and commands -/

/-- The memory segments that `push` and `pop` address. -/
inductive Segment where
  | constant | argument | «local» | static | this | that | pointer | temp
deriving DecidableEq, Repr

/-- The name of a segment in VM code. -/
def Segment.text : Segment → String
  | constant => "constant"
  | argument => "argument"
  | «local» => "local"
  | static => "static"
  | this => "this"
  | that => "that"
  | pointer => "pointer"
  | temp => "temp"

/-- The operations on the top of the stack. -/
inductive Command where
  | add | sub | neg | eq | gt | lt | and | or | not
deriving DecidableEq, Repr

/-- The name of an operation in VM code. -/
def Command.text : Command → String
  | add => "add"
  | sub => "sub"
  | neg => "neg"
  | eq => "eq"
  | gt => "gt"
  | lt => "lt"
  | and => "and"
  | or => "or"
  | not => "not"

/-! ## Instructions -/

/-- One instruction. -/
inductive Instruction where
  | push (segment : Segment) (index : Nat)
  | pop (segment : Segment) (index : Nat)
  | arithmetic (command : Command)
  | label (name : String)
  | goto (name : String)
  | ifGoto (name : String)
  | call (name : String) (arguments : Nat)
  | function (name : String) (locals : Nat)
  | «return»
deriving DecidableEq, Repr

namespace Instruction

/-- The words of an instruction: its name, then its operands, numbers in decimal. -/
def words : Instruction → List String
  | push segment index => ["push", segment.text, index.repr]
  | pop segment index => ["pop", segment.text, index.repr]
  | arithmetic command => [command.text]
  | label name => ["label", name]
  | goto name => ["goto", name]
  | ifGoto name => ["if-goto", name]
  | call name arguments => ["call", name, arguments.repr]
  | function name locals => ["function", name, locals.repr]
  | «return» => ["return"]

/-- An instruction is written as its words, a space between them, and a newline. -/
def line (i : Instruction) : String :=
  " ".intercalate i.words ++ "\n"

end Instruction

/-- The text of a sequence of instructions. -/
def codeText (code : List Instruction) : String :=
  String.join (code.map Instruction.line)

end Jack
