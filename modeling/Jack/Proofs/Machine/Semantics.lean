import Mathlib.Logic.Function.Basic
import Jack.VM.Instruction

/-!
# The stack machine

What VM code does. Words have 16 bits, and truth is the word of all ones. A call is opaque: it
takes its arguments off the stack, leaves one word there, and may change the static variables, the
heap and the scratch words, but nothing else.

Code without jumps is executed as a whole by `Exec`. With jumps, `Step` is one instruction of a
program and `Run` some number of them, all within a part of the program.
-/

namespace Jack.Machine

/-! ## Memory -/

/-- A word of the machine. -/
abbrev Word := BitVec 16

/-- The word of a truth value. -/
def flag (b : Bool) : Word :=
  if b then 0xFFFF else 0

/-- Memory that subroutines share. -/
structure Shared where
  /-- The static variables of each class. -/
  statics : String → Nat → Word
  heap : Word → Word

/-- The memory that a subroutine sees. -/
structure Store extends Shared where
  locals : Nat → Word
  arguments : Nat → Word
  /-- Where the fields of the current object start, which is pointer 0. -/
  object : Word

/-- What instructions work on, next to the store. -/
structure Core where
  /-- The working stack, its top first. -/
  stack : List Word
  store : Store
  /-- Where the segment `that` starts, which is pointer 1. -/
  array : Word
  temp : Nat → Word

/-- What calls do. `calls f arguments before result after temp` holds if the subroutine `f`, called
where the shared memory is `before`, may return `result` and leave `after` and the scratch words
`temp` behind. -/
abbrev Calls := String → List Word → Shared → Word → Shared → (Nat → Word) → Prop

/-- The word that `push` reads in code of the class `cls`. -/
def Core.read (cls : String) (m : Core) : Segment → Nat → Option Word
  | .constant, i => some (BitVec.ofNat 16 i)
  | .argument, i => some (m.store.arguments i)
  | .local, i => some (m.store.locals i)
  | .static, i => some (m.store.statics cls i)
  | .this, i => some (m.store.heap (m.store.object + BitVec.ofNat 16 i))
  | .that, i => some (m.store.heap (m.array + BitVec.ofNat 16 i))
  | .pointer, 0 => some m.store.object
  | .pointer, 1 => some m.array
  | .pointer, _ => none
  | .temp, i => some (m.temp i)

/-- The store with another word on the heap. -/
def Store.poke (s : Store) (address w : Word) : Store :=
  { s with heap := Function.update s.heap address w }

/-- What `pop` does with the word it takes, in code of the class `cls`. -/
def Core.assign (cls : String) (m : Core) (w : Word) : Segment → Nat → Option Core
  | .constant, _ => none
  | .argument, i => some { m with store.arguments := Function.update m.store.arguments i w }
  | .local, i => some { m with store.locals := Function.update m.store.locals i w }
  | .static, i =>
    some { m with store.statics :=
      Function.update m.store.statics cls (Function.update (m.store.statics cls) i w) }
  | .this, i => some { m with store := m.store.poke (m.store.object + BitVec.ofNat 16 i) w }
  | .that, i => some { m with store := m.store.poke (m.array + BitVec.ofNat 16 i) w }
  | .pointer, 0 => some { m with store.object := w }
  | .pointer, 1 => some { m with array := w }
  | .pointer, _ => none
  | .temp, i => some { m with temp := Function.update m.temp i w }

/-! ## Instructions -/

/-- What a command does with the stack. The second operand is on top. -/
def arithmetic : Command → List Word → Option (List Word)
  | .add, y :: x :: rest => some ((x + y) :: rest)
  | .sub, y :: x :: rest => some ((x - y) :: rest)
  | .eq, y :: x :: rest => some (flag (x == y) :: rest)
  | .gt, y :: x :: rest => some (flag (y.slt x) :: rest)
  | .lt, y :: x :: rest => some (flag (x.slt y) :: rest)
  | .and, y :: x :: rest => some ((x &&& y) :: rest)
  | .or, y :: x :: rest => some ((x ||| y) :: rest)
  | .neg, x :: rest => some ((-x) :: rest)
  | .not, x :: rest => some ((~~~x) :: rest)
  | _, _ => none

variable (calls : Calls) (cls : String)

/-- What an instruction other than a jump, a label, an entry or a return does. -/
def Performs : Instruction → Core → Core → Prop
  | .push segment i, m, m' => ∃ w, m.read cls segment i = some w ∧
      m' = { m with stack := w :: m.stack }
  | .pop segment i, m, m' => ∃ w rest, m.stack = w :: rest ∧
      Core.assign cls { m with stack := rest } w segment i = some m'
  | .arithmetic command, m, m' => ∃ stack, arithmetic command m.stack = some stack ∧
      m' = { m with stack := stack }
  | .call f n, m, m' => ∃ arguments rest result shared temp,
      m.stack = arguments.reverse ++ rest ∧ arguments.length = n ∧
      calls f arguments m.store.toShared result shared temp ∧
      m' = { m with stack := result :: rest, store.toShared := shared, temp := temp }
  | _, _, _ => False

/-- The execution of code without jumps. -/
def Exec : List Instruction → Core → Core → Prop
  | [], m, m' => m = m'
  | i :: code, m, m' => ∃ m₁, Performs calls cls i m m₁ ∧ Exec code m₁ m'

theorem exec_append {code code' : List Instruction} {m m' : Core} :
    Exec calls cls (code ++ code') m m' ↔
      ∃ m₁, Exec calls cls code m m₁ ∧ Exec calls cls code' m₁ m' := by
  induction code generalizing m with
  | nil => simp [Exec]
  | cons i code ih =>
    simp only [List.cons_append, Exec, ih]
    constructor
    · rintro ⟨m₁, first, m₂, more, rest⟩
      exact ⟨m₂, ⟨m₁, first, more⟩, rest⟩
    · rintro ⟨m₂, ⟨m₁, first, more⟩, rest⟩
      exact ⟨m₁, first, m₂, more, rest⟩

/-! ## Programs -/

/-- A point of an execution: the number of the next instruction, and the rest of the state. -/
structure State where
  pc : Nat
  core : Core

/-- One instruction of a program. A jump goes to the label of its name. -/
inductive Step (program : List Instruction) : State → State → Prop
  | perform {pc : Nat} {i : Instruction} {m m' : Core} : program[pc]? = some i →
      Performs calls cls i m m' → Step program ⟨pc, m⟩ ⟨pc + 1, m'⟩
  | label {pc : Nat} {l : String} {m : Core} : program[pc]? = some (.label l) →
      Step program ⟨pc, m⟩ ⟨pc + 1, m⟩
  | goto {pc pc' : Nat} {l : String} {m : Core} : program[pc]? = some (.goto l) →
      program[pc']? = some (.label l) → Step program ⟨pc, m⟩ ⟨pc', m⟩
  | jump {pc pc' : Nat} {l : String} {m : Core} {w : Word} {rest : List Word} :
      program[pc]? = some (.ifGoto l) → m.stack = w :: rest → w ≠ 0 →
      program[pc']? = some (.label l) → Step program ⟨pc, m⟩ ⟨pc', { m with stack := rest }⟩
  | stay {pc : Nat} {l : String} {m : Core} {rest : List Word} :
      program[pc]? = some (.ifGoto l) → m.stack = 0 :: rest →
      Step program ⟨pc, m⟩ ⟨pc + 1, { m with stack := rest }⟩

/-- So many instructions, all of them between the numbers `lo` and `hi`. -/
inductive Run (program : List Instruction) (lo hi : Nat) : Nat → State → State → Prop
  | refl (x : State) : Run program lo hi 0 x x
  | step {n : Nat} {x y z : State} : lo ≤ x.pc → x.pc < hi → Step calls cls program x y →
      Run program lo hi n y z → Run program lo hi (n + 1) x z

end Jack.Machine
