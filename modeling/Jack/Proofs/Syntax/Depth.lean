import Jack.Proofs.Syntax.Lowering

/-!
# The depth of the stack along code

Reading code from top to bottom, each instruction needs some words on the stack and changes their
number. The code of an expression leaves one word more than it found, and the code of a statement
starts and ends with an empty stack. In the code of a class the stack is empty wherever control can
come from elsewhere.
-/

namespace Jack

namespace Instruction

/-- How many words an instruction needs on the stack. -/
@[simp]
def needs : Instruction → Nat
  | push _ _ => 0
  | pop _ _ => 1
  | arithmetic .neg => 1
  | arithmetic .not => 1
  | arithmetic _ => 2
  | label _ => 0
  | goto _ => 0
  | ifGoto _ => 1
  | call _ n => n
  | function _ _ => 0
  | «return» => 1

/-- By how much an instruction changes the number of words on the stack. -/
@[simp]
def change : Instruction → Int
  | push _ _ => 1
  | pop _ _ => -1
  | arithmetic .neg => 0
  | arithmetic .not => 0
  | arithmetic _ => -1
  | label _ => 0
  | goto _ => 0
  | ifGoto _ => -1
  | call _ n => 1 - n
  | function _ _ => 0
  | «return» => -1

/-- The depth that instructions which pass control on ask for: none but the word they take. -/
@[simp]
def Pinned : Instruction → Int → Prop
  | label _, d => d = 0
  | goto _, d => d = 0
  | function _ _, d => d = 0
  | ifGoto _, d => d = 1
  | «return», d => d = 1
  | _, _ => True

end Instruction

/-- The depth after some code that starts with an empty stack. -/
def depth : List Instruction → Int
  | [] => 0
  | i :: code => i.change + depth code

theorem depth_append (code more : List Instruction) :
    depth (code ++ more) = depth code + depth more := by
  induction code with
  | nil => rw [List.nil_append, depth, Int.zero_add]
  | cons i code ih => rw [List.cons_append, depth, ih, depth, Int.add_assoc]

/-- Read from top to bottom, the code goes from one depth to another, and each instruction has the
words it needs and the depth it asks for. -/
@[simp]
def Flows : Int → List Instruction → Int → Prop
  | d, [], d' => d = d'
  | d, i :: code, d' => i.needs ≤ d ∧ i.Pinned d ∧ Flows (d + i.change) code d'

theorem flows_append {d d' : Int} {code more : List Instruction} :
    Flows d (code ++ more) d' ↔ ∃ e, Flows d code e ∧ Flows e more d' := by
  induction code generalizing d with
  | nil => simp
  | cons i code ih => simp only [List.cons_append, Flows, ih, exists_and_left, and_assoc]

theorem Flows.append {d e d' : Int} {code more : List Instruction} (h : Flows d code e)
    (h' : Flows e more d') : Flows d (code ++ more) d' :=
  flows_append.2 ⟨e, h, h'⟩

theorem Flows.depth_eq {d d' : Int} {code : List Instruction} (h : Flows d code d') :
    d' = d + depth code := by
  induction code generalizing d with
  | nil => simpa [depth] using h.symm
  | cons i code ih => rw [ih h.2.2, depth, Int.add_assoc]

namespace Syntax

variable {s : Scope} {d : Int}

/-! ## Expressions -/

theorem flows_push {segment : Segment} {n : Nat} (room : 0 ≤ d) :
    Flows d [.push segment n] (d + 1) :=
  ⟨room, trivial, rfl⟩

theorem flows_pop {segment : Segment} {n : Nat} (room : 0 ≤ d) :
    Flows (d + 1) [.pop segment n] d := by
  simp only [Flows, Instruction.needs, Instruction.change, Instruction.Pinned, true_and]
  omega

theorem flows_call {f : String} {n : Nat} (room : 0 ≤ d) : Flows (d + n) [.call f n] (d + 1) := by
  simp only [Flows, Instruction.needs, Instruction.change, Instruction.Pinned, true_and]
  omega

/-- A variable in sight is read by one instruction. -/
theorem flows_read (name : String) (room : 0 ≤ d) :
    Flows d (s.read name) (d + (s.read name).length) := by
  cases h : s.resolve? name with
  | none => simp [Scope.read, h]
  | some v => simpa [Scope.read, h, load] using room

theorem flows_declared {name : String} (declared : s.Declares name) (room : 0 ≤ d) :
    Flows d (s.read name) (d + 1) := by
  obtain ⟨v, h⟩ := Option.isSome_iff_exists.1 declared
  simpa [Scope.read, h] using flows_read (s := s) name room

theorem flows_write {name : String} (declared : s.Declares name) (room : 0 ≤ d) :
    Flows (d + 1) (s.write name) d := by
  obtain ⟨v, h⟩ := Option.isSome_iff_exists.1 declared
  have one : s.write name = [save v] := by simp [Scope.write, h]
  rw [one]
  exact flows_pop room

theorem flows_operator (op : Operator) (room : 0 ≤ d) : Flows (d + 1 + 1) [op.code] (d + 1) := by
  cases op <;>
    simp only [Operator.code, Flows, Instruction.needs, Instruction.change, Instruction.Pinned,
      true_and] <;>
    omega

theorem flows_sign (sign : Sign) (room : 0 ≤ d) : Flows (d + 1) [sign.code] (d + 1) := by
  cases sign <;>
    simp only [Sign.code, Flows, Instruction.needs, Instruction.change, Instruction.Pinned,
      true_and] <;>
    omega

theorem flows_constant (c : Constant) (room : 0 ≤ d) : Flows d c.code (d + 1) := by
  cases c with
  | true => exact (flows_push room).append (flows_sign .tilde room)
  | false => exact flows_push room
  | null => exact flows_push room
  | this => exact flows_push room

/-- Each character is added to the string that is on the stack. -/
theorem flows_characters (cs : List Char) (room : 0 ≤ d) :
    Flows (d + 1) (cs.flatMap fun c => [.push .constant c.toNat, .call "String.appendChar" 2])
      (d + 1) := by
  induction cs with
  | nil => rfl
  | cons c cs ih =>
    rw [List.flatMap_cons]
    have push : Flows (d + 1) [.push .constant c.toNat] (d + 2) := by
      rw [show d + 2 = d + 1 + 1 by omega]
      exact flows_push (by omega)
    exact (push.append (flows_call (n := 2) room)).append ih

theorem flows_load (room : 0 ≤ d) :
    Flows (d + 1 + 1) [.arithmetic .add, .pop .pointer 1, .push .that 0] (d + 1) := by
  simp only [Flows, Instruction.needs, Instruction.change, Instruction.Pinned, true_and]
  omega

mutual

/-- A term leaves one word. -/
theorem flows_term {d : Int} (room : 0 ≤ d) (t : Term) (valid : t.Valid s) :
    Flows d (t.code s) (d + 1) := by
  cases t with
  | int n => exact flows_push room
  | string text =>
    have empty : Flows d [.push .constant text.length, .call "String.new" 1] (d + 1) :=
      (flows_push room).append (flows_call (n := 1) room)
    exact empty.append (flows_characters text.toList room)
  | constant c => exact flows_constant c room
  | var name => exact flows_declared valid room
  | element name index =>
    have base := flows_declared valid.1 room
    have offset := flows_expression (by omega : 0 ≤ d + 1) index valid.2
    exact (base.append offset).append (flows_load room)
  | call c => exact flows_invocation room c valid
  | group e => exact flows_expression room e valid
  | signed sign t => exact (flows_term room t valid).append (flows_sign sign room)

/-- An expression leaves one word. -/
theorem flows_expression {d : Int} (room : 0 ≤ d) (e : Expression) (valid : e.Valid s) :
    Flows d (e.code s) (d + 1) := by
  cases e with
  | mk first rest => exact (flows_term room first valid.1).append (flows_chain room rest valid.2)

/-- A chain replaces the word before it. -/
theorem flows_chain {d : Int} (room : 0 ≤ d) (rest : Chain) (valid : rest.Valid s) :
    Flows (d + 1) (rest.code s) (d + 1) := by
  cases rest with
  | nil => rfl
  | cons op t rest =>
    have operand := flows_term (by omega : 0 ≤ d + 1) t valid.1
    exact operand.append ((flows_operator op room).append (flows_chain room rest valid.2))

/-- A call takes its arguments, with the object that is passed unseen, and leaves one word. -/
theorem flows_invocation {d : Int} (room : 0 ≤ d) (c : Call) (valid : c.Valid s) :
    Flows d (c.code s) (d + 1) := by
  cases c with
  | own name arguments =>
    have more := flows_arguments (by omega : 0 ≤ d + 1) arguments valid.2
    have count : d + 1 + arguments.length = d + (arguments.length + 1 : Nat) := by omega
    rw [count] at more
    exact ((flows_push room).append more).append (flows_call room)
  | qualified qualifier name arguments =>
    have object := flows_read (s := s) qualifier room
    have more := flows_arguments (by omega : 0 ≤ d + (s.read qualifier).length) arguments valid.2
    have count : d + (s.read qualifier).length + arguments.length =
        d + (arguments.length + (s.read qualifier).length : Nat) := by omega
    rw [count] at more
    exact (object.append more).append (flows_call room)

/-- Each argument leaves one word. -/
theorem flows_arguments {d : Int} (room : 0 ≤ d) (arguments : Arguments)
    (valid : arguments.Valid s) : Flows d (arguments.code s) (d + arguments.length) := by
  cases arguments with
  | nil => simp [Arguments.code, Arguments.length]
  | cons e rest =>
    have first := flows_expression room e valid.1
    have more := flows_arguments (by omega : 0 ≤ d + 1) rest valid.2
    have count : d + 1 + rest.length = d + (rest.length + 1 : Nat) := by omega
    rw [count] at more
    exact first.append more

end

/-! ## Statements -/

theorem flows_condition (condition : Expression) (k : Nat) (valid : condition.Valid s) :
    Flows 0 (conditionCode s condition k) 0 := by
  have value := flows_expression (by decide : (0 : Int) ≤ 0) condition valid
  have jump : Flows (0 + 1) [.arithmetic .not, .ifGoto (label s.cls k)] 0 := by
    simp
  exact value.append jump

theorem flows_store : Flows (0 + 1 + 1)
    [.pop .temp 0, .pop .pointer 1, .push .temp 0, .pop .that 0] 0 := by
  simp

theorem flows_return : Flows (0 + 1) [.return] 0 := by
  simp

/-- Jumps and labels stand where the stack is empty. -/
theorem flows_goto_label (l l' : String) : Flows 0 [.goto l, .label l'] 0 := by
  simp

theorem flows_label (l : String) : Flows 0 [.label l] 0 := by
  simp

mutual

/-- A statement starts and ends with an empty stack. -/
theorem flows_statement (st : Statement) (k : Nat) (valid : st.Valid s) :
    Flows 0 (st.code s k) 0 := by
  have empty : (0 : Int) ≤ 0 := by decide
  have one : (0 : Int) ≤ 0 + 1 := by decide
  cases st with
  | assign name value =>
    exact (flows_expression empty value valid.2).append (flows_write valid.1 empty)
  | assignElement name index value =>
    have base := flows_declared valid.1 empty
    have place := (base.append (flows_expression one index valid.2.1)).append
      (flows_operator .add empty)
    exact (place.append (flows_expression one value valid.2.2)).append flows_store
  | «when» condition yes =>
    have body := (flows_condition condition k valid.1).append
      (flows_statements yes (k + 2) valid.2)
    exact body.append ((flows_goto_label _ _).append (flows_label _))
  | choose condition yes no =>
    have first := (flows_condition condition k valid.1).append
      (flows_statements yes (k + 2) valid.2.1)
    exact ((first.append (flows_goto_label _ _)).append
      (flows_statements no _ valid.2.2)).append (flows_label _)
  | loop condition body =>
    have test := (flows_label (label s.cls k)).append (flows_condition condition (k + 1) valid.1)
    have turn := test.append (flows_statements body (k + 2) valid.2)
    exact turn.append (flows_goto_label _ _)
  | perform call => exact (flows_invocation empty call valid).append (flows_pop empty)
  | leave value =>
    cases value with
    | none => exact (flows_push empty).append flows_return
    | some value => exact (flows_expression empty value valid).append flows_return

/-- Statements start and end with an empty stack. -/
theorem flows_statements (ss : Statements) (k : Nat) (valid : ss.Valid s) :
    Flows 0 (ss.code s k) 0 := by
  cases ss with
  | nil => rfl
  | cons first rest =>
    exact (flows_statement first k valid.1).append (flows_statements rest _ valid.2)

end

/-! ## Classes -/

theorem flows_opening (fields : Nat) (kind : SubroutineKind) : Flows 0 (opening fields kind) 0 := by
  cases kind <;> simp [opening]

theorem flows_subroutine {cls : String} {inClass : List Declaration} (r : Subroutine) (k : Nat)
    (valid : r.Valid cls inClass) : Flows 0 (r.code cls inClass k) 0 :=
  ⟨Int.le_refl 0, rfl, (flows_opening _ _).append (flows_statements r.body k valid.body)⟩

theorem flows_members {cls : String} {inClass : List Declaration} (ms : List Member) (k : Nat)
    (valid : membersValid cls inClass ms) : Flows 0 (membersCode cls inClass k ms) 0 := by
  induction ms generalizing inClass k with
  | nil => rfl
  | cons m ms ih =>
    cases m with
    | statics ds => exact ih k valid
    | fields ds => exact ih k valid
    | subroutine r => exact (flows_subroutine r k valid.1).append (ih _ valid.2)

/-- The code of a class starts and ends with an empty stack. -/
theorem flows_class {c : Class} (valid : c.Valid) : Flows 0 c.code 0 :=
  flows_members c.members 0 valid.members

end Syntax

end Jack
