import Mathlib
import Jack.Proofs.Decoding
import Jack.Proofs.Machine.Semantics
import Jack.Proofs.Syntax.Depth
import Jack.Proofs.Syntax.Labels

/-!
# Compiled code keeps the stack in order

The depth of the stack at an instruction, counted from the top of the code, is the depth on every
way through the code that leads there. So no instruction finds too few words on the stack, and
nothing is left on it where control is passed on.
-/

namespace Jack

open Syntax

/-! ## Depth at each instruction -/

/-- Counted from the top of the code, each instruction has the words it needs, and the stack is
empty wherever control is passed on, but for the word that a jump or a return takes. -/
structure Disciplined (code : List Instruction) : Prop where
  enough : ∀ n i, code[n]? = some i → i.needs ≤ depth (code.take n)
  function : ∀ n f k, code[n]? = some (.function f k) → depth (code.take n) = 0
  label : ∀ n l, code[n]? = some (.label l) → depth (code.take n) = 0
  goto : ∀ n l, code[n]? = some (.goto l) → depth (code.take n) = 0
  ifGoto : ∀ n l, code[n]? = some (.ifGoto l) → depth (code.take (n + 1)) = 0
  leave : ∀ n, code[n]? = some .return → depth (code.take n) = 1
  done : depth code = 0

theorem depth_take_succ {code : List Instruction} {n : Nat} {i : Instruction}
    (h : code[n]? = some i) : depth (code.take (n + 1)) = depth (code.take n) + i.change := by
  rw [List.take_add_one, h, depth_append]
  simp [depth]

/-- An instruction of code that flows from an empty stack has what it needs. -/
theorem Flows.at_index {code : List Instruction} {d : Int} (h : Flows 0 code d) {n : Nat}
    {i : Instruction} (at_n : code[n]? = some i) :
    i.needs ≤ depth (code.take n) ∧ i.Pinned (depth (code.take n)) := by
  obtain ⟨inside, rfl⟩ := List.getElem?_eq_some_iff.1 at_n
  have split : code = code.take n ++ code[n] :: code.drop (n + 1) := by simp
  rw [split] at h
  obtain ⟨e, before, enough, pinned, -⟩ := flows_append.1 h
  have here : e = depth (code.take n) := by
    rw [before.depth_eq, Int.zero_add]
  rw [← here]
  exact ⟨enough, pinned⟩

theorem Flows.disciplined {code : List Instruction} (h : Flows 0 code 0) : Disciplined code where
  enough _ _ at_n := (h.at_index at_n).1
  function _ _ _ at_n := (h.at_index at_n).2
  label _ _ at_n := (h.at_index at_n).2
  goto _ _ at_n := (h.at_index at_n).2
  ifGoto n l at_n := by
    have one : depth (code.take n) = 1 := (h.at_index at_n).2
    rw [depth_take_succ at_n, one]
    rfl
  leave _ at_n := (h.at_index at_n).2
  done := by simpa using h.depth_eq.symm

/-! ## Ways through the code -/

namespace Instruction

/-- Whether control can go on to the next instruction. -/
def goesOn : Instruction → Bool
  | goto _ => false
  | «return» => false
  | _ => true

end Instruction

/-- A way through the code from the start of a subroutine leads to this instruction, and leaves so
many words on the stack. Any jump may be taken or not. -/
inductive Leads (code : List Instruction) : Nat → Int → Prop
  | enter {n k : Nat} {f : String} : code[n]? = some (.function f k) → Leads code n 0
  | next {n : Nat} {height : Int} {i : Instruction} : Leads code n height → code[n]? = some i →
      i.goesOn → Leads code (n + 1) (height + i.change)
  | jump {n m : Nat} {height : Int} {i : Instruction} {l : String} : Leads code n height →
      code[n]? = some i → i.target? = some l → code[m]? = some (.label l) →
      Leads code m (height + i.change)

/-- A jump leaves the stack empty, as the label it goes to asks for. -/
theorem Disciplined.after_jump {code : List Instruction} (h : Disciplined code) {n : Nat}
    {i : Instruction} {l : String} (at_n : code[n]? = some i) (target : i.target? = some l) :
    depth (code.take n) + i.change = 0 := by
  cases i with
  | goto l =>
    rw [h.goto n l at_n]
    rfl
  | ifGoto l => rw [← depth_take_succ at_n, h.ifGoto n l at_n]
  | _ => cases target

/-- On every way through the code the height of the stack is the depth from the top of the
code. -/
theorem Leads.height_eq {code : List Instruction} (h : Disciplined code) {n : Nat} {height : Int}
    (way : Leads code n height) : height = depth (code.take n) := by
  induction way with
  | enter at_n => rw [h.function _ _ _ at_n]
  | next _ at_n _ ih => rw [depth_take_succ at_n, ih]
  | jump _ at_n target at_m ih => rw [ih, h.after_jump at_n target, h.label _ _ at_m]

/-! ## Runs of the machine -/

namespace Machine

variable {calls : Calls} {cls : String}

theorem assign_stack {m m' : Core} {w : Word} {segment : Segment} {k : Nat}
    (h : Core.assign cls m w segment k = some m') : m'.stack = m.stack := by
  unfold Core.assign at h
  split at h <;> cases h <;> rfl

theorem arithmetic_length {command : Command} {xs ys : List Word}
    (h : arithmetic command xs = some ys) :
    (ys.length : Int) = xs.length + (Instruction.arithmetic command).change := by
  unfold arithmetic at h
  split at h <;> cases h <;> simp only [Instruction.change, List.length_cons] <;> omega

/-- What the machine does to the stack is what is counted for an instruction. -/
theorem Performs.length_eq {i : Instruction} {m m' : Core} (h : Performs calls cls i m m') :
    (m'.stack.length : Int) = m.stack.length + i.change := by
  cases i with
  | push segment k =>
    obtain ⟨w, -, rfl⟩ := h
    simp
  | pop segment k =>
    obtain ⟨w, rest, stack, assigned⟩ := h
    rw [assign_stack assigned, stack, List.length_cons]
    exact (Int.add_neg_cancel_right _ 1).symm
  | arithmetic command =>
    obtain ⟨stack, computed, rfl⟩ := h
    exact arithmetic_length computed
  | call f n =>
    obtain ⟨arguments, rest, result, shared, temp, stack, rfl, -, rfl⟩ := h
    rw [stack, List.length_cons, List.length_append, List.length_reverse, Instruction.change]
    omega
  | _ => exact h.elim

theorem Performs.goesOn {i : Instruction} {m m' : Core} (h : Performs calls cls i m m') :
    i.goesOn := by
  cases i with
  | goto l => exact h.elim
  | «return» => exact h.elim
  | _ => rfl

/-- A step of the machine follows a way through the code. -/
theorem Step.leads {code : List Instruction} {x y : State} (step : Step calls cls code x y)
    (way : Leads code x.pc x.core.stack.length) : Leads code y.pc y.core.stack.length := by
  cases step with
  | @perform pc i m m' at_pc performed =>
    rw [performed.length_eq]
    exact way.next at_pc performed.goesOn
  | label at_pc => simpa using way.next at_pc rfl
  | goto at_pc at_label => simpa using way.jump at_pc rfl at_label
  | jump at_pc stack _ at_label =>
    simpa [stack, Int.add_neg_cancel_right] using way.jump at_pc rfl at_label
  | stay at_pc stack =>
    simpa [stack, Int.add_neg_cancel_right] using way.next at_pc rfl

theorem Run.leads {code : List Instruction} {lo hi steps : Nat} {x y : State}
    (run : Run calls cls code lo hi steps x y) (way : Leads code x.pc x.core.stack.length) :
    Leads code y.pc y.core.stack.length := by
  induction run with
  | refl => exact way
  | step _ _ first _ ih => exact ih (first.leads way)

end Machine

/-! ## Compiled code -/

/-- The code of every source that compiles is disciplined. So on every way through it, and in every
run of the machine from the start of a subroutine with an empty stack, the stack has the depth that
is counted from the top of the code, and each instruction finds the words it needs. -/
theorem compile_stack_disciplined {source text : String} (h : compile source = .ok text) :
    ∃ l, compileInto source ({} : Listing) = .ok () l ∧ codeText l.code = text ∧
      readCode text = some l.code ∧ Disciplined l.code ∧
      (∀ n height, Leads l.code n height → height = depth (l.code.take n) ∧
        ∀ i, l.code[n]? = some i → i.needs ≤ height) ∧
      ∀ calls cls n f k lo hi steps (m : Machine.Core) (y : Machine.State),
        l.code[n]? = some (.function f k) → m.stack = [] →
        Machine.Run calls cls l.code lo hi steps ⟨n + 1, m⟩ y →
        y.core.stack.length = depth (l.code.take y.pc) ∧
          ∀ i, l.code[y.pc]? = some i → i.needs ≤ y.core.stack.length := by
  obtain ⟨c, code, compiled, rfl⟩ := exists_compiled h
  obtain ⟨valid, rfl⟩ := compiled.valid_and_code
  have code : (⟨c.code.reverse⟩ : Listing).code = c.code := List.reverse_reverse c.code
  refine ⟨_, compiled.emitted, by rw [code], ?_⟩
  rw [code]
  have disciplined := (flows_class valid).disciplined
  refine ⟨compiled.readCode_eq, disciplined, ?_, ?_⟩
  · intro n height way
    have here := way.height_eq disciplined
    exact ⟨here, fun i at_n => here ▸ disciplined.enough n i at_n⟩
  · intro calls cls n f k lo hi steps m y entry empty run
    have start : Leads c.code (n + 1) m.stack.length := by
      rw [empty]
      exact (Leads.enter entry).next entry rfl
    have here := (run.leads start).height_eq disciplined
    refine ⟨here, fun i at_y => ?_⟩
    have enough := disciplined.enough y.pc i at_y
    rw [← here] at enough
    exact Int.ofNat_le.1 enough

/-- A loop that assigns to an array element what a call with a string argument gives. -/
def fillSource : String :=
  "class A\x7bfield Array a;method int f(int x)" ++
    "\x7bwhile(x<9)\x7blet a[x]=f(x,\"s\");\x7dreturn x;\x7d\x7d"

/-- The code of `fillSource`. -/
def fillCode : List Instruction :=
  [.function "A.f" 0, .push .argument 0, .pop .pointer 0, .label "A.L0", .push .argument 1,
    .push .constant 9, .arithmetic .lt, .arithmetic .not, .ifGoto "A.L1", .push .this 0,
    .push .argument 1, .arithmetic .add, .push .pointer 0, .push .argument 1, .push .constant 1,
    .call "String.new" 1, .push .constant 115, .call "String.appendChar" 2, .call "A.f" 3,
    .pop .temp 0, .pop .pointer 1, .push .temp 0, .pop .that 0, .goto "A.L0", .label "A.L1",
    .push .argument 1, .return]

set_option maxRecDepth 40000 in
theorem fill_emitted : compileInto fillSource ({} : Listing) = .ok () ⟨fillCode.reverse⟩ := by
  cbv

theorem fill_disciplined : compile fillSource = .ok (codeText fillCode) ∧ Disciplined fillCode := by
  have compiled := compile_of_listing fill_emitted
  rw [Listing.code, List.reverse_reverse] at compiled
  obtain ⟨l, emitted, -, -, disciplined, -⟩ := compile_stack_disciplined compiled
  rw [fill_emitted] at emitted
  cases emitted
  rw [Listing.code, List.reverse_reverse] at disciplined
  exact ⟨compiled, disciplined⟩

end Jack
