import Mathlib.Data.List.SplitBy
import Jack.Proofs.Syntax.Labels

/-!
# Blocks of code

Code is cut before each `function`. The blocks of the code of a class are the codes of its
subroutines. What a subroutine becomes depends on the members that stand before it: on the variables
that they declare, and on how many labels they take.
-/

namespace Jack

/-! ## Cutting code -/

/-- Whether an instruction is the entry of a function. -/
def Instruction.isFunction : Instruction → Bool
  | function _ _ => true
  | _ => false

/-- The code from each entry of a function up to the next one, or to the end. -/
def blocks (code : List Instruction) : List (List Instruction) :=
  code.splitBy fun _ i => !i.isFunction

/-- Code that starts with the entry of a function and has no other entry. -/
def IsBlock (code : List Instruction) : Prop :=
  ∃ f n body, code = .function f n :: body ∧ ∀ i ∈ body, i.isFunction = false

theorem IsBlock.ne_nil {code : List Instruction} (h : IsBlock code) : code ≠ [] := by
  obtain ⟨f, n, body, rfl, -⟩ := h
  exact List.cons_ne_nil _ _

theorem flatten_blocks (code : List Instruction) : (blocks code).flatten = code :=
  List.flatten_splitBy _ _

theorem blocks_flatten {parts : List (List Instruction)} (h : ∀ part ∈ parts, IsBlock part) :
    blocks parts.flatten = parts := by
  refine List.splitBy_flatten (fun empty => (h [] empty).ne_nil rfl) ?_ ?_
  · intro part hpart
    obtain ⟨f, n, body, rfl, inside⟩ := h part hpart
    have others : ∀ i ∈ body, (!i.isFunction) = true := fun i hi => by rw [inside i hi]; rfl
    refine (List.pairwise_cons.2 ⟨others, ?_⟩).isChain
    exact List.pairwise_of_forall_mem_list fun _ _ i hi => others i hi
  · refine (List.pairwise_of_forall_mem_list fun part hpart next hnext => ?_).isChain
    refine ⟨(h part hpart).ne_nil, (h next hnext).ne_nil, ?_⟩
    obtain ⟨f, n, body, rfl, -⟩ := h next hnext
    rfl

namespace Syntax

/-! ## Subroutines of a class -/

/-- A subroutine of a class, and the members before it. -/
structure Located where
  before : List Member
  subroutine : Subroutine

/-- The subroutines among some members that stand after others. -/
def locatedAfter : List Member → List Member → List Located
  | _, [] => []
  | before, .subroutine r :: more => ⟨before, r⟩ :: locatedAfter (before ++ [.subroutine r]) more
  | before, m :: more => locatedAfter (before ++ [m]) more

/-- The subroutines of a class in order. -/
def Class.subroutines (c : Class) : List Located :=
  locatedAfter [] c.members

/-- The code of a subroutine where it stands. -/
def Located.code (cls : String) (r : Located) : List Instruction :=
  r.subroutine.code cls (r.before.flatMap Member.declarations) (membersLabels r.before)

theorem membersLabels_append (ms ms' : List Member) :
    membersLabels (ms ++ ms') = membersLabels ms + membersLabels ms' := by
  induction ms with
  | nil => simp [membersLabels]
  | cons m ms ih => simp [membersLabels, ih, Nat.add_assoc]

theorem membersCode_eq_flatten (cls : String) (ms before : List Member) :
    membersCode cls (before.flatMap Member.declarations) (membersLabels before) ms =
      ((locatedAfter before ms).map (Located.code cls)).flatten := by
  induction ms generalizing before with
  | nil => rfl
  | cons m ms ih =>
    have after := ih (before ++ [m])
    rw [List.flatMap_append, membersLabels_append] at after
    cases m with
    | statics d => simpa [membersCode, locatedAfter, membersLabels, Member.labels] using after
    | fields d => simpa [membersCode, locatedAfter, membersLabels, Member.labels] using after
    | subroutine r =>
      simp [membersCode, locatedAfter, membersLabels, Member.labels, Member.declarations] at after ⊢
      rw [after]
      rfl

theorem InBody.isFunction_eq {s : Scope} {i : Instruction} (h : InBody s i) :
    i.isFunction = false := by
  cases h with
  | expression h => cases h <;> rfl
  | _ => rfl

theorem isBlock_subroutine (cls : String) (inClass : List Declaration) (k : Nat) (r : Subroutine) :
    IsBlock (r.code cls inClass k) := by
  refine ⟨_, _, _, rfl, List.forall_mem_append.2 ⟨?_, fun i hi => ?_⟩⟩
  · cases r.kind <;> simp [opening, Instruction.isFunction]
  · exact (inBody_statements _ _ _ i hi).isFunction_eq

theorem code_class (c : Class) :
    c.code = (c.subroutines.map (Located.code c.name)).flatten :=
  membersCode_eq_flatten c.name c.members []

theorem mem_code_class {c : Class} {i : Instruction} :
    i ∈ c.code ↔ ∃ r ∈ c.subroutines, i ∈ r.code c.name := by
  simp [code_class, List.mem_flatten]

/-- The blocks of a class are the codes of its subroutines. -/
theorem blocks_class (c : Class) : blocks c.code = c.subroutines.map (Located.code c.name) := by
  rw [code_class, blocks_flatten]
  intro part hpart
  obtain ⟨r, -, rfl⟩ := List.mem_map.1 hpart
  exact isBlock_subroutine _ _ _ _

end Syntax

end Jack
