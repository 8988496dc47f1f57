import Mathlib
import Jack.Proofs.Decoding
import Jack.Proofs.Syntax.Blocks

/-!
# Memory operands are in bounds

A subroutine addresses its arguments and locals, and the class variables that are declared before
it. Variables of one kind are numbered from 0, so the numbers in its code are smaller than the
number of names that are declared. The other segments are addressed at fixed places.
-/

namespace Jack

namespace Syntax

/-! ## Declared names -/

/-- The names in a declaration. -/
def Names.names (d : Names) : List String :=
  d.first :: d.more

/-- The names of a kind that a member declares for its class. -/
def Member.names : Kind → Member → List String
  | .static, statics d => d.names
  | .field, fields d => d.names
  | _, _ => []

/-- How many names of a kind are declared for a subroutine: by the members before it, or in the
subroutine. A method has its object as one more argument. -/
def Located.size (r : Located) : Kind → Nat
  | .static => (r.before.flatMap (Member.names .static)).length
  | .field => (r.before.flatMap (Member.names .field)).length
  | .argument => r.subroutine.parameters.length + if r.subroutine.kind = .method then 1 else 0
  | .local => (r.subroutine.locals.flatMap Names.names).length

theorem countKind_names (kind declared : Kind) (d : Names) :
    countKind kind (d.declarations declared) = if declared = kind then d.names.length else 0 := by
  rw [countKind, Names.declarations, List.countP_map]
  by_cases h : declared = kind <;> simp [h, Function.comp_def, Names.names]

theorem countKind_member (kind : Kind) (m : Member) :
    countKind kind m.declarations = (m.names kind).length := by
  cases m with
  | subroutine r => cases kind <;> rfl
  | statics d => cases kind <;> simp [Member.declarations, Member.names, countKind_names]
  | fields d => cases kind <;> simp [Member.declarations, Member.names, countKind_names]

theorem countKind_members (kind : Kind) (ms : List Member) :
    countKind kind (ms.flatMap Member.declarations) = (ms.flatMap (Member.names kind)).length := by
  induction ms with
  | nil => rfl
  | cons m ms ih =>
    rw [List.flatMap_cons, List.flatMap_cons, Declared.countKind_append, List.length_append, ih,
      countKind_member]

theorem countKind_locals (kind : Kind) (ds : List Names) :
    countKind kind (ds.flatMap (Names.declarations .local)) =
      if kind = .local then (ds.flatMap Names.names).length else 0 := by
  induction ds with
  | nil => simp [countKind]
  | cons d ds ih =>
    rw [List.flatMap_cons, List.flatMap_cons, Declared.countKind_append, List.length_append, ih,
      countKind_names]
    cases kind <;> rfl

theorem countKind_parameters (kind : Kind) (ps : List Parameter) :
    countKind kind (ps.map Parameter.declaration) =
      if kind = .argument then ps.length else 0 := by
  rw [countKind, List.countP_map]
  cases kind <;> simp [Function.comp_def, Parameter.declaration]

theorem flatMap_names_eq_nil {kind : Kind} (h : kind = .argument ∨ kind = .local)
    (ms : List Member) : ms.flatMap (Member.names kind) = [] := by
  refine List.flatMap_eq_nil_iff.2 fun m _ => ?_
  obtain rfl | rfl := h <;> cases m <;> rfl

/-- A kind belongs either to the class or to the subroutine. -/
theorem Located.size_eq (cls : String) (r : Located) (kind : Kind) :
    r.size kind = countKind kind (r.subroutine.declarations cls) +
      countKind kind (r.before.flatMap Member.declarations) := by
  rw [Subroutine.declarations, Declared.countKind_append, Declared.countKind_append,
    countKind_parameters, countKind_locals, countKind_members]
  cases kind with
  | static => split <;> simp [size, countKind]
  | field => split <;> simp [size, countKind]
  | argument =>
    rw [flatMap_names_eq_nil (.inl rfl)]
    split <;> simp_all [size, countKind, Nat.add_comm]
  | «local» =>
    rw [flatMap_names_eq_nil (.inr rfl)]
    split <;> simp [size, countKind]

/-! ## Variables -/

theorem index_lt_of_latest {name : String} {ds : List Declaration} {v : Variable}
    (h : latest name ds = some v) : v.index < countKind v.kind ds := by
  induction ds with
  | nil => cases h
  | cons d earlier ih =>
    rw [countKind, List.countP_cons]
    rw [latest] at h
    split at h
    · cases h
      simp [countKind]
    · exact Nat.lt_add_right _ (ih h)

/-- A name refers to a variable whose number is smaller than the size of its kind. -/
theorem Located.index_lt_size {cls name : String} {r : Located} {v : Variable}
    (h : (r.subroutine.scope cls (r.before.flatMap Member.declarations)).resolve? name = some v) :
    v.index < r.size v.kind := by
  rw [r.size_eq cls]
  obtain here | ⟨-, outside⟩ := Option.or_eq_some_iff.1 h
  · have := index_lt_of_latest here
    rw [Declared.countKind_reverse] at this
    omega
  · have := index_lt_of_latest outside
    rw [Declared.countKind_reverse] at this
    omega

end Syntax

/-! ## Operands -/

/-- A place in a segment that code may address, where there are so many variables of each kind. -/
def Segment.InRange (size : Kind → Nat) (n : Nat) : Segment → Prop
  | constant => True
  | argument => n < size .argument
  | «local» => n < size .local
  | static => n < size .static
  | this => n < size .field
  | that => n = 0
  | pointer => n = 0 ∨ n = 1
  | temp => n = 0

/-- An instruction addresses memory in range, and does not assign to a constant. -/
def Instruction.InRange (size : Kind → Nat) : Instruction → Prop
  | push segment n => segment.InRange size n
  | pop segment n => segment ≠ .constant ∧ segment.InRange size n
  | _ => True

namespace Syntax

theorem segmentOf_inRange {size : Kind → Nat} {kind : Kind} {n : Nat} (h : n < size kind) :
    (segmentOf kind).InRange size n := by
  cases kind <;> exact h

theorem InExpression.inRange {s : Scope} {size : Kind → Nat}
    (declared : ∀ name v, s.resolve? name = some v → v.index < size v.kind) {i : Instruction}
    (h : InExpression s i) : i.InRange size := by
  cases h with
  | constant n => trivial
  | arithmetic command => trivial
  | call f n => trivial
  | object => exact .inl rfl
  | address => exact ⟨by decide, .inr rfl⟩
  | element => exact rfl
  | read h => exact segmentOf_inRange (declared _ _ h)

theorem InBody.inRange {s : Scope} {size : Kind → Nat}
    (declared : ∀ name v, s.resolve? name = some v → v.index < size v.kind) {i : Instruction}
    (h : InBody s i) : i.InRange size := by
  cases h with
  | expression h => exact h.inRange declared
  | write h => exact ⟨segmentOf_ne_constant _, segmentOf_inRange (declared _ _ h)⟩
  | drop => exact ⟨by decide, rfl⟩
  | reload => exact rfl
  | store => exact ⟨by decide, rfl⟩
  | goto k => trivial
  | ifGoto k => trivial
  | label k => trivial
  | leave => trivial

/-- A method has an argument 0, which is its object. -/
theorem inRange_opening {kind : SubroutineKind} {size : Kind → Nat} (fields : Nat)
    (object : kind = .method → 0 < size .argument) :
    ∀ i ∈ opening fields kind, i.InRange size := by
  cases kind with
  | constructor => simp [opening, Instruction.InRange, Segment.InRange]
  | function => exact List.forall_mem_nil _
  | method => simpa [opening, Instruction.InRange, Segment.InRange] using object

end Syntax

/-! ## Blocks -/

/-- Code for a subroutine that makes room for its locals, has all memory operands in range, and in
a constructor makes an object with room for the fields that are declared before it. -/
structure InBounds (cls : String) (r : Syntax.Located) (block : List Instruction) : Prop where
  entry : block.head? = some (.function (cls ++ "." ++ r.subroutine.name) (r.size .local))
  operands : ∀ i ∈ block, i.InRange r.size
  object : r.subroutine.kind = .constructor →
    block.tail.take 3 = [.push .constant (r.size .field), .call "Memory.alloc" 1, .pop .pointer 0]

namespace Syntax

theorem Located.inBounds (cls : String) (r : Located) : InBounds cls r (r.code cls) := by
  -- The code is made from counts of declarations, the sizes count the names in the tree.
  have fields : countKind .field (r.before.flatMap Member.declarations) = r.size .field :=
    countKind_members .field r.before
  have locals : countKind .local (r.subroutine.declarations cls) = r.size .local := by
    rw [r.size_eq cls, countKind_members, flatMap_names_eq_nil (.inr rfl)]
    rfl
  rw [code, Subroutine.code, fields, locals]
  refine ⟨rfl, List.forall_mem_cons.2 ⟨trivial, List.forall_mem_append.2 ⟨?_, ?_⟩⟩, ?_⟩
  · -- Only a method reads an argument here, the one that is not among its parameters.
    refine inRange_opening _ fun method => ?_
    rw [size, if_pos method]
    exact Nat.succ_pos _
  · intro i hi
    exact (inBody_statements _ _ _ i hi).inRange fun name v h => index_lt_size h
  · intro constructed
    rw [constructed]
    rfl

end Syntax

/-- In the code of every source that compiles, the blocks are those of the subroutines, and all
their memory operands are in bounds. -/
theorem compile_operands_in_bounds {source text : String} (h : compile source = .ok text) :
    ∃ c code, Compiled source c code ∧ codeText code = text ∧ readCode text = some code ∧
      List.Forall₂ (InBounds c.name) c.subroutines (blocks code) := by
  obtain ⟨c, code, compiled, rfl⟩ := exists_compiled h
  obtain ⟨-, rfl⟩ := compiled.valid_and_code
  refine ⟨c, _, compiled, rfl, compiled.readCode_eq, ?_⟩
  rw [Syntax.blocks_class, List.forall₂_map_right_iff, List.forall₂_same]
  exact fun r _ => r.inBounds c.name

/-- A class with a field before its constructor, and a static variable before its method. -/
def cellSource : String :=
  "class A\x7bfield int x;constructor A new()\x7blet x=1;return this;\x7dstatic int s;" ++
    "method int f(int p)\x7bvar int u,v;let v=p;let s=v;return x;\x7d\x7d"

/-- The tree of `cellSource`. -/
def cellClass : Syntax.Class where
  name := "A"
  members :=
    [.fields ⟨.int, "x", []⟩,
      .subroutine
        { kind := .constructor, returns := .data (.named "A"), name := "new", parameters := [],
          locals := [],
          body := .cons (.assign "x" (.mk (.int 1) .nil))
            (.cons (.leave (some (.mk (.constant .this) .nil))) .nil) },
      .statics ⟨.int, "s", []⟩,
      .subroutine
        { kind := .method, returns := .data .int, name := "f", parameters := [⟨.int, "p"⟩],
          locals := [⟨.int, "u", ["v"]⟩],
          body := .cons (.assign "v" (.mk (.var "p") .nil))
            (.cons (.assign "s" (.mk (.var "v") .nil))
              (.cons (.leave (some (.mk (.var "x") .nil))) .nil)) }]

/-- The code of `cellSource`, one list for each subroutine. -/
def cellBlocks : List (List Instruction) :=
  [[.function "A.new" 0, .push .constant 1, .call "Memory.alloc" 1, .pop .pointer 0,
      .push .constant 1, .pop .this 0, .push .pointer 0, .return],
    [.function "A.f" 2, .push .argument 0, .pop .pointer 0, .push .argument 1, .pop .local 1,
      .push .local 1, .pop .static 0, .push .this 0, .return]]

set_option maxRecDepth 40000 in
theorem cell_tokens : (scan cellSource).map (List.map Token.kind) = .ok cellClass.tokens := by
  cbv

set_option maxRecDepth 40000 in
theorem cell_emitted :
    compileInto cellSource ({} : Listing) = .ok () ⟨cellBlocks.flatten.reverse⟩ := by
  cbv

theorem cell_in_bounds : List.Forall₂ (InBounds "A") cellClass.subroutines cellBlocks := by
  obtain ⟨c, code, compiled, -, -, bounds⟩ :=
    compile_operands_in_bounds (compile_of_listing cell_emitted)
  obtain ⟨tokens, scanned, same⟩ := compiled.tokens
  have whole := cell_tokens
  rw [scanned, Except.map, Except.ok.injEq, ← same] at whole
  obtain rfl := Syntax.Class.tokens_injective whole
  obtain rfl := compiled.code_unique cell_emitted
  exact bounds

end Jack
