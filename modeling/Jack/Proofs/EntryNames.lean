import Mathlib
import Jack.Proofs.ControlFlow
import Jack.Proofs.FreshLabels

/-!
# Labels and the entries of functions

Labels and functions take their names from one stock: the class, a dot, and then `L` and a number
for a label, or the name of the subroutine for a function. Labels are numbered without a look at the
subroutines. So a label has the name of a function exactly if a subroutine is called like the part
of the label after the dot, which nothing rules out.
-/

namespace Jack

open Syntax

/-! ## One name for both -/

/-- The name of a label is that of a function if the subroutine is called `L` and the number. -/
theorem label_eq_entry {cls name : String} {i : ℕ} :
    label cls i = cls ++ "." ++ name ↔ "L" ++ i.repr = name := by
  have split : label cls i = cls ++ "." ++ ("L" ++ i.repr) := by
    have dot : (".L" : String) = "." ++ "L" := by decide
    unfold label
    rw [dot]
    simp only [String.append_assoc]
  rw [split]
  exact String.append_right_inj (cls ++ ".")

theorem mem_labelsOf_class {c : Syntax.Class} {l : String} :
    l ∈ labelsOf c.code ↔ ∃ i < 2 * branchings c.tokens, l = label c.name i := by
  rw [(closedLabels_class c).defined.mem_iff, numberedLabels, List.mem_map]
  constructor
  · rintro ⟨i, hi, rfl⟩
    obtain ⟨-, bound⟩ := List.mem_range'_1.1 hi
    exact ⟨i, by omega, rfl⟩
  · rintro ⟨i, bound, rfl⟩
    exact ⟨i, List.mem_range'_1.2 ⟨by omega, by omega⟩, rfl⟩

/-- The names that are both defined by a label and entered as a function. -/
theorem label_and_entry_iff {c : Syntax.Class} {names : List String}
    (functions : functionsOf c.code = names.map fun s => c.name ++ "." ++ s) (l : String) :
    l ∈ labelsOf c.code ∧ l ∈ functionsOf c.code ↔
      ∃ i < 2 * branchings c.tokens, "L" ++ i.repr ∈ names ∧ l = label c.name i := by
  rw [mem_labelsOf_class, functions]
  constructor
  · rintro ⟨⟨i, bound, rfl⟩, entry⟩
    obtain ⟨name, mem, same⟩ := List.mem_map.1 entry
    obtain rfl := label_eq_entry.1 same.symm
    exact ⟨i, bound, mem, rfl⟩
  · rintro ⟨i, bound, mem, rfl⟩
    refine ⟨⟨i, bound, rfl⟩, List.mem_map.2 ⟨_, mem, ?_⟩⟩
    exact (label_eq_entry.2 rfl).symm

/-! ## Compiled code -/

/-- The text of what was listed can be read back. -/
theorem compile_and_read {source : String} {code : List Instruction}
    (h : compileInto source ({} : Listing) = .ok () ⟨code.reverse⟩) :
    compile source = .ok (codeText code) ∧ readCode (codeText code) = some code := by
  have compiles := compile_of_listing h
  obtain ⟨c, code', compiled, -⟩ := exists_compiled compiles
  obtain rfl := compiled.code_unique h
  exact ⟨compiled.text, compiled.readCode_eq⟩

/-- In the code of every source that compiles, the names that a label shares with a function are
those of the labels `L0`, `L1` and so on, two for each `if` and `while`, that are also called as a
subroutine is. So no label has the name of a function exactly if no subroutine is called like
one of these labels. -/
theorem labels_apart_from_entries_iff {source text : String} (h : compile source = .ok text) :
    ∃ (tokens : List Token) (cls : String) (names : List String) (code : List Instruction),
      scan source = .ok tokens ∧ readCode text = some code ∧
      (tokens.map Token.kind)[1]? = some (.identifier cls) ∧
      subroutineNames (tokens.map Token.kind) = names.map (fun s => some (.identifier s)) ∧
      (∀ l, l ∈ labelsOf code ∧ l ∈ functionsOf code ↔
        ∃ i < 2 * branchings (tokens.map Token.kind), "L" ++ i.repr ∈ names ∧ l = label cls i) ∧
      ((∀ l ∈ labelsOf code, l ∉ functionsOf code) ↔
        ∀ i < 2 * branchings (tokens.map Token.kind), "L" ++ i.repr ∉ names) := by
  obtain ⟨c, code, compiled, rfl⟩ := exists_compiled h
  obtain ⟨tokens, scanned, same⟩ := compiled.tokens
  have read := compiled.readCode_eq
  obtain ⟨-, rfl⟩ := compiled.valid_and_code
  obtain ⟨names, functions, called⟩ := (census_class c).named
  have shared := label_and_entry_iff functions
  refine ⟨tokens, c.name, names, c.code, scanned, read, ?_⟩
  rw [← same]
  refine ⟨rfl, called, shared, ?_⟩
  constructor
  · intro apart i bound mem
    obtain ⟨defined, entered⟩ := (shared (label c.name i)).2 ⟨i, bound, mem, rfl⟩
    exact apart _ defined entered
  · intro free l defined entered
    obtain ⟨i, bound, mem, -⟩ := (shared l).1 ⟨defined, entered⟩
    exact free i bound mem

/-- Two subroutines that are called almost like the labels of the choice in the first one. -/
def nearSource : String :=
  "class A\x7bfunction int L2()\x7bif(1)\x7b\x7dreturn 2;\x7d" ++
    "function int L00()\x7breturn 3;\x7d\x7d"

/-- The code of `nearSource`. -/
def nearCode : List Instruction :=
  [.function "A.L2" 0, .push .constant 1, .arithmetic .not, .ifGoto "A.L0", .goto "A.L1",
    .label "A.L0", .label "A.L1", .push .constant 2, .return, .function "A.L00" 0,
    .push .constant 3, .return]

set_option maxRecDepth 40000 in
theorem near_emitted : compileInto nearSource ({} : Listing) = .ok () ⟨nearCode.reverse⟩ := by
  cbv

set_option maxRecDepth 40000 in
theorem near_survey : (scan nearSource).map survey =
    .ok (some (.identifier "A"), [some (.identifier "L2"), some (.identifier "L00")], 1, 2) := by
  cbv

/-- Neither a number that is too large nor one with a zero in front makes a name of a label. -/
theorem near_apart :
    compile nearSource = .ok (codeText nearCode) ∧
      ∀ l ∈ labelsOf nearCode, l ∉ functionsOf nearCode := by
  obtain ⟨compiles, code_eq⟩ := compile_and_read near_emitted
  refine ⟨compiles, ?_⟩
  obtain ⟨tokens, cls, names, code, scanned, read, -, called, -, apart⟩ :=
    labels_apart_from_entries_iff compiles
  obtain rfl := Option.some.inj (code_eq.symm.trans read)
  have surveyed := near_survey
  rw [scanned, Except.map, Except.ok.injEq] at surveyed
  simp only [survey, Prod.mk.injEq] at surveyed
  obtain ⟨-, starts, branches, -⟩ := surveyed
  have names : names = ["L2", "L00"] := by
    have injective : Function.Injective fun s => some (TokenKind.identifier s) :=
      fun s s' h => by simpa using h
    exact injective.list_map (called.symm.trans starts)
  rw [apart, branches, names]
  decide

/-- A subroutine that is called like the first label in it. -/
def clashSource : String :=
  "class A\x7bfunction int L0()\x7bif(1)\x7b\x7dreturn 2;\x7d\x7d"

/-- The code of `clashSource`. -/
def clashCode : List Instruction :=
  [.function "A.L0" 0, .push .constant 1, .arithmetic .not, .ifGoto "A.L0", .goto "A.L1",
    .label "A.L0", .label "A.L1", .push .constant 2, .return]

set_option maxRecDepth 40000 in
theorem clash_emitted : compileInto clashSource ({} : Listing) = .ok () ⟨clashCode.reverse⟩ := by
  cbv

/-- The name `A.L0` stands for the entry of a function and for a label inside it. -/
theorem clash_of_label_and_entry :
    ∃ text, compile clashSource = .ok text ∧ readCode text = some clashCode ∧
      ¬ ∀ l ∈ labelsOf clashCode, l ∉ functionsOf clashCode := by
  obtain ⟨compiles, read⟩ := compile_and_read clash_emitted
  exact ⟨_, compiles, read, by decide⟩

end Jack
