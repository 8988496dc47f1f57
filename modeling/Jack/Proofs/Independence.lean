import Mathlib
import Jack.Proofs.Decoding
import Jack.Proofs.Lexical.Printing
import Jack.Proofs.Syntax.Blocks
import Jack.Proofs.Syntax.Renumbering
import Jack.Proofs.Syntax.Words

/-!
# Subroutines are compiled independently

A subroutine sees the class variables that are declared before it, and nothing of the subroutines
before it but how many labels they take. So its code can be found by compiling it alone: in a class
with these variables and no other subroutine, and with larger numbers in the labels.
-/

namespace Jack

namespace Syntax

/-! ## A subroutine alone -/

/-- Whether a member declares class variables. -/
def Member.isVariable : Member → Bool
  | statics _ => true
  | fields _ => true
  | subroutine _ => false

/-- A class with one subroutine, and the class variables that are declared before it. -/
def Located.alone (cls : String) (r : Located) : Class :=
  ⟨cls, r.before.filter Member.isVariable ++ [.subroutine r.subroutine]⟩

/-- How many labels the subroutines before a subroutine take: two for each `if` and `while`. -/
def Located.earlierLabels (r : Located) : Nat :=
  2 * branchings (r.before.flatMap Member.tokens)

theorem declarations_variables (ms : List Member) :
    (ms.filter Member.isVariable).flatMap Member.declarations =
      ms.flatMap Member.declarations := by
  induction ms with
  | nil => rfl
  | cons m ms ih =>
    cases m with
    | subroutine r => exact ih
    | statics d => exact congrArg (Member.declarations (.statics d) ++ ·) ih
    | fields d => exact congrArg (Member.declarations (.fields d) ++ ·) ih

theorem labels_variables (ms : List Member) :
    membersLabels (ms.filter Member.isVariable) = 0 := by
  induction ms with
  | nil => rfl
  | cons m ms ih =>
    cases m with
    | subroutine r => exact ih
    | statics d => exact (Nat.zero_add _).trans ih
    | fields d => exact (Nat.zero_add _).trans ih

theorem locatedAfter_variables (r : Subroutine) (ms before : List Member) :
    locatedAfter before (ms.filter Member.isVariable ++ [.subroutine r]) =
      [⟨before ++ ms.filter Member.isVariable, r⟩] := by
  induction ms generalizing before with
  | nil => simp [locatedAfter]
  | cons m ms ih =>
    have after := ih (before ++ [m])
    rw [List.append_assoc before] at after
    cases m with
    | subroutine r => exact ih before
    | statics d => exact after
    | fields d => exact after

/-- The only subroutine of the class is the one that it is made for. -/
theorem Located.subroutines_alone (cls : String) (r : Located) :
    (r.alone cls).subroutines = [⟨r.before.filter Member.isVariable, r.subroutine⟩] :=
  locatedAfter_variables r.subroutine r.before []

/-- A subroutine becomes the same code as alone, with larger numbers in its labels. -/
theorem Located.code_eq_renumbered (cls : String) (r : Located) :
    r.code cls = renumbered cls r.earlierLabels (r.alone cls).code := by
  have alone : (r.alone cls).code =
      r.subroutine.code cls (r.before.flatMap Member.declarations) 0 := by
    rw [code_class, r.subroutines_alone]
    simp [Located.code, declarations_variables, labels_variables, alone]
  rw [alone, renumbered_subroutine, Nat.zero_add, earlierLabels, ← labels_members]
  rfl

/-! ## Valid classes -/

theorem membersValid_iff (cls : String) (ms before : List Member) :
    membersValid cls (before.flatMap Member.declarations) ms ↔
      ∀ r ∈ locatedAfter before ms,
        r.subroutine.Valid cls (r.before.flatMap Member.declarations) := by
  induction ms generalizing before with
  | nil => simp [membersValid, locatedAfter]
  | cons m ms ih =>
    have after := ih (before ++ [m])
    rw [List.flatMap_append] at after
    cases m with
    | statics d => simpa [membersValid, locatedAfter] using after
    | fields d => simpa [membersValid, locatedAfter] using after
    | subroutine r =>
      simp only [List.flatMap_singleton, Member.declarations, List.append_nil] at after
      simp [membersValid, locatedAfter, after]

theorem before_prefix {r : Located} {ms before : List Member} (h : r ∈ locatedAfter before ms) :
    r.before ++ [.subroutine r.subroutine] <+: before ++ ms := by
  induction ms generalizing before with
  | nil => cases h
  | cons m ms ih =>
    have later (h : r ∈ locatedAfter (before ++ [m]) ms) :
        r.before ++ [.subroutine r.subroutine] <+: before ++ m :: ms := by
      simpa using ih h
    cases m with
    | statics d => exact later h
    | fields d => exact later h
    | subroutine r' =>
      obtain rfl | h := List.mem_cons.1 h
      · simp
      · exact later h

section Subroutines

variable {c : Class} {r : Located}

theorem Class.exists_after (h : r ∈ c.subroutines) :
    ∃ after, c.members = r.before ++ .subroutine r.subroutine :: after := by
  obtain ⟨after, whole⟩ := before_prefix h
  exact ⟨after, by simpa using whole.symm⟩

/-- A class has at least the variables that are declared before one of its subroutines. -/
theorem countKind_alone_le (h : r ∈ c.subroutines) (kind : Kind) :
    countKind kind ((r.alone c.name).members.flatMap Member.declarations) ≤
      countKind kind (c.members.flatMap Member.declarations) := by
  obtain ⟨after, whole⟩ := Class.exists_after h
  rw [whole, Located.alone, List.flatMap_append, List.flatMap_append, declarations_variables,
    Declared.countKind_append, Declared.countKind_append]
  exact Nat.add_le_add_left (Nat.zero_le _) _

theorem Class.Valid.alone (valid : c.Valid) (h : r ∈ c.subroutines) :
    (r.alone c.name).Valid where
  statics := (countKind_alone_le h .static).trans valid.statics
  fields := (countKind_alone_le h .field).trans valid.fields
  members := by
    have inClass := (membersValid_iff c.name c.members []).1 valid.members r h
    refine (membersValid_iff c.name _ []).2 ?_
    rw [← Class.subroutines, r.subroutines_alone, List.forall_mem_singleton,
      declarations_variables]
    exact inClass

/-- A subroutine alone has no other tokens than its class. -/
theorem tokens_alone_subset (h : r ∈ c.subroutines) : (r.alone c.name).tokens ⊆ c.tokens := by
  obtain ⟨after, whole⟩ := Class.exists_after h
  have members : (r.alone c.name).members ⊆ c.members := by
    rw [whole]
    refine List.append_subset.2 ⟨fun m hm => ?_, by simp⟩
    exact List.mem_append_left _ (List.mem_of_mem_filter hm)
  have inside : (r.alone c.name).members.flatMap Member.tokens ⊆
      c.members.flatMap Member.tokens := by
    intro k hk
    obtain ⟨m, hm, hk⟩ := List.mem_flatMap.1 hk
    exact List.mem_flatMap.2 ⟨m, members hm, hk⟩
  intro k hk
  simp only [Class.tokens, braces, List.mem_append] at hk ⊢
  exact hk.imp_right (Or.imp_left (Or.imp_right (@inside k)))

end Subroutines

end Syntax

/-! ## Sources -/

open Syntax

/-- A source has the tokens of a class. -/
def Reads (source : String) (c : Syntax.Class) : Prop :=
  ∃ tokens, scan source = .ok tokens ∧ c.tokens = tokens.map Token.kind

/-- Each subroutine of a source can be written as a source of its own. -/
theorem Reads.exists_alone {source : String} {c : Syntax.Class} (h : Reads source c) {r : Located}
    (mem : r ∈ c.subroutines) : ∃ source', Reads source' (r.alone c.name) := by
  obtain ⟨tokens, scanned, same⟩ := h
  have printable : ∀ k ∈ (r.alone c.name).tokens, Lexical.Printable k := by
    intro k hk
    refine Lexical.printable_of_scan scanned k ?_
    rw [← same]
    exact tokens_alone_subset mem hk
  let source' := String.ofList (Lexical.spaced (r.alone c.name).tokens)
  have printed : Lexical.Printed (r.alone c.name).tokens source'.toList := by
    rw [String.toList_ofList]
    exact Lexical.printed_spaced _
  obtain ⟨tokens', scanned', same'⟩ := Lexical.scan_printed printable printed
  exact ⟨source', tokens', scanned', same'.symm⟩

/-- A block of code is what a subroutine becomes alone, but for larger numbers in its labels. It
does not matter how the source with the subroutine alone is written, and there is such a source. -/
structure CompiledAlone (cls : String) (r : Located) (block : List Instruction) : Prop where
  isBlock : IsBlock block
  written : ∃ source, Reads source (r.alone cls)
  same : ∀ source, Reads source (r.alone cls) →
    ∃ code, Compiled source (r.alone cls) code ∧ block = renumbered cls r.earlierLabels code

theorem Reads.compiledAlone {source : String} {c : Syntax.Class} (h : Reads source c)
    (valid : c.Valid) {r : Located} (mem : r ∈ c.subroutines) :
    CompiledAlone c.name r (r.code c.name) where
  isBlock := isBlock_subroutine _ _ _ _
  written := h.exists_alone mem
  same _ reads := ⟨_, compiled_of_valid (valid.alone mem) reads, r.code_eq_renumbered c.name⟩

/-- The code of a class is the concatenation of one block for each of its subroutines, in order.
Each block is what the subroutine becomes in a class of the same name with only this subroutine and
the class variables before it, except that its labels are numbered past those of the subroutines
before it. So nothing that another subroutine declares can change it. -/
theorem subroutines_compile_alone {source text : String} (h : compile source = .ok text) :
    ∃ c code, Compiled source c code ∧ codeText code = text ∧ readCode text = some code ∧
      (blocks code).flatten = code ∧
      List.Forall₂ (CompiledAlone c.name) c.subroutines (blocks code) := by
  obtain ⟨c, code, compiled, rfl⟩ := exists_compiled h
  obtain ⟨valid, rfl⟩ := compiled.valid_and_code
  refine ⟨c, _, compiled, rfl, compiled.readCode_eq, flatten_blocks _, ?_⟩
  rw [blocks_class, List.forall₂_map_right_iff, List.forall₂_same]
  exact fun r mem => Reads.compiledAlone compiled.tokens valid mem

/-- A class whose method uses two class variables. A function before it has a parameter and a local
variable with the same names, and one of the class variables is declared after the function. -/
def shadowSource : String :=
  "class A\x7bstatic int x;function int f(int x)\x7bvar int y;if(x)\x7blet y=x;\x7dreturn y;\x7d" ++
    "field int y;method int g()\x7bwhile(y)\x7blet x=y;\x7dreturn x;\x7d\x7d"

/-- The tree of `shadowSource`. -/
def shadowClass : Syntax.Class where
  name := "A"
  members :=
    [.statics ⟨.int, "x", []⟩,
      .subroutine
        { kind := .function, returns := .data .int, name := "f", parameters := [⟨.int, "x"⟩],
          locals := [⟨.int, "y", []⟩],
          body := .cons
            (.when (.mk (.var "x") .nil) (.cons (.assign "y" (.mk (.var "x") .nil)) .nil))
            (.cons (.leave (some (.mk (.var "y") .nil))) .nil) },
      .fields ⟨.int, "y", []⟩,
      .subroutine
        { kind := .method, returns := .data .int, name := "g", parameters := [], locals := [],
          body := .cons
            (.loop (.mk (.var "y") .nil) (.cons (.assign "x" (.mk (.var "y") .nil)) .nil))
            (.cons (.leave (some (.mk (.var "x") .nil))) .nil) }]

/-- The code of `shadowSource`, one list for each subroutine. -/
def shadowBlocks : List (List Instruction) :=
  [[.function "A.f" 1, .push .argument 0, .arithmetic .not, .ifGoto "A.L0", .push .argument 0,
      .pop .local 0, .goto "A.L1", .label "A.L0", .label "A.L1", .push .local 0, .return],
    [.function "A.g" 0, .push .argument 0, .pop .pointer 0, .label "A.L2", .push .this 0,
      .arithmetic .not, .ifGoto "A.L3", .push .this 0, .pop .static 0, .goto "A.L2",
      .label "A.L3", .push .static 0, .return]]

set_option maxRecDepth 40000 in
theorem shadow_tokens : (scan shadowSource).map (List.map Token.kind) = .ok shadowClass.tokens := by
  cbv

set_option maxRecDepth 40000 in
theorem shadow_emitted :
    compileInto shadowSource ({} : Listing) = .ok () ⟨shadowBlocks.flatten.reverse⟩ := by
  cbv

theorem shadow_compiles_alone :
    List.Forall₂ (CompiledAlone "A") shadowClass.subroutines shadowBlocks := by
  obtain ⟨c, code, compiled, -, -, -, alone⟩ :=
    subroutines_compile_alone (compile_of_listing shadow_emitted)
  obtain rfl := compiled.class_unique shadow_tokens
  obtain rfl := compiled.code_unique shadow_emitted
  exact alone

end Jack
