import Mathlib
import Jack.Proofs.Decoding
import Jack.Proofs.Lexical.MaximalMunch
import Jack.Proofs.LimitedSinks
import Jack.Proofs.Pass.Labelled
import Jack.Proofs.Syntax.Blocks
import Jack.Proofs.Syntax.Words

/-!
# Labels are fresh and jumps are closed

The labels of a class are numbered, each is defined once and is the target of one jump, and the jump
and the label belong to the same function. Classes of different names have no label in common,
because the name of a class has no dot in it.
-/

namespace Jack

open Syntax

/-! ## Labels of different classes -/

theorem Lexical.Lexeme.dot_notMem {lexeme rest : List Char} {name : String}
    (h : Lexical.Lexeme lexeme (.identifier name) rest) : '.' ∉ name.toList := by
  cases h with
  | identifier word _ =>
    rw [String.toList_ofList, List.mem_cons]
    rintro (rfl | inside)
    · exact absurd word.start (by decide)
    · exact absurd (word.more _ inside) (by decide)

/-- The class of a label is what stands before its first dot. -/
theorem takeWhile_label {cls : String} (k : Nat) (h : '.' ∉ cls.toList) :
    (label cls k).toList.takeWhile (· ≠ '.') = cls.toList := by
  have dot : (".L".toList ++ k.repr.toList).takeWhile (· ≠ '.') = [] := by simp
  rw [label, String.toList_append, String.toList_append, List.append_assoc,
    List.takeWhile_append_of_pos, dot, List.append_nil]
  intro c hc
  exact decide_eq_true fun isDot => h (isDot ▸ hc)

theorem disjoint_numberedLabels {cls cls' : String} (h : '.' ∉ cls.toList)
    (h' : '.' ∉ cls'.toList) (other : cls' ≠ cls) (n n' : Nat) :
    (numberedLabels cls 0 n).Disjoint (numberedLabels cls' 0 n') := by
  intro l hl hl'
  obtain ⟨k, -, rfl⟩ := List.mem_map.1 hl
  obtain ⟨k', -, same⟩ := List.mem_map.1 hl'
  have names := congrArg (fun l : String => l.toList.takeWhile (· ≠ '.')) same
  simp only [takeWhile_label k h, takeWhile_label k' h'] at names
  exact other (String.toList_inj.1 names)

theorem Compiled.dot_notMem {source : String} {c : Syntax.Class} {code : List Instruction}
    (h : Compiled source c code) : '.' ∉ c.name.toList := by
  obtain ⟨tokens, scanned, same⟩ := h.tokens
  have named : .identifier c.name ∈ tokens.map Token.kind := by
    rw [← same]
    simp [Class.tokens]
  obtain ⟨t, ht, kind⟩ := List.mem_map.1 named
  obtain ⟨lexeme, rest, isLexeme⟩ := Lexical.lexeme_of_mem_scan scanned ht
  rw [kind] at isLexeme
  exact isLexeme.dot_notMem

/-! ## Labels of one class -/

/-- The labels of a class with `k` statements that branch. -/
structure ClosedLabels (cls : String) (k : Nat) (code : List Instruction) : Prop where
  /-- They are numbered from 0, and each is defined once. -/
  defined : (labelsOf code).Perm (numberedLabels cls 0 (2 * k))
  once : (labelsOf code).Nodup
  /-- Each of them is the target of one jump, and there are no other jumps. -/
  targets : (targetsOf code).Perm (labelsOf code)
  /-- The same holds of each function. -/
  together : ∀ block ∈ blocks code, (targetsOf block).Perm (labelsOf block)

theorem targetsOf_flatten {parts : List (List Instruction)}
    (h : ∀ part ∈ parts, (targetsOf part).Perm (labelsOf part)) :
    (targetsOf parts.flatten).Perm (labelsOf parts.flatten) := by
  induction parts with
  | nil => exact .refl _
  | cons part parts ih =>
    obtain ⟨first, rest⟩ := List.forall_mem_cons.1 h
    rw [List.flatten_cons, targetsOf_append, labelsOf_append]
    exact first.append (ih rest)

theorem closedLabels_class (c : Syntax.Class) :
    ClosedLabels c.name (branchings c.tokens) c.code := by
  have together : ∀ block ∈ blocks c.code, (targetsOf block).Perm (labelsOf block) := by
    rw [blocks_class]
    intro block hblock
    obtain ⟨r, -, rfl⟩ := List.mem_map.1 hblock
    exact targetsOf_subroutine _ _ _ _
  refine ⟨?_, nodup_class c, ?_, together⟩
  · rw [← labels_class]
    exact labelsOf_members c.name c.members [] 0
  · have whole : (blocks c.code).flatten = c.code := List.flatten_splitBy _ _
    have := targetsOf_flatten together
    rwa [whole] at this

/-! ## Unfinished code -/

/-- The code that is written has distinct labels, whether the compiler succeeds or fails. -/
theorem nodup_labelsOf_compileInto (source : String) :
    ∃ code, (final (compileInto source ({} : Listing))).code = code ∧
      (outcome (compileInto source ({} : Buffer))).1 = (codeText code).toUTF8 ∧
      (labelsOf code).Nodup := by
  cases read : Cursor.ofSource source with
  | error e =>
    refine ⟨[], ?_, ?_, List.nodup_nil⟩
    · rw [compileInto, read]
      rfl
    · rw [outcome_compileInto_of_error read]
      rfl
  | ok cursor =>
    refine ⟨_, ?_, ?_, nodup_labelsOf_compileClass cursor⟩
    · rw [compileInto, read]
      cases h : compileClass cursor ({} : Listing) <;> simp only [h] <;> rfl
    · rw [outcome_compileInto read, compileClass_eq_deliver, outcome_deliver_unlimited]

/-! ## Compiled code -/

/-- Labels are fresh and jumps are closed in the code of every source that compiles, and its labels
are not those of a class of another name. The labels of unfinished code are distinct too. -/
theorem compile_labels_fresh (source : String) :
    (∀ text, compile source = .ok text → ∃ c code, Compiled source c code ∧ codeText code = text ∧
      readCode text = some code ∧ ClosedLabels c.name (branchings c.tokens) code ∧
      ∀ source' c' code', Compiled source' c' code' → c'.name ≠ c.name →
        (labelsOf code).Disjoint (labelsOf code')) ∧
    ∃ code, (final (compileInto source ({} : Listing))).code = code ∧
      (outcome (compileInto source ({} : Buffer))).1 = (codeText code).toUTF8 ∧
      (labelsOf code).Nodup := by
  refine ⟨fun text h => ?_, nodup_labelsOf_compileInto source⟩
  obtain ⟨c, code, compiled, rfl⟩ := exists_compiled h
  obtain ⟨-, rfl⟩ := compiled.valid_and_code
  refine ⟨c, _, compiled, rfl, compiled.readCode_eq, closedLabels_class c,
    fun source' c' code' compiled' other => ?_⟩
  obtain ⟨-, rfl⟩ := compiled'.valid_and_code
  have apart := disjoint_numberedLabels compiled.dot_notMem compiled'.dot_notMem other
    (2 * branchings c.tokens) (2 * branchings c'.tokens)
  intro l hl hl'
  exact apart ((closedLabels_class c).defined.mem_iff.1 hl)
    ((closedLabels_class c').defined.mem_iff.1 hl')

/-- Two functions, and a loop inside a choice in the first one. -/
def nestedSource : String :=
  "class A\x7bfunction int f()\x7bif(1)\x7bwhile(2)\x7b\x7d\x7delse\x7b\x7dreturn 3;\x7d" ++
    "function int g()\x7bif(4)\x7b\x7dreturn 5;\x7d\x7d"

/-- The code of `nestedSource`. -/
def nestedCode : List Instruction :=
  [.function "A.f" 0, .push .constant 1, .arithmetic .not, .ifGoto "A.L0", .label "A.L2",
    .push .constant 2, .arithmetic .not, .ifGoto "A.L3", .goto "A.L2", .label "A.L3",
    .goto "A.L1", .label "A.L0", .label "A.L1", .push .constant 3, .return, .function "A.g" 0,
    .push .constant 4, .arithmetic .not, .ifGoto "A.L4", .goto "A.L5", .label "A.L4",
    .label "A.L5", .push .constant 5, .return]

/-- A loop in another class. -/
def loopSource : String :=
  "class B\x7bfunction int f()\x7bwhile(1)\x7b\x7dreturn 2;\x7d\x7d"

/-- The code of `loopSource`. -/
def loopCode : List Instruction :=
  [.function "B.f" 0, .label "B.L0", .push .constant 1, .arithmetic .not, .ifGoto "B.L1",
    .goto "B.L0", .label "B.L1", .push .constant 2, .return]

set_option maxRecDepth 40000 in
theorem nested_emitted : compileInto nestedSource ({} : Listing) = .ok () ⟨nestedCode.reverse⟩ := by
  cbv

set_option maxRecDepth 40000 in
theorem loop_emitted : compileInto loopSource ({} : Listing) = .ok () ⟨loopCode.reverse⟩ := by
  cbv

/-- The token that names a class, and how many statements branch. -/
def summary (tokens : List Token) : Option TokenKind × Nat :=
  ((tokens.map Token.kind)[1]?, branchings (tokens.map Token.kind))

theorem Compiled.summary_eq {source : String} {c : Syntax.Class} {code : List Instruction}
    (h : Compiled source c code) :
    (scan source).map summary = .ok (some (.identifier c.name), branchings c.tokens) := by
  obtain ⟨tokens, scanned, same⟩ := h.tokens
  rw [scanned, Except.map, summary, ← same]
  rfl

set_option maxRecDepth 40000 in
theorem nested_summary : (scan nestedSource).map summary = .ok (some (.identifier "A"), 3) := by
  cbv

set_option maxRecDepth 40000 in
theorem loop_summary : (scan loopSource).map summary = .ok (some (.identifier "B"), 1) := by
  cbv

theorem nested_closed :
    ClosedLabels "A" 3 nestedCode ∧ (labelsOf nestedCode).Disjoint (labelsOf loopCode) := by
  obtain ⟨c, code, compiled, -, -, closed, apart⟩ :=
    (compile_labels_fresh nestedSource).1 _ (compile_of_listing nested_emitted)
  obtain ⟨c', code', compiled', -⟩ := exists_compiled (compile_of_listing loop_emitted)
  have named := compiled.summary_eq
  have named' := compiled'.summary_eq
  rw [nested_summary] at named
  rw [loop_summary] at named'
  simp only [Except.ok.injEq, Prod.mk.injEq, Option.some.injEq, TokenKind.identifier.injEq]
    at named named'
  obtain rfl := compiled.code_unique nested_emitted
  obtain rfl := compiled'.code_unique loop_emitted
  rw [← named.1, ← named.2] at closed
  exact ⟨closed, apart _ _ _ compiled' (by rw [← named.1, ← named'.1]; decide)⟩

end Jack
