import Mathlib
import Jack.Proofs.Lexical.Printing
import Jack.Proofs.Syntax.Instructions

/-!
# Names in the code of a tree

The names of functions and labels in code are made from the identifiers of the tree, the names of
types and a few fixed names, with dots between them. So they are spelled with letters, digits,
underscores and dots.
-/

namespace Jack

/-- The name that an instruction has as an operand. -/
def Instruction.name? : Instruction → Option String
  | label name => some name
  | goto name => some name
  | ifGoto name => some name
  | call name _ => some name
  | function name _ => some name
  | _ => none

/-- A text of letters, digits, underscores and dots. -/
def Spelled (name : String) : Prop :=
  ∀ c ∈ name.toList, Scanner.isWordChar c ∨ c = '.'

instance : DecidablePred Spelled :=
  fun name => List.decidableBAll (fun c => Scanner.isWordChar c = true ∨ c = '.') name.toList

/-- The name in an instruction is spelled with letters, digits, underscores and dots. -/
def Instruction.Named (i : Instruction) : Prop :=
  ∀ name, i.name? = some name → Spelled name

/-! ## Spelling -/

theorem spelled_of_isWord {name : String} (h : Lexical.IsWord name) : Spelled name := by
  obtain ⟨c, cs, letters, start, more⟩ := h
  intro d mem
  rw [letters, List.mem_cons] at mem
  left
  obtain rfl | mem := mem
  · exact Lexical.isWordChar_of_isWordStart (Lexical.isWordStart_iff.2 start)
  · exact Lexical.isWordChar_iff.2 (more d mem)

theorem Spelled.append {name name' : String} (h : Spelled name) (h' : Spelled name') :
    Spelled (name ++ name') := by
  intro c mem
  rw [String.toList_append, List.mem_append] at mem
  exact mem.elim (h c) (h' c)

/-- Two names with a dot between them. -/
theorem Spelled.qualified {name name' : String} (h : Spelled name) (h' : Spelled name') :
    Spelled (name ++ "." ++ name') := by
  have dot : Spelled "." := by decide
  exact (h.append dot).append h'

theorem Spelled.label {cls : String} (h : Spelled cls) (k : Nat) :
    Spelled (Syntax.label cls k) := by
  have letter : Spelled ".L" := by decide
  refine (h.append letter).append fun c mem => .inl ?_
  rw [Nat.toList_repr] at mem
  exact Lexical.isWordChar_of_isDigit (Nat.isDigit_of_mem_toDigits (by decide) (by decide) mem)

namespace Instruction

@[simp] theorem named_push (segment : Segment) (n : Nat) : (push segment n).Named := by
  rintro name ⟨⟩

@[simp] theorem named_pop (segment : Segment) (n : Nat) : (pop segment n).Named := by
  rintro name ⟨⟩

@[simp] theorem named_arithmetic (command : Command) : (arithmetic command).Named := by
  rintro name ⟨⟩

@[simp] theorem named_return : «return».Named := by
  rintro name ⟨⟩

@[simp] theorem named_call {f : String} {n : Nat} : (call f n).Named ↔ Spelled f := by
  simp [Named, name?]

@[simp] theorem named_function {f : String} {n : Nat} : (function f n).Named ↔ Spelled f := by
  simp [Named, name?]

@[simp] theorem named_label {l : String} : (label l).Named ↔ Spelled l := by
  simp [Named, name?]

@[simp] theorem named_goto {l : String} : (goto l).Named ↔ Spelled l := by
  simp [Named, name?]

@[simp] theorem named_ifGoto {l : String} : (ifGoto l).Named ↔ Spelled l := by
  simp [Named, name?]

end Instruction

namespace Syntax

/-! ## Expressions -/

/-- The names that code takes from a scope are spelled. -/
structure Scope.Spelled (s : Scope) : Prop where
  cls : Jack.Spelled s.cls
  types {name : String} {v : Variable} : s.resolve? name = some v → Jack.Spelled v.type

/-- The identifiers among some tokens are spelled. -/
def Worded (kinds : List TokenKind) : Prop :=
  ∀ name, .identifier name ∈ kinds → Jack.Spelled name

@[simp] theorem worded_append {kinds kinds' : List TokenKind} :
    Worded (kinds ++ kinds') ↔ Worded kinds ∧ Worded kinds' := by
  simp [Worded, or_imp, forall_and]

@[simp] theorem worded_nil : Worded [] := by
  simp [Worded]

@[simp] theorem worded_identifier {name : String} {kinds : List TokenKind} :
    Worded (.identifier name :: kinds) ↔ Jack.Spelled name ∧ Worded kinds := by
  simp [Worded, or_imp, forall_and]

@[simp] theorem worded_symbol {c : Char} {kinds : List TokenKind} :
    Worded (.symbol c :: kinds) ↔ Worded kinds := by
  simp [Worded]

@[simp] theorem worded_keyword {k : Keyword} {kinds : List TokenKind} :
    Worded (.keyword k :: kinds) ↔ Worded kinds := by
  simp [Worded]

theorem named_read (s : Scope) (name : String) : ∀ i ∈ s.read name, i.Named := by
  cases h : s.resolve? name <;> simp [Scope.read, h, load]

theorem named_write (s : Scope) (name : String) : ∀ i ∈ s.write name, i.Named := by
  cases h : s.resolve? name <;> simp [Scope.write, h, save]

theorem named_string (s : Scope) (text : String) : ∀ i ∈ (Term.string text).code s, i.Named := by
  have make : Jack.Spelled "String.new" := by decide
  have extend : Jack.Spelled "String.appendChar" := by decide
  simp only [Term.code, List.forall_mem_append, List.forall_mem_cons, List.mem_flatMap]
  refine ⟨by simp [make], ?_⟩
  rintro i ⟨c, -, mem⟩
  revert i
  simp [extend]

theorem named_operator (op : Operator) : op.code.Named := by
  have multiply : Jack.Spelled "Math.multiply" := by decide
  have divide : Jack.Spelled "Math.divide" := by decide
  cases op <;> simp [Operator.code, multiply, divide]

variable {s : Scope}

theorem Scope.Spelled.target (spelled : s.Spelled) {qualifier name : String}
    (hq : Jack.Spelled qualifier) (hn : Jack.Spelled name) :
    Jack.Spelled (s.target qualifier name) := by
  rw [Scope.target]
  cases h : s.resolve? qualifier with
  | none => exact hq.qualified hn
  | some v => exact (spelled.types h).qualified hn

mutual

theorem named_term (spelled : s.Spelled) :
    ∀ t : Term, Worded t.tokens → ∀ i ∈ t.code s, i.Named
  | .int n, _ => by simp [Term.code]
  | .string text, _ => named_string s text
  | .constant c, _ => by cases c <;> simp [Term.code, Constant.code]
  | .var name, _ => named_read s name
  | .element name index, h => by
    simp only [Term.tokens, worded_append] at h
    rw [Term.code, List.forall_mem_append, List.forall_mem_append]
    exact ⟨⟨named_read s name, named_expression spelled index h.1.2⟩, by simp⟩
  | .call c, h => named_invocation spelled c h
  | .group e, h => by
    simp only [Term.tokens, worded_append] at h
    exact named_expression spelled e h.1.2
  | .signed sign t, h => by
    rw [Term.tokens, worded_symbol] at h
    rw [Term.code, List.forall_mem_append, List.forall_mem_singleton]
    exact ⟨named_term spelled t h, by cases sign <;> simp [Sign.code]⟩
termination_by structural t => t

theorem named_expression (spelled : s.Spelled) :
    ∀ e : Expression, Worded e.tokens → ∀ i ∈ e.code s, i.Named
  | .mk first rest, h => by
    rw [Expression.tokens, worded_append] at h
    exact List.forall_mem_append.2 ⟨named_term spelled first h.1, named_chain spelled rest h.2⟩
termination_by structural e => e

theorem named_chain (spelled : s.Spelled) :
    ∀ c : Chain, Worded c.tokens → ∀ i ∈ c.code s, i.Named
  | .nil, _ => List.forall_mem_nil _
  | .cons op t rest, h => by
    rw [Chain.tokens, worded_symbol, worded_append] at h
    rw [Chain.code, List.forall_mem_append, List.forall_mem_cons]
    exact ⟨named_term spelled t h.1, named_operator op, named_chain spelled rest h.2⟩
termination_by structural c => c

theorem named_invocation (spelled : s.Spelled) :
    ∀ c : Call, Worded c.tokens → ∀ i ∈ c.code s, i.Named
  | .own name as, h => by
    simp only [Call.tokens, Call.first, Call.tail, worded_identifier, worded_append] at h
    simp only [Call.code, List.forall_mem_append, List.forall_mem_singleton]
    refine ⟨⟨by simp, (named_arguments spelled as).1 h.2.1.2⟩, ?_⟩
    exact Instruction.named_call.2 (spelled.cls.qualified h.1)
  | .qualified qualifier name as, h => by
    simp only [Call.tokens, Call.first, Call.tail, worded_identifier, worded_append,
      worded_symbol] at h
    simp only [Call.code, List.forall_mem_append, List.forall_mem_singleton]
    refine ⟨⟨named_read s qualifier, (named_arguments spelled as).1 h.2.1.2⟩, ?_⟩
    exact Instruction.named_call.2 (spelled.target h.1 h.2.1.1.1)
termination_by structural c => c

theorem named_arguments (spelled : s.Spelled) : ∀ as : Arguments,
    (Worded as.tokens → ∀ i ∈ as.code s, i.Named) ∧ (Worded as.tail → ∀ i ∈ as.code s, i.Named)
  | .nil => ⟨fun _ => List.forall_mem_nil _, fun _ => List.forall_mem_nil _⟩
  | .cons e rest => by
    have both (h : Worded (e.tokens ++ rest.tail)) : ∀ i ∈ e.code s ++ rest.code s, i.Named := by
      rw [worded_append] at h
      exact List.forall_mem_append.2
        ⟨named_expression spelled e h.1, (named_arguments spelled rest).2 h.2⟩
    exact ⟨both, fun h => both (worded_symbol.1 h)⟩
termination_by structural as => as

end

/-! ## Statements -/

@[simp] theorem worded_parentheses {kinds : List TokenKind} :
    Worded (parentheses kinds) ↔ Worded kinds := by
  simp [parentheses]

@[simp] theorem worded_braces {kinds : List TokenKind} : Worded (braces kinds) ↔ Worded kinds := by
  simp [braces]

theorem named_condition (spelled : s.Spelled) {e : Expression} (h : Worded e.tokens) (k : Nat) :
    ∀ i ∈ conditionCode s e k, i.Named := by
  rw [conditionCode, List.forall_mem_append]
  exact ⟨named_expression spelled e h, by simp [spelled.cls.label]⟩

mutual

theorem named_statement (spelled : s.Spelled) :
    ∀ st : Statement, Worded st.tokens → ∀ k, ∀ i ∈ st.code s k, i.Named
  | .assign name value, h, _ => by
    simp only [Statement.tokens, worded_append] at h
    exact List.forall_mem_append.2 ⟨named_expression spelled value h.1.2, named_write s name⟩
  | .assignElement name index value, h, _ => by
    simp only [Statement.tokens, worded_append] at h
    simp only [Statement.code, List.forall_mem_append]
    exact ⟨⟨⟨⟨named_read s name, named_expression spelled index h.1.1.1.2⟩, by simp⟩,
      named_expression spelled value h.1.2⟩, by simp⟩
  | .when condition yes, h, k => by
    simp only [Statement.tokens, worded_keyword, worded_append, worded_parentheses,
      worded_braces] at h
    simp only [Statement.code, List.forall_mem_append]
    exact ⟨⟨named_condition spelled h.1 k, named_statements spelled yes h.2 _⟩,
      by simp [spelled.cls.label]⟩
  | .choose condition yes no, h, k => by
    simp only [Statement.tokens, worded_keyword, worded_append, worded_parentheses,
      worded_braces] at h
    simp only [Statement.code, List.forall_mem_append]
    exact ⟨⟨⟨⟨named_condition spelled h.1.1 k, named_statements spelled yes h.1.2 _⟩,
      by simp [spelled.cls.label]⟩, named_statements spelled no h.2 _⟩,
      by simp [spelled.cls.label]⟩
  | .loop condition body, h, k => by
    simp only [Statement.tokens, worded_keyword, worded_append, worded_parentheses,
      worded_braces] at h
    simp only [Statement.code, List.forall_mem_append]
    exact ⟨⟨⟨by simp [spelled.cls.label], named_condition spelled h.1 _⟩,
      named_statements spelled body h.2 _⟩, by simp [spelled.cls.label]⟩
  | .perform call, h, _ => by
    simp only [Statement.tokens, worded_keyword, worded_append] at h
    exact List.forall_mem_append.2 ⟨named_invocation spelled call h.1, by simp⟩
  | .leave none, _, _ => by simp [Statement.code]
  | .leave (some value), h, _ => by
    simp only [Statement.tokens, worded_keyword, worded_append] at h
    exact List.forall_mem_append.2 ⟨named_expression spelled value h.1, by simp⟩
termination_by structural st => st

theorem named_statements (spelled : s.Spelled) :
    ∀ ss : Statements, Worded ss.tokens → ∀ k, ∀ i ∈ ss.code s k, i.Named
  | .nil, _, _ => List.forall_mem_nil _
  | .cons first rest, h, k => by
    rw [Statements.tokens, worded_append] at h
    exact List.forall_mem_append.2
      ⟨named_statement spelled first h.1 k, named_statements spelled rest h.2 _⟩
termination_by structural ss => ss

end

/-! ## Classes -/

theorem Worded.mono {kinds kinds' : List TokenKind} (h : Worded kinds) (sub : kinds' ⊆ kinds) :
    Worded kinds' :=
  fun name mem => h name (sub mem)

/-- The types of some declarations are spelled. -/
def TypesSpelled (ds : List Declaration) : Prop :=
  ∀ d ∈ ds, Jack.Spelled d.type

theorem typesSpelled_append {ds ds' : List Declaration} :
    TypesSpelled (ds ++ ds') ↔ TypesSpelled ds ∧ TypesSpelled ds' :=
  List.forall_mem_append

theorem spelled_dataType {type : DataType} (h : Worded [type.token]) :
    Jack.Spelled type.text := by
  cases type with
  | named cls => exact h cls (by simp [DataType.token])
  | _ => decide

theorem typesSpelled_names {d : Names} (h : Worded d.tokens) (kind : Kind) :
    TypesSpelled (d.declarations kind) := by
  have type : Worded [d.type.token] := h.mono (by simp [Names.tokens])
  intro declaration mem
  obtain ⟨name, -, rfl⟩ := List.mem_map.1 mem
  exact spelled_dataType type

theorem typesSpelled_locals {ds : List Names} (h : Worded (localTokens ds)) :
    TypesSpelled (ds.flatMap (Names.declarations .local)) := by
  intro declaration mem
  obtain ⟨d, hd, mem⟩ := List.mem_flatMap.1 mem
  refine typesSpelled_names (h.mono fun k hk => ?_) .local declaration mem
  exact List.mem_flatMap.2 ⟨d, hd, List.mem_cons_of_mem _ hk⟩

/-- The tokens of each parameter are among those of all of them. -/
theorem tokens_subset_parameterTokens {q : Parameter} {qs : List Parameter} (mem : q ∈ qs) :
    q.tokens ⊆ parameterTokens qs := by
  cases qs with
  | nil => cases mem
  | cons first more =>
    intro k hk
    rw [parameterTokens, List.mem_append, List.mem_flatMap]
    obtain rfl | mem := List.mem_cons.1 mem
    · exact .inl hk
    · exact .inr ⟨q, mem, List.mem_cons_of_mem _ hk⟩

theorem typesSpelled_parameters {qs : List Parameter} (h : Worded (parameterTokens qs)) :
    TypesSpelled (qs.map Parameter.declaration) := by
  intro declaration mem
  obtain ⟨q, hq, rfl⟩ := List.mem_map.1 mem
  refine spelled_dataType (h.mono (List.Subset.trans ?_ (tokens_subset_parameterTokens hq)))
  simp [Parameter.tokens]

theorem typesSpelled_subroutine {cls : String} (hcls : Jack.Spelled cls) {r : Subroutine}
    (h : Worded r.tail) : TypesSpelled (r.declarations cls) := by
  simp only [Subroutine.tail, worded_append, worded_parentheses, worded_braces] at h
  rw [Subroutine.declarations, typesSpelled_append, typesSpelled_append]
  refine ⟨⟨?_, typesSpelled_parameters h.1.2⟩, typesSpelled_locals h.2.1⟩
  split_ifs
  · exact List.forall_mem_singleton.2 hcls
  · exact List.forall_mem_nil _

theorem typesSpelled_member {m : Member} (h : Worded m.tokens) : TypesSpelled m.declarations := by
  cases m with
  | statics d => exact typesSpelled_names (worded_keyword.1 h) .static
  | fields d => exact typesSpelled_names (worded_keyword.1 h) .field
  | subroutine r => exact List.forall_mem_nil _

theorem spelled_of_latest {ds : List Declaration} (h : TypesSpelled ds) {name : String}
    {v : Variable} (found : latest name ds = some v) : Jack.Spelled v.type := by
  induction ds with
  | nil => cases found
  | cons d earlier ih =>
    obtain ⟨first, others⟩ := List.forall_mem_cons.1 h
    rw [latest] at found
    split_ifs at found with here
    · cases found
      exact first
    · exact ih others found

theorem spelled_scope {cls : String} (hcls : Jack.Spelled cls) {inClass : List Declaration}
    (outside : TypesSpelled inClass) {r : Subroutine} (h : Worded r.tail) :
    (r.scope cls inClass).Spelled where
  cls := hcls
  types found := by
    obtain inside | ⟨-, inClass⟩ := Option.or_eq_some_iff.1 found
    · refine spelled_of_latest (fun d mem => ?_) inside
      exact typesSpelled_subroutine hcls h d (List.mem_reverse.1 mem)
    · exact spelled_of_latest (fun d mem => outside d (List.mem_reverse.1 mem)) inClass

theorem named_opening (fields : Nat) (kind : SubroutineKind) :
    ∀ i ∈ opening fields kind, i.Named := by
  have alloc : Jack.Spelled "Memory.alloc" := by decide
  cases kind <;> simp [opening, alloc]

theorem named_subroutine {cls : String} (hcls : Jack.Spelled cls) {inClass : List Declaration}
    (outside : TypesSpelled inClass) {r : Subroutine} (h : Worded r.tail) (k : Nat) :
    ∀ i ∈ r.code cls inClass k, i.Named := by
  have scope := spelled_scope hcls outside h
  simp only [Subroutine.tail, worded_append, worded_braces] at h
  have name : Jack.Spelled r.name := h.1.1 r.name (by simp)
  rw [Subroutine.code, List.forall_mem_cons, List.forall_mem_append]
  exact ⟨Instruction.named_function.2 (hcls.qualified name), named_opening _ _,
    named_statements scope r.body h.2.2 k⟩

theorem named_members {cls : String} (hcls : Jack.Spelled cls) (ms : List Member) :
    ∀ (inClass : List Declaration) (k : Nat), TypesSpelled inClass →
      Worded (ms.flatMap Member.tokens) → ∀ i ∈ membersCode cls inClass k ms, i.Named := by
  induction ms with
  | nil => exact fun _ _ _ _ => List.forall_mem_nil _
  | cons m ms ih =>
    intro inClass k outside h
    rw [List.flatMap_cons, worded_append] at h
    have more (k : Nat) := ih (inClass ++ m.declarations) k
      (typesSpelled_append.2 ⟨outside, typesSpelled_member h.1⟩) h.2
    cases m with
    | statics d => exact more k
    | fields d => exact more k
    | subroutine r =>
      simp only [Member.declarations, List.append_nil] at more
      exact List.forall_mem_append.2
        ⟨named_subroutine hcls outside (worded_keyword.1 h.1) k, more _⟩

/-- All names in the code of a class are spelled, if its identifiers are words. -/
theorem named_class {c : Class} (h : Worded c.tokens) : ∀ i ∈ c.code, i.Named := by
  simp only [Class.tokens, worded_append, worded_keyword, worded_identifier, worded_braces] at h
  exact named_members h.1.1 c.members [] 0 (List.forall_mem_nil _) h.2

end Syntax

end Jack
