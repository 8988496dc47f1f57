import Jack.Proofs.Syntax.Lowering

/-!
# Instructions in the code of a tree

Which instructions the code of expressions and of statements is made of, and with which operands.
What holds of each of these instructions then holds of all code, whatever the tree is.
-/

namespace Jack.Syntax

/-- The instructions of expressions. A variable is read only if a name refers to it. -/
inductive InExpression (s : Scope) : Instruction → Prop
  | constant (n : Nat) : InExpression s (.push .constant n)
  | arithmetic (command : Command) : InExpression s (.arithmetic command)
  | call (f : String) (n : Nat) : InExpression s (.call f n)
  | object : InExpression s (.push .pointer 0)
  | address : InExpression s (.pop .pointer 1)
  | element : InExpression s (.push .that 0)
  | read {name : String} {v : Variable} : s.resolve? name = some v → InExpression s (load v)

/-- The instructions of statements. Labels are those of the class, and a variable is assigned to
only if a name refers to it. -/
inductive InBody (s : Scope) : Instruction → Prop
  | expression {i : Instruction} : InExpression s i → InBody s i
  | write {name : String} {v : Variable} : s.resolve? name = some v → InBody s (save v)
  | drop : InBody s (.pop .temp 0)
  | reload : InBody s (.push .temp 0)
  | store : InBody s (.pop .that 0)
  | goto (k : Nat) : InBody s (.goto (label s.cls k))
  | ifGoto (k : Nat) : InBody s (.ifGoto (label s.cls k))
  | label (k : Nat) : InBody s (.label (label s.cls k))
  | leave : InBody s .return

variable (s : Scope)

/-! ## Expressions -/

theorem inExpression_read (name : String) : ∀ i ∈ s.read name, InExpression s i := by
  cases h : s.resolve? name with
  | none => simp [Scope.read, h]
  | some v => simpa [Scope.read, h] using InExpression.read h

theorem inExpression_string (text : String) :
    ∀ i ∈ (Term.string text).code s, InExpression s i := by
  simp only [Term.code, List.forall_mem_append, List.forall_mem_cons, List.mem_flatMap]
  refine ⟨⟨.constant _, .call _ _, List.forall_mem_nil _⟩, ?_⟩
  rintro i ⟨c, -, hi⟩
  simp only [List.mem_cons, List.not_mem_nil, or_false] at hi
  obtain rfl | rfl := hi
  · exact .constant _
  · exact .call _ _

theorem inExpression_constant (c : Constant) : ∀ i ∈ c.code, InExpression s i := by
  cases c with
  | true => exact List.forall_mem_cons.2 ⟨.constant 0, List.forall_mem_singleton.2 (.arithmetic _)⟩
  | false => exact List.forall_mem_singleton.2 (.constant 0)
  | null => exact List.forall_mem_singleton.2 (.constant 0)
  | this => exact List.forall_mem_singleton.2 .object

theorem inExpression_operator (op : Operator) : InExpression s op.code := by
  cases op with
  | mul => exact .call _ _
  | div => exact .call _ _
  | _ => exact .arithmetic _

mutual

theorem inExpression_term : ∀ t : Term, ∀ i ∈ t.code s, InExpression s i
  | .int n => List.forall_mem_singleton.2 (.constant n)
  | .string text => inExpression_string s text
  | .constant c => inExpression_constant s c
  | .var name => inExpression_read s name
  | .element name index => by
    rw [Term.code, List.forall_mem_append, List.forall_mem_append]
    refine ⟨⟨inExpression_read s name, inExpression_expression index⟩, ?_⟩
    simp only [List.forall_mem_cons]
    exact ⟨.arithmetic _, .address, .element, List.forall_mem_nil _⟩
  | .call c => inExpression_call c
  | .group e => inExpression_expression e
  | .signed sign t => by
    rw [Term.code, List.forall_mem_append, List.forall_mem_singleton]
    refine ⟨inExpression_term t, ?_⟩
    cases sign <;> exact .arithmetic _
termination_by structural t => t

theorem inExpression_expression : ∀ e : Expression, ∀ i ∈ e.code s, InExpression s i
  | .mk first rest => List.forall_mem_append.2 ⟨inExpression_term first, inExpression_chain rest⟩
termination_by structural e => e

theorem inExpression_chain : ∀ c : Chain, ∀ i ∈ c.code s, InExpression s i
  | .nil => List.forall_mem_nil _
  | .cons op t rest => by
    rw [Chain.code, List.forall_mem_append, List.forall_mem_cons]
    exact ⟨inExpression_term t, inExpression_operator s op, inExpression_chain rest⟩
termination_by structural c => c

theorem inExpression_call : ∀ c : Call, ∀ i ∈ c.code s, InExpression s i
  | .own name as => by
    simp only [Call.code, List.forall_mem_append, List.forall_mem_singleton]
    exact ⟨⟨.object, inExpression_arguments as⟩, .call _ _⟩
  | .qualified qualifier name as => by
    simp only [Call.code, List.forall_mem_append, List.forall_mem_singleton]
    exact ⟨⟨inExpression_read s qualifier, inExpression_arguments as⟩, .call _ _⟩
termination_by structural c => c

theorem inExpression_arguments : ∀ as : Arguments, ∀ i ∈ as.code s, InExpression s i
  | .nil => List.forall_mem_nil _
  | .cons e rest =>
    List.forall_mem_append.2 ⟨inExpression_expression e, inExpression_arguments rest⟩
termination_by structural as => as

end

/-! ## Statements -/

theorem inBody_write (name : String) : ∀ i ∈ s.write name, InBody s i := by
  cases h : s.resolve? name with
  | none => simp [Scope.write, h]
  | some v => simpa [Scope.write, h] using InBody.write h

theorem inBody_expression (e : Expression) : ∀ i ∈ e.code s, InBody s i :=
  fun i hi => .expression (inExpression_expression s e i hi)

theorem inBody_condition (e : Expression) (k : Nat) : ∀ i ∈ conditionCode s e k, InBody s i := by
  simp only [conditionCode, List.forall_mem_append, List.forall_mem_cons]
  exact ⟨inBody_expression s e, .expression (.arithmetic _), .ifGoto k, List.forall_mem_nil _⟩

mutual

theorem inBody_statement : ∀ (st : Statement) (k : Nat), ∀ i ∈ st.code s k, InBody s i
  | .assign name value, _ =>
    List.forall_mem_append.2 ⟨inBody_expression s value, inBody_write s name⟩
  | .assignElement name index value, _ => by
    simp only [Statement.code, List.forall_mem_append, List.forall_mem_cons]
    have base : ∀ i ∈ s.read name, InBody s i :=
      fun i hi => .expression (inExpression_read s name i hi)
    exact ⟨⟨⟨⟨base, inBody_expression s index⟩, .expression (.arithmetic _), List.forall_mem_nil _⟩,
      inBody_expression s value⟩, .drop, .expression .address, .reload, .store,
      List.forall_mem_nil _⟩
  | .when condition yes, k => by
    simp only [Statement.code, List.forall_mem_append, List.forall_mem_cons]
    exact ⟨⟨inBody_condition s condition k, inBody_statements yes (k + 2)⟩,
      .goto _, .label _, .label _, List.forall_mem_nil _⟩
  | .choose condition yes no, k => by
    simp only [Statement.code, List.forall_mem_append, List.forall_mem_cons]
    exact ⟨⟨⟨⟨inBody_condition s condition k, inBody_statements yes (k + 2)⟩,
      .goto _, .label _, List.forall_mem_nil _⟩, inBody_statements no _⟩, .label _,
      List.forall_mem_nil _⟩
  | .loop condition body, k => by
    simp only [Statement.code, List.forall_mem_append, List.forall_mem_cons]
    exact ⟨⟨⟨⟨.label _, List.forall_mem_nil _⟩, inBody_condition s condition (k + 1)⟩,
      inBody_statements body (k + 2)⟩, .goto _, .label _, List.forall_mem_nil _⟩
  | .perform call, _ => by
    rw [Statement.code, List.forall_mem_append, List.forall_mem_singleton]
    exact ⟨fun i hi => .expression (inExpression_call s call i hi), .drop⟩
  | .leave none, _ =>
    List.forall_mem_cons.2 ⟨.expression (.constant 0), List.forall_mem_singleton.2 .leave⟩
  | .leave (some value), _ => by
    rw [Statement.code, List.forall_mem_append, List.forall_mem_singleton]
    exact ⟨inBody_expression s value, .leave⟩
termination_by structural st => st

theorem inBody_statements : ∀ (ss : Statements) (k : Nat), ∀ i ∈ ss.code s k, InBody s i
  | .nil, _ => List.forall_mem_nil _
  | .cons first rest, k =>
    List.forall_mem_append.2 ⟨inBody_statement first k, inBody_statements rest _⟩
termination_by structural ss => ss

end

end Jack.Syntax
