import Jack.Proofs.Syntax.Labels

/-!
# Reserved words of a tree

The words `if` and `while` stand only at the start of statements, and each of these statements takes
two labels. So the labels of a class can be counted in its tokens.
-/

namespace Jack

/-- Whether a token starts a statement that branches. -/
def TokenKind.branches : TokenKind → Bool
  | keyword .if => true
  | keyword .while => true
  | _ => false

/-- How many statements that branch some tokens have. -/
def branchings (kinds : List TokenKind) : Nat :=
  kinds.countP TokenKind.branches

@[simp] theorem branchings_append (kinds kinds' : List TokenKind) :
    branchings (kinds ++ kinds') = branchings kinds + branchings kinds' :=
  List.countP_append

theorem branchings_branch {k : TokenKind} (kinds : List TokenKind) (h : k.branches = true) :
    branchings (k :: kinds) = branchings kinds + 1 :=
  List.countP_cons_of_pos h

theorem branchings_other {k : TokenKind} (kinds : List TokenKind) (h : k.branches = false) :
    branchings (k :: kinds) = branchings kinds :=
  List.countP_cons_of_neg (Bool.eq_false_iff.1 h)

theorem branchings_eq_zero {kinds : List TokenKind} :
    branchings kinds = 0 ↔ ∀ k ∈ kinds, k.branches = false := by
  simp [branchings]

theorem branchings_flatMap {α : Type} {f : α → List TokenKind} (h : ∀ a, branchings (f a) = 0)
    (as : List α) : branchings (as.flatMap f) = 0 := by
  induction as with
  | nil => rfl
  | cons a as ih => rw [List.flatMap_cons, branchings_append, h, ih]

namespace Syntax

/-! ## Expressions -/

/-- The tokens of expressions. Their only reserved words are constants. -/
inductive ExpressionToken : TokenKind → Prop
  | symbol (c : Char) : ExpressionToken (.symbol c)
  | int (n : Nat) : ExpressionToken (.int n)
  | string (text : String) : ExpressionToken (.string text)
  | identifier (name : String) : ExpressionToken (.identifier name)
  | constant (c : Constant) : ExpressionToken (.keyword c.keyword)

mutual

theorem expressionToken_term : ∀ t : Term, ∀ k ∈ t.tokens, ExpressionToken k
  | .int n => List.forall_mem_singleton.2 (.int n)
  | .string text => List.forall_mem_singleton.2 (.string text)
  | .constant c => List.forall_mem_singleton.2 (.constant c)
  | .var name => List.forall_mem_singleton.2 (.identifier name)
  | .element name index => by
    simp only [Term.tokens, List.forall_mem_append, List.forall_mem_cons]
    exact ⟨⟨⟨.identifier _, .symbol _, List.forall_mem_nil _⟩, expressionToken_expression index⟩,
      .symbol _, List.forall_mem_nil _⟩
  | .call c => List.forall_mem_cons.2 ⟨.identifier _, expressionToken_call c⟩
  | .group e => by
    simp only [Term.tokens, List.forall_mem_append, List.forall_mem_singleton]
    exact ⟨⟨.symbol _, expressionToken_expression e⟩, .symbol _⟩
  | .signed sign t => List.forall_mem_cons.2 ⟨.symbol _, expressionToken_term t⟩
termination_by structural t => t

theorem expressionToken_expression : ∀ e : Expression, ∀ k ∈ e.tokens, ExpressionToken k
  | .mk first rest =>
    List.forall_mem_append.2 ⟨expressionToken_term first, expressionToken_chain rest⟩
termination_by structural e => e

theorem expressionToken_chain : ∀ c : Chain, ∀ k ∈ c.tokens, ExpressionToken k
  | .nil => List.forall_mem_nil _
  | .cons op t rest => by
    rw [Chain.tokens, List.forall_mem_cons, List.forall_mem_append]
    exact ⟨.symbol _, expressionToken_term t, expressionToken_chain rest⟩
termination_by structural c => c

theorem expressionToken_call : ∀ c : Call, ∀ k ∈ c.tail, ExpressionToken k
  | .own name as => by
    simp only [Call.tail, List.forall_mem_append, List.forall_mem_singleton]
    exact ⟨⟨.symbol _, (expressionToken_arguments as).1⟩, .symbol _⟩
  | .qualified qualifier name as => by
    simp only [Call.tail, List.forall_mem_append, List.forall_mem_cons]
    exact ⟨⟨⟨.symbol _, .identifier _, .symbol _, List.forall_mem_nil _⟩,
      (expressionToken_arguments as).1⟩, .symbol _, List.forall_mem_nil _⟩
termination_by structural c => c

theorem expressionToken_arguments : ∀ as : Arguments,
    (∀ k ∈ as.tokens, ExpressionToken k) ∧ ∀ k ∈ as.tail, ExpressionToken k
  | .nil => ⟨List.forall_mem_nil _, List.forall_mem_nil _⟩
  | .cons e rest => by
    have first := expressionToken_expression e
    have more := (expressionToken_arguments rest).2
    have both := List.forall_mem_append.2 ⟨first, more⟩
    exact ⟨both, List.forall_mem_cons.2 ⟨.symbol _, both⟩⟩
termination_by structural as => as

end

theorem ExpressionToken.branches_eq {k : TokenKind} (h : ExpressionToken k) :
    k.branches = false := by
  cases h with
  | constant c => cases c <;> rfl
  | _ => rfl

theorem branchings_expression (e : Expression) : branchings e.tokens = 0 :=
  branchings_eq_zero.2 fun k hk => (expressionToken_expression e k hk).branches_eq

theorem branchings_call (c : Call) : branchings c.tokens = 0 :=
  branchings_eq_zero.2 (List.forall_mem_cons.2
    ⟨rfl, fun k hk => (expressionToken_call c k hk).branches_eq⟩)

/-! ## Statements -/

theorem branchings_parentheses (inside : List TokenKind) :
    branchings (parentheses inside) = branchings inside := by
  rw [parentheses, branchings_append, branchings_append]
  exact Nat.zero_add _

theorem branchings_braces (inside : List TokenKind) :
    branchings (braces inside) = branchings inside := by
  rw [braces, branchings_append, branchings_append]
  exact Nat.zero_add _

mutual

/-- A statement has two labels for each statement in it that branches. -/
theorem labels_statement : ∀ st : Statement, st.labels = 2 * branchings st.tokens
  | .assign name value => by
    simp only [Statement.tokens, branchings_append, branchings_expression]
    rfl
  | .assignElement name index value => by
    simp only [Statement.tokens, branchings_append, branchings_expression]
    rfl
  | .when condition yes => by
    rw [Statement.tokens, branchings_branch _ rfl, branchings_append, branchings_parentheses,
      branchings_expression, branchings_braces, Statement.labels, labels_statements yes]
    omega
  | .choose condition yes no => by
    rw [Statement.tokens, branchings_branch _ rfl, branchings_append, branchings_append,
      branchings_parentheses, branchings_expression, branchings_braces, branchings_other _ rfl,
      branchings_braces, Statement.labels, labels_statements yes, labels_statements no]
    omega
  | .loop condition body => by
    rw [Statement.tokens, branchings_branch _ rfl, branchings_append, branchings_parentheses,
      branchings_expression, branchings_braces, Statement.labels, labels_statements body]
    omega
  | .perform call => by
    rw [Statement.tokens, branchings_other _ rfl, branchings_append, branchings_call]
    rfl
  | .leave none => rfl
  | .leave (some value) => by
    rw [Statement.tokens, branchings_other _ rfl, branchings_append, branchings_expression]
    rfl
termination_by structural st => st

theorem labels_statements : ∀ ss : Statements, ss.labels = 2 * branchings ss.tokens
  | .nil => rfl
  | .cons first rest => by
    rw [Statements.labels, Statements.tokens, branchings_append, labels_statement first,
      labels_statements rest, Nat.mul_add]
termination_by structural ss => ss

end

/-! ## Classes -/

theorem branches_dataType (type : DataType) : type.token.branches = false := by
  cases type <;> rfl

theorem branches_returnType (type : ReturnType) : type.token.branches = false := by
  cases type with
  | void => rfl
  | data type => exact branches_dataType type

theorem branchings_names (d : Names) : branchings d.tokens = 0 := by
  have more : branchings (nameTail d.more) = 0 := branchings_flatMap (fun _ => rfl) d.more
  rw [Names.tokens, branchings_append, branchings_append, more,
    branchings_other _ (branches_dataType d.type)]
  rfl

theorem branchings_parameters (qs : List Parameter) : branchings (parameterTokens qs) = 0 := by
  have each (q : Parameter) : branchings q.tokens = 0 :=
    branchings_other _ (branches_dataType q.type)
  cases qs with
  | nil => rfl
  | cons q more =>
    rw [parameterTokens, branchings_append, each,
      branchings_flatMap fun q => (branchings_other _ rfl).trans (each q)]

theorem branchings_locals (ds : List Names) : branchings (localTokens ds) = 0 :=
  branchings_flatMap (fun d => (branchings_other _ rfl).trans (branchings_names d)) ds

theorem labels_member (m : Member) : m.labels = 2 * branchings m.tokens := by
  cases m with
  | statics d =>
    rw [Member.tokens, branchings_other _ rfl, branchings_names]
    rfl
  | fields d =>
    rw [Member.tokens, branchings_other _ rfl, branchings_names]
    rfl
  | subroutine r =>
    have word : (TokenKind.keyword (subroutineKeyword r.kind)).branches = false := by
      cases r.kind <;> rfl
    rw [Member.tokens, branchings_other _ word, Subroutine.tail, branchings_append,
      branchings_append, branchings_other _ (branches_returnType r.returns),
      branchings_parentheses, branchings_parameters, branchings_braces, branchings_append,
      branchings_locals, Member.labels, labels_statements, Nat.zero_add]
    exact congrArg (2 * ·) (Nat.zero_add _).symm

theorem labels_members (ms : List Member) :
    membersLabels ms = 2 * branchings (ms.flatMap Member.tokens) := by
  induction ms with
  | nil => rfl
  | cons m ms ih =>
    rw [membersLabels, List.flatMap_cons, branchings_append, ih, labels_member, Nat.mul_add]

/-- A class has two labels for each of its statements that branch. -/
theorem labels_class (c : Class) : membersLabels c.members = 2 * branchings c.tokens := by
  rw [labels_members, Class.tokens, branchings_append, branchings_braces]
  exact congrArg (2 * ·) (Nat.zero_add _).symm

end Syntax

end Jack
