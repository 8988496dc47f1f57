import Mathlib
import Jack.Proofs.Syntax.Words

/-!
# Tallies

A tally gives a weight to each instruction and to each token. It is fair if every construct of the
grammar becomes instructions that weigh together as much as the tokens of the construct itself. Then
the code of a subroutine weighs as much as the tokens of its body, and so instructions can be
counted in the source. The order of the code does not matter, so a case is only arithmetic.
-/

namespace Jack

/-! ## Weights of lists -/

/-- The sum of the weights in a list. -/
def total {α : Type} (weight : α → ℕ) (as : List α) : ℕ :=
  (as.map weight).sum

section Total

variable {α : Type} {weight : α → ℕ}

@[simp] theorem total_nil : total weight [] = 0 := rfl

@[simp] theorem total_cons (a : α) (as : List α) :
    total weight (a :: as) = weight a + total weight as := by
  simp [total]

@[simp] theorem total_append (as as' : List α) :
    total weight (as ++ as') = total weight as + total weight as' := by
  simp [total]

theorem total_eq_zero {as : List α} : total weight as = 0 ↔ ∀ a ∈ as, weight a = 0 := by
  induction as with
  | nil => simp
  | cons a as ih => rw [total_cons, Nat.add_eq_zero_iff, ih, List.forall_mem_cons]

/-- What is counted weighs 1. -/
theorem countP_eq_total (p : α → Bool) (as : List α) :
    as.countP p = total (fun a => (p a).toNat) as := by
  induction as with
  | nil => rfl
  | cons a as ih =>
    rw [total_cons, ← ih]
    cases h : p a with
    | true => rw [List.countP_cons_of_pos h, Bool.toNat_true, Nat.add_comm]
    | false => rw [List.countP_cons_of_neg (by simp [h]), Bool.toNat_false, Nat.zero_add]

end Total

namespace Syntax

/-! ## Fair tallies -/

/-- Weights of instructions and of tokens. -/
structure Tally where
  instruction : Instruction → ℕ
  token : TokenKind → ℕ

namespace Tally

/-- The weight of some code. -/
def code (t : Tally) (code : List Instruction) : ℕ :=
  total t.instruction code

/-- The weight of some tokens. -/
def tokens (t : Tally) (kinds : List TokenKind) : ℕ :=
  total t.token kinds

/-- Each construct that stands in the body of a subroutine becomes instructions of the weight of
its tokens. -/
structure Fair (t : Tally) : Prop where
  int (n : ℕ) : t.instruction (.push .constant n) = t.token (.int n)
  string (text : String) : t.code (stringCode text) = t.token (.string text)
  /-- A reserved word that is a constant weighs nothing, and so does the zero that it becomes. -/
  zero : t.instruction (.push .constant 0) = 0
  constant (c : Constant) : t.token (.keyword c.keyword) = 0
  /-- Variables, operators and calls weigh nothing. -/
  push (segment : Segment) (n : ℕ) : segment ≠ .constant → t.instruction (.push segment n) = 0
  pop (segment : Segment) (n : ℕ) : t.instruction (.pop segment n) = 0
  arithmetic (command : Command) : t.instruction (.arithmetic command) = 0
  call (f : String) (n : ℕ) : t.instruction (.call f n) = 0
  symbol (c : Char) : t.token (.symbol c) = 0
  identifier (name : String) : t.token (.identifier name) = 0
  /-- Words of statements. A statement that branches has one jump of each sort and two labels. -/
  silent : t.token (.keyword .let) = 0 ∧ t.token (.keyword .do) = 0 ∧ t.token (.keyword .else) = 0
  branch (l l' l'' l''' : String) : t.instruction (.ifGoto l) + t.instruction (.goto l') +
    (t.instruction (.label l'') + t.instruction (.label l''')) = t.token (.keyword .if)
  again : t.token (.keyword .while) = t.token (.keyword .if)
  leave : t.instruction .return = t.token (.keyword .return)

variable {t : Tally}

@[simp] theorem code_nil : t.code [] = 0 := rfl

@[simp] theorem code_cons (i : Instruction) (code : List Instruction) :
    t.code (i :: code) = t.instruction i + t.code code :=
  total_cons i code

@[simp] theorem code_append (code code' : List Instruction) :
    t.code (code ++ code') = t.code code + t.code code' :=
  total_append code code'

@[simp] theorem tokens_nil : t.tokens [] = 0 := rfl

@[simp] theorem tokens_cons (k : TokenKind) (kinds : List TokenKind) :
    t.tokens (k :: kinds) = t.token k + t.tokens kinds :=
  total_cons k kinds

@[simp] theorem tokens_append (kinds kinds' : List TokenKind) :
    t.tokens (kinds ++ kinds') = t.tokens kinds + t.tokens kinds' :=
  total_append kinds kinds'

namespace Fair

theorem tokens_parentheses (fair : t.Fair) (inside : List TokenKind) :
    t.tokens (parentheses inside) = t.tokens inside := by
  simp [parentheses, fair.symbol]

theorem tokens_braces (fair : t.Fair) (inside : List TokenKind) :
    t.tokens (braces inside) = t.tokens inside := by
  simp [braces, fair.symbol]

/-! ## Expressions -/

theorem code_read (fair : t.Fair) (s : Scope) (name : String) : t.code (s.read name) = 0 := by
  unfold Scope.read
  cases s.resolve? name with
  | none => rfl
  | some v =>
    simp [load, fair.push _ _ (segmentOf_ne_constant _)]

theorem code_write (fair : t.Fair) (s : Scope) (name : String) : t.code (s.write name) = 0 := by
  unfold Scope.write
  cases s.resolve? name with
  | none => rfl
  | some v => simp [save, fair.pop]

theorem code_constant (fair : t.Fair) (c : Constant) : t.code c.code = 0 := by
  have pointer := fair.push .pointer 0 (by decide)
  cases c <;> simp [Constant.code, fair.zero, fair.arithmetic, pointer]

theorem instruction_operator (fair : t.Fair) (op : Operator) : t.instruction op.code = 0 := by
  cases op <;> simp [Operator.code, fair.arithmetic, fair.call]

theorem instruction_sign (fair : t.Fair) (sign : Sign) : t.instruction sign.code = 0 := by
  cases sign <;> simp [Sign.code, fair.arithmetic]

mutual

theorem term (fair : t.Fair) (s : Scope) : ∀ e : Term, t.code (e.code s) = t.tokens e.tokens
  | .int n => by simp [Term.code, Term.tokens, fair.int]
  | .string text => by
    have made : (Term.string text).code s = stringCode text := rfl
    simp [made, Term.tokens, fair.string]
  | .constant c => by simp [Term.code, Term.tokens, fair.code_constant, fair.constant]
  | .var name => by simp [Term.code, Term.tokens, fair.code_read, fair.identifier]
  | .element name index => by
    have element := fair.push .that 0 (by decide)
    simp [Term.code, Term.tokens, fair.code_read, fair.arithmetic, fair.pop, element,
      fair.identifier, fair.symbol, expression fair s index]
  | .call c => by
    rw [Term.code, Term.tokens, tokens_cons, fair.identifier, Nat.zero_add]
    exact invocation fair s c
  | .group e => by simp [Term.code, Term.tokens, fair.symbol, expression fair s e]
  | .signed sign e => by
    simp [Term.code, Term.tokens, fair.instruction_sign, fair.symbol, term fair s e]
termination_by structural e => e

theorem expression (fair : t.Fair) (s : Scope) :
    ∀ e : Expression, t.code (e.code s) = t.tokens e.tokens
  | .mk first rest => by
    simp [Expression.code, Expression.tokens, term fair s first, chain fair s rest]
termination_by structural e => e

theorem chain (fair : t.Fair) (s : Scope) : ∀ c : Chain, t.code (c.code s) = t.tokens c.tokens
  | .nil => rfl
  | .cons op e rest => by
    simp [Chain.code, Chain.tokens, fair.instruction_operator, fair.symbol, term fair s e,
      chain fair s rest]
termination_by structural c => c

/-- The first identifier of a call weighs nothing, so it does not matter that it is left out. -/
theorem invocation (fair : t.Fair) (s : Scope) : ∀ c : Call, t.code (c.code s) = t.tokens c.tail
  | .own name as => by
    have object := fair.push .pointer 0 (by decide)
    simp [Call.code, Call.tail, object, fair.call, fair.symbol, (arguments fair s as).1]
  | .qualified qualifier name as => by
    simp [Call.code, Call.tail, fair.code_read, fair.call, fair.symbol, fair.identifier,
      (arguments fair s as).1]
termination_by structural c => c

theorem arguments (fair : t.Fair) (s : Scope) : ∀ as : Arguments,
    t.code (as.code s) = t.tokens as.tokens ∧ t.code (as.code s) = t.tokens as.tail
  | .nil => ⟨rfl, rfl⟩
  | .cons e rest => by
    simp [Arguments.code, Arguments.tokens, Arguments.tail, fair.symbol, expression fair s e,
      (arguments fair s rest).2]
termination_by structural as => as

end

/-! ## Statements -/

theorem condition (fair : t.Fair) (s : Scope) (e : Expression) (k : ℕ) :
    t.code (conditionCode s e k) = t.tokens e.tokens + t.instruction (.ifGoto (label s.cls k)) := by
  simp [conditionCode, fair.expression, fair.arithmetic]

mutual

theorem statement (fair : t.Fair) (s : Scope) :
    ∀ (st : Statement) (k : ℕ), t.code (st.code s k) = t.tokens st.tokens
  | .assign name value, k => by
    simp [Statement.code, Statement.tokens, fair.expression, fair.code_write, fair.silent,
      fair.identifier, fair.symbol]
  | .assignElement name index value, k => by
    have reload := fair.push .temp 0 (by decide)
    simp [Statement.code, Statement.tokens, fair.expression, fair.code_read, fair.arithmetic,
      fair.pop, reload, fair.silent, fair.identifier, fair.symbol]
  | .when e yes, k => by
    have own := fair.branch (label s.cls k) (label s.cls (k + 1)) (label s.cls k)
      (label s.cls (k + 1))
    simp only [Statement.code, Statement.tokens, code_append, code_cons, code_nil, tokens_append,
      tokens_cons, fair.condition, fair.tokens_parentheses, fair.tokens_braces,
      statements fair s yes]
    omega
  | .choose e yes no, k => by
    have own := fair.branch (label s.cls k) (label s.cls (k + 1)) (label s.cls k)
      (label s.cls (k + 1))
    have word := fair.silent.2.2
    simp only [Statement.code, Statement.tokens, code_append, code_cons, code_nil, tokens_append,
      tokens_cons, fair.condition, fair.tokens_parentheses, fair.tokens_braces,
      statements fair s yes, statements fair s no]
    omega
  | .loop e body, k => by
    have own := fair.branch (label s.cls (k + 1)) (label s.cls k) (label s.cls k)
      (label s.cls (k + 1))
    have word := fair.again
    simp only [Statement.code, Statement.tokens, code_append, code_cons, code_nil, tokens_append,
      tokens_cons, fair.condition, fair.tokens_parentheses, fair.tokens_braces,
      statements fair s body]
    omega
  | .perform c, k => by
    simp [Statement.code, Statement.tokens, Call.tokens, fair.invocation, fair.pop, fair.silent,
      fair.identifier, fair.symbol]
  | .leave none, k => by
    simp [Statement.code, Statement.tokens, fair.zero, fair.leave, fair.symbol]
  | .leave (some value), k => by
    simp [Statement.code, Statement.tokens, fair.expression, fair.leave, fair.symbol, Nat.add_comm]
termination_by structural st => st

/-- The code of statements weighs as much as their tokens. -/
theorem statements (fair : t.Fair) (s : Scope) :
    ∀ (ss : Statements) (k : ℕ), t.code (ss.code s k) = t.tokens ss.tokens
  | .nil, _ => rfl
  | .cons first rest, k => by
    simp [Statements.code, Statements.tokens, statement fair s first, statements fair s rest]
termination_by structural ss => ss

end

end Fair

end Tally

/-! ## Declarations -/

/-- The tokens of declarations: their only reserved words are types and `var`. -/
inductive DeclarationToken : TokenKind → Prop
  | symbol (c : Char) : DeclarationToken (.symbol c)
  | identifier (name : String) : DeclarationToken (.identifier name)
  | type (type : DataType) : DeclarationToken type.token
  | void : DeclarationToken (.keyword .void)
  | var : DeclarationToken (.keyword .var)

theorem declarationToken_names (d : Names) : ∀ k ∈ d.tokens, DeclarationToken k := by
  simp only [Names.tokens, nameTail, List.forall_mem_append, List.forall_mem_cons]
  refine ⟨⟨⟨.type _, .identifier _, List.forall_mem_nil _⟩, ?_⟩, .symbol _, List.forall_mem_nil _⟩
  intro k hk
  obtain ⟨name, -, hk⟩ := List.mem_flatMap.1 hk
  rcases List.mem_cons.1 hk with rfl | hk
  · exact .symbol _
  · obtain rfl := List.mem_singleton.1 hk
    exact .identifier _

theorem declarationToken_locals (ds : List Names) : ∀ k ∈ localTokens ds, DeclarationToken k := by
  intro k hk
  obtain ⟨d, -, hk⟩ := List.mem_flatMap.1 hk
  rcases List.mem_cons.1 hk with rfl | hk
  · exact .var
  · exact declarationToken_names d k hk

theorem declarationToken_parameters (qs : List Parameter) :
    ∀ k ∈ parameterTokens qs, DeclarationToken k := by
  have each (q : Parameter) : ∀ k ∈ q.tokens, DeclarationToken k :=
    List.forall_mem_cons.2 ⟨.type _, List.forall_mem_singleton.2 (.identifier _)⟩
  cases qs with
  | nil => exact List.forall_mem_nil _
  | cons q more =>
    refine List.forall_mem_append.2 ⟨each q, fun k hk => ?_⟩
    obtain ⟨q', -, hk⟩ := List.mem_flatMap.1 hk
    rcases List.mem_cons.1 hk with rfl | hk
    · exact .symbol _
    · exact each q' k hk

theorem declarationToken_returnType (type : ReturnType) : DeclarationToken type.token := by
  cases type with
  | void => exact .void
  | data type => exact .type type

namespace Tally

variable {t : Tally}

theorem tokens_names (declared : ∀ k, DeclarationToken k → t.token k = 0) (d : Names) :
    t.tokens d.tokens = 0 :=
  total_eq_zero.2 fun k hk => declared k (declarationToken_names d k hk)

/-- Only the body of a subroutine weighs something. -/
theorem tokens_subroutine (declared : ∀ k, DeclarationToken k → t.token k = 0) (r : Subroutine) :
    t.tokens r.tail = t.tokens r.body.tokens := by
  have symbol (c : Char) : t.token (.symbol c) = 0 := declared _ (.symbol c)
  have parameters : t.tokens (parameterTokens r.parameters) = 0 :=
    total_eq_zero.2 fun k hk => declared k (declarationToken_parameters r.parameters k hk)
  have locals : t.tokens (localTokens r.locals) = 0 :=
    total_eq_zero.2 fun k hk => declared k (declarationToken_locals r.locals k hk)
  have returns := declared _ (declarationToken_returnType r.returns)
  have name := declared _ (.identifier r.name)
  simp [Subroutine.tail, parentheses, braces, symbol, parameters, locals, returns, name]

end Tally

end Syntax

end Jack
