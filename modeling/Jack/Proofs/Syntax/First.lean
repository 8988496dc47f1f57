import Jack.Proofs.Syntax.Tree

/-!
# First tokens

One token of lookahead decides how a tree goes on: which tokens trees start with, and which ones
may follow them.
-/

namespace Jack.Syntax

/-! ## What may follow -/

/-- No token that would make a variable something else: a call or an array element. -/
def EndsTerm (ks : List TokenKind) : Prop :=
  ∀ c ∈ ['(', '.', '['], ks.head? ≠ some (.symbol c)

/-- No token that would continue an expression. -/
def EndsExpression (ks : List TokenKind) : Prop :=
  EndsTerm ks ∧ ∀ op : Operator, ks.head? ≠ some (.symbol op.symbol)

/-- The symbols that stand after expressions. -/
theorem endsExpression_symbol {c : Char} (h : c ∈ [')', ']', ',', ';']) (ks : List TokenKind) :
    EndsExpression (.symbol c :: ks) := by
  have hne : ∀ d : Char, d ∉ [')', ']', ',', ';'] → (.symbol c : TokenKind) ≠ .symbol d := by
    rintro d hd ⟨⟩
    exact hd h
  refine ⟨fun d hd hc => ?_, fun op hc => ?_⟩
  · have : ∀ d ∈ ['(', '.', '['], d ∉ [')', ']', ',', ';'] := by simp
    exact hne d (this d hd) (Option.some.inj hc)
  · refine hne op.symbol ?_ (Option.some.inj hc)
    cases op <;> decide

theorem endsTerm_chain (c : Chain) {ks : List TokenKind} (h : EndsExpression ks) :
    EndsTerm (c.tokens ++ ks) := by
  cases c with
  | nil => exact h.1
  | cons op t rest =>
    intro d hd hc
    have : op.symbol = d := by simpa [Chain.tokens] using hc
    revert hd
    rw [← this]
    cases op <;> decide

/-! ## What trees start with -/

theorem length_tokens_pos (t : Term) : 0 < t.tokens.length := by
  cases t <;> simp [Term.tokens]

/-- The only symbols that an expression starts with are a parenthesis and the signs. -/
theorem expression_head (e : Expression) (ks : List TokenKind) {c : Char}
    (h : c ∉ ['(', '-', '~']) : (e.tokens ++ ks).head? ≠ some (.symbol c) := by
  obtain ⟨first, rest⟩ := e
  cases first with
  | int | string | constant | var | element | call => simp [Expression.tokens, Term.tokens]
  | group =>
    simp only [Expression.tokens, Term.tokens, List.append_assoc, List.cons_append,
      List.head?_cons, ne_eq, Option.some.injEq, TokenKind.symbol.injEq]
    rintro rfl
    exact h (by decide)
  | signed sign t =>
    simp only [Expression.tokens, Term.tokens, List.cons_append,
      List.head?_cons, ne_eq, Option.some.injEq, TokenKind.symbol.injEq]
    rintro rfl
    exact h (by cases sign <;> decide)

theorem arguments_head (e : Expression) (as : Arguments) (ks : List TokenKind) {c : Char}
    (h : c ∉ ['(', '-', '~']) :
    ((Arguments.cons e as).tokens ++ ks).head? ≠ some (.symbol c) := by
  rw [Arguments.tokens, List.append_assoc]
  exact expression_head e _ h

theorem call_tail_head (c : Call) :
    ∃ x, (x = '(' ∨ x = '.') ∧ ∀ ks, (c.tail ++ ks).head? = some (.symbol x) := by
  cases c with
  | own name as => exact ⟨'(', .inl rfl, fun ks => rfl⟩
  | qualified qualifier name as => exact ⟨'.', .inr rfl, fun ks => rfl⟩

theorem statement_head (s : Statement) :
    ∃ k ks, s.tokens = .keyword k :: ks ∧ k ≠ .else ∧ k ≠ .var := by
  cases s with
  | leave value => cases value <;> exact ⟨_, _, rfl, by decide⟩
  | _ => exact ⟨_, _, rfl, by decide⟩

/-- Neither an `else` nor a local declaration can be taken for statements. -/
theorem statements_head (ss : Statements) (ks : List TokenKind) :
    (ss.tokens ++ .symbol '}' :: ks).head? ≠ some (.keyword .else) ∧
      (ss.tokens ++ .symbol '}' :: ks).head? ≠ some (.keyword .var) := by
  cases ss with
  | nil => simp [Statements.tokens]
  | cons s rest =>
    obtain ⟨k, more, tokens, hk⟩ := statement_head s
    simpa [Statements.tokens, tokens] using hk

theorem parameterTokens_head (first : Parameter) (more : List Parameter) (ks : List TokenKind) :
    (parameterTokens (first :: more) ++ ks).head? ≠ some (.symbol ')') := by
  obtain ⟨type, name⟩ := first
  cases type <;> simp [parameterTokens, Parameter.tokens, DataType.token]

end Jack.Syntax
