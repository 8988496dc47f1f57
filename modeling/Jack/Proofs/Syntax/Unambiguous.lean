import Jack.Proofs.Syntax.First

/-!
# No text has two trees

The tokens of expressions and statements determine their trees. A tree that is a prefix of a
sequence of tokens is determined too, if what follows it cannot belong to it.
-/

namespace Jack.Syntax

theorem Operator.symbol_injective {op op' : Operator} (h : op.symbol = op'.symbol) : op = op' := by
  cases op <;> cases op' <;> simp_all [Operator.symbol]

theorem Sign.symbol_injective {sign sign' : Sign} (h : sign.symbol = sign'.symbol) :
    sign = sign' := by
  cases sign <;> cases sign' <;> simp_all [Sign.symbol]

theorem Constant.keyword_injective {c c' : Constant} (h : c.keyword = c'.keyword) : c = c' := by
  cases c <;> cases c' <;> simp_all [Constant.keyword]

/-- What follows an argument in a call is a comma or the closing parenthesis. -/
theorem endsExpression_tail (as : Arguments) (ks : List TokenKind) :
    EndsExpression (as.tail ++ .symbol ')' :: ks) := by
  cases as <;> exact endsExpression_symbol (by decide) _

/-- A call, or an element of an array, is not a variable. -/
theorem endsTerm_ne_call {ks ks' : List TokenKind} (ends : EndsTerm ks) (c : Call) :
    ks ≠ c.tail ++ ks' := by
  rintro rfl
  obtain ⟨x, hx, head⟩ := call_tail_head c
  refine ends x ?_ (head ks')
  obtain rfl | rfl := hx <;> decide

theorem endsTerm_ne_bracket {ks ks' : List TokenKind} (ends : EndsTerm ks) :
    ks ≠ .symbol '[' :: ks' := by
  rintro rfl
  exact ends '[' (by decide) rfl

/-! ## Expressions -/

mutual

theorem term_unique : ∀ {t t' : Term} {ks ks' : List TokenKind},
    t.tokens ++ ks = t'.tokens ++ ks' → EndsTerm ks → EndsTerm ks' → t = t' ∧ ks = ks'
  | .int n, t', ks, ks', h, _, _ => by
    cases t' with
    | int n' => simpa [Term.tokens] using h
    | _ => simp [Term.tokens] at h
  | .string text, t', ks, ks', h, _, _ => by
    cases t' with
    | string text' => simpa [Term.tokens] using h
    | _ => simp [Term.tokens] at h
  | .constant c, t', ks, ks', h, _, _ => by
    cases t' with
    | constant c' =>
      simp only [Term.tokens, List.cons_append, List.nil_append, List.cons.injEq,
        TokenKind.keyword.injEq] at h
      rw [Constant.keyword_injective h.1]
      exact ⟨rfl, h.2⟩
    | _ => simp [Term.tokens] at h
  | .var name, t', ks, ks', h, ends, _ => by
    cases t' with
    | var name' => simpa [Term.tokens] using h
    | element name' index' =>
      simp only [Term.tokens, List.cons_append, List.nil_append, List.cons.injEq] at h
      exact absurd h.2 (endsTerm_ne_bracket ends)
    | call c' =>
      simp only [Term.tokens, List.cons_append, List.nil_append, List.cons.injEq] at h
      exact absurd h.2 (endsTerm_ne_call ends c')
    | _ => simp [Term.tokens] at h
  | .element name index, t', ks, ks', h, _, ends' => by
    cases t' with
    | var name' =>
      simp only [Term.tokens, List.cons_append, List.nil_append, List.cons.injEq] at h
      exact absurd h.2.symm (endsTerm_ne_bracket ends')
    | element name' index' =>
      simp only [Term.tokens, List.append_assoc, List.cons_append, List.nil_append,
        List.cons.injEq, TokenKind.identifier.injEq, true_and] at h
      obtain ⟨rfl, h⟩ := h
      obtain ⟨rfl, more⟩ := expression_unique h (endsExpression_symbol (by decide) _)
        (endsExpression_symbol (by decide) _)
      exact ⟨rfl, (List.cons.inj more).2⟩
    | call c' => cases c' <;> simp [Term.tokens, Call.tail] at h
    | _ => simp [Term.tokens] at h
  | .call c, t', ks, ks', h, _, ends' => by
    cases t' with
    | var name' =>
      simp only [Term.tokens, List.cons_append, List.nil_append, List.cons.injEq] at h
      exact absurd h.2.symm (endsTerm_ne_call ends' c)
    | element name' index' => cases c <;> simp [Term.tokens, Call.tail] at h
    | call c' =>
      simp only [Term.tokens, List.cons_append, List.cons.injEq, TokenKind.identifier.injEq] at h
      obtain ⟨rfl, rfl⟩ := call_unique h.1 h.2
      exact ⟨rfl, rfl⟩
    | _ => simp [Term.tokens] at h
  | .group e, t', ks, ks', h, _, _ => by
    cases t' with
    | group e' =>
      simp only [Term.tokens, List.append_assoc, List.cons_append, List.nil_append,
        List.cons.injEq, true_and] at h
      obtain ⟨rfl, more⟩ := expression_unique h (endsExpression_symbol (by decide) _)
        (endsExpression_symbol (by decide) _)
      exact ⟨rfl, (List.cons.inj more).2⟩
    | signed sign' t' => cases sign' <;> simp [Term.tokens, Sign.symbol] at h
    | _ => simp [Term.tokens] at h
  | .signed sign t, t', ks, ks', h, ends, ends' => by
    cases t' with
    | group e' => cases sign <;> simp [Term.tokens, Sign.symbol] at h
    | signed sign' t' =>
      simp only [Term.tokens, List.cons_append, List.cons.injEq, TokenKind.symbol.injEq] at h
      obtain ⟨rfl, rest⟩ := term_unique h.2 ends ends'
      rw [Sign.symbol_injective h.1]
      exact ⟨rfl, rest⟩
    | _ => simp [Term.tokens] at h
termination_by structural t => t

theorem expression_unique : ∀ {e e' : Expression} {ks ks' : List TokenKind},
    e.tokens ++ ks = e'.tokens ++ ks' → EndsExpression ks → EndsExpression ks' →
    e = e' ∧ ks = ks'
  | .mk first rest, .mk first' rest', ks, ks', h, ends, ends' => by
    simp only [Expression.tokens, List.append_assoc] at h
    obtain ⟨rfl, more⟩ := term_unique h (endsTerm_chain rest ends) (endsTerm_chain rest' ends')
    obtain ⟨rfl, last⟩ := chain_unique more ends ends'
    exact ⟨rfl, last⟩
termination_by structural e => e

theorem chain_unique : ∀ {c c' : Chain} {ks ks' : List TokenKind},
    c.tokens ++ ks = c'.tokens ++ ks' → EndsExpression ks → EndsExpression ks' →
    c = c' ∧ ks = ks'
  | .nil, c', ks, ks', h, ends, _ => by
    cases c' with
    | nil => exact ⟨rfl, h⟩
    | cons op' t' rest' => exact absurd (congrArg List.head? h) (ends.2 op')
  | .cons op t rest, c', ks, ks', h, ends, ends' => by
    cases c' with
    | nil => exact absurd (congrArg List.head? h).symm (ends'.2 op)
    | cons op' t' rest' =>
      simp only [Chain.tokens, List.cons_append, List.append_assoc, List.cons.injEq,
        TokenKind.symbol.injEq] at h
      obtain ⟨rfl, more⟩ := term_unique h.2 (endsTerm_chain rest ends) (endsTerm_chain rest' ends')
      obtain ⟨rfl, last⟩ := chain_unique more ends ends'
      rw [Operator.symbol_injective h.1]
      exact ⟨rfl, last⟩
termination_by structural c => c

theorem call_unique : ∀ {c c' : Call} {ks ks' : List TokenKind},
    c.first = c'.first → c.tail ++ ks = c'.tail ++ ks' → c = c' ∧ ks = ks'
  | .own name as, c', ks, ks', first, h => by
    cases c' with
    | own name' as' =>
      simp only [Call.tail, List.append_assoc, List.cons_append, List.nil_append, List.cons.injEq,
        true_and] at h
      obtain ⟨rfl, rest⟩ := arguments_unique h
      rw [show name = name' from first]
      exact ⟨rfl, rest⟩
    | qualified qualifier' name' as' => simp [Call.tail] at h
  | .qualified qualifier name as, c', ks, ks', first, h => by
    cases c' with
    | own name' as' => simp [Call.tail] at h
    | qualified qualifier' name' as' =>
      simp only [Call.tail, List.append_assoc, List.cons_append, List.nil_append, List.cons.injEq,
        TokenKind.identifier.injEq, true_and] at h
      obtain ⟨rfl, h⟩ := h
      obtain ⟨rfl, rest⟩ := arguments_unique h
      rw [show qualifier = qualifier' from first]
      exact ⟨rfl, rest⟩
termination_by structural c => c

theorem arguments_unique : ∀ {as as' : Arguments} {ks ks' : List TokenKind},
    as.tokens ++ .symbol ')' :: ks = as'.tokens ++ .symbol ')' :: ks' → as = as' ∧ ks = ks'
  | .nil, as', ks, ks', h => by
    cases as' with
    | nil => exact ⟨rfl, (List.cons.inj h).2⟩
    | cons e' rest' =>
      exact absurd (congrArg List.head? h).symm (arguments_head e' rest' _ (by decide))
  | .cons e rest, as', ks, ks', h => by
    cases as' with
    | nil => exact absurd (congrArg List.head? h) (arguments_head e rest _ (by decide))
    | cons e' rest' =>
      simp only [Arguments.tokens, List.append_assoc] at h
      obtain ⟨rfl, more⟩ := expression_unique h (endsExpression_tail rest ks)
        (endsExpression_tail rest' ks')
      obtain ⟨rfl, last⟩ := argumentsTail_unique more
      exact ⟨rfl, last⟩
termination_by structural as => as

theorem argumentsTail_unique : ∀ {as as' : Arguments} {ks ks' : List TokenKind},
    as.tail ++ .symbol ')' :: ks = as'.tail ++ .symbol ')' :: ks' → as = as' ∧ ks = ks'
  | .nil, as', ks, ks', h => by
    cases as' with
    | nil => exact ⟨rfl, (List.cons.inj h).2⟩
    | cons e' rest' => simp [Arguments.tail] at h
  | .cons e rest, as', ks, ks', h => by
    cases as' with
    | nil => simp [Arguments.tail] at h
    | cons e' rest' =>
      simp only [Arguments.tail, List.cons_append, List.append_assoc, List.cons.injEq,
        true_and] at h
      obtain ⟨rfl, more⟩ := expression_unique h (endsExpression_tail rest ks)
        (endsExpression_tail rest' ks')
      obtain ⟨rfl, last⟩ := argumentsTail_unique more
      exact ⟨rfl, last⟩
termination_by structural as => as

end

/-! ## Statements -/

/-- An expression in parentheses, or in brackets, or before a semicolon. -/
theorem expression_unique_of_symbol {e e' : Expression} {c : Char} {ks ks' : List TokenKind}
    (hc : c ∈ [')', ']', ',', ';'])
    (h : e.tokens ++ .symbol c :: ks = e'.tokens ++ .symbol c :: ks') : e = e' ∧ ks = ks' := by
  obtain ⟨rfl, more⟩ :=
    expression_unique h (endsExpression_symbol hc _) (endsExpression_symbol hc _)
  exact ⟨rfl, (List.cons.inj more).2⟩

/-- An expression is determined by its tokens. -/
theorem Expression.tokens_injective {e e' : Expression} (h : e.tokens = e'.tokens) : e = e' := by
  have h' : e.tokens ++ [.symbol ';'] = e'.tokens ++ [.symbol ';'] := by rw [h]
  exact (expression_unique_of_symbol (by decide) h').1

mutual

/-- An `else` always belongs to the statement before it. -/
theorem statement_unique : ∀ {s s' : Statement} {ks ks' : List TokenKind},
    s.tokens ++ ks = s'.tokens ++ ks' → ks.head? ≠ some (.keyword .else) →
    ks'.head? ≠ some (.keyword .else) → s = s' ∧ ks = ks'
  | .assign name value, s', ks, ks', h, _, _ => by
    cases s' with
    | assign name' value' =>
      simp only [Statement.tokens, List.append_assoc, List.cons_append, List.nil_append,
        List.cons.injEq, TokenKind.identifier.injEq, true_and] at h
      obtain ⟨rfl, h⟩ := h
      obtain ⟨rfl, more⟩ := expression_unique_of_symbol (by decide) h
      exact ⟨rfl, more⟩
    | leave value' => cases value' <;> simp [Statement.tokens] at h
    | _ => simp [Statement.tokens] at h
  | .assignElement name index value, s', ks, ks', h, _, _ => by
    cases s' with
    | assignElement name' index' value' =>
      simp only [Statement.tokens, List.append_assoc, List.cons_append, List.nil_append,
        List.cons.injEq, TokenKind.identifier.injEq, true_and] at h
      obtain ⟨rfl, h⟩ := h
      obtain ⟨rfl, more⟩ := expression_unique_of_symbol (by decide) h
      obtain ⟨rfl, last⟩ := expression_unique_of_symbol (by decide) (List.cons.inj more).2
      exact ⟨rfl, last⟩
    | leave value' => cases value' <;> simp [Statement.tokens] at h
    | _ => simp [Statement.tokens] at h
  | .when condition yes, s', ks, ks', h, ends, ends' => by
    cases s' with
    | when condition' yes' =>
      simp only [Statement.tokens, parentheses, braces, List.append_assoc, List.cons_append,
        List.nil_append, List.cons.injEq, true_and] at h
      obtain ⟨rfl, more⟩ := expression_unique_of_symbol (by decide) h
      obtain ⟨rfl, last⟩ := statements_unique (List.cons.inj more).2
      exact ⟨rfl, last⟩
    | choose condition' yes' no' =>
      simp only [Statement.tokens, parentheses, braces, List.append_assoc, List.cons_append,
        List.nil_append, List.cons.injEq, true_and] at h
      obtain ⟨rfl, more⟩ := expression_unique_of_symbol (by decide) h
      obtain ⟨rfl, last⟩ := statements_unique (List.cons.inj more).2
      exact absurd (by rw [last]; rfl) ends
    | leave value' => cases value' <;> simp [Statement.tokens] at h
    | _ => simp [Statement.tokens] at h
  | .choose condition yes no, s', ks, ks', h, ends, ends' => by
    cases s' with
    | when condition' yes' =>
      simp only [Statement.tokens, parentheses, braces, List.append_assoc, List.cons_append,
        List.nil_append, List.cons.injEq, true_and] at h
      obtain ⟨rfl, more⟩ := expression_unique_of_symbol (by decide) h
      obtain ⟨rfl, last⟩ := statements_unique (List.cons.inj more).2
      exact absurd (by rw [← last]; rfl) ends'
    | choose condition' yes' no' =>
      simp only [Statement.tokens, parentheses, braces, List.append_assoc, List.cons_append,
        List.nil_append, List.cons.injEq, true_and] at h
      obtain ⟨rfl, more⟩ := expression_unique_of_symbol (by decide) h
      obtain ⟨rfl, last⟩ := statements_unique (List.cons.inj more).2
      simp only [List.cons.injEq, true_and] at last
      obtain ⟨rfl, rest⟩ := statements_unique last
      exact ⟨rfl, rest⟩
    | leave value' => cases value' <;> simp [Statement.tokens] at h
    | _ => simp [Statement.tokens] at h
  | .loop condition body, s', ks, ks', h, _, _ => by
    cases s' with
    | loop condition' body' =>
      simp only [Statement.tokens, parentheses, braces, List.append_assoc, List.cons_append,
        List.nil_append, List.cons.injEq, true_and] at h
      obtain ⟨rfl, more⟩ := expression_unique_of_symbol (by decide) h
      obtain ⟨rfl, last⟩ := statements_unique (List.cons.inj more).2
      exact ⟨rfl, last⟩
    | leave value' => cases value' <;> simp [Statement.tokens] at h
    | _ => simp [Statement.tokens] at h
  | .perform call, s', ks, ks', h, _, _ => by
    cases s' with
    | perform call' =>
      simp only [Statement.tokens, Call.tokens, List.append_assoc, List.cons_append,
        List.nil_append, List.cons.injEq, TokenKind.identifier.injEq, true_and] at h
      obtain ⟨rfl, more⟩ := call_unique h.1 h.2
      exact ⟨rfl, (List.cons.inj more).2⟩
    | leave value' => cases value' <;> simp [Statement.tokens] at h
    | _ => simp [Statement.tokens] at h
  | .leave none, s', ks, ks', h, _, _ => by
    cases s' with
    | leave value' =>
      cases value' with
      | none => simpa [Statement.tokens] using h
      | some e' =>
        simp only [Statement.tokens, List.append_assoc, List.cons_append, List.nil_append,
          List.cons.injEq, true_and] at h
        exact absurd (congrArg List.head? h).symm (expression_head e' _ (by decide))
    | _ => simp [Statement.tokens] at h
  | .leave (some e), s', ks, ks', h, _, _ => by
    cases s' with
    | leave value' =>
      cases value' with
      | none =>
        simp only [Statement.tokens, List.append_assoc, List.cons_append, List.nil_append,
          List.cons.injEq, true_and] at h
        exact absurd (congrArg List.head? h) (expression_head e _ (by decide))
      | some e' =>
        simp only [Statement.tokens, List.append_assoc, List.cons_append, List.nil_append,
          List.cons.injEq, true_and] at h
        obtain ⟨rfl, more⟩ := expression_unique_of_symbol (by decide) h
        exact ⟨rfl, more⟩
    | _ => simp [Statement.tokens] at h
termination_by structural s => s

theorem statements_unique : ∀ {ss ss' : Statements} {ks ks' : List TokenKind},
    ss.tokens ++ .symbol '}' :: ks = ss'.tokens ++ .symbol '}' :: ks' → ss = ss' ∧ ks = ks'
  | .nil, ss', ks, ks', h => by
    cases ss' with
    | nil => exact ⟨rfl, (List.cons.inj h).2⟩
    | cons first' rest' =>
      obtain ⟨k, more, tokens, -⟩ := statement_head first'
      simp [Statements.tokens, tokens] at h
  | .cons first rest, ss', ks, ks', h => by
    cases ss' with
    | nil =>
      obtain ⟨k, more, tokens, -⟩ := statement_head first
      simp [Statements.tokens, tokens] at h
    | cons first' rest' =>
      simp only [Statements.tokens, List.append_assoc] at h
      obtain ⟨rfl, more⟩ := statement_unique h (statements_head rest ks).1
        (statements_head rest' ks').1
      obtain ⟨rfl, last⟩ := statements_unique more
      exact ⟨rfl, last⟩
termination_by structural ss => ss

end

/-- Statements are determined by their tokens. -/
theorem Statements.tokens_injective {ss ss' : Statements} (h : ss.tokens = ss'.tokens) :
    ss = ss' := by
  have h' : ss.tokens ++ [.symbol '}'] = ss'.tokens ++ [.symbol '}'] := by rw [h]
  exact (statements_unique h').1

/-! ## Classes -/

theorem DataType.token_injective {t t' : DataType} (h : t.token = t'.token) : t = t' := by
  cases t <;> cases t' <;> simp_all [DataType.token]

theorem ReturnType.token_injective {t t' : ReturnType} (h : t.token = t'.token) : t = t' := by
  cases t with
  | void =>
    cases t' with
    | void => rfl
    | data t' => cases t' <;> simp [ReturnType.token, DataType.token] at h
  | data t =>
    cases t' with
    | void => cases t <;> simp [ReturnType.token, DataType.token] at h
    | data t' => rw [DataType.token_injective h]

theorem nameTail_unique : ∀ {names names' : List String} {ks ks' : List TokenKind},
    nameTail names ++ .symbol ';' :: ks = nameTail names' ++ .symbol ';' :: ks' →
    names = names' ∧ ks = ks'
  | [], [], _, _, h => ⟨rfl, (List.cons.inj h).2⟩
  | [], _ :: _, _, _, h => by simp [nameTail] at h
  | _ :: _, [], _, _, h => by simp [nameTail] at h
  | name :: names, name' :: names', ks, ks', h => by
    simp only [nameTail, List.flatMap_cons, List.cons_append, List.nil_append, List.cons.injEq,
      TokenKind.identifier.injEq, true_and] at h
    obtain ⟨rfl, h⟩ := h
    obtain ⟨rfl, more⟩ := nameTail_unique h
    exact ⟨rfl, more⟩

theorem names_unique {d d' : Names} {ks ks' : List TokenKind}
    (h : d.tokens ++ ks = d'.tokens ++ ks') : d = d' ∧ ks = ks' := by
  obtain ⟨type, first, more⟩ := d
  obtain ⟨type', first', more'⟩ := d'
  simp only [Names.tokens, List.append_assoc, List.cons_append, List.nil_append, List.cons.injEq,
    TokenKind.identifier.injEq] at h
  obtain ⟨htype, rfl, h⟩ := h
  obtain ⟨rfl, last⟩ := nameTail_unique h
  rw [DataType.token_injective htype]
  exact ⟨rfl, last⟩

theorem parameter_unique {q q' : Parameter} {ks ks' : List TokenKind}
    (h : q.tokens ++ ks = q'.tokens ++ ks') : q = q' ∧ ks = ks' := by
  obtain ⟨type, name⟩ := q
  obtain ⟨type', name'⟩ := q'
  simp only [Parameter.tokens, List.cons_append, List.nil_append, List.cons.injEq,
    TokenKind.identifier.injEq] at h
  obtain ⟨htype, rfl, more⟩ := h
  rw [DataType.token_injective htype]
  exact ⟨rfl, more⟩

theorem parameterTail_unique : ∀ {ps ps' : List Parameter} {ks ks' : List TokenKind},
    (ps.flatMap fun q => .symbol ',' :: q.tokens) ++ .symbol ')' :: ks =
      (ps'.flatMap fun q => .symbol ',' :: q.tokens) ++ .symbol ')' :: ks' →
    ps = ps' ∧ ks = ks'
  | [], [], _, _, h => ⟨rfl, (List.cons.inj h).2⟩
  | [], _ :: _, _, _, h => by simp at h
  | _ :: _, [], _, _, h => by simp at h
  | q :: ps, q' :: ps', ks, ks', h => by
    simp only [List.flatMap_cons, List.append_assoc, List.cons_append, List.cons.injEq,
      true_and] at h
    obtain ⟨rfl, more⟩ := parameter_unique h
    obtain ⟨rfl, last⟩ := parameterTail_unique more
    exact ⟨rfl, last⟩

theorem parameters_unique {ps ps' : List Parameter} {ks ks' : List TokenKind}
    (h : parameterTokens ps ++ .symbol ')' :: ks = parameterTokens ps' ++ .symbol ')' :: ks') :
    ps = ps' ∧ ks = ks' := by
  cases ps with
  | nil =>
    cases ps' with
    | nil => exact ⟨rfl, (List.cons.inj h).2⟩
    | cons q' ps' => exact absurd (congrArg List.head? h).symm (parameterTokens_head q' ps' _)
  | cons q ps =>
    cases ps' with
    | nil => exact absurd (congrArg List.head? h) (parameterTokens_head q ps _)
    | cons q' ps' =>
      simp only [parameterTokens, List.append_assoc] at h
      obtain ⟨rfl, more⟩ := parameter_unique h
      obtain ⟨rfl, last⟩ := parameterTail_unique more
      exact ⟨rfl, last⟩

theorem locals_unique : ∀ {ls ls' : List Names} {ks ks' : List TokenKind},
    localTokens ls ++ ks = localTokens ls' ++ ks' → ks.head? ≠ some (.keyword .var) →
    ks'.head? ≠ some (.keyword .var) → ls = ls' ∧ ks = ks'
  | [], [], _, _, h, _, _ => ⟨rfl, h⟩
  | [], _ :: _, _, _, h, ends, _ => absurd (congrArg List.head? h) ends
  | _ :: _, [], _, _, h, _, ends' => absurd (congrArg List.head? h).symm ends'
  | d :: ls, d' :: ls', ks, ks', h, ends, ends' => by
    simp only [localTokens, List.flatMap_cons, List.append_assoc, List.cons_append,
      List.cons.injEq, true_and] at h
    obtain ⟨rfl, more⟩ := names_unique h
    obtain ⟨rfl, last⟩ := locals_unique more ends ends'
    exact ⟨rfl, last⟩

theorem subroutine_unique {r r' : Subroutine} {ks ks' : List TokenKind} (same : r.kind = r'.kind)
    (h : r.tail ++ ks = r'.tail ++ ks') : r = r' ∧ ks = ks' := by
  obtain ⟨kind, returns, name, parameters, locals, body⟩ := r
  obtain ⟨kind', returns', name', parameters', locals', body'⟩ := r'
  simp only [Subroutine.tail, parentheses, braces, List.append_assoc, List.cons_append,
    List.nil_append, List.cons.injEq, TokenKind.identifier.injEq, true_and] at h
  obtain ⟨hreturns, rfl, h⟩ := h
  obtain ⟨rfl, inside⟩ := parameters_unique h
  obtain ⟨rfl, statements⟩ := locals_unique (List.cons.inj inside).2
    (statements_head body ks).2 (statements_head body' ks').2
  obtain ⟨rfl, last⟩ := statements_unique statements
  rw [ReturnType.token_injective hreturns, show kind = kind' from same]
  exact ⟨rfl, last⟩

theorem subroutineKeyword_injective {k k' : SubroutineKind}
    (h : subroutineKeyword k = subroutineKeyword k') : k = k' := by
  cases k <;> cases k' <;> simp_all [subroutineKeyword]

theorem member_unique {m m' : Member} {ks ks' : List TokenKind}
    (h : m.tokens ++ ks = m'.tokens ++ ks') : m = m' ∧ ks = ks' := by
  have ne (k : SubroutineKind) :
      .static ≠ subroutineKeyword k ∧ .field ≠ subroutineKeyword k := by
    cases k <;> simp [subroutineKeyword]
  cases m with
  | statics d =>
    cases m' with
    | statics d' =>
      obtain ⟨rfl, more⟩ := names_unique (List.cons.inj h).2
      exact ⟨rfl, more⟩
    | fields d' => simp [Member.tokens] at h
    | subroutine r' => exact absurd (TokenKind.keyword.inj (List.cons.inj h).1) (ne _).1
  | fields d =>
    cases m' with
    | statics d' => simp [Member.tokens] at h
    | fields d' =>
      obtain ⟨rfl, more⟩ := names_unique (List.cons.inj h).2
      exact ⟨rfl, more⟩
    | subroutine r' => exact absurd (TokenKind.keyword.inj (List.cons.inj h).1) (ne _).2
  | subroutine r =>
    cases m' with
    | statics d' => exact absurd (TokenKind.keyword.inj (List.cons.inj h.symm).1) (ne _).1
    | fields d' => exact absurd (TokenKind.keyword.inj (List.cons.inj h.symm).1) (ne _).2
    | subroutine r' =>
      simp only [Member.tokens, List.cons_append, List.cons.injEq, TokenKind.keyword.injEq] at h
      obtain ⟨rfl, more⟩ := subroutine_unique (subroutineKeyword_injective h.1) h.2
      exact ⟨rfl, more⟩

theorem members_unique : ∀ {ms ms' : List Member} {ks ks' : List TokenKind},
    ms.flatMap Member.tokens ++ .symbol '}' :: ks =
      ms'.flatMap Member.tokens ++ .symbol '}' :: ks' → ms = ms' ∧ ks = ks'
  | [], [], _, _, h => ⟨rfl, (List.cons.inj h).2⟩
  | [], m' :: _, _, _, h => by cases m' <;> simp [Member.tokens] at h
  | m :: _, [], _, _, h => by cases m <;> simp [Member.tokens] at h
  | m :: ms, m' :: ms', ks, ks', h => by
    simp only [List.flatMap_cons, List.append_assoc] at h
    obtain ⟨rfl, more⟩ := member_unique h
    obtain ⟨rfl, last⟩ := members_unique more
    exact ⟨rfl, last⟩

/-- A class is determined by its tokens. -/
theorem Class.tokens_injective {c c' : Class} (h : c.tokens = c'.tokens) : c = c' := by
  obtain ⟨name, members⟩ := c
  obtain ⟨name', members'⟩ := c'
  simp only [Class.tokens, braces, List.cons_append, List.nil_append, List.cons.injEq,
    TokenKind.identifier.injEq, true_and] at h
  obtain ⟨rfl, h⟩ := h
  rw [(members_unique h).1]

end Jack.Syntax
