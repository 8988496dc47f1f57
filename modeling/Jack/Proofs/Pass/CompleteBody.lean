import Jack.Proofs.Pass.Complete

/-!
# Statements that the pass does not refuse

The same for statements as for expressions: one lemma for each form of statement, and then the
induction on the tree.
-/

namespace Jack.Pass

open Syntax

variable {σ : Type} [Sink σ] {cls : String} {p q : Progress σ}

/-! ## One statement -/

/-- What the pass does after the first word of a statement. -/
def statementPass (cls : String) (n : Nat) : Statement → Pass σ Unit
  | .assign _ _ => letStatement cls n
  | .assignElement _ _ _ => letStatement cls n
  | .when _ _ => ifStatement cls n
  | .choose _ _ _ => ifStatement cls n
  | .loop _ _ => whileStatement cls n
  | .perform _ => doStatement cls n
  | .leave _ => returnStatement cls n

theorem statements_more {s : Statement} {n : Nat} {ks : List TokenKind}
    (kinds : p.kinds = s.tokens ++ ks) :
    statements cls (n + 1) p = (do statementPass cls n s; statements cls n) (next p) := by
  rw [statements, bind_of_ok peek_apply, kinds]
  cases s with
  | leave value => cases value <;> rfl
  | _ => rfl

theorem statements_done {n : Nat} {ks : List TokenKind} (kinds : p.kinds = .symbol '}' :: ks) :
    statements cls (n + 1) p = .ok () p := by
  rw [statements, bind_of_ok peek_apply, kinds]
  rfl

/-- A statement starts with one of five words. -/
theorem condition_complete {e : Expression} {n k : Nat} {ks : List TokenKind}
    (valid : e.Valid (p.scope cls)) (kinds : p.kinds = parentheses e.tokens ++ ks)
    (roomy : Roomy p.sink) (room : 3 * e.tokens.length + 1 ≤ n) :
    Passes (condition cls n (label cls k)) p (parentheses e.tokens)
      (conditionCode (p.scope cls) e k) 0 ks := by
  simp only [parentheses, List.append_assoc, List.cons_append, List.nil_append] at kinds
  obtain ⟨p₁, hopen, step₁, kinds₁⟩ := symbol_ok kinds
  rw [← step₁.scope cls] at valid
  obtain ⟨p₂, he, step₂, kinds₂⟩ :=
    expression_complete e (n := n) valid kinds₁ (endsExpression_symbol (by decide) ks)
      (step₁.roomy roomy) room
  rw [step₁.scope] at step₂
  obtain ⟨p₃, hclose, step₃, kinds₃⟩ := symbol_ok kinds₂
  have step := (step₁.trans step₂).trans step₃
  obtain ⟨p₄, hjump, step₄⟩ :=
    emitAll_ok [.arithmetic .not, .ifGoto (label cls k)] (step.roomy roomy)
  refine ⟨p₄, ?_, ?_, step₄.kinds_eq.trans kinds₃⟩
  · rw [condition, bind_of_ok hopen, bind_of_ok he, bind_of_ok hclose, hjump]
  · simpa [parentheses, conditionCode, Progress.scope] using step.trans step₄

theorem assign_complete {name : String} {value : Expression} {n : Nat} {ks : List TokenKind}
    (valid : (Statement.assign name value).Valid (p.scope cls))
    (kinds : p.kinds = (Statement.assign name value).tokens.tail ++ ks) (roomy : Roomy p.sink)
    (room : 3 * value.tokens.length + 1 ≤ n) :
    Passes (letStatement cls n) p (Statement.assign name value).tokens.tail
      ((Statement.assign name value).code (p.scope cls) p.labels) 0 ks := by
  obtain ⟨v, hv⟩ := Option.isSome_iff_exists.1 valid.1
  have valid := valid.2
  simp only [Statement.tokens, List.append_assoc, List.cons_append, List.nil_append,
    List.tail_cons] at kinds
  obtain ⟨p₁, hname, step₁, kinds₁⟩ := identifier_ok kinds
  have hv₁ : p₁.symbols.lookup name = some v := by rw [step₁.symbols]; exact hv
  obtain ⟨p₂, heq, step₂, kinds₂⟩ := symbol_ok kinds₁
  have head := step₁.trans step₂
  rw [← head.scope cls] at valid
  obtain ⟨p₃, hvalue, step₃, kinds₃⟩ :=
    expression_complete value (n := n) valid kinds₂ (endsExpression_symbol (by decide) ks)
      (head.roomy roomy) room
  rw [head.scope] at step₃
  obtain ⟨p₄, hend, step₄, kinds₄⟩ := symbol_ok kinds₃
  have step := (head.trans step₃).trans step₄
  obtain ⟨p₅, hwrite, step₅⟩ := emit_ok v.pop (step.roomy roomy)
  refine ⟨p₅, ?_, ?_, step₅.kinds_eq.trans kinds₄⟩
  · rw [letStatement, bind_of_ok here_apply, bind_of_ok hname,
      bind_of_ok (resolve_eq_ok.2 ⟨hv₁, rfl⟩),
      bind_of_ok (accept_of_ne (by rw [kinds₁]; simp))]
    change (symbol '=' >>= _) p₁ = _
    rw [bind_of_ok heq, bind_of_ok hvalue, bind_of_ok hend, hwrite]
  · simpa [Statement.tokens, Statement.code, Scope.write, hv, save_eq_pop] using step.trans step₅

theorem assignElement_complete {name : String} {index value : Expression} {n : Nat}
    {ks : List TokenKind}
    (valid : (Statement.assignElement name index value).Valid (p.scope cls))
    (kinds : p.kinds = (Statement.assignElement name index value).tokens.tail ++ ks)
    (roomy : Roomy p.sink) (room : 3 * index.tokens.length + 1 ≤ n)
    (room' : 3 * value.tokens.length + 1 ≤ n) :
    Passes (letStatement cls n) p (Statement.assignElement name index value).tokens.tail
      ((Statement.assignElement name index value).code (p.scope cls) p.labels) 0 ks := by
  obtain ⟨v, hv⟩ := Option.isSome_iff_exists.1 valid.1
  obtain ⟨-, valid₁, valid₂⟩ := valid
  simp only [Statement.tokens, List.append_assoc, List.cons_append, List.nil_append,
    List.tail_cons] at kinds
  obtain ⟨p₁, hname, step₁, kinds₁⟩ := identifier_ok kinds
  have hv₁ : p₁.symbols.lookup name = some v := by rw [step₁.symbols]; exact hv
  obtain ⟨p₂, hopen, step₂, kinds₂⟩ := accept_ok kinds₁
  have head := step₁.trans step₂
  obtain ⟨p₃, hread, step₃⟩ := emit_ok v.push (head.roomy roomy)
  have head := head.trans step₃
  rw [← head.scope cls] at valid₁
  obtain ⟨p₄, hindex, step₄, kinds₄⟩ :=
    expression_complete index (n := n) valid₁ (step₃.kinds_eq.trans kinds₂)
      (endsExpression_symbol (by decide) _) (head.roomy roomy) room
  rw [head.scope] at step₄
  obtain ⟨p₅, hclose, step₅, kinds₅⟩ := symbol_ok kinds₄
  have middle := (head.trans step₄).trans step₅
  obtain ⟨p₆, hadd, step₆⟩ := emit_ok (.arithmetic .add) (middle.roomy roomy)
  obtain ⟨p₇, heq, step₇, kinds₇⟩ := symbol_ok (step₆.kinds_eq.trans kinds₅)
  have middle := (middle.trans step₆).trans step₇
  rw [← middle.scope cls] at valid₂
  obtain ⟨p₈, hvalue, step₈, kinds₈⟩ :=
    expression_complete value (n := n) valid₂ kinds₇ (endsExpression_symbol (by decide) ks)
      (middle.roomy roomy) room'
  rw [middle.scope] at step₈
  obtain ⟨p₉, hend, step₉, kinds₉⟩ := symbol_ok kinds₈
  have step := (middle.trans step₈).trans step₉
  obtain ⟨p₁₀, hstore, step₁₀⟩ := emitAll_ok storeElement (step.roomy roomy)
  refine ⟨p₁₀, ?_, ?_, step₁₀.kinds_eq.trans kinds₉⟩
  · rw [letStatement, bind_of_ok here_apply, bind_of_ok hname,
      bind_of_ok (resolve_eq_ok.2 ⟨hv₁, rfl⟩), bind_of_ok hopen]
    change (emit v.push >>= _) p₂ = _
    rw [bind_of_ok hread, bind_of_ok hindex, bind_of_ok hclose, bind_of_ok hadd, bind_of_ok heq,
      bind_of_ok hvalue, bind_of_ok hend, hstore]
  · simpa [Statement.tokens, Statement.code, Scope.read, hv, load_eq_push, storeElement] using
      step.trans step₁₀

theorem perform_complete {c : Call} {n : Nat} {ks : List TokenKind}
    (valid : c.Valid (p.scope cls)) (kinds : p.kinds = (Statement.perform c).tokens.tail ++ ks)
    (roomy : Roomy p.sink) (room : 3 * c.tail.length ≤ n) :
    Passes (doStatement cls n) p (Statement.perform c).tokens.tail
      ((Statement.perform c).code (p.scope cls) p.labels) 0 ks := by
  simp only [Statement.tokens, Call.tokens, List.append_assoc, List.cons_append, List.nil_append,
    List.tail_cons] at kinds
  obtain ⟨p₁, hname, step₁, kinds₁⟩ := identifier_ok kinds
  rw [← step₁.scope cls] at valid
  obtain ⟨p₂, hcall, step₂, kinds₂⟩ :=
    call_complete c (n := n) valid kinds₁ (step₁.roomy roomy) room
  rw [step₁.scope] at step₂
  obtain ⟨p₃, hend, step₃, kinds₃⟩ := symbol_ok kinds₂
  have step := (step₁.trans step₂).trans step₃
  obtain ⟨p₄, hdrop, step₄⟩ := emit_ok (.pop .temp 0) (step.roomy roomy)
  refine ⟨p₄, ?_, ?_, step₄.kinds_eq.trans kinds₃⟩
  · rw [doStatement, bind_of_ok hname, bind_of_ok hcall, bind_of_ok hend, hdrop]
  · simpa [Statement.tokens, Statement.code, Call.tokens] using step.trans step₄

theorem leave_complete {value : Option Expression} {n : Nat} {ks : List TokenKind}
    (valid : (Statement.leave value).Valid (p.scope cls))
    (kinds : p.kinds = (Statement.leave value).tokens.tail ++ ks) (roomy : Roomy p.sink)
    (room : 3 * (Statement.leave value).tokens.length ≤ n) :
    Passes (returnStatement cls n) p (Statement.leave value).tokens.tail
      ((Statement.leave value).code (p.scope cls) p.labels) 0 ks := by
  cases value with
  | none =>
    have hend : p.cursor.isSymbol ';' = true := by rw [isSymbol_iff, kinds]; rfl
    obtain ⟨p₁, hzero, step₁⟩ := emit_ok (.push .constant 0) roomy
    obtain ⟨p₂, hend', step₂, kinds₂⟩ := symbol_ok (step₁.kinds_eq.trans kinds)
    have step := step₁.trans step₂
    obtain ⟨p₃, hreturn, step₃⟩ := emit_ok .return (step.roomy roomy)
    refine ⟨p₃, ?_, ?_, step₃.kinds_eq.trans kinds₂⟩
    · rw [returnStatement, bind_of_ok get_apply, if_pos hend, bind_of_ok hzero]
      change (symbol ';' >>= _) p₁ = _
      rw [bind_of_ok hend', hreturn]
    · simpa [Statement.tokens, Statement.code] using step.trans step₃
  | some value =>
    simp only [Statement.tokens, List.append_assoc, List.cons_append, List.nil_append,
      List.tail_cons, List.length_cons, List.length_append] at kinds room
    have hend : ¬ p.cursor.isSymbol ';' = true := by
      rw [isSymbol_iff, kinds]
      exact expression_head value _ (by decide)
    obtain ⟨p₁, hvalue, step₁, kinds₁⟩ :=
      expression_complete value (n := n) valid kinds (endsExpression_symbol (by decide) ks) roomy
        (by omega)
    obtain ⟨p₂, hend', step₂, kinds₂⟩ := symbol_ok kinds₁
    have step := step₁.trans step₂
    obtain ⟨p₃, hreturn, step₃⟩ := emit_ok .return (step.roomy roomy)
    refine ⟨p₃, ?_, ?_, step₃.kinds_eq.trans kinds₂⟩
    · rw [returnStatement, bind_of_ok get_apply, if_neg hend, bind_of_ok hvalue]
      change (symbol ';' >>= _) p₁ = _
      rw [bind_of_ok hend', hreturn]
    · simpa [Statement.tokens, Statement.code] using step.trans step₃

/-- The pass goes over some statements that stand in braces. -/
def GoesOver (σ : Type) [Sink σ] (cls : String) (ss : Statements) : Prop :=
  ∀ {n : Nat} {p : Progress σ} {ks : List TokenKind},
    ss.Valid (p.scope cls) → p.kinds = ss.tokens ++ .symbol '}' :: ks → Roomy p.sink →
    3 * ss.tokens.length + 1 ≤ n →
    Passes (statements cls n) p ss.tokens (ss.code (p.scope cls) p.labels) ss.labels
      (.symbol '}' :: ks)

theorem block_complete {ss : Statements} {n : Nat} {ks : List TokenKind}
    (inside : GoesOver σ cls ss) (valid : ss.Valid (p.scope cls))
    (kinds : p.kinds = braces ss.tokens ++ ks) (roomy : Roomy p.sink)
    (room : 3 * ss.tokens.length + 2 ≤ n) :
    Passes (block cls n) p (braces ss.tokens) (ss.code (p.scope cls) p.labels) ss.labels ks := by
  obtain ⟨n, rfl⟩ : ∃ m, n = m + 1 := ⟨n - 1, by omega⟩
  simp only [braces, List.append_assoc, List.cons_append, List.nil_append] at kinds
  obtain ⟨p₁, hopen, step₁, kinds₁⟩ := symbol_ok kinds
  rw [← step₁.scope cls] at valid
  obtain ⟨p₂, hinside, step₂, kinds₂⟩ :=
    inside (n := n) valid kinds₁ (step₁.roomy roomy) (by omega)
  rw [step₁.scope, step₁.labels] at step₂
  obtain ⟨p₃, hclose, step₃, kinds₃⟩ := symbol_ok kinds₂
  refine ⟨p₃, ?_, ?_, kinds₃⟩
  · rw [block, bind_of_ok hopen, bind_of_ok hinside, hclose]
  · simpa [braces] using (step₁.trans step₂).trans step₃

/-- An `if` up to the label after its first block, and the name of the label at its end. -/
def ifStart (cls : String) (n : Nat) : Pass σ String := do
  let otherwise ← freshLabel cls
  let done ← freshLabel cls
  condition cls n otherwise
  block cls n
  emitAll [.goto done, .label otherwise]
  return done

/-- `(else block)?` -/
def elsePart (cls : String) (n : Nat) : Pass σ Unit := do
  if (← get).cursor.isKeyword .else then do
    advance
    block cls n
  else pure ()

theorem ifStatement_eq (cls : String) (n : Nat) :
    (ifStatement cls (n + 1) : Pass σ Unit) = (do
      let done ← ifStart cls n
      elsePart cls n
      emit (.label done)) := by
  simp only [ifStatement, ifStart, elsePart, ite_bind, bind_assoc, pure_bind]

theorem ifStart_complete {e : Expression} {yes : Statements} {n : Nat} {ks : List TokenKind}
    (inside : GoesOver σ cls yes) (valid₁ : e.Valid (p.scope cls))
    (valid₂ : yes.Valid (p.scope cls))
    (kinds : p.kinds = parentheses e.tokens ++ (braces yes.tokens ++ ks)) (roomy : Roomy p.sink)
    (room : 3 * e.tokens.length + 1 ≤ n) (room' : 3 * yes.tokens.length + 2 ≤ n) :
    ∃ q, ifStart cls n p = .ok (label cls (p.labels + 1)) q ∧
      Step p (parentheses e.tokens ++ braces yes.tokens)
        (conditionCode (p.scope cls) e p.labels ++ yes.code (p.scope cls) (p.labels + 2) ++
          [.goto (label cls (p.labels + 1)), .label (label cls p.labels)]) (yes.labels + 2) q ∧
      q.kinds = ks := by
  have fresh : Step p [] [] 2 { p with labels := p.labels + 1 + 1 } :=
    freshLabel_step.trans freshLabel_step
  rw [← fresh.scope cls] at valid₁
  obtain ⟨p₁, hcondition, step₁, kinds₁⟩ :=
    condition_complete (n := n) (k := p.labels) valid₁ (fresh.kinds_eq.trans kinds)
      (fresh.roomy roomy) room
  rw [fresh.scope] at step₁
  have head := fresh.trans step₁
  rw [← head.scope cls] at valid₂
  obtain ⟨p₂, hyes, step₂, kinds₂⟩ :=
    block_complete (n := n) inside valid₂ kinds₁ (head.roomy roomy) room'
  rw [head.scope, head.labels] at step₂
  have middle := head.trans step₂
  obtain ⟨p₃, hjump, step₃⟩ :=
    emitAll_ok [.goto (label cls (p.labels + 1)), .label (label cls p.labels)]
      (middle.roomy roomy)
  refine ⟨p₃, ?_, ?_, step₃.kinds_eq.trans kinds₂⟩
  · rw [ifStart, bind_of_ok freshLabel_apply, bind_of_ok freshLabel_apply, bind_of_ok hcondition,
      bind_of_ok hyes, bind_of_ok hjump]
    rfl
  · simpa [Nat.add_comm] using middle.trans step₃

theorem when_complete {e : Expression} {yes : Statements} {n : Nat} {ks : List TokenKind}
    (inside : GoesOver σ cls yes) (valid : (Statement.when e yes).Valid (p.scope cls))
    (kinds : p.kinds = (Statement.when e yes).tokens.tail ++ ks)
    (ends : ks.head? ≠ some (.keyword .else)) (roomy : Roomy p.sink)
    (room : 3 * (Statement.when e yes).tokens.length ≤ n) :
    Passes (ifStatement cls n) p (Statement.when e yes).tokens.tail
      ((Statement.when e yes).code (p.scope cls) p.labels) (Statement.when e yes).labels ks := by
  simp only [Statement.tokens, List.tail_cons, List.append_assoc, List.length_cons,
    List.length_append, parentheses, braces] at kinds room
  obtain ⟨n, rfl⟩ : ∃ m, n = m + 1 := ⟨n - 1, by omega⟩
  obtain ⟨p₁, hstart, step₁, kinds₁⟩ :=
    ifStart_complete (n := n) inside valid.1 valid.2
      (by simpa [parentheses, braces] using kinds) roomy (by omega) (by omega)
  obtain ⟨p₂, hlast, step₂⟩ :=
    emit_ok (.label (label cls (p.labels + 1))) (step₁.roomy roomy)
  have helse : ¬ p₁.cursor.isKeyword .else = true := by rwa [isKeyword_iff, kinds₁]
  refine ⟨p₂, ?_, ?_, step₂.kinds_eq.trans kinds₁⟩
  · rw [ifStatement_eq, bind_of_ok hstart, elsePart, bind_assoc, bind_of_ok get_apply, if_neg helse]
    exact hlast
  · simpa [Statement.tokens, Statement.code, Statement.labels, Progress.scope] using
      step₁.trans step₂

theorem choose_complete {e : Expression} {yes no : Statements} {n : Nat} {ks : List TokenKind}
    (inside : GoesOver σ cls yes) (inside' : GoesOver σ cls no)
    (valid : (Statement.choose e yes no).Valid (p.scope cls))
    (kinds : p.kinds = (Statement.choose e yes no).tokens.tail ++ ks) (roomy : Roomy p.sink)
    (room : 3 * (Statement.choose e yes no).tokens.length ≤ n) :
    Passes (ifStatement cls n) p (Statement.choose e yes no).tokens.tail
      ((Statement.choose e yes no).code (p.scope cls) p.labels)
      (Statement.choose e yes no).labels ks := by
  obtain ⟨valid₁, valid₂, valid₃⟩ := valid
  simp only [Statement.tokens, List.tail_cons, List.append_assoc, List.length_cons,
    List.length_append, parentheses, braces] at kinds room
  obtain ⟨n, rfl⟩ : ∃ m, n = m + 1 := ⟨n - 1, by omega⟩
  have kinds : p.kinds = parentheses e.tokens ++ (braces yes.tokens ++
      .keyword .else :: (braces no.tokens ++ ks)) := by
    simpa [parentheses, braces] using kinds
  obtain ⟨p₁, hstart, step₁, kinds₁⟩ :=
    ifStart_complete (n := n) inside valid₁ valid₂ kinds roomy (by omega) (by omega)
  have helse : p₁.cursor.isKeyword .else = true := by rw [isKeyword_iff, kinds₁]; rfl
  obtain ⟨step₂, kinds₂⟩ := next_ok kinds₁
  have head := step₁.trans step₂
  rw [← head.scope cls] at valid₃
  obtain ⟨p₃, hno, step₃, kinds₃⟩ :=
    block_complete (n := n) inside' valid₃ kinds₂ (head.roomy roomy) (by omega)
  rw [head.scope, head.labels] at step₃
  have middle := head.trans step₃
  obtain ⟨p₄, hlast, step₄⟩ :=
    emit_ok (.label (label cls (p.labels + 1))) (middle.roomy roomy)
  refine ⟨p₄, ?_, ?_, step₄.kinds_eq.trans kinds₃⟩
  · rw [ifStatement_eq, bind_of_ok hstart, elsePart, bind_assoc, bind_of_ok get_apply,
      if_pos helse, bind_assoc, bind_of_ok advance_apply, bind_of_ok hno]
    exact hlast
  · simpa [Statement.tokens, Statement.code, Statement.labels, Progress.scope, Nat.add_assoc,
      Nat.add_comm, Nat.add_left_comm] using middle.trans step₄

theorem loop_complete {e : Expression} {body : Statements} {n : Nat} {ks : List TokenKind}
    (inside : GoesOver σ cls body) (valid : (Statement.loop e body).Valid (p.scope cls))
    (kinds : p.kinds = (Statement.loop e body).tokens.tail ++ ks) (roomy : Roomy p.sink)
    (room : 3 * (Statement.loop e body).tokens.length ≤ n) :
    Passes (whileStatement cls n) p (Statement.loop e body).tokens.tail
      ((Statement.loop e body).code (p.scope cls) p.labels) (Statement.loop e body).labels ks := by
  obtain ⟨valid₁, valid₂⟩ := valid
  simp only [Statement.tokens, List.tail_cons, List.append_assoc, List.length_cons,
    List.length_append, parentheses, braces] at kinds room
  obtain ⟨n, rfl⟩ : ∃ m, n = m + 1 := ⟨n - 1, by omega⟩
  have fresh : Step p [] [] 2 { p with labels := p.labels + 1 + 1 } :=
    freshLabel_step.trans freshLabel_step
  obtain ⟨p₁, htop, step₁⟩ := emit_ok (.label (label cls p.labels)) (fresh.roomy roomy)
  have top := fresh.trans step₁
  rw [← top.scope cls] at valid₁
  have kinds₁ : p₁.kinds = parentheses e.tokens ++ (braces body.tokens ++ ks) := by
    rw [top.kinds_eq, kinds]
    simp [parentheses, braces]
  obtain ⟨p₂, hcondition, step₂, kinds₂⟩ :=
    condition_complete (n := n) (k := p.labels + 1) valid₁ kinds₁ (top.roomy roomy) (by omega)
  rw [top.scope] at step₂
  have head := top.trans step₂
  rw [← head.scope cls] at valid₂
  obtain ⟨p₃, hbody, step₃, kinds₃⟩ :=
    block_complete (n := n) inside valid₂ kinds₂ (head.roomy roomy) (by omega)
  rw [head.scope, head.labels] at step₃
  have middle := head.trans step₃
  obtain ⟨p₄, hlast, step₄⟩ :=
    emitAll_ok [.goto (label cls p.labels), .label (label cls (p.labels + 1))]
      (middle.roomy roomy)
  refine ⟨p₄, ?_, ?_, step₄.kinds_eq.trans kinds₃⟩
  · rw [whileStatement, bind_of_ok freshLabel_apply, bind_of_ok freshLabel_apply,
      bind_of_ok htop, bind_of_ok hcondition, bind_of_ok hbody]
    exact hlast
  · simpa [Statement.tokens, Statement.code, Statement.labels, Progress.scope, Nat.add_comm] using
      middle.trans step₄

mutual

theorem statements_complete : ∀ ss : Statements, GoesOver σ cls ss
  | _, 0, _, _, _, _, _, room => absurd room (Nat.not_succ_le_zero _)
  | .nil, n + 1, p, ks, _, kinds, _, _ => ⟨p, statements_done kinds, .refl p, kinds⟩
  | .cons s rest, n + 1, p, ks, valid, kinds, roomy, room => by
    obtain ⟨valid₁, valid₂⟩ := valid
    obtain ⟨k, more, tokens, -⟩ := statement_head s
    simp only [Statements.tokens, List.append_assoc, List.length_append] at kinds room
    have kinds' := kinds
    rw [tokens, List.cons_append] at kinds'
    obtain ⟨step₁, kinds₁⟩ := next_ok kinds'
    have tail : s.tokens.tail = more := by rw [tokens, List.tail_cons]
    rw [← step₁.scope cls] at valid₁
    obtain ⟨p₂, hfirst, step₂, kinds₂⟩ :=
      statement_complete s (n := n) valid₁ (by rw [kinds₁, tail]) (statements_head rest ks).1
        (step₁.roomy roomy) (by omega)
    rw [step₁.scope] at step₂
    have head := step₁.trans step₂
    rw [← head.scope cls] at valid₂
    have pos : 0 < s.tokens.length := by rw [tokens]; exact Nat.succ_pos _
    obtain ⟨p₃, hrest, step₃, kinds₃⟩ :=
      statements_complete rest (n := n) valid₂ kinds₂ (head.roomy roomy) (by omega)
    rw [head.scope, head.labels] at step₃
    refine ⟨p₃, ?_, ?_, kinds₃⟩
    · rw [statements_more kinds, bind_of_ok hfirst, hrest]
    · rw [tail] at head
      simpa [Statements.tokens, Statements.code, Statements.labels, tokens] using head.trans step₃
termination_by structural ss => ss

theorem statement_complete :
    ∀ (s : Statement) {n : Nat} {p : Progress σ} {ks : List TokenKind},
      s.Valid (p.scope cls) → p.kinds = s.tokens.tail ++ ks →
      ks.head? ≠ some (.keyword .else) → Roomy p.sink → 3 * s.tokens.length ≤ n →
      Passes (statementPass cls n s) p s.tokens.tail (s.code (p.scope cls) p.labels) s.labels ks
  | .assign name value, n, p, ks, valid, kinds, _, roomy, room => by
    simp only [Statement.tokens, List.length_append, List.length_cons] at room
    exact assign_complete valid kinds roomy (by omega)
  | .assignElement name index value, n, p, ks, valid, kinds, _, roomy, room => by
    simp only [Statement.tokens, List.length_append, List.length_cons] at room
    exact assignElement_complete valid kinds roomy (by omega) (by omega)
  | .when e yes, n, p, ks, valid, kinds, ends, roomy, room =>
    when_complete (statements_complete yes) valid kinds ends roomy room
  | .choose e yes no, n, p, ks, valid, kinds, _, roomy, room =>
    choose_complete (statements_complete yes) (statements_complete no) valid kinds roomy room
  | .loop e body, n, p, ks, valid, kinds, _, roomy, room =>
    loop_complete (statements_complete body) valid kinds roomy room
  | .perform c, n, p, ks, valid, kinds, _, roomy, room => by
    simp only [Statement.tokens, Call.tokens, List.length_append, List.length_cons] at room
    exact perform_complete valid kinds roomy (by omega)
  | .leave value, n, p, ks, valid, kinds, _, roomy, room => leave_complete valid kinds roomy room
termination_by structural s => s

end

end Jack.Pass
