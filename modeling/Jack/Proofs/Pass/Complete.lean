import Jack.Proofs.Pass.Sound
import Jack.Proofs.Syntax.First

/-!
# What the pass does not refuse

Where the tokens of a valid tree stand, and what follows cannot belong to it, the pass goes over
exactly these tokens and writes the code of the tree. This is by induction on the tree. The sink
has to take what is written, and the allowance has to be large enough for the tokens.
-/

namespace Jack.Pass

open Syntax

/-! ## Expressions -/

variable {σ : Type} [Sink σ] {cls : String} {p q : Progress σ}

/-- The pass goes over the tokens `ks`, up to `rest`, and writes `code`. -/
def Passes (x : Pass σ Unit) (p : Progress σ) (ks : List TokenKind) (code : List Instruction)
    (n : Nat) (rest : List TokenKind) : Prop :=
  ∃ q, x p = .ok () q ∧ Step p ks code n q ∧ q.kinds = rest

theorem callee_own (cls name : String) {ks : List TokenKind} (roomy : Roomy p.sink)
    (kinds : p.kinds = .symbol '(' :: ks) :
    ∃ q, callee cls name p = .ok (cls ++ "." ++ name, 1) q ∧ Step p [] [.push .pointer 0] 0 q := by
  obtain ⟨q, hemit, step⟩ := emit_ok (p := p) (.push .pointer 0) roomy
  have hdot : p.kinds.head? ≠ some (.symbol '.') := by rw [kinds]; simp
  refine ⟨q, ?_, step⟩
  rw [callee, bind_of_ok (accept_of_ne hdot)]
  exact bind_of_ok hemit _

theorem callee_qualified (cls qualifier : String) {name : String} {ks : List TokenKind}
    (roomy : Roomy p.sink) (kinds : p.kinds = .symbol '.' :: .identifier name :: ks) :
    ∃ q, callee cls qualifier p = .ok ((p.scope cls).target qualifier name,
        ((p.scope cls).read qualifier).length) q ∧
      Step p [.symbol '.', .identifier name] ((p.scope cls).read qualifier) 0 q := by
  obtain ⟨p₁, hdot, step₁, kinds₁⟩ := accept_ok kinds
  obtain ⟨p₂, hname, step₂, kinds₂⟩ := identifier_ok kinds₁
  have step := step₁.trans step₂
  cases hv : p.symbols.lookup qualifier with
  | none =>
    refine ⟨p₂, ?_, ?_⟩
    · rw [callee, bind_of_ok hdot]
      change (identifier >>= _) p₁ = _
      rw [bind_of_ok hname, bind_of_ok lookup_apply, step.symbols, hv]
      simp [Scope.target, Scope.read, Progress.scope, hv]
      rfl
    · simpa [Scope.read, Progress.scope, hv] using step
  | some v =>
    obtain ⟨p₃, hemit, step₃⟩ := emit_ok v.push (step.roomy roomy)
    refine ⟨p₃, ?_, ?_⟩
    · rw [callee, bind_of_ok hdot]
      change (identifier >>= _) p₁ = _
      rw [bind_of_ok hname, bind_of_ok lookup_apply, step.symbols, hv]
      change (emit v.push >>= _) p₂ = _
      rw [bind_of_ok hemit]
      simp [Scope.target, Scope.read, Progress.scope, hv]
      rfl
    · simpa [Scope.read, Progress.scope, hv, load_eq_push] using step.trans step₃

/-! ### What the current token decides -/

section Cases

variable {n : Nat}

theorem operators_done (ends : ∀ op : Operator, p.kinds.head? ≠ some (.symbol op.symbol)) :
    operators cls (n + 1) p = .ok () p := by
  rw [operators, bind_of_ok peek_apply]
  change EStateM.run _ p = _
  split
  · next c hc =>
    split
    · next i hi =>
      obtain ⟨op, rfl, -⟩ := exists_operator hi
      exact absurd hc (ends op)
    · rfl
  · rfl

theorem operators_more {op : Operator} (h : p.kinds.head? = some (.symbol op.symbol)) :
    operators cls (n + 1) p = (do term cls n; emit op.code; operators cls n) (next p) := by
  rw [operators, bind_of_ok peek_apply, h]
  cases op <;> rfl

theorem term_int {k : Nat} (h : p.kinds.head? = some (.int k)) :
    term cls (n + 1) p = emit (.push .constant k) (next p) := by
  rw [term, bind_of_ok here_apply, bind_of_ok peek_apply, h]
  rfl

theorem term_string {text : String} (h : p.kinds.head? = some (.string text)) :
    term cls (n + 1) p = stringConstant text p.cursor.span (next p) := by
  rw [term, bind_of_ok here_apply, bind_of_ok peek_apply, h]
  rfl

theorem term_constant {c : Constant} (h : p.kinds.head? = some (.keyword c.keyword)) :
    term cls (n + 1) p = (do emitAll c.code; advance) p := by
  rw [term, bind_of_ok here_apply, bind_of_ok peek_apply, h]
  cases c <;> simp only [Constant.code, emitAll, bind_assoc, pure_bind] <;> rfl

theorem term_group (h : p.kinds.head? = some (.symbol '(')) :
    term cls (n + 1) p = (do expression cls n; symbol ')') (next p) := by
  rw [term, bind_of_ok here_apply, bind_of_ok peek_apply, h]
  rfl

theorem term_signed {sign : Sign} (h : p.kinds.head? = some (.symbol sign.symbol)) :
    term cls (n + 1) p = (do term cls n; emit sign.code) (next p) := by
  rw [term, bind_of_ok here_apply, bind_of_ok peek_apply, h]
  cases sign <;> rfl

theorem term_call {name : String} {c : Char} (h : p.kinds.head? = some (.identifier name))
    (hc : c = '(' ∨ c = '.') (h' : (next p).kinds.head? = some (.symbol c)) :
    term cls (n + 1) p = call cls name n (next p) := by
  rw [term, bind_of_ok here_apply, bind_of_ok peek_apply, h]
  change (advance >>= _) p = _
  rw [bind_of_ok advance_apply, bind_of_ok peek_apply, h']
  rcases hc with rfl | rfl <;> rfl

theorem term_element {name : String} {v : Variable}
    (h : p.kinds.head? = some (.identifier name)) (hv : p.symbols.lookup name = some v)
    (h' : (next p).kinds.head? = some (.symbol '[')) :
    term cls (n + 1) p = (do
      emit v.push
      expression cls n
      symbol ']'
      emitAll [.arithmetic .add, .pop .pointer 1, .push .that 0]) (next (next p)) := by
  rw [term, bind_of_ok here_apply, bind_of_ok peek_apply, h]
  change (advance >>= _) p = _
  rw [bind_of_ok advance_apply, bind_of_ok peek_apply, h']
  change (resolve name _ >>= _) (next p) = _
  rw [bind_of_ok ((resolve_eq_ok (p := next p)).2 ⟨hv, rfl⟩), bind_of_ok advance_apply]

theorem term_variable {name : String} {v : Variable}
    (h : p.kinds.head? = some (.identifier name)) (hv : p.symbols.lookup name = some v)
    (ends : EndsTerm (next p).kinds) :
    term cls (n + 1) p = emit v.push (next p) := by
  rw [term, bind_of_ok here_apply, bind_of_ok peek_apply, h]
  change (advance >>= _) p = _
  rw [bind_of_ok advance_apply, bind_of_ok peek_apply]
  change EStateM.run _ (next p) = _
  split
  · next hc => exact absurd hc (ends '(' (by decide))
  · next hc => exact absurd hc (ends '.' (by decide))
  · next hc => exact absurd hc (ends '[' (by decide))
  · exact bind_of_ok ((resolve_eq_ok (p := next p)).2 ⟨hv, rfl⟩) _

end Cases

/-- The pass goes over some arguments and counts them. -/
def CountsArguments (σ : Type) [Sink σ] (cls : String) (as : Arguments) : Prop :=
  ∀ (before : Nat) {n : Nat} {p : Progress σ} {ks : List TokenKind}, as ≠ .nil →
    as.Valid (p.scope cls) → p.kinds = as.tokens ++ ks → EndsExpression ks →
    ks.head? ≠ some (.symbol ',') → Roomy p.sink → before + as.length ≤ maxArguments →
    3 * as.tokens.length + 2 ≤ n →
    ∃ q, arguments cls before n p = .ok (before + as.length) q ∧
      Step p as.tokens (as.code (p.scope cls)) 0 q ∧ q.kinds = ks

theorem argumentList_complete {as : Arguments} {n : Nat} {ks : List TokenKind}
    (counts : CountsArguments σ cls as) (valid : as.Valid (p.scope cls))
    (kinds : p.kinds = as.tokens ++ .symbol ')' :: ks) (roomy : Roomy p.sink)
    (limit : as.length ≤ maxArguments) (room : 3 * as.tokens.length + 2 ≤ n) :
    ∃ q, argumentList cls n p = .ok as.length q ∧
      Step p as.tokens (as.code (p.scope cls)) 0 q ∧ q.kinds = .symbol ')' :: ks := by
  cases as with
  | nil =>
    have hclose : p.cursor.isSymbol ')' = true := by rw [isSymbol_iff, kinds]; rfl
    refine ⟨p, ?_, .refl p, kinds⟩
    rw [argumentList, bind_of_ok get_apply, if_pos hclose]
    rfl
  | cons e as =>
    have hopen : ¬ p.cursor.isSymbol ')' = true := by
      rw [isSymbol_iff, kinds]
      exact arguments_head e as _ (by decide)
    obtain ⟨q, h, step, kinds'⟩ :=
      counts 0 (n := n) (by simp) valid kinds
        (endsExpression_symbol (by decide) ks) (by simp) roomy (by omega) room
    refine ⟨q, ?_, step, kinds'⟩
    rw [argumentList, bind_of_ok get_apply, if_neg hopen, h, Nat.zero_add]

/-- A call whose head is consumed, where `code` reads the object that is passed unseen. -/
theorem call_of_arguments {name target : String} {unseen n : Nat} {as : Arguments}
    {head ks : List TokenKind} {code : List Instruction} {p₁ : Progress σ}
    (counts : CountsArguments σ cls as) (hcallee : callee cls name p = .ok (target, unseen) p₁)
    (step₁ : Step p head code 0 p₁)
    (kinds : p₁.kinds = .symbol '(' :: (as.tokens ++ .symbol ')' :: ks))
    (valid : as.Valid (p.scope cls)) (limit : as.length + unseen ≤ maxArguments)
    (roomy : Roomy p.sink) (room : 3 * as.tokens.length + 3 ≤ n) :
    Passes (call cls name n) p (head ++ [.symbol '('] ++ as.tokens ++ [.symbol ')'])
      (code ++ as.code (p.scope cls) ++ [.call target (as.length + unseen)]) 0 ks := by
  obtain ⟨n, rfl⟩ : ∃ m, n = m + 1 := ⟨n - 1, by omega⟩
  obtain ⟨p₂, hopen, step₂, kinds₂⟩ := symbol_ok kinds
  have start := step₁.trans step₂
  rw [← start.scope cls] at valid
  obtain ⟨p₃, hseen, step₃, kinds₃⟩ :=
    argumentList_complete (n := n) counts valid kinds₂ (start.roomy roomy) (by omega) (by omega)
  rw [start.scope] at step₃
  obtain ⟨p₄, hclose, step₄, kinds₄⟩ := symbol_ok kinds₃
  have middle := (start.trans step₃).trans step₄
  obtain ⟨p₅, hemit, step₅⟩ := emit_ok (.call target (as.length + unseen)) (middle.roomy roomy)
  refine ⟨p₅, ?_, ?_, step₅.kinds_eq.trans kinds₄⟩
  · rw [call_eq, bind_of_ok here_apply, bind_of_ok hcallee]
    change (symbol '(' >>= _) p₁ = _
    rw [bind_of_ok hopen, bind_of_ok hseen, bind_of_ok hclose, if_pos limit, hemit]
  · simpa using middle.trans step₅

/-! ### Induction on the tree -/

mutual

theorem expression_complete :
    ∀ (e : Expression) {n : Nat} {p : Progress σ} {ks : List TokenKind},
      e.Valid (p.scope cls) → p.kinds = e.tokens ++ ks → EndsExpression ks → Roomy p.sink →
      3 * e.tokens.length + 1 ≤ n →
      Passes (expression cls n) p e.tokens (e.code (p.scope cls)) 0 ks
  | .mk first rest, 0, _, _, _, _, _, _, room => absurd room (Nat.not_succ_le_zero _)
  | .mk first rest, n + 1, p, ks, valid, kinds, ends, roomy, room => by
    have pos := length_tokens_pos first
    simp only [Expression.tokens, List.append_assoc, List.length_append] at kinds room
    obtain ⟨p₁, hfirst, step₁, kinds₁⟩ :=
      term_complete first (n := n) valid.1 kinds (endsTerm_chain rest ends) roomy (by omega)
    have valid₂ := valid.2
    rw [← step₁.scope cls] at valid₂
    obtain ⟨p₂, hrest, step₂, kinds₂⟩ :=
      operators_complete rest (n := n) valid₂ kinds₁ ends (step₁.roomy roomy) (by omega)
    rw [step₁.scope] at step₂
    refine ⟨p₂, ?_, step₁.trans step₂, kinds₂⟩
    rw [expression, bind_of_ok hfirst, hrest]
termination_by structural x => x

theorem operators_complete :
    ∀ (c : Chain) {n : Nat} {p : Progress σ} {ks : List TokenKind},
      c.Valid (p.scope cls) → p.kinds = c.tokens ++ ks → EndsExpression ks → Roomy p.sink →
      3 * c.tokens.length + 1 ≤ n →
      Passes (operators cls n) p c.tokens (c.code (p.scope cls)) 0 ks
  | _, 0, _, _, _, _, _, _, room => absurd room (Nat.not_succ_le_zero _)
  | .nil, n + 1, p, ks, _, kinds, ends, _, _ => by
    have kinds : p.kinds = ks := kinds
    exact ⟨p, operators_done (by rw [kinds]; exact ends.2), .refl p, kinds⟩
  | .cons op t rest, n + 1, p, ks, valid, kinds, ends, roomy, room => by
    simp only [Chain.tokens, List.append_assoc, List.cons_append, List.length_cons,
      List.length_append] at kinds room
    obtain ⟨step₁, kinds₁⟩ := next_ok kinds
    have valid₁ := valid.1
    rw [← step₁.scope cls] at valid₁
    obtain ⟨p₂, hterm, step₂, kinds₂⟩ :=
      term_complete t (n := n) valid₁ kinds₁ (endsTerm_chain rest ends) (step₁.roomy roomy)
        (by omega)
    rw [step₁.scope] at step₂
    have step := step₁.trans step₂
    obtain ⟨p₃, hemit, step₃⟩ := emit_ok op.code (step.roomy roomy)
    have step := step.trans step₃
    have valid₂ := valid.2
    rw [← step.scope cls] at valid₂
    obtain ⟨p₄, hrest, step₄, kinds₄⟩ :=
      operators_complete rest (n := n) valid₂ (step₃.kinds_eq.trans kinds₂) ends
        (step.roomy roomy) (by omega)
    rw [step.scope] at step₄
    refine ⟨p₄, ?_, ?_, kinds₄⟩
    · rw [operators_more (by rw [kinds]; rfl), bind_of_ok hterm, bind_of_ok hemit, hrest]
    · simpa [Chain.tokens, Chain.code] using step.trans step₄
termination_by structural x => x

theorem term_complete :
    ∀ (t : Term) {n : Nat} {p : Progress σ} {ks : List TokenKind},
      t.Valid (p.scope cls) → p.kinds = t.tokens ++ ks → EndsTerm ks → Roomy p.sink →
      3 * t.tokens.length ≤ n →
      Passes (term cls n) p t.tokens (t.code (p.scope cls)) 0 ks
  | t, 0, _, _, _, _, _, _, room => by
    have := length_tokens_pos t
    omega
  | .int k, n + 1, p, ks, _, kinds, _, roomy, _ => by
    obtain ⟨step₁, kinds₁⟩ := next_ok kinds
    obtain ⟨q, hemit, step₂⟩ := emit_ok (.push .constant k) (step₁.roomy roomy)
    refine ⟨q, ?_, step₁.trans step₂, step₂.kinds_eq.trans kinds₁⟩
    rw [term_int (by rw [kinds]; rfl), hemit]
  | .string text, n + 1, p, ks, valid, kinds, _, roomy, _ => by
    obtain ⟨step₁, kinds₁⟩ := next_ok kinds
    obtain ⟨q, hemit, step₂⟩ := emitAll_ok (stringCode text) (step₁.roomy roomy)
    refine ⟨q, ?_, step₁.trans step₂, step₂.kinds_eq.trans kinds₁⟩
    rw [term_string (by rw [kinds]; rfl), stringConstant, if_pos (isEncodable_iff.2 valid), hemit]
  | .constant c, n + 1, p, ks, _, kinds, _, roomy, _ => by
    obtain ⟨q, hemit, step₁⟩ := emitAll_ok c.code roomy
    obtain ⟨step₂, kinds₂⟩ := next_ok (step₁.kinds_eq.trans kinds)
    refine ⟨next q, ?_, ?_, kinds₂⟩
    · rw [term_constant (by rw [kinds]; rfl), bind_of_ok hemit]
      rfl
    · simpa [Term.tokens, Term.code] using step₁.trans step₂
  | .var name, n + 1, p, ks, valid, kinds, ends, roomy, _ => by
    obtain ⟨v, hv⟩ := Option.isSome_iff_exists.1 valid
    obtain ⟨step₁, kinds₁⟩ := next_ok kinds
    obtain ⟨q, hemit, step₂⟩ := emit_ok v.push (step₁.roomy roomy)
    have kinds₁ : (next p).kinds = ks := kinds₁
    refine ⟨q, ?_, ?_, step₂.kinds_eq.trans kinds₁⟩
    · rw [term_variable (by rw [kinds]; rfl) hv (by rw [kinds₁]; exact ends), hemit]
    · simpa [Term.tokens, Term.code, Scope.read, hv, load_eq_push] using step₁.trans step₂
  | .element name index, n + 1, p, ks, valid, kinds, ends, roomy, room => by
    obtain ⟨v, hv⟩ := Option.isSome_iff_exists.1 valid.1
    simp only [Term.tokens, List.append_assoc, List.cons_append, List.nil_append, List.length_cons,
      List.length_append] at kinds room
    obtain ⟨step₁, kinds₁⟩ := next_ok kinds
    obtain ⟨step₂, kinds₂⟩ := next_ok kinds₁
    have head := step₁.trans step₂
    obtain ⟨p₃, hread, step₃⟩ := emit_ok v.push (head.roomy roomy)
    have head := head.trans step₃
    have valid₂ := valid.2
    rw [← head.scope cls] at valid₂
    obtain ⟨p₄, hindex, step₄, kinds₄⟩ :=
      expression_complete index (n := n) valid₂ (step₃.kinds_eq.trans kinds₂)
        (endsExpression_symbol (by decide) ks) (head.roomy roomy) (by omega)
    rw [head.scope] at step₄
    obtain ⟨p₅, hclose, step₅, kinds₅⟩ := symbol_ok kinds₄
    have middle := (head.trans step₄).trans step₅
    obtain ⟨p₆, hlast, step₆⟩ :=
      emitAll_ok [.arithmetic .add, .pop .pointer 1, .push .that 0] (middle.roomy roomy)
    refine ⟨p₆, ?_, ?_, step₆.kinds_eq.trans kinds₅⟩
    · rw [term_element (by rw [kinds]; rfl) hv (by rw [kinds₁]; rfl), bind_of_ok hread,
        bind_of_ok hindex, bind_of_ok hclose, hlast]
    · simpa [Term.tokens, Term.code, Scope.read, hv, load_eq_push] using middle.trans step₆
  | .call c, n + 1, p, ks, valid, kinds, ends, roomy, room => by
    simp only [Term.tokens, List.cons_append, List.length_cons] at kinds room
    obtain ⟨step₁, kinds₁⟩ := next_ok kinds
    have valid₁ := valid
    rw [← step₁.scope cls] at valid₁
    obtain ⟨q, hcall, step₂, kinds₂⟩ :=
      call_complete c (n := n) valid₁ kinds₁ (step₁.roomy roomy) (by omega)
    rw [step₁.scope] at step₂
    obtain ⟨x, hx, tail⟩ := call_tail_head c
    refine ⟨q, ?_, step₁.trans step₂, kinds₂⟩
    rw [term_call (by rw [kinds]; rfl) hx (by rw [kinds₁]; exact tail ks), hcall]
  | .group e, n + 1, p, ks, valid, kinds, ends, roomy, room => by
    simp only [Term.tokens, List.append_assoc, List.cons_append, List.nil_append, List.length_cons,
      List.length_append] at kinds room
    obtain ⟨step₁, kinds₁⟩ := next_ok kinds
    have valid₁ := valid
    rw [← step₁.scope cls] at valid₁
    obtain ⟨p₂, hinside, step₂, kinds₂⟩ :=
      expression_complete e (n := n) valid₁ kinds₁ (endsExpression_symbol (by decide) ks)
        (step₁.roomy roomy) (by omega)
    rw [step₁.scope] at step₂
    obtain ⟨p₃, hclose, step₃, kinds₃⟩ := symbol_ok kinds₂
    refine ⟨p₃, ?_, ?_, kinds₃⟩
    · rw [term_group (by rw [kinds]; rfl), bind_of_ok hinside, hclose]
    · simpa [Term.tokens, Term.code] using (step₁.trans step₂).trans step₃
  | .signed sign t, n + 1, p, ks, valid, kinds, ends, roomy, room => by
    simp only [Term.tokens, List.cons_append, List.length_cons] at kinds room
    obtain ⟨step₁, kinds₁⟩ := next_ok kinds
    have valid₁ := valid
    rw [← step₁.scope cls] at valid₁
    obtain ⟨p₂, hterm, step₂, kinds₂⟩ :=
      term_complete t (n := n) valid₁ kinds₁ ends (step₁.roomy roomy) (by omega)
    rw [step₁.scope] at step₂
    obtain ⟨p₃, hemit, step₃⟩ := emit_ok sign.code ((step₁.trans step₂).roomy roomy)
    refine ⟨p₃, ?_, ?_, step₃.kinds_eq.trans kinds₂⟩
    · rw [term_signed (by rw [kinds]; rfl), bind_of_ok hterm, hemit]
    · simpa [Term.tokens, Term.code] using (step₁.trans step₂).trans step₃
termination_by structural x => x

theorem call_complete :
    ∀ (c : Call) {n : Nat} {p : Progress σ} {ks : List TokenKind},
      c.Valid (p.scope cls) → p.kinds = c.tail ++ ks → Roomy p.sink → 3 * c.tail.length ≤ n →
      Passes (call cls c.first n) p c.tail (c.code (p.scope cls)) 0 ks
  | .own name as, n, p, ks, valid, kinds, roomy, room => by
    simp only [Call.tail, List.append_assoc, List.cons_append, List.nil_append, List.length_cons,
      List.length_append] at kinds room
    obtain ⟨p₁, hcallee, step⟩ := callee_own cls name roomy kinds
    exact call_of_arguments (arguments_complete as) hcallee step (step.kinds_eq.trans kinds)
      valid.2 valid.1 roomy (by omega)
  | .qualified qualifier name as, n, p, ks, valid, kinds, roomy, room => by
    simp only [Call.tail, List.append_assoc, List.cons_append, List.nil_append, List.length_cons,
      List.length_append] at kinds room
    obtain ⟨p₁, hcallee, step⟩ := callee_qualified cls qualifier roomy kinds
    exact call_of_arguments (arguments_complete as) hcallee step (step.kinds kinds)
      valid.2 valid.1 roomy (by omega)
termination_by structural x => x

theorem arguments_complete : ∀ as : Arguments, CountsArguments σ cls as
  | .nil, _, _, _, _, nonempty, _, _, _, _, _, _, _ => absurd rfl nonempty
  | .cons e .nil, before, n, p, ks, _, valid, kinds, ends, comma, roomy, limit, room => by
    obtain ⟨n, rfl⟩ : ∃ m, n = m + 1 := ⟨n - 1, by omega⟩
    simp only [Arguments.tokens, Arguments.tail, List.append_nil] at kinds room
    rw [Arguments.length] at limit
    obtain ⟨q, hfirst, step, kinds'⟩ :=
      expression_complete e (n := n) valid.1 kinds ends roomy (by omega)
    refine ⟨q, ?_, ?_, kinds'⟩
    · rw [arguments, bind_of_ok here_apply, bind_of_ok hfirst, if_pos (by omega),
        bind_of_ok (accept_of_ne (by rw [kinds']; exact comma))]
      rfl
    · simpa [Arguments.tokens, Arguments.tail, Arguments.code] using step
  | .cons e (.cons e' as), before, n, p, ks, _, valid, kinds, ends, comma, roomy, limit, room => by
    obtain ⟨n, rfl⟩ : ∃ m, n = m + 1 := ⟨n - 1, by omega⟩
    simp only [Arguments.tokens, Arguments.tail, List.append_assoc, List.cons_append,
      List.length_append, List.length_cons] at kinds room
    simp only [Arguments.length] at limit
    obtain ⟨p₁, hfirst, step₁, kinds₁⟩ :=
      expression_complete e (n := n) valid.1 kinds (endsExpression_symbol (by decide) _) roomy
        (by omega)
    obtain ⟨p₂, hcomma, step₂, kinds₂⟩ := accept_ok kinds₁
    have start := step₁.trans step₂
    have valid₂ := valid.2
    rw [← start.scope cls] at valid₂
    obtain ⟨p₃, hrest, step₃, kinds₃⟩ :=
      arguments_complete (.cons e' as) (before + 1) (n := n) (by simp) valid₂
        (by rw [kinds₂, Arguments.tokens, List.append_assoc]) ends comma (start.roomy roomy)
        (by simp only [Arguments.length]; omega)
        (by simp only [Arguments.tokens, List.length_append]; omega)
    rw [start.scope] at step₃
    refine ⟨p₃, ?_, ?_, kinds₃⟩
    · rw [arguments, bind_of_ok here_apply, bind_of_ok hfirst, if_pos (by omega),
        bind_of_ok hcomma, if_pos rfl, hrest]
      simp only [Arguments.length]
      congr 1
      omega
    · simpa [Arguments.tokens, Arguments.tail, Arguments.code] using start.trans step₃
termination_by structural x => x

end

end Jack.Pass
