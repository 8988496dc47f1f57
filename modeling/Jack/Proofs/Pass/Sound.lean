import Jack.Proofs.Pass.Step

/-!
# What the pass accepts

A successful piece of the pass has consumed the tokens of a valid tree and written its code. The
functions of the pass are taken one by one, by induction on the allowance.
-/

namespace Jack.Pass

open Syntax

variable {σ : Type} {cls : String} {p q : Progress σ}

/-! ## Pieces of expressions -/

theorem exists_operator {c : Char} {i : Instruction} (h : operator? c = some i) :
    ∃ op : Operator, c = op.symbol ∧ i = op.code := by
  unfold operator? at h
  split at h
  · exact ⟨.add, rfl, (Option.some.inj h).symm⟩
  · exact ⟨.sub, rfl, (Option.some.inj h).symm⟩
  · exact ⟨.and, rfl, (Option.some.inj h).symm⟩
  · exact ⟨.or, rfl, (Option.some.inj h).symm⟩
  · exact ⟨.lt, rfl, (Option.some.inj h).symm⟩
  · exact ⟨.gt, rfl, (Option.some.inj h).symm⟩
  · exact ⟨.eq, rfl, (Option.some.inj h).symm⟩
  · exact ⟨.mul, rfl, (Option.some.inj h).symm⟩
  · exact ⟨.div, rfl, (Option.some.inj h).symm⟩
  · cases h

theorem isEncodable_iff {s : String} :
    isEncodable s = true ↔ (Term.string s).Valid (p.scope cls) := by
  simp only [isEncodable, Bool.and_eq_true, List.all_eq_true, decide_eq_true_eq, Term.Valid]
  exact and_comm

/-- The variables are where the pass has them. -/
theorem load_eq_push (v : Variable) : load v = v.push := by
  obtain ⟨type, kind, index⟩ := v
  cases kind <;> rfl

theorem save_eq_pop (v : Variable) : save v = v.pop := by
  obtain ⟨type, kind, index⟩ := v
  cases kind <;> rfl

theorem resolve_read (cls : String) {name : String} {span : Span} {v : Variable}
    (h : resolve name span p = .ok v q) :
    q = p ∧ (p.scope cls).Declares name ∧ (p.scope cls).read name = [v.push] ∧
      (p.scope cls).write name = [v.pop] := by
  obtain ⟨hv, rfl⟩ := resolve_eq_ok.1 h
  simp [Scope.Declares, Scope.read, Scope.write, Progress.scope, hv, load_eq_push, save_eq_pop]

variable [Sink σ]

theorem stringConstant_step {s : String} {span : Span} {u : Unit}
    (h : stringConstant s span p = .ok u q) :
    isEncodable s = true ∧ Step p [] (stringCode s) 0 q := by
  rw [stringConstant] at h
  split at h
  · next hs => exact ⟨hs, emitAll_step h⟩
  · exact absurd h throw_ne_ok

/-- The head of a call: either a qualifier, a dot and a name, or a name. -/
theorem callee_step {name target : String} {unseen : Nat}
    (h : callee cls name p = .ok (target, unseen) q) :
    (∃ sub, target = (p.scope cls).target name sub ∧ unseen = ((p.scope cls).read name).length ∧
      Step p [.symbol '.', .identifier sub] ((p.scope cls).read name) 0 q) ∨
    (target = cls ++ "." ++ name ∧ unseen = 1 ∧ Step p [] [.push .pointer 0] 0 q) := by
  obtain ⟨p₁, dot, h⟩ | h := accept_cases h
  · obtain ⟨sub, p₂, hsub, h⟩ := bind_eq_ok.1 h
    have step := dot.trans (identifier_step hsub)
    rw [bind_of_ok lookup_apply, step.symbols] at h
    refine .inl ⟨sub, ?_⟩
    cases hv : p.symbols.lookup name with
    | none =>
      rw [hv] at h
      cases h
      have read : (p.scope cls).read name = [] := by simp [Scope.read, Progress.scope, hv]
      refine ⟨by simp [Scope.target, Progress.scope, hv], by rw [read]; rfl, ?_⟩
      rw [read]
      exact step
    | some v =>
      rw [hv] at h
      obtain ⟨_, p₃, hemit, h⟩ := bind_eq_ok.1 h
      cases h
      have read : (p.scope cls).read name = [v.push] := by
        simp [Scope.read, Progress.scope, hv, load_eq_push]
      refine ⟨by simp [Scope.target, Progress.scope, hv], by rw [read]; rfl, ?_⟩
      rw [read]
      exact step.trans (emit_step hemit)
  · obtain ⟨_, p₁, hemit, h⟩ := bind_eq_ok.1 h
    cases h
    exact .inr ⟨rfl, rfl, emit_step hemit⟩

/-- A constant that is a reserved word: its code is written before it is consumed. -/
theorem constant_step {c : Constant} {u : Unit} {write : Pass σ Unit}
    (hk : p.kinds.head? = some (.keyword c.keyword))
    (hwrite : ∀ {v : Unit} {r : Progress σ}, write p = .ok v r → Step p [] c.code 0 r)
    (h : (write >>= fun _ => advance) p = .ok u q) :
    Step p [.keyword c.keyword] c.code 0 q := by
  obtain ⟨_, p₁, hcode, h⟩ := bind_eq_ok.1 h
  rw [advance_apply] at h
  cases h
  have step := hwrite hcode
  have hk' : p₁.kinds.head? = some (.keyword c.keyword) := by rw [step.kinds_eq, hk]
  simpa using step.trans (step_next hk')

/-- `(expression (, expression)*)?` before a closing parenthesis, and how many there are. -/
def argumentList (cls : String) (n : Nat) : Pass σ Nat := do
  if (← get).cursor.isSymbol ')' then pure 0 else arguments cls 0 n

theorem call_eq (cls name : String) (n : Nat) :
    (call cls name (n + 1) : Pass σ Unit) = (do
      let span ← here
      let (target, unseen) ← callee cls name
      symbol '('
      let seen ← argumentList cls n
      symbol ')'
      if seen + unseen ≤ maxArguments then emit (.call target (seen + unseen))
      else throw (.tooMany .arguments span)) := by
  simp only [call, argumentList, ite_bind, bind_assoc]

/-! ## Expressions -/

mutual

theorem expression_sound {u : Unit} :
    ∀ {n : Nat} {p q : Progress σ}, expression cls n p = .ok u q →
      ∃ e : Expression, e.Valid (p.scope cls) ∧ Step p e.tokens (e.code (p.scope cls)) 0 q
  | 0, _, _, h => absurd h exhausted_ne_ok
  | n + 1, p, q, h => by
    obtain ⟨_, p₁, hfirst, hrest⟩ := bind_eq_ok.1 h
    obtain ⟨first, valid₁, step₁⟩ := term_sound hfirst
    obtain ⟨rest, valid₂, step₂⟩ := operators_sound hrest
    rw [step₁.scope] at valid₂ step₂
    exact ⟨.mk first rest, ⟨valid₁, valid₂⟩, step₁.trans step₂⟩

theorem operators_sound {u : Unit} :
    ∀ {n : Nat} {p q : Progress σ}, operators cls n p = .ok u q →
      ∃ c : Chain, c.Valid (p.scope cls) ∧ Step p c.tokens (c.code (p.scope cls)) 0 q
  | 0, _, _, h => absurd h exhausted_ne_ok
  | n + 1, p, q, h => by
    rw [operators, bind_of_ok peek_apply] at h
    change EStateM.run _ p = _ at h
    split at h
    · next c hc =>
      split at h
      · next i hi =>
        obtain ⟨op, rfl, rfl⟩ := exists_operator hi
        rw [run_advance_bind] at h
        obtain ⟨_, p₁, hterm, h⟩ := bind_eq_ok.1 h
        obtain ⟨_, p₂, hemit, hrest⟩ := bind_eq_ok.1 h
        obtain ⟨t, valid₁, step₁⟩ := term_sound hterm
        obtain ⟨rest, valid₂, step₂⟩ := operators_sound hrest
        have step := ((step_next hc).trans step₁).trans (emit_step hemit)
        rw [(step_next hc).scope] at valid₁ step
        rw [step.scope] at valid₂ step₂
        refine ⟨.cons op t rest, ⟨valid₁, valid₂⟩, ?_⟩
        simpa [Chain.tokens, Chain.code] using step.trans step₂
      · obtain ⟨_, rfl⟩ := pure_eq_ok.1 h
        exact ⟨.nil, trivial, .refl p⟩
    · obtain ⟨_, rfl⟩ := pure_eq_ok.1 h
      exact ⟨.nil, trivial, .refl p⟩

theorem term_sound {u : Unit} :
    ∀ {n : Nat} {p q : Progress σ}, term cls n p = .ok u q →
      ∃ t : Term, t.Valid (p.scope cls) ∧ Step p t.tokens (t.code (p.scope cls)) 0 q
  | 0, _, _, h => absurd h exhausted_ne_ok
  | n + 1, p, q, h => by
    rw [term, bind_of_ok here_apply, bind_of_ok peek_apply] at h
    change EStateM.run _ p = _ at h
    split at h
    · next k hk =>
      rw [run_advance_bind] at h
      exact ⟨.int k, trivial, (step_next hk).trans (emit_step h)⟩
    · next text hk =>
      rw [run_advance_bind] at h
      obtain ⟨encodable, step⟩ := stringConstant_step h
      exact ⟨.string text, isEncodable_iff.1 encodable, (step_next hk).trans step⟩
    · next hk => exact ⟨.constant .this, trivial, constant_step (c := .this) hk emit_step h⟩
    · next hk => exact ⟨.constant .null, trivial, constant_step (c := .null) hk emit_step h⟩
    · next hk => exact ⟨.constant .false, trivial, constant_step (c := .false) hk emit_step h⟩
    · next hk => exact ⟨.constant .true, trivial, constant_step (c := .true) hk emitAll_step h⟩
    · next name hk =>
      rw [run_advance_bind, bind_of_ok peek_apply] at h
      have step := step_next hk
      rw [← step.scope cls]
      change EStateM.run _ (next p) = _ at h
      split at h
      · obtain ⟨c, rfl, valid, step'⟩ := call_sound h
        exact ⟨.call c, valid, step.trans step'⟩
      · obtain ⟨c, rfl, valid, step'⟩ := call_sound h
        exact ⟨.call c, valid, step.trans step'⟩
      · next hbracket =>
        obtain ⟨v, p₁, hv, h⟩ := bind_eq_ok.1 h
        obtain ⟨rfl, declared, read, -⟩ := resolve_read cls hv
        rw [bind_of_ok advance_apply] at h
        obtain ⟨_, p₂, hemit, h⟩ := bind_eq_ok.1 h
        obtain ⟨_, p₃, hindex, h⟩ := bind_eq_ok.1 h
        obtain ⟨_, p₄, hclose, h⟩ := bind_eq_ok.1 h
        obtain ⟨index, valid, step₃⟩ := expression_sound hindex
        have step₂ := (step_next hbracket).trans (emit_step hemit)
        rw [step₂.scope] at valid step₃
        refine ⟨.element name index, ⟨declared, valid⟩, ?_⟩
        have step := ((step.trans step₂).trans step₃).trans
          ((symbol_step hclose).trans (emitAll_step h))
        simpa [Term.tokens, Term.code, read] using step
      · obtain ⟨v, p₁, hv, h⟩ := bind_eq_ok.1 h
        obtain ⟨rfl, declared, read, -⟩ := resolve_read cls hv
        refine ⟨.var name, declared, ?_⟩
        simpa [Term.tokens, Term.code, read] using step.trans (emit_step h)
    · next hk =>
      rw [run_advance_bind] at h
      obtain ⟨_, p₁, hinside, h⟩ := bind_eq_ok.1 h
      obtain ⟨e, valid, step⟩ := expression_sound hinside
      rw [(step_next hk).scope] at valid step
      refine ⟨.group e, valid, ?_⟩
      simpa [Term.tokens, Term.code] using ((step_next hk).trans step).trans (symbol_step h)
    · next hk =>
      rw [run_advance_bind] at h
      obtain ⟨_, p₁, hterm, h⟩ := bind_eq_ok.1 h
      obtain ⟨t, valid, step⟩ := term_sound hterm
      rw [(step_next hk).scope] at valid step
      refine ⟨.signed .minus t, valid, ?_⟩
      simpa [Term.tokens, Term.code, Sign.symbol, Sign.code] using
        ((step_next hk).trans step).trans (emit_step h)
    · next hk =>
      rw [run_advance_bind] at h
      obtain ⟨_, p₁, hterm, h⟩ := bind_eq_ok.1 h
      obtain ⟨t, valid, step⟩ := term_sound hterm
      rw [(step_next hk).scope] at valid step
      refine ⟨.signed .tilde t, valid, ?_⟩
      simpa [Term.tokens, Term.code, Sign.symbol, Sign.code] using
        ((step_next hk).trans step).trans (emit_step h)
    · exact absurd h unexpected_ne_ok

theorem call_sound {name : String} {u : Unit} :
    ∀ {n : Nat} {p q : Progress σ}, call cls name n p = .ok u q →
      ∃ c : Call, c.first = name ∧ c.Valid (p.scope cls) ∧
        Step p c.tail (c.code (p.scope cls)) 0 q
  | 0, _, _, h => absurd h exhausted_ne_ok
  | n + 1, p, q, h => by
    rw [call_eq, bind_of_ok here_apply] at h
    obtain ⟨⟨target, unseen⟩, p₁, hcallee, h⟩ := bind_eq_ok.1 h
    obtain ⟨_, p₂, hopen, h⟩ := bind_eq_ok.1 h
    obtain ⟨seen, p₃, hseen, h⟩ := bind_eq_ok.1 h
    obtain ⟨as, rfl, valid, step⟩ : ∃ as : Arguments, seen = as.length ∧
        as.Valid (p₂.scope cls) ∧ Step p₂ as.tokens (as.code (p₂.scope cls)) 0 p₃ := by
      rw [argumentList, bind_of_ok get_apply] at hseen
      split at hseen
      · obtain ⟨rfl, rfl⟩ := pure_eq_ok.1 hseen
        exact ⟨.nil, rfl, trivial, .refl p₂⟩
      · obtain ⟨e, rest, rfl, valid, step⟩ := arguments_sound hseen
        exact ⟨.cons e rest, Nat.zero_add _, valid, step⟩
    obtain ⟨_, p₄, hclose, h⟩ := bind_eq_ok.1 h
    split at h
    · next hlimit =>
      have tail := ((symbol_step hopen).trans step).trans
        ((symbol_step hclose).trans (emit_step h))
      obtain ⟨sub, rfl, rfl, head⟩ | ⟨rfl, rfl, head⟩ := callee_step hcallee
      · rw [(head.trans (symbol_step hopen)).scope] at valid tail
        refine ⟨.qualified name sub as, rfl, ⟨hlimit, valid⟩, ?_⟩
        simpa [Call.tail, Call.code] using head.trans tail
      · rw [(head.trans (symbol_step hopen)).scope] at valid tail
        refine ⟨.own name as, rfl, ⟨hlimit, valid⟩, ?_⟩
        simpa [Call.tail, Call.code, Progress.scope] using head.trans tail
    · exact absurd h throw_ne_ok

theorem arguments_sound :
    ∀ {n before total : Nat} {p q : Progress σ}, arguments cls before n p = .ok total q →
      ∃ e rest, total = before + (Arguments.cons e rest).length ∧
        (Arguments.cons e rest).Valid (p.scope cls) ∧
        Step p (Arguments.cons e rest).tokens ((Arguments.cons e rest).code (p.scope cls)) 0 q
  | 0, _, _, _, _, h => absurd h exhausted_ne_ok
  | n + 1, before, total, p, q, h => by
    rw [arguments, bind_of_ok here_apply] at h
    obtain ⟨_, p₁, hfirst, h⟩ := bind_eq_ok.1 h
    obtain ⟨e, valid₁, step₁⟩ := expression_sound hfirst
    split at h
    · obtain ⟨p₂, comma, h⟩ | h := accept_cases h
      · obtain ⟨e', rest, htotal, valid₂, step₂⟩ := arguments_sound h
        have step := step₁.trans comma
        rw [step.scope] at valid₂ step₂
        refine ⟨e, .cons e' rest, ?_, ⟨valid₁, valid₂⟩, ?_⟩
        · simp only [Arguments.length] at htotal ⊢
          omega
        · simpa [Arguments.tokens, Arguments.tail, Arguments.code] using step.trans step₂
      · obtain ⟨rfl, rfl⟩ := pure_eq_ok.1 h
        refine ⟨e, .nil, rfl, ⟨valid₁, trivial⟩, ?_⟩
        simpa [Arguments.tokens, Arguments.tail, Arguments.code] using step₁
    · exact absurd h throw_ne_ok

end

/-! ## Statements -/

/-- From `p` to `q` the pass went over a statement whose first word `k` was consumed before. -/
def Recognised (cls : String) (k : Keyword) (p q : Progress σ) : Prop :=
  ∃ (s : Statement) (ks : List TokenKind), s.tokens = .keyword k :: ks ∧
    s.Valid (p.scope cls) ∧ Step p ks (s.code (p.scope cls) p.labels) s.labels q

theorem letStatement_sound {n : Nat} {u : Unit} (h : letStatement cls n p = .ok u q) :
    Recognised cls .let p q := by
  rw [letStatement, bind_of_ok here_apply] at h
  obtain ⟨name, p₁, hname, h⟩ := bind_eq_ok.1 h
  obtain ⟨v, p₂, hv, h⟩ := bind_eq_ok.1 h
  have name_step := identifier_step hname
  obtain ⟨same, declared, read, write⟩ := resolve_read cls hv
  rw [same] at h
  rw [name_step.scope] at declared read write
  obtain ⟨p₃, bracket, h⟩ | h := accept_cases h
  · obtain ⟨_, p₄, hread, h⟩ := bind_eq_ok.1 h
    obtain ⟨_, p₅, hindex, h⟩ := bind_eq_ok.1 h
    obtain ⟨_, p₆, hclose, h⟩ := bind_eq_ok.1 h
    obtain ⟨_, p₇, hadd, h⟩ := bind_eq_ok.1 h
    obtain ⟨_, p₈, heq, h⟩ := bind_eq_ok.1 h
    obtain ⟨_, p₉, hvalue, h⟩ := bind_eq_ok.1 h
    obtain ⟨_, p₁₀, hend, h⟩ := bind_eq_ok.1 h
    obtain ⟨index, valid₁, step₁⟩ := expression_sound hindex
    obtain ⟨value, valid₂, step₂⟩ := expression_sound hvalue
    have before := (name_step.trans bracket).trans (emit_step hread)
    rw [before.scope] at valid₁ step₁
    have middle := ((before.trans step₁).trans (symbol_step hclose)).trans
      ((emit_step hadd).trans (symbol_step heq))
    rw [middle.scope] at valid₂ step₂
    refine ⟨.assignElement name index value, _, rfl, ⟨declared, valid₁, valid₂⟩, ?_⟩
    simpa [Statement.code, Statement.labels, read, storeElement] using
      (middle.trans step₂).trans ((symbol_step hend).trans (emitAll_step h))
  · obtain ⟨_, p₃, heq, h⟩ := bind_eq_ok.1 h
    obtain ⟨_, p₄, hvalue, h⟩ := bind_eq_ok.1 h
    obtain ⟨_, p₅, hend, h⟩ := bind_eq_ok.1 h
    obtain ⟨value, valid, step⟩ := expression_sound hvalue
    have before := name_step.trans (symbol_step heq)
    rw [before.scope] at valid step
    refine ⟨.assign name value, _, rfl, ⟨declared, valid⟩, ?_⟩
    simpa [Statement.code, Statement.labels, write] using
      (before.trans step).trans ((symbol_step hend).trans (emit_step h))

theorem doStatement_sound {n : Nat} {u : Unit} (h : doStatement cls n p = .ok u q) :
    Recognised cls .do p q := by
  obtain ⟨name, p₁, hname, h⟩ := bind_eq_ok.1 h
  obtain ⟨_, p₂, hcall, h⟩ := bind_eq_ok.1 h
  obtain ⟨_, p₃, hend, h⟩ := bind_eq_ok.1 h
  obtain ⟨c, first, valid, step⟩ := call_sound hcall
  have name_step := identifier_step hname
  rw [name_step.scope] at valid step
  rw [← first] at name_step
  refine ⟨.perform c, _, rfl, valid, ?_⟩
  simpa [Statement.code, Statement.labels, Call.tokens] using
    (name_step.trans step).trans ((symbol_step hend).trans (emit_step h))

theorem returnStatement_sound {n : Nat} {u : Unit} (h : returnStatement cls n p = .ok u q) :
    Recognised cls .return p q := by
  rw [returnStatement, bind_of_ok get_apply] at h
  split at h
  · obtain ⟨_, p₁, hzero, h⟩ := bind_eq_ok.1 h
    obtain ⟨_, p₂, hend, h⟩ := bind_eq_ok.1 h
    refine ⟨.leave none, _, rfl, trivial, ?_⟩
    simpa [Statement.code, Statement.labels] using
      (emit_step hzero).trans ((symbol_step hend).trans (emit_step h))
  · obtain ⟨_, p₁, hvalue, h⟩ := bind_eq_ok.1 h
    obtain ⟨_, p₂, hend, h⟩ := bind_eq_ok.1 h
    obtain ⟨value, valid, step⟩ := expression_sound hvalue
    refine ⟨.leave (some value), _, rfl, valid, ?_⟩
    simpa [Statement.code, Statement.labels] using
      step.trans ((symbol_step hend).trans (emit_step h))

theorem condition_sound {n k : Nat} {u : Unit}
    (h : condition cls n (label cls k) p = .ok u q) :
    ∃ e : Expression, e.Valid (p.scope cls) ∧
      Step p (parentheses e.tokens) (conditionCode (p.scope cls) e k) 0 q := by
  obtain ⟨_, p₁, hopen, h⟩ := bind_eq_ok.1 h
  obtain ⟨_, p₂, he, h⟩ := bind_eq_ok.1 h
  obtain ⟨_, p₃, hclose, h⟩ := bind_eq_ok.1 h
  obtain ⟨e, valid, step⟩ := expression_sound he
  rw [(symbol_step hopen).scope] at valid step
  refine ⟨e, valid, ?_⟩
  simpa [parentheses, conditionCode, Progress.scope] using
    ((symbol_step hopen).trans step).trans ((symbol_step hclose).trans (emitAll_step h))

theorem Recognised.cons {k : Keyword} {r : Progress σ} (h : Recognised cls k (next p) r)
    (hk : p.kinds.head? = some (.keyword k))
    (more : ∃ ss : Statements, ss.Valid (r.scope cls) ∧
      Step r ss.tokens (ss.code (r.scope cls) r.labels) ss.labels q) :
    ∃ ss : Statements, ss.Valid (p.scope cls) ∧
      Step p ss.tokens (ss.code (p.scope cls) p.labels) ss.labels q := by
  obtain ⟨s, ks, tokens, valid, step⟩ := h
  obtain ⟨ss, valid', step'⟩ := more
  have whole := (step_next hk).trans step
  rw [(step_next hk).scope] at valid whole
  rw [whole.scope] at valid' step'
  rw [whole.labels] at step'
  refine ⟨.cons s ss, ⟨valid, valid'⟩, ?_⟩
  simpa [Statements.tokens, Statements.code, Statements.labels, tokens] using whole.trans step'

mutual

theorem statements_sound {u : Unit} :
    ∀ {n : Nat} {p q : Progress σ}, statements cls n p = .ok u q →
      ∃ ss : Statements, ss.Valid (p.scope cls) ∧
        Step p ss.tokens (ss.code (p.scope cls) p.labels) ss.labels q
  | 0, _, _, h => absurd h exhausted_ne_ok
  | n + 1, p, q, h => by
    rw [statements, bind_of_ok peek_apply] at h
    change EStateM.run _ p = _ at h
    split at h
    · next hk =>
      rw [run_advance_bind] at h
      obtain ⟨_, p₁, hfirst, h⟩ := bind_eq_ok.1 h
      exact (letStatement_sound hfirst).cons hk (statements_sound h)
    · next hk =>
      rw [run_advance_bind] at h
      obtain ⟨_, p₁, hfirst, h⟩ := bind_eq_ok.1 h
      exact (ifStatement_sound hfirst).cons hk (statements_sound h)
    · next hk =>
      rw [run_advance_bind] at h
      obtain ⟨_, p₁, hfirst, h⟩ := bind_eq_ok.1 h
      exact (whileStatement_sound hfirst).cons hk (statements_sound h)
    · next hk =>
      rw [run_advance_bind] at h
      obtain ⟨_, p₁, hfirst, h⟩ := bind_eq_ok.1 h
      exact (doStatement_sound hfirst).cons hk (statements_sound h)
    · next hk =>
      rw [run_advance_bind] at h
      obtain ⟨_, p₁, hfirst, h⟩ := bind_eq_ok.1 h
      exact (returnStatement_sound hfirst).cons hk (statements_sound h)
    · obtain ⟨_, rfl⟩ := pure_eq_ok.1 h
      exact ⟨.nil, trivial, .refl p⟩

theorem block_sound {u : Unit} :
    ∀ {n : Nat} {p q : Progress σ}, block cls n p = .ok u q →
      ∃ ss : Statements, ss.Valid (p.scope cls) ∧
        Step p (braces ss.tokens) (ss.code (p.scope cls) p.labels) ss.labels q
  | 0, _, _, h => absurd h exhausted_ne_ok
  | n + 1, p, q, h => by
    obtain ⟨_, p₁, hopen, h⟩ := bind_eq_ok.1 h
    obtain ⟨_, p₂, hinside, h⟩ := bind_eq_ok.1 h
    obtain ⟨ss, valid, step⟩ := statements_sound hinside
    rw [(symbol_step hopen).scope] at valid step
    rw [(symbol_step hopen).labels] at step
    refine ⟨ss, valid, ?_⟩
    simpa [braces] using ((symbol_step hopen).trans step).trans (symbol_step h)

theorem ifStatement_sound {u : Unit} :
    ∀ {n : Nat} {p q : Progress σ}, ifStatement cls n p = .ok u q → Recognised cls .if p q
  | 0, _, _, h => absurd h exhausted_ne_ok
  | n + 1, p, q, h => by
    rw [ifStatement, bind_of_ok freshLabel_apply, bind_of_ok freshLabel_apply] at h
    obtain ⟨_, p₁, hcondition, h⟩ := bind_eq_ok.1 h
    obtain ⟨_, p₂, hyes, h⟩ := bind_eq_ok.1 h
    obtain ⟨_, p₃, hjump, h⟩ := bind_eq_ok.1 h
    obtain ⟨e, valid₁, step₁⟩ := condition_sound hcondition
    obtain ⟨yes, valid₂, step₂⟩ := block_sound hyes
    have fresh : Step p [] [] 2 _ := freshLabel_step.trans freshLabel_step
    rw [fresh.scope] at valid₁ step₁
    have before := fresh.trans step₁
    rw [before.scope] at valid₂ step₂
    rw [before.labels] at step₂
    have middle := (before.trans step₂).trans (emitAll_step hjump)
    rw [bind_of_ok get_apply] at h
    split at h
    · next helse =>
      rw [bind_of_ok advance_apply] at h
      obtain ⟨_, p₄, hno, h⟩ := bind_eq_ok.1 h
      obtain ⟨no, valid₃, step₃⟩ := block_sound hno
      have middle := middle.trans (step_next (isKeyword_iff.1 helse))
      rw [middle.scope] at valid₃ step₃
      rw [middle.labels] at step₃
      refine ⟨.choose e yes no, _, rfl, ⟨valid₁, valid₂, valid₃⟩, ?_⟩
      have step := (middle.trans step₃).trans (emit_step h)
      simpa [Statement.code, Statement.labels, Progress.scope, conditionCode, Nat.add_assoc,
        Nat.add_comm, Nat.add_left_comm] using step
    · refine ⟨.when e yes, _, rfl, ⟨valid₁, valid₂⟩, ?_⟩
      simpa [Statement.code, Statement.labels, Progress.scope, Nat.add_comm] using
        middle.trans (emit_step h)

theorem whileStatement_sound {u : Unit} :
    ∀ {n : Nat} {p q : Progress σ}, whileStatement cls n p = .ok u q → Recognised cls .while p q
  | 0, _, _, h => absurd h exhausted_ne_ok
  | n + 1, p, q, h => by
    rw [whileStatement, bind_of_ok freshLabel_apply, bind_of_ok freshLabel_apply] at h
    obtain ⟨_, p₁, htop, h⟩ := bind_eq_ok.1 h
    obtain ⟨_, p₂, hcondition, h⟩ := bind_eq_ok.1 h
    obtain ⟨_, p₃, hbody, h⟩ := bind_eq_ok.1 h
    obtain ⟨e, valid₁, step₁⟩ := condition_sound hcondition
    obtain ⟨body, valid₂, step₂⟩ := block_sound hbody
    have fresh : Step p [] [] 2 _ := freshLabel_step.trans freshLabel_step
    have top := fresh.trans (emit_step htop)
    rw [top.scope] at valid₁ step₁
    have before := top.trans step₁
    rw [before.scope] at valid₂ step₂
    rw [before.labels] at step₂
    refine ⟨.loop e body, _, rfl, ⟨valid₁, valid₂⟩, ?_⟩
    simpa [Statement.code, Statement.labels, Progress.scope, Nat.add_comm] using
      (before.trans step₂).trans (emitAll_step h)

end

end Jack.Pass
