import Jack.Proofs.Syntax.Lowering

/-!
# Steps of the pass

What a successful piece of the pass does: it consumes tokens, writes code and takes labels.
`Step p ks code n q` says that from `p` to `q` exactly the tokens `ks` were consumed, `code` was
written and `n` labels were taken, and that the declared variables are the same. Steps compose, and
each primitive of the pass is described by one.
-/

namespace Jack

variable {σ : Type}

/-- The kinds of the tokens that a pass has not consumed. -/
def Progress.kinds (p : Progress σ) : List TokenKind :=
  p.cursor.rest.map Token.kind

/-- What names refer to at this point of a pass over the class `cls`. -/
def Progress.scope (p : Progress σ) (cls : String) : Syntax.Scope :=
  ⟨cls, p.symbols.lookup⟩

/-! ## Writing -/

/-- A sink takes some instructions, one after the other, and is `t` then. -/
def Writes [Sink σ] : List Instruction → σ → σ → Prop
  | [], s, t => s = t
  | i :: code, s, t => ∃ u, Sink.write i s = .ok () u ∧ Writes code u t

/-- A sink that takes whatever is written to it. -/
def Roomy [Sink σ] (s : σ) : Prop :=
  ∀ code, ∃ t, Writes code s t

section Writes

variable [Sink σ] {s t u : σ} {code code' : List Instruction}

theorem Writes.nil (s : σ) : Writes [] s s := rfl

theorem writes_append : Writes (code ++ code') s u ↔ ∃ t, Writes code s t ∧ Writes code' t u := by
  induction code generalizing s with
  | nil => simp [Writes]
  | cons i code ih =>
    simp only [List.cons_append, Writes, ih]
    constructor
    · rintro ⟨v, hv, t, ht, hu⟩
      exact ⟨t, ⟨v, hv, ht⟩, hu⟩
    · rintro ⟨t, ⟨v, hv, ht⟩, hu⟩
      exact ⟨v, hv, t, ht, hu⟩

theorem Writes.unique (h : Writes code s t) (h' : Writes code s u) : t = u := by
  induction code generalizing s with
  | nil => exact h.symm.trans h'
  | cons i code ih =>
    obtain ⟨v, hv, ht⟩ := h
    obtain ⟨w, hw, hu⟩ := h'
    rw [hv] at hw
    cases hw
    exact ih ht hu

theorem Roomy.after (roomy : Roomy s) (h : Writes code s t) : Roomy t := by
  intro more
  obtain ⟨u, hu⟩ := roomy (code ++ more)
  obtain ⟨t', ht', hu⟩ := writes_append.1 hu
  rw [h.unique ht']
  exact ⟨u, hu⟩

end Writes

/-! ## Composition -/

/-- From `p` to `q` the pass consumed `ks`, wrote `code` and took `n` labels. -/
structure Move [Sink σ] (p : Progress σ) (ks : List TokenKind) (code : List Instruction) (n : Nat)
    (q : Progress σ) : Prop where
  tokens : p.kinds = ks ++ q.kinds
  written : Writes code p.sink q.sink
  labels : q.labels = p.labels + n

/-- A move that leaves the declared variables as they are. -/
structure Step [Sink σ] (p : Progress σ) (ks : List TokenKind) (code : List Instruction) (n : Nat)
    (q : Progress σ) : Prop extends Move p ks code n q where
  symbols : q.symbols = p.symbols

section Step

variable [Sink σ] {p q r : Progress σ} {ks ks' : List TokenKind} {code code' : List Instruction}
  {m n : Nat}

theorem Move.trans (h : Move p ks code m q) (h' : Move q ks' code' n r) :
    Move p (ks ++ ks') (code ++ code') (m + n) r where
  tokens := by rw [h.tokens, h'.tokens, List.append_assoc]
  written := writes_append.2 ⟨_, h.written, h'.written⟩
  labels := by rw [h'.labels, h.labels, Nat.add_assoc]

theorem Step.trans (h : Step p ks code m q) (h' : Step q ks' code' n r) :
    Step p (ks ++ ks') (code ++ code') (m + n) r :=
  ⟨h.toMove.trans h'.toMove, h'.symbols.trans h.symbols⟩

theorem Step.refl (p : Progress σ) : Step p [] [] 0 p :=
  ⟨⟨rfl, .nil _, rfl⟩, rfl⟩

theorem Step.scope (h : Step p ks code n q) (cls : String) : q.scope cls = p.scope cls := by
  rw [Progress.scope, h.symbols, Progress.scope]

theorem Move.kinds (h : Move p ks code n q) (hk : p.kinds = ks ++ ks') : q.kinds = ks' :=
  List.append_cancel_left (h.tokens.symm.trans hk)

theorem Move.kinds_eq (h : Move p [] code n q) : q.kinds = p.kinds :=
  h.tokens.symm

theorem Move.roomy (h : Move p ks code n q) (roomy : Roomy p.sink) : Roomy q.sink :=
  roomy.after h.written

end Step

/-! ## Sequencing -/

namespace Pass

variable {α β : Type} {p q r : Progress σ}

/-- The same progress with the current token consumed. -/
def next (p : Progress σ) : Progress σ :=
  { p with cursor := p.cursor.advance }

@[simp] theorem next_labels : (next p).labels = p.labels := rfl

theorem bind_eq_ok {x : Pass σ α} {f : α → Pass σ β} {b : β} :
    (x >>= f) p = .ok b r ↔ ∃ a q, x p = .ok a q ∧ f a q = .ok b r := by
  change EStateM.bind x f p = _ ↔ _
  unfold EStateM.bind
  cases x p with
  | ok a q =>
    constructor
    · exact fun h => ⟨a, q, rfl, h⟩
    · rintro ⟨_, _, h, h'⟩
      cases h
      exact h'
  | error e q => simp

theorem bind_of_ok {x : Pass σ α} {a : α} (h : x p = .ok a q) (f : α → Pass σ β) :
    (x >>= f) p = f a q := by
  change EStateM.bind x f p = _
  unfold EStateM.bind
  rw [h]

theorem bind_of_error {x : Pass σ α} {e : CompileError} (h : x p = .error e q)
    (f : α → Pass σ β) : (x >>= f) p = .error e q := by
  change EStateM.bind x f p = _
  unfold EStateM.bind
  rw [h]

theorem ite_bind {c : Prop} [Decidable c] (x y : Pass σ α) (f : α → Pass σ β) :
    ((if c then x else y) >>= f) = if c then x >>= f else y >>= f := by
  split <;> rfl

theorem pure_eq_ok {a b : α} : (pure a : Pass σ α) p = .ok b q ↔ a = b ∧ p = q := by
  change EStateM.Result.ok a p = _ ↔ _
  simp

theorem run_advance_bind {f : Unit → Pass σ α} :
    EStateM.run (advance >>= f) p = f () (next p) := rfl

theorem throw_ne_ok {e : CompileError} {a : α} : (throw e : Pass σ α) p ≠ .ok a q := by
  change EStateM.Result.error e p ≠ _
  simp

theorem get_apply : (get : Pass σ (Progress σ)) p = .ok p p := rfl

theorem exhausted_ne_ok {a : α} : (exhausted : Pass σ α) p ≠ .ok a q := by
  intro h
  obtain ⟨_, _, _, h⟩ := bind_eq_ok.1 h
  exact throw_ne_ok h

theorem unexpected_ne_ok {e : Expectation} {a : α} : (unexpected e : Pass σ α) p ≠ .ok a q := by
  intro h
  obtain ⟨_, _, _, h⟩ := bind_eq_ok.1 h
  exact throw_ne_ok h

/-! ## Tokens -/

theorem peek_apply : peek p = .ok p.kinds.head? p := by
  simp only [Progress.kinds, List.head?_map]
  rfl

theorem here_apply : here p = .ok p.cursor.span p := rfl

theorem advance_apply : advance p = .ok () (next p) := rfl

theorem isSymbol_iff {c : Char} :
    p.cursor.isSymbol c = true ↔ p.kinds.head? = some (.symbol c) := by
  simp [Cursor.isSymbol, Cursor.kind?, Cursor.current?, Progress.kinds]

theorem isKeyword_iff {k : Keyword} :
    p.cursor.isKeyword k = true ↔ p.kinds.head? = some (.keyword k) := by
  simp [Cursor.isKeyword, Cursor.kind?, Cursor.current?, Progress.kinds]

theorem cursor_identifier {name : String} :
    p.cursor.identifier = .ok name ↔ p.kinds.head? = some (.identifier name) := by
  simp only [Cursor.identifier, Cursor.read, Cursor.current?, Progress.kinds, List.head?_map]
  cases p.cursor.rest.head? with
  | none => simp
  | some t => cases ht : t.kind <;> simp [TokenKind.identifier?, ht]

theorem identifier_apply : identifier p =
    match p.cursor.identifier with
    | .ok name => .ok name (next p)
    | .error e => .error e p := by
  rw [identifier, bind_of_ok get_apply]
  cases p.cursor.identifier <;> rfl

theorem accept_of_ne {c : Char} (h : p.kinds.head? ≠ some (.symbol c)) :
    accept c p = .ok false p := by
  rw [accept, bind_of_ok get_apply, if_neg fun hc => h (isSymbol_iff.1 hc)]
  rfl

section Tokens

variable [Sink σ]

theorem step_next {k : TokenKind} (h : p.kinds.head? = some k) : Step p [k] [] 0 (next p) where
  tokens := by
    obtain ⟨ks, h⟩ := List.head?_eq_some_iff.1 h
    have tail : (next p).kinds = p.kinds.tail := by
      simp [next, Progress.kinds, Cursor.advance]
    rw [tail, h]
    rfl
  written := .nil _
  labels := rfl
  symbols := rfl

theorem next_ok {k : TokenKind} {ks : List TokenKind} (h : p.kinds = k :: ks) :
    Step p [k] [] 0 (next p) ∧ (next p).kinds = ks :=
  have step := step_next (k := k) (by rw [h]; rfl)
  ⟨step, step.kinds h⟩

theorem symbol_ok {c : Char} {ks : List TokenKind} (h : p.kinds = .symbol c :: ks) :
    ∃ q, symbol c p = .ok () q ∧ Step p [.symbol c] [] 0 q ∧ q.kinds = ks := by
  have hc : p.cursor.isSymbol c = true := by rw [isSymbol_iff, h]; rfl
  refine ⟨next p, ?_, next_ok h⟩
  rw [symbol, bind_of_ok get_apply, if_pos hc]
  rfl

theorem keyword_ok {k : Keyword} {ks : List TokenKind} (h : p.kinds = .keyword k :: ks) :
    ∃ q, keyword k p = .ok () q ∧ Step p [.keyword k] [] 0 q ∧ q.kinds = ks := by
  have hk : p.cursor.isKeyword k = true := by rw [isKeyword_iff, h]; rfl
  refine ⟨next p, ?_, next_ok h⟩
  rw [keyword, bind_of_ok get_apply, if_pos hk]
  rfl

theorem identifier_ok {name : String} {ks : List TokenKind}
    (h : p.kinds = .identifier name :: ks) :
    ∃ q, identifier p = .ok name q ∧ Step p [.identifier name] [] 0 q ∧ q.kinds = ks := by
  have hname : p.cursor.identifier = .ok name := by rw [cursor_identifier, h]; rfl
  refine ⟨next p, ?_, next_ok h⟩
  rw [identifier, bind_of_ok get_apply, hname]
  rfl

theorem accept_ok {c : Char} {ks : List TokenKind} (h : p.kinds = .symbol c :: ks) :
    ∃ q, accept c p = .ok true q ∧ Step p [.symbol c] [] 0 q ∧ q.kinds = ks := by
  have hc : p.cursor.isSymbol c = true := by rw [isSymbol_iff, h]; rfl
  refine ⟨next p, ?_, next_ok h⟩
  rw [accept, bind_of_ok get_apply, if_pos hc]
  rfl

theorem symbol_step {c : Char} {u : Unit} (h : symbol c p = .ok u q) :
    Step p [.symbol c] [] 0 q := by
  rw [symbol, bind_of_ok get_apply] at h
  split at h
  · next hc =>
    cases h
    exact step_next (isSymbol_iff.1 hc)
  · exact absurd h unexpected_ne_ok

theorem keyword_step {k : Keyword} {u : Unit} (h : keyword k p = .ok u q) :
    Step p [.keyword k] [] 0 q := by
  rw [keyword, bind_of_ok get_apply] at h
  split at h
  · next hk =>
    cases h
    exact step_next (isKeyword_iff.1 hk)
  · exact absurd h unexpected_ne_ok

theorem identifier_step {name : String} (h : identifier p = .ok name q) :
    Step p [.identifier name] [] 0 q := by
  rw [identifier, bind_of_ok get_apply] at h
  cases hname : p.cursor.identifier with
  | ok found =>
    rw [hname] at h
    cases h
    exact step_next (cursor_identifier.1 hname)
  | error e =>
    rw [hname] at h
    exact absurd h throw_ne_ok

/-- Where the pass goes on depends on a symbol: either it is consumed, or nothing happens. -/
theorem accept_cases {c : Char} {x y : Pass σ α} {a : α}
    (h : (accept c >>= fun found => if found = true then x else y) p = .ok a q) :
    (∃ r, Step p [.symbol c] [] 0 r ∧ x r = .ok a q) ∨ y p = .ok a q := by
  obtain ⟨found, r, hfound, h⟩ := bind_eq_ok.1 h
  rw [accept, bind_of_ok get_apply] at hfound
  split at hfound
  · next hc =>
    cases hfound
    exact .inl ⟨_, step_next (isSymbol_iff.1 hc), h⟩
  · cases hfound
    exact .inr h

end Tokens

/-! ## Variables and labels -/

theorem lookup_apply {name : String} : lookup name p = .ok (p.symbols.lookup name) p := rfl

theorem count_apply {kind : Kind} : count kind p = .ok (p.symbols.count kind) p := rfl

theorem startSubroutine_apply :
    startSubroutine p = .ok () { p with symbols := p.symbols.startSubroutine } := rfl

theorem freshLabel_apply {cls : String} :
    freshLabel cls p = .ok (Syntax.label cls p.labels) { p with labels := p.labels + 1 } := rfl

theorem resolve_eq_ok {name : String} {span : Span} {v : Variable} :
    resolve name span p = .ok v q ↔ p.symbols.lookup name = some v ∧ q = p := by
  rw [resolve, bind_of_ok lookup_apply]
  cases p.symbols.lookup name with
  | none => simp [throw_ne_ok]
  | some w => simp [pure_eq_ok, eq_comm]

theorem define_eq_ok {name type : String} {kind : Kind} {span : Span} {u : Unit} :
    define name type kind span p = .ok u q ↔
      ∃ i t, p.symbols.define? name type kind = some (i, t) ∧ q = { p with symbols := t } := by
  rw [define, bind_of_ok get_apply]
  cases p.symbols.define? name type kind with
  | none => simp [throw_ne_ok]
  | some w =>
    obtain ⟨i, t⟩ := w
    constructor
    · intro h
      cases h
      exact ⟨i, t, rfl, rfl⟩
    · rintro ⟨_, _, h, rfl⟩
      cases h
      rfl

/-! ## Code -/

variable [Sink σ] {code : List Instruction}

theorem freshLabel_step : Step p [] [] 1 { p with labels := p.labels + 1 } :=
  ⟨⟨rfl, .nil _, rfl⟩, rfl⟩

theorem emit_apply {i : Instruction} : emit i p =
    match Sink.write i p.sink with
    | .ok _ s => .ok () { p with sink := s }
    | .error fault s => .error (.write fault) { p with sink := s } := rfl

theorem emit_step {i : Instruction} {u : Unit} (h : emit i p = .ok u q) : Step p [] [i] 0 q := by
  obtain ⟨cursor, symbols, labels, sink⟩ := p
  simp only [emit] at h
  split at h
  · next s hs =>
    cases h
    exact ⟨⟨rfl, ⟨s, hs, rfl⟩, rfl⟩, rfl⟩
  · cases h

theorem emit_ok (i : Instruction) (roomy : Roomy p.sink) :
    ∃ q, emit i p = .ok () q ∧ Step p [] [i] 0 q := by
  obtain ⟨t, s, hs, ht⟩ := roomy [i]
  have h : emit i p = .ok () { p with sink := s } := by
    simp only [emit, hs]
  exact ⟨_, h, emit_step h⟩

theorem emitAll_step {u : Unit} (h : emitAll code p = .ok u q) : Step p [] code 0 q := by
  induction code generalizing p with
  | nil =>
    obtain ⟨_, rfl⟩ := pure_eq_ok.1 h
    exact .refl p
  | cons i code ih =>
    obtain ⟨_, r, hi, hcode⟩ := bind_eq_ok.1 h
    exact (emit_step hi).trans (ih hcode)

theorem emitAll_ok (code : List Instruction) (roomy : Roomy p.sink) :
    ∃ q, emitAll code p = .ok () q ∧ Step p [] code 0 q := by
  induction code generalizing p with
  | nil => exact ⟨p, rfl, .refl p⟩
  | cons i code ih =>
    obtain ⟨r, hi, step⟩ := emit_ok i roomy
    obtain ⟨q, hcode, step'⟩ := ih (step.roomy roomy)
    exact ⟨q, by rw [emitAll, bind_of_ok hi, hcode], step.trans step'⟩

end Pass

end Jack
