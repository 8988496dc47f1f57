import Mathlib
import Jack.Proofs.Descent.Calls

/-!
# One token of lookahead

A pass looks at the current token, and at no token behind it. So two passes over token lists that
begin alike are the same up to the last common token. In particular, a failure does not depend on
the tokens behind the one where it happens.
-/

namespace Jack

variable {σ α : Type}

/-- Two cursors before the same token. -/
structure Cursor.SameView (c c' : Cursor) : Prop where
  kind : c'.kind? = c.kind?
  span : c'.span = c.span
  identifier : c'.identifier = c.identifier
  unexpected : ∀ expected, c'.unexpected expected = c.unexpected expected

theorem Cursor.sameView_of_current {c c' : Cursor} {token : Token} (h : c.current? = some token)
    (h' : c'.current? = some token) : c.SameView c' where
  kind := by rw [Cursor.kind?, Cursor.kind?, h, h']
  span := by rw [Cursor.span, Cursor.span, h, h']
  identifier := by simp only [Cursor.identifier, Cursor.read, h, h']
  unexpected expected := by rw [Cursor.unexpected, Cursor.unexpected, h, h']

/-- Both cursors are before the same tokens, and then `t` and `t'` follow. Otherwise both passes
have come equally far. -/
structure Ahead (t t' : List Token) (p q : Progress σ) : Prop where
  symbols : q.symbols = p.symbols
  labels : q.labels = p.labels
  sink : q.sink = p.sink
  tokens : ∃ common, p.cursor.rest = common ++ t ∧ q.cursor.rest = common ++ t'

namespace Ahead

variable {t t' : List Token} {p q : Progress σ}

/-- There is a common token, if there are more tokens than the different ones. -/
theorem exists_token (h : Ahead t t' p q) (more : t.length < p.left) :
    ∃ token common, p.cursor.rest = token :: common ++ t ∧
      q.cursor.rest = token :: common ++ t' := by
  obtain ⟨common, hp, hq⟩ := h.tokens
  cases common with
  | nil =>
    rw [Progress.left, hp] at more
    exact absurd more (Nat.lt_irrefl _)
  | cons token common => exact ⟨token, common, hp, hq⟩

theorem sameView (h : Ahead t t' p q) (more : t.length < p.left) : p.cursor.SameView q.cursor := by
  obtain ⟨token, common, hp, hq⟩ := h.exists_token more
  exact Cursor.sameView_of_current (congrArg List.head? hp) (congrArg List.head? hq)

theorem next (h : Ahead t t' p q) (more : t.length < p.left) :
    Ahead t t' (Pass.next p) (Pass.next q) where
  symbols := h.symbols
  labels := h.labels
  sink := h.sink
  tokens := by
    obtain ⟨token, common, hp, hq⟩ := h.exists_token more
    exact ⟨common, congrArg List.tail hp, congrArg List.tail hq⟩

end Ahead

/-- Two passes end in the same way, with `t` and `t'` ahead of them. -/
inductive InStep (t t' : List Token) : EStateM.Result CompileError (Progress σ) α →
    EStateM.Result CompileError (Progress σ) α → Prop
  | ok (a : α) {p q : Progress σ} : Ahead t t' p q → InStep t t' (.ok a p) (.ok a q)
  | error (e : CompileError) {p q : Progress σ} : Ahead t t' p q →
      InStep t t' (.error e p) (.error e q)

namespace Pass

variable [Sink σ] {classes : String → Prop} {labels : List String}

/-- A pass does not go back. -/
theorem Parallel.left_le {x y : Pass σ α} (h : Parallel classes Eq labels x y) (p : Progress σ) :
    (final (x p)).left ≤ p.left := by
  induction h generalizing p with
  | pure a => exact Nat.le_refl _
  | @append _ _ x _ f _ _ _ _ _ ihx ihf =>
    have first := ihx p
    cases hx : x p with
    | error e q =>
      rw [hx] at first
      rw [bind_of_error hx]
      exact first
    | ok a q =>
      rw [hx] at first
      rw [bind_of_ok hx]
      exact Nat.le_trans (ihf a q) first
  | peek => exact Nat.le_refl _
  | here _ ih => exact ih _ _ rfl p
  | advance => exact left_next_le
  | identifier =>
    rw [identifier_apply]
    cases p.cursor.identifier with
    | ok name => exact left_next_le
    | error e => exact Nat.le_refl _
  | unexpected e => exact Nat.le_refl _
  | consult f => exact Nat.le_refl _
  | update f => exact Nat.le_refl _
  | fresh _ _ ih => exact ih _ { p with labels := p.labels + 1 }
  | @emit i _ =>
    rw [emit_apply]
    cases Sink.write i p.sink <;> exact Nat.le_refl _
  | throw _ _ => exact Nat.le_refl _

/-- A pass does not depend on tokens that it does not reach. -/
theorem Parallel.inStep {x y : Pass σ α} (h : Parallel classes Eq labels x y)
    {t t' : List Token} {p q : Progress σ} (ahead : Ahead t t' p q)
    (more : t.length < (final (x p)).left) : InStep t t' (x p) (y q) := by
  induction h generalizing p q with
  | pure a => exact .ok a ahead
  | @append _ _ x y f g _ _ _ hf ihx ihf =>
    cases hx : x p with
    | error e r =>
      rw [bind_of_error hx] at more ⊢
      have first := ihx ahead (by rw [hx]; exact more)
      rw [hx] at first
      generalize hy : y q = r' at first
      cases first with
      | error _ ahead' =>
        rw [bind_of_error hy]
        exact .error e ahead'
    | ok a r =>
      rw [bind_of_ok hx] at more ⊢
      have first := ihx ahead (by rw [hx]; exact Nat.lt_of_lt_of_le more ((hf a).left_le r))
      rw [hx] at first
      generalize hy : y q = r' at first
      cases first with
      | ok _ ahead' =>
        rw [bind_of_ok hy]
        exact ihf a ahead' more
  | peek =>
    change InStep t t' (.ok p.cursor.kind? p) (.ok q.cursor.kind? q)
    rw [(ahead.sameView more).kind]
    exact .ok _ ahead
  | here hf ih =>
    rw [bind_of_ok here_apply] at more ⊢
    rw [bind_of_ok here_apply]
    have now := Nat.lt_of_lt_of_le more ((hf _ _ rfl).left_le p)
    exact ih _ _ (ahead.sameView now).span.symm ahead more
  | advance => exact .ok () (ahead.next (Nat.lt_of_lt_of_le more left_next_le))
  | identifier =>
    have piece : Parallel classes Eq [] (Pass.identifier : Pass σ _) (Pass.identifier : Pass σ _) :=
      .identifier
    have now := Nat.lt_of_lt_of_le more (piece.left_le p)
    rw [identifier_apply, identifier_apply, (ahead.sameView now).identifier]
    cases p.cursor.identifier with
    | ok name => exact .ok name (ahead.next now)
    | error e => exact .error e ahead
  | unexpected e =>
    change InStep t t' (.error (p.cursor.unexpected e) p) (.error (q.cursor.unexpected e) q)
    rw [(ahead.sameView more).unexpected]
    exact .error _ ahead
  | consult f =>
    change InStep t t' (.ok (f p.symbols) p) (.ok (f q.symbols) q)
    rw [ahead.symbols]
    exact .ok _ ahead
  | update f => exact .ok () { ahead with symbols := congrArg f ahead.symbols }
  | fresh _ _ ih =>
    rw [bind_of_ok freshLabel_apply] at more ⊢
    rw [bind_of_ok freshLabel_apply, ahead.labels]
    exact ih _ { ahead with labels := rfl } more
  | @emit i _ =>
    rw [emit_apply, emit_apply, ahead.sink]
    cases Sink.write i p.sink with
    | ok u s => exact .ok () { ahead with sink := rfl }
    | error fault s => exact .error _ { ahead with sink := rfl }
  | throw span hs =>
    rw [← hs, CompileError.movedTo_eq_self span]
    exact .error _ ahead

end Pass

/-! ## Whole passes -/

/-- A whole pass over some tokens. -/
def passOver [Sink σ] (tokens : List Token) (s : σ) :
    EStateM.Result CompileError (Progress σ) Unit :=
  Pass.classUnit (allowance tokens.length) { cursor := .ofTokens tokens, sink := s }

theorem passOver_eq [Sink σ] {tokens : List Token} {n : Nat} (s : σ)
    (room : allowance tokens.length ≤ n) :
    passOver tokens s = Pass.classUnit n { cursor := .ofTokens tokens, sink := s } := by
  let p : Progress σ := { cursor := .ofTokens tokens, sink := s }
  have enough : 3 * p.left ≤ allowance tokens.length := Nat.le_add_right _ _
  exact (Pass.settled_classUnit enough (enough.trans room)).same

/-- Whole passes over tokens that begin alike, up to the different ones. -/
theorem passOver_inStep [Sink σ] (common t t' : List Token) (s : σ)
    (more : t.length < (final (passOver (common ++ t) s)).left) :
    InStep t t' (passOver (common ++ t) s) (passOver (common ++ t') s) := by
  let n := max (allowance (common ++ t).length) (allowance (common ++ t').length)
  rw [passOver_eq s (Nat.le_max_left _ _ : _ ≤ n)] at more ⊢
  rw [passOver_eq s (Nat.le_max_right _ _ : _ ≤ n)]
  exact (Pass.parallel_classUnit n).inStep ⟨rfl, rfl, rfl, common, rfl, rfl⟩ more

/-- The pass over some tokens fails when it has consumed `k` of them, and leaves `t` in place of the
sink `s`. -/
def FailsAt [Sink σ] (tokens : List Token) (s : σ) (e : CompileError) (k : Nat) (t : σ) : Prop :=
  ∃ q, passOver tokens s = .error e q ∧ q.left + k = tokens.length ∧ q.sink = t

theorem compileClass_ofTokens [Sink σ] (tokens : List Token) (s : σ) :
    compileClass (.ofTokens tokens) s =
      match passOver tokens s with
      | .error e q => .error e q.sink
      | .ok _ q =>
        match Sink.flush q.sink with
        | .error fault => .error (.write fault) q.sink
        | .ok _ => .ok () q.sink := rfl

theorem passOver_of_compileClass [Sink σ] {tokens : List Token} {s t : σ}
    (h : compileClass (.ofTokens tokens) s = .ok () t) :
    ∃ q, passOver tokens s = .ok () q ∧ q.sink = t := by
  rw [compileClass_ofTokens] at h
  split at h
  · cases h
  · next u q hq =>
    split at h <;> cases h
    exact ⟨q, hq, rfl⟩

/-- A failure does not depend on the tokens behind the one where it happens. -/
theorem FailsAt.of_take_eq [Sink σ] {ts ts' : List Token} {s t : σ} {e : CompileError} {k : Nat}
    (h : FailsAt ts s e k t) (inside : k < ts.length)
    (agree : ts'.take (k + 1) = ts.take (k + 1)) : FailsAt ts' s e k t := by
  obtain ⟨q, hq, left, rfl⟩ := h
  have long : k + 1 ≤ ts'.length := by
    have := congrArg List.length agree
    rw [List.length_take, List.length_take] at this
    omega
  have inStep := passOver_inStep (ts.take (k + 1)) (ts.drop (k + 1)) (ts'.drop (k + 1)) s
  rw [List.take_append_drop, ← agree, List.take_append_drop, hq, List.length_drop] at inStep
  specialize inStep (by rw [final]; omega)
  generalize hq' : passOver ts' s = r' at inStep
  cases inStep with
  | @error _ _ q' ahead =>
    refine ⟨q', hq', ?_, ahead.sink⟩
    obtain ⟨common, hp, hp'⟩ := ahead.tokens
    rw [Progress.left, hp, List.length_append, List.length_drop] at left
    rw [Progress.left, hp', List.length_append, List.length_drop]
    omega

/-! ## Tokens after a class -/

namespace Pass

variable {p q : Progress σ}

theorem closeClass_of_brace {token : Token} {rest : List Token}
    (tokens : p.cursor.rest = token :: rest) (brace : token.kind = .symbol '}') :
    closeClass p =
      match rest with
      | [] => .ok () (next p)
      | t :: _ => .error (.unexpected .endOfFile t.kind t.span) (next p) := by
  have close : p.cursor.isSymbol '}' = true := by
    rw [Cursor.isSymbol, Cursor.kind?, Cursor.current?, tokens]
    exact beq_iff_eq.2 (congrArg some brace)
  have after : (next p).cursor.rest = rest := congrArg List.tail tokens
  have first : symbol '}' p = .ok () (next p) := by
    rw [symbol, bind_of_ok get_apply, if_pos close, advance_apply]
  rw [closeClass, bind_of_ok first, bind_of_ok get_apply]
  cases rest with
  | nil =>
    rw [if_pos (by rw [Cursor.atEnd, after]; rfl)]
    rfl
  | cons t rest =>
    rw [if_neg (by rw [Cursor.atEnd, after]; exact Bool.false_ne_true)]
    change EStateM.Result.error ((next p).cursor.unexpected .endOfFile) (next p) = _
    rw [Cursor.unexpected, Cursor.current?, after]
    rfl

/-- A class ends with its last brace. -/
theorem closeClass_eq_ok [Sink σ] {u : Unit} (h : closeClass p = .ok u q) :
    ∃ token, p.cursor.rest = [token] ∧ token.kind = .symbol '}' ∧ q = next p := by
  obtain ⟨_, r, close, -⟩ := bind_eq_ok.1 h
  obtain ⟨token, rest, tokens, brace, -⟩ := List.map_eq_cons_iff.1 (symbol_step close).tokens
  rw [closeClass_of_brace tokens brace] at h
  cases rest with
  | nil =>
    cases h
    exact ⟨token, tokens, brace, rfl⟩
  | cons t rest => cases h

end Pass

/-- Behind a class that compiles, the first further token is refused. -/
theorem failsAt_of_extra [Sink σ] {ts : List Token} {s t : σ}
    (h : compileClass (.ofTokens ts) s = .ok () t) (extra : Token) (more : List Token) :
    FailsAt (ts ++ extra :: more) s (.unexpected .endOfFile extra.kind extra.span) ts.length t := by
  let n := max (allowance ts.length) (allowance (ts ++ extra :: more).length)
  let p : Progress σ := { cursor := .ofTokens ts, sink := s }
  let p' : Progress σ := { cursor := .ofTokens (ts ++ extra :: more), sink := s }
  obtain ⟨q, hq, rfl⟩ := passOver_of_compileClass h
  rw [passOver_eq s (Nat.le_max_left _ _ : _ ≤ n), Pass.classUnit_eq] at hq
  obtain ⟨_, r, opened, closed⟩ := Pass.bind_eq_ok.1 hq
  obtain ⟨brace, tokens, kind, rfl⟩ := Pass.closeClass_eq_ok closed
  -- The last brace is still ahead when the members are read, so they do not see what follows it.
  have ahead : Ahead [] (extra :: more) p p' :=
    ⟨rfl, rfl, rfl, ts, (List.append_nil ts).symm, rfl⟩
  have inStep := (Pass.parallel_openClass n).inStep ahead
    (by rw [opened, final, Progress.left, tokens]; exact Nat.one_pos)
  rw [opened] at inStep
  generalize opened' : Pass.openClass n p' = o at inStep
  cases inStep with
  | @ok _ _ r' ahead' =>
    obtain ⟨common, hr, hr'⟩ := ahead'.tokens
    rw [tokens, List.append_nil] at hr
    rw [← hr] at hr'
    refine ⟨Pass.next r', ?_, ?_, ahead'.sink⟩
    · rw [passOver_eq s (Nat.le_max_right _ _ : _ ≤ n), Pass.classUnit_eq, Pass.bind_of_ok opened',
        Pass.closeClass_of_brace hr' kind]
      rfl
    · have after : (Pass.next r').cursor.rest = extra :: more := congrArg List.tail hr'
      rw [Progress.left, after, List.length_append, Nat.add_comm]

/-- If the sink can be flushed, then a failure happens at a token or at the end. -/
theorem compileClass_eq_error [Sink σ] {ts : List Token} {s t : σ} {e : CompileError}
    (flush : Sink.flush t = .ok ()) :
    compileClass (.ofTokens ts) s = .error e t ↔ ∃ k ≤ ts.length, FailsAt ts s e k t := by
  constructor
  · intro h
    have left : (final (passOver ts s)).left ≤ ts.length :=
      (Pass.parallel_classUnit (allowance ts.length)).left_le { cursor := .ofTokens ts, sink := s }
    rw [compileClass_ofTokens] at h
    split at h
    · next e q hq =>
      cases h
      rw [hq, final] at left
      exact ⟨ts.length - q.left, Nat.sub_le _ _, q, hq, Nat.add_sub_cancel' left, rfl⟩
    · split at h
      · next fault hf =>
        cases h
        rw [flush] at hf
        cases hf
      · cases h
  · rintro ⟨k, -, q, hq, -, rfl⟩
    rw [compileClass_ofTokens, hq]

/-- The compiler looks one token ahead and never goes back. Whatever the sink is, a failure at a
token happens in the same way for all tokens that begin alike up to this one, and a class that
compiles, with more tokens behind it, is written as before, and then the first of these tokens is
refused. -/
theorem one_token_lookahead (σ : Type) [Sink σ] (ts : List Token) (s : σ) :
    (∀ e t, Sink.flush t = .ok () →
      (compileClass (.ofTokens ts) s = .error e t ↔ ∃ k ≤ ts.length, FailsAt ts s e k t)) ∧
    (∀ e k t, FailsAt ts s e k t → k < ts.length →
      ∀ ts', ts'.take (k + 1) = ts.take (k + 1) → FailsAt ts' s e k t) ∧
    ∀ t, compileClass (.ofTokens ts) s = .ok () t → ∀ extra more,
      FailsAt (ts ++ extra :: more) s (.unexpected .endOfFile extra.kind extra.span) ts.length t :=
  ⟨fun _ _ => compileClass_eq_error, fun _ _ _ h inside _ => h.of_take_eq inside,
    fun _ => failsAt_of_extra⟩

/-- Tokens in one line, each of them one byte long. -/
def inLine (kinds : List TokenKind) : List Token :=
  kinds.zipIdx.map fun (kind, i) => ⟨kind, i, i + 1, 1, i + 1⟩

/-- `class A { function int f ( ) { return` -/
def untilReturn : List TokenKind :=
  [.keyword .class, .identifier "A", .symbol '{', .keyword .function, .keyword .int,
    .identifier "f", .symbol '(', .symbol ')', .symbol '{', .keyword .return]

theorem unknown_fails : FailsAt (inLine (untilReturn ++ [.identifier "x", .symbol ';']))
    ({} : Listing) (.undefined "x" ⟨10, 11, 1, 11⟩) 11 ⟨[.function "A.f" 0]⟩ :=
  ⟨final (passOver (inLine (untilReturn ++ [.identifier "x", .symbol ';'])) ({} : Listing)),
    by cbv, by cbv, by cbv⟩

theorem empty_return_compiles :
    compileClass (.ofTokens (inLine (untilReturn ++ [.symbol ';', .symbol '}', .symbol '}'])))
      ({} : Listing) = .ok () ⟨[.return, .push .constant 0, .function "A.f" 0]⟩ := by
  cbv

/-- A failure at the token behind `x`, with other tokens behind that one, and a class with a token
behind it. -/
theorem lookahead_after_return :
    FailsAt (inLine (untilReturn ++ [.identifier "x", .symbol ';', .symbol '+', .int 3]))
      ({} : Listing) (.undefined "x" ⟨10, 11, 1, 11⟩) 11 ⟨[.function "A.f" 0]⟩ ∧
    FailsAt (inLine (untilReturn ++ [.symbol ';', .symbol '}', .symbol '}', .symbol '+']))
      ({} : Listing) (.unexpected .endOfFile (.symbol '+') ⟨13, 14, 1, 14⟩) 13
      ⟨[.return, .push .constant 0, .function "A.f" 0]⟩ :=
  ⟨(one_token_lookahead Listing _ {}).2.1 _ _ _ unknown_fails (by decide) _ rfl,
    (one_token_lookahead Listing _ {}).2.2 _ empty_return_compiles ⟨.symbol '+', 13, 14, 1, 14⟩ []⟩

end Jack
