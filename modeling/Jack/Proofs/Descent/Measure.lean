import Jack.Proofs.Descent.Plan
import Jack.Proofs.Pass.Replay

/-!
# A measure of calls

The pass calls its functions for constructs inside constructs. Either some tokens are consumed
before a call, or the call is for a construct of lower rank: a term at the start of an expression,
an expression at the start of arguments, a condition at the start of a statement. So three times the
number of tokens left, and the rank, get smaller with every call.

`Plan.Descends` says this of a plan, with nothing known about its calls but that a construct, unless
it may be empty, consumes a token. It also says that the errors of the plan itself are not for want
of an allowance, and that there is an excuse for refusing a string.
-/

namespace Jack

variable {σ α β : Type}

/-! ## Tokens left -/

/-- How many tokens a pass has not consumed. -/
def Progress.left (p : Progress σ) : Nat :=
  p.cursor.rest.length

/-- Some string among the tokens left cannot be written as constants. -/
def Progress.Oversized (p : Progress σ) : Prop :=
  ∃ t ∈ p.cursor.rest, ∃ s, t.kind = .string s ∧ isEncodable s = false

theorem Progress.Oversized.mono {p q : Progress σ} (h : q.Oversized)
    (suffix : q.cursor.rest <:+ p.cursor.rest) : p.Oversized := by
  obtain ⟨t, mem, oversized⟩ := h
  exact ⟨t, suffix.subset mem, oversized⟩

theorem Progress.oversized_of_current {p : Progress σ} {s : String}
    (current : p.cursor.kind? = some (.string s)) (refused : isEncodable s = false) :
    p.Oversized := by
  obtain ⟨t, first, isString⟩ := Option.map_eq_some_iff.1 current
  exact ⟨t, List.mem_of_mem_head? first, s, isString, refused⟩

namespace Pass

variable {p q : Progress σ}

theorem left_next {kind : TokenKind} (h : p.cursor.kind? = some kind) :
    (next p).left + 1 ≤ p.left := by
  obtain ⟨⟨rest, ending⟩, _⟩ := p
  cases rest with
  | nil => cases h
  | cons t rest => exact Nat.le_refl _

theorem left_pos {kind : TokenKind} (h : p.cursor.kind? = some kind) : 1 ≤ p.left :=
  Nat.le_of_add_left_le (left_next h)

theorem left_next_le : (next p).left ≤ p.left := by
  have left : (next p).left = p.left - 1 := List.length_tail
  omega

theorem left_of_move [Sink σ] {ks : List TokenKind} {code : List Instruction} {n : Nat}
    (h : Move p ks code n q) : q.left + ks.length = p.left := by
  have lengths := congrArg List.length h.tokens
  rw [List.length_append, Progress.kinds, Progress.kinds, List.length_map, List.length_map]
    at lengths
  exact (Nat.add_comm _ _).trans lengths.symm

end Pass

/-! ## Constructs -/

namespace Construct

/-- Whether a construct may have no tokens at all. -/
def mayBeEmpty : Construct → Bool
  | members | locals | statements | operators => true
  | _ => false

/-- How many tokens a construct has at least. -/
def least (c : Construct) : Nat :=
  if c.mayBeEmpty then 0 else 1

/-- A construct that may start with another has a higher rank. -/
def rank : Construct → Nat
  | arguments | returnStatement => 2
  | expression | ifStatement | whileStatement => 1
  | _ => 0

theorem rank_le (c : Construct) : c.rank ≤ 2 := by
  cases c <;> decide

/-- What a call at `p` measures. -/
def measure (c : Construct) (p : Progress σ) : Nat :=
  3 * p.left + c.rank

end Construct

/-! ## Errors -/

namespace CompileError

/-- The error that an allowance is used up. -/
def isExhaustion : CompileError → Bool
  | tooMany .constructs _ => true
  | _ => false

/-- The error that a string cannot be written as constants. -/
def isStringLimit : CompileError → Bool
  | tooMany .characters _ => true
  | _ => false

/-- An error of a function itself. It is not that the allowance is used up, and there has to be an
excuse for an error about a string. -/
structure Excused (excuse : Prop) (e : CompileError) : Prop where
  spare : e.isExhaustion = false
  strings : e.isStringLimit = true → excuse

theorem Excused.of_other {excuse : Prop} {e : CompileError} (spare : e.isExhaustion = false)
    (other : e.isStringLimit = false) : e.Excused excuse :=
  ⟨spare, fun h => absurd (other.symm.trans h) Bool.false_ne_true⟩

end CompileError

/-! ## Primitive steps -/

namespace Pass

/-- A step that never goes back, whether it succeeds or fails, and whose errors need no excuse. -/
structure Basic (x : Pass σ α) : Prop where
  onward : ∀ p, (final (x p)).cursor.rest <:+ p.cursor.rest
  excused : ∀ p e q, x p = .error e q → e.Excused False

theorem basic_of_ok {x : Pass σ α}
    (h : ∀ p, ∃ a q, x p = .ok a q ∧ q.cursor.rest <:+ p.cursor.rest) : Basic x where
  onward p := by
    obtain ⟨a, q, done, suffix⟩ := h p
    rw [done]
    exact suffix
  excused p e q failed := by
    obtain ⟨a, r, done, -⟩ := h p
    cases done.symm.trans failed

theorem basic_of_error {x : Pass σ α} (h : ∀ p, ∃ e, x p = .error e p ∧ e.Excused False) :
    Basic x where
  onward p := by
    obtain ⟨e, failed, -⟩ := h p
    rw [failed]
    exact List.suffix_rfl
  excused p e q failed := by
    obtain ⟨e', failed', excused⟩ := h p
    cases failed'.symm.trans failed
    exact excused

theorem Basic.bind {x : Pass σ α} {f : α → Pass σ β} (first : Basic x) (next : ∀ a, Basic (f a)) :
    Basic (x >>= f) where
  onward p := by
    have onward := first.onward p
    cases h : x p with
    | error e q =>
      rw [h] at onward
      rw [bind_of_error h]
      exact onward
    | ok a q =>
      rw [h] at onward
      rw [bind_of_ok h]
      exact ((next a).onward q).trans onward
  excused p e r failed := by
    cases h : x p with
    | error e' q =>
      rw [bind_of_error h] at failed
      cases failed
      exact first.excused p _ _ h
    | ok a q =>
      rw [bind_of_ok h] at failed
      exact (next a).excused q e r failed

theorem basic_pure (a : α) : Basic (pure a : Pass σ α) :=
  basic_of_ok fun _ => ⟨a, _, rfl, List.suffix_rfl⟩

theorem basic_throw {e : CompileError} (excused : e.Excused False) : Basic (throw e : Pass σ α) :=
  basic_of_error fun _ => ⟨e, rfl, excused⟩

theorem basic_advance : Basic (advance : Pass σ Unit) :=
  basic_of_ok fun p => ⟨(), next p, rfl, List.tail_suffix p.cursor.rest⟩

theorem basic_ite {c : Prop} [Decidable c] {x y : Pass σ α} (hx : Basic x) (hy : Basic y) :
    Basic (if c then x else y) := by
  split
  · exact hx
  · exact hy

/-- A step that depends on the current state. -/
theorem basic_get {f : Progress σ → Pass σ α} (h : ∀ p, Basic (f p)) : Basic (get >>= f) :=
  (basic_of_ok fun p => ⟨p, p, rfl, List.suffix_rfl⟩ : Basic get).bind h

theorem basic_unexpected (expected : Expectation) : Basic (unexpected expected : Pass σ α) := by
  refine basic_of_error fun p => ⟨p.cursor.unexpected expected, rfl, ?_⟩
  unfold Cursor.unexpected
  cases p.cursor.current? <;> exact CompileError.Excused.of_other rfl rfl

theorem basic_identifier : Basic (identifier : Pass σ String) := by
  refine basic_get fun p => ?_
  cases h : p.cursor.identifier with
  | ok name => exact basic_advance.bind fun _ => basic_pure name
  | error e =>
    refine basic_throw ?_
    unfold Cursor.identifier Cursor.read at h
    split at h
    · cases h
      exact CompileError.Excused.of_other rfl rfl
    · split at h <;> cases h
      exact CompileError.Excused.of_other rfl rfl

theorem basic_emit [Sink σ] (i : Instruction) : Basic (emit i : Pass σ Unit) where
  onward p := by
    rw [emit_apply]
    cases Sink.write i p.sink <;> exact List.suffix_rfl
  excused p e q failed := by
    rw [emit_apply] at failed
    split at failed <;> cases failed
    exact CompileError.Excused.of_other rfl rfl

theorem basic_emitAll [Sink σ] (code : List Instruction) : Basic (emitAll code : Pass σ Unit) := by
  induction code with
  | nil => exact basic_pure ()
  | cons i code ih => exact (basic_emit i).bind fun _ => ih

end Pass

namespace Primitive

open Pass

variable [Sink σ]

theorem basic (x : Primitive α) : Basic (x.run : Pass σ α) := by
  cases x with
  | here | peek | test _ | startSubroutine | count _ | lookup _ | freshLabel _ =>
    exact basic_of_ok fun _ => ⟨_, _, rfl, List.suffix_rfl⟩
  | advance => exact basic_advance
  | symbol c => exact basic_get fun _ => basic_ite basic_advance (basic_unexpected _)
  | keyword k => exact basic_get fun _ => basic_ite basic_advance (basic_unexpected _)
  | identifier => exact basic_identifier
  | accept c =>
    exact basic_get fun _ =>
      basic_ite (basic_advance.bind fun _ => basic_pure true) (basic_pure false)
  | unexpected e => exact basic_unexpected e
  | define name type kind span =>
    refine basic_get fun p => ?_
    cases p.symbols.define? name type kind with
    | none => exact basic_throw (CompileError.Excused.of_other rfl rfl)
    | some new => exact basic_of_ok fun _ => ⟨_, _, rfl, List.suffix_rfl⟩
  | resolve name span =>
    have found : Basic (Pass.lookup name : Pass σ _) :=
      basic_of_ok fun _ => ⟨_, _, rfl, List.suffix_rfl⟩
    refine found.bind fun v => ?_
    cases v with
    | none => exact basic_throw (CompileError.Excused.of_other rfl rfl)
    | some v => exact basic_pure v
  | emit i => exact basic_emit i
  | emitAll code => exact basic_emitAll code

theorem left_run {x : Primitive α} {p q : Progress σ} {a : α} (h : x.run p = .ok a q) :
    q.left ≤ p.left := by
  have suffix := x.basic.onward p
  rw [h] at suffix
  exact suffix.length_le

end Primitive

/-! ## Plans -/

namespace Plan

open Pass

variable [Sink σ]

/-- From `p` on, and whatever the calls of a plan do as long as each of them consumes the tokens
that its construct needs: all calls measure less than `limit`, all errors of the plan itself are
excused, and if the plan gets done, then `post` holds. -/
def Descends (limit : Nat) (excuse : Prop) (post : α → Progress σ → Prop) :
    Plan α → Progress σ → Prop
  | done a, p => post a p
  | fail e, _ => e.Excused excuse
  | step x more, p => ∀ b q, x.run p = .ok b q → (more b).Descends limit excuse post q
  | enter r more, p => r.construct.measure p < limit ∧
      ∀ b q, q.left + r.construct.least ≤ p.left → (more b).Descends limit excuse post q

namespace Descends

variable {limit : Nat} {excuse : Prop} {post : α → Progress σ → Prop} {p : Progress σ}

theorem mono {post' : α → Progress σ → Prop} {x : Plan α} (h : x.Descends limit excuse post p)
    (weaker : ∀ a q, post a q → post' a q) : x.Descends limit excuse post' p := by
  induction x generalizing p with
  | done a => exact weaker a p h
  | fail e => exact h
  | step x more ih => exact fun b q hq => ih b (h b q hq)
  | enter r more ih => exact ⟨h.1, fun b q hq => ih b (h.2 b q hq)⟩

theorem bind {x : Plan β} {f : β → Plan α}
    (h : x.Descends limit excuse (fun b q => (f b).Descends limit excuse post q) p) :
    (x >>= f).Descends limit excuse post p := by
  induction x generalizing p with
  | done a => exact h
  | fail e => exact h
  | step x more ih => exact fun b q hq => ih b (h b q hq)
  | enter r more ih => exact ⟨h.1, fun b q hq => ih b (h.2 b q hq)⟩

/-- One plan after another that is known to consume some tokens. -/
theorem after {k : Nat} {x : Plan β} {f : β → Plan α}
    (first : x.Descends limit excuse (fun _ q => q.left + k ≤ p.left) p)
    (next : ∀ b q, q.left + k ≤ p.left → (f b).Descends limit excuse post q) :
    (x >>= f).Descends limit excuse post p :=
  .bind (first.mono next)

theorem pure {a : α} (h : post a p) : (pure a : Plan α).Descends limit excuse post p :=
  h

/-! ### Steps -/

theorem here {f : Span → Plan α} (next : ∀ span, (f span).Descends limit excuse post p) :
    (own .here >>= f).Descends limit excuse post p := by
  intro span q hq
  cases hq
  exact next _

theorem last {x : Primitive α} (ends : ∀ a q, q.left ≤ p.left → post a q) :
    (own x).Descends limit excuse post p :=
  fun a q hq => ends a q (Primitive.left_run hq)

theorem step {x : Primitive β} {f : β → Plan α}
    (next : ∀ b q, q.left ≤ p.left → (f b).Descends limit excuse post q) :
    (own x >>= f).Descends limit excuse post p :=
  .bind (last next)

theorem lastSymbol {c : Char} {post : Unit → Progress σ → Prop}
    (ends : ∀ q, q.left + 1 ≤ p.left → post () q) :
    (own (.symbol c)).Descends limit excuse post p :=
  fun _ q hq => ends q (Nat.le_of_eq (left_of_move (symbol_step hq).toMove))

theorem symbol {c : Char} {f : Unit → Plan α}
    (next : ∀ q, q.left + 1 ≤ p.left → (f ()).Descends limit excuse post q) :
    (own (.symbol c) >>= f).Descends limit excuse post p :=
  .bind (lastSymbol next)

theorem keyword {k : Keyword} {f : Unit → Plan α}
    (next : ∀ q, q.left + 1 ≤ p.left → (f ()).Descends limit excuse post q) :
    (own (.keyword k) >>= f).Descends limit excuse post p :=
  fun _ q hq => next q (Nat.le_of_eq (left_of_move (keyword_step hq).toMove))

theorem lastIdentifier {post : String → Progress σ → Prop}
    (ends : ∀ name q, q.left + 1 ≤ p.left → post name q) :
    (own .identifier).Descends limit excuse post p :=
  fun name q hq => ends name q (Nat.le_of_eq (left_of_move (identifier_step hq).toMove))

theorem identifier {f : String → Plan α}
    (next : ∀ name q, q.left + 1 ≤ p.left → (f name).Descends limit excuse post q) :
    (own .identifier >>= f).Descends limit excuse post p :=
  .bind (lastIdentifier next)

theorem unexpected {e : Expectation} : (own (.unexpected e)).Descends limit excuse post p :=
  fun _ _ hq => absurd hq unexpected_ne_ok

theorem fail {e : CompileError} (excused : e.Excused excuse) :
    (Plan.fail e : Plan α).Descends limit excuse post p :=
  excused

theorem lastAdvance {post : Unit → Progress σ → Prop}
    (ends : ∀ q, q.left = p.left - 1 → post () q) :
    (own .advance).Descends limit excuse post p := by
  intro u q hq
  cases hq
  exact ends _ List.length_tail

theorem advance {f : Unit → Plan α}
    (next : ∀ q, q.left = p.left - 1 → (f ()).Descends limit excuse post q) :
    (own .advance >>= f).Descends limit excuse post p :=
  .bind (lastAdvance next)

/-! ### Choices -/

theorem peek {f : Option TokenKind → Plan α}
    (next : ∀ k, p.cursor.kind? = k → (f k).Descends limit excuse post p) :
    (own .peek >>= f).Descends limit excuse post p := by
  intro k q hq
  cases hq
  exact next _ rfl

theorem test {g : Cursor → Bool} {x y : Plan α}
    (yes : g p.cursor = true → x.Descends limit excuse post p)
    (no : y.Descends limit excuse post p) :
    (own (.test g) >>= fun found =>
      if found = true then x else y).Descends limit excuse post p := by
  intro found q hq
  cases hq
  show (if g p.cursor = true then x else y).Descends limit excuse post p
  split
  · next h => exact yes h
  · exact no

theorem accept {c : Char} {x y : Plan α}
    (yes : ∀ q, q.left + 1 ≤ p.left → x.Descends limit excuse post q)
    (no : y.Descends limit excuse post p) :
    (own (.accept c) >>= fun found =>
      if found = true then x else y).Descends limit excuse post p := by
  intro found q hq
  rw [Primitive.run, Pass.accept, bind_of_ok get_apply] at hq
  split at hq
  · next h =>
    cases hq
    exact yes _ (left_next (beq_iff_eq.1 h))
  · cases hq
    exact no

/-! ### Calls

The rank of a call is given as a number, for the arithmetic. -/

theorem lastCall (k : Nat) {r : Routine α} (rank : r.construct.rank = k)
    (below : 3 * p.left + k < limit) (ends : ∀ a q, q.left ≤ p.left → post a q) :
    (perform r).Descends limit excuse post p := by
  refine ⟨?_, fun a q hq => ends a q (Nat.le_of_add_right_le hq)⟩
  rw [Construct.measure, rank]
  exact below

theorem call (k : Nat) {r : Routine β} {f : β → Plan α} (rank : r.construct.rank = k)
    (below : 3 * p.left + k < limit)
    (next : ∀ b q, q.left ≤ p.left → (f b).Descends limit excuse post q) :
    (perform r >>= f).Descends limit excuse post p :=
  .bind (lastCall k rank below next)

/-- A call for a construct that cannot be empty. -/
theorem fullCall (k : Nat) {r : Routine β} {f : β → Plan α} (rank : r.construct.rank = k)
    (full : r.construct.least = 1) (below : 3 * p.left + k < limit)
    (next : ∀ b q, q.left + 1 ≤ p.left → (f b).Descends limit excuse post q) :
    (perform r >>= f).Descends limit excuse post p := by
  refine .bind ⟨?_, ?_⟩
  · rw [Construct.measure, rank]
    exact below
  · rw [full]
    exact next

end Descends

end Plan

end Jack
