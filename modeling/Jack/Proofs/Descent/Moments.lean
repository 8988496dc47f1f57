import Mathlib
import Jack.Proofs.Descent.Calls

/-!
# The calls under way

A pass is run step by step on the plans of its functions, with the calls under way on a stack. At
each moment it can be seen which calls are under way and how far the pass had come when each was
made. This machine has no allowance. That it stops, and that its stack never gets higher than three
times the number of tokens, follows from the measure of calls, and so does that an allowance of that
size is never used up.
-/

namespace Jack

variable {σ α β : Type}

/-! ## Moments -/

/-- A call under way: its construct, and how far the pass had come when the call was made. -/
structure Activation (σ : Type) where
  construct : Construct
  start : Progress σ

/-- The calls under way, the innermost first, each with what is left to do after it. -/
inductive Stack (σ : Type) : Type → Type 1
  | bottom : Stack σ Unit
  | push {α β : Type} (r : Routine β) (start : Progress σ) (more : β → Plan α)
      (below : Stack σ α) : Stack σ β

/-- The calls under way, the innermost first. -/
def Stack.activations : {α : Type} → Stack σ α → List (Activation σ)
  | _, bottom => []
  | _, push r start _ below => ⟨r.construct, start⟩ :: below.activations

/-- A moment of a pass: what is left to do in the innermost call, the calls under way, and how far
the pass has come. A pass that fails stops where it is. -/
inductive Moment (σ : Type) : Type 1
  | running {α : Type} (plan : Plan α) (stack : Stack σ α) (progress : Progress σ)
  | failed {α : Type} (e : CompileError) (stack : Stack σ α) (progress : Progress σ)

namespace Moment

/-- How far the pass has come. -/
def progress : Moment σ → Progress σ
  | running _ _ p | failed _ _ p => p

/-- The calls under way, the innermost first. -/
def activations : Moment σ → List (Activation σ)
  | running _ stack _ | failed _ stack _ => stack.activations

/-- The result of the pass, when it has ended. -/
def result? : Moment σ → Option (EStateM.Result CompileError (Progress σ) Unit)
  | running (.done u) .bottom p => some (.ok u p)
  | running _ _ _ => none
  | failed e _ p => some (.error e p)

variable [Sink σ]

/-- The first moment of the pass over a class. -/
def start (cursor : Cursor) (sink : σ) : Moment σ :=
  running .classUnit .bottom { cursor, sink }

/-- The next moment. A pass that has ended stays as it is. -/
def step : Moment σ → Moment σ
  | running (.done u) .bottom p => running (.done u) .bottom p
  | running (.done b) (.push _ _ more below) p => running (more b) below p
  | running (.fail e) stack p => failed e stack p
  | running (.step x more) stack p =>
    match x.run p with
    | .ok b q => running (more b) stack q
    | .error e q => failed e stack q
  | running (.enter r more) stack p => running r.plan (.push r p more stack) p
  | failed e stack p => failed e stack p

section Step

variable {x : Primitive β} {more : β → Plan α} {stack : Stack σ α} {p q : Progress σ}

theorem step_of_ok {b : β} (h : x.run p = .ok b q) :
    step (running (.step x more) stack p) = running (more b) stack q := by
  rw [step, h]

theorem step_of_error {e : CompileError} (h : x.run p = .error e q) :
    step (running (.step x more) stack p) = failed e stack q := by
  rw [step, h]

end Step

end Moment

/-! ## What each call must still do -/

/-- A stack of calls that go down from `top`. The innermost call is at `limit`, and it has to end
so that `post` holds. What is left to do after a call goes down from the limit of the call below. -/
inductive Stack.Fits [Sink σ] (top : Nat) :
    {α : Type} → Stack σ α → (limit : Nat) → (post : α → Progress σ → Prop) → Prop
  | bottom : Fits top .bottom top fun _ _ => True
  | push {α β : Type} {r : Routine β} {start : Progress σ} {more : β → Plan α}
      {below : Stack σ α} {limit : Nat} {excuse : Prop} {post : α → Progress σ → Prop}
      (deeper : r.construct.measure start < limit)
      (resumes : ∀ b q, q.left + r.construct.least ≤ start.left →
        (more b).Descends limit excuse post q)
      (fits : Fits top below limit post) :
      Fits top (.push r start more below) (r.construct.measure start)
        fun _ q => q.left + r.construct.least ≤ start.left

namespace Stack.Fits

variable [Sink σ] {top limit : Nat} {stack : Stack σ α} {post : α → Progress σ → Prop}

/-- Each call takes at least one from what the calls may measure. -/
theorem height_le (h : stack.Fits top limit post) : stack.activations.length + limit ≤ top := by
  induction h with
  | bottom => exact Nat.le_of_eq (Nat.zero_add top)
  | push deeper _ _ ih =>
    rw [activations, List.length_cons]
    omega

theorem limit_le (h : stack.Fits top limit post) :
    ∀ a ∈ stack.activations, limit ≤ a.construct.measure a.start := by
  induction h with
  | bottom => exact List.forall_mem_nil _
  | push deeper _ _ ih =>
    intro a ha
    rw [activations, List.mem_cons] at ha
    obtain rfl | ha := ha
    · exact Nat.le_refl _
    · exact deeper.le.trans (ih a ha)

/-- The calls measure less from the outermost to the innermost. -/
theorem pairwise_measure (h : stack.Fits top limit post) :
    stack.activations.Pairwise fun inner outer =>
      inner.construct.measure inner.start < outer.construct.measure outer.start := by
  induction h with
  | bottom => exact .nil
  | push deeper _ fits ih =>
    exact .cons (fun outer houter => deeper.trans_le (fits.limit_le outer houter)) ih

end Stack.Fits

/-! ## Every moment -/

/-- No call under way was made before the calls around it, and none before the first token. -/
def Trail (tokens rest : List Token) (calls : List (Activation σ)) : Prop :=
  (rest :: (calls.map fun a => a.start.cursor.rest) ++ [tokens]).Pairwise (· <:+ ·)

namespace Trail

variable {tokens rest rest' : List Token} {a : Activation σ} {calls : List (Activation σ)}

theorem advance (h : Trail tokens rest calls) (le : rest' <:+ rest) : Trail tokens rest' calls := by
  obtain ⟨before, trail⟩ := List.pairwise_cons.mp h
  exact .cons (fun later hl => le.trans (before later hl)) trail

theorem enter (h : Trail tokens a.start.cursor.rest calls) :
    Trail tokens a.start.cursor.rest (a :: calls) := by
  refine .cons (fun later hl => ?_) h
  obtain rfl | hl := List.mem_cons.mp hl
  · exact List.suffix_rfl
  · exact (List.pairwise_cons.mp h).1 later hl

theorem leave (h : Trail tokens rest (a :: calls)) : Trail tokens rest calls :=
  List.Pairwise.sublist ((List.sublist_cons_self _ _).cons_cons rest) h

end Trail

namespace Moment

variable [Sink σ] {tokens : List Token} {m : Moment σ}

/-- What holds at every moment of a pass over `tokens`. -/
def Sound (tokens : List Token) : Moment σ → Prop
  | running plan stack p =>
    Trail tokens p.cursor.rest stack.activations ∧
      ∃ limit excuse post,
        stack.Fits (3 * tokens.length) limit post ∧ plan.Descends limit excuse post p
  | failed _ stack p =>
    Trail tokens p.cursor.rest stack.activations ∧
      ∃ limit post, stack.Fits (3 * tokens.length) limit post

theorem sound_start (cursor : Cursor) (sink : σ) : (start cursor sink).Sound cursor.rest := by
  refine ⟨?_, _, True, _, .bottom, Plan.descends_classUnit⟩
  refine .cons (fun later hl => ?_) (List.pairwise_singleton _ _)
  rw [List.mem_singleton.mp hl]

/-- No step moves back. -/
theorem step_suffix (m : Moment σ) : m.step.progress.cursor.rest <:+ m.progress.cursor.rest := by
  cases m with
  | failed e stack p => exact List.suffix_rfl
  | running plan stack p =>
    cases plan with
    | done a => cases stack <;> exact List.suffix_rfl
    | fail e => exact List.suffix_rfl
    | enter r more => exact List.suffix_rfl
    | step x more =>
      have onward := x.basic.onward p
      cases h : x.run p with
      | ok b q =>
        rw [step_of_ok h]
        rwa [h] at onward
      | error e q =>
        rw [step_of_error h]
        rwa [h] at onward

theorem Sound.step (h : m.Sound tokens) : m.step.Sound tokens := by
  cases m with
  | failed e stack p => exact h
  | running plan stack p =>
    obtain ⟨trail, limit, excuse, post, fits, descends⟩ := h
    cases plan with
    | done a =>
      cases fits with
      | bottom => exact ⟨trail, _, excuse, _, .bottom, descends⟩
      | push deeper resumes fits => exact ⟨trail.leave, _, _, _, fits, resumes a p descends⟩
    | fail e => exact ⟨trail, limit, post, fits⟩
    | enter r more =>
      have entered := Trail.enter (a := ⟨r.construct, p⟩) trail
      exact ⟨entered, _, _, _, .push descends.1 descends.2 fits, r.descends p⟩
    | step x more =>
      have moved := trail.advance (step_suffix (running (.step x more) stack p))
      cases h : x.run p with
      | ok b q =>
        rw [step_of_ok h] at moved ⊢
        exact ⟨moved, limit, excuse, post, fits, descends b q h⟩
      | error e q =>
        rw [step_of_error h] at moved ⊢
        exact ⟨moved, limit, post, fits⟩

theorem sound_iterate (h : m.Sound tokens) (k : Nat) : (step^[k] m).Sound tokens := by
  induction k with
  | zero => exact h
  | succ k ih =>
    rw [Function.iterate_succ_apply']
    exact ih.step

theorem iterate_suffix (m : Moment σ) {j k : Nat} (le : j ≤ k) :
    (step^[k] m).progress.cursor.rest <:+ (step^[j] m).progress.cursor.rest := by
  induction le with
  | refl => exact List.suffix_rfl
  | step _ ih =>
    rw [Function.iterate_succ_apply']
    exact (step_suffix _).trans ih

/-- The order among the calls under way in a pass over `tokens`. -/
structure Orderly (tokens : List Token) (m : Moment σ) : Prop where
  inside : m.progress.cursor.rest <:+ tokens
  since : ∀ a ∈ m.activations,
    m.progress.cursor.rest <:+ a.start.cursor.rest ∧ a.start.cursor.rest <:+ tokens
  nested : m.activations.Pairwise fun inner outer =>
    inner.start.cursor.rest <:+ outer.start.cursor.rest ∧
      (inner.construct = outer.construct → inner.start.left < outer.start.left)
  depth : m.activations.length ≤ 3 * tokens.length

omit [Sink σ] in
/-- Two calls for the same construct have the same rank, so the inner one measures less only because
fewer tokens are left. -/
theorem left_lt_of_measure_lt {a b : Activation σ} (same : a.construct = b.construct)
    (less : a.construct.measure a.start < b.construct.measure b.start) :
    a.start.left < b.start.left := by
  rw [Construct.measure, Construct.measure, same] at less
  omega

omit [Sink σ] in
theorem orderly_of_trail (trail : Trail tokens m.progress.cursor.rest m.activations)
    (measures : m.activations.Pairwise fun inner outer =>
      inner.construct.measure inner.start < outer.construct.measure outer.start)
    (depth : m.activations.length ≤ 3 * tokens.length) : m.Orderly tokens := by
  obtain ⟨chain, -, inside⟩ := List.pairwise_append.mp trail
  obtain ⟨since, nested⟩ := List.pairwise_cons.mp chain
  have before (rest : List Token) (h : rest ∈ m.progress.cursor.rest ::
      m.activations.map fun a => a.start.cursor.rest) : rest <:+ tokens :=
    inside rest h tokens List.mem_cons_self
  refine ⟨before _ List.mem_cons_self, fun a ha => ?_, ?_, depth⟩
  · have mem := List.mem_map_of_mem (f := fun a : Activation σ => a.start.cursor.rest) ha
    exact ⟨since _ mem, before _ (List.mem_cons_of_mem _ mem)⟩
  · refine ((List.pairwise_map.mp nested).and measures).imp fun h => ⟨h.1, fun same => ?_⟩
    exact left_lt_of_measure_lt same h.2

theorem Sound.orderly (h : m.Sound tokens) : m.Orderly tokens := by
  cases m with
  | running plan stack p =>
    obtain ⟨trail, limit, excuse, post, fits, -⟩ := h
    exact orderly_of_trail trail fits.pairwise_measure (Nat.le_of_add_right_le fits.height_le)
  | failed e stack p =>
    obtain ⟨trail, limit, post, fits⟩ := h
    exact orderly_of_trail trail fits.pairwise_measure (Nat.le_of_add_right_le fits.height_le)

end Moment

/-! ## The result -/

namespace Moment

open Pass

variable [Sink σ]

/-- From the moment `m` on, the pass gets to the given result with the calls in `stack` under way,
or fails as given. -/
def Leads (m : Moment σ) (stack : Stack σ α) :
    EStateM.Result CompileError (Progress σ) α → Prop
  | .ok a q => ∃ k, step^[k] m = running (.done a) stack q
  | .error e q => ∃ k, ∃ (β : Type) (inner : Stack σ β), step^[k] m = failed e inner q

variable {m : Moment σ} {stack : Stack σ α}

theorem Leads.of_iterate {r : EStateM.Result CompileError (Progress σ) α} (k : Nat)
    (h : (step^[k] m).Leads stack r) : m.Leads stack r := by
  cases r with
  | ok a q =>
    obtain ⟨j, reached⟩ := h
    exact ⟨j + k, (Function.iterate_add_apply _ _ _ _).trans reached⟩
  | error e q =>
    obtain ⟨j, β, inner, reached⟩ := h
    exact ⟨j + k, β, inner, (Function.iterate_add_apply _ _ _ _).trans reached⟩

/-- If all calls below a limit lead to what they do with the allowance `n`, then so does a plan that
goes down from that limit. -/
theorem leads_plan {n limit : Nat} {excuse : Prop} {post : α → Progress σ → Prop} {x : Plan α}
    {p : Progress σ}
    (calls : ∀ {β : Type} (r : Routine β) (p : Progress σ), r.construct.measure p < limit →
      ∀ stack, (running r.plan stack p).Leads stack (r.run n p))
    (descends : x.Descends limit excuse post p) :
    (running x stack p).Leads stack (x.run n p) := by
  induction x generalizing p with
  | done a => exact ⟨0, rfl⟩
  | fail e => exact ⟨1, _, stack, rfl⟩
  | step y more ih =>
    refine .of_iterate 1 ?_
    rw [Function.iterate_one, Plan.run]
    cases first : y.run p with
    | ok b q =>
      rw [step_of_ok first, bind_of_ok first]
      exact ih b (descends b q first)
    | error e q =>
      rw [step_of_error first, bind_of_error first]
      exact ⟨0, _, stack, rfl⟩
  | enter r more ih =>
    refine .of_iterate 1 ?_
    have inner := calls r p descends.1 (.push r p more stack)
    rw [Function.iterate_one, step, Plan.run]
    cases first : r.run n p with
    | ok b q =>
      rw [first] at inner
      obtain ⟨k, reached⟩ := inner
      refine .of_iterate (k + 1) ?_
      rw [Function.iterate_succ_apply', reached, bind_of_ok first]
      exact ih b (descends.2 b q ((r.ends p n).ok b q first))
    | error e q =>
      rw [first] at inner
      rw [bind_of_error first]
      exact inner

/-- A call leads to what it does with any allowance above its measure. -/
theorem leads_routine (r : Routine α) (p : Progress σ) :
    ∀ n, r.construct.measure p < n → ∀ stack, (running r.plan stack p).Leads stack (r.run n p) := by
  refine Routine.measure_induction (P := fun r p => ∀ n, r.construct.measure p < n →
    ∀ stack, (running r.plan stack p).Leads stack (r.run n p)) ?_ r p
  intro α r p inner n room stack
  obtain ⟨spent, -⟩ | ⟨m, -, le, runs⟩ := @Routine.run_eq σ _ _ r n
  · exact absurd room (spent ▸ Nat.not_lt_zero _)
  · rw [runs]
    refine leads_plan (fun r' p' less => inner r' p' less m ?_) (r.descends p)
    omega

theorem result?_of_leads {r : EStateM.Result CompileError (Progress σ) Unit}
    (h : m.Leads .bottom r) : ∃ k, (step^[k] m).result? = some r := by
  cases r with
  | ok u q =>
    obtain ⟨k, reached⟩ := h
    exact ⟨k, congrArg result? reached⟩
  | error e q =>
    obtain ⟨k, β, inner, reached⟩ := h
    exact ⟨k, congrArg result? reached⟩

/-- The pass ends, with the result that it has with any allowance of three for each token. -/
theorem exists_result (cursor : Cursor) (sink : σ) {n : Nat} (room : 3 * cursor.rest.length ≤ n) :
    ∃ k, (step^[k] (start cursor sink)).result? = some (Pass.classUnit n { cursor, sink }) := by
  let p : Progress σ := { cursor, sink }
  have descends : Plan.classUnit.Descends (3 * p.left) True (fun _ _ => True) p :=
    Plan.descends_classUnit
  rw [← Plan.run_classUnit]
  refine result?_of_leads (leads_plan (fun r q less => ?_) descends)
  exact leads_routine r q n (less.trans_le room)

/-- The calls of a pass go down with the tokens. A pass never moves back. Of two calls under way for
the same construct, the inner one was made where fewer tokens are left, and at most three calls for
each token are under way. A function that succeeds has consumed a token, unless its construct may be
empty. What a function does is what its plan does. The pass ends, as it does with any allowance of
more than three for each token, and such an allowance is never used up. -/
theorem descent_advances (cursor : Cursor) (sink : σ) :
    (∀ k, (step^[k] (start cursor sink)).Orderly cursor.rest) ∧
    (∀ j k, j ≤ k → (step^[k] (start cursor sink)).progress.cursor.rest <:+
      (step^[j] (start cursor sink)).progress.cursor.rest) ∧
    (∀ {α : Type} (r : Routine α) (p : Progress σ) n a q, r.construct.mayBeEmpty = false →
      r.run n p = .ok a q → q.left < p.left) ∧
    (∀ {α : Type} (r : Routine α) n, 0 < n →
      ∃ m, m ≤ n ∧ n ≤ m + 1 ∧ (r.run n : Pass σ α) = r.plan.run m) ∧
    ∀ n, 3 * cursor.rest.length < n →
      (∃ k, (step^[k] (start cursor sink)).result? = some (Pass.classUnit n { cursor, sink })) ∧
      ∀ e q, Pass.classUnit n { cursor, sink } = .error e q → e.isExhaustion = false := by
  refine ⟨fun k => ?_, fun j k le => iterate_suffix _ le, fun r p n a q full run => ?_,
    fun r n some => ?_, fun n room => ⟨exists_result cursor sink room.le, ?_⟩⟩
  · exact (sound_iterate (sound_start cursor sink) k).orderly
  · have consumed := (r.ends p n).ok a q run
    rw [Construct.least, full] at consumed
    exact consumed
  · obtain ⟨rfl, -⟩ | plan := @Routine.run_eq σ _ _ r n
    · exact absurd some (Nat.lt_irrefl 0)
    · exact plan
  · have settled : Pass.Settled (Pass.classUnit n) (Pass.classUnit n) { cursor, sink } :=
      settled_classUnit room.le room.le
    exact settled.spare

/-- The tokens of `class A { function int f() { return; return ((1`, where the text stops. -/
def truncatedReturn : Cursor where
  rest := [.keyword .class, .identifier "A", .symbol '{', .keyword .function, .keyword .int,
    .identifier "f", .symbol '(', .symbol ')', .symbol '{', .keyword .return, .symbol ';',
    .keyword .return, .symbol '(', .symbol '(', .int 1].map (⟨·, ⟨0, 0, 1, 1⟩⟩)
  ending := ⟨0, 0, 1, 1⟩

/-- Before the tokens of `(1)`. -/
def enclosedNumber : Progress Listing where
  cursor := .ofTokens ([.symbol '(', .int 1, .symbol ')'].map (⟨·, ⟨0, 0, 1, 1⟩⟩))
  sink := {}

/-- Where the text stops, two terms, two expressions and two rounds of statements are under way. -/
theorem truncatedReturn_advances :
    let first := start truncatedReturn ({} : Listing)
    (step^[70] first).activations.map (fun a => (a.construct, a.start.left)) =
        [(.term, 2), (.expression, 2), (.term, 3), (.expression, 3), (.returnStatement, 3),
          (.statements, 4), (.statements, 6), (.subroutine, 11), (.members, 12)] ∧
      (step^[70] first).Orderly truncatedReturn.rest ∧
      (step^[70] first).progress.cursor.rest <:+ (step^[30] first).progress.cursor.rest ∧
      (∃ q, Pass.term "A" 9 enclosedNumber = .ok () q ∧ q.left < enclosedNumber.left) ∧
      ∃ e q, Pass.classUnit 50 { cursor := truncatedReturn, sink := ({} : Listing) } = .error e q ∧
        e.isExhaustion = false := by
  obtain ⟨orderly, forward, consumes, -, ends⟩ := descent_advances truncatedReturn ({} : Listing)
  obtain ⟨q, consumed⟩ : ∃ q, Pass.term "A" 9 enclosedNumber = .ok () q := ⟨_, by cbv⟩
  obtain ⟨e, r, failed⟩ : ∃ e r, Pass.classUnit 50
    { cursor := truncatedReturn, sink := ({} : Listing) } = .error e r := ⟨_, _, by cbv⟩
  refine ⟨by cbv, orderly 70, forward 30 70 (by decide), ⟨q, consumed, ?_⟩, e, r, failed, ?_⟩
  · exact consumes (.term "A") enclosedNumber 9 () q rfl consumed
  · exact (ends 50 (by decide)).2 e r failed

end Moment

end Jack
