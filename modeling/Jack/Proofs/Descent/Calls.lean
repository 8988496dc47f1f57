import Jack.Proofs.Descent.Measure

/-!
# What calls do

All functions of the pass go down by the measure of calls. This is read off their plans, once for
each construct. What follows holds of all functions alike: they never go back, they consume what
their constructs have at least, they refuse a string only if it stands there, an allowance above the
measure is never used up, and it does not matter which one.
-/

namespace Jack

variable {σ α β : Type}

/-! ## The plans go down -/

namespace Plan

open Pass

variable [Sink σ] {excuse : Prop} {p : Progress σ}

/-! ### Classes -/

theorem descends_typeName {limit : Nat} (allowVoid : Bool) :
    (typeName allowVoid).Descends limit excuse (fun _ q => q.left + 1 ≤ p.left) p := by
  refine .peek fun k hk => ?_
  split
  · have := left_pos hk
    split
    · exact .advance fun q hq => .pure (by omega)
    · exact .unexpected
  · exact .lastIdentifier fun _ _ hq => hq

theorem descends_names (type : String) (kind : Kind) :
    (names type kind).Descends (3 * p.left) excuse (fun _ q => q.left + 1 ≤ p.left) p := by
  refine .step fun span q hq => .identifier fun name q hq => .step fun _ q hq => ?_
  refine .accept (fun q hq => .lastCall 0 rfl (by omega) fun _ q hq => ?_) (.pure ?_)
  · omega
  · omega

theorem descends_declaration (kind : Kind) :
    (declaration kind).Descends (3 * p.left) excuse (fun _ q => q.left + 1 ≤ p.left) p := by
  refine .after (descends_typeName false) fun type q hq => .call 0 rfl (by omega) fun _ q hq => ?_
  exact .lastSymbol fun q hq => by omega

theorem descends_parameters :
    parameters.Descends (3 * p.left) excuse (fun _ q => q.left + 1 ≤ p.left) p := by
  refine .after (descends_typeName false) fun type q hq => .step fun span q hq => ?_
  refine .identifier fun name q hq => .step fun _ q hq => ?_
  refine .accept (fun q hq => .lastCall 0 rfl (by omega) fun _ q hq => ?_) (.pure ?_)
  · omega
  · omega

theorem descends_locals : locals.Descends (3 * p.left) excuse (fun _ q => q.left ≤ p.left) p := by
  refine .test (fun found => ?_) (.pure (Nat.le_refl _))
  have := left_next (beq_iff_eq.1 found)
  refine .advance fun q hq => .call 0 rfl (by omega) fun _ q hq => ?_
  exact .lastCall 0 rfl (by omega) fun _ q hq => by omega

theorem descends_parameterList {limit : Nat} (below : 3 * p.left < limit) :
    parameterList.Descends limit excuse (fun _ q => q.left + 0 ≤ p.left) p :=
  .test (fun _ => .pure (Nat.le_refl _)) (.lastCall 0 rfl below fun _ _ hq => hq)

theorem descends_receiver {limit : Nat} (cls : String) (kind : SubroutineKind) (span : Span) :
    (receiver cls kind span).Descends limit excuse (fun _ q => q.left + 0 ≤ p.left) p := by
  unfold receiver
  split
  · exact .last fun _ _ hq => hq
  · exact .pure (Nat.le_refl _)

theorem descends_subroutine (cls : String) (kind : SubroutineKind) :
    (subroutine cls kind).Descends (3 * p.left) excuse (fun _ q => q.left + 1 ≤ p.left) p := by
  refine .step fun _ q hq => .after (descends_typeName true) fun _ q hq => .step fun span q hq => ?_
  refine .identifier fun name q hq => .after (descends_receiver cls kind span) fun _ q hq => ?_
  refine .symbol fun q hq => .after (descends_parameterList (by omega)) fun _ q hq => ?_
  refine .symbol fun q hq => .symbol fun q hq => .call 0 rfl (by omega) fun _ q hq => ?_
  refine .step fun _ q hq => .step fun _ q hq => .step fun _ q hq => .step fun _ q hq => ?_
  exact .call 0 rfl (by omega) fun _ q hq => .lastSymbol fun q hq => by omega

theorem descends_members (cls : String) :
    (members cls).Descends (3 * p.left) excuse (fun _ q => q.left ≤ p.left) p := by
  refine .peek fun k hk => ?_
  split
  case h_6 => exact .pure (Nat.le_refl _)
  all_goals
    have := left_pos hk
    refine .advance fun q hq => .call 0 rfl (by omega) fun _ q hq => ?_
    exact .lastCall 0 rfl (by omega) fun _ q hq => by omega

theorem descends_classUnit : classUnit.Descends (3 * p.left) excuse (fun _ _ => True) p := by
  refine .keyword fun q hq => .identifier fun cls q hq => .symbol fun q hq => ?_
  refine .call 0 rfl (by omega) fun _ q hq => .symbol fun q hq => ?_
  exact .test (fun _ => .pure trivial) .unexpected

/-! ### Statements -/

theorem descends_letStatement (cls : String) :
    (letStatement cls).Descends (3 * p.left) excuse (fun _ q => q.left + 1 ≤ p.left) p := by
  refine .step fun span q hq => .identifier fun name q hq => .step fun target q hq => ?_
  refine .accept (fun q hq => .step fun _ q hq => .call 1 rfl (by omega) fun _ q hq => ?_) ?_
  · refine .symbol fun q hq => .step fun _ q hq => .symbol fun q hq => ?_
    refine .call 1 rfl (by omega) fun _ q hq => .symbol fun q hq => .last fun _ q hq => ?_
    omega
  · refine .symbol fun q hq => .call 1 rfl (by omega) fun _ q hq => .symbol fun q hq => ?_
    exact .last fun _ q hq => by omega

theorem descends_doStatement (cls : String) :
    (doStatement cls).Descends (3 * p.left) excuse (fun _ q => q.left + 1 ≤ p.left) p := by
  refine .identifier fun name q hq => .call 0 rfl (by omega) fun _ q hq => .symbol fun q hq => ?_
  exact .last fun _ q hq => by omega

theorem descends_returned {limit : Nat} (cls : String) (below : 3 * p.left + 1 < limit) :
    (returned cls).Descends limit excuse (fun _ q => q.left + 0 ≤ p.left) p :=
  .test (fun _ => .last fun _ _ hq => hq) (.lastCall 1 rfl below fun _ _ hq => hq)

theorem descends_returnStatement (cls : String) :
    (returnStatement cls).Descends (3 * p.left + 2) excuse (fun _ q => q.left + 1 ≤ p.left) p := by
  refine .after (descends_returned cls (by omega)) fun _ q hq => .symbol fun q hq => ?_
  exact .last fun _ q hq => by omega

theorem descends_condition (cls label : String) :
    (condition cls label).Descends (3 * p.left) excuse (fun _ q => q.left + 1 ≤ p.left) p := by
  refine .symbol fun q hq => .call 1 rfl (by omega) fun _ q hq => .symbol fun q hq => ?_
  exact .last fun _ q hq => by omega

theorem descends_block (cls : String) :
    (block cls).Descends (3 * p.left) excuse (fun _ q => q.left + 1 ≤ p.left) p := by
  refine .symbol fun q hq => .call 0 rfl (by omega) fun _ q hq => ?_
  exact .lastSymbol fun q hq => by omega

theorem descends_elsePart {limit : Nat} (cls : String) (below : 3 * p.left < limit) :
    (elsePart cls).Descends limit excuse (fun _ q => q.left + 0 ≤ p.left) p := by
  refine .test (fun _ => .advance fun q hq => ?_) (.pure (Nat.le_refl _))
  exact .lastCall 0 rfl (by omega) fun _ q hq => by omega

theorem descends_ifStatement (cls : String) :
    (ifStatement cls).Descends (3 * p.left + 1) excuse (fun _ q => q.left + 1 ≤ p.left) p := by
  refine .step fun otherwise q hq => .step fun done q hq => ?_
  refine .fullCall 0 rfl rfl (by omega) fun _ q hq => .call 0 rfl (by omega) fun _ q hq => ?_
  refine .step fun _ q hq => .after (descends_elsePart cls (by omega)) fun _ q hq => ?_
  exact .last fun _ q hq => by omega

theorem descends_whileStatement (cls : String) :
    (whileStatement cls).Descends (3 * p.left + 1) excuse (fun _ q => q.left + 1 ≤ p.left) p := by
  refine .step fun top q hq => .step fun done q hq => .step fun _ q hq => ?_
  refine .fullCall 0 rfl rfl (by omega) fun _ q hq => .call 0 rfl (by omega) fun _ q hq => ?_
  exact .last fun _ q hq => by omega

theorem descends_statements (cls : String) :
    (statements cls).Descends (3 * p.left) excuse (fun _ q => q.left ≤ p.left) p := by
  -- No statement ranks above 2, so its first word is enough.
  have single {r : Routine Unit} (some : 1 ≤ p.left) :
      (do own .advance; perform r; perform (.statements cls) : Plan Unit).Descends (3 * p.left)
        excuse (fun _ q => q.left ≤ p.left) p := by
    have := r.construct.rank_le
    refine .advance fun q hq => .call _ rfl (by omega) fun _ q hq => ?_
    exact .lastCall 0 rfl (by omega) fun _ q hq => by omega
  refine .peek fun k hk => ?_
  split
  · exact single (left_pos hk)
  · exact single (left_pos hk)
  · exact single (left_pos hk)
  · exact single (left_pos hk)
  · exact single (left_pos hk)
  · exact .pure (Nat.le_refl _)

/-! ### Expressions -/

theorem descends_expression (cls : String) :
    (expression cls).Descends (3 * p.left + 1) excuse (fun _ q => q.left + 1 ≤ p.left) p := by
  refine .fullCall 0 rfl rfl (by omega) fun _ q hq => ?_
  exact .lastCall 0 rfl (by omega) fun _ q hq => by omega

theorem descends_operators (cls : String) :
    (operators cls).Descends (3 * p.left) excuse (fun _ q => q.left ≤ p.left) p := by
  refine .peek fun k hk => ?_
  split
  · have := left_pos hk
    split
    · refine .advance fun q hq => .call 0 rfl (by omega) fun _ q hq => .step fun _ q hq => ?_
      exact .lastCall 0 rfl (by omega) fun _ q hq => by omega
    · exact .pure (Nat.le_refl _)
  · exact .pure (Nat.le_refl _)

theorem descends_stringConstant {limit : Nat} (s : String) (span : Span)
    (refused : isEncodable s = false → excuse) :
    (stringConstant s span).Descends limit excuse (fun _ q => q.left ≤ p.left) p := by
  unfold stringConstant
  split
  · exact .last fun _ _ hq => hq
  · next h => exact .fail ⟨rfl, fun _ => refused (Bool.not_eq_true _ ▸ h)⟩

theorem descends_afterName {limit : Nat} (cls name : String) (span : Span)
    (below : 3 * p.left + 1 < limit) :
    (afterName cls name span).Descends limit excuse (fun _ q => q.left ≤ p.left) p := by
  refine .peek fun k hk => ?_
  split
  · exact .lastCall 0 rfl (by omega) fun _ q hq => hq
  · exact .lastCall 0 rfl (by omega) fun _ q hq => hq
  · refine .step fun base q hq => .advance fun q hq => .step fun _ q hq => ?_
    refine .call 1 rfl (by omega) fun _ q hq => .symbol fun q hq => .last fun _ q hq => ?_
    omega
  · exact .step fun v q hq => .last fun _ q hq => by omega

theorem descends_term (cls : String) :
    (term cls).Descends (3 * p.left) p.Oversized (fun _ q => q.left + 1 ≤ p.left) p := by
  refine .here fun span => .peek fun k hk => ?_
  split
  case h_11 => exact .unexpected
  all_goals have := left_pos hk
  · exact .advance fun q hq => .last fun _ q hq => by omega
  · have refused := Progress.oversized_of_current hk
    refine .advance fun q hq => (descends_stringConstant _ span refused).mono fun _ q hq => ?_
    omega
  · exact .step fun _ q hq => .lastAdvance fun q hq => by omega
  · exact .step fun _ q hq => .lastAdvance fun q hq => by omega
  · exact .step fun _ q hq => .lastAdvance fun q hq => by omega
  · exact .step fun _ q hq => .lastAdvance fun q hq => by omega
  · refine .advance fun q hq => (descends_afterName cls _ span (by omega)).mono fun _ q hq => ?_
    omega
  · refine .advance fun q hq => .call 1 rfl (by omega) fun _ q hq => .lastSymbol fun q hq => ?_
    omega
  · refine .advance fun q hq => .call 0 rfl (by omega) fun _ q hq => .last fun _ q hq => ?_
    omega
  · refine .advance fun q hq => .call 0 rfl (by omega) fun _ q hq => .last fun _ q hq => ?_
    omega

theorem descends_callee {limit : Nat} (cls name : String) :
    (callee cls name).Descends limit excuse (fun _ q => q.left + 0 ≤ p.left) p := by
  refine .accept (fun q hq => .identifier fun sub q hq => .step fun found q hq => ?_)
    (.step fun _ q hq => .pure hq)
  cases found with
  | none => exact .pure (by omega)
  | some v => exact .step fun _ q hq => .pure (by omega)

theorem descends_argumentList {limit : Nat} (cls : String) (below : 3 * p.left + 2 < limit) :
    (argumentList cls).Descends limit excuse (fun _ q => q.left + 0 ≤ p.left) p :=
  .test (fun _ => .pure (Nat.le_refl _)) (.lastCall 2 rfl below fun _ _ hq => hq)

theorem descends_call (cls name : String) :
    (call cls name).Descends (3 * p.left) excuse (fun _ q => q.left + 1 ≤ p.left) p := by
  refine .step fun span q hq => .after (descends_callee cls name) fun called q hq => ?_
  obtain ⟨target, unseen⟩ := called
  refine .symbol fun q hq => .after (descends_argumentList cls (by omega)) fun seen q hq => ?_
  refine .symbol fun q hq => ?_
  split
  · exact .last fun _ q hq => by omega
  · exact .fail (.of_other rfl rfl)

theorem descends_arguments (cls : String) (before : Nat) :
    (arguments cls before).Descends (3 * p.left + 2) excuse (fun _ q => q.left + 1 ≤ p.left) p := by
  refine .step fun span q hq => .fullCall 1 rfl rfl (by omega) fun _ q hq => ?_
  split
  · refine .accept (fun q hq => .lastCall 2 rfl (by omega) fun _ q hq => ?_) (.pure ?_)
    · omega
    · omega
  · exact .fail (.of_other rfl rfl)

end Plan

/-- Every call in the plan of a function measures less than the call of the function itself, the
function refuses a string only if it is there, and what it consumes is enough for its construct. -/
theorem Routine.descends [Sink σ] (r : Routine α) (p : Progress σ) :
    r.plan.Descends (r.construct.measure p) p.Oversized
      (fun _ q => q.left + r.construct.least ≤ p.left) p := by
  cases r with
  | members cls => exact Plan.descends_members cls
  | declaration kind => exact Plan.descends_declaration kind
  | names type kind => exact Plan.descends_names type kind
  | subroutine cls kind => exact Plan.descends_subroutine cls kind
  | parameters => exact Plan.descends_parameters
  | locals => exact Plan.descends_locals
  | statements cls => exact Plan.descends_statements cls
  | letStatement cls => exact Plan.descends_letStatement cls
  | ifStatement cls => exact Plan.descends_ifStatement cls
  | whileStatement cls => exact Plan.descends_whileStatement cls
  | doStatement cls => exact Plan.descends_doStatement cls
  | returnStatement cls => exact Plan.descends_returnStatement cls
  | condition cls label => exact Plan.descends_condition cls label
  | block cls => exact Plan.descends_block cls
  | expression cls => exact Plan.descends_expression cls
  | operators cls => exact Plan.descends_operators cls
  | term cls => exact Plan.descends_term cls
  | call cls name => exact Plan.descends_call cls name
  | arguments cls before => exact Plan.descends_arguments cls before

/-! ## How a call ends -/

/-- What holds of a call if it holds of all calls that measure less, holds of every call. -/
theorem Routine.measure_induction {P : {α : Type} → Routine α → Progress σ → Prop}
    (step : ∀ {α : Type} (r : Routine α) (p : Progress σ),
      (∀ {β : Type} (r' : Routine β) (p' : Progress σ),
        r'.construct.measure p' < r.construct.measure p → P r' p') → P r p)
    {α : Type} (r : Routine α) (p : Progress σ) : P r p :=
  step r p fun r' p' _ => measure_induction step r' p'
termination_by r.construct.measure p

namespace Pass

/-- A pass from `p` on that ends with `result` has not gone back. If it succeeds, then `post` holds,
and there is an excuse if it refuses a string. -/
structure Ends (excuse : Prop) (post : α → Progress σ → Prop) (p : Progress σ)
    (result : EStateM.Result CompileError (Progress σ) α) : Prop where
  onward : (final result).cursor.rest <:+ p.cursor.rest
  ok : ∀ a q, result = .ok a q → post a q
  error : ∀ e q, result = .error e q → e.isStringLimit = true → excuse

variable {excuse excuse' : Prop} {p : Progress σ} {post : β → Progress σ → Prop}

theorem ends_error {e : CompileError} {q : Progress σ} (onward : q.cursor.rest <:+ p.cursor.rest)
    (strings : e.isStringLimit = true → excuse) : Ends excuse post p (.error e q) where
  onward := onward
  ok a r h := by cases h
  error e' r h := by
    cases h
    exact strings

theorem Ends.bind {x : Pass σ α} {f : α → Pass σ β} {mid : α → Progress σ → Prop}
    (first : Ends excuse' mid p (x p)) (weaker : excuse' → excuse)
    (next : ∀ a q, q.cursor.rest <:+ p.cursor.rest → mid a q → Ends excuse post q (f a q)) :
    Ends excuse post p ((x >>= f) p) := by
  have onward := first.onward
  cases h : x p with
  | error e q =>
    rw [h] at onward
    rw [bind_of_error h]
    exact ends_error onward fun refused => weaker (first.error e q h refused)
  | ok a q =>
    rw [h] at onward
    rw [bind_of_ok h]
    have rest := next a q onward (first.ok a q h)
    exact ⟨rest.onward.trans onward, rest.ok, rest.error⟩

end Pass

open Pass

theorem Primitive.ends [Sink σ] (x : Primitive α) (p : Progress σ) :
    Ends False (fun a q => x.run p = .ok a q) p (x.run p) where
  onward := x.basic.onward p
  ok _ _ h := h
  error e q failed := (x.basic.excused p e q failed).strings

/-- If all calls below a limit end as they should, then so does a plan that goes down from that
limit. -/
theorem Plan.ends [Sink σ] {n limit : Nat} {excuse : Prop} {post : α → Progress σ → Prop}
    {x : Plan α} {p : Progress σ}
    (calls : ∀ {β : Type} (r : Routine β) (q : Progress σ), r.construct.measure q < limit →
      Ends q.Oversized (fun _ s => s.left + r.construct.least ≤ q.left) q (r.run n q))
    (excused : p.Oversized → excuse) (descends : x.Descends limit excuse post p) :
    Ends excuse post p (x.run n p) := by
  induction x generalizing p with
  | done a =>
    refine ⟨List.suffix_rfl, fun b q h => ?_, fun e q h => ?_⟩
    · cases h
      exact descends
    · cases h
  | fail e => exact ends_error List.suffix_rfl descends.strings
  | step y more ih =>
    refine (y.ends p).bind False.elim fun b q onward run => ?_
    exact ih b (fun h => excused (h.mono onward)) (descends b q run)
  | enter r more ih =>
    refine (calls r p descends.1).bind excused fun b q onward left => ?_
    exact ih b (fun h => excused (h.mono onward)) (descends.2 b q left)

/-- With any allowance, a call goes on from where it starts. If it succeeds, then it has consumed
what its construct has at least. If it refuses a string, then such a string was there. -/
theorem Routine.ends [Sink σ] (r : Routine α) (p : Progress σ) : ∀ n,
    Ends p.Oversized (fun _ q => q.left + r.construct.least ≤ p.left) p (r.run n p) := by
  refine measure_induction (P := fun r p => ∀ n, Ends p.Oversized
    (fun _ q => q.left + r.construct.least ≤ p.left) p (r.run n p)) (fun r p inner n => ?_) r p
  obtain ⟨-, spent⟩ | ⟨m, -, -, runs⟩ := @Routine.run_eq σ _ _ r n
  · rw [spent]
    exact ends_error List.suffix_rfl fun h => Bool.noConfusion h
  · rw [runs]
    exact Plan.ends (fun r' q less => inner r' q less m) id (r.descends p)

/-! ## Allowances -/

namespace Pass

/-- Two passes do the same from `p` on and do not use up their allowances. -/
structure Settled (x y : Pass σ α) (p : Progress σ) : Prop where
  same : x p = y p
  spare : ∀ e q, x p = .error e q → e.isExhaustion = false

theorem Settled.bind {x y : Pass σ α} {f g : α → Pass σ β} {p : Progress σ}
    (first : Settled x y p) (next : ∀ a q, x p = .ok a q → Settled (f a) (g a) q) :
    Settled (x >>= f) (y >>= g) p := by
  cases h : x p with
  | error e q =>
    have h' : y p = .error e q := first.same.symm.trans h
    refine ⟨?_, ?_⟩
    · rw [bind_of_error h, bind_of_error h']
    · rw [bind_of_error h]
      intro e' r failed
      cases failed
      exact first.spare e q h
  | ok a q =>
    have h' : y p = .ok a q := first.same.symm.trans h
    have rest := next a q h
    refine ⟨?_, ?_⟩
    · rw [bind_of_ok h, bind_of_ok h', rest.same]
    · rw [bind_of_ok h]
      exact rest.spare

end Pass

theorem Plan.settled [Sink σ] {m n limit : Nat} {excuse : Prop} {post : α → Progress σ → Prop}
    {x : Plan α} {p : Progress σ}
    (calls : ∀ {β : Type} (r : Routine β) (q : Progress σ), r.construct.measure q < limit →
      Pass.Settled (r.run m) (r.run n) q)
    (descends : x.Descends limit excuse post p) : Pass.Settled (x.run m) (x.run n) p := by
  induction x generalizing p with
  | done a => exact ⟨rfl, fun e q h => by cases h⟩
  | fail e =>
    refine ⟨rfl, fun e' q h => ?_⟩
    cases h
    exact descends.spare
  | step y more ih =>
    refine Settled.bind ⟨rfl, fun e q failed => ?_⟩ fun b q run => ih b (descends b q run)
    exact (y.basic.excused p e q failed).spare
  | enter r more ih =>
    refine (calls r p descends.1).bind fun b q run => ih b (descends.2 b q ?_)
    exact (r.ends p m).ok b q run

/-- What a call does is the same for all allowances above its measure, and none of them is used
up. -/
theorem Routine.settled [Sink σ] (r : Routine α) (p : Progress σ) :
    ∀ m n, r.construct.measure p < m → r.construct.measure p < n →
      Pass.Settled (r.run m) (r.run n) p := by
  refine measure_induction (P := fun r p => ∀ m n, r.construct.measure p < m →
    r.construct.measure p < n → Pass.Settled (r.run m) (r.run n) p) (fun r p inner m n hm hn => ?_)
    r p
  obtain ⟨spent, -⟩ | ⟨m', -, above, runs⟩ := @Routine.run_eq σ _ _ r m
  · omega
  obtain ⟨spent, -⟩ | ⟨n', -, above', runs'⟩ := @Routine.run_eq σ _ _ r n
  · omega
  rw [runs, runs']
  exact Plan.settled (fun r' q less => inner r' q less m' n' (by omega) (by omega)) (r.descends p)

/-! ## Whole passes -/

namespace Pass

variable [Sink σ]

theorem ends_classUnit (n : Nat) (p : Progress σ) :
    Ends p.Oversized (fun _ _ => True) p (classUnit n p) := by
  rw [← Plan.run_classUnit]
  exact Plan.ends (fun r q _ => r.ends q n) id Plan.descends_classUnit

/-- Three times the number of tokens is enough for a whole pass. -/
theorem settled_classUnit {m n : Nat} {p : Progress σ} (hm : 3 * p.left ≤ m) (hn : 3 * p.left ≤ n) :
    Settled (classUnit m) (classUnit n) p := by
  have descends : Plan.classUnit.Descends (3 * p.left) True (fun _ _ => True) p :=
    Plan.descends_classUnit
  rw [← Plan.run_classUnit, ← Plan.run_classUnit]
  exact Plan.settled (fun r q less => r.settled q m n (by omega) (by omega)) descends

end Pass

end Jack
