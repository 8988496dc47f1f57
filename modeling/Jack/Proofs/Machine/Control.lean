import Jack.Proofs.Machine.Fragment

/-!
# Control flow

The meaning of code that is put together from parts: plain code, code that returns, one part after
the other, branches and loops. Jumps stay inside the code, because each label is defined once.
-/

namespace Jack.Machine

open Syntax

variable {calls : Calls} {cls : String} {program code code' : List Instruction}
  {lo hi n pos : Nat} {m : Core} {y : State}

/-! ## Plain code -/

theorem PlainCode.closed (plain : PlainCode code) : Closed code := by
  rintro l (jump | jump) <;> exact (plain _ jump).elim

theorem PlainCode.nodup (plain : PlainCode code) : (labelsOf code).Nodup := by
  rw [labelsOf_plain plain]
  exact List.nodup_nil

/-- Plain code that leaves nothing on the stack. -/
theorem means_plain {R : Store → Store → Prop} (plain : PlainCode code)
    (turns : Turns calls cls code [] fun s ys s' => ys = [] ∧ R s s') :
    Means calls cls code fun s o => ∃ s', R s s' ∧ o = .next s' where
  nodup := PlainCode.nodup plain
  closed := PlainCode.closed plain
  sound := by
    intro program pos n m y placed stack run stopped
    obtain ⟨m', k, -, exec, run⟩ := run.exec plain placed.fetch stopped (Nat.le_refl _)
    obtain ⟨ys, stack', rfl, hR⟩ := turns.sound stack exec
    rw [run.at_end]
    exact ⟨.next m'.store, ⟨_, hR, rfl⟩, rfl, stack', rfl⟩
  complete := by
    rintro program pos m _ placed stack ⟨s', hR, rfl⟩
    obtain ⟨m', exec, stack', rfl⟩ := turns.complete stack ⟨rfl, hR⟩
    obtain ⟨n, run⟩ := exec.run plain placed.fetch (Nat.le_refl pos) (Nat.le_refl _)
    exact ⟨n, _, run, rfl, stack', rfl⟩

/-- A return is not left. -/
theorem Run.at_return (run : Run calls cls program lo hi n ⟨pos, m⟩ y)
    (returns : program[pos]? = some .return) : y = ⟨pos, m⟩ := by
  cases run with
  | refl => rfl
  | step _ _ step =>
    cases step with
    | perform fetch performs =>
      rw [returns] at fetch
      cases fetch
      exact performs.elim
    | label fetch | goto fetch | jump fetch | stay fetch =>
      rw [returns] at fetch
      cases fetch

/-- A word is computed and returned. -/
theorem means_return {R : Store → Word → Store → Prop} (plain : PlainCode code)
    (computes : Computes calls cls code R) :
    Means calls cls (code ++ [.return]) fun s o => ∃ w s', R s w s' ∧ o = .returned w s' := by
  have nodup : (labelsOf (code ++ [.return])).Nodup := by
    rw [labelsOf_append, labelsOf_plain plain]
    exact List.nodup_nil
  refine ⟨nodup, ?_, ?_, ?_⟩
  · rintro l (jump | jump)
    · simpa using PlainCode.closed plain l (.inl (by simpa using jump))
    · simpa using PlainCode.closed plain l (.inr (by simpa using jump))
  · intro program pos n m y placed stack run stopped
    have returns := (placed.right nodup).head
    obtain ⟨m', k, -, exec, run⟩ := run.exec plain (placed.left nodup).fetch stopped (by simp)
    obtain ⟨_, stack', w, rfl, hR⟩ := (computes []).sound stack exec
    rw [run.at_return returns]
    exact ⟨.returned w m'.store, ⟨w, _, hR, rfl⟩, ⟨by simp, by simp, returns⟩, stack', rfl⟩
  · rintro program pos m _ placed stack ⟨w, s', hR, rfl⟩
    have returns := (placed.right nodup).head
    obtain ⟨m', exec, stack', rfl⟩ := (computes []).complete stack ⟨w, rfl, hR⟩
    obtain ⟨n, run⟩ := exec.run plain (placed.left nodup).fetch (Nat.le_refl pos) (Nat.le_refl _)
    exact ⟨n, ⟨pos + code.length, m'⟩, run.mono (Nat.le_refl pos) (by simp),
      ⟨by simp, by simp, returns⟩, stack', rfl⟩

/-! ## One after the other -/

theorem Means.append {R R' : Store → Ending → Prop} (first : Means calls cls code R)
    (rest : Means calls cls code' R') (nodup : (labelsOf (code ++ code')).Nodup) :
    Means calls cls (code ++ code') (Sequence R R') where
  nodup := nodup
  closed := by
    intro l jump
    simp only [List.mem_append] at jump ⊢
    have := first.closed l
    have := rest.closed l
    tauto
  sound := by
    intro program pos n m y placed stack run stopped
    rw [List.length_append, ← Nat.add_assoc] at run stopped ⊢
    obtain ⟨w, s, hR, ends⟩ | ⟨m₁, k, hR, stack₁, -, run⟩ :=
      first.first (placed.left nodup) (Nat.le_refl pos) (Nat.le_add_right _ _) stack run stopped
    · exact ⟨_, .returned hR, ends⟩
    obtain ⟨w, s, hR', ends⟩ | ⟨m₂, k, hR', stack₂, -, run⟩ :=
      rest.first (placed.right nodup) (Nat.le_add_right _ _) (Nat.le_refl _) stack₁ run stopped
    · exact ⟨_, .next hR hR', ends⟩
    · rw [run.at_end]
      exact ⟨_, .next hR hR', rfl, stack₂, rfl⟩
  complete := by
    intro program pos m o placed stack h
    rw [List.length_append, ← Nat.add_assoc]
    cases h with
    | returned hR =>
      exact first.leaves (placed.left nodup) (Nat.le_refl pos) (Nat.le_add_right _ _) stack hR
    | next hR hR' =>
      obtain ⟨n, m₁, stack₁, rfl, run⟩ :=
        first.pass (placed.left nodup) (Nat.le_refl pos) (Nat.le_add_right _ _) stack hR
      obtain ⟨k, y, run', ends⟩ := rest.complete (placed.right nodup) stack₁ hR'
      have run' := run'.mono (Nat.le_add_right pos code.length) (Nat.le_refl _)
      refine ⟨n + k, y, run.trans run', ?_⟩
      cases o with
      | next s => exact ends
      | returned w s => exact ends.mono (Nat.le_add_right _ _) (Nat.le_refl _)

/-! ## Conditions -/

theorem not_eq_zero {w : Word} : ~~~w = 0 ↔ w = 0xFFFF := by
  constructor
  · intro h
    have := congrArg (~~~·) h
    simpa using this
  · rintro rfl
    rfl

theorem Placed.cut (placed : Placed program pos (code ++ code'))
    (nodup : (labelsOf (code ++ code')).Nodup) :
    Placed program pos code ∧ Placed program (pos + code.length) code' ∧
      (labelsOf code').Nodup := by
  refine ⟨placed.left nodup, placed.right nodup, ?_⟩
  rw [labelsOf_append] at nodup
  exact (List.nodup_append.1 nodup).2.1

section Condition

variable {test : List Instruction} {T : Store → Word → Store → Prop} {l : String} {target : Nat}

/-- The negation of a condition, which is what the jump looks at. -/
theorem turns_negation (computes : Computes calls cls test T) :
    Computes calls cls (test ++ [.arithmetic .not]) fun s x s' => ∃ w, T s w s' ∧ x = ~~~w := by
  intro xs
  have not (w : Word) : Turns calls cls [.arithmetic .not] (w :: xs) fun s ys s' =>
      ys = ~~~w :: xs ∧ s' = s := turns_arithmetic fun _ => rfl
  refine ((computes xs).andThen fun {_ w _} _ => not w).congr fun s ys s' => ?_
  grind

theorem plain_negation (plain : PlainCode test) : PlainCode (test ++ [.arithmetic .not]) :=
  plainCode_append.2 ⟨plain, plainCode_cons.2 ⟨trivial, plainCode_nil⟩⟩

theorem condition_sound (plain : PlainCode test) (computes : Computes calls cls test T)
    (placed : CodeAt program pos (test ++ [.arithmetic .not]))
    (jump : program[pos + test.length + 1]? = some (.ifGoto l))
    (there : Placed program target [.label l]) (below : pos + test.length + 2 ≤ hi)
    (stack : m.stack = []) (run : Run calls cls program lo hi n ⟨pos, m⟩ y)
    (stopped : Over program lo hi y) :
    ∃ w m' k, T m.store w m'.store ∧ m'.stack = [] ∧ k < n ∧
      Run calls cls program lo hi k
        ⟨if w = 0xFFFF then pos + test.length + 2 else target, m'⟩ y := by
  have length : pos + (test ++ [Instruction.arithmetic .not]).length = pos + test.length + 1 := by
    simp [Nat.add_assoc]
  obtain ⟨m₁, k, hk, exec, run⟩ := run.exec (plain_negation plain) placed stopped (by omega)
  obtain ⟨_, stack₁, x, rfl, w, hw, rfl⟩ := (turns_negation computes []).sound stack exec
  rw [length] at run
  obtain ⟨k', z, hk', step, run⟩ := run.next stopped (by omega) jump (by simp)
  rw [step_ifGoto jump there stack₁] at step
  simp only [not_eq_zero] at step
  rw [step] at run
  exact ⟨w, { m₁ with stack := [] }, k', hw, rfl, by omega, run⟩

theorem condition_complete (plain : PlainCode test) (computes : Computes calls cls test T)
    (placed : CodeAt program pos (test ++ [.arithmetic .not]))
    (jump : program[pos + test.length + 1]? = some (.ifGoto l))
    (there : Placed program target [.label l]) (above : lo ≤ pos)
    (below : pos + test.length + 2 ≤ hi) (stack : m.stack = []) {w : Word} {s : Store}
    (hw : T m.store w s) :
    ∃ n m', m'.stack = [] ∧ m'.store = s ∧ Run calls cls program lo hi n ⟨pos, m⟩
      ⟨if w = 0xFFFF then pos + test.length + 2 else target, m'⟩ := by
  have length : pos + (test ++ [Instruction.arithmetic .not]).length = pos + test.length + 1 := by
    simp [Nat.add_assoc]
  obtain ⟨m₁, exec, stack₁, rfl⟩ :=
    (turns_negation computes []).complete stack ⟨~~~w, rfl, w, hw, rfl⟩
  obtain ⟨n, run⟩ := exec.run (plain_negation plain) placed above
    (show pos + (test ++ [Instruction.arithmetic .not]).length ≤ hi by omega)
  rw [length] at run
  have step : Step calls cls program ⟨pos + test.length + 1, m₁⟩ ⟨if ~~~w = 0 then
      pos + test.length + 2 else target, { m₁ with stack := [] }⟩ :=
    (step_ifGoto jump there stack₁).2 rfl
  simp only [not_eq_zero] at step
  exact ⟨n + 1, { m₁ with stack := [] }, rfl, rfl,
    run.trans (.step (by simp only; omega) (by simp only; omega) step (.refl _))⟩

end Condition

/-! ## Branches -/

/-- The code of a branch. If the condition does not hold, it jumps to `l₁`. -/
def branchCode (test yes no : List Instruction) (l₁ l₂ : String) : List Instruction :=
  test ++ [.arithmetic .not, .ifGoto l₁] ++ yes ++ [.goto l₂, .label l₁] ++ no ++ [.label l₂]

/-- Where the parts of a branch stand, `yes` at `a`, the jump after it at `b` and the last label
at `d`. -/
structure BranchAt (program test yes no : List Instruction) (l₁ l₂ : String) (pos a b d : Nat) :
    Prop where
  a_eq : a = pos + test.length + 2
  b_eq : b = a + yes.length
  d_eq : d = b + 2 + no.length
  condition : CodeAt program pos (test ++ [.arithmetic .not])
  jump : program[pos + test.length + 1]? = some (.ifGoto l₁)
  yes : Placed program a yes
  skip : program[b]? = some (.goto l₂)
  other : Placed program (b + 1) [.label l₁]
  no : Placed program (b + 2) no
  last : Placed program d [.label l₂]

section Branch

variable {test yes no : List Instruction} {l₁ l₂ : String}

theorem length_branchCode : (branchCode test yes no l₁ l₂).length =
    test.length + 2 + yes.length + 2 + no.length + 1 := by
  simp [branchCode]
  omega

theorem Placed.branch (placed : Placed program pos (branchCode test yes no l₁ l₂))
    (nodup : (labelsOf (branchCode test yes no l₁ l₂)).Nodup) :
    ∃ a b d, BranchAt program test yes no l₁ l₂ pos a b d := by
  have parts : branchCode test yes no l₁ l₂ = (test ++ [.arithmetic .not]) ++ ([.ifGoto l₁] ++
      (yes ++ ([.goto l₂] ++ ([.label l₁] ++ (no ++ [.label l₂]))))) := by
    simp [branchCode]
  rw [parts] at placed nodup
  obtain ⟨condition, placed, nodup⟩ := placed.cut nodup
  obtain ⟨jump, placed, nodup⟩ := placed.cut nodup
  obtain ⟨yes', placed, nodup⟩ := placed.cut nodup
  obtain ⟨skip, placed, nodup⟩ := placed.cut nodup
  obtain ⟨other, placed, nodup⟩ := placed.cut nodup
  obtain ⟨no', last, -⟩ := placed.cut nodup
  simp only [List.length_append, List.length_singleton, ← Nat.add_assoc]
    at jump yes' skip other no' last
  exact ⟨_, _, _, rfl, rfl, rfl, condition.fetch, jump.head, yes', skip.head, other, no', last⟩

theorem Means.branch {T : Store → Word → Store → Prop} {Y N : Store → Ending → Prop}
    (plain : PlainCode test) (computes : Computes calls cls test T)
    (hyes : Means calls cls yes Y) (hno : Means calls cls no N)
    (nodup : (labelsOf (branchCode test yes no l₁ l₂)).Nodup) :
    Means calls cls (branchCode test yes no l₁ l₂) (Branch T Y N) where
  nodup := nodup
  closed := by
    intro l jump
    have := hyes.closed l
    have := hno.closed l
    have := PlainCode.closed plain l
    simp only [branchCode, List.mem_append, List.mem_cons, List.not_mem_nil] at jump ⊢
    grind
  sound := by
    intro program pos n m y placed stack run stopped
    obtain ⟨a, b, d, parts⟩ := placed.branch nodup
    obtain ⟨ha, hb, hd, condition, jump, yes', skip, other, no', last⟩ := parts
    have hhi : pos + (branchCode test yes no l₁ l₂).length = d + 1 := by
      rw [length_branchCode]
      omega
    rw [hhi] at run stopped ⊢
    -- The last label is all that follows either of the two parts.
    have finish {k : Nat} {m' : Core} (run : Run calls cls program pos (d + 1) k ⟨d, m'⟩ y)
        (stack' : m'.stack = []) : Ends program pos (d + 1) y (.next m'.store) := by
      obtain ⟨k, z, -, step, run⟩ := run.next stopped (Nat.lt_succ_self d) last.head (by simp)
      rw [(step_label last.head).1 step] at run
      rw [run.at_end]
      exact ⟨rfl, stack', rfl⟩
    obtain ⟨w, m₁, k₁, hw, stack₁, -, run⟩ :=
      condition_sound plain computes condition jump other (by omega) stack run stopped
    split at run
    · next holds =>
      rw [holds] at hw
      rw [← ha] at run
      obtain ⟨x, s, hY, ends⟩ | ⟨m₂, k₂, hY, stack₂, -, run⟩ :=
        hyes.first yes' (by omega) (by omega) stack₁ run stopped
      · exact ⟨_, .yes hw hY, ends⟩
      rw [← hb] at run
      obtain ⟨k, z, -, step, run⟩ := run.next stopped (by omega) skip (by simp)
      rw [(step_goto skip last).1 step] at run
      exact ⟨_, .yes hw hY, finish run stack₂⟩
    · next fails =>
      obtain ⟨k, z, -, step, run⟩ := run.next stopped (by omega) other.head (by simp)
      rw [(step_label other.head).1 step] at run
      obtain ⟨x, s, hN, ends⟩ | ⟨m₂, k₂, hN, stack₂, -, run⟩ :=
        hno.first no' (by omega) (by omega) stack₁ run stopped
      · exact ⟨_, .no hw fails hN, ends⟩
      rw [← hd] at run
      exact ⟨_, .no hw fails hN, finish run stack₂⟩
  complete := by
    intro program pos m o placed stack h
    obtain ⟨a, b, d, parts⟩ := placed.branch nodup
    obtain ⟨ha, hb, hd, condition, jump, yes', skip, other, no', last⟩ := parts
    have hhi : pos + (branchCode test yes no l₁ l₂).length = d + 1 := by
      rw [length_branchCode]
      omega
    rw [hhi]
    have finish (m' : Core) :
        Run calls cls program pos (d + 1) 1 ⟨d, m'⟩ ⟨d + 1, m'⟩ :=
      .step (by simp only; omega) (Nat.lt_succ_self d) (.label last.head) (.refl _)
    cases h with
    | yes hw hY =>
      obtain ⟨n₁, m₁, stack₁, rfl, run₁⟩ := condition_complete plain computes condition jump other
        (Nat.le_refl pos) (show pos + test.length + 2 ≤ d + 1 by omega) stack hw
      rw [if_pos rfl, ← ha] at run₁
      cases o with
      | returned x s =>
        obtain ⟨n₂, y, run₂, ends⟩ := hyes.leaves yes' (show pos ≤ a by omega)
          (show a + yes.length ≤ d + 1 by omega) stack₁ hY
        exact ⟨_, y, run₁.trans run₂, ends⟩
      | next s =>
        obtain ⟨n₂, m₂, stack₂, rfl, run₂⟩ := hyes.pass yes' (show pos ≤ a by omega)
          (show a + yes.length ≤ d + 1 by omega) stack₁ hY
        rw [← hb] at run₂
        have step : Run calls cls program pos (d + 1) 1 ⟨b, m₂⟩ ⟨d, m₂⟩ :=
          .step (by simp only; omega) (by simp only; omega) (.goto skip last.head) (.refl _)
        exact ⟨_, _, ((run₁.trans run₂).trans step).trans (finish m₂), rfl, stack₂, rfl⟩
    | no hw fails hN =>
      obtain ⟨n₁, m₁, stack₁, rfl, run₁⟩ := condition_complete plain computes condition jump other
        (Nat.le_refl pos) (show pos + test.length + 2 ≤ d + 1 by omega) stack hw
      rw [if_neg fails] at run₁
      have step : Run calls cls program pos (d + 1) 1 ⟨b + 1, m₁⟩ ⟨b + 2, m₁⟩ :=
        .step (by simp only; omega) (by simp only; omega) (.label other.head) (.refl _)
      have run₁ := run₁.trans step
      cases o with
      | returned x s =>
        obtain ⟨n₂, y, run₂, ends⟩ := hno.leaves no' (show pos ≤ b + 2 by omega)
          (show b + 2 + no.length ≤ d + 1 by omega) stack₁ hN
        exact ⟨_, y, run₁.trans run₂, ends⟩
      | next s =>
        obtain ⟨n₂, m₂, stack₂, rfl, run₂⟩ := hno.pass no' (show pos ≤ b + 2 by omega)
          (show b + 2 + no.length ≤ d + 1 by omega) stack₁ hN
        rw [← hd] at run₂
        exact ⟨_, _, (run₁.trans run₂).trans (finish m₂), rfl, stack₂, rfl⟩

end Branch

/-! ## Loops -/

/-- The code of a loop. It comes back to `l₁`, and goes on at `l₂` when the condition does not
hold. -/
def loopCode (test body : List Instruction) (l₁ l₂ : String) : List Instruction :=
  [.label l₁] ++ (test ++ [.arithmetic .not, .ifGoto l₂]) ++ body ++ [.goto l₁, .label l₂]

/-- Where the parts of a loop stand, the body at `a` and the jump back at `b`. -/
structure LoopAt (program test body : List Instruction) (l₁ l₂ : String) (pos a b : Nat) :
    Prop where
  a_eq : a = pos + 1 + test.length + 2
  b_eq : b = a + body.length
  top : Placed program pos [.label l₁]
  condition : CodeAt program (pos + 1) (test ++ [.arithmetic .not])
  jump : program[pos + 1 + test.length + 1]? = some (.ifGoto l₂)
  body : Placed program a body
  back : program[b]? = some (.goto l₁)
  last : Placed program (b + 1) [.label l₂]

section Loop

variable {test body : List Instruction} {l₁ l₂ : String}

theorem length_loopCode : (loopCode test body l₁ l₂).length =
    1 + test.length + 2 + body.length + 2 := by
  simp [loopCode]
  omega

theorem Placed.loop (placed : Placed program pos (loopCode test body l₁ l₂))
    (nodup : (labelsOf (loopCode test body l₁ l₂)).Nodup) :
    ∃ a b, LoopAt program test body l₁ l₂ pos a b := by
  have parts : loopCode test body l₁ l₂ = [.label l₁] ++ ((test ++ [.arithmetic .not]) ++
      ([.ifGoto l₂] ++ (body ++ ([.goto l₁] ++ [.label l₂])))) := by
    simp [loopCode]
  rw [parts] at placed nodup
  obtain ⟨top, placed, nodup⟩ := placed.cut nodup
  obtain ⟨condition, placed, nodup⟩ := placed.cut nodup
  obtain ⟨jump, placed, nodup⟩ := placed.cut nodup
  obtain ⟨body', placed, nodup⟩ := placed.cut nodup
  obtain ⟨back, last, -⟩ := placed.cut nodup
  simp only [List.length_append, List.length_singleton, ← Nat.add_assoc]
    at condition jump body' back last
  exact ⟨_, _, rfl, rfl, top, condition.fetch, jump.head, body', back.head, last⟩

theorem Means.loop {T : Store → Word → Store → Prop} {B : Store → Ending → Prop}
    (plain : PlainCode test) (computes : Computes calls cls test T)
    (hbody : Means calls cls body B)
    (nodup : (labelsOf (loopCode test body l₁ l₂)).Nodup) :
    Means calls cls (loopCode test body l₁ l₂) (Loop T B) where
  nodup := nodup
  closed := by
    intro l jump
    have := hbody.closed l
    have := PlainCode.closed plain l
    simp only [loopCode, List.mem_append, List.mem_cons, List.not_mem_nil] at jump ⊢
    grind
  sound := by
    intro program pos n m y placed stack run stopped
    obtain ⟨a, b, ha, hb, top, condition, jump, body', back, last⟩ := placed.loop nodup
    have hhi : pos + (loopCode test body l₁ l₂).length = b + 2 := by
      rw [length_loopCode]
      omega
    rw [hhi] at run stopped ⊢
    -- Each time the top is reached again, less of the run is left.
    induction n using Nat.strongRecOn generalizing m with
    | ind n ih =>
      obtain ⟨k, z, hk, step, run⟩ := run.next stopped (by omega) top.head (by simp)
      rw [(step_label top.head).1 step] at run
      obtain ⟨w, m₁, k₁, hw, stack₁, hk₁, run⟩ :=
        condition_sound plain computes condition jump last (by omega) stack run stopped
      split at run
      · next holds =>
        rw [holds] at hw
        rw [← ha] at run
        obtain ⟨x, s, hB, ends⟩ | ⟨m₂, k₂, hB, stack₂, hk₂, run⟩ :=
          hbody.first body' (by omega) (by omega) stack₁ run stopped
        · exact ⟨_, .left hw hB, ends⟩
        rw [← hb] at run
        obtain ⟨k₃, z, hk₃, step, run⟩ := run.next stopped (by omega) back (by simp)
        rw [(step_goto back top).1 step] at run
        obtain ⟨o, ho, ends⟩ := ih k₃ (by omega) stack₂ run
        exact ⟨o, .again hw hB ho, ends⟩
      · next fails =>
        obtain ⟨k₂, z, -, step, run⟩ := run.next stopped (by omega) last.head (by simp)
        rw [(step_label last.head).1 step] at run
        rw [run.at_end]
        exact ⟨_, .done hw fails, rfl, stack₁, rfl⟩
  complete := by
    intro program pos m o placed stack h
    obtain ⟨a, b, ha, hb, top, condition, jump, body', back, last⟩ := placed.loop nodup
    have hhi : pos + (loopCode test body l₁ l₂).length = b + 2 := by
      rw [length_loopCode]
      omega
    rw [hhi]
    have start (m : Core) : Run calls cls program pos (b + 2) 1 ⟨pos, m⟩ ⟨pos + 1, m⟩ :=
      .step (Nat.le_refl pos) (by simp only; omega) (.label top.head) (.refl _)
    have test' {m : Core} {w : Word} {s : Store} (stack : m.stack = []) (hw : T m.store w s) :=
      condition_complete plain computes condition jump last (show pos ≤ pos + 1 by omega)
        (show pos + 1 + test.length + 2 ≤ b + 2 by omega) stack hw
    generalize hs : m.store = s at h
    induction h generalizing m with
    | done hw fails =>
      obtain ⟨n, m₁, stack₁, rfl, run⟩ := test' stack (hs ▸ hw)
      rw [if_neg fails] at run
      have step : Run calls cls program pos (b + 2) 1 ⟨b + 1, m₁⟩ ⟨b + 2, m₁⟩ :=
        .step (by simp only; omega) (by simp only; omega) (.label last.head) (.refl _)
      exact ⟨_, _, ((start m).trans run).trans step, rfl, stack₁, rfl⟩
    | left hw hB =>
      obtain ⟨n, m₁, stack₁, rfl, run⟩ := test' stack (hs ▸ hw)
      rw [if_pos rfl, ← ha] at run
      obtain ⟨n', y, run', ends⟩ := hbody.leaves body' (show pos ≤ a by omega)
        (show a + body.length ≤ b + 2 by omega) stack₁ hB
      exact ⟨_, y, ((start m).trans run).trans run', ends⟩
    | again hw hB _ ih =>
      obtain ⟨n, m₁, stack₁, rfl, run⟩ := test' stack (hs ▸ hw)
      rw [if_pos rfl, ← ha] at run
      obtain ⟨n', m₂, stack₂, store₂, run'⟩ := hbody.pass body' (show pos ≤ a by omega)
        (show a + body.length ≤ b + 2 by omega) stack₁ hB
      rw [← hb] at run'
      have step : Run calls cls program pos (b + 2) 1 ⟨b, m₂⟩ ⟨pos, m₂⟩ :=
        .step (by simp only; omega) (by simp only; omega) (.goto back top.head) (.refl _)
      obtain ⟨n'', y, run'', ends⟩ := ih stack₂ store₂
      exact ⟨_, y, ((((start m).trans run).trans run').trans step).trans run'', ends⟩

end Loop

end Jack.Machine
