import Jack.Proofs.Machine.Evaluation
import Jack.Proofs.Syntax.Labels

/-!
# Fragments of programs

Code that stands somewhere in a program and whose labels stand nowhere else can be run by itself,
whatever the rest of the program is. `Means code R` says that such a run, from the first
instruction with an empty working stack, ends exactly as `R` says. Code is put together from parts
that have a meaning: one after the other, in the branches of a condition, and in a loop.
-/

namespace Jack.Machine

open Syntax

variable {calls : Calls} {cls : String} {program code code' : List Instruction}

/-! ## Code in a program -/

/-- The code stands at a position of the program. -/
def CodeAt (program : List Instruction) (pos : Nat) (code : List Instruction) : Prop :=
  ∀ i, i < code.length → program[pos + i]? = code[i]?

theorem CodeAt.head {pos : Nat} {i : Instruction} (h : CodeAt program pos (i :: code)) :
    program[pos]? = some i := by
  simpa using h 0 (by simp)

theorem CodeAt.tail {pos : Nat} {i : Instruction} (h : CodeAt program pos (i :: code)) :
    CodeAt program (pos + 1) code := by
  intro j hj
  have := h (j + 1) (by rw [List.length_cons]; omega)
  rwa [List.getElem?_cons_succ, Nat.add_comm j, ← Nat.add_assoc] at this

/-- The code stands at a position of the program, and its labels stand only there. -/
structure Placed (program : List Instruction) (pos : Nat) (code : List Instruction) : Prop where
  fetch : CodeAt program pos code
  only : ∀ {l : String} {j : Nat}, .label l ∈ code → program[j]? = some (.label l) →
    pos ≤ j ∧ j < pos + code.length

namespace Placed

variable {pos : Nat}

theorem head {i : Instruction} (h : Placed program pos (i :: code)) : program[pos]? = some i :=
  h.fetch.head

/-- The instruction of the program inside the code. -/
theorem fetch_of_mem (h : Placed program pos code) {j : Nat} (hj : pos ≤ j)
    (hj' : j < pos + code.length) : program[j]? = code[j - pos]? := by
  have := h.fetch (j - pos) (by omega)
  rwa [Nat.add_sub_cancel' hj] at this

theorem mem_of_fetch (h : Placed program pos code) {j : Nat} (hj : pos ≤ j)
    (hj' : j < pos + code.length) {i : Instruction} (hi : program[j]? = some i) : i ∈ code := by
  rw [h.fetch_of_mem hj hj'] at hi
  exact List.mem_of_getElem? hi

theorem left (h : Placed program pos (code ++ code')) (nodup : (labelsOf (code ++ code')).Nodup) :
    Placed program pos code where
  fetch i hi := by
    rw [h.fetch i (by rw [List.length_append]; omega), List.getElem?_append_left hi]
  only := by
    intro l j hl hj
    obtain ⟨above, below⟩ := h.only (List.mem_append_left _ hl) hj
    refine ⟨above, Nat.lt_of_not_le fun late => ?_⟩
    -- Otherwise the label stands in the second part too.
    have second : program[j]? = code'[j - (pos + code.length)]? := by
      rw [h.fetch_of_mem above below, List.getElem?_append_right (by omega)]
      congr 1
      omega
    rw [second] at hj
    rw [labelsOf_append] at nodup
    exact (List.nodup_append.1 nodup).2.2 l (mem_labelsOf.2 hl) l
      (mem_labelsOf.2 (List.mem_of_getElem? hj)) rfl

theorem right (h : Placed program pos (code ++ code'))
    (nodup : (labelsOf (code ++ code')).Nodup) : Placed program (pos + code.length) code' where
  fetch i hi := by
    have := h.fetch (code.length + i) (by rw [List.length_append]; omega)
    rw [Nat.add_assoc, this, List.getElem?_append_right (by omega), Nat.add_sub_cancel_left]
  only := by
    intro l j hl hj
    obtain ⟨above, below⟩ := h.only (List.mem_append_right _ hl) hj
    rw [List.length_append] at below
    refine ⟨Nat.le_of_not_lt fun early => ?_, by omega⟩
    have first : program[j]? = code[j - pos]? := by
      rw [h.fetch_of_mem above (by rw [List.length_append]; omega),
        List.getElem?_append_left (by omega)]
    rw [first] at hj
    rw [labelsOf_append] at nodup
    exact (List.nodup_append.1 nodup).2.2 l (mem_labelsOf.2 (List.mem_of_getElem? hj)) l
      (mem_labelsOf.2 hl) rfl

/-- Where the label of a name stands. -/
theorem label_iff {l : String} (h : Placed program pos [.label l]) {j : Nat} :
    program[j]? = some (.label l) ↔ j = pos := by
  constructor
  · intro hj
    obtain ⟨above, below⟩ := h.only (List.mem_singleton_self _) hj
    rw [List.length_singleton] at below
    omega
  · rintro rfl
    exact h.head

end Placed

/-! ## Steps -/

theorem step_plain {pc : Nat} {i : Instruction} {m : Core} {y : State}
    (fetch : program[pc]? = some i) (plain : i.Plain) :
    Step calls cls program ⟨pc, m⟩ y ↔ ∃ m', Performs calls cls i m m' ∧ y = ⟨pc + 1, m'⟩ := by
  constructor
  · intro step
    cases step with
    | perform fetch' performs =>
      rw [fetch] at fetch'
      cases fetch'
      exact ⟨_, performs, rfl⟩
    | label fetch' | goto fetch' | jump fetch' | stay fetch' =>
      rw [fetch] at fetch'
      cases fetch'
      exact plain.elim
  · rintro ⟨m', performs, rfl⟩
    exact .perform fetch performs

theorem step_label {pc : Nat} {l : String} {m : Core} {y : State}
    (fetch : program[pc]? = some (.label l)) :
    Step calls cls program ⟨pc, m⟩ y ↔ y = ⟨pc + 1, m⟩ := by
  constructor
  · intro step
    cases step with
    | perform fetch' performs =>
      rw [fetch] at fetch'
      cases fetch'
      exact performs.elim
    | label => rfl
    | goto fetch' | jump fetch' | stay fetch' =>
      rw [fetch] at fetch'
      cases fetch'
  · rintro rfl
    exact .label fetch

theorem step_goto {pc target : Nat} {l : String} {m : Core} {y : State}
    (fetch : program[pc]? = some (.goto l)) (placed : Placed program target [.label l]) :
    Step calls cls program ⟨pc, m⟩ y ↔ y = ⟨target, m⟩ := by
  constructor
  · intro step
    cases step with
    | perform fetch' performs =>
      rw [fetch] at fetch'
      cases fetch'
      exact performs.elim
    | goto fetch' there =>
      rw [fetch] at fetch'
      cases fetch'
      rw [placed.label_iff.1 there]
    | label fetch' | jump fetch' | stay fetch' =>
      rw [fetch] at fetch'
      cases fetch'
  · rintro rfl
    exact .goto fetch placed.head

theorem step_ifGoto {pc target : Nat} {l : String} {m : Core} {y : State} {w : Word}
    {rest : List Word} (fetch : program[pc]? = some (.ifGoto l))
    (placed : Placed program target [.label l]) (stack : m.stack = w :: rest) :
    Step calls cls program ⟨pc, m⟩ y ↔
      y = ⟨if w = 0 then pc + 1 else target, { m with stack := rest }⟩ := by
  constructor
  · intro step
    cases step with
    | perform fetch' performs =>
      rw [fetch] at fetch'
      cases fetch'
      exact performs.elim
    | jump fetch' stack' nonzero there =>
      rw [fetch] at fetch'
      cases fetch'
      rw [stack] at stack'
      cases stack'
      rw [if_neg nonzero, placed.label_iff.1 there]
    | stay fetch' stack' =>
      rw [stack] at stack'
      cases stack'
      rw [if_pos rfl]
    | label fetch' | goto fetch' =>
      rw [fetch] at fetch'
      cases fetch'
  · rintro rfl
    split
    · next zero =>
      rw [zero] at stack
      exact .stay fetch stack
    · next nonzero => exact .jump fetch stack nonzero placed.head

/-! ## Runs -/

variable {lo hi n : Nat} {x y z : State} {m : Core}

theorem Run.trans {k : Nat} (first : Run calls cls program lo hi n x y)
    (rest : Run calls cls program lo hi k y z) : Run calls cls program lo hi (n + k) x z := by
  induction first with
  | refl => rwa [Nat.zero_add]
  | step above below step _ ih =>
    rw [Nat.add_right_comm]
    exact .step above below step (ih rest)

theorem Run.mono {lo' hi' : Nat} (run : Run calls cls program lo hi n x y) (hlo : lo' ≤ lo)
    (hhi : hi ≤ hi') : Run calls cls program lo' hi' n x y := by
  induction run with
  | refl => exact .refl _
  | step above below step _ ih =>
    exact .step (Nat.le_trans hlo above) (Nat.lt_of_lt_of_le below hhi) step ih

/-- The run of a part of the program is over: its end is reached, or a return. -/
def Over (program : List Instruction) (lo hi : Nat) (y : State) : Prop :=
  y.pc = hi ∨ lo ≤ y.pc ∧ y.pc < hi ∧ program[y.pc]? = some .return

/-- The outcome of a run that is over. At the end nothing is left on the working stack, and at a
return there is one word. -/
def Ends (program : List Instruction) (lo hi : Nat) (y : State) : Ending → Prop
  | .next s => y.pc = hi ∧ y.core.stack = [] ∧ y.core.store = s
  | .returned w s => (lo ≤ y.pc ∧ y.pc < hi ∧ program[y.pc]? = some .return) ∧
      y.core.stack = [w] ∧ y.core.store = s

theorem Ends.isOver {o : Ending} (h : Ends program lo hi y o) : Over program lo hi y := by
  cases o with
  | next s => exact .inl h.1
  | returned w s => exact .inr h.1

theorem Ends.unique {o o' : Ending} (h : Ends program lo hi y o)
    (h' : Ends program lo hi y o') : o = o' := by
  cases o with
  | next s =>
    cases o' with
    | next s' => rw [← h.2.2, ← h'.2.2]
    | returned w' s' => exact absurd h.1 (Nat.ne_of_lt h'.1.2.1)
  | returned w s =>
    cases o' with
    | next s' => exact absurd h'.1 (Nat.ne_of_lt h.1.2.1)
    | returned w' s' =>
      have : [w] = [w'] := h.2.1.symm.trans h'.2.1
      cases this
      rw [← h.2.2, ← h'.2.2]

/-- The end of a part is not left. -/
theorem Run.at_end (run : Run calls cls program lo hi n ⟨hi, m⟩ y) : y = ⟨hi, m⟩ := by
  cases run with
  | refl => rfl
  | step _ below => exact absurd below (Nat.lt_irrefl hi)

/-- A run that is not over goes on. -/
theorem Run.next {pc : Nat} {i : Instruction} (run : Run calls cls program lo hi n ⟨pc, m⟩ y)
    (stopped : Over program lo hi y) (below : pc < hi) (fetch : program[pc]? = some i)
    (goes : i ≠ .return) :
    ∃ k z, k < n ∧ Step calls cls program ⟨pc, m⟩ z ∧ Run calls cls program lo hi k z y := by
  cases run with
  | refl =>
    obtain ended | ⟨-, -, returns⟩ := stopped
    · exact absurd ended (Nat.ne_of_lt below)
    · rw [fetch] at returns
      exact absurd (Option.some.inj returns) goes
  | step _ _ step rest => exact ⟨_, _, Nat.lt_succ_self _, step, rest⟩

/-- A run over plain code executes all of it. -/
theorem Run.exec {pos : Nat} (plain : PlainCode code) (fetch : CodeAt program pos code)
    (run : Run calls cls program lo hi n ⟨pos, m⟩ y) (stopped : Over program lo hi y)
    (below : pos + code.length ≤ hi) :
    ∃ m' k, k ≤ n ∧ Exec calls cls code m m' ∧
      Run calls cls program lo hi k ⟨pos + code.length, m'⟩ y := by
  induction code generalizing pos m n with
  | nil => exact ⟨m, n, Nat.le_refl n, rfl, run⟩
  | cons i code ih =>
    obtain ⟨first, plain⟩ := plainCode_cons.1 plain
    rw [List.length_cons] at below
    have goes : i ≠ .return := by
      rintro rfl
      exact first
    obtain ⟨k, z, hk, step, run⟩ := run.next stopped (by omega) fetch.head goes
    obtain ⟨m₁, performs, rfl⟩ := (step_plain fetch.head first).1 step
    obtain ⟨m', k', hk', exec, run⟩ := ih plain fetch.tail run (by omega)
    refine ⟨m', k', by omega, ⟨m₁, performs, exec⟩, ?_⟩
    rwa [List.length_cons, Nat.add_comm code.length, ← Nat.add_assoc]

/-- What plain code executes is a run over it. -/
theorem Exec.run {pos : Nat} {m' : Core} (plain : PlainCode code)
    (fetch : CodeAt program pos code) (exec : Exec calls cls code m m') (above : lo ≤ pos)
    (below : pos + code.length ≤ hi) :
    ∃ n, Run calls cls program lo hi n ⟨pos, m⟩ ⟨pos + code.length, m'⟩ := by
  induction code generalizing pos m with
  | nil =>
    cases exec
    exact ⟨0, .refl _⟩
  | cons i code ih =>
    obtain ⟨m₁, performs, exec⟩ := exec
    obtain ⟨first, plain⟩ := plainCode_cons.1 plain
    rw [List.length_cons] at below
    obtain ⟨n, run⟩ := ih plain fetch.tail exec (by omega) (by omega)
    refine ⟨n + 1, .step above (by simp only; omega) (.perform fetch.head performs) ?_⟩
    rwa [List.length_cons, Nat.add_comm code.length, ← Nat.add_assoc]

/-! ## Meanings -/

/-- Every jump of the code goes to a label of the code. -/
def Closed (code : List Instruction) : Prop :=
  ∀ l, .goto l ∈ code ∨ .ifGoto l ∈ code → .label l ∈ code

/-- The code, run by itself with an empty working stack, ends exactly as `R` says. -/
structure Means (calls : Calls) (cls : String) (code : List Instruction)
    (R : Store → Ending → Prop) : Prop where
  nodup : (labelsOf code).Nodup
  closed : Closed code
  sound : ∀ {program : List Instruction} {pos n : Nat} {m : Core} {y : State},
    Placed program pos code → m.stack = [] →
    Run calls cls program pos (pos + code.length) n ⟨pos, m⟩ y →
    Over program pos (pos + code.length) y →
    ∃ o, R m.store o ∧ Ends program pos (pos + code.length) y o
  complete : ∀ {program : List Instruction} {pos : Nat} {m : Core} {o : Ending},
    Placed program pos code → m.stack = [] → R m.store o →
    ∃ n y, Run calls cls program pos (pos + code.length) n ⟨pos, m⟩ y ∧
      Ends program pos (pos + code.length) y o

variable {pos : Nat} {R R' : Store → Ending → Prop}

theorem Means.congr (means : Means calls cls code R) (same : ∀ s o, R s o ↔ R' s o) :
    Means calls cls code R' := by
  have : R = R' := by
    funext s o
    exact propext (same s o)
  exact this ▸ means

/-- A step inside closed code does not lead out of it, except to its end. -/
theorem Placed.step (placed : Placed program pos code) (closed : Closed code)
    (step : Step calls cls program x y) (above : pos ≤ x.pc) (below : x.pc < pos + code.length) :
    pos ≤ y.pc ∧ y.pc ≤ pos + code.length := by
  have target {l : String} {j : Nat} (jump : .goto l ∈ code ∨ .ifGoto l ∈ code)
      (there : program[j]? = some (.label l)) : pos ≤ j ∧ j ≤ pos + code.length := by
    obtain ⟨above, below⟩ := placed.only (closed l jump) there
    exact ⟨above, Nat.le_of_lt below⟩
  cases step with
  | perform | label | stay => exact ⟨Nat.le_succ_of_le above, below⟩
  | goto fetch there => exact target (.inl (placed.mem_of_fetch above below fetch)) there
  | jump fetch _ _ there => exact target (.inr (placed.mem_of_fetch above below fetch)) there

/-- A run that is in closed code stays there until it reaches the end of the code. -/
theorem Run.split (placed : Placed program pos code) (closed : Closed code)
    (run : Run calls cls program lo hi n x y) (above : pos ≤ x.pc)
    (below : x.pc ≤ pos + code.length) :
    ∃ j k z, Run calls cls program pos (pos + code.length) j x z ∧ k ≤ n ∧
      Run calls cls program lo hi k z y ∧
      (z.pc = pos + code.length ∨ z = y ∧ pos ≤ y.pc ∧ y.pc < pos + code.length) := by
  induction run with
  | refl x =>
    refine ⟨0, 0, x, .refl x, Nat.le_refl 0, .refl x, ?_⟩
    obtain ended | inside := Nat.eq_or_lt_of_le below
    · exact .inl ended
    · exact .inr ⟨rfl, above, inside⟩
  | @step n x x₁ y low high step rest ih =>
    obtain ended | inside := Nat.eq_or_lt_of_le below
    · exact ⟨0, n + 1, x, .refl x, Nat.le_refl _, .step low high step rest, .inl ended⟩
    · obtain ⟨above₁, below₁⟩ := placed.step closed step above inside
      obtain ⟨j, k, z, first, hk, rest, hz⟩ := ih above₁ below₁
      exact ⟨j + 1, k, z, .step above inside step first, Nat.le_succ_of_le hk, rest, hz⟩

theorem Ends.mono {lo' hi' : Nat} {w : Word} {s : Store}
    (h : Ends program lo hi y (.returned w s)) (hlo : lo' ≤ lo) (hhi : hi ≤ hi') :
    Ends program lo' hi' y (.returned w s) :=
  ⟨⟨Nat.le_trans hlo h.1.1, Nat.lt_of_lt_of_le h.1.2.1 hhi, h.1.2.2⟩, h.2⟩

/-- A run that enters code with a meaning either returns there or reaches its end. -/
theorem Means.first (means : Means calls cls code R) (placed : Placed program pos code)
    (above : lo ≤ pos) (below : pos + code.length ≤ hi) (stack : m.stack = [])
    (run : Run calls cls program lo hi n ⟨pos, m⟩ y) (stopped : Over program lo hi y) :
    (∃ w s, R m.store (.returned w s) ∧ Ends program lo hi y (.returned w s)) ∨
      ∃ m' k, R m.store (.next m'.store) ∧ m'.stack = [] ∧ k ≤ n ∧
        Run calls cls program lo hi k ⟨pos + code.length, m'⟩ y := by
  obtain ⟨j, k, z, first, hk, rest, hz⟩ :=
    run.split placed means.closed (Nat.le_refl pos) (Nat.le_add_right pos _)
  obtain ended | ⟨rfl, inside⟩ := hz
  · obtain ⟨o, ho, ends⟩ := means.sound placed stack first (.inl ended)
    cases o with
    | next s =>
      obtain ⟨-, stack', rfl⟩ := ends
      obtain ⟨pc, m'⟩ := z
      cases ended
      exact .inr ⟨m', k, ho, stack', hk, rest⟩
    | returned w s => exact absurd ended (Nat.ne_of_lt ends.1.2.1)
  · have returns : program[z.pc]? = some .return := by
      obtain ended | ⟨-, -, returns⟩ := stopped
      · exact absurd ended (Nat.ne_of_lt (Nat.lt_of_lt_of_le inside.2 below))
      · exact returns
    obtain ⟨o, ho, ends⟩ := means.sound placed stack first (.inr ⟨inside.1, inside.2, returns⟩)
    cases o with
    | next s => exact absurd ends.1 (Nat.ne_of_lt inside.2)
    | returned w s => exact .inl ⟨w, s, ho, ends.mono above below⟩

/-- A run through code with a meaning, as a part of a longer run. -/
theorem Means.pass (means : Means calls cls code R) (placed : Placed program pos code)
    (above : lo ≤ pos) (below : pos + code.length ≤ hi) (stack : m.stack = []) {s : Store}
    (h : R m.store (.next s)) :
    ∃ n m', m'.stack = [] ∧ m'.store = s ∧
      Run calls cls program lo hi n ⟨pos, m⟩ ⟨pos + code.length, m'⟩ := by
  obtain ⟨n, ⟨pc, m'⟩, run, ended, stack', store⟩ := means.complete placed stack h
  cases ended
  exact ⟨n, m', stack', store, run.mono above below⟩

theorem Means.leaves (means : Means calls cls code R) (placed : Placed program pos code)
    (above : lo ≤ pos) (below : pos + code.length ≤ hi) (stack : m.stack = []) {w : Word}
    {s : Store} (h : R m.store (.returned w s)) :
    ∃ n y, Run calls cls program lo hi n ⟨pos, m⟩ y ∧
      Ends program lo hi y (.returned w s) := by
  obtain ⟨n, y, run, ends⟩ := means.complete placed stack h
  exact ⟨n, y, run.mono above below, ends.mono above below⟩

end Jack.Machine
