import Jack.Proofs.Schedules.Thread
import Mathlib.Data.List.Perm.Basic
import Mathlib.Logic.Hydra

/-!
# Workers that share a queue of jobs

Workers take jobs from a queue, do their actions one at a time, in any order among each other, and
send in the results. `Pool.Ends` says that something is true at the end of every schedule, and that
no schedule goes on for ever or gets stuck. There are two ways to prove it: from contracts that the
jobs keep, whatever the others do, and, for a single worker, from the jobs one after the other.
-/

namespace Jack

variable {α : Type}

/-! ## Schedules -/

/-- A session, and what the jobs have done so far. Each event comes with the number of its job. -/
structure World where
  session : Session
  log : List (Nat × Event) := []

namespace World

/-- What the job with the given number has done. -/
def past (w : World) (number : Nat) : List Event :=
  w.log.filterMap fun entry => if entry.1 = number then some entry.2 else none

/-- The world after an event of the job with the given number. -/
def after (w : World) (number : Nat) (event : Event) (session : Session) : World :=
  { session, log := w.log ++ [(number, event)] }

@[simp]
theorem past_after_self (w : World) (number : Nat) (event : Event) (s : Session) :
    (w.after number event s).past number = w.past number ++ [event] := by
  simp [past, after]

theorem past_after_of_ne (w : World) {number other : Nat} (event : Event) (s : Session)
    (h : other ≠ number) : (w.after number event s).past other = w.past other := by
  simp [past, after, h.symm]

theorem mem_past {w : World} {number : Nat} {event : Event} :
    event ∈ w.past number ↔ (number, event) ∈ w.log := by
  simp [past]

end World

/-- Numbered jobs that nobody has begun, the workers with the jobs they are at, and the results that
were sent in. -/
structure Pool (α : Type) where
  queue : List (Nat × Thread α)
  workers : List (Option (Nat × Thread α))
  results : List (Nat × α) := []

namespace Pool

/-- Idle workers before all of the jobs. -/
def start (workers : Nat) (jobs : List (Thread α)) : Pool α where
  queue := jobs.zipIdx.map Prod.swap
  workers := List.replicate workers none

/-- A step of one worker: it takes the next job, does an action or sends in a result. -/
inductive Step : Pool α → World → Pool α → World → Prop
  | take (job : Nat × Thread α) (queue before after results w) :
      Step ⟨job :: queue, before ++ none :: after, results⟩ w
        ⟨queue, before ++ some job :: after, results⟩ w
  | act (queue before number action next after results w answer session)
      (does : w.session.Does ⟨action, answer⟩ session) :
      Step ⟨queue, before ++ some (number, .act action next) :: after, results⟩ w
        ⟨queue, before ++ some (number, next answer) :: after, results⟩
        (w.after number ⟨action, answer⟩ session)
  | send (queue before number result after results w) :
      Step ⟨queue, before ++ some (number, .done result) :: after, results⟩ w
        ⟨queue, before ++ none :: after, results ++ [(number, result)]⟩ w

/-- No job is left, and no worker is at one. -/
def Finished (P : Pool α) : Prop :=
  P.queue = [] ∧ ∀ worker ∈ P.workers, worker = none

/-- Every schedule comes to an end with all jobs finished, where the results and the world are as
told. -/
inductive Ends (Q : List (Nat × α) → World → Prop) : Pool α → World → Prop
  | finished {P : Pool α} {w : World} (finished : P.Finished) (holds : Q P.results w) : Ends Q P w
  | step {P : Pool α} {w : World} (canStep : ∃ P' w', Step P w P' w')
      (ends : ∀ P' w', Step P w P' w' → Ends Q P' w') : Ends Q P w

end Pool

/-- Every way to run a thread comes to an end, where the result and the world are as told. -/
def Thread.Ends : Thread α → (α → World → Prop) → World → Prop
  | done result, Q, w => Q result w
  | act action next, Q, w => ∀ answer session, w.session.Does ⟨action, answer⟩ session →
      (next answer).Ends Q { w with session }
  | fork workers jobs job next, Q, w =>
    (Pool.start workers (List.ofFn job)).Ends
      (fun results w' => (next (inOrder jobs results)).Ends Q w') w

namespace Pool

theorem not_step_of_finished {P P' : Pool α} {w w' : World} (h : P.Finished) :
    ¬ Step P w P' w' := by
  obtain ⟨queue, idle⟩ := h
  intro step
  cases step with
  | take => simp at queue
  | act | send => exact Option.some_ne_none _ (idle _ (List.mem_append_right _ List.mem_cons_self))

theorem Ends.mono {Q Q' : List (Nat × α) → World → Prop} {P : Pool α} {w : World}
    (h : P.Ends Q w) (imp : ∀ results w, Q results w → Q' results w) : P.Ends Q' w := by
  induction h with
  | finished finished holds => exact .finished finished (imp _ _ holds)
  | step canStep _ ih => exact .step canStep ih

end Pool

theorem Thread.Ends.mono {Q Q' : α → World → Prop} {t : Thread α} {w : World} (h : t.Ends Q w)
    (imp : ∀ result w, Q result w → Q' result w) : t.Ends Q' w := by
  induction t generalizing w with
  | done result => exact imp result w h
  | act action next ih => exact fun answer s does => ih answer (h answer s does) imp
  | fork workers jobs job next _ ih =>
    exact Pool.Ends.mono h fun results w' ends => ih (inOrder jobs results) ends imp

namespace Pool

theorem Ends.and {Q Q' : List (Nat × α) → World → Prop} {P : Pool α} {w : World}
    (h : P.Ends Q w) (h' : P.Ends Q' w) :
    P.Ends (fun results w => Q results w ∧ Q' results w) w := by
  induction h with
  | finished finished holds =>
    cases h' with
    | finished _ holds' => exact .finished finished ⟨holds, holds'⟩
    | step canStep _ =>
      obtain ⟨P', w', step⟩ := canStep
      exact absurd step (not_step_of_finished finished)
  | step canStep _ ih =>
    cases h' with
    | finished finished' _ =>
      obtain ⟨P', w', step⟩ := canStep
      exact absurd step (not_step_of_finished finished')
    | step _ ends' => exact .step canStep fun P' w' step => ih P' w' step (ends' P' w' step)

/-! ## No schedule goes on for ever -/

/-- What is still to be done for a job. -/
inductive Load (α : Type) : Type 1
  | waiting (t : Thread α)
  | running (t : Thread α)

/-- One step on a job leaves less to be done for it. -/
inductive Load.Less : Load α → Load α → Prop
  | taken (t : Thread α) : Less (.running t) (.waiting t)
  | acted (action : Action) (next : action.Answer → Thread α) (answer : action.Answer) :
      Less (.running (next answer)) (.running (.act action next))

theorem Load.acc_running (t : Thread α) : Acc Less (.running t) := by
  induction t with
  | done | fork => exact ⟨_, fun _ less => by cases less⟩
  | act action next ih =>
    refine ⟨_, fun _ less => ?_⟩
    cases less with
    | acted _ _ answer => exact ih answer

theorem Load.wellFounded_less : WellFounded (Less : Load α → Load α → Prop) := by
  refine ⟨fun load => ?_⟩
  cases load with
  | running t => exact acc_running t
  | waiting t =>
    refine ⟨_, fun _ less => ?_⟩
    cases less
    exact acc_running t

/-- What is still to be done for all jobs. -/
def load (P : Pool α) : Multiset (Load α) :=
  ↑(P.queue.map fun job => Load.waiting job.2) +
    ↑(P.workers.filterMap fun worker => worker.map fun job => Load.running job.2)

theorem load_waiting (job : Nat × Thread α) (queue workers results) :
    load ⟨job :: queue, workers, results⟩ =
      .waiting job.2 ::ₘ load ⟨queue, workers, results⟩ := by
  simp [load, ← Multiset.cons_coe]

theorem load_idle (queue : List (Nat × Thread α)) (before after results) :
    load ⟨queue, before ++ none :: after, results⟩ =
      load ⟨queue, before ++ after, results⟩ := by
  simp [load]

theorem load_running (queue before) (job : Nat × Thread α) (after results) :
    load ⟨queue, before ++ some job :: after, results⟩ =
      .running job.2 ::ₘ load ⟨queue, before ++ after, results⟩ := by
  have middle (l l' : List (Load α)) : (↑(l ++ Load.running job.2 :: l') : Multiset (Load α)) =
      .running job.2 ::ₘ ↑(l ++ l') :=
    Multiset.coe_eq_coe.2 List.perm_middle
  simp [load, middle]

/-- A step takes away a part of the load and puts smaller parts in its place, or none. -/
theorem cutExpand_load {P P' : Pool α} {w w' : World} (h : Step P w P' w') :
    Relation.CutExpand Load.Less P'.load P.load := by
  cases h with
  | take job =>
    rw [load_running, load_idle, load_waiting, ← Multiset.singleton_add, ← Multiset.singleton_add]
    exact (Relation.cutExpand_add_right _).2
      (Relation.cutExpand_singleton_singleton (.taken job.2))
  | act queue before number action next after results w answer =>
    rw [load_running, load_running, ← Multiset.singleton_add, ← Multiset.singleton_add]
    exact (Relation.cutExpand_add_right _).2
      (Relation.cutExpand_singleton_singleton (.acted action next answer))
  | send queue before number result after results =>
    rw [load_running, load_idle, ← Multiset.singleton_add, ← Multiset.zero_add (load _)]
    exact (Relation.cutExpand_add_right _).2 Relation.cutExpand_zero

instance : Std.Irrefl (Load.Less : Load α → Load α → Prop) :=
  Load.wellFounded_less.irrefl

theorem wellFounded_step :
    WellFounded fun (after before : Pool α × World) =>
      Step before.1 before.2 after.1 after.2 :=
  Subrelation.wf (fun h => cutExpand_load h)
    (InvImage.wf (fun state : Pool α × World => state.1.load) Load.wellFounded_less.cutExpand)

/-- What every step keeps, and what keeps the workers from getting stuck, holds at the end of every
schedule. -/
theorem ends_of_invariant {I : Pool α → World → Prop}
    (kept : ∀ {P w P' w'}, I P w → Step P w P' w' → I P' w')
    (goesOn : ∀ {P w}, I P w → ¬ P.Finished → ∃ P' w', Step P w P' w') {P : Pool α} {w : World}
    (h : I P w) :
    P.Ends (fun results w => ∃ P, I P w ∧ P.Finished ∧ P.results = results) w := by
  suffices ∀ state : Pool α × World, I state.1 state.2 →
      state.1.Ends (fun results w => ∃ P, I P w ∧ P.Finished ∧ P.results = results) state.2 from
    this (P, w) h
  intro state
  induction state using wellFounded_step.induction with
  | _ state ih =>
    intro h
    by_cases finished : state.1.Finished
    · exact .finished finished ⟨state.1, h, finished, rfl⟩
    · exact .step (goesOn h finished) fun P' w' step => ih (P', w') step (kept h step)

/-! ## Results in order -/

theorem length_fillSlots (slots : List (Option α)) (results : List (Nat × α)) :
    (fillSlots slots results).length = slots.length := by
  induction results generalizing slots with
  | nil => rfl
  | cons head results ih => rw [fillSlots, List.foldl_cons, ← fillSlots, ih, List.length_set]

theorem fillSlots_of_notMem {slots : List (Option α)} {results : List (Nat × α)} {i : Nat}
    (h : i ∉ results.map Prod.fst) : (fillSlots slots results)[i]? = slots[i]? := by
  induction results generalizing slots with
  | nil => rfl
  | cons head results ih =>
    rw [List.map_cons, List.mem_cons, not_or] at h
    rw [fillSlots, List.foldl_cons, ← fillSlots, ih h.2, List.getElem?_set_ne (Ne.symm h.1)]

theorem fillSlots_of_mem {slots : List (Option α)} {results : List (Nat × α)} {i : Nat}
    {result : α} (nodup : (results.map Prod.fst).Nodup) (bound : i < slots.length)
    (h : (i, result) ∈ results) : (fillSlots slots results)[i]? = some (some result) := by
  induction results generalizing slots with
  | nil => simp at h
  | cons head results ih =>
    rw [List.map_cons, List.nodup_cons] at nodup
    rw [fillSlots, List.foldl_cons, ← fillSlots]
    rcases List.mem_cons.1 h with rfl | h
    · rw [fillSlots_of_notMem nodup.1, List.getElem?_set_self bound]
    · exact ih nodup.2 (by simpa using bound) h

theorem map_some_filterMap {slots : List (Option α)} (full : ∀ slot ∈ slots, slot.isSome) :
    (slots.filterMap id).map some = slots := by
  induction slots with
  | nil => rfl
  | cons slot slots ih =>
    rw [List.forall_mem_cons] at full
    obtain ⟨result, rfl⟩ := Option.isSome_iff_exists.1 full.1
    rw [List.filterMap_cons, id, List.map_cons, ih full.2]

/-- If there is one result for each job, then each job gets its own. -/
theorem inOrder_spec {jobs : Nat} {results : List (Nat × α)}
    (h : (results.map Prod.fst).Perm (List.range jobs)) :
    (inOrder jobs results).length = jobs ∧
      ∀ i result, (inOrder jobs results)[i]? = some result → (i, result) ∈ results := by
  have filled : ∀ i < jobs, ∃ result, (i, result) ∈ results ∧
      (fillSlots (List.replicate jobs none) results)[i]? = some (some result) := by
    intro i bound
    obtain ⟨⟨_, result⟩, mem, rfl⟩ := List.mem_map.1 (h.mem_iff.2 (List.mem_range.2 bound))
    have distinct := h.nodup_iff.2 List.nodup_range
    exact ⟨result, mem, fillSlots_of_mem distinct (by simpa using bound) mem⟩
  have length := length_fillSlots (List.replicate jobs none) results
  rw [List.length_replicate] at length
  unfold inOrder
  generalize fillSlots (List.replicate jobs none) results = slots at filled length
  have full : ∀ slot ∈ slots, slot.isSome := by
    intro slot mem
    obtain ⟨i, bound, rfl⟩ := List.mem_iff_getElem.1 mem
    obtain ⟨result, -, eq⟩ := filled i (length ▸ bound)
    rw [List.getElem?_eq_getElem bound, Option.some.injEq] at eq
    rw [eq, Option.isSome_some]
  rw [← map_some_filterMap full] at filled length
  rw [List.length_map] at length
  refine ⟨length, fun i result eq => ?_⟩
  obtain ⟨own, mem, eq'⟩ := filled i (length ▸ (List.getElem?_eq_some_iff.1 eq).1)
  rw [List.getElem?_map, eq, Option.map_some, Option.some.injEq, Option.some.injEq] at eq'
  rwa [eq']

theorem numbers_zipIdx {β : Type*} (l : List β) :
    (l.zipIdx.map Prod.swap).map Prod.fst = List.range l.length := by
  rw [List.map_map, List.range_eq_range']
  exact List.zipIdx_map_snd 0 l

theorem inOrder_zipIdx (results : List α) :
    inOrder results.length (results.zipIdx.map Prod.swap) = results := by
  obtain ⟨length, mem⟩ := inOrder_spec (List.Perm.of_eq (numbers_zipIdx results))
  apply List.ext_getElem?
  intro i
  cases eq : (inOrder results.length (results.zipIdx.map Prod.swap))[i]? with
  | none =>
    rw [List.getElem?_eq_none_iff, length] at eq
    exact (List.getElem?_eq_none eq).symm
  | some result =>
    obtain ⟨⟨own, j⟩, own_mem, swapped⟩ := List.mem_map.1 (mem i result eq)
    cases swapped
    exact (List.mem_zipIdx_iff_getElem?.1 own_mem).symm

/-! ## Contracts -/

/-- All jobs, as far as they have come. A job whose result was sent in is one with nothing left to
do. -/
def jobs (P : Pool α) : List (Nat × Thread α) :=
  P.queue ++ P.workers.filterMap id ++ P.results.map fun result => (result.1, .done result.2)

theorem jobs_start (workers : Nat) (jobs : List (Thread α)) :
    (start workers jobs).jobs = jobs.zipIdx.map Prod.swap := by
  simp [Pool.jobs, start]

theorem jobs_idle (queue : List (Nat × Thread α)) (before after results) :
    jobs ⟨queue, before ++ none :: after, results⟩ = jobs ⟨queue, before ++ after, results⟩ := by
  simp [jobs]

theorem jobs_running (queue before) (job : Nat × Thread α) (after results) :
    (jobs ⟨queue, before ++ some job :: after, results⟩).Perm
      (job :: jobs ⟨queue, before ++ after, results⟩) := by
  simp only [jobs, List.filterMap_append, List.filterMap_cons, id, List.append_assoc,
    List.cons_append]
  rw [← List.append_assoc, ← List.append_assoc queue]
  exact List.perm_middle

theorem jobs_sent (queue workers) (results : List (Nat × α)) (number : Nat) (result : α) :
    (jobs ⟨queue, workers, results ++ [(number, result)]⟩).Perm
      ((number, .done result) :: jobs ⟨queue, workers, results⟩) := by
  simp only [jobs, List.map_append, List.map_singleton, ← List.append_assoc]
  exact List.perm_append_singleton _ _

/-- A step does an action of one job, or leaves all jobs as they are. -/
theorem Step.jobs_cases {P P' : Pool α} {w w' : World} (h : Step P w P' w') :
    (P'.jobs.Perm P.jobs ∧ w' = w) ∨
      ∃ number action next answer session rest, P.jobs.Perm ((number, .act action next) :: rest) ∧
        P'.jobs.Perm ((number, next answer) :: rest) ∧
        w.session.Does ⟨action, answer⟩ session ∧
        w' = w.after number ⟨action, answer⟩ session := by
  cases h with
  | take job queue before after results =>
    left
    rw [jobs_idle]
    exact ⟨jobs_running queue before job after results, rfl⟩
  | act queue before number action next after results _ answer session does =>
    right
    exact ⟨number, action, next, answer, session, jobs ⟨queue, before ++ after, results⟩,
      jobs_running .., jobs_running .., does, rfl⟩
  | send queue before number result after results =>
    left
    rw [jobs_idle]
    exact ⟨(jobs_sent ..).trans (jobs_running ..).symm, rfl⟩

end Pool

/-- What a job promises, whatever answers it gets: which actions it may do after what it has done
before, and what its result is like. -/
structure Contract (α : Type) where
  allows : List Event → Action → Prop
  delivers : List Event → α → Prop

/-- A thread keeps a contract, as one that comes after the given events. It runs no jobs itself. -/
def Thread.Meets (c : Contract α) : Thread α → List Event → Prop
  | done result, past => c.delivers past result
  | act action next, past => c.allows past action ∧
      ∀ answer, (next answer).Meets c (past ++ [⟨action, answer⟩])
  | fork .., _ => False

namespace Pool

/-- There is a worker, there is one job with each number, every job keeps its contract, and the
world is as told. -/
structure Keeps (contract : Nat → Contract α) (G : World → Prop) (count : Nat) (P : Pool α)
    (w : World) : Prop where
  manned : P.workers ≠ []
  numbers : (P.jobs.map Prod.fst).Perm (List.range count)
  meets : ∀ job ∈ P.jobs, job.2.Meets (contract job.1) (w.past job.1)
  holds : G w

namespace Keeps

variable {contract : Nat → Contract α} {G : World → Prop} {count : Nat} {P P' : Pool α}
  {w w' : World}

theorem step (h : Keeps contract G count P w)
    (kept : ∀ {w : World} {number : Nat} {e : Event} {s : Session}, number < count → G w →
      (contract number).allows (w.past number) e.action → w.session.Does e s →
      G (w.after number e s))
    (step : Step P w P' w') : Keeps contract G count P' w' := by
  have manned : P'.workers ≠ [] := by cases step <;> simp
  rcases step.jobs_cases with ⟨perm, rfl⟩ |
    ⟨number, action, next, answer, session, rest, before, after, does, rfl⟩
  · exact ⟨manned, (perm.map _).trans h.numbers, fun job mem => h.meets job (perm.mem_iff.1 mem),
      h.holds⟩
  have numbers := (before.map Prod.fst).symm.trans h.numbers
  have bound : number < count := List.mem_range.1 (numbers.mem_iff.1 List.mem_cons_self)
  have others : number ∉ rest.map Prod.fst :=
    (List.nodup_cons.1 (numbers.nodup_iff.2 List.nodup_range)).1
  obtain ⟨allowed, next_meets⟩ := h.meets _ (before.mem_iff.2 List.mem_cons_self)
  refine ⟨manned, (after.map Prod.fst).trans numbers, fun job mem => ?_,
    kept bound h.holds allowed does⟩
  rcases List.mem_cons.1 (after.mem_iff.1 mem) with rfl | mem
  · rw [World.past_after_self]
    exact next_meets answer
  · have other : job.1 ≠ number := fun eq => others (eq ▸ List.mem_map_of_mem mem)
    rw [World.past_after_of_ne _ _ _ other]
    exact h.meets job (before.mem_iff.2 (List.mem_cons_of_mem _ mem))

/-- An idle worker can take a job, and a busy one can go on. -/
theorem goesOn (h : Keeps contract G count P w) (unfinished : ¬ P.Finished) :
    ∃ P' w', Step P w P' w' := by
  obtain ⟨queue, workers, results⟩ := P
  by_cases idle : ∀ worker ∈ workers, worker = none
  · obtain ⟨worker, others, rfl⟩ := List.exists_cons_of_ne_nil h.manned
    obtain rfl := idle worker List.mem_cons_self
    cases queue with
    | nil => exact absurd ⟨rfl, idle⟩ unfinished
    | cons job queue => exact ⟨_, _, .take job queue [] others results w⟩
  · push Not at idle
    obtain ⟨worker, mem, busy⟩ := idle
    obtain ⟨⟨number, t⟩, rfl⟩ := Option.ne_none_iff_exists'.1 busy
    obtain ⟨before, after, rfl⟩ := List.append_of_mem mem
    have meets := h.meets (number, t) (by simp [jobs])
    cases t with
    | done result => exact ⟨_, _, .send queue before number result after results w⟩
    | act action next =>
      obtain ⟨answer, session, does⟩ := w.session.exists_does action
      exact ⟨_, _, .act queue before number action next after results w answer session does⟩
    | fork => exact meets.elim

theorem delivers (h : Keeps contract G count P w) (finished : P.Finished) :
    (inOrder count P.results).length = count ∧
      ∀ i result, (inOrder count P.results)[i]? = some result →
        (contract i).delivers (w.past i) result := by
  have jobs_eq : P.jobs = P.results.map fun result => (result.1, .done result.2) := by
    have idle : P.workers.filterMap id = [] :=
      List.filterMap_eq_nil_iff.2 fun worker mem => finished.2 worker mem
    rw [jobs, finished.1, idle, List.nil_append, List.nil_append]
  have numbers : (P.results.map Prod.fst).Perm (List.range count) := by
    have := h.numbers
    rwa [jobs_eq, List.map_map] at this
  obtain ⟨length, mem⟩ := inOrder_spec numbers
  refine ⟨length, fun i result eq => ?_⟩
  exact h.meets (i, .done result) (jobs_eq ▸ List.mem_map_of_mem (mem i result eq))

end Keeps

/-- Jobs that keep their contracts deliver, under every schedule, and the world stays as told if all
that the contracts allow keeps it so. -/
theorem ends_of_contracts (workers : Nat) (jobs : List (Thread α)) (contract : Nat → Contract α)
    {G : World → Prop} {s : Session}
    (meets : ∀ (i : Nat) (t : Thread α), jobs[i]? = some t → t.Meets (contract i) [])
    (kept : ∀ {w : World} {number : Nat} {e : Event} {s : Session}, number < jobs.length → G w →
      (contract number).allows (w.past number) e.action → w.session.Does e s →
      G (w.after number e s))
    (manned : 0 < workers) (holds : G { session := s }) :
    (start workers jobs).Ends (fun results w => G w ∧
      (inOrder jobs.length results).length = jobs.length ∧
      ∀ i result, (inOrder jobs.length results)[i]? = some result →
        (contract i).delivers (w.past i) result) { session := s } := by
  have keeps : Keeps contract G jobs.length (start workers jobs) { session := s } := by
    refine ⟨by simpa [start] using manned.ne', ?_, fun job mem => ?_, holds⟩
    · rw [jobs_start, numbers_zipIdx]
    · rw [jobs_start] at mem
      obtain ⟨⟨t, i⟩, own, rfl⟩ := List.mem_map.1 mem
      exact meets i t (List.mem_zipIdx_iff_getElem?.1 own)
  refine (ends_of_invariant (fun h => h.step kept) (fun h => h.goesOn) keeps).mono ?_
  rintro results w ⟨P, h, finished, rfl⟩
  exact ⟨h.holds, h.delivers finished⟩

end Pool

/-! ## A single worker -/

/-- Every way to run a thread as the job with the given number comes to an end, while no other job
runs. It runs no jobs itself. -/
def Thread.EndsAlone (number : Nat) : Thread α → (α → World → Prop) → World → Prop
  | done result, Q, w => Q result w
  | act action next, Q, w => ∀ answer session, w.session.Does ⟨action, answer⟩ session →
      (next answer).EndsAlone number Q (w.after number ⟨action, answer⟩ session)
  | fork .., _, _ => False

namespace Pool

variable {Q : List (Nat × α) → World → Prop} {queue : List (Nat × Thread α)}
  {results : List (Nat × α)} {w : World}

theorem Step.single {worker : Option (Nat × Thread α)} {P : Pool α} {w' : World}
    (h : Step ⟨queue, [worker], results⟩ w P w') :
    (∃ job rest, worker = none ∧ queue = job :: rest ∧ P = ⟨rest, [some job], results⟩ ∧ w' = w) ∨
      (∃ number action next answer session, worker = some (number, .act action next) ∧
        w.session.Does ⟨action, answer⟩ session ∧
        P = ⟨queue, [some (number, next answer)], results⟩ ∧
        w' = w.after number ⟨action, answer⟩ session) ∨
      ∃ number result, worker = some (number, .done result) ∧
        P = ⟨queue, [none], results ++ [(number, result)]⟩ ∧ w' = w := by
  have only {before after : List (Option (Nat × Thread α))} {x : Option (Nat × Thread α)}
      (eq : [worker] = before ++ x :: after) : before = [] ∧ worker = x ∧ after = [] := by
    cases before <;> simp_all
  generalize eq : (⟨queue, [worker], results⟩ : Pool α) = start at h
  cases h with
  | take job rest =>
    injection eq with queue_eq workers_eq results_eq
    obtain ⟨rfl, rfl, rfl⟩ := only workers_eq
    exact .inl ⟨job, rest, rfl, queue_eq, results_eq ▸ rfl, rfl⟩
  | act _ _ number action next _ _ _ answer session does =>
    injection eq with queue_eq workers_eq results_eq
    obtain ⟨rfl, rfl, rfl⟩ := only workers_eq
    subst queue_eq results_eq
    exact .inr (.inl ⟨number, action, next, answer, session, rfl, does, rfl, rfl⟩)
  | send _ _ number result =>
    injection eq with queue_eq workers_eq results_eq
    obtain ⟨rfl, rfl, rfl⟩ := only workers_eq
    subst queue_eq results_eq
    exact .inr (.inr ⟨number, result, rfl, rfl, rfl⟩)

theorem ends_nil (h : Q results w) : Ends Q ⟨[], [none], results⟩ w :=
  .finished ⟨rfl, by simp⟩ h

theorem ends_running {number : Nat} {t : Thread α}
    (h : t.EndsAlone number
      (fun result => Ends Q ⟨queue, [none], results ++ [(number, result)]⟩) w) :
    Ends Q ⟨queue, [some (number, t)], results⟩ w := by
  induction t generalizing w with
  | done result =>
    refine .step ⟨_, _, .send queue [] number result [] results w⟩ fun P w' step => ?_
    rcases step.single with ⟨_, _, eq, _⟩ | ⟨_, _, _, _, _, eq, _⟩ | ⟨_, _, eq, rfl, rfl⟩
    · cases eq
    · cases eq
    · cases eq
      exact h
  | act action next ih =>
    obtain ⟨answer, session, does⟩ := w.session.exists_does action
    refine .step ⟨_, _, .act queue [] number action next [] results w answer session does⟩
      fun P w' step => ?_
    rcases step.single with ⟨_, _, eq, _⟩ | ⟨_, _, _, answer, session, eq, does, rfl, rfl⟩ |
      ⟨_, _, eq, _⟩
    · cases eq
    · cases eq
      exact ih answer (h answer session does)
    · cases eq
  | fork => exact h.elim

/-- A single worker does the next job, with no other around, and then the rest. -/
theorem ends_cons {number : Nat} {t : Thread α}
    (h : t.EndsAlone number
      (fun result => Ends Q ⟨queue, [none], results ++ [(number, result)]⟩) w) :
    Ends Q ⟨(number, t) :: queue, [none], results⟩ w := by
  refine .step ⟨_, _, .take (number, t) queue [] [] results w⟩ fun P w' step => ?_
  rcases step.single with ⟨_, _, _, eq, rfl, rfl⟩ | ⟨_, _, _, _, _, eq, _⟩ | ⟨_, _, eq, _⟩
  · cases eq
    exact ends_running h
  · cases eq
  · cases eq

end Pool

end Jack
