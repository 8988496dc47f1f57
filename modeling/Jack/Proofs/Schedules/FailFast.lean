import Jack.Proofs.Schedules.Job

/-!
# Builds that stop at the first failure

Sources that nobody has begun are skipped once one has failed. The alarm of the build is raised and
looked at in steps of their own, so workers that are already at a source go on with it. Still, under
every schedule, nothing is skipped without a failure, and the job of a skipped source leaves the
files alone. A single worker skips exactly the sources after the first that fails.
-/

namespace Jack

/-- What becomes of sources that come to these ends one after the other, if all are skipped after
the first that fails. -/
def Status.untilFailure : List Status → List Status
  | [] => []
  | status :: rest =>
    status :: if status.isFailed then List.replicate rest.length .skipped else untilFailure rest

theorem Status.length_untilFailure (statuses : List Status) :
    (untilFailure statuses).length = statuses.length := by
  induction statuses with
  | nil => rfl
  | cons status rest ih =>
    rw [untilFailure, List.length_cons, List.length_cons]
    split
    · rw [List.length_replicate]
    · rw [ih]

namespace Report

theorem counts_add_up (r : Report) : r.compiled + r.failed + r.skipped = r.outcomes.length := by
  unfold compiled failed skipped
  induction r.outcomes with
  | nil => rfl
  | cons o outcomes ih =>
    rw [List.countP_cons, List.countP_cons, List.countP_cons, List.length_cons, ← ih]
    cases o.status <;> simp [Status.isCompiled, Status.isFailed, Status.isSkipped] <;> omega

theorem isSuccess_iff (r : Report) :
    r.isSuccess = true ↔ ∀ o ∈ r.outcomes, o.status.isCompiled = true := by
  have total := r.counts_add_up
  have all : r.compiled = r.outcomes.length ↔ ∀ o ∈ r.outcomes, o.status.isCompiled = true :=
    List.countP_eq_length
  rw [isSuccess, Bool.and_eq_true, decide_eq_true_iff, decide_eq_true_iff, ← all]
  omega

end Report

/-! ## The alarm -/

/-- Only numbered jobs have done something, a job has seen the alarm only if it was raised, and it
was raised by a job. -/
structure Watched (failed : Alarm) (count : Nat) (w : World) : Prop where
  numbers : ∀ number event, (number, event) ∈ w.log → number < count
  made : ∃ raised, w.session.Shows failed raised
  seen : ∀ number, (number, ⟨.isRaised failed, true⟩) ∈ w.log → w.session.Shows failed true
  raised : w.session.Shows failed true → ∃ number, (number, ⟨.raise failed, ()⟩) ∈ w.log

theorem Watched.after {failed : Alarm} {count number : Nat} {w : World} {e : Event} {s : Session}
    (h : Watched failed count w) (bound : number < count) (does : w.session.Does e s) :
    Watched failed count (w.after number e s) := by
  have numbers (other : Nat) (event : Event) (mem : (other, event) ∈ (w.after number e s).log) :
      other < count := by
    rcases List.mem_append.1 mem with mem | mem
    · exact h.numbers other event mem
    · cases List.mem_singleton.1 mem
      exact bound
  obtain ⟨raised, shows⟩ := h.made
  by_cases raises : e.action = .raise failed
  · obtain ⟨action, answer⟩ := e
    cases raises
    have shows' := does.shows_raised shows
    exact ⟨numbers, ⟨true, shows'⟩, fun _ _ => shows',
      fun _ => ⟨number, List.mem_append_right _ (List.mem_singleton.2 rfl)⟩⟩
  · have shows' := does.shows shows raises
    refine ⟨numbers, ⟨raised, shows'⟩, fun other mem => ?_, fun up => ?_⟩
    · rcases List.mem_append.1 mem with mem | mem
      · exact does.shows (h.seen other mem) raises
      · cases List.mem_singleton.1 mem
        obtain ⟨rfl, rfl⟩ := (Session.does_isRaised shows).1 does
        exact shows
    · obtain ⟨other, mem⟩ := h.raised (shows'.eq up ▸ shows)
      exact ⟨other, List.mem_append_left _ mem⟩

/-- What the contracts of all sources amount to in the end. -/
structure Sound (files : List Path) (outcomes : List Outcome) (w : World) : Prop where
  sources : outcomes.map Outcome.source = files
  blamed : ∀ o ∈ outcomes, o.status = .skipped → ∃ o' ∈ outcomes, o'.status.isFailed = true
  untouched : ∀ i o, outcomes[i]? = some o → o.status = .skipped →
    ∀ e ∈ w.past i, e.action.usesFiles = false

theorem sound_of_contracts {options : BuildOptions} {failed : Alarm} {files : List Path}
    {outcomes : List Outcome} {w : World} (watched : Watched failed files.length w)
    (length : outcomes.length = files.length)
    (delivers : ∀ (i : Nat) (file : Path) (o : Outcome), files[i]? = some file →
      outcomes[i]? = some o → (sourceJob options failed file).delivers (w.past i) o) :
    Sound files outcomes w := by
  have file_at {i : Nat} {o : Outcome} (eq : outcomes[i]? = some o) :
      ∃ file, files[i]? = some file ∧ (sourceJob options failed file).delivers (w.past i) o := by
    have bound : i < files.length := length ▸ (List.getElem?_eq_some_iff.1 eq).1
    exact ⟨_, List.getElem?_eq_getElem bound, delivers i _ o (List.getElem?_eq_getElem bound) eq⟩
  have past_of_skipped {i : Nat} {o : Outcome} (eq : outcomes[i]? = some o)
      (skipped : o.status = .skipped) : w.past i = [⟨.isRaised failed, true⟩] := by
    obtain ⟨file, -, -, ⟨-, past, -⟩ | ⟨settled, -⟩⟩ := file_at eq
    · exact past
    · exact absurd skipped settled.ne_skipped
  refine ⟨?_, fun o mem skipped => ?_, fun i o eq skipped => ?_⟩
  · have sources := map_eq_map length fun i o file eq file_eq => (delivers i file o file_eq eq).1
    exact sources.trans (List.map_id' files)
  · obtain ⟨i, eq⟩ := List.mem_iff_getElem?.1 mem
    have seen : (i, ⟨.isRaised failed, true⟩) ∈ w.log :=
      World.mem_past.1 (by simp [past_of_skipped eq skipped])
    obtain ⟨j, raised⟩ := watched.raised (watched.seen i seen)
    have bound : j < outcomes.length := length ▸ watched.numbers j _ raised
    have eq' := List.getElem?_eq_getElem bound
    refine ⟨outcomes[j], List.getElem_mem bound, ?_⟩
    obtain ⟨file, -, -, ⟨-, past, -⟩ | ⟨-, failed⟩⟩ := file_at eq'
    · have raised := World.mem_past.2 raised
      simp [past] at raised
    · exact failed (World.mem_past.2 raised)
  · rw [past_of_skipped eq skipped]
    simp [Action.usesFiles]

theorem ends_sound (colours : Bool) (options : BuildOptions) (files : List Path) {failed : Alarm}
    {s : Session} (shows : s.Shows failed false) :
    (Pool.start (options.workers files.length) (files.map (buildOne colours options failed))).Ends
      (fun results w => Sound files (inOrder files.length results) w) { session := s } := by
  have unwatched : Watched failed files.length { session := s } :=
    ⟨by simp, ⟨false, shows⟩, by simp, fun up => absurd (shows.eq up) Bool.false_ne_true⟩
  have ends := ends_jobs colours options failed files
    (fun h watched _ does => watched.after (List.getElem?_eq_some_iff.1 h).1 does) unwatched
  exact ends.mono fun results w h => sound_of_contracts h.1 h.2.1 h.2.2

/-! ## A single worker -/

/-- What a single worker makes of sources, if it begins with the given tree, or after a failure. -/
def Status.inTurn (raised : Bool) (files : List Path) (tree : FileTree) : List Status :=
  if raised then List.replicate files.length .skipped
  else untilFailure ((compileAll files tree).1.map ofResult)

theorem length_compileAll (files : List Path) (tree : FileTree) :
    (compileAll files tree).1.length = files.length := by
  induction files generalizing tree with
  | nil => rfl
  | cons file files ih => rw [compileAll, List.length_cons, List.length_cons, ih]

theorem Status.length_inTurn (raised : Bool) (files : List Path) (tree : FileTree) :
    (inTurn raised files tree).length = files.length := by
  cases raised with
  | true => exact List.length_replicate
  | false => exact (length_untilFailure _).trans (by rw [List.length_map, length_compileAll])

theorem Status.inTurn_cons (file : Path) (files : List Path) (tree : FileTree) :
    inTurn false (file :: files) tree = ofResult (compileIn file tree).1 ::
      inTurn (!(compileIn file tree).1.isOk) files (compileIn file tree).2 := by
  simp [inTurn, compileAll, untilFailure, isFailed_ofResult, length_compileAll]

theorem ends_inTurn {colours raised : Bool} {options : BuildOptions} {failed : Alarm}
    (failFast : options.failFast = true) (files : List Path) (past : List Outcome) (w : World)
    (shows : w.session.Shows failed raised) :
    Pool.Ends
      (fun results _ => ∃ outcomes : List Outcome, results = outcomes.zipIdx.map Prod.swap ∧
        outcomes.map Outcome.status =
          past.map Outcome.status ++ Status.inTurn raised files w.session.tree)
      ⟨((files.map (buildOne colours options failed)).zipIdx past.length).map Prod.swap, [none],
        past.zipIdx.map Prod.swap⟩ w := by
  induction files generalizing past w raised with
  | nil =>
    have none : Status.inTurn raised [] w.session.tree = [] := by
      cases raised <;> rfl
    exact Pool.ends_nil ⟨past, rfl, by rw [none, List.append_nil]⟩
  | cons file files ih =>
    apply Pool.ends_cons
    -- After one more outcome, the rest goes on from the world that it leaves behind.
    have next (o : Outcome) (w' : World) (raised' : Bool) (shows' : w'.session.Shows failed raised')
        (h : Status.inTurn raised (file :: files) w.session.tree =
          o.status :: Status.inTurn raised' files w'.session.tree) :
        Pool.Ends
          (fun results _ => ∃ outcomes : List Outcome, results = outcomes.zipIdx.map Prod.swap ∧
            outcomes.map Outcome.status = past.map Outcome.status ++
              Status.inTurn raised (file :: files) w.session.tree)
          ⟨((files.map (buildOne colours options failed)).zipIdx (past.length + 1)).map Prod.swap,
            [none], past.zipIdx.map Prod.swap ++ [(past.length, o)]⟩ w' := by
      simpa [h, List.zipIdx_append] using ih (past ++ [o]) w' shows'
    cases raised with
    | true =>
      apply endsAlone_buildOne_of_raised shows failFast rfl
      intro log
      exact next _ _ true shows (by simp [Status.inTurn, List.replicate_succ])
    | false =>
      apply endsAlone_buildOne shows failFast rfl
      intro duration s log tree shows'
      exact next _ ⟨s, log⟩ _ shows' (by rw [Status.inTurn_cons, tree])

/-- With a single worker, the sources are compiled in turn until one fails. -/
theorem ends_single {colours : Bool} {options : BuildOptions} {failed : Alarm}
    (failFast : options.failFast = true) {files : List Path} {s : Session}
    (shows : s.Shows failed false) (one : options.workers files.length = 1) :
    (Pool.start (options.workers files.length) (files.map (buildOne colours options failed))).Ends
      (fun results _ => (inOrder files.length results).map Outcome.status =
        Status.inTurn false files s.tree) { session := s } := by
  rw [one]
  refine (ends_inTurn failFast files [] { session := s } shows).mono ?_
  rintro results w ⟨outcomes, rfl, statuses⟩
  rw [List.map_nil, List.nil_append] at statuses
  have length : outcomes.length = files.length := by
    rw [← List.length_map (f := Outcome.status), statuses, Status.length_inTurn]
  rw [← length, Pool.inOrder_zipIdx, statuses]

/-- With fail-fast, under every schedule, there is one outcome for each file, in order; if anything
is skipped, something failed, and the job of a skipped file touches no file; the counts add up, and
only a build of nothing but compiled files is a success. A single worker comes to the same ends as
compiling one file after the other, up to the first failure, and skips the rest. -/
theorem failFast_under_every_schedule (colours : Bool) (options : BuildOptions) (files : List Path)
    (s : Session) (failFast : options.failFast = true) :
    (build colours options files : Thread Report).Ends (fun report w =>
      report.outcomes.map Outcome.source = files ∧
      (∀ o ∈ report.outcomes, o.status = .skipped →
        ∃ o' ∈ report.outcomes, o'.status.isFailed = true) ∧
      (∀ i o, report.outcomes[i]? = some o → o.status = .skipped →
        ∀ e ∈ w.past i, e.action.usesFiles = false) ∧
      report.compiled + report.failed + report.skipped = files.length ∧
      (report.isSuccess = true ↔ ∀ o ∈ report.outcomes, o.status.isCompiled = true) ∧
      (options.workers files.length = 1 → report.outcomes.map Outcome.status =
        Status.untilFailure
          (((files.mapM compileFile : StateM Session _) s).1.map Status.ofResult)))
      { session := s } := by
  rw [mapM_compileFile]
  apply ends_build
  · rintro rfl
    exact ⟨rfl, by simp, by simp, rfl, by simp [Report.isSuccess_iff], fun _ => rfl⟩
  intro failed s' tree shows
  have single :
      (Pool.start (options.workers files.length)
        (files.map (buildOne colours options failed))).Ends
      (fun results _ => options.workers files.length = 1 →
        (inOrder files.length results).map Outcome.status = Status.inTurn false files s'.tree)
      { session := s' } := by
    by_cases one : options.workers files.length = 1
    · exact (ends_single failFast shows one).mono fun _ _ statuses _ => statuses
    · exact (ends_sound colours options files shows).mono fun _ _ _ h => absurd h one
  refine ((ends_sound colours options files shows).and single).mono ?_
  rintro results w ⟨sound, statuses⟩ elapsed
  refine ⟨sound.sources, sound.blamed, sound.untouched, ?_, Report.isSuccess_iff _, fun one => ?_⟩
  · exact (Report.counts_add_up _).trans (by simpa using congrArg List.length sound.sources)
  · rw [statuses one, tree]
    rfl

/-- A single worker finds the first of two files missing and skips the second. -/
theorem second_missing_file_skipped :
    (build false { jobs := 1, failFast := true } [⟨["a.jack"]⟩, ⟨["b.jack"]⟩] : Thread Report).Ends
      (fun report _ => report.outcomes.map Outcome.status =
        [.failed (.system .notFound), .skipped]) { session := {} } := by
  have ends := failFast_under_every_schedule false { jobs := 1, failFast := true }
    [⟨["a.jack"]⟩, ⟨["b.jack"]⟩] {} rfl
  refine ends.mono fun report w h => (h.2.2.2.2.2 (by decide)).trans ?_
  decide +kernel

end Jack
