import Jack.Proofs.Files.Paths
import Jack.Proofs.Schedules.Pool

/-!
# The job of one source

What a worker does for one source: it may look at the alarm of the build, reads the source and
writes its code, and raises the alarm if that fails.
-/

namespace Jack

universe u

/-- The code for what was read from a source. -/
def codeFor : Except Fault ByteArray → Except Error ByteArray
  | .error fault => .error (.system fault)
  | .ok bytes =>
    match String.fromUTF8? bytes with
    | none => .error (.system .notText)
    | some text => compileBytes text

/-- The result for a source with code, after the answer to writing it. -/
def written (source : Path) : Except Fault Unit → Except Error Path
  | .ok _ => .ok source.output
  | .error fault => .error (.system fault)

/-- What became of a source that was not skipped. -/
def Status.ofResult : Except Error Path → Status
  | .ok output => .compiled output
  | .error e => .failed e

theorem Status.ofResult_ne_skipped (result : Except Error Path) : ofResult result ≠ .skipped := by
  cases result <;> simp [ofResult]

theorem Status.isFailed_ofResult (result : Except Error Path) :
    (Status.ofResult result).isFailed = !result.isOk := by
  cases result <;> rfl

variable {α β : Type} {source : Path} {failed : Alarm}

/-! ## Compiling a file -/

/-- Writes the code of a source, if there is any. -/
def putCode {m : Type → Type u} [Monad m] [Host m] (source : Path) :
    Except Error ByteArray → m (Except Error Path)
  | .error e => pure (.error e)
  | .ok code => Host.write source.output code >>= fun answer => pure (written source answer)

theorem compileFile_eq {m : Type → Type u} [Monad m] [Host m] (source : Path) :
    (compileFile source : m _) =
      Host.read source >>= fun answer => putCode source (codeFor answer) := by
  unfold compileFile
  congr 1
  funext answer
  cases answer with
  | error fault => rfl
  | ok bytes =>
    simp only [codeFor]
    cases String.fromUTF8? bytes with
    | none => rfl
    | some text =>
      simp only
      cases compileBytes text with
      | error e => rfl
      | ok code =>
        simp only [putCode]
        congr 1
        funext answer
        cases answer <;> rfl

section Session

variable {s : Session}

theorem compileFile_session :
    (compileFile source : StateM Session _) s =
      (putCode source (codeFor (s.tree.read source)) : StateM Session _) s := by
  rw [compileFile_eq]
  rfl

theorem compileFile_of_error {e : Error} (h : codeFor (s.tree.read source) = .error e) :
    (compileFile source : StateM Session _) s = (.error e, s) := by
  rw [compileFile_session, h]
  rfl

theorem compileFile_of_written {code : ByteArray} {tree : FileTree}
    (h : codeFor (s.tree.read source) = .ok code)
    (put : s.tree.write source.output code = .ok tree) :
    (compileFile source : StateM Session _) s = (.ok source.output, { s with tree }) := by
  rw [compileFile_session, h]
  simp only [putCode, bind, StateT.bind, Session.write_of_ok put]
  rfl

theorem compileFile_of_refused {code : ByteArray} {fault : Fault}
    (h : codeFor (s.tree.read source) = .ok code)
    (put : s.tree.write source.output code = .error fault) :
    (compileFile source : StateM Session _) s = (.error (.system fault), s) := by
  rw [compileFile_session, h]
  simp only [putCode, bind, StateT.bind, Session.write_of_error put]
  rfl

/-- The result of compiling a file in a tree, and the tree afterwards. -/
def compileIn (source : Path) (tree : FileTree) : Except Error Path × FileTree :=
  ((compileFile source : StateM Session _) { tree }).map id Session.tree

theorem compileIn_of_error {e : Error} {tree : FileTree}
    (h : codeFor (tree.read source) = .error e) : compileIn source tree = (.error e, tree) := by
  rw [compileIn, compileFile_of_error (s := { tree }) h]
  rfl

theorem compileIn_of_written {code : ByteArray} {tree tree' : FileTree}
    (h : codeFor (tree.read source) = .ok code) (put : tree.write source.output code = .ok tree') :
    compileIn source tree = (.ok source.output, tree') := by
  rw [compileIn, compileFile_of_written (s := { tree }) h put]
  rfl

theorem compileIn_of_refused {code : ByteArray} {tree : FileTree} {fault : Fault}
    (h : codeFor (tree.read source) = .ok code)
    (put : tree.write source.output code = .error fault) :
    compileIn source tree = (.error (.system fault), tree) := by
  rw [compileIn, compileFile_of_refused (s := { tree }) h put]
  rfl

/-- Compiling a file changes nothing but the tree, and depends on nothing else. -/
theorem compileFile_eq_compileIn (source : Path) (s : Session) :
    (compileFile source : StateM Session _) s =
      ((compileIn source s.tree).1, { s with tree := (compileIn source s.tree).2 }) := by
  cases code : codeFor (s.tree.read source) with
  | error e => rw [compileFile_of_error code, compileIn_of_error code]
  | ok bytes =>
    cases put : s.tree.write source.output bytes with
    | ok tree => rw [compileFile_of_written code put, compileIn_of_written code put]
    | error fault => rw [compileFile_of_refused code put, compileIn_of_refused code put]

end Session

namespace Thread

theorem endsAlone_bind {number : Nat} {t : Thread α} {f : α → Thread β} {Q : β → World → Prop}
    {w : World} :
    (t >>= f).EndsAlone number Q w ↔ t.EndsAlone number (fun a => (f a).EndsAlone number Q) w := by
  induction t generalizing w with
  | done result => rfl
  | act action next ih =>
    exact forall_congr' fun answer => forall_congr' fun s => forall_congr' fun _ => ih answer
  | fork => rfl

theorem meets_bind {t : Thread α} {f : α → Thread β} {c : Contract β} {past : List Event} :
    (t >>= f).Meets c past ↔ t.Meets ⟨c.allows, fun past a => (f a).Meets c past⟩ past := by
  induction t generalizing past with
  | done result => rfl
  | act action next ih => exact and_congr_right fun _ => forall_congr' fun answer => ih answer
  | fork => rfl

end Thread

/-! ## Building one source -/

/-- What is done after compiling a source. -/
def conclude (failed : Alarm) (source : Path) (started : Nat) (result : Except Error Path) :
    Thread Outcome := do
  let stopped ← Host.now
  let duration := ⟨stopped - started⟩
  match result with
  | .ok output => return { source, status := .compiled output, duration }
  | .error e => do
    Host.raise failed
    return { source, status := .failed e, duration }

/-- What is done for a source that is not skipped. -/
def compileTimed (failed : Alarm) (source : Path) : Thread Outcome := do
  let started ← Host.now
  let result ← compileFile source
  conclude failed source started result

/-- What is done once it is known whether to skip a source. -/
def buildAfter (colours : Bool) (options : BuildOptions) (failed : Alarm) (source : Path)
    (skipped : Bool) : Thread Outcome :=
  if skipped then .done { source, status := .skipped }
  else if options.verbose then
    .act (.print .out (Style.boldCyan.paint colours "Compiling" ++ " " ++ source.text ++ "\n"))
      fun _ => compileTimed failed source
  else compileTimed failed source

theorem buildOne_eq (colours : Bool) (options : BuildOptions) (failed : Alarm) (source : Path) :
    (buildOne colours options failed source : Thread Outcome) =
      if options.failFast then .act (.isRaised failed) (buildAfter colours options failed source)
      else buildAfter colours options failed source false := by
  unfold buildOne skips
  split <;> rfl

/-! ## What the job promises -/

/-- What became of a source follows from what was read, and from the answer to writing the code. -/
inductive Settled (source : Path) (past : List Event) : Status → Prop
  | failed {answer : Except Fault ByteArray} {e : Error} (read : ⟨.read source, answer⟩ ∈ past)
      (code : codeFor answer = .error e) : Settled source past (.failed e)
  | written {answer : Except Fault ByteArray} {bytes : ByteArray} {answer' : Except Fault Unit}
      (read : ⟨.read source, answer⟩ ∈ past) (code : codeFor answer = .ok bytes)
      (write : ⟨.write source.output bytes, answer'⟩ ∈ past) :
      Settled source past (.ofResult (written source answer'))

theorem Settled.append {past : List Event} {status : Status} (h : Settled source past status)
    (event : Event) : Settled source (past ++ [event]) status := by
  cases h with
  | failed read code => exact .failed (List.mem_append_left _ read) code
  | written read code write =>
    exact .written (List.mem_append_left _ read) code (List.mem_append_left _ write)

theorem Settled.ne_skipped {past : List Event} {status : Status} (h : Settled source past status) :
    status ≠ .skipped := by
  cases h with
  | failed read code => exact Status.ofResult_ne_skipped (.error _)
  | written read code write => exact Status.ofResult_ne_skipped _

/-- The contract of the job of one source. It reads no other file, and it writes nothing but the
code of what it has read. It skips the source only after seeing the alarm of the build, and raises
the alarm only if the source fails. -/
def sourceJob (options : BuildOptions) (failed : Alarm) (source : Path) : Contract Outcome where
  allows past
    | .read p => p = source
    | .write p bytes => p = source.output ∧
        ∃ answer, ⟨.read source, answer⟩ ∈ past ∧ codeFor answer = .ok bytes
    | .raise a | .isRaised a => a = failed
    | .look _ | .list _ | .newAlarm => False
    | .print _ _ | .now => True
  delivers past outcome := outcome.source = source ∧
    ((options.failFast = true ∧ past = [⟨.isRaised failed, true⟩] ∧ outcome.status = .skipped) ∨
      (Settled source past outcome.status ∧
        (⟨.raise failed, ()⟩ ∈ past → outcome.status.isFailed = true)))

theorem meets_compileFile {c : Contract (Except Error Path)} {past : List Event}
    (read : c.allows past (.read source))
    (failed : ∀ answer e, codeFor answer = .error e →
      c.delivers (past ++ [⟨.read source, answer⟩]) (.error e))
    (write : ∀ answer code, codeFor answer = .ok code →
      c.allows (past ++ [⟨.read source, answer⟩]) (.write source.output code) ∧
        ∀ answer', c.delivers
          (past ++ [⟨.read source, answer⟩] ++ [⟨.write source.output code, answer'⟩])
          (written source answer')) :
    (compileFile source : Thread _).Meets c past := by
  rw [compileFile_eq]
  refine ⟨read, fun answer => ?_⟩
  change (putCode source (codeFor answer) : Thread _).Meets c _
  cases code : codeFor answer with
  | error e => exact failed answer e code
  | ok bytes => exact write answer bytes code

theorem meets_conclude {options : BuildOptions} {past : List Event} {started : Nat}
    {result : Except Error Path} (settled : Settled source past (.ofResult result))
    (quiet : ⟨.raise failed, ()⟩ ∉ past) :
    (conclude failed source started result).Meets (sourceJob options failed source) past := by
  refine ⟨trivial, fun stopped => ?_⟩
  cases result with
  | ok output =>
    exact ⟨rfl, .inr ⟨settled.append _, fun loud => absurd loud (by simpa using quiet)⟩⟩
  | error e => exact ⟨rfl, fun _ => ⟨rfl, .inr ⟨(settled.append _).append _, fun _ => rfl⟩⟩⟩

theorem meets_compileTimed {options : BuildOptions} {past : List Event}
    (quiet : ⟨.raise failed, ()⟩ ∉ past) :
    (compileTimed failed source).Meets (sourceJob options failed source) past := by
  refine ⟨trivial, fun started => ?_⟩
  change (compileFile source >>= conclude failed source started).Meets _ _
  apply Thread.meets_bind.2
  apply meets_compileFile
  · rfl
  · intro answer e code
    apply meets_conclude
    · exact .failed (by simp) code
    · simpa using quiet
  · intro answer bytes code
    refine ⟨⟨rfl, answer, by simp, code⟩, fun answer' => ?_⟩
    apply meets_conclude
    · exact .written (by simp) code (by simp)
    · simpa using quiet

theorem meets_buildAfter {colours : Bool} {options : BuildOptions} {past : List Event}
    (quiet : ⟨.raise failed, ()⟩ ∉ past) :
    (buildAfter colours options failed source false).Meets (sourceJob options failed source)
      past := by
  rw [buildAfter, if_neg Bool.false_ne_true]
  by_cases verbose : options.verbose = true
  · rw [if_pos verbose]
    exact ⟨trivial, fun _ => meets_compileTimed (by simpa using quiet)⟩
  · rw [if_neg verbose]
    exact meets_compileTimed quiet

theorem meets_buildOne (colours : Bool) (options : BuildOptions) (failed : Alarm) (source : Path) :
    (buildOne colours options failed source : Thread Outcome).Meets
      (sourceJob options failed source) [] := by
  rw [buildOne_eq]
  by_cases failFast : options.failFast = true
  · rw [if_pos failFast]
    refine ⟨rfl, fun raised => ?_⟩
    cases raised with
    | true => exact ⟨rfl, .inl ⟨failFast, rfl, rfl⟩⟩
    | false => exact meets_buildAfter (by simp)
  · rw [if_neg failFast]
    exact meets_buildAfter (by simp)

/-! ## The job alone -/

section Alone

variable {number : Nat} {w : World} {raised : Bool} (shows : w.session.Shows failed raised)
include shows

theorem endsAlone_compileFile {Q : Except Error Path → World → Prop}
    (h : ∀ s log, s.tree = (compileIn source w.session.tree).2 →
      s.Shows failed raised → Q (compileIn source w.session.tree).1 ⟨s, log⟩) :
    (compileFile source : Thread _).EndsAlone number Q w := by
  rw [compileFile_eq]
  intro answer session does
  obtain ⟨rfl, rfl⟩ := Session.does_read.1 does
  change (putCode source (codeFor _) : Thread _).EndsAlone number Q _
  cases code : codeFor (w.session.tree.read source) with
  | error e =>
    rw [compileIn_of_error code] at h
    exact h _ _ rfl shows
  | ok bytes =>
    intro answer session does
    cases put : w.session.tree.write source.output bytes with
    | ok tree =>
      rw [compileIn_of_written code put] at h
      obtain ⟨rfl, rfl⟩ := (Session.does_write_of_ok put).1 does
      exact h _ _ rfl shows
    | error fault =>
      rw [compileIn_of_refused code put] at h
      obtain ⟨rfl, rfl⟩ := (Session.does_write_of_error put).1 does
      exact h _ _ rfl shows

theorem endsAlone_conclude {Q : Outcome → World → Prop} {started : Nat}
    {result : Except Error Path}
    (h : ∀ duration s log, s.tree = w.session.tree → s.Shows failed (raised || !result.isOk) →
      Q { source, status := .ofResult result, duration } ⟨s, log⟩) :
    (conclude failed source started result).EndsAlone number Q w := by
  intro stopped s does
  have tree : s.tree = w.session.tree := does.tree_eq (by simp)
  have shows' : s.Shows failed raised := does.shows shows (by simp)
  cases result with
  | ok output => exact h _ s _ tree (by simpa [Except.isOk, Except.toBool] using shows')
  | error e =>
    intro _ s' does
    refine h _ s' _ ((does.tree_eq (by simp)).trans tree) ?_
    simpa [Except.isOk, Except.toBool] using does.shows_raised shows'

theorem endsAlone_compileTimed {Q : Outcome → World → Prop}
    (h : ∀ duration s log, s.tree = (compileIn source w.session.tree).2 →
      s.Shows failed (raised || !(compileIn source w.session.tree).1.isOk) →
      Q { source, status := .ofResult (compileIn source w.session.tree).1, duration } ⟨s, log⟩) :
    (compileTimed failed source).EndsAlone number Q w := by
  intro started s does
  obtain rfl : s = w.session := does.state.symm
  change (compileFile source >>= conclude failed source started).EndsAlone number Q _
  apply Thread.endsAlone_bind.2
  refine endsAlone_compileFile (w := w.after number _ w.session) shows fun s log tree shows' => ?_
  apply endsAlone_conclude shows'
  intro duration s' log tree' shows''
  exact h duration s' log (tree'.trans tree) shows''

/-- Once the alarm was raised, a source is skipped if that was asked for. -/
theorem endsAlone_buildOne_of_raised {colours : Bool} {options : BuildOptions}
    {Q : Outcome → World → Prop} (failFast : options.failFast = true) (up : raised = true)
    (h : ∀ log, Q { source, status := .skipped } ⟨w.session, log⟩) :
    (buildOne colours options failed source : Thread Outcome).EndsAlone number Q w := by
  rw [buildOne_eq, if_pos failFast]
  intro answer s does
  obtain ⟨rfl, rfl⟩ := (Session.does_isRaised shows).1 does
  rw [buildAfter, if_pos up]
  exact h _

/-- Before that, it is compiled. -/
theorem endsAlone_buildOne {colours : Bool} {options : BuildOptions} {Q : Outcome → World → Prop}
    (failFast : options.failFast = true) (down : raised = false)
    (h : ∀ duration s log, s.tree = (compileIn source w.session.tree).2 →
      s.Shows failed (!(compileIn source w.session.tree).1.isOk) →
      Q { source, status := .ofResult (compileIn source w.session.tree).1, duration } ⟨s, log⟩) :
    (buildOne colours options failed source : Thread Outcome).EndsAlone number Q w := by
  subst down
  rw [buildOne_eq, if_pos failFast]
  intro answer s does
  obtain ⟨rfl, rfl⟩ := (Session.does_isRaised shows).1 does
  rw [buildAfter, if_neg Bool.false_ne_true]
  by_cases verbose : options.verbose = true
  · rw [if_pos verbose]
    intro _ s does
    have tree : s.tree = w.session.tree := does.tree_eq (by simp)
    apply endsAlone_compileTimed (does.shows shows (by simp))
    simpa only [World.after, tree, Bool.false_or] using h
  · rw [if_neg verbose]
    exact endsAlone_compileTimed (w := w.after number _ w.session) shows h

end Alone

/-! ## All sources -/

/-- The results of compiling files one after the other in a tree, and the tree afterwards. -/
def compileAll : List Path → FileTree → List (Except Error Path) × FileTree
  | [], tree => ([], tree)
  | source :: sources, tree =>
    ((compileIn source tree).1 :: (compileAll sources (compileIn source tree).2).1,
      (compileAll sources (compileIn source tree).2).2)

theorem mapM_compileFile (sources : List Path) (s : Session) :
    (sources.mapM compileFile : StateM Session _) s =
      ((compileAll sources s.tree).1, { s with tree := (compileAll sources s.tree).2 }) := by
  induction sources generalizing s with
  | nil => rfl
  | cons source sources ih =>
    simp only [List.mapM_cons, bind, StateT.bind, compileFile_eq_compileIn source s]
    simp only [ih]
    rfl

/-- A build ends as told if it does so without sources, and if all schedules of the jobs of its
sources do, with a new alarm. -/
theorem ends_build {colours : Bool} {options : BuildOptions} {sources : List Path}
    {Q : Report → World → Prop} {w : World} (empty : sources = [] → Q {} w)
    (ends : ∀ (failed : Alarm) (s : Session), s.tree = w.session.tree → s.Shows failed false →
      (Pool.start (options.workers sources.length)
        (sources.map (buildOne colours options failed))).Ends
        (fun results w => ∀ elapsed, Q { outcomes := inOrder sources.length results, elapsed } w)
        { w with session := s }) :
    (build colours options sources : Thread Report).Ends Q w := by
  unfold build
  by_cases none : sources.isEmpty = true
  · rw [if_pos none]
    exact empty (List.isEmpty_iff.1 none)
  · rw [if_neg none]
    intro started s does
    obtain rfl : s = w.session := does.state.symm
    intro failed s does
    change (Pool.start _ (List.ofFn (sources.map (buildOne colours options failed)).get)).Ends _ _
    rw [List.ofFn_get]
    refine (ends failed s (does.tree_eq (by simp)) does.shows_new).mono ?_
    intro results w' h stopped s' does
    obtain rfl : s' = w'.session := does.state.symm
    rw [List.length_map]
    exact h _

theorem map_eq_map {α β γ : Type} {l : List α} {l' : List β} {f : α → γ} {g : β → γ}
    (length : l.length = l'.length)
    (h : ∀ (i : Nat) (a : α) (b : β), l[i]? = some a → l'[i]? = some b → f a = g b) :
    l.map f = l'.map g := by
  apply List.ext_getElem
  · rw [List.length_map, List.length_map, length]
  · intro i bound bound'
    rw [List.length_map] at bound bound'
    rw [List.getElem_map, List.getElem_map]
    exact h i _ _ (List.getElem?_eq_getElem bound) (List.getElem?_eq_getElem bound')

/-- All sources get an outcome as promised, under every schedule, and the world stays as told if all
that the jobs may do keeps it so. -/
theorem ends_jobs (colours : Bool) (options : BuildOptions) (failed : Alarm) (sources : List Path)
    {G : World → Prop} {s : Session}
    (kept : ∀ {w : World} {number : Nat} {source : Path} {e : Event} {s : Session},
      sources[number]? = some source → G w →
      (sourceJob options failed source).allows (w.past number) e.action → w.session.Does e s →
      G (w.after number e s))
    (holds : G { session := s }) :
    (Pool.start (options.workers sources.length)
      (sources.map (buildOne colours options failed))).Ends
      (fun results w => G w ∧ (inOrder sources.length results).length = sources.length ∧
        ∀ (i : Nat) (source : Path) (o : Outcome), sources[i]? = some source →
          (inOrder sources.length results)[i]? = some o →
          (sourceJob options failed source).delivers (w.past i) o) { session := s } := by
  have own {i : Nat} {source : Path} (h : sources[i]? = some source) :
      sources.getD i default = source := by
    rw [List.getD_eq_getElem?_getD, h, Option.getD_some]
  have ends := Pool.ends_of_contracts (options.workers sources.length)
    (sources.map (buildOne colours options failed))
    (fun i => sourceJob options failed (sources.getD i default)) ?meets ?kept
    (Nat.le_max_left 1 _) holds
  case meets =>
    intro i t eq
    rw [List.getElem?_map] at eq
    obtain ⟨source, h, rfl⟩ := Option.map_eq_some_iff.1 eq
    rw [own h]
    exact meets_buildOne colours options failed source
  case kept =>
    intro w number e s' bound g allowed does
    rw [List.length_map] at bound
    have h := List.getElem?_eq_getElem bound
    rw [own h] at allowed
    exact kept h g allowed does
  rw [List.length_map] at ends
  refine ends.mono fun results w h => ⟨h.1, h.2.1, fun i source o source_eq eq => ?_⟩
  exact own source_eq ▸ h.2.2 i o eq

end Jack
