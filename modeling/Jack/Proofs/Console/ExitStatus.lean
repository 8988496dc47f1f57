import Jack.Console.Program
import Jack.Proofs.Console.Arguments
import Jack.Proofs.Console.Sources
import Jack.Proofs.Schedules.FailFast

/-!
# What the exit status says

The status of the program says what became of the files: nothing was touched if the arguments made
no sense or asked for help, and otherwise success means that every source of the target compiled and
its code was written. Under every schedule, and whatever the options are, only code is written, and
only of sources that compile.
-/

namespace Jack

open FileTree

/-! ## Running threads -/

section Thread

variable {α β : Type} {w : World}

theorem Thread.ends_bind {t : Thread α} {f : α → Thread β} {Q : β → World → Prop}
    (h : t.Ends (fun a => (f a).Ends Q) w) : (t >>= f).Ends Q w := by
  induction t generalizing w with
  | done result => exact h
  | act action next ih => exact fun answer s does => ih answer (h answer s does)
  | fork workers jobs job next _ ih => exact Pool.Ends.mono h fun results w' => ih _

theorem ends_prints {Q : Unit → World → Prop} {lines : List (Stream × String)}
    (h : ∀ s : Session, s.tree = w.session.tree → Q () { w with session := s }) :
    (lines.forM fun (stream, line) => Host.print stream line : Thread Unit).Ends Q w := by
  induction lines generalizing w with
  | nil => exact h _ rfl
  | cons line lines ih =>
    intro _ s does
    exact ih fun s' tree => h s' (tree.trans (does.tree_eq (by simp)))

theorem ends_complain {Q : Nat → World → Prop} {terminal : Terminal} {message : String}
    (h : ∀ s : Session, s.tree = w.session.tree → Q 1 { w with session := s }) :
    (complain terminal message : Thread Nat).Ends Q w :=
  fun _ s does => h s (does.tree_eq (by simp))

end Thread

section Look

variable {s s' : Session} {p : Path}

theorem Session.does_look {answer : Except Fault EntryKind} :
    s.Does ⟨.look p, answer⟩ s' ↔
      answer = (s.tree.find p).map (fun found => found.2.kind) ∧ s' = s :=
  does_iff (by simp) rfl

theorem Session.does_list {answer : Except Fault (List (String × EntryKind))} :
    s.Does ⟨.list p, answer⟩ s' ↔
      answer = (s.tree.list p).map (List.map fun child => (child.1, child.2.kind)) ∧ s' = s :=
  does_iff (by simp) rfl

end Look

theorem ends_findSources {target : Path} {w : World}
    {Q : Except TargetError (List Path) → World → Prop} (h : Q (w.session.tree.collect target) w) :
    (findSources target : Thread _).Ends Q w := by
  intro answer s does
  obtain ⟨rfl, rfl⟩ := Session.does_look.1 does
  cases found : w.session.tree.find target with
  | error fault =>
    intro answer s does
    obtain ⟨rfl, rfl⟩ := Session.does_list.1 does
    rw [collect_of_error found] at h
    rw [FileTree.list, found]
    exact h
  | ok there =>
    obtain ⟨place, entry⟩ := there
    cases entry with
    | file bytes =>
      rw [collect_of_file found] at h
      exact h
    | directory =>
      intro answer s does
      obtain ⟨rfl, rfl⟩ := Session.does_list.1 does
      rw [collect_of_directory found] at h
      rw [list_eq_ok found]
      exact h

/-! ## Builds with any options -/

theorem isCompiled_compileIn {t : FileTree} {source : Path} :
    (Status.ofResult (compileIn source t).1).isCompiled = true ↔
      ∃ place code, Lands t source place code := by
  cases coded : codeFor (t.read source) with
  | error e =>
    rw [compileIn_of_error coded]
    refine iff_of_false Bool.false_ne_true ?_
    rintro ⟨place, code, lands⟩
    cases coded.symm.trans lands.code
  | ok code =>
    cases put : t.write source.output code with
    | error fault =>
      rw [compileIn_of_refused coded put]
      refine iff_of_false Bool.false_ne_true ?_
      rintro ⟨place, code', lands⟩
      exact not_lands coded put place code' lands
    | ok t' =>
      rw [compileIn_of_written coded put]
      obtain ⟨place, lands⟩ := exists_lands coded put
      exact iff_of_true rfl ⟨place, code, lands⟩

section Outcomes

variable {t : FileTree} {options : BuildOptions} {failed : Alarm} {sources : List Path}
  {outcomes : List Outcome} {w : World} {source : Path} {i : Nat} {o : Outcome}
  (steady : Steady t sources w) (length : outcomes.length = sources.length)
  (delivers : ∀ (i : Nat) (source : Path) (o : Outcome), sources[i]? = some source →
    outcomes[i]? = some o → (sourceJob options failed source).delivers (w.past i) o)
include steady delivers

/-- A source that was not skipped came to the end that it would have come to at first. -/
theorem isCompiled_iff_of_steady (own : sources[i]? = some source) (eq : outcomes[i]? = some o)
    (ran : o.status ≠ .skipped) :
    (o.status.isCompiled = true ↔ ∃ place code, Lands t source place code) ∧
      ∀ place code, Lands t source place code → Wrote sources w source := by
  obtain ⟨-, ⟨-, -, skipped⟩ | ⟨settled, -⟩⟩ := delivers i source o own eq
  · exact absurd skipped ran
  · obtain ⟨status, wrote⟩ := steady.settled settled
    rw [status, isCompiled_compileIn]
    exact ⟨Iff.rfl, fun place code lands => ⟨i, code, own, wrote place code lands⟩⟩

include length

/-- If all outcomes are good, all code has landed. -/
theorem lands_of_isCompiled (all : ∀ o ∈ outcomes, o.status.isCompiled = true)
    (mem : source ∈ sources) :
    (∃ place code, Lands t source place code) ∧ Wrote sources w source := by
  obtain ⟨i, own⟩ := List.mem_iff_getElem?.1 mem
  have bound := length ▸ (List.getElem?_eq_some_iff.1 own).1
  have compiled := all _ (List.getElem_mem bound)
  have ran : outcomes[i].status ≠ .skipped := by
    intro skipped
    rw [skipped] at compiled
    cases compiled
  obtain ⟨iff, wrote⟩ :=
    isCompiled_iff_of_steady steady delivers own (List.getElem?_eq_getElem bound) ran
  obtain ⟨place, code, lands⟩ := iff.1 compiled
  exact ⟨⟨place, code, lands⟩, wrote place code lands⟩

/-- If all code can land, nothing fails, so nothing is skipped either. -/
theorem isCompiled_of_lands (sound : Sound sources outcomes w)
    (lands : ∀ source ∈ sources, ∃ place code, Lands t source place code) (mem : o ∈ outcomes) :
    o.status.isCompiled = true := by
  have came (o : Outcome) (mem : o ∈ outcomes) (ran : o.status ≠ .skipped) :
      o.status.isCompiled = true := by
    obtain ⟨i, eq⟩ := List.mem_iff_getElem?.1 mem
    have bound := length ▸ (List.getElem?_eq_some_iff.1 eq).1
    have own := List.getElem?_eq_getElem bound
    exact (isCompiled_iff_of_steady steady delivers own eq ran).1.2
      (lands _ (List.getElem_mem bound))
  refine came o mem fun skipped => ?_
  obtain ⟨o', mem', failed⟩ := sound.blamed o mem skipped
  have ran : o'.status ≠ .skipped := by
    intro skipped
    rw [skipped] at failed
    cases failed
  have compiled := came o' mem' ran
  cases status : o'.status <;> simp [status, Status.isFailed, Status.isCompiled] at failed compiled

end Outcomes

/-- Under every schedule, a build succeeds exactly if the code of all sources can land, and it
changes nothing but where code lands. -/
theorem ends_build_apart (colours : Bool) (options : BuildOptions) {sources : List Path}
    {s : Session} (apart : Apart s.tree sources) :
    (build colours options sources : Thread Report).Ends (fun report w =>
      (report.isSuccess = true ↔ ∀ source ∈ sources, ∃ place code, Lands s.tree source place code) ∧
      ∃ done : Path → Prop, (∀ p, done p → p ∈ sources) ∧
        (report.isSuccess = true → ∀ p ∈ sources, done p) ∧ Overlay s.tree w.session.tree done)
      { session := s } := by
  apply ends_build
  · rintro rfl
    have success : Report.isSuccess {} = true := rfl
    exact ⟨by simp [success], _, fun _ h => h.elim, by simp, Overlay.refl s.tree⟩
  intro failed s' tree shows
  have ends := (ends_jobs_steady colours options failed tree apart).and
    (ends_sound colours options sources shows)
  refine ends.mono fun results w h elapsed => ?_
  obtain ⟨⟨steady, length, delivers⟩, sound⟩ := h
  rw [Report.isSuccess_iff]
  refine ⟨⟨fun all source mem => ?_, fun lands o mem => ?_⟩, Wrote sources w, Steady.mem_of_wrote,
    fun all source mem => ?_, steady.overlay⟩
  · exact (lands_of_isCompiled steady length delivers all mem).1
  · exact isCompiled_of_lands steady length delivers sound lands mem
  · exact (lands_of_isCompiled steady length delivers all mem).2

/-! ## The truth about the files -/

/-- What an exit status says about a target, given the files before and after. -/
structure Truthful (before : FileTree) (target : Path) (status : Nat) (after : FileTree) :
    Prop where
  known : status = 0 ∨ status = 1
  /-- Success means that the target exists and stands for sources that all compile, and whose code
  can be written. -/
  success : status = 0 ↔ (∃ found, before.find target = .ok found) ∧
    ∃ sources, before.collect target = .ok sources ∧ ∀ source ∈ sources, ∃ vm t',
      before.Compiles source vm ∧ before.write source.output vm.toUTF8 = .ok t'
  /-- After success, each `X.jack` has its code in `X.vm`. -/
  written : status = 0 → ∀ sources, before.collect target = .ok sources → ∀ source ∈ sources,
    ∃ output vm, source.Beside output ∧ before.Compiles source vm ∧
      after.read output = .ok vm.toUTF8
  /-- Each change is the code of an `X.jack` in its `X.vm`. -/
  changed : ∀ place, after.get? place ≠ before.get? place → ∃ sources,
    before.collect target = .ok sources ∧ ∃ source ∈ sources, ∃ output vm, source.Beside output ∧
      before.Compiles source vm ∧ before.locate output = .ok place ∧
      after.get? place = some (.file vm.toUTF8)
  /-- An `X.jack` that does not compile leaves its `X.vm` as it was. -/
  untouched : ∀ sources, before.collect target = .ok sources → ∀ source ∈ sources,
    (∀ vm, ¬ before.Compiles source vm) → ∀ output, source.Beside output →
      after.find output = before.find output
  home : after.home = before.home

section Truthful

variable {before after : FileTree} {target : Path}

/-- A target that stands for nothing is a failure, which changes nothing. -/
theorem truthful_of_refused (refused : ∀ sources, before.collect target ≠ .ok sources) :
    Truthful before target 1 before where
  known := .inr rfl
  success := by
    refine iff_of_false Nat.one_ne_zero ?_
    rintro ⟨-, sources, collected, -⟩
    exact refused sources collected
  written := fun h => absurd h Nat.one_ne_zero
  changed := fun place h => absurd rfl h
  untouched := fun _ _ _ _ _ _ _ => rfl
  home := rfl

section Overlay

variable {start directory : List String} {sources : List Path} {done : Path → Prop}
  (gathered : Gathered before start directory sources) (overlay : Overlay before after done)
include gathered overlay

/-- Paths of names in the directory of the sources lead to the same places as before. -/
theorem locate_of_beside {source output : Path} (mem : source ∈ sources)
    (beside : source.Beside output) : after.locate output = before.locate output := by
  obtain ⟨stem, -, rfl⟩ := gathered.exists_stem mem beside
  rw [(gathered.same overlay.sameDirectories).locate_concat, gathered.locate_concat]

variable (nested : before.Nested) (sub : ∀ p, done p → p ∈ sources)
include nested

/-- Code that has landed can be read where it belongs. -/
theorem read_of_lands {source : Path} {place : List String} {code : ByteArray}
    (mem : source ∈ sources) (finished : done source) (lands : Lands before source place code) :
    ∃ output vm, source.Beside output ∧ before.Compiles source vm ∧
      after.read output = .ok vm.toUTF8 := by
  obtain ⟨vm, compiles, rfl⟩ := lands.compiles
  have beside := gathered.beside_output nested mem lands
  have located := (locate_of_beside gathered overlay mem beside).trans lands.located
  exact ⟨source.output, vm, beside, compiles,
    read_of_file located (overlay.written source place _ finished lands)⟩

include sub

/-- What has changed is code. -/
theorem code_of_changed {place : List String} (h : after.get? place ≠ before.get? place) :
    ∃ source ∈ sources, ∃ output vm, source.Beside output ∧ before.Compiles source vm ∧
      before.locate output = .ok place ∧ after.get? place = some (.file vm.toUTF8) := by
  by_contra none
  refine h (overlay.kept place fun source code finished lands => none ?_)
  have mem := sub source finished
  obtain ⟨vm, compiles, rfl⟩ := lands.compiles
  exact ⟨source, mem, source.output, vm, gathered.beside_output nested mem lands, compiles,
    lands.located, overlay.written source place _ finished lands⟩

theorem find_of_failed {source output : Path} (mem : source ∈ sources)
    (failed : ∀ vm, ¬ before.Compiles source vm) (beside : source.Beside output) :
    after.find output = before.find output := by
  apply find_congr (locate_of_beside gathered overlay mem beside)
  intro place located
  by_contra h
  obtain ⟨source', mem', output', vm, beside', compiles, located', -⟩ :=
    code_of_changed gathered overlay nested sub h
  obtain rfl := gathered.eq_of_beside mem mem' beside beside' located located'
  exact failed vm compiles

end Overlay

theorem truthful_of_overlay {sources : List Path} {status : Nat} {done : Path → Prop}
    (nested : before.Nested) (collected : before.collect target = .ok sources)
    (known : status = 0 ∨ status = 1)
    (success : status = 0 ↔ ∀ source ∈ sources, ∃ place code, Lands before source place code)
    (sub : ∀ p, done p → p ∈ sources) (all : status = 0 → ∀ p ∈ sources, done p)
    (overlay : Overlay before after done) : Truthful before target status after := by
  obtain ⟨start, directory, gathered⟩ := gathered_of_collect collected
  have only {sources' : List Path} (h : before.collect target = .ok sources') :
      sources' = sources := Except.ok.inj (h.symm.trans collected)
  refine ⟨known, success.trans ⟨fun lands => ?_, ?_⟩, ?_, ?_, ?_, overlay.home⟩
  · exact ⟨exists_found collected, sources, collected,
      fun source mem => exists_lands_iff.1 (lands source mem)⟩
  · rintro ⟨-, sources', collected', written⟩ source mem
    obtain rfl := only collected'
    exact exists_lands_iff.2 (written source mem)
  · intro zero sources' collected' source mem
    obtain rfl := only collected'
    obtain ⟨place, code, lands⟩ := success.1 zero source mem
    exact read_of_lands gathered overlay nested mem (all zero source mem) lands
  · exact fun place h =>
      ⟨sources, collected, code_of_changed gathered overlay nested sub h⟩
  · intro sources' collected' source mem failed output beside
    obtain rfl := only collected'
    exact find_of_failed gathered overlay nested sub mem failed beside

end Truthful

/-! ## The program -/

theorem ends_buildTarget (terminal : Terminal) (target : Path) (options : BuildOptions)
    {tree : FileTree} (nested : tree.Nested) :
    (buildTarget terminal target options : Thread Nat).Ends
      (fun status w => Truthful tree target status w.session.tree) { session := { tree } } := by
  have refused (none : ∀ sources, tree.collect target ≠ .ok sources) {message : String} :
      (complain terminal message : Thread Nat).Ends
        (fun status w => Truthful tree target status w.session.tree) { session := { tree } } := by
    refine ends_complain fun s same => ?_
    rw [same]
    exact truthful_of_refused none
  intro answer s does
  obtain ⟨rfl, rfl⟩ := Session.does_look.1 does
  cases found : tree.find target with
  | error fault =>
    refine refused fun sources collected => ?_
    cases (collect_of_error found).symm.trans collected
  | ok there =>
    refine Thread.ends_bind (t := findSources target) (ends_findSources ?_)
    cases collected : tree.collect target with
    | error e => exact refused fun sources h => by cases collected.symm.trans h
    | ok sources =>
      cases sources with
      | nil =>
        intro _ s does
        have same : s.tree = tree := does.tree_eq (by simp)
        change Truthful tree target 0 s.tree
        rw [same]
        exact truthful_of_overlay nested collected (.inl rfl) (by simp) (fun _ h => h.elim)
          (by simp) (Overlay.refl tree)
      | cons source more =>
        obtain ⟨start, directory, gathered⟩ := gathered_of_collect collected
        have built := ends_build_apart terminal.colours options (s := { tree }) gathered.apart
        refine Thread.ends_bind (built.mono ?_)
        rintro report w ⟨success, done, sub, all, overlay⟩
        refine Thread.ends_bind (ends_prints fun s same => ?_)
        change Truthful tree target (if report.isSuccess = true then 0 else 1) s.tree
        rw [same]
        have zero : (if report.isSuccess = true then 0 else 1) = 0 ↔ report.isSuccess = true := by
          split <;> simp_all
        refine truthful_of_overlay nested collected ?_ (zero.trans success) sub
          (fun h => all (zero.1 h)) overlay
        split <;> simp

/-- The exit status tells the truth. All arguments are misused, ask for help or name a target. Under
every schedule, the status is 64 exactly if they are misused, and 0 if they ask for help, and then
no file has changed. If they name a target, the status and the files are as told. -/
theorem exit_status_tells_truth (terminal : Terminal) (args : List String) {tree : FileTree}
    (nested : tree.Nested) :
    (Request.Misused args ∨ Request.AsksForHelp args ∨ ∃ target, Request.Names args target) ∧
      (runProgram terminal args : Thread Nat).Ends (fun status w =>
        (status = 64 ↔ Request.Misused args) ∧
        (Request.AsksForHelp args → status = 0) ∧
        (Request.Misused args ∨ Request.AsksForHelp args → w.session.tree = tree) ∧
        ∀ target, Request.Names args target →
          Truthful tree (.ofString target) status w.session.tree) { session := { tree } } := by
  have verdict := Request.misused_or_help_or_names args
  refine ⟨verdict, ?_⟩
  unfold runProgram
  obtain misused | help | ⟨target, names⟩ := verdict
  · obtain ⟨e, parsed⟩ := Request.parse_of_misused terminal.processors misused
    rw [parsed]
    intro _ s does
    exact ⟨iff_of_true rfl misused, fun help => absurd misused help.not_misused,
      fun _ => does.tree_eq (by simp), fun target names => absurd misused names.not_misused⟩
  · rw [Request.parse_of_asksForHelp terminal.processors help]
    intro _ s does
    exact ⟨iff_of_false (by decide) help.not_misused, fun _ => rfl,
      fun _ => does.tree_eq (by simp), fun target names => absurd help names.not_asksForHelp⟩
  · obtain ⟨options, parsed⟩ := Request.parse_of_names terminal.processors names
    rw [parsed]
    refine (ends_buildTarget terminal (.ofString target) options nested).mono ?_
    intro status w truthful
    refine ⟨iff_of_false ?_ names.not_misused, fun help => absurd help names.not_asksForHelp,
      fun h => absurd h (not_or.2 ⟨names.not_misused, names.not_asksForHelp⟩),
      fun target' names' => ?_⟩
    · obtain rfl | rfl := truthful.known <;> decide
    · obtain ⟨options', parsed'⟩ := Request.parse_of_names terminal.processors names'
      have same := parsed.symm.trans parsed'
      simp only [Except.ok.injEq, Request.build.injEq] at same
      exact same.1 ▸ truthful

/-- A tree with one source, in the working directory. -/
def lone : FileTree where
  entries := [(["a.jack"], .file "class A\x7bfunction int f()\x7breturn 1;\x7d\x7d".toUTF8)]

theorem lone_nested : lone.Nested := by
  intro place h
  by_cases root : place = []
  · rw [root]
    rfl
  · rw [get?_of_ne_nil root] at h
    have here : place = ["a.jack"] := by
      by_contra away
      rw [lone, List.lookup_cons, beq_false_of_ne away] at h
      exact h rfl
    rw [here]
    rfl

theorem lone_compiles :
    lone.Compiles ⟨["a.jack"]⟩ "function A.f 0\npush constant 1\nreturn\n" := by
  refine ⟨"class A\x7bfunction int f()\x7breturn 1;\x7d\x7d", ?_, ?_⟩
  · decide +kernel
  · decide +kernel

theorem lone_source_built : (runProgram {} ["-j", "2", "a.jack"] : Thread Nat).Ends
    (fun status w => status = 0 ∧ w.session.tree.read ⟨["a.vm"]⟩ =
      .ok "function A.f 0\npush constant 1\nreturn\n".toUTF8) { session := { tree := lone } } := by
  have count : Request.IsCount "2" :=
    ⟨['2'], .inl rfl, by decide, List.forall_mem_singleton.2 rfl, by decide, by decide⟩
  have target : Request.IsTarget "a.jack" := by
    unfold Request.IsTarget
    decide
  have names : Request.Names ["-j", "2", "a.jack"] "a.jack" :=
    .jobs (.inr rfl) count (.target target .nil)
  refine (exit_status_tells_truth {} _ lone_nested).2.mono fun status w h => ?_
  have path : Path.ofString "a.jack" = ⟨["a.jack"]⟩ := by decide
  have truthful := path ▸ h.2.2.2 "a.jack" names
  have found : lone.find ⟨["a.jack"]⟩ = .ok (["a.jack"], .file _) := rfl
  have collected : lone.collect ⟨["a.jack"]⟩ = .ok [⟨["a.jack"]⟩] := by
    rw [collect_of_file found, if_pos (by decide)]
  have zero : status = 0 := by
    refine truthful.success.2 ⟨⟨_, found⟩, _, collected, fun source mem => ?_⟩
    obtain rfl := List.mem_singleton.1 mem
    exact ⟨_, _, lone_compiles, rfl⟩
  obtain ⟨output, vm, beside, compiles, read⟩ :=
    truthful.written zero _ collected _ (List.mem_singleton_self _)
  have named : Path.IsSourceName "a.jack" := by
    unfold Path.IsSourceName
    decide
  have output_eq : output = ⟨[] ++ [(Path.cutName "a.jack").1 ++ ".vm"]⟩ :=
    named.beside_iff.1 beside
  have stem : (Path.cutName "a.jack").1 ++ ".vm" = "a.vm" := by decide
  have same := Except.ok.inj (compiles.codeFor.symm.trans lone_compiles.codeFor)
  rw [output_eq, stem, same] at read
  exact ⟨zero, read⟩

end Jack
