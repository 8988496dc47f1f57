import Jack.Proofs.Files.Trees
import Jack.Proofs.Schedules.Job

/-!
# Builds in any order

The sources in a directory get their code in different places, and none in the place of a source.
So no job changes what another one reads or where it writes, and under every schedule a build ends
with the same files and the same outcomes as compiling the sources one after the other.
-/

namespace Jack

open FileTree

/-! ## Sources that leave each other alone -/

/-- There is code for a source in a tree, and it can be written at the given place. -/
structure Lands (t : FileTree) (source : Path) (place : List String) (code : ByteArray) : Prop where
  code : codeFor (t.read source) = .ok code
  located : t.locate source.output = .ok place
  free : t.get? place ≠ some .directory

theorem Lands.write {t : FileTree} {source : Path} {place : List String} {code : ByteArray}
    (h : Lands t source place code) :
    t.write source.output code = .ok (t.set place (.file code)) :=
  write_of_free h.located h.free code

theorem exists_lands {t t' : FileTree} {source : Path} {code : ByteArray}
    (coded : codeFor (t.read source) = .ok code) (put : t.write source.output code = .ok t') :
    ∃ place, Lands t source place code := by
  cases located : t.locate source.output with
  | error fault =>
    rw [write_of_error located] at put
    cases put
  | ok place =>
    refine ⟨place, coded, located, fun stands => ?_⟩
    rw [write_of_directory located stands] at put
    cases put

theorem not_lands {t : FileTree} {source : Path} {code : ByteArray} {fault : Fault}
    (coded : codeFor (t.read source) = .ok code)
    (put : t.write source.output code = .error fault) (place : List String) (code' : ByteArray) :
    ¬ Lands t source place code' := by
  intro lands
  obtain rfl := Except.ok.inj (coded.symm.trans lands.code)
  cases put.symm.trans lands.write

/-- No source gets its code in the place of a source, or in the same place as other code, and their
paths lead to the same places as long as only files change. -/
structure Apart (t : FileTree) (sources : List Path) : Prop where
  located : ∀ source ∈ sources, ∀ t', t.SameDirectories t' → t'.locate source = t.locate source
  outputs : ∀ source ∈ sources, ∀ code, codeFor (t.read source) = .ok code →
    ∀ t', t.SameDirectories t' → t'.locate source.output = t.locate source.output
  distinct : ∀ source ∈ sources, ∀ other ∈ sources, ∀ place code, Lands t source place code →
    t.locate other ≠ .ok place
  agree : ∀ source ∈ sources, ∀ other ∈ sources, ∀ place code code', Lands t source place code →
    Lands t other place code' → code = code'

/-- The tree `t` comes from `t₀` by writing the code of some sources. -/
structure Overlay (t₀ t : FileTree) (done : Path → Prop) : Prop where
  home : t.home = t₀.home
  written : ∀ source place code, done source → Lands t₀ source place code →
    t.get? place = some (.file code)
  kept : ∀ place, (∀ source code, done source → ¬ Lands t₀ source place code) →
    t.get? place = t₀.get? place

namespace Overlay

variable {t₀ t t' : FileTree} {sources : List Path} {source : Path} {done done' : Path → Prop}

theorem refl (t₀ : FileTree) : Overlay t₀ t₀ fun _ => False :=
  ⟨rfl, fun _ _ _ h => h.elim, fun _ _ => rfl⟩

/-- It only matters of which sources the code was written. -/
theorem congr (h : Overlay t₀ t done)
    (iff : ∀ source place code, Lands t₀ source place code → (done source ↔ done' source)) :
    Overlay t₀ t done' where
  home := h.home
  written source place code finished lands :=
    h.written source place code ((iff source place code lands).2 finished) lands
  kept place none :=
    h.kept place fun source code finished lands =>
      none source code ((iff source place code lands).1 finished) lands

theorem same (h : Overlay t₀ t done) (h' : Overlay t₀ t' done) : t.Same t' := by
  refine ⟨h.home.trans h'.home.symm, fun place => ?_⟩
  by_cases some : ∃ source code, done source ∧ Lands t₀ source place code
  · obtain ⟨source, code, finished, lands⟩ := some
    rw [h.written source place code finished lands, h'.written source place code finished lands]
  · have none : ∀ source code, done source → ¬ Lands t₀ source place code :=
      fun source code finished lands => some ⟨source, code, finished, lands⟩
    rw [h.kept place none, h'.kept place none]

theorem sameDirectories (h : Overlay t₀ t done) : t₀.SameDirectories t := by
  refine ⟨h.home, fun place => ?_⟩
  by_cases some : ∃ source code, done source ∧ Lands t₀ source place code
  · obtain ⟨source, code, finished, lands⟩ := some
    rw [h.written source place code finished lands]
    exact iff_of_false (by simp) lands.free
  · rw [h.kept place fun source code finished lands => some ⟨source, code, finished, lands⟩]

theorem read_eq (h : Overlay t₀ t done) (apart : Apart t₀ sources)
    (sub : ∀ p, done p → p ∈ sources) (mem : source ∈ sources) :
    t.read source = t₀.read source := by
  apply read_congr (apart.located source mem t h.sameDirectories)
  intro place located
  apply h.kept
  intro other code finished lands
  exact apart.distinct other (sub other finished) source mem place code lands located

theorem write_of_lands (h : Overlay t₀ t done) (apart : Apart t₀ sources) (mem : source ∈ sources)
    {place : List String} {code : ByteArray} (lands : Lands t₀ source place code) :
    t.write source.output code = .ok (t.set place (.file code)) := by
  have located := apart.outputs source mem code lands.code t h.sameDirectories
  apply write_of_free (located.trans lands.located)
  rw [ne_eq, h.sameDirectories.directory]
  exact lands.free

/-- Writing fails now if it failed at first. -/
theorem write_eq_error (h : Overlay t₀ t done) (apart : Apart t₀ sources) (mem : source ∈ sources)
    {code : ByteArray} {fault : Fault} (coded : codeFor (t₀.read source) = .ok code)
    (failed : t₀.write source.output code = .error fault) :
    t.write source.output code = .error fault := by
  have located := apart.outputs source mem code coded t h.sameDirectories
  cases eq : t₀.locate source.output with
  | error other =>
    rw [write_of_error eq] at failed
    rw [write_of_error (located.trans eq), failed]
  | ok place =>
    by_cases stands : t₀.get? place = some .directory
    · rw [write_of_directory eq stands] at failed
      rw [write_of_directory (located.trans eq) ((h.sameDirectories.directory place).2 stands),
        failed]
    · rw [write_of_free eq stands] at failed
      cases failed

theorem set (h : Overlay t₀ t done) (apart : Apart t₀ sources)
    (sub : ∀ p, done p → p ∈ sources) (mem : source ∈ sources) {place : List String}
    {code : ByteArray} (lands : Lands t₀ source place code) :
    Overlay t₀ (t.set place (.file code)) fun p => done p ∨ p = source := by
  have place_ne : place ≠ [] := by
    rintro rfl
    exact lands.free (get?_nil t₀)
  refine ⟨h.home, fun other q code' finished lands' => ?_, fun q none => ?_⟩
  · have other_mem : other ∈ sources := finished.elim (sub other) (fun eq => eq ▸ mem)
    by_cases eq : q = place
    · subst eq
      rw [get?_set_self place_ne, apart.agree source mem other other_mem q code code' lands lands']
    · rw [get?_set_of_ne eq]
      rcases finished with finished | rfl
      · exact h.written other q code' finished lands'
      · exact absurd (Except.ok.inj (lands'.located.symm.trans lands.located)) eq
  · have q_ne : q ≠ place := by
      rintro rfl
      exact none source code (.inr rfl) lands
    rw [get?_set_of_ne q_ne]
    exact h.kept q fun other code' finished => none other code' (.inl finished)

/-- Compiling one more source goes as it would have gone at first. -/
theorem compileIn (h : Overlay t₀ t done) (apart : Apart t₀ sources)
    (sub : ∀ p, done p → p ∈ sources) (mem : source ∈ sources) :
    (compileIn source t).1 = (Jack.compileIn source t₀).1 ∧
      Overlay t₀ (Jack.compileIn source t).2 fun p => done p ∨ p = source := by
  have read := h.read_eq apart sub mem
  have unchanged (none : ∀ place code, ¬ Lands t₀ source place code) :
      Overlay t₀ t fun p => done p ∨ p = source := by
    refine h.congr fun p place code lands => (or_iff_left ?_).symm
    rintro rfl
    exact none place code lands
  cases coded : codeFor (t₀.read source) with
  | error e =>
    rw [compileIn_of_error coded, compileIn_of_error (read ▸ coded)]
    exact ⟨rfl, unchanged fun place code lands => by cases coded.symm.trans lands.code⟩
  | ok code =>
    cases put : t₀.write source.output code with
    | error fault =>
      have put' := h.write_eq_error apart mem coded put
      rw [compileIn_of_refused coded put, compileIn_of_refused (read ▸ coded) put']
      exact ⟨rfl, unchanged (not_lands coded put)⟩
    | ok t₁ =>
      obtain ⟨place, lands⟩ := exists_lands coded put
      have put' := h.write_of_lands apart mem lands
      rw [compileIn_of_written coded put, compileIn_of_written (read ▸ coded) put']
      exact ⟨rfl, h.set apart sub mem lands⟩

theorem compileAll (h : Overlay t₀ t done) (apart : Apart t₀ sources)
    (sub : ∀ p, done p → p ∈ sources) {rest : List Path} (rest_sub : ∀ p ∈ rest, p ∈ sources) :
    (compileAll rest t).1 = rest.map (fun p => (Jack.compileIn p t₀).1) ∧
      Overlay t₀ (Jack.compileAll rest t).2 fun p => done p ∨ p ∈ rest := by
  induction rest generalizing t done with
  | nil => exact ⟨rfl, h.congr fun p _ _ _ => by simp⟩
  | cons source rest ih =>
    rw [List.forall_mem_cons] at rest_sub
    obtain ⟨result, next⟩ := h.compileIn apart sub rest_sub.1
    have next_sub : ∀ p, done p ∨ p = source → p ∈ sources := by
      rintro p (finished | rfl)
      · exact sub p finished
      · exact rest_sub.1
    obtain ⟨results, final⟩ := ih next next_sub rest_sub.2
    rw [Jack.compileAll, result, results, List.map_cons]
    exact ⟨rfl, final.congr fun p _ _ _ => by rw [List.mem_cons, or_assoc]⟩

end Overlay

/-! ## Any schedule -/

/-- The job of a source has written its code. -/
def Wrote (sources : List Path) (w : World) (source : Path) : Prop :=
  ∃ i code, sources[i]? = some source ∧ (i, ⟨.write source.output code, .ok ()⟩) ∈ w.log

/-- The tree has the code that the jobs have written, and each read and each write was answered as
it would have been at first. -/
structure Steady (t₀ : FileTree) (sources : List Path) (w : World) : Prop where
  overlay : Overlay t₀ w.session.tree (Wrote sources w)
  reads : ∀ i p answer, (i, ⟨.read p, answer⟩) ∈ w.log → answer = t₀.read p
  writes : ∀ i p code answer, (i, ⟨.write p code, answer⟩) ∈ w.log →
    answer = (t₀.write p code).map fun _ => ()

namespace Steady

variable {t₀ : FileTree} {sources : List Path} {options : BuildOptions} {failed : Alarm}
  {source : Path} {number : Nat} {w : World} {s : Session}

theorem mem_of_wrote (source : Path) (h : Wrote sources w source) : source ∈ sources := by
  obtain ⟨i, code, at_i, -⟩ := h
  exact List.mem_of_getElem? at_i

/-- What an event has to do with the tree, the reads and the writes. -/
theorem extend (h : Steady t₀ sources w) {e : Event}
    (overlay : Overlay t₀ s.tree fun p => Wrote sources w p ∨
      ∃ code, sources[number]? = some p ∧ e = ⟨.write p.output code, .ok ()⟩)
    (read : ∀ p answer, e = ⟨.read p, answer⟩ → answer = t₀.read p)
    (write : ∀ p code answer, e = ⟨.write p code, answer⟩ →
      answer = (t₀.write p code).map fun _ => ()) :
    Steady t₀ sources (w.after number e s) := by
  refine ⟨overlay.congr fun p _ _ _ => ?_, fun i p answer mem => ?_, fun i p code answer mem => ?_⟩
  · constructor
    · rintro (⟨i, code, at_i, mem⟩ | ⟨code, at_i, rfl⟩)
      · exact ⟨i, code, at_i, List.mem_append_left _ mem⟩
      · exact ⟨number, code, at_i, List.mem_append_right _ (List.mem_singleton.2 rfl)⟩
    · rintro ⟨i, code, at_i, mem⟩
      rcases List.mem_append.1 mem with mem | mem
      · exact .inl ⟨i, code, at_i, mem⟩
      · cases List.mem_singleton.1 mem
        exact .inr ⟨code, at_i, rfl⟩
  · rcases List.mem_append.1 mem with mem | mem
    · exact h.reads i p answer mem
    · exact read p answer (Prod.mk.inj (List.mem_singleton.1 mem)).2.symm
  · rcases List.mem_append.1 mem with mem | mem
    · exact h.writes i p code answer mem
    · exact write p code answer (Prod.mk.inj (List.mem_singleton.1 mem)).2.symm

/-- An event that writes nothing. -/
theorem extend_unwritten (h : Steady t₀ sources w) {e : Event} (tree : s.tree = w.session.tree)
    (unwritten : ∀ p code, e ≠ ⟨.write p code, .ok ()⟩)
    (read : ∀ p answer, e = ⟨.read p, answer⟩ → answer = t₀.read p)
    (write : ∀ p code answer, e = ⟨.write p code, answer⟩ →
      answer = (t₀.write p code).map fun _ => ()) :
    Steady t₀ sources (w.after number e s) := by
  refine h.extend (tree ▸ h.overlay.congr fun p _ _ _ => (or_iff_left ?_).symm) read write
  rintro ⟨code, -, eq⟩
  exact unwritten p.output code eq

theorem after {e : Event} (h : Steady t₀ sources w) (apart : Apart t₀ sources)
    (own : sources[number]? = some source)
    (allowed : (sourceJob options failed source).allows (w.past number) e.action)
    (does : w.session.Does e s) : Steady t₀ sources (w.after number e s) := by
  have mem : source ∈ sources := List.mem_of_getElem? own
  obtain ⟨action, answer⟩ := e
  cases action with
  | look p => exact allowed.elim
  | list p => exact allowed.elim
  | newAlarm => exact allowed.elim
  | read p =>
    obtain rfl : p = source := allowed
    obtain ⟨answered, rfl⟩ := Session.does_read.1 does
    refine h.extend_unwritten rfl (by simp) (fun q answer eq => ?_) (by simp)
    cases eq
    rw [answered, h.overlay.read_eq apart mem_of_wrote mem]
  | write p code =>
    obtain ⟨rfl, answer', read, coded⟩ := allowed
    rw [h.reads number source answer' (World.mem_past.1 read)] at coded
    cases put : t₀.write source.output code with
    | error fault =>
      have put' := h.overlay.write_eq_error apart mem coded put
      obtain ⟨rfl, rfl⟩ := (Session.does_write_of_error put').1 does
      refine h.extend_unwritten rfl (by simp) (by simp) (fun q code answer eq => ?_)
      cases eq
      rw [put]
      rfl
    | ok t₁ =>
      obtain ⟨place, lands⟩ := exists_lands coded put
      have put' := h.overlay.write_of_lands apart mem lands
      obtain ⟨rfl, rfl⟩ := (Session.does_write_of_ok put').1 does
      refine h.extend ?_ (by simp) (fun q code answer eq => ?_)
      · refine (h.overlay.set apart mem_of_wrote mem lands).congr fun p _ _ _ => or_congr_right ?_
        constructor
        · rintro rfl
          exact ⟨code, own, rfl⟩
        · rintro ⟨_, own', -⟩
          exact Option.some.inj (own'.symm.trans own)
      · cases eq
        rw [put]
        rfl
  | print stream text =>
    exact h.extend_unwritten (does.tree_eq (by simp)) (by simp) (by simp) (by simp)
  | now => exact h.extend_unwritten (does.tree_eq (by simp)) (by simp) (by simp) (by simp)
  | raise a => exact h.extend_unwritten (does.tree_eq (by simp)) (by simp) (by simp) (by simp)
  | isRaised a => exact h.extend_unwritten (does.tree_eq (by simp)) (by simp) (by simp) (by simp)

/-- A source comes to the same end as it would have at first, and its code is written if it can
be. -/
theorem settled (h : Steady t₀ sources w) {status : Status}
    (settled : Settled source (w.past number) status) :
    status = .ofResult (compileIn source t₀).1 ∧
      ∀ place code, Lands t₀ source place code →
        (number, ⟨.write source.output code, .ok ()⟩) ∈ w.log := by
  cases settled with
  | failed read code =>
    rw [h.reads number source _ (World.mem_past.1 read)] at code
    rw [compileIn_of_error code]
    exact ⟨rfl, fun place code' lands => by cases code.symm.trans lands.code⟩
  | written read code write =>
    rw [h.reads number source _ (World.mem_past.1 read)] at code
    have answered := h.writes number _ _ _ (World.mem_past.1 write)
    cases put : t₀.write source.output _ with
    | error fault =>
      rw [put] at answered
      rw [compileIn_of_refused code put, answered]
      exact ⟨rfl, fun place code' lands => absurd lands (not_lands code put place code')⟩
    | ok t₁ =>
      rw [put] at answered
      subst answered
      rw [compileIn_of_written code put]
      refine ⟨rfl, fun place code' lands => ?_⟩
      obtain rfl := Except.ok.inj (code.symm.trans lands.code)
      exact World.mem_past.1 write

end Steady

section Jobs

variable (colours : Bool) (options : BuildOptions) (failed : Alarm) {sources : List Path}
  {t₀ : FileTree} {s : Session} (tree : s.tree = t₀) (apart : Apart t₀ sources)
include tree apart

theorem ends_jobs_steady :
    (Pool.start (options.workers sources.length)
      (sources.map (buildOne colours options failed))).Ends
      (fun results w => Steady t₀ sources w ∧
        (inOrder sources.length results).length = sources.length ∧
        ∀ (i : Nat) (source : Path) (o : Outcome), sources[i]? = some source →
          (inOrder sources.length results)[i]? = some o →
          (sourceJob options failed source).delivers (w.past i) o) { session := s } := by
  have unbegun : Steady t₀ sources { session := s } :=
    ⟨tree ▸ (Overlay.refl s.tree).congr fun p _ _ _ => by simp [Wrote], by simp, by simp⟩
  exact ends_jobs colours options failed sources
    (fun own h allowed does => h.after apart own allowed does) unbegun

theorem ends_steady (slow : options.failFast = false) :
    (Pool.start (options.workers sources.length)
      (sources.map (buildOne colours options failed))).Ends
      (fun results w =>
        (inOrder sources.length results).map Outcome.source = sources ∧
        (inOrder sources.length results).map Outcome.status =
          (compileAll sources t₀).1.map Status.ofResult ∧
        w.session.tree.Same (compileAll sources t₀).2) { session := s } := by
  refine (ends_jobs_steady colours options failed tree apart).mono fun results w h => ?_
  obtain ⟨steady, length, delivers⟩ := h
  have settled {i : Nat} {source : Path} {o : Outcome} (own : sources[i]? = some source)
      (eq : (inOrder sources.length results)[i]? = some o) :
      o.source = source ∧ Settled source (w.past i) o.status := by
    obtain ⟨source_eq, ⟨failFast, -, -⟩ | ⟨settled, -⟩⟩ := delivers i source o own eq
    · cases slow.symm.trans failFast
    · exact ⟨source_eq, settled⟩
  obtain ⟨results_eq, final⟩ :=
    (Overlay.refl t₀).compileAll apart (fun _ h => h.elim) (fun _ h => h)
  refine ⟨?_, ?_, ?_⟩
  · have sources_eq := map_eq_map length fun i o source eq own => (settled own eq).1
    exact sources_eq.trans (List.map_id' sources)
  · rw [results_eq, List.map_map]
    exact map_eq_map length fun i o source eq own => (steady.settled (settled own eq).2).1
  · refine (steady.overlay.congr fun source place code lands => ?_).same final
    rw [false_or]
    refine ⟨Steady.mem_of_wrote source, fun mem => ?_⟩
    obtain ⟨i, own⟩ := List.mem_iff_getElem?.1 mem
    have bound := length ▸ (List.getElem?_eq_some_iff.1 own).1
    have eq := List.getElem?_eq_getElem bound
    exact ⟨i, code, own, (steady.settled (settled own eq).2).2 place code lands⟩

end Jobs

/-! ## Sources in a directory -/

/-- Sources by their names in one directory. -/
structure Gathered (t : FileTree) (start directory : List String) (sources : List Path) : Prop
    extends t.Enters start directory where
  named : ∀ source ∈ sources, source.isSource = true ∧ ∃ name, source = ⟨start ++ [name]⟩

namespace Gathered

variable {t : FileTree} {start directory : List String} {sources : List Path} {name : String}
  (h : Gathered t start directory sources)
include h

/-- Only a source with a name of its own can have code. -/
theorem isSourceName_of_coded (mem : ⟨start ++ [name]⟩ ∈ sources) {code : ByteArray}
    (coded : codeFor (t.read ⟨start ++ [name]⟩) = .ok code) : Path.IsSourceName name := by
  have read_ok {fault : Fault} : t.read ⟨start ++ [name]⟩ ≠ .error fault := by
    intro failed
    rw [failed] at coded
    cases coded
  have away : ¬ (name = "" ∨ name = ".") := by
    intro here
    cases located : t.locate ⟨start ++ [name]⟩ with
    | error fault => exact read_ok (read_of_error located)
    | ok place =>
      have place_eq : place = directory := by rw [h.place_eq located, step, if_pos here]
      exact read_ok (read_of_directory located (place_eq ▸ h.stands))
  obtain ⟨nonempty, new⟩ := not_or.1 away
  exact Path.isSourceName_of_isSource nonempty new (h.named _ mem).1

/-- Code lands in the directory of its source, or the one above. -/
theorem lands_place (mem : ⟨start ++ [name]⟩ ∈ sources) {place : List String} {code : ByteArray}
    (lands : Lands t ⟨start ++ [name]⟩ place code) :
    Path.IsSourceName name ∧ place = step directory (Path.outputName name) := by
  have named := h.isSourceName_of_coded mem lands.code
  have located := lands.located
  rw [named.output_concat] at located
  exact ⟨named, h.place_eq located⟩

theorem apart : Apart t sources where
  located source mem t' same := by
    obtain ⟨-, name, rfl⟩ := h.named source mem
    rw [(h.same same).locate_concat, h.locate_concat]
  outputs source mem code coded t' same := by
    obtain ⟨-, name, rfl⟩ := h.named source mem
    rw [(h.isSourceName_of_coded mem coded).output_concat, (h.same same).locate_concat,
      h.locate_concat]
  distinct source mem other mem' place code lands located := by
    obtain ⟨-, name, rfl⟩ := h.named source mem
    obtain ⟨isSource', name', rfl⟩ := h.named other mem'
    obtain ⟨named, place_eq⟩ := h.lands_place mem lands
    have place_eq' := h.place_eq located
    by_cases here : name' = "" ∨ name' = "."
    · rw [step, if_pos here] at place_eq'
      exact lands.free (place_eq' ▸ h.stands)
    · obtain ⟨nonempty, new⟩ := not_or.1 here
      have named' := Path.isSourceName_of_isSource nonempty new isSource'
      exact named.outputName_ne named'
        (step_injective named.outputName_ne_dots ⟨nonempty, new⟩ (place_eq.symm.trans place_eq'))
  agree source mem other mem' place code code' lands lands' := by
    obtain ⟨-, name, rfl⟩ := h.named source mem
    obtain ⟨-, name', rfl⟩ := h.named other mem'
    obtain ⟨named, place_eq⟩ := h.lands_place mem lands
    obtain ⟨named', place_eq'⟩ := h.lands_place mem' lands'
    have names := step_injective named.outputName_ne_dots named'.outputName_ne_dots
      (place_eq.symm.trans place_eq')
    obtain rfl := named.outputName_injective named' names
    exact Except.ok.inj (lands.code.symm.trans lands'.code)

end Gathered

theorem findSources_directory {s : Session} {target : Path} {directory : List String}
    (found : s.tree.find target = .ok (directory, .directory)) :
    (findSources target : StateM Session _) s =
      (.ok (sourcesIn target
        ((s.tree.children directory).map fun child => (child.1, child.2.kind))), s) := by
  have look : (Host.look target : StateM Session _) s = (.ok .directory, s) := by
    change (Except.map _ (s.tree.find target), s) = _
    rw [found]
    rfl
  have list : (Host.list target : StateM Session _) s =
      (.ok ((s.tree.children directory).map fun child => (child.1, child.2.kind)), s) := by
    change (Except.map _ (s.tree.list target), s) = _
    rw [list_eq_ok found]
    rfl
  simp only [findSources, bind, StateT.bind, look, list]
  rfl

theorem exists_name_of_mem {target source : Path} {entries : List (String × EntryKind)}
    (mem : source ∈ sourcesIn target entries) :
    source.isSource = true ∧ ∃ name ∈ entries.map Prod.fst, source = target.child name := by
  simp only [sourcesIn, List.mem_filter, List.mem_map, List.mem_mergeSort,
    List.mem_filterMap] at mem
  obtain ⟨⟨name, ⟨entry, entry_mem, file⟩, rfl⟩, isSource⟩ := mem
  refine ⟨isSource, name, ?_, rfl⟩
  split_ifs at file
  exact List.mem_map.2 ⟨entry, entry_mem, Option.some.inj file⟩

theorem nodup_sourcesIn {target : Path} (nonempty : target.text ≠ "")
    {entries : List (String × EntryKind)} (h : (entries.map Prod.fst).Nodup) :
    (sourcesIn target entries).Nodup := by
  have files : (entries.filterMap fun entry =>
      if entry.2 = .file then some entry.1 else none).Nodup := by
    apply (List.pairwise_map.1 h).filterMap
    intro a b different name eq name' eq' same
    split_ifs at eq eq'
    exact different ((Option.some.inj eq).trans (same.trans (Option.some.inj eq').symm))
  have sorted := (List.mergeSort_perm _ fun a b => decide (a ≤ b)).nodup_iff.2 files
  exact (sorted.map_on fun a _ b _ eq => Path.child_injective nonempty eq).filter _

section Directory

variable {t : FileTree} {target : Path} {directory : List String}

theorem gathered_sourcesIn (found : t.locate target = .ok directory)
    (stands : t.get? directory = some .directory) (entries : List (String × EntryKind)) :
    ∃ start, Gathered t start directory (sourcesIn target entries) := by
  obtain ⟨start, child, enters⟩ := enters_of_directory found stands
  refine ⟨start, enters, fun source mem => ?_⟩
  obtain ⟨isSource, name, -, rfl⟩ := exists_name_of_mem mem
  exact ⟨isSource, name, child name⟩

theorem apart_sourcesIn (found : t.locate target = .ok directory)
    (stands : t.get? directory = some .directory) (entries : List (String × EntryKind)) :
    Apart t (sourcesIn target entries) := by
  obtain ⟨start, gathered⟩ := gathered_sourcesIn found stands entries
  exact gathered.apart

theorem outputs_distinct (proper : t.Proper) (nonempty : target.text ≠ "")
    {entries : List (String × EntryKind)}
    (names : entries.map Prod.fst = (t.children directory).map Prod.fst) :
    ((sourcesIn target entries).map Path.output).Nodup ∧
      ∀ source ∈ sourcesIn target entries, ∀ other ∈ sourcesIn target entries,
        source.output ≠ other := by
  have name_of {source : Path} (mem : source ∈ sourcesIn target entries) :
      ∃ name, Path.IsSourceName name ∧ source = target.child name := by
    obtain ⟨isSource, name, name_mem, rfl⟩ := exists_name_of_mem mem
    obtain ⟨name_ne, new⟩ := proper.name_ne (names ▸ name_mem)
    exact ⟨name, Path.isSourceName_of_isSource_child nonempty name_ne new isSource, rfl⟩
  have nodup : (sourcesIn target entries).Nodup :=
    nodup_sourcesIn nonempty (names ▸ proper.nodup_children directory)
  refine ⟨nodup.map_on fun source mem other mem' eq => ?_, fun source mem other mem' eq => ?_⟩
  · obtain ⟨name, named, rfl⟩ := name_of mem
    obtain ⟨name', named', rfl⟩ := name_of mem'
    rw [Path.output_child nonempty named, Path.output_child nonempty named'] at eq
    rw [named.outputName_injective named' (Path.child_injective nonempty eq)]
  · obtain ⟨name, named, rfl⟩ := name_of mem
    obtain ⟨name', named', rfl⟩ := name_of mem'
    rw [Path.output_child nonempty named] at eq
    exact named.outputName_ne named' (Path.child_injective nonempty eq)

end Directory

/-- Under every schedule, a build of the sources in a directory ends with one outcome for each
source, in order, with the same statuses and the same files as compiling the sources one after the
other. Their code goes to paths that differ from each other and from the sources. -/
theorem build_same_under_every_schedule (colours : Bool) (options : BuildOptions) (s : Session)
    (target : Path) (directory : List String) (slow : options.failFast = false)
    (found : s.tree.find target = .ok (directory, .directory)) :
    ∃ sources, ((findSources target : StateM Session _) s).1 = .ok sources ∧
      (s.tree.Proper → (sources.map Path.output).Nodup ∧
        ∀ source ∈ sources, ∀ other ∈ sources, source.output ≠ other) ∧
      (build colours options sources : Thread Report).Ends (fun report w =>
        report.outcomes.map Outcome.source = sources ∧
        report.outcomes.map Outcome.status =
          ((sources.mapM compileFile : StateM Session _) s).1.map Status.ofResult ∧
        w.session.tree.Same ((sources.mapM compileFile : StateM Session _) s).2.tree)
        { session := s } := by
  obtain ⟨located, stands⟩ := find_eq_ok.1 found
  have nonempty : target.text ≠ "" := (locate_eq_ok.1 located).2.2.1
  refine ⟨_, congrArg Prod.fst (findSources_directory found), fun proper => ?_, ?_⟩
  · apply outputs_distinct proper nonempty
    rw [List.map_map]
    rfl
  · rw [mapM_compileFile]
    apply ends_build
    · intro none
      rw [none]
      exact ⟨rfl, rfl, rfl, fun _ => rfl⟩
    · intro failed s' tree _
      have apart := apart_sourcesIn located stands
        ((s.tree.children directory).map fun child => (child.1, child.2.kind))
      exact (ends_steady colours options failed tree apart slow).mono fun results w h elapsed => h

/-- Two sources, one of which gives up its name with its extension. -/
def awkward : Session where
  tree := { entries :=
    [(["a.jack"], .file "class A\x7b\x7d".toUTF8), (["..jack"], .file "class B\x7b\x7d".toUTF8)] }

theorem awkward_sources_in_any_order :
    (build true { jobs := 3 } [⟨[".", "..jack"]⟩, ⟨[".", "a.jack"]⟩] : Thread Report).Ends
      (fun report w => report.outcomes.map Outcome.status =
          [.failed (.system .isADirectory), .compiled ⟨[".", "a.vm"]⟩] ∧
        (w.session.tree.get? ["a.vm"]).isSome = true) { session := awkward } := by
  have found : awkward.tree.find ⟨["."]⟩ = .ok ([], .directory) := rfl
  have collected : ((findSources ⟨["."]⟩ : StateM Session _) awkward).1 =
      .ok [⟨[".", "..jack"]⟩, ⟨[".", "a.jack"]⟩] := by
    have sorted : (["a.jack", "..jack"].mergeSort fun a b => decide (a ≤ b)) =
        ["..jack", "a.jack"] := by
      simp [List.mergeSort]
    rw [findSources_directory found]
    change Except.ok (((["a.jack", "..jack"].mergeSort _).map _).filter _) = _
    rw [sorted]
    decide +kernel
  obtain ⟨sources, collected', -, ends⟩ :=
    build_same_under_every_schedule true { jobs := 3 } awkward ⟨["."]⟩ [] rfl found
  cases collected.symm.trans collected'
  refine ends.mono fun report w h =>
    ⟨h.2.1.trans ?_, (congrArg Option.isSome (h.2.2.get? _)).trans ?_⟩
  · decide +kernel
  · decide +kernel

end Jack
