import Jack.Proofs.Schedules.AnyOrder
import Jack.Proofs.TwoPasses

/-!
# Sources of a target

The sources that a target stands for are all in one directory, be it a directory or a single file.
So they leave each other alone, the code of `X.jack` goes to `X.vm`, and no two of them share it.
-/

namespace Jack

open FileTree

/-! ## What can be compiled -/

/-- The text of a file compiles to `vm`. -/
def FileTree.Compiles (t : FileTree) (source : Path) (vm : String) : Prop :=
  ∃ text : String, t.read source = .ok text.toUTF8 ∧ compile text = .ok vm

/-- The bytes of the code are those of its text. -/
theorem compileBytes_eq_ok {text : String} {code : ByteArray} :
    compileBytes text = .ok code ↔ ∃ vm, compile text = .ok vm ∧ code = vm.toUTF8 := by
  have run : compileBytes text = .ok code ↔
      ∃ b : Buffer, compileInto text ({} : Buffer) = .ok () b ∧ b.bytes = code := by
    rw [compileBytes]
    cases compileInto text ({} : Buffer) <;> simp
  simp only [run, compileInto_eq_ok roomy_empty, writes_empty, compile_eq_ok]
  constructor
  · rintro ⟨b, ⟨⟨tokens, scanned, c, same, valid, rfl⟩, -⟩, rfl⟩
    exact ⟨_, ⟨tokens, scanned, c, same, valid, rfl⟩, rfl⟩
  · rintro ⟨_, ⟨tokens, scanned, c, same, valid, rfl⟩, rfl⟩
    exact ⟨_, ⟨⟨tokens, scanned, c, same, valid, rfl⟩, rfl⟩, rfl⟩

theorem codeFor_eq_ok {answer : Except Fault ByteArray} {code : ByteArray} :
    codeFor answer = .ok code ↔ ∃ vm : String,
      (∃ text : String, answer = .ok text.toUTF8 ∧ compile text = .ok vm) ∧ code = vm.toUTF8 := by
  constructor
  · intro h
    cases answer with
    | error fault => cases h
    | ok bytes =>
      rw [codeFor] at h
      cases read : String.fromUTF8? bytes with
      | none =>
        rw [read] at h
        cases h
      | some text =>
        rw [read] at h
        obtain ⟨vm, compiled, rfl⟩ := compileBytes_eq_ok.1 h
        exact ⟨vm, ⟨text, by rw [fromUTF8?_eq_some.1 read], compiled⟩, rfl⟩
  · rintro ⟨vm, ⟨text, rfl, compiled⟩, rfl⟩
    rw [codeFor, fromUTF8?_eq_some.2 rfl]
    exact compileBytes_eq_ok.2 ⟨vm, compiled, rfl⟩

/-- Code that lands is the text that the source compiles to. -/
theorem Lands.compiles {t : FileTree} {source : Path} {place : List String} {code : ByteArray}
    (h : Lands t source place code) : ∃ vm, t.Compiles source vm ∧ code = vm.toUTF8 :=
  codeFor_eq_ok.1 h.code

theorem FileTree.Compiles.codeFor {t : FileTree} {source : Path} {vm : String}
    (h : t.Compiles source vm) : codeFor (t.read source) = .ok vm.toUTF8 :=
  codeFor_eq_ok.2 ⟨vm, h, rfl⟩

/-- The code of a source lands if the source compiles and its code can be written. -/
theorem exists_lands_iff {t : FileTree} {source : Path} :
    (∃ place code, Lands t source place code) ↔
      ∃ vm t', t.Compiles source vm ∧ t.write source.output vm.toUTF8 = .ok t' := by
  constructor
  · rintro ⟨place, code, lands⟩
    obtain ⟨vm, compiles, rfl⟩ := lands.compiles
    exact ⟨vm, _, compiles, lands.write⟩
  · rintro ⟨vm, t', compiles, put⟩
    obtain ⟨place, lands⟩ := exists_lands compiles.codeFor put
    exact ⟨place, _, lands⟩

/-! ## Names in a directory -/

/-- Every entry is in a directory. -/
def FileTree.Nested (t : FileTree) : Prop :=
  ∀ place, t.get? place ≠ none → t.get? place.dropLast = some .directory

/-- The paths `X.jack` and `X.vm`, in one directory. -/
def Path.Beside (source output : Path) : Prop :=
  ∃ start stem, source = ⟨start ++ [stem ++ ".jack"]⟩ ∧ output = ⟨start ++ [stem ++ ".vm"]⟩

namespace Path.IsSourceName

variable {name : String} (h : IsSourceName name)
include h

theorem eq_stem : name = (cutName name).1 ++ ".jack" :=
  h.eq.trans (String.append_assoc ..)

theorem beside_iff {start : List String} {output : Path} :
    Beside ⟨start ++ [name]⟩ output ↔ output = ⟨start ++ [(cutName name).1 ++ ".vm"]⟩ := by
  constructor
  · rintro ⟨start', stem, source, rfl⟩
    rw [mk.injEq] at source
    obtain ⟨rfl, last⟩ := List.append_inj' source rfl
    have stems : (cutName name).1 ++ ".jack" = stem ++ ".jack" :=
      h.eq_stem.symm.trans (List.singleton_inj.1 last)
    rw [(String.append_left_inj _).1 stems]
  · rintro rfl
    exact ⟨start, _, by rw [← h.eq_stem], rfl⟩

end Path.IsSourceName

/-- A name with a suffix of two characters or more leads away from its directory. -/
theorem append_ne_dots (stem : String) {suffix : String} (long : 1 < suffix.length) :
    stem ++ suffix ≠ "" ∧ stem ++ suffix ≠ "." := by
  have longer : 1 < (stem ++ suffix).length := by
    rw [String.length_append]
    omega
  refine ⟨fun eq => ?_, fun eq => ?_⟩ <;> rw [eq] at longer <;> exact absurd longer (by decide)

namespace Gathered

variable {t : FileTree} {start directory : List String} {sources : List Path}
  (h : Gathered t start directory sources)
include h

theorem exists_stem {source output : Path} (mem : source ∈ sources)
    (beside : source.Beside output) :
    ∃ stem, source = ⟨start ++ [stem ++ ".jack"]⟩ ∧ output = ⟨start ++ [stem ++ ".vm"]⟩ := by
  obtain ⟨start', stem, rfl, rfl⟩ := beside
  obtain ⟨-, name, source⟩ := h.named _ mem
  rw [Path.mk.injEq] at source
  obtain ⟨rfl, -⟩ := List.append_inj' source rfl
  exact ⟨stem, rfl, rfl⟩

/-- If entries are in directories, code never lands in the directory above. -/
theorem beside_output (nested : t.Nested) {source : Path} (mem : source ∈ sources)
    {place : List String} {code : ByteArray} (lands : Lands t source place code) :
    source.Beside source.output := by
  obtain ⟨-, name, rfl⟩ := h.named source mem
  obtain ⟨named, place_eq⟩ := h.lands_place mem lands
  rw [named.beside_iff, named.output_concat, Path.outputName]
  by_cases dot : (Path.cutName name).1 = "."
  · rw [Path.outputName, if_pos dot, step_up] at place_eq
    have above := nested directory (by simp [h.stands])
    exact absurd (place_eq ▸ above) lands.free
  · rw [if_neg dot, String.append_assoc]
    rfl

/-- The code of different sources is at different places. -/
theorem eq_of_beside {source source' output output' : Path} (mem : source ∈ sources)
    (mem' : source' ∈ sources) (beside : source.Beside output) (beside' : source'.Beside output')
    {place : List String} (located : t.locate output = .ok place)
    (located' : t.locate output' = .ok place) : source = source' := by
  obtain ⟨stem, rfl, rfl⟩ := h.exists_stem mem beside
  obtain ⟨stem', rfl, rfl⟩ := h.exists_stem mem' beside'
  have same := (h.place_eq located).symm.trans (h.place_eq located')
  have long : 1 < (".vm" : String).length := by decide
  have outputs := step_injective (append_ne_dots stem long) (append_ne_dots stem' long) same
  rw [(String.append_left_inj _).1 outputs]

end Gathered

/-! ## Sources of a target -/

/-- The sources that a target stands for in a tree. -/
def FileTree.collect (t : FileTree) (target : Path) : Except TargetError (List Path) :=
  ((findSources target : StateM Session _) { tree := t }).1

section Collect

variable {t : FileTree} {target : Path}

theorem collect_of_file {place : List String} {bytes : ByteArray}
    (found : t.find target = .ok (place, .file bytes)) :
    t.collect target = if target.isSource then .ok [target] else .error (.notASource target) := by
  have look : (Host.look target : StateM Session _) { tree := t } = (.ok .file, { tree := t }) := by
    change (Except.map _ (t.find target), _) = _
    rw [found]
    rfl
  simp only [collect, findSources, bind, StateT.bind, look]
  rfl

theorem collect_of_directory {directory : List String}
    (found : t.find target = .ok (directory, .directory)) :
    t.collect target = .ok (sourcesIn target
      ((t.children directory).map fun child => (child.1, child.2.kind))) :=
  congrArg Prod.fst (findSources_directory (s := { tree := t }) found)

theorem collect_of_error {fault : Fault} (failed : t.find target = .error fault) :
    t.collect target = .error (.unreadable target fault) := by
  have look : (Host.look target : StateM Session _) { tree := t } =
      (.error fault, { tree := t }) := by
    change (Except.map _ (t.find target), _) = _
    rw [failed]
    rfl
  have list : (Host.list target : StateM Session _) { tree := t } =
      (.error fault, { tree := t }) := by
    change (Except.map _ (t.list target), _) = _
    rw [FileTree.list, failed]
    rfl
  simp only [collect, findSources, bind, StateT.bind, look, list]
  rfl

theorem exists_found {sources : List Path} (collected : t.collect target = .ok sources) :
    ∃ found, t.find target = .ok found := by
  cases found : t.find target with
  | error fault => cases (collect_of_error found).symm.trans collected
  | ok there => exact ⟨there, rfl⟩

theorem gathered_of_collect {sources : List Path} (collected : t.collect target = .ok sources) :
    ∃ start directory, Gathered t start directory sources := by
  obtain ⟨⟨place, entry⟩, found⟩ := exists_found collected
  obtain ⟨located, stands⟩ := find_eq_ok.1 found
  cases entry with
  | file bytes =>
    obtain ⟨start, name, directory, rfl, enters⟩ := exists_enters located
    rw [collect_of_file found] at collected
    split_ifs at collected with isSource
    cases collected
    refine ⟨start, directory, enters, fun source mem => ?_⟩
    obtain rfl := List.mem_singleton.1 mem
    exact ⟨isSource, name, rfl⟩
  | directory =>
    rw [collect_of_directory found] at collected
    cases collected
    obtain ⟨start, gathered⟩ := gathered_sourcesIn located stands _
    exact ⟨start, place, gathered⟩

end Collect

end Jack
