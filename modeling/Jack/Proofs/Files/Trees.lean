import Jack.Files.Tree
import Jack.Proofs.Files.Paths

/-!
# Places in file trees

Where the paths in a directory lead depends on directories alone. So as long as only files are
written, they go on leading to the same places.
-/

namespace Jack.FileTree

variable {t t' : FileTree}

/-! ## Setting an entry -/

@[simp]
theorem get?_nil (t : FileTree) : t.get? [] = some .directory :=
  rfl

theorem get?_of_ne_nil {place : List String} (h : place ≠ []) :
    t.get? place = t.entries.lookup place := by
  rw [get?, if_neg (by simpa using h)]

theorem get?_set_self {place : List String} (h : place ≠ []) (entry : Entry) :
    (t.set place entry).get? place = some entry := by
  rw [get?_of_ne_nil h, set, List.lookup_cons_self]

theorem get?_set_of_ne {place other : List String} (h : other ≠ place) (entry : Entry) :
    (t.set place entry).get? other = t.get? other := by
  have lookup (entries : List (List String × Entry)) :
      (entries.filter fun entry => entry.1 != place).lookup other = entries.lookup other := by
    induction entries with
    | nil => rfl
    | cons head entries ih =>
      obtain ⟨q, e⟩ := head
      by_cases eq : q = place
      · subst eq
        rw [List.filter_cons_of_neg (by simp), ih, List.lookup_cons, beq_false_of_ne h]
      · rw [List.filter_cons_of_pos (by simpa using eq), List.lookup_cons, List.lookup_cons, ih]
  by_cases root : other = []
  · rw [root, get?_nil, get?_nil]
  · rw [get?_of_ne_nil root, get?_of_ne_nil root, set, List.lookup_cons, beq_false_of_ne h]
    exact lookup t.entries

/-- The same places, with the same there. The entries may come in another order. -/
structure Same (t t' : FileTree) : Prop where
  home : t.home = t'.home
  get? : ∀ place, t.get? place = t'.get? place

/-! ## Following paths -/

/-- The same directories, and possibly other files. -/
structure SameDirectories (t t' : FileTree) : Prop where
  home : t'.home = t.home
  directory : ∀ place, t'.get? place = some .directory ↔ t.get? place = some .directory

theorem step_up (directory : List String) : step directory ".." = directory.dropLast := by
  simp [step]

theorem step_down {name : String} (nonempty : name ≠ "") (new : name ≠ ".") (down : name ≠ "..")
    (directory : List String) : step directory name = directory ++ [name] := by
  simp [step, nonempty, new, down]

/-- Names that lead away from a directory lead to different places. -/
theorem step_injective {directory : List String} {name other : String}
    (away : name ≠ "" ∧ name ≠ ".") (away' : other ≠ "" ∧ other ≠ ".")
    (eq : step directory name = step directory other) : name = other := by
  have apart {name : String} : directory.dropLast ≠ directory ++ [name] := by
    intro eq
    have := congrArg List.length eq
    simp at this
  by_cases up : name = ".." <;> by_cases up' : other = ".."
  · rw [up, up']
  · rw [up, step_up, step_down away'.1 away'.2 up'] at eq
    exact absurd eq apart
  · rw [up', step_up, step_down away.1 away.2 up] at eq
    exact absurd eq.symm apart
  · rw [step_down away.1 away.2 up, step_down away'.1 away'.2 up', List.append_cancel_left_eq] at eq
    exact List.singleton_inj.1 eq

theorem walk_append (t : FileTree) (place : List String) (first second : List String) :
    t.walk place (first ++ second) = (t.walk place first).bind fun q => t.walk q second := by
  induction first generalizing place with
  | nil => rfl
  | cons piece pieces ih =>
    rw [List.cons_append, walk, walk]
    cases t.get? place with
    | none => rfl
    | some entry =>
      cases entry with
      | file bytes => rfl
      | directory =>
        simp only
        split
        · rfl
        · exact ih _

theorem walk_singleton {place : List String} (h : t.get? place = some .directory) (piece : String) :
    t.walk place [piece] =
      if maxNameSize < piece.utf8ByteSize then .error .nameTooLong else .ok (step place piece) := by
  rw [walk, h]
  rfl

theorem eq_of_walk_slash {place final : List String} (h : t.walk place [""] = .ok final) :
    final = place := by
  cases entry : t.get? place with
  | none => simp [walk, entry] at h
  | some e =>
    cases e with
    | file bytes => simp [walk, entry] at h
    | directory =>
      rw [walk_singleton entry, if_neg (by decide)] at h
      exact (Except.ok.inj h).symm

/-- A slash at the end leads nowhere else. -/
theorem walk_of_slash {place final start : List String}
    (h : t.walk place (start ++ [""]) = .ok final) : t.walk place start = .ok final := by
  rw [walk_append] at h
  cases walked : t.walk place start with
  | error fault => simp [walked, Except.bind] at h
  | ok q =>
    rw [walked] at h
    rw [eq_of_walk_slash h]

theorem SameDirectories.walk_eq_ok (same : SameDirectories t t') {place final : List String}
    {pieces : List String} (h : t.walk place pieces = .ok final) :
    t'.walk place pieces = .ok final := by
  induction pieces generalizing place with
  | nil => exact h
  | cons piece pieces ih =>
    rw [walk] at h ⊢
    cases entry : t.get? place with
    | none => simp [entry] at h
    | some e =>
      cases e with
      | file bytes => simp [entry] at h
      | directory =>
        rw [(same.directory place).2 entry]
        simp only [entry] at h ⊢
        split at h
        · cases h
        · rename_i short
          rw [if_neg short]
          exact ih h

theorem locate_eq_ok {p : Path} {place : List String} :
    t.locate p = .ok place ↔ '\x00' ∉ p.text.toList ∧ p.text.utf8ByteSize ≤ maxPathSize ∧
      p.text ≠ "" ∧ t.walk (if p.isAbsolute then [] else t.home) p.pieces = .ok place := by
  unfold locate
  split_ifs <;> simp_all

/-- Where the path of a name leads that follows the pieces `start`, which lead to a directory. -/
def placeAfter (start directory : List String) (name : String) : Except Fault (List String) :=
  let p : Path := ⟨start ++ [name]⟩
  if '\x00' ∈ p.text.toList then .error .nulInName
  else if maxPathSize < p.text.utf8ByteSize then .error .nameTooLong
  else if p.text = "" then .error .notFound
  else if maxNameSize < name.utf8ByteSize then .error .nameTooLong
  else .ok (step directory name)

theorem placeAfter_eq_ok {start directory place : List String} {name : String}
    (h : placeAfter start directory name = .ok place) : place = step directory name := by
  unfold placeAfter at h
  simp only at h
  split_ifs at h
  exact (Except.ok.inj h).symm

/-- The pieces lead to a directory. -/
structure Enters (t : FileTree) (start directory : List String) : Prop where
  walked : t.walk (if start.head? = some "" then [] else t.home) start = .ok directory
  stands : t.get? directory = some .directory

namespace Enters

variable {start directory : List String} (h : t.Enters start directory)
include h

theorem same (same : t.SameDirectories t') : t'.Enters start directory where
  walked := by
    rw [same.home]
    exact same.walk_eq_ok h.walked
  stands := (same.directory directory).2 h.stands

theorem locate_concat (name : String) :
    t.locate ⟨start ++ [name]⟩ = placeAfter start directory name := by
  have walked : t.walk (if start.head? = some "" then [] else t.home) (start ++ [name]) =
      if maxNameSize < name.utf8ByteSize then .error .nameTooLong
      else .ok (step directory name) := by
    rw [walk_append, h.walked]
    exact walk_singleton h.stands name
  unfold locate placeAfter
  simp only [Path.isAbsolute_concat, decide_eq_true_eq, walked]

theorem place_eq {name : String} {place : List String}
    (located : t.locate ⟨start ++ [name]⟩ = .ok place) : place = step directory name :=
  placeAfter_eq_ok ((h.locate_concat name).symm.trans located)

end Enters

/-- The names in a directory follow the pieces of its own path. -/
theorem enters_of_directory {target : Path} {directory : List String}
    (found : t.locate target = .ok directory) (stands : t.get? directory = some .directory) :
    ∃ start, (∀ name, target.child name = ⟨start ++ [name]⟩) ∧ t.Enters start directory := by
  obtain ⟨-, -, nonempty, walked⟩ := locate_eq_ok.1 found
  obtain ⟨start, start_ne, pieces, child⟩ := Path.child_eq nonempty
  refine ⟨start, child, ?_, stands⟩
  have absolute : target.isAbsolute = decide (start.head? = some "") := by
    rw [← Path.isAbsolute_child nonempty "", child, Path.isAbsolute_concat]
  simp only [absolute, decide_eq_true_eq] at walked
  obtain pieces | pieces := pieces
  · rwa [pieces] at walked
  · exact walk_of_slash (pieces ▸ walked)

/-- The last piece of a path that leads somewhere follows pieces that lead to a directory. -/
theorem exists_enters {target : Path} {place : List String} (found : t.locate target = .ok place) :
    ∃ start name directory, target = ⟨start ++ [name]⟩ ∧ t.Enters start directory := by
  obtain ⟨-, -, nonempty, walked⟩ := locate_eq_ok.1 found
  obtain ⟨pieces⟩ := target
  obtain rfl | ⟨start, name, rfl⟩ := pieces.eq_nil_or_concat'
  · exact absurd rfl nonempty
  simp only [Path.isAbsolute_concat, decide_eq_true_eq, walk_append] at walked
  cases entered : t.walk (if start.head? = some "" then [] else t.home) start with
  | error fault => simp [entered, Except.bind] at walked
  | ok directory =>
    rw [entered] at walked
    change t.walk directory [name] = .ok place at walked
    refine ⟨start, name, directory, rfl, entered, ?_⟩
    cases entry : t.get? directory with
    | none => simp [walk, entry] at walked
    | some e =>
      cases e with
      | file bytes => simp [walk, entry] at walked
      | directory => rfl

/-! ## Reading and writing -/

theorem find_eq_ok {p : Path} {place : List String} {entry : Entry} :
    t.find p = .ok (place, entry) ↔ t.locate p = .ok place ∧ t.get? place = some entry := by
  unfold find
  cases t.locate p with
  | error fault => simp [bind, Except.bind]
  | ok q =>
    cases stands : t.get? q with
    | none =>
      simp only [bind, Except.bind, stands]
      constructor
      · intro h
        cases h
      · rintro ⟨eq, h⟩
        cases eq
        cases stands.symm.trans h
    | some e =>
      simp only [bind, Except.bind, stands, pure, Except.pure, Except.ok.injEq, Prod.mk.injEq]
      constructor
      · rintro ⟨rfl, rfl⟩
        exact ⟨rfl, stands⟩
      · rintro ⟨rfl, h⟩
        exact ⟨rfl, Option.some.inj (stands.symm.trans h)⟩

theorem read_of_error {p : Path} {fault : Fault} (located : t.locate p = .error fault) :
    t.read p = .error fault := by
  rw [read, find, located]
  rfl

theorem read_of_directory {p : Path} {place : List String} (located : t.locate p = .ok place)
    (stands : t.get? place = some .directory) : t.read p = .error .isADirectory := by
  rw [read, find_eq_ok.2 ⟨located, stands⟩]
  rfl

theorem read_of_file {p : Path} {place : List String} {bytes : ByteArray}
    (located : t.locate p = .ok place) (stands : t.get? place = some (.file bytes)) :
    t.read p = .ok bytes := by
  rw [read, find_eq_ok.2 ⟨located, stands⟩]
  rfl

theorem find_congr {p : Path} (located : t'.locate p = t.locate p)
    (kept : ∀ place, t.locate p = .ok place → t'.get? place = t.get? place) :
    t'.find p = t.find p := by
  unfold find
  rw [located]
  cases eq : t.locate p with
  | error fault => rfl
  | ok place => simp only [bind, Except.bind, kept place eq]

theorem read_congr {p : Path} (located : t'.locate p = t.locate p)
    (kept : ∀ place, t.locate p = .ok place → t'.get? place = t.get? place) :
    t'.read p = t.read p := by
  rw [read, read, find_congr located kept]

theorem write_of_error {p : Path} {fault : Fault} (located : t.locate p = .error fault)
    (bytes : ByteArray) : t.write p bytes = .error fault := by
  rw [write, located]
  rfl

theorem write_of_directory {p : Path} {place : List String} (located : t.locate p = .ok place)
    (stands : t.get? place = some .directory) (bytes : ByteArray) :
    t.write p bytes = .error .isADirectory := by
  rw [write, located]
  simp only [bind, Except.bind, stands]
  rfl

theorem write_of_free {p : Path} {place : List String} (located : t.locate p = .ok place)
    (free : t.get? place ≠ some .directory) (bytes : ByteArray) :
    t.write p bytes = .ok (t.set place (.file bytes)) := by
  rw [write, located]
  simp only [bind, Except.bind]
  cases entry : t.get? place with
  | none => rfl
  | some e =>
    cases e with
    | file => rfl
    | directory => exact absurd entry free

/-! ## Listing -/

/-- There is one entry for a place, and every name in a directory leads away from it. -/
structure Proper (t : FileTree) : Prop where
  distinct : (t.entries.map Prod.fst).Nodup
  named : ∀ place ∈ t.entries.map Prod.fst, ∀ name ∈ place, name ≠ "" ∧ name ≠ "."

theorem list_eq_ok {p : Path} {place : List String}
    (found : t.find p = .ok (place, .directory)) : t.list p = .ok (t.children place) := by
  rw [list, found]
  rfl

/-- The name of a place in a directory. -/
def nameIn (directory place : List String) : Option String :=
  if place.dropLast = directory then place.getLast? else none

theorem eq_of_nameIn {directory place : List String} {name : String}
    (h : nameIn directory place = some name) : place = directory ++ [name] := by
  unfold nameIn at h
  split_ifs at h with above
  rw [← above, List.dropLast_append_getLast? name h]

theorem map_fst_children (t : FileTree) (directory : List String) :
    (t.children directory).map Prod.fst =
      (t.entries.map Prod.fst).filterMap (nameIn directory) := by
  rw [children, List.map_filterMap, List.filterMap_map]
  congr 1
  funext entry
  unfold nameIn
  cases last : entry.1.getLast? with
  | none => simp [last]
  | some name => by_cases above : entry.1.dropLast = directory <;> simp [last, above]

theorem Proper.nodup_children (h : t.Proper) (directory : List String) :
    ((t.children directory).map Prod.fst).Nodup := by
  rw [map_fst_children]
  refine List.Pairwise.filterMap _ ?_ h.distinct
  intro place place' different name eq name' eq' same
  exact different (by rw [eq_of_nameIn eq, eq_of_nameIn eq', same])

theorem Proper.name_ne (h : t.Proper) {directory : List String} {name : String}
    (mem : name ∈ (t.children directory).map Prod.fst) : name ≠ "" ∧ name ≠ "." := by
  rw [map_fst_children, List.mem_filterMap] at mem
  obtain ⟨place, mem, eq⟩ := mem
  exact h.named place mem name (by rw [eq_of_nameIn eq]; simp)

end Jack.FileTree
