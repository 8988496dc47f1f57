import Jack.Build.Sources
import Mathlib.Data.List.TakeWhile
import Mathlib.Data.String.Basic

/-!
# Paths of sources and of their code

Cutting a file name at its last dot can be undone, so different sources in a directory get their
code in different places, and none in the place of a source.
-/

namespace Jack.Path

/-! ## Cutting names -/

theorem cutName_append {stem extension : String} (nonempty : stem ≠ "")
    (plain : '.' ∉ extension.toList) :
    cutName (stem ++ "." ++ extension) = (stem, some extension) := by
  obtain ⟨c, rest, stem_eq⟩ : ∃ c rest, stem.toList.reverse = c :: rest :=
    List.exists_cons_of_ne_nil (by simpa using nonempty)
  have reversed : (stem ++ "." ++ extension).toList.reverse =
      extension.toList.reverse ++ '.' :: c :: rest := by
    simp [stem_eq]
  have all : ∀ c ∈ extension.toList.reverse, decide (c ≠ '.') = true := by
    intro c mem
    rw [decide_eq_true_iff]
    rintro rfl
    exact plain (List.mem_reverse.1 mem)
  have stops : decide ('.' ≠ '.') = false := rfl
  unfold cutName
  simp only [reversed, List.dropWhile_append_of_pos all, List.takeWhile_append_of_pos all,
    List.dropWhile_cons, List.takeWhile_cons, stops, ↓reduceIte, Bool.false_eq_true,
    List.append_nil, List.reverse_reverse, String.ofList_toList]
  rw [← stem_eq, List.reverse_reverse, String.ofList_toList]

theorem eq_of_cutName {name stem extension : String}
    (h : cutName name = (stem, some extension)) :
    name = stem ++ "." ++ extension ∧ stem ≠ "" ∧ '.' ∉ extension.toList := by
  unfold cutName at h
  simp only at h
  have splits :=
    List.takeWhile_append_dropWhile (p := (decide <| · ≠ '.')) (l := name.toList.reverse)
  have before (c : Char) (mem : c ∈ name.toList.reverse.takeWhile (decide <| · ≠ '.')) :
      c ≠ '.' := by
    have inside := List.mem_takeWhile_imp mem
    exact of_decide_eq_true inside
  have stops (c : Char) (rest : List Char)
      (eq : name.toList.reverse.dropWhile (decide <| · ≠ '.') = c :: rest) : c = '.' := by
    have nonempty : name.toList.reverse.dropWhile (decide <| · ≠ '.') ≠ [] := by rw [eq]; simp
    have outside := List.head_dropWhile_not _ nonempty
    simp only [eq, List.head_cons] at outside
    exact not_not.1 (of_decide_eq_false outside)
  generalize name.toList.reverse.takeWhile (decide <| · ≠ '.') = taken at *
  generalize name.toList.reverse.dropWhile (decide <| · ≠ '.') = dropped at *
  rcases dropped with _ | ⟨d, _ | ⟨c, rest⟩⟩
  · simp at h
  · simp at h
  · obtain rfl := stops d _ rfl
    simp only [Prod.mk.injEq, Option.some.injEq] at h
    obtain ⟨rfl, rfl⟩ := h
    refine ⟨?_, by simp, fun mem => before '.' (by simpa using mem) rfl⟩
    rw [← List.reverse_inj, List.reverse_reverse] at splits
    apply String.toList_injective
    simp [← splits]

/-! ## Sources in a directory -/

/-- Where the code of a source goes. -/
def output (source : Path) : Path :=
  source.withExtension outputExtension

/-- The name for the code of a source with the given name. A source that would be named `.` gives up
its own name with its extension, so its code goes to the directory above. -/
def outputName (name : String) : String :=
  if (cutName name).1 = "." then ".." else (cutName name).1 ++ "." ++ outputExtension

/-- A name with the extension of a source. -/
def IsSourceName (name : String) : Prop :=
  (cutName name).2 = some sourceExtension

theorem child_eq {p : Path} (h : p.text ≠ "") :
    ∃ start ≠ [], (p.pieces = start ∨ p.pieces = start ++ [""]) ∧
      ∀ name, p.child name = ⟨start ++ [name]⟩ := by
  by_cases slash : p.pieces.getLast? = some ""
  · have pieces : p.pieces = p.pieces.dropLast ++ [""] :=
      (List.dropLast_append_getLast? "" slash).symm
    refine ⟨p.pieces.dropLast, fun none => h ?_, .inr pieces, fun name => ?_⟩
    · rw [text, pieces, none]
      rfl
    · rw [child, if_pos slash]
  · refine ⟨p.pieces, fun none => h ?_, .inl rfl, fun name => ?_⟩
    · rw [text, none]
      rfl
    · rw [child, if_neg slash]

theorem isAbsolute_child {p : Path} (h : p.text ≠ "") (name : String) :
    (p.child name).isAbsolute = p.isAbsolute := by
  obtain ⟨start, start_ne, pieces, child⟩ := child_eq h
  obtain ⟨first, rest, rfl⟩ := List.exists_cons_of_ne_nil start_ne
  rw [child, isAbsolute, isAbsolute]
  rcases pieces with pieces | pieces
  · cases rest with
    | nil =>
      -- A path of one piece starts with a slash only if it has no text.
      have first_ne : first ≠ "" := by
        rintro rfl
        exact h (by rw [text, pieces]; rfl)
      simp [pieces, first_ne]
    | cons => simp [pieces]
  · simp [pieces]

section Concat

variable {start : List String} {name : String}

theorem isAbsolute_concat : isAbsolute ⟨start ++ [name]⟩ = decide (start.head? = some "") := by
  cases start with
  | nil => simp [isAbsolute]
  | cons first rest => simp [isAbsolute]

theorem trimmed_concat (nonempty : name ≠ "") (new : name ≠ ".") :
    trimmed ⟨start ++ [name]⟩ = start ++ [name] := by
  have kept : (name == "" || name == ".") = false := by simp [nonempty, new]
  rw [trimmed, List.reverse_append, List.reverse_singleton, List.singleton_append,
    List.dropWhile_cons_of_neg (by simp [kept])]
  simp

theorem fileName?_concat (nonempty : name ≠ "") (new : name ≠ ".") (down : name ≠ "..") :
    fileName? ⟨start ++ [name]⟩ = some name := by
  rw [fileName?, trimmed_concat nonempty new, List.getLast?_concat, Option.filter_some_pos]
  simpa using down

theorem fileName?_concat_up : fileName? ⟨start ++ [".."]⟩ = none := by
  rw [fileName?, trimmed_concat (by decide) (by decide), List.getLast?_concat]
  rfl

theorem isSourceName_of_isSource (nonempty : name ≠ "") (new : name ≠ ".")
    (h : isSource ⟨start ++ [name]⟩ = true) : IsSourceName name := by
  by_cases up : name = ".."
  · subst up
    rw [isSource, extension?, fileName?_concat_up] at h
    simp at h
  · rw [isSource, extension?, fileName?_concat nonempty new up, decide_eq_true_iff] at h
    exact h

theorem dropExtension_concat {stem extension : String} (nonempty : name ≠ "") (new : name ≠ ".")
    (down : name ≠ "..") (cut : cutName name = (stem, some extension)) :
    dropExtension ⟨start ++ [name]⟩ = ⟨start ++ [stem ++ "."]⟩ := by
  unfold dropExtension
  rw [fileName?_concat nonempty new down, trimmed_concat nonempty new, Option.map_some, cut]
  simp only [if_pos, List.dropLast_concat]

end Concat

namespace IsSourceName

variable {name other : String}

theorem cut (h : IsSourceName name) :
    cutName name = ((cutName name).1, some sourceExtension) :=
  Prod.ext rfl h

theorem eq (h : IsSourceName name) : name = (cutName name).1 ++ "." ++ sourceExtension :=
  (eq_of_cutName h.cut).1

theorem stem_ne (h : IsSourceName name) : (cutName name).1 ≠ "" :=
  (eq_of_cutName h.cut).2.1

theorem ne_dots (h : IsSourceName name) : name ≠ "" ∧ name ≠ "." ∧ name ≠ ".." := by
  refine ⟨?_, ?_, ?_⟩ <;> rintro rfl <;>
    exact absurd h (by decide : ¬ (cutName _).2 = some sourceExtension)

theorem output_concat (h : IsSourceName name) (start : List String) :
    output ⟨start ++ [name]⟩ = ⟨start ++ [outputName name]⟩ := by
  obtain ⟨nonempty, new, down⟩ := h.ne_dots
  have stem_ne := h.stem_ne
  unfold output withExtension outputName
  rw [dropExtension_concat nonempty new down h.cut]
  generalize (cutName name).1 = stem at stem_ne
  by_cases dot : stem = "."
  · subst dot
    rw [if_pos rfl]
    have up : ("." ++ "." : String) = ".." := by decide
    simp only [up, fileName?_concat_up]
  · have cut : cutName (stem ++ ".") = (stem, some "") := by
      have cut := cutName_append stem_ne (by simp : '.' ∉ "".toList)
      rwa [String.append_empty] at cut
    have nonempty : stem ++ "." ≠ "" := by simp
    have new : stem ++ "." ≠ "." := by simpa using stem_ne
    have down : stem ++ "." ≠ ".." := by
      intro eq
      have up : (".." : String) = "." ++ "." := by decide
      rw [up] at eq
      exact dot ((String.append_left_inj ".").1 eq)
    rw [if_neg dot]
    simp only [fileName?_concat nonempty new down, trimmed_concat nonempty new, cut,
      List.dropLast_concat]

theorem outputName_of_dot (dot : (cutName name).1 = ".") : outputName name = ".." :=
  if_pos dot

theorem cutName_outputName (h : IsSourceName name) (dot : (cutName name).1 ≠ ".") :
    cutName (outputName name) = ((cutName name).1, some outputExtension) := by
  rw [outputName, if_neg dot]
  exact cutName_append h.stem_ne (by decide)

/-- The name for the code is no name of the directory itself. -/
theorem outputName_ne_dots (h : IsSourceName name) :
    outputName name ≠ "" ∧ outputName name ≠ "." := by
  by_cases dot : (cutName name).1 = "."
  · rw [outputName_of_dot dot]
    decide
  · have extension : (cutName (outputName name)).2 = some outputExtension := by
      rw [h.cutName_outputName dot]
    refine ⟨fun eq => ?_, fun eq => ?_⟩
    all_goals
      rw [eq] at extension
      exact absurd extension (by decide)

theorem outputName_ne (h : IsSourceName name) (h' : IsSourceName other) :
    outputName name ≠ other := by
  rintro rfl
  by_cases dot : (cutName name).1 = "."
  · exact h'.ne_dots.2.2 (outputName_of_dot dot)
  · have extension : some sourceExtension = some outputExtension :=
      h'.symm.trans (congrArg Prod.snd (h.cutName_outputName dot))
    exact absurd extension (by decide)

theorem outputName_injective (h : IsSourceName name) (h' : IsSourceName other)
    (eq : outputName name = outputName other) : name = other := by
  have up {name : String} (h : IsSourceName name) (dot : (cutName name).1 ≠ ".") :
      outputName name ≠ ".." := by
    intro eq
    have extension : (cutName "..").2 = some outputExtension := by
      rw [← eq, h.cutName_outputName dot]
    exact absurd extension (by decide)
  have stems : (cutName name).1 = (cutName other).1 := by
    by_cases dot : (cutName name).1 = "."
    · by_cases dot' : (cutName other).1 = "."
      · rw [dot, dot']
      · exact absurd (eq.symm.trans (outputName_of_dot dot)) (up h' dot')
    · by_cases dot' : (cutName other).1 = "."
      · exact absurd (eq.trans (outputName_of_dot dot')) (up h dot)
      · have cut := h.cutName_outputName dot
        rw [eq, h'.cutName_outputName dot'] at cut
        exact (congrArg Prod.fst cut).symm
  rw [h.eq, h'.eq, stems]

end IsSourceName

theorem child_injective {p : Path} (h : p.text ≠ "") {name other : String}
    (eq : p.child name = p.child other) : name = other := by
  obtain ⟨start, -, -, child⟩ := child_eq h
  rw [child, child, mk.injEq, List.append_cancel_left_eq] at eq
  exact List.singleton_inj.1 eq

theorem isSourceName_of_isSource_child {p : Path} (h : p.text ≠ "") {name : String}
    (nonempty : name ≠ "") (new : name ≠ ".") (source : (p.child name).isSource = true) :
    IsSourceName name := by
  obtain ⟨start, -, -, child⟩ := child_eq h
  rw [child] at source
  exact isSourceName_of_isSource nonempty new source

theorem output_child {p : Path} (h : p.text ≠ "") {name : String} (source : IsSourceName name) :
    (p.child name).output = p.child (outputName name) := by
  obtain ⟨start, -, -, child⟩ := child_eq h
  rw [child, child, source.output_concat]

end Jack.Path
