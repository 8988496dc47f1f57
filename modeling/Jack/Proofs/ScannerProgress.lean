import Mathlib
import Jack.Proofs.Positions

/-!
# The scanner makes progress

A scanner can go on after an error: before the newline that cuts a string constant off, after a
character that no string may hold, at the end of a comment that nothing closes. From wherever it
goes on, it passes over at least one character before it tells a token or an error. So it tells no
more of them than the text has characters.

All the while its byte offset is where the characters that it has not read begin in the text. So
the character after the current one, which decides whether a comment starts or ends, may as well be
looked up in the text (`skipLooking_eq_skip`).
-/

namespace Jack

/-! ## Two views of a text -/

/-- The text from a byte offset on. There is none if the offset is inside a character or behind the
end. -/
def textFrom? (source : String) (offset : Nat) : Option String :=
  (source.pos? ⟨offset⟩).map fun place => (source.sliceFrom place).copy

theorem textFrom?_append (before after : String) :
    textFrom? (before ++ after) before.utf8ByteSize = some after := by
  have valid : String.Pos.Raw.IsValid (before ++ after) ⟨before.utf8ByteSize⟩ :=
    String.Pos.Raw.isValid_iff_exists_append.2 ⟨before, after, rfl, rfl⟩
  let place : (before ++ after).Pos := ⟨⟨before.utf8ByteSize⟩, valid⟩
  have found : (before ++ after).pos? ⟨before.utf8ByteSize⟩ = some place := by
    rw [String.pos?, String.Slice.pos?,
      dif_pos (String.Pos.Raw.isValidForSlice_eq_true_iff.2 valid.toSlice)]
    rfl
  have splits : place.Splits before after := ⟨rfl, rfl⟩
  rw [textFrom?, found, Option.map_some, splits.copy_sliceFrom_eq]

namespace Scanner

/-- The character after the current one, looked up in the text at the byte offset. There is no
answer if no text starts there. -/
def second? (source : String) (s : Scanner) : Option (Option Char) :=
  (textFrom? source s.position.offset).map fun text => text.toList[1]?

/-- One character further on, if there is one. -/
def advance : Scanner → Scanner
  | ⟨[], p⟩ => ⟨[], p⟩
  | ⟨c :: cs, p⟩ => ⟨cs, p.after c⟩

/-- Passes over white space and comments one character after the other. Where a comment may start or
end, the character after the current one is looked up in the text. There is no result if a look is
not answered. -/
def skipLooking (source : String) : Gap → Scanner → Option (Scan Unit)
  | .block start, ⟨[], p⟩ => some (.error (.unterminatedComment (.between start p)) ⟨[], p⟩)
  | _, ⟨[], p⟩ => some (.ok () ⟨[], p⟩)
  | .open, ⟨c :: cs, p⟩ =>
    if isBlank c then skipLooking source .open (advance ⟨c :: cs, p⟩)
    else if c = '/' then do
      let d ← second? source ⟨c :: cs, p⟩
      if d = some '/' then skipLooking source .line (advance ⟨c :: cs, p⟩)
      else if d = some '*' then skipLooking source (.block p) (advance (advance ⟨c :: cs, p⟩))
      else some (.ok () ⟨c :: cs, p⟩)
    else some (.ok () ⟨c :: cs, p⟩)
  | .line, ⟨c :: cs, p⟩ =>
    skipLooking source (if c = '\n' then .open else .line) (advance ⟨c :: cs, p⟩)
  | .block start, ⟨c :: cs, p⟩ =>
    if c = '*' then do
      let d ← second? source ⟨c :: cs, p⟩
      if d = some '/' then skipLooking source .open (advance (advance ⟨c :: cs, p⟩))
      else skipLooking source (.block start) (advance ⟨c :: cs, p⟩)
    else skipLooking source (.block start) (advance ⟨c :: cs, p⟩)
termination_by _ s => s.rest.length
decreasing_by
  all_goals cases cs <;> simp [advance]

variable {source : String} {text : List Char} {s : Scanner}

/-- The byte offset is between two characters, what the text holds from there on are the characters
that are not read, and a look at the second of them finds it. -/
structure Aligned (source : String) (s : Scanner) : Prop where
  boundary : String.Pos.Raw.IsValid source ⟨s.position.offset⟩
  remaining : textFrom? source s.position.offset = some (.ofList s.rest)
  second : second? source s = some s.rest[1]?

theorem Within.aligned (h : s.Within source.toList) : s.Aligned source := by
  obtain ⟨before, inside, whole, -, place⟩ := h
  have offset : s.position.offset = (String.ofList (before ++ inside)).utf8ByteSize := by
    rw [place]
    exact offset_past _
  have cut : source = .ofList (before ++ inside) ++ .ofList s.rest := by
    rw [← String.ofList_append, List.append_assoc, ← whole, String.ofList_toList]
  have remaining : textFrom? source s.position.offset = some (.ofList s.rest) := by
    rw [offset, cut, textFrom?_append]
  refine ⟨?_, remaining, ?_⟩
  · rw [offset]
    exact String.Pos.Raw.isValid_iff_exists_append.2 ⟨_, _, cut, rfl⟩
  · rw [second?, remaining, Option.map_some, String.toList_ofList]

theorem Within.advance (h : s.Within text) : s.advance.Within text := by
  obtain ⟨rest, p⟩ := s
  cases rest with
  | nil => exact h
  | cons c cs => exact (Stretch.after h).collapse

/-- What a look at the text tells about the character after the current one. -/
theorem Within.second {c : Char} {cs : List Char} {p : Position}
    (h : Within source.toList ⟨c :: cs, p⟩) : second? source ⟨c :: cs, p⟩ = some cs.head? := by
  rw [h.aligned.second, List.head?_eq_getElem?]
  rfl

/-- Every look into the text is answered, and with the character that follows. -/
theorem skipLooking_eq_skip {g : Gap} {cs : List Char} {p : Position}
    (h : Within source.toList ⟨cs, p⟩) : skipLooking source g ⟨cs, p⟩ = some (skip g cs p) := by
  fun_induction skip g cs p with
  | case1 cs p ih =>
    rw [skipLooking, if_neg (by decide), if_pos rfl, h.second, List.head?_cons, Option.bind_eq_bind,
      Option.bind_some, if_pos rfl, advance, skipLooking, if_neg (by decide)]
    exact ih h.advance.advance
  | case2 cs p ih =>
    rw [skipLooking, if_neg (by decide), if_pos rfl, h.second, List.head?_cons, Option.bind_eq_bind,
      Option.bind_some, if_neg (by decide), if_pos rfl]
    exact ih h.advance.advance
  | case3 c cs p _ _ blank ih =>
    rw [skipLooking, if_pos blank]
    exact ih h.advance
  | case4 c cs p line block dark =>
    rw [skipLooking, if_neg dark]
    split
    · next slash =>
      rw [h.second, Option.bind_eq_bind, Option.bind_some, if_neg, if_neg]
      · intro star
        obtain ⟨more, rfl⟩ := List.head?_eq_some_iff.1 star
        exact block more slash rfl
      · intro again
        obtain ⟨more, rfl⟩ := List.head?_eq_some_iff.1 again
        exact line more slash rfl
    · rfl
  | case5 c cs p ih =>
    rw [skipLooking]
    exact ih h.advance
  | case6 start cs p ih =>
    rw [skipLooking, if_pos rfl, h.second, List.head?_cons, Option.bind_eq_bind, Option.bind_some,
      if_pos rfl]
    exact ih h.advance.advance
  | case7 start c cs p unclosed ih =>
    rw [skipLooking]
    split
    · next star =>
      rw [h.second, Option.bind_eq_bind, Option.bind_some, if_neg]
      · exact ih h.advance
      · intro slash
        obtain ⟨more, rfl⟩ := List.head?_eq_some_iff.1 slash
        exact unclosed more star rfl
    · exact ih h.advance
  | case8 start p => rw [skipLooking]
  | case9 g p unblocked =>
    cases g with
    | «open» => rw [skipLooking]; simp
    | line => rw [skipLooking]; simp
    | block start => exact absurd rfl (unblocked start)

/-! ## Progress -/

theorem rest_advance (s : Scanner) : s.advance.rest = s.rest.tail := by
  obtain ⟨rest, p⟩ := s
  cases rest <;> rfl

theorem rest_iterate (k : Nat) (s : Scanner) : (advance^[k] s).rest = s.rest.drop k := by
  induction k generalizing s with
  | zero => rfl
  | succ k ih => rw [Function.iterate_succ_apply, ih, rest_advance, List.drop_tail]

/-- From one scanner to another, at least `k` characters further on. -/
def Passed (k : Nat) (s s' : Scanner) : Prop :=
  ∃ j, k ≤ j ∧ j ≤ s.rest.length ∧ s' = advance^[j] s

namespace Passed

variable {k l : Nat} {c : Char} {cs : List Char} {p : Position} {s s' s'' : Scanner}

theorem refl (s : Scanner) : Passed 0 s s :=
  ⟨0, Nat.le_refl _, Nat.zero_le _, rfl⟩

theorem weaken (h : Passed k s s') : Passed 0 s s' :=
  h.imp fun _ hj => ⟨Nat.zero_le _, hj.2⟩

theorem cons (h : Passed k ⟨cs, p.after c⟩ s') : Passed (k + 1) ⟨c :: cs, p⟩ s' := by
  obtain ⟨j, enough, most, rfl⟩ := h
  exact ⟨j + 1, Nat.succ_le_succ enough, Nat.succ_le_succ most, rfl⟩

theorem length_le (h : Passed k s s') : s'.rest.length + k ≤ s.rest.length := by
  obtain ⟨j, enough, most, rfl⟩ := h
  rw [rest_iterate, List.length_drop]
  omega

theorem trans (h : Passed k s s') (h' : Passed l s' s'') : Passed (k + l) s s'' := by
  obtain ⟨i, enough, most, rfl⟩ := h
  obtain ⟨j, enough', most', rfl⟩ := h'
  rw [rest_iterate, List.length_drop] at most'
  exact ⟨j + i, by omega, by omega, (Function.iterate_add_apply _ _ _ _).symm⟩

theorem append (run : List Char) (h : Passed k ⟨cs, p.advance run⟩ s') :
    Passed (k + run.length) ⟨run ++ cs, p⟩ s' := by
  induction run generalizing p with
  | nil => exact h
  | cons c run ih => exact (ih h).cons

/-- The first character and the longest run of a class of characters after it. -/
theorem run (f : Char → Bool) :
    Passed 1 ⟨c :: cs, p⟩ ⟨cs.dropWhile f, p.advance (c :: cs.takeWhile f)⟩ := by
  have more := append (cs.takeWhile f) (refl ⟨cs.dropWhile f, p.advance (c :: cs.takeWhile f)⟩)
  rw [List.takeWhile_append_dropWhile] at more
  exact more.weaken.cons

end Passed

theorem passed_skip (g : Gap) (cs : List Char) (p : Position) :
    Passed 0 ⟨cs, p⟩ (final (skip g cs p)) := by
  fun_induction skip g cs p with
  | case1 cs p ih => exact ih.cons.cons.weaken
  | case2 cs p ih => exact ih.cons.cons.weaken
  | case3 c cs p _ _ _ ih => exact ih.cons.weaken
  | case4 c cs p _ _ _ => exact .refl _
  | case5 c cs p ih => exact ih.cons.weaken
  | case6 start cs p ih => exact ih.cons.cons.weaken
  | case7 start c cs p _ ih => exact ih.cons.weaken
  | case8 start p => exact .refl _
  | case9 g p _ => exact .refl _

/-- A comment that nothing closes goes up to the end of the text. -/
theorem rest_of_skip_error {g : Gap} {cs : List Char} {p : Position} {e : ScanError} {s : Scanner}
    (h : skip g cs p = .error e s) : s.rest = [] := by
  fun_induction skip g cs p with
  | case1 cs p ih => exact ih h
  | case2 cs p ih => exact ih h
  | case3 c cs p _ _ _ ih => exact ih h
  | case4 => cases h
  | case5 c cs p ih => exact ih h
  | case6 start cs p ih => exact ih h
  | case7 start c cs p _ ih => exact ih h
  | case8 start p =>
    cases h
    rfl
  | case9 => cases h

theorem passed_of_skip_error {cs : List Char} {p : Position} {e : ScanError} {s : Scanner}
    (h : skip .open cs p = .error e s) : Passed 1 ⟨cs, p⟩ s := by
  have passed := passed_skip .open cs p
  rw [h] at passed
  obtain ⟨j, -, most, same⟩ := passed
  have finished : cs.drop j = [] := by
    rw [← rest_of_skip_error h]
    exact (rest_iterate j _).symm.trans (congrArg rest same.symm)
  have some : cs ≠ [] := by
    rintro rfl
    rw [skip] at h
    · cases h
    · simp
  have := List.length_pos_of_ne_nil some
  have := List.drop_eq_nil_iff.1 finished
  exact ⟨j, by omega, most, same⟩

theorem passed_string (start p : Position) (cs body : List Char) (n : Nat) :
    Passed 0 ⟨cs, p⟩ (final (string start cs p body n)) := by
  fun_induction string start cs p body n with
  | case1 => exact .refl _
  | case2 => exact .refl _
  | case3 => exact (Passed.refl _).cons.weaken
  | case4 => exact (Passed.refl _).cons.weaken
  | case5 => exact (Passed.refl _).cons.weaken
  | case6 c cs p body n p' _ _ _ _ ih => exact ih.cons.weaken

theorem passed_token (c : Char) (cs : List Char) (p : Position) :
    Passed 1 ⟨c :: cs, p⟩ (final (token c cs p)) := by
  unfold token
  split
  · exact (passed_string p _ cs [] 0).cons
  split
  · dsimp only
    split <;> exact .run Char.isDigit
  split
  · exact .run isWordChar
  split <;> exact (Passed.refl _).cons

/-- Whether a step finds the end of the text. -/
def findsEnd : Scan (Option Token) → Bool
  | .ok none _ => true
  | _ => false

theorem passed_next (s : Scanner) :
    Passed (if findsEnd s.next then 0 else 1) s (final s.next) := by
  have skipped := passed_skip .open s.rest s.position
  cases found : skip .open s.rest s.position with
  | error e s' =>
    have step : s.next = .error e s' := by rw [next, found]
    rw [step]
    exact passed_of_skip_error found
  | ok u s' =>
    obtain ⟨rest, p⟩ := s'
    rw [found] at skipped
    cases rest with
    | nil =>
      have step : s.next = .ok none ⟨[], p⟩ := by rw [next, found]
      rw [step]
      exact skipped
    | cons c cs =>
      have read := skipped.trans (passed_token c cs p)
      cases answer : token c cs p with
      | error e s' =>
        have step : s.next = .error e s' := by simp only [next, found, answer]
        rw [step]
        rwa [answer] at read
      | ok t s' =>
        have step : s.next = .ok (some t) s' := by simp only [next, found, answer]
        rw [step]
        rwa [answer] at read

theorem findsEnd_iff {s : Scanner} : findsEnd s.next ↔ ∃ s', s.next = .ok none s' := by
  constructor
  · intro h
    unfold findsEnd at h
    split at h
    · next s' found => exact ⟨s', found⟩
    · cases h
  · rintro ⟨s', found⟩
    rw [found]
    rfl

/-- The end is found where only a gap is left, and then everything is read. -/
theorem rest_of_findsEnd {s : Scanner} (h : findsEnd s.next) : (final s.next).rest = [] := by
  obtain ⟨s', found⟩ := findsEnd_iff.1 h
  obtain ⟨-, rfl⟩ := Lexical.next_none.1 found
  rw [found]
  rfl

theorem findsEnd_of_rest {s : Scanner} (h : s.rest = []) : findsEnd s.next :=
  findsEnd_iff.2 ⟨_, Lexical.next_none.2 ⟨h ▸ .nil, rfl⟩⟩

/-! ## Runs -/

/-- The scanner after `n` steps over a text, whether these succeed or fail. -/
def after (source : String) : Nat → Scanner
  | 0 => .ofString source
  | n + 1 => final (after source n).next

variable (source) in
theorem within_after (n : Nat) : (after source n).Within source.toList := by
  have reached : Reached source (after source n) := by
    induction n with
    | zero => exact .start
    | succ n ih => exact .next ih
  exact reached.within

theorem within_iterate (h : s.Within text) (k : Nat) : (advance^[k] s).Within text := by
  induction k generalizing s with
  | zero => exact h
  | succ k ih => exact ih h.advance

theorem findsEnd_later {n m : Nat} (h : findsEnd (after source n).next) (later : n ≤ m) :
    findsEnd (after source m).next := by
  induction later with
  | refl => exact h
  | step _ ih => exact findsEnd_of_rest (rest_of_findsEnd ih)

/-- As long as no step finds the end, each leaves fewer characters than the one before. -/
theorem length_after {n : Nat} (h : ∀ m < n, findsEnd (after source m).next = false) :
    (after source n).rest.length + n ≤ source.length := by
  induction n with
  | zero => exact Nat.le_of_eq (String.length_toList ..)
  | succ n ih =>
    have before := ih fun m hm => h m (Nat.lt_succ_of_lt hm)
    have step := (passed_next (after source n)).length_le
    rw [h n (Nat.lt_succ_self n)] at step
    have : (after source (n + 1)).rest.length + 1 ≤ (after source n).rest.length := step
    omega

/-- Some step finds the end, the latest after as many others as the text has characters. -/
theorem exists_findsEnd (source : String) :
    ∃ k ≤ source.length, ∀ n, findsEnd (after source n).next = false ↔ n < k := by
  have ends : ∃ n, findsEnd (after source n).next := by
    by_contra never
    have none (n : Nat) : findsEnd (after source n).next = false :=
      Bool.eq_false_iff.2 fun h => never ⟨n, h⟩
    have := length_after (n := source.length + 1) fun m _ => none m
    omega
  have first {m : Nat} (h : m < Nat.find ends) : findsEnd (after source m).next = false :=
    Bool.eq_false_iff.2 (Nat.find_min ends h)
  refine ⟨Nat.find ends, ?_, fun n => ⟨fun h => ?_, first⟩⟩
  · have := length_after fun m => first (m := m)
    omega
  · by_contra later
    rw [findsEnd_later (Nat.find_spec ends) (Nat.le_of_not_lt later)] at h
    cases h

end Scanner

open Scanner

/-- The scanner makes progress, also after errors, and its two views of the text stay in step. For
every source this is so after any number of steps. The byte offset is between two characters, and
the text from there on is what is not read. So it is while a step goes on, after each character that
it passes over, and every look into the text during the step is answered. A step that tells a token
or an error passes over at least one character. A step that finds the end leaves nothing to read,
and all later steps find it again. So at most as many steps as the source has characters do
not find the end. -/
theorem scanner_makes_progress (source : String) :
    (∀ n k, (advance^[k] (after source n)).Aligned source) ∧
    (∀ n, skipLooking source .open (after source n) =
      some (skip .open (after source n).rest (after source n).position)) ∧
    (∀ n, Passed (if findsEnd (after source n).next then 0 else 1) (after source n)
      (after source (n + 1))) ∧
    (∀ n, findsEnd (after source n).next → (after source (n + 1)).rest = [] ∧
      ∀ m, n ≤ m → findsEnd (after source m).next) ∧
    ∃ k ≤ source.length, ∀ n, findsEnd (after source n).next = false ↔ n < k :=
  ⟨fun n k => (within_iterate (within_after source n) k).aligned,
    fun n => skipLooking_eq_skip (within_after source n),
    fun n => passed_next (after source n),
    fun _ ended => ⟨rest_of_findsEnd ended, fun _ later => findsEnd_later ended later⟩,
    exists_findsEnd source⟩

/-- A string that a newline cuts off, one with a character that no string may hold, a word, a
character that is no token, and a comment that nothing closes. -/
def brokenSource : String :=
  "\"ab\n\"é𠀀x #/*é"

theorem broken_progress :
    findsEnd (after brokenSource 4).next = false ∧
    Passed 1 (after brokenSource 4) (after brokenSource 5) ∧
    findsEnd (after brokenSource 5).next = true ∧
    (after brokenSource 6).rest = [] ∧ findsEnd (after brokenSource 7).next = true := by
  have fourth : findsEnd (after brokenSource 4).next = false := by decide +kernel
  have fifth : findsEnd (after brokenSource 5).next = true := by decide +kernel
  obtain ⟨-, -, passed, ended, -⟩ := scanner_makes_progress brokenSource
  have step := passed 4
  rw [fourth] at step
  exact ⟨fourth, step, fifth, (ended 5 fifth).1, (ended 5 fifth).2 7 (by decide)⟩

end Jack
