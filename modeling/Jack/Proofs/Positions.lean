import Mathlib
import Jack.Proofs.Layout

/-!
# Reported positions are true

The scanner counts lines and columns as it goes, in white space, comments and strings alike, and
also after errors. What it counts is what one finds in the text before each place. So every span of
a token or of an error tells the truth about the text, and the end of file, which is read off the
text, is where the scanner ends.
-/

namespace Jack

/-! ## Places in a text -/

/-- The characters in the first `n` bytes of a text. -/
def charsBefore : Nat → List Char → List Char
  | _, [] => []
  | n, c :: cs => if c.utf8Size ≤ n then c :: charsBefore (n - c.utf8Size) cs else []

/-- A span is a stretch of a text between two characters. Its line is one more than the number of
newlines before it, and its column one more than the number of characters since the last of these,
or since the beginning. -/
structure Span.IsTrue (source : String) (s : Span) : Prop where
  ordered : s.start ≤ s.stop
  inside : s.stop ≤ source.utf8ByteSize
  starts : String.Pos.Raw.IsValid source ⟨s.start⟩
  stops : String.Pos.Raw.IsValid source ⟨s.stop⟩
  line : s.line = 1 + (charsBefore s.start source.toList).count '\n'
  column : s.column =
    1 + ((charsBefore s.start source.toList).reverse.takeWhile (· ≠ '\n')).length

theorem charsBefore_zero (cs : List Char) : charsBefore 0 cs = [] := by
  cases cs with
  | nil => rfl
  | cons c cs => exact if_neg (Nat.not_le_of_lt c.utf8Size_pos)

theorem charsBefore_size (cs ds : List Char) : charsBefore (Lexical.size cs) (cs ++ ds) = cs := by
  induction cs with
  | nil => exact charsBefore_zero ds
  | cons c cs ih =>
    rw [Lexical.size_cons, List.cons_append, charsBefore, if_pos (Nat.le_add_right _ _),
      Nat.add_sub_cancel_left, ih]

/-- The place after some characters at the start of a text. -/
def Position.past (cs : List Char) : Position :=
  Position.advance {} cs

section Past

variable (cs : List Char)

theorem past_append (ds : List Char) :
    Position.past (cs ++ ds) = (Position.past cs).advance ds :=
  Lexical.advance_append {} cs ds

theorem offset_past : (Position.past cs).offset = Lexical.size cs := by
  rw [Position.past, Lexical.offset_advance, Nat.zero_add]

theorem line_past : (Position.past cs).line = 1 + cs.count '\n' := by
  induction cs using List.reverseRecOn with
  | nil => rfl
  | append_singleton cs c ih =>
    rw [past_append, List.count_append]
    show ((Position.past cs).after c).line = _
    unfold Position.after
    by_cases newline : c = '\n'
    · rw [if_pos newline, newline, ih]
      rfl
    · rw [if_neg newline, ih, List.count_singleton, if_neg (by simpa using newline)]
      rfl

theorem column_past :
    (Position.past cs).column = 1 + (cs.reverse.takeWhile (· ≠ '\n')).length := by
  induction cs using List.reverseRecOn with
  | nil => rfl
  | append_singleton cs c ih =>
    rw [past_append, List.reverse_append]
    show ((Position.past cs).after c).column =
      1 + ((c :: cs.reverse).takeWhile (· ≠ '\n')).length
    unfold Position.after
    by_cases newline : c = '\n'
    · simp [newline]
    · rw [if_neg newline, List.takeWhile_cons_of_pos (by simpa using newline), List.length_cons, ih]
      exact Nat.add_assoc _ _ _

theorem past_toList (source : String) : Position.past source.toList = .endOf source := by
  have offset := offset_past source.toList
  have line := line_past source.toList
  have column := column_past source.toList
  rw [Lexical.size, String.ofList_toList] at offset
  rw [Position.endOf, Nat.add_comm, Nat.add_comm _ 1, ← offset, ← line, ← column]

end Past

/-- From `a` to `b` in a text, where `rest` follows. -/
def Stretch (text : List Char) (a b : Position) (rest : List Char) : Prop :=
  ∃ before inside, text = before ++ (inside ++ rest) ∧ a = .past before ∧
    b = .past (before ++ inside)

namespace Stretch

variable {text rest : List Char} {a b : Position}

/-- More of the text is passed over. -/
theorem extend (cs : List Char) (h : Stretch text a b (cs ++ rest)) :
    Stretch text a (b.advance cs) rest := by
  obtain ⟨before, inside, rfl, rfl, rfl⟩ := h
  refine ⟨before, inside ++ cs, by rw [List.append_assoc], rfl, ?_⟩
  rw [← List.append_assoc]
  exact (past_append _ _).symm

theorem after {c : Char} (h : Stretch text a b (c :: rest)) : Stretch text a (b.after c) rest :=
  h.extend [c]

/-- The empty stretch at the end of another. -/
theorem collapse (h : Stretch text a b rest) : Stretch text b b rest := by
  obtain ⟨before, inside, rfl, rfl, rfl⟩ := h
  exact ⟨before ++ inside, [], by simp, rfl, by simp⟩

end Stretch

theorem Stretch.isTrue {source : String} {a b : Position} {rest : List Char}
    (h : Stretch source.toList a b rest) : (Span.between a b).IsTrue source := by
  obtain ⟨before, inside, text, rfl, rfl⟩ := h
  have whole : source = .ofList before ++ (.ofList inside ++ .ofList rest) := by
    rw [← String.ofList_append, ← String.ofList_append, ← text, String.ofList_toList]
  have start : (Span.between (.past before) (.past (before ++ inside))).start =
      (String.ofList before).utf8ByteSize := offset_past before
  have stop : (Span.between (.past before) (.past (before ++ inside))).stop =
      (String.ofList before).utf8ByteSize + (String.ofList inside).utf8ByteSize := by
    refine (offset_past (before ++ inside)).trans ?_
    rw [Lexical.size, String.ofList_append, String.utf8ByteSize_append]
  have chars : charsBefore (String.ofList before).utf8ByteSize source.toList = before := by
    rw [text]
    exact charsBefore_size before _
  refine ⟨?_, ?_, ?_, ?_, ?_, ?_⟩
  · rw [start, stop]
    exact Nat.le_add_right _ _
  · rw [stop, whole, String.utf8ByteSize_append, String.utf8ByteSize_append]
    omega
  · rw [start]
    exact String.Pos.Raw.isValid_iff_exists_append.2 ⟨_, _, whole, rfl⟩
  · rw [stop, ← String.utf8ByteSize_append]
    refine String.Pos.Raw.isValid_iff_exists_append.2 ⟨_, .ofList rest, ?_, rfl⟩
    rw [String.append_assoc, ← whole]
  · rw [start, chars]
    exact line_past before
  · rw [start, chars]
    exact column_past before

/-! ## Steps of the scanner -/

/-- A stretch of a text. -/
def IsStretch (text : List Char) (span : Span) : Prop :=
  ∃ a b rest, Stretch text a b rest ∧ span = .between a b

/-- A scanner is at a place of a text, and the characters that follow are those it has not read. -/
def Scanner.Within (text : List Char) (s : Scanner) : Prop :=
  Stretch text s.position s.position s.rest

/-- A step of a scanner ends inside a text. If it fails, then its error is about a stretch of the
text, and if it finds something with a span, then this is a stretch of the text. -/
inductive Follows {α : Type} (text : List Char) (span? : α → Option Span) : Scan α → Prop
  | ok {a : α} {s : Scanner} : s.Within text → (∀ span ∈ span? a, IsStretch text span) →
      Follows text span? (.ok a s)
  | error {e : ScanError} {s : Scanner} : s.Within text → IsStretch text e.span →
      Follows text span? (.error e s)

namespace Scanner

variable {text : List Char}

/-- A scanner at `p`, inside a part of a gap. A comment remembers where it starts. -/
def Gap.Reaches (text : List Char) (p : Position) (rest : List Char) : Gap → Prop
  | .block start => Stretch text start p rest
  | _ => Stretch text p p rest

theorem follows_skip {g : Gap} {cs : List Char} {p : Position} (h : g.Reaches text p cs) :
    Follows text (fun _ => none) (skip g cs p) := by
  fun_induction skip g cs p with
  | case1 cs p ih => exact ih (h.extend ['/', '/']).collapse
  | case2 cs p ih => exact ih (h.extend ['/', '*'])
  | case3 c cs p _ _ _ ih => exact ih h.after.collapse
  | case4 c cs p _ _ _ => exact .ok h (by simp)
  | case5 c cs p ih =>
    refine ih ?_
    split <;> exact h.after.collapse
  | case6 start cs p ih => exact ih (h.extend ['*', '/']).collapse
  | case7 start c cs p _ ih => exact ih h.after
  | case8 start p => exact .error h.collapse ⟨start, p, [], h, rfl⟩
  | case9 g p unblocked =>
    refine .ok ?_ (by simp)
    cases g with
    | «open» => exact h
    | line => exact h
    | block start => exact absurd rfl (unblocked start)

theorem follows_string {start p : Position} {cs body : List Char} {n : Nat}
    (h : Stretch text start p cs) :
    Follows text (fun t => some t.span) (string start cs p body n) := by
  fun_induction string start cs p body n with
  | case1 p => exact .error h.collapse ⟨start, p, [], h, rfl⟩
  | case2 cs p => exact .error h.collapse ⟨start, p, _, h, rfl⟩
  | case3 cs p body n p' =>
    refine .ok h.after.collapse ?_
    rintro span ⟨⟩
    exact ⟨start, p', cs, h.after, rfl⟩
  | case4 c cs p body n p' => exact .error h.after.collapse ⟨p, p', cs, h.collapse.after, rfl⟩
  | case5 c cs p body p' => exact .error h.after.collapse ⟨start, p', cs, h.after, rfl⟩
  | case6 c cs p body n p' _ _ _ _ ih => exact ih h.after

/-- The longest run of a class of characters is a stretch. -/
theorem stretch_run {c : Char} {cs : List Char} {p : Position} (f : Char → Bool)
    (h : Stretch text p p (c :: cs)) :
    Stretch text p (p.advance (c :: cs.takeWhile f)) (cs.dropWhile f) := by
  refine Stretch.extend (c :: cs.takeWhile f) ?_
  rwa [List.cons_append, List.takeWhile_append_dropWhile]

theorem follows_token {c : Char} {cs : List Char} {p : Position}
    (h : Stretch text p p (c :: cs)) :
    Follows text (fun t => some t.span) (token c cs p) := by
  -- Apart from strings, the token or the error is about what the scanner passes over.
  have found {kind : TokenKind} {q : Position} {rest : List Char} (read : Stretch text p q rest) :
      Follows text (fun t : Token => some t.span) (.ok ⟨kind, .between p q⟩ ⟨rest, q⟩) := by
    refine .ok read.collapse ?_
    rintro span ⟨⟩
    exact ⟨p, q, rest, read, rfl⟩
  unfold token
  split
  · next quote => exact follows_string h.after
  split
  · dsimp only
    have digits := stretch_run Char.isDigit h
    split
    · exact found digits
    · exact .error digits.collapse ⟨p, _, _, digits, rfl⟩
  split
  · exact found (stretch_run isWordChar h)
  split
  · exact found h.after
  · exact .error h.after.collapse ⟨p, _, _, h.after, rfl⟩

/-- A step from inside a text ends inside it, and tells where its token or its error is. -/
theorem follows_next {s : Scanner} (h : s.Within text) :
    Follows text (fun t => t.map Token.span) s.next := by
  have skipped := follows_skip (g := .open) h
  unfold next
  generalize skip .open s.rest s.position = r at skipped
  cases skipped with
  | error within stretch => exact .error within stretch
  | @ok _ s' within _ =>
    obtain ⟨rest, p⟩ := s'
    cases rest with
    | nil => exact .ok within (by simp)
    | cons c cs =>
      have read := follows_token within
      dsimp only
      generalize token c cs p = r at read
      cases read with
      | error within' stretch => exact .error within' stretch
      | ok within' stretch => exact .ok within' stretch

end Scanner

/-! ## Runs of the scanner -/

/-- The scanners that a text leads to, one step after the other, whether these succeed or fail. -/
inductive Scanner.Reached (source : String) : Scanner → Prop
  | start : Reached source (.ofString source)
  | next {s : Scanner} : Reached source s → Reached source (final s.next)

/-- The span that a step of the scanner tells: that of its token or of its error. -/
def stepSpan? : Scan (Option Token) → Option Span
  | .ok t _ => t.map Token.span
  | .error e _ => some e.span

namespace Scanner

variable {source : String} {s s' : Scanner}

theorem Reached.within (h : Reached source s) : s.Within source.toList := by
  induction h with
  | start => exact ⟨[], [], rfl, rfl, rfl⟩
  | @next s _ ih =>
    have step := follows_next ih
    generalize s.next = r at step
    cases step with
    | ok within _ => exact within
    | error within _ => exact within

theorem Reached.isTrue (h : Reached source s) {span : Span} (told : stepSpan? s.next = some span) :
    span.IsTrue source := by
  have stretch : IsStretch source.toList span := by
    have step := follows_next h.within
    generalize s.next = r at step told
    cases step with
    | ok _ found => exact found span told
    | error _ failed =>
      cases told
      exact failed
  obtain ⟨a, b, rest, stretch, rfl⟩ := stretch
  exact stretch.isTrue

/-- The scanner ends where the text ends. -/
theorem Reached.position_eq (h : Reached source s) (done : s.next = .ok none s') :
    s'.position = .endOf source := by
  have within : s'.Within source.toList := by
    have reached := h.next
    rw [done] at reached
    exact reached.within
  obtain ⟨-, rfl⟩ := Lexical.next_none.1 done
  obtain ⟨before, inside, text, -, place⟩ := within
  rw [place, ← past_toList, text, List.append_nil]

/-- Each token of a text is found by some step, and the last step finds the end. -/
theorem Reached.tokens {before tokens : List Token} (h : Reached source s)
    (read : tokensAfter before s = .ok tokens) :
    (∀ t ∈ tokens, t ∈ before ∨ ∃ u, Reached source u ∧ stepSpan? u.next = some t.span) ∧
      ∃ u u', Reached source u ∧ u.next = .ok none u' := by
  fun_induction tokensAfter before s with
  | case1 => cases read
  | case2 before s s' step =>
    cases read
    exact ⟨fun t ht => .inl (List.mem_reverse.1 ht), s, s', h, step⟩
  | case3 before s t s' step ih =>
    have reached := h.next
    rw [step] at reached
    obtain ⟨each, finish⟩ := ih reached read
    refine ⟨fun u hu => ?_, finish⟩
    rcases each u hu with earlier | later
    · rcases List.mem_cons.1 earlier with rfl | earlier
      · exact .inr ⟨s, h, by rw [step]; rfl⟩
      · exact .inl earlier
    · exact .inr later

/-- If a text cannot be read, then some step finds out why. -/
theorem Reached.error {before : List Token} {e : ScanError} (h : Reached source s)
    (failed : tokensAfter before s = .error e) :
    ∃ u, Reached source u ∧ stepSpan? u.next = some e.span := by
  fun_induction tokensAfter before s with
  | case1 before s e' s' step =>
    cases failed
    exact ⟨s, h, by rw [step]; rfl⟩
  | case2 => cases failed
  | case3 before s t s' step ih =>
    have reached := h.next
    rw [step] at reached
    exact ih reached failed

end Scanner

/-! ## Errors of the compiler -/

/-- The compiler fails over a sink because of the sink, or as it fails over a listing. -/
theorem deliver_eq_error {σ : Type} [Sink σ] {r : EStateM.Result CompileError Listing Unit}
    {s t : σ} {e : CompileError} (h : deliver r s = .error e t) :
    (∃ fault, e = .write fault) ∨ answer r = .error e := by
  unfold deliver at h
  split at h
  · cases h
    exact .inl ⟨_, rfl⟩
  · split at h
    · cases h
      exact .inr rfl
    · split at h <;> cases h
      exact .inl ⟨_, rfl⟩

/-- An error of the compiler is about a token of the class, or about the end of file. -/
theorem compileClass_error_place {σ : Type} [Sink σ] {c : Cursor} {s t : σ} {e : CompileError}
    {span : Span} (failed : compileClass c s = .error e t) (told : e.span? = some span) :
    (∃ token ∈ c.rest, token.span = span) ∨ span = c.ending := by
  rw [compileClass_eq_deliver] at failed
  rcases deliver_eq_error failed with ⟨fault, rfl⟩ | listed
  · cases told
  -- Two passes over the same tokens remember places of the same tokens.
  have answers := (compileClass_listing_level (c := c) rfl).2
  rw [listed] at answers
  cases answers with
  | error same =>
    obtain ⟨s, place⟩ := same.samePlace told
    cases place with
    | token i found _ => exact .inl ⟨_, List.mem_of_getElem? found, rfl⟩
    | ending => exact .inr rfl

/-- Where an error is, if it is about a place in the source. -/
def Error.span? : Error → Option Span
  | scan e => some e.span
  | compile e => e.span?
  | system _ => none

theorem ofSource_isTrue {source : String} {c : Cursor} (read : Cursor.ofSource source = .ok c) :
    (∀ t ∈ c.rest, t.span.IsTrue source) ∧ c.ending.IsTrue source := by
  obtain ⟨tokens, scanned, rfl⟩ := Cursor.ofSource_eq_ok.1 read
  obtain ⟨each, u, u', reached, done⟩ := Scanner.Reached.start.tokens scanned
  refine ⟨fun t ht => ?_, ?_⟩
  · rcases each t ht with none | ⟨u, reached, told⟩
    · cases none
    · exact reached.isTrue told
  · have stretch : Stretch source.toList (.endOf source) (.endOf source) [] :=
      ⟨source.toList, [], by simp, (past_toList source).symm, by rw [List.append_nil, past_toList]⟩
    exact stretch.isTrue

theorem compileInto_error_isTrue {σ : Type} [Sink σ] {source : String} {s t : σ} {e : Error}
    {span : Span} (failed : compileInto source s = .error e t) (told : e.span? = some span) :
    span.IsTrue source := by
  unfold compileInto at failed
  cases read : Cursor.ofSource source with
  | error e' =>
    rw [read] at failed
    cases failed
    cases told
    obtain ⟨u, reached, told⟩ := Scanner.Reached.start.error (Cursor.ofSource_eq_error.1 read)
    exact reached.isTrue told
  | ok c =>
    rw [read] at failed
    simp only at failed
    split at failed
    · next e' t' failed' =>
      cases failed
      obtain ⟨tokens, ending⟩ := ofSource_isTrue read
      rcases compileClass_error_place failed' told with ⟨token, mem, rfl⟩ | rfl
      · exact tokens token mem
      · exact ending
    · cases failed

/-- Every reported position is true. For every source this holds of the token or the error that any
step of the scanner finds, also after errors, of the tokens and the end of file that the compiler
goes over, and of its errors, whatever the sink is. The end of file, which is read off the text, is
where the scanner ends. -/
theorem reported_positions_true (source : String) :
    (∀ s, Scanner.Reached source s →
      ∀ span, stepSpan? s.next = some span → span.IsTrue source) ∧
    (∀ c, Cursor.ofSource source = .ok c →
      (∀ t ∈ c.rest, t.span.IsTrue source) ∧ c.ending.IsTrue source ∧
      (∃ s s', Scanner.Reached source s ∧ s.next = .ok none s') ∧
      ∀ s s', Scanner.Reached source s → s.next = .ok none s' → c.ending = .point s'.position) ∧
    ∀ (σ : Type) [Sink σ] (s t : σ) (e : Error), compileInto source s = .error e t →
      ∀ span, e.span? = some span → span.IsTrue source := by
  refine ⟨fun s reached span told => reached.isTrue told, fun c read => ?_,
    fun σ _ s t e failed span told => compileInto_error_isTrue failed told⟩
  obtain ⟨tokens, ending⟩ := ofSource_isTrue read
  obtain ⟨list, scanned, rfl⟩ := Cursor.ofSource_eq_ok.1 read
  refine ⟨tokens, ending, (Scanner.Reached.start.tokens scanned).2, fun s s' reached done => ?_⟩
  rw [reached.position_eq done]

/-- A comment of two lines with a character of two bytes, a character that is no token, and a
word. -/
def spoiltSource : String :=
  "/*é\n*/ #\n x"

theorem spoilt_first :
    stepSpan? (Scanner.ofString spoiltSource).next = some ⟨8, 9, 2, 4⟩ := by
  cbv

theorem spoilt_second :
    stepSpan? (final (Scanner.ofString spoiltSource).next).next = some ⟨11, 12, 3, 2⟩ := by
  cbv

/-- A class that ends after its first word, with a comment in the last line. -/
def shortSource : String :=
  "class\n//é"

theorem short_read : Cursor.ofSource shortSource =
    .ok ⟨[⟨.keyword .class, 0, 5, 1, 1⟩], ⟨10, 10, 2, 4⟩⟩ := by
  cbv

theorem short_fails : compileInto shortSource ({} : Listing) =
    .error (.compile (.unexpectedEnd ⟨10, 10, 2, 4⟩)) {} := by
  cbv

theorem spoilt_positions_true :
    (⟨8, 9, 2, 4⟩ : Span).IsTrue spoiltSource ∧ (⟨11, 12, 3, 2⟩ : Span).IsTrue spoiltSource ∧
    (⟨0, 5, 1, 1⟩ : Span).IsTrue shortSource ∧ (⟨10, 10, 2, 4⟩ : Span).IsTrue shortSource := by
  have spoilt := (reported_positions_true spoiltSource).1
  have short := reported_positions_true shortSource
  refine ⟨spoilt _ .start _ spoilt_first, spoilt _ (.next .start) _ spoilt_second, ?_, ?_⟩
  · exact (short.2.1 _ short_read).1 ⟨.keyword .class, 0, 5, 1, 1⟩ (by simp)
  · exact short.2.2 Listing _ _ _ short_fails _ rfl

end Jack
