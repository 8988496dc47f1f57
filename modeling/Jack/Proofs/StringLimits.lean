import Mathlib
import Jack.Proofs.Descent.Calls
import Jack.Proofs.Layout
import Jack.Proofs.Lexical.Printing

/-!
# Limits of strings

The length of a string and the codes of its characters are constants of the machine. Both the
scanner and the compiler see to this, each in its own way, and they agree. So the compiler never
refuses a string that was read from a source. Compiling a source into text has no sink that could
fail, and the code is always a text, so the only errors left are those of the source.
-/

namespace Jack

namespace Lexical

/-! ## Quoted text -/

/-- A lexeme that starts with a quote is a string, and goes on to the next quote. -/
theorem Lexeme.of_quote {lexeme rest cs : List Char} {kind : TokenKind}
    (h : Lexeme lexeme kind rest) (same : lexeme ++ rest = '"' :: cs) :
    ∃ body, Printable (.string (.ofList body)) ∧ cs = body ++ '"' :: rest := by
  have noWord : ¬ ('"'.isAlpha ∨ '"' = '_') := by decide
  cases h with
  | symbol mem _ =>
    cases same
    exact absurd mem (by decide)
  | int some digits _ _ =>
    obtain ⟨c, more, rfl⟩ := List.exists_cons_of_ne_nil some
    cases same
    exact absurd (digits '"' List.mem_cons_self) (by decide)
  | keyword word _ =>
    cases same
    exact absurd word.start noWord
  | identifier word _ =>
    cases same
    exact absurd word.start noWord
  | @string body _ unquoted line short codes =>
    have printable := (@Lexeme.string body rest unquoted line short codes).printable
    refine ⟨body, printable, ?_⟩
    simpa using same.symm

theorem stops_quote (cs : List Char) : Stops ('"' :: cs) := by
  intro c more same
  cases same
  exact ⟨by decide, fun slash => absurd slash (by decide)⟩

/-- A text that can be read and starts with a quote starts with a string. -/
theorem Splits.of_quote {text cs last : List Char} {pieces : List Piece}
    (h : Splits text pieces last) (same : text = '"' :: cs) :
    ∃ body rest, Printable (.string (.ofList body)) ∧ cs = body ++ '"' :: rest := by
  have gapless {gap rest : List Char} (isGap : Gap gap rest) (stops : Stops rest)
      (whole : gap ++ rest = [] ++ '"' :: cs) : rest = '"' :: cs :=
    (gap_unique whole isGap .nil stops (stops_quote cs)).2
  cases h with
  | done isGap =>
    have empty := gapless isGap (by simp [Stops]) (by simpa using same)
    cases empty
  | @piece p rest _ _ isGap isLexeme _ =>
    obtain ⟨body, printable, split⟩ := isLexeme.of_quote (gapless isGap isLexeme.stops same)
    exact ⟨body, rest, printable, split⟩

theorem toList_quoted (s : String) : ("\"" ++ s ++ "\"").toList = '"' :: (s.toList ++ ['"']) := by
  simp

/-- Up to the first quote, a text is the same however it is cut. -/
theorem eq_of_append_quote {cs ds rest rest' : List Char} (hc : '"' ∉ cs) (hd : '"' ∉ ds)
    (same : cs ++ '"' :: rest = ds ++ '"' :: rest') : cs = ds := by
  have before {bs : List Char} (h : '"' ∉ bs) (more : List Char) :
      (bs ++ '"' :: more).takeWhile (· ≠ '"') = bs := by
    rw [List.takeWhile_append_of_pos]
    · simp
    · intro c hb
      simpa using ne_of_mem_of_not_mem hb h
  rw [← before hc rest, same, before hd rest']

theorem printable_of_quoted {s : String} {tokens : List Token} (unquoted : '"' ∉ s.toList)
    (h : scan ("\"" ++ s ++ "\"") = .ok tokens) : Printable (.string s) := by
  obtain ⟨pieces, last, split⟩ := tokensAfter_sound h
  obtain ⟨body, rest, printable, same⟩ := split.of_quote (toList_quoted s)
  have noQuote : '"' ∉ body := by simpa using printable.1
  obtain rfl := eq_of_append_quote unquoted noQuote same
  rwa [String.ofList_toList] at printable

theorem scan_quoted {s : String} (printable : Printable (.string s)) :
    ∃ tokens, scan ("\"" ++ s ++ "\"") = .ok tokens ∧ tokens.map Token.kind = [.string s] :=
  scan_printed (List.forall_mem_singleton.2 printable) (.one (.string s))

theorem kinds_quoted {s : String} {tokens : List Token} (unquoted : '"' ∉ s.toList)
    (h : scan ("\"" ++ s ++ "\"") = .ok tokens) : tokens.map Token.kind = [.string s] := by
  obtain ⟨tokens', read, single⟩ := scan_quoted (printable_of_quoted unquoted h)
  cases h.symm.trans read
  exact single

end Lexical

/-! ## Strings in the compiler -/

/-- The scanner and the compiler have the same limits. -/
theorem printable_iff_isEncodable {s : String} (unquoted : '"' ∉ s.toList)
    (line : '\n' ∉ s.toList) : Lexical.Printable (.string s) ↔ isEncodable s = true := by
  simp only [isEncodable, Bool.and_eq_true, List.all_eq_true, decide_eq_true_eq]
  constructor
  · rintro ⟨-, -, short, codes⟩
    exact ⟨codes, short⟩
  · rintro ⟨codes, short⟩
    exact ⟨unquoted, line, short, codes⟩

theorem scan_quoted_iff {s : String} (unquoted : '"' ∉ s.toList) (line : '\n' ∉ s.toList) :
    (∃ tokens, scan ("\"" ++ s ++ "\"") = .ok tokens) ↔ isEncodable s = true := by
  rw [← printable_iff_isEncodable unquoted line]
  constructor
  · rintro ⟨tokens, read⟩
    exact Lexical.printable_of_quoted unquoted read
  · intro printable
    obtain ⟨tokens, read, -⟩ := Lexical.scan_quoted printable
    exact ⟨tokens, read⟩

/-- Of a string that cannot be written nothing is written, and a sink that takes everything takes
the other strings. -/
theorem stringConstant_error_iff {σ : Type} [Sink σ] {s : String} {span : Span} {p : Progress σ}
    (roomy : Roomy p.sink) {e : CompileError} {q : Progress σ} :
    Pass.stringConstant s span p = .error e q ↔
      isEncodable s = false ∧ e = .tooMany .characters span ∧ q = p := by
  rw [Pass.stringConstant]
  cases isEncodable s with
  | true =>
    obtain ⟨r, written, -⟩ := Pass.emitAll_ok (stringCode s) roomy
    simp [written]
  | false =>
    have refused : (throw (.tooMany .characters span) : Pass σ Unit) p =
        .error (.tooMany .characters span) p := rfl
    simp [refused, eq_comm]

/-- A pass fails on account of a string only if there is one that cannot be written. -/
theorem exists_oversized_of_error {σ : Type} [Sink σ] {cursor : Cursor} {s s' : σ}
    {e : CompileError} (h : compileClass cursor s = .error e s')
    (refused : e.isStringLimit = true) :
    ∃ t ∈ cursor.rest, ∃ text, t.kind = .string text ∧ isEncodable text = false := by
  rw [compileClass] at h
  split at h
  · next failed =>
    cases h
    exact (Pass.ends_classUnit _ { cursor, sink := s }).error e _ failed refused
  · split at h <;> cases h
    cases refused

/-! ## Sources -/

/-- What is wrong with a source is in its text: no sink fails, and no string is too long for the
compiler that was not so for the scanner. -/
theorem compile_error_cases {source : String} {e : Error} (h : compile source = .error e) :
    (∃ e', e = .scan e') ∨ ∃ e', e = .compile e' ∧ e'.span?.isSome ∧ e'.isStringLimit = false := by
  cases read : Cursor.ofSource source with
  | error e' =>
    rw [compile, compileBytes, compileInto, read] at h
    cases h
    exact .inl ⟨e', rfl⟩
  | ok c =>
    obtain ⟨tokens, scanned, rfl⟩ := Cursor.ofSource_eq_ok.1 read
    have encodable {t : Token} {text : String} (ht : t ∈ tokens)
        (isString : t.kind = .string text) : isEncodable text = true := by
      have printable := Lexical.printable_of_scan scanned t.kind (List.mem_map_of_mem ht)
      rw [isString] at printable
      exact (printable_iff_isEncodable printable.1 printable.2.1).1 printable
    rw [compile_of_cursor read] at h
    split at h
    · cases h
    · next e' l failed =>
      cases h
      refine .inr ⟨e', rfl, compileClass_listing_error failed, ?_⟩
      refine Bool.eq_false_iff.2 fun refused => ?_
      obtain ⟨t, ht, text, isString, oversized⟩ := exists_oversized_of_error failed refused
      cases (encodable ht isString).symm.trans oversized

/-- The scanner and the compiler agree on which strings are within the limits: a quoted string is
read, as one token, exactly if the compiler can write it to a sink that takes everything, and if the
compiler refuses a string then nothing is done. So for every source the compiler refuses no string,
and it never blames a stream. -/
theorem string_limits_agree :
    (∀ s : String, '"' ∉ s.toList → '\n' ∉ s.toList →
      ∀ (span : Span) (p : Progress Buffer), p.sink.capacity = none →
        ((∃ tokens, scan ("\"" ++ s ++ "\"") = .ok tokens) ↔
          ∀ what place q, Pass.stringConstant s span p ≠ .error (.tooMany what place) q) ∧
        (∀ tokens, scan ("\"" ++ s ++ "\"") = .ok tokens →
          tokens.map Token.kind = [.string s]) ∧
        ∀ e q, Pass.stringConstant s span p = .error e q →
          e = .tooMany .characters span ∧ q = p) ∧
    ∀ source,
      (∀ span, compile source ≠ .error (.compile (.tooMany .characters span))) ∧
      (∀ fault, compile source ≠ .error (.compile (.write fault))) ∧
      ∀ fault, compile source ≠ .error (.system fault) := by
  refine ⟨?_, fun source => ⟨?_, ?_, ?_⟩⟩
  · intro s unquoted line span p unlimited
    have refused {e : CompileError} {q : Progress Buffer} :
        Pass.stringConstant s span p = .error e q ↔
          isEncodable s = false ∧ e = .tooMany .characters span ∧ q = p :=
      stringConstant_error_iff (roomy_buffer unlimited)
    refine ⟨?_, fun tokens => Lexical.kinds_quoted unquoted, fun e q h => (refused.1 h).2⟩
    rw [scan_quoted_iff unquoted line]
    constructor
    · intro short what place q h
      rw [(refused.1 h).1] at short
      cases short
    · intro never
      by_contra long
      exact never .characters span p (refused.2 ⟨by simpa using long, rfl, rfl⟩)
  · intro span h
    rcases compile_error_cases h with ⟨e, other⟩ | ⟨e, same, -, limit⟩
    · cases other
    · cases same
      cases limit
  · intro fault h
    rcases compile_error_cases h with ⟨e, other⟩ | ⟨e, same, placed, -⟩
    · cases other
    · cases same
      cases placed
  · intro fault h
    rcases compile_error_cases h with ⟨e, other⟩ | ⟨e, other, -⟩
    · cases other
    · cases other

/-- A pass that has not written anything, with no tokens left. -/
def blankProgress : Progress Buffer where
  cursor := ⟨[], .point {}⟩
  sink := {}

/-- A character with a large code is refused by the scanner, and the compiler would refuse it. -/
theorem clef_refused_twice :
    (¬ ∃ tokens, scan "\"𝄞\"" = .ok tokens) ∧
      Pass.stringConstant "𝄞" (.point {}) blankProgress =
        .error (.tooMany .characters (.point {})) blankProgress := by
  have refused : Pass.stringConstant "𝄞" (.point {}) blankProgress =
      .error (.tooMany .characters (.point {})) blankProgress :=
    (stringConstant_error_iff (roomy_buffer rfl)).2 ⟨by decide, rfl, rfl⟩
  have agree := string_limits_agree.1 "𝄞" (by decide) (by decide) (.point {}) blankProgress rfl
  exact ⟨fun read => agree.1.1 read _ _ _ refused, refused⟩

end Jack
