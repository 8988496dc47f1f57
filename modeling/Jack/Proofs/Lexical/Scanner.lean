import Mathlib
import Jack.Proofs.Lexical.Grammar
import Jack.Token.Scan

/-!
# The scanner reads the lexical grammar

Skipping passes over a gap (`skip_eq_ok`), and reading a token passes over a lexeme
(`token_sound`, `token_complete`). Each is shown in both directions, so what the scanner does
decides where a gap and a lexeme end.
-/

namespace Jack.Lexical

open Scanner

/-! ## Positions -/

theorem advance_cons (p : Position) (c : Char) (cs : List Char) :
    p.advance (c :: cs) = (p.after c).advance cs :=
  rfl

theorem advance_append (p : Position) (cs ds : List Char) :
    p.advance (cs ++ ds) = (p.advance cs).advance ds :=
  List.foldl_append

theorem size_cons (c : Char) (cs : List Char) : size (c :: cs) = c.utf8Size + size cs := by
  rw [size, size, String.ofList_cons, String.utf8ByteSize_append]
  simp

theorem offset_advance (p : Position) (cs : List Char) :
    (p.advance cs).offset = p.offset + size cs := by
  induction cs generalizing p with
  | nil => rfl
  | cons c cs ih =>
    have after : (p.after c).offset = p.offset + c.utf8Size := by
      unfold Position.after
      split <;> rfl
    rw [advance_cons, ih, after, size_cons, Nat.add_assoc]

/-! ## Gaps -/

/-- A text that does not start with a part of a gap. -/
def Stops (cs : List Char) : Prop :=
  ∀ c more, cs = c :: more →
    isBlank c = false ∧ (c = '/' → more.head? ≠ some '/' ∧ more.head? ≠ some '*')

/-- What is still passed over, and what follows it, inside a part of a gap. -/
def Passes : Scanner.Gap → List Char → List Char → Prop
  | .open, passed, rest => Gap passed rest
  | .line, passed, rest => ∃ body gap, passed = body ++ gap ∧ '\n' ∉ body ∧
      (gap ++ rest = [] ∨ (gap ++ rest).head? = some '\n') ∧ Gap gap rest
  | .block _, passed, rest => ∃ body gap, passed = body ++ (['*', '/'] ++ gap) ∧
      ¬ ['*', '/'] <:+: body ∧ Gap gap rest

theorem isBlank_newline : isBlank '\n' := by
  decide

theorem skip_stops {cs : List Char} (stops : Stops cs) (p : Position) :
    skip .open cs p = .ok () ⟨cs, p⟩ := by
  cases cs with
  | nil => rw [skip]; all_goals simp
  | cons c cs =>
    obtain ⟨dark, slash⟩ := stops c cs rfl
    rw [skip]
    · rw [if_neg (by simp [dark])]
    · rintro more rfl rfl
      exact (slash rfl).1 rfl
    · rintro more rfl rfl
      exact (slash rfl).2 rfl

theorem skip_blank {c : Char} (blank : isBlank c) (cs : List Char) (p : Position) :
    skip .open (c :: cs) p = skip .open cs (p.after c) := by
  have : c ≠ '/' := by
    rintro rfl
    revert blank
    decide
  rw [skip]
  · rw [if_pos blank]
  all_goals simp [this]

theorem skip_line {body rest : List Char} (inside : '\n' ∉ body)
    (ends : rest = [] ∨ rest.head? = some '\n') (p : Position) :
    skip .line (body ++ rest) p = skip .open rest (p.advance body) := by
  induction body generalizing p with
  | nil =>
    cases rest with
    | nil => rw [List.append_nil, skip, skip] <;> simp [Position.advance]
    | cons c rest =>
      obtain rfl : c = '\n' := by simpa using ends
      rw [skip_blank isBlank_newline, List.nil_append, skip, if_pos rfl]
      rfl
  | cons c body ih =>
    obtain ⟨other, inside⟩ : '\n' ≠ c ∧ '\n' ∉ body := by simpa using inside
    rw [List.cons_append, skip, if_neg (Ne.symm other), ih inside, advance_cons]

theorem skip_block {body : List Char} (inside : ¬ ['*', '/'] <:+: body) (start p : Position)
    (rest : List Char) :
    skip (.block start) (body ++ (['*', '/'] ++ rest)) p =
      skip .open rest (p.advance (body ++ ['*', '/'])) := by
  induction body generalizing p with
  | nil =>
    change skip (.block start) ('*' :: '/' :: rest) p = _
    rw [skip]
    rfl
  | cons c body ih =>
    rw [List.infix_cons_iff, not_or] at inside
    rw [List.cons_append, skip, ih inside.2, List.cons_append, advance_cons]
    -- the comment does not end here, or its end would be inside the body
    rintro more rfl tail
    cases body with
    | nil => simp at tail
    | cons d body =>
      obtain ⟨rfl, -⟩ := List.cons.inj tail
      exact inside.1 ⟨body, rfl⟩

theorem skip_part {part rest : List Char} (h : GapPart part rest) (p : Position) :
    skip .open (part ++ rest) p = skip .open rest (p.advance part) := by
  cases h with
  | blank blank => exact skip_blank blank rest p
  | line inside ends =>
    rw [List.cons_append, List.cons_append, skip, skip_line inside ends]
    rfl
  | @block body rest inside =>
    rw [List.cons_append, List.cons_append, skip, List.append_assoc, skip_block inside]
    rfl

theorem skip_gap {gap rest : List Char} (h : Gap gap rest) (p : Position) :
    skip .open (gap ++ rest) p = skip .open rest (p.advance gap) := by
  induction h generalizing p with
  | nil => rfl
  | cons first _ ih => rw [List.append_assoc, skip_part first, ih, advance_append]

theorem passes_line {c : Char} {passed rest : List Char} (other : c ≠ '\n')
    (h : Passes .line passed rest) : Passes .line (c :: passed) rest := by
  obtain ⟨body, gap, rfl, inside, ends, more⟩ := h
  exact ⟨c :: body, gap, rfl, by simp [Ne.symm other, inside], ends, more⟩

theorem passes_block {c : Char} {passed rest : List Char} {start : Position}
    (continues : c = '*' → (passed ++ rest).head? ≠ some '/')
    (h : Passes (.block start) passed rest) : Passes (.block start) (c :: passed) rest := by
  obtain ⟨body, gap, rfl, inside, more⟩ := h
  refine ⟨c :: body, gap, rfl, ?_, more⟩
  rw [List.infix_cons_iff, not_or]
  refine ⟨?_, inside⟩
  rintro ⟨tail, same⟩
  obtain ⟨rfl, rfl⟩ := List.cons.inj same
  exact continues rfl rfl

/-- Whatever skipping passes over, from inside any part of a gap, is the rest of that part and a
gap. It stops where no other part starts. -/
theorem skip_sound {g : Scanner.Gap} {cs : List Char} {p : Position} {r : Unit} {s : Scanner}
    (h : skip g cs p = .ok r s) :
    ∃ passed, cs = passed ++ s.rest ∧ s.position = p.advance passed ∧ Passes g passed s.rest ∧
      Stops s.rest := by
  fun_induction skip g cs p with
  | case1 cs p ih =>
    obtain ⟨_, rfl, place, ⟨body, gap, rfl, inside, ends, more⟩, stops⟩ := ih h
    refine ⟨('/' :: '/' :: body) ++ gap, by simp, ?_, .cons (.line inside ends) more, stops⟩
    rw [place]
    rfl
  | case2 cs p ih =>
    obtain ⟨_, rfl, place, ⟨body, gap, rfl, inside, more⟩, stops⟩ := ih h
    refine ⟨('/' :: '*' :: (body ++ ['*', '/'])) ++ gap, by simp, ?_,
      .cons (.block inside) more, stops⟩
    rw [place, ← advance_append]
    simp
  | case3 c cs p _ _ blank ih =>
    obtain ⟨gap, rfl, place, more, stops⟩ := ih h
    exact ⟨c :: gap, rfl, place, .cons (.blank blank) more, stops⟩
  | case4 c cs p line block dark =>
    cases h
    refine ⟨[], rfl, rfl, .nil, ?_⟩
    intro d more same
    obtain ⟨rfl, rfl⟩ := List.cons.inj same
    refine ⟨by simpa using dark, ?_⟩
    rintro rfl
    constructor <;> intro head <;> obtain ⟨tail, rfl⟩ := List.head?_eq_some_iff.1 head
    · exact line tail rfl rfl
    · exact block tail rfl rfl
  | case5 c cs p ih =>
    obtain ⟨passed, rfl, place, more, stops⟩ := ih h
    refine ⟨c :: passed, rfl, place, ?_, stops⟩
    split at more
    · next newline =>
      subst newline
      exact ⟨[], '\n' :: passed, rfl, by simp, .inr rfl, .cons (.blank isBlank_newline) more⟩
    · next other => exact passes_line other more
  | case6 start cs p ih =>
    obtain ⟨gap, rfl, place, more, stops⟩ := ih h
    exact ⟨'*' :: '/' :: gap, rfl, place, ⟨[], gap, rfl, by simp, more⟩, stops⟩
  | case7 start c cs p unclosed ih =>
    obtain ⟨passed, rfl, place, more, stops⟩ := ih h
    refine ⟨c :: passed, rfl, place, passes_block ?_ more, stops⟩
    rintro rfl head
    obtain ⟨tail, same⟩ := List.head?_eq_some_iff.1 head
    exact unclosed tail rfl same
  | case8 => cases h
  | case9 g p unblocked =>
    cases h
    refine ⟨[], rfl, rfl, ?_, by simp [Stops]⟩
    cases g with
    | «open» => exact .nil
    | line => exact ⟨[], [], rfl, by simp, .inl rfl, .nil⟩
    | block start => exact absurd rfl (unblocked start)

/-- Skipping passes over exactly the gap in front of a text where no gap starts. -/
theorem skip_eq_ok {cs : List Char} {p : Position} {s : Scanner} :
    skip .open cs p = .ok () s ↔
      ∃ gap, cs = gap ++ s.rest ∧ s.position = p.advance gap ∧ Gap gap s.rest ∧ Stops s.rest := by
  refine ⟨skip_sound, ?_⟩
  rintro ⟨gap, rfl, place, h, stops⟩
  rw [skip_gap h, skip_stops stops, ← place]

/-! ## String constants -/

theorem string_complete {more : List Char} (unquoted : '"' ∉ more) (line : '\n' ∉ more)
    (codes : ∀ c ∈ more, c.toNat ≤ 32767) (start p : Position) (body rest : List Char) (n : Nat)
    (short : n + more.length ≤ 32767) :
    string start (more ++ '"' :: rest) p body n =
      .ok ⟨.string (.ofList (body.reverse ++ more)), .between start (p.advance (more ++ ['"']))⟩
        ⟨rest, p.advance (more ++ ['"'])⟩ := by
  induction more generalizing p body n with
  | nil =>
    rw [List.nil_append, string, if_neg (by decide), if_pos rfl, List.append_nil]
    rfl
  | cons c more ih =>
    simp only [List.mem_cons, not_or, forall_eq_or_imp] at unquoted line codes
    rw [List.length_cons] at short
    rw [List.cons_append, string, if_neg (Ne.symm line.1), if_neg (Ne.symm unquoted.1),
      if_neg (by simpa [maxConstant] using codes.1), if_neg (by rw [maxConstant]; omega),
      ih unquoted.2 line.2 codes.2 _ _ _ (by omega), List.reverse_cons, List.append_assoc]
    rfl

theorem string_sound {start p : Position} {cs body : List Char} {n : Nat} {t : Token} {s : Scanner}
    (h : string start cs p body n = .ok t s) (short : n ≤ 32767) :
    ∃ more, cs = more ++ '"' :: s.rest ∧ '"' ∉ more ∧ '\n' ∉ more ∧
      n + more.length ≤ 32767 ∧ (∀ c ∈ more, c.toNat ≤ 32767) ∧
      s.position = p.advance (more ++ ['"']) ∧
      t = ⟨.string (.ofList (body.reverse ++ more)), .between start s.position⟩ := by
  fun_induction string start cs p body n with
  | case1 => cases h
  | case2 => cases h
  | case3 cs p body n after line =>
    cases h
    exact ⟨[], rfl, by simp, by simp, short, by simp, rfl, by simp⟩
  | case4 => cases h
  | case5 => cases h
  | case6 c cs p body n after line quote code full ih =>
    simp only [maxConstant] at code full
    obtain ⟨more, rfl, unquoted, line', short', codes, place, rfl⟩ := ih h (by omega)
    refine ⟨c :: more, rfl, by simp [Ne.symm quote, unquoted], by simp [Ne.symm line, line'], ?_,
      ?_, place, by simp⟩
    · rw [List.length_cons]
      omega
    · rw [List.forall_mem_cons]
      exact ⟨by omega, codes⟩

/-! ## Classes of characters -/

theorem isWordChar_iff {c : Char} : isWordChar c ↔ c.isAlphanum ∨ c = '_' := by
  simp [isWordChar]

theorem isWordStart_iff {c : Char} : isWordStart c ↔ c.isAlpha ∨ c = '_' := by
  simp [isWordStart]

theorem isWordChar_of_isDigit {c : Char} (h : c.isDigit) : isWordChar c := by
  simp [isWordChar, Char.isAlphanum, h]

theorem isWordChar_of_isWordStart {c : Char} (h : isWordStart c) : isWordChar c := by
  rw [isWordStart_iff] at h
  rw [isWordChar_iff, Char.isAlphanum, Bool.or_eq_true]
  exact h.imp_left .inl

theorem isDigit_iff {c : Char} : c.isDigit ↔ 48 ≤ c.toNat ∧ c.toNat ≤ 57 := by
  simp only [Char.isDigit, Bool.and_eq_true, decide_eq_true_eq, UInt32.le_iff_toNat_le, ge_iff_le]
  rfl

theorem isAlpha_iff {c : Char} :
    c.isAlpha ↔ 65 ≤ c.toNat ∧ c.toNat ≤ 90 ∨ 97 ≤ c.toNat ∧ c.toNat ≤ 122 := by
  simp only [Char.isAlpha, Char.isUpper, Char.isLower, Bool.or_eq_true, Bool.and_eq_true,
    decide_eq_true_eq, UInt32.le_iff_toNat_le, ge_iff_le]
  rfl

theorem toNat_of_isWordChar {c : Char} (h : isWordChar c) : 48 ≤ c.toNat ∧ c.toNat ≤ 122 := by
  obtain h | rfl := isWordChar_iff.1 h
  · rw [Char.isAlphanum, Bool.or_eq_true, isAlpha_iff, isDigit_iff] at h
    omega
  · decide

/-- A character of a word starts neither a gap nor a string constant. -/
theorem dark_of_isWordChar {c : Char} (h : isWordChar c) :
    isBlank c = false ∧ c ≠ '/' ∧ c ≠ '"' := by
  have ⟨lower, upper⟩ := toNat_of_isWordChar h
  refine ⟨?_, ?_, ?_⟩
  · simp only [isBlank, blankRanges, List.any_cons, List.any_nil, Bool.or_false,
      Bool.or_eq_false_iff, Bool.and_eq_false_imp, decide_eq_true_eq, decide_eq_false_iff_not]
    omega
  · rintro rfl
    exact absurd lower (by decide)
  · rintro rfl
    exact absurd lower (by decide)

theorem not_isDigit_of_isWordStart {c : Char} (h : isWordStart c) : c.isDigit = false := by
  obtain h | rfl := isWordStart_iff.1 h
  · rw [isAlpha_iff] at h
    rw [← Bool.not_eq_true, isDigit_iff]
    omega
  · decide

/-- A symbol starts neither a string constant nor a number nor a word, and is not white space. -/
theorem dark_of_mem_symbols : ∀ c ∈ symbols,
    c ≠ '"' ∧ c.isDigit = false ∧ isWordStart c = false ∧ isBlank c = false := by
  have all : symbols.all fun c =>
      c ≠ '"' ∧ c.isDigit = false ∧ isWordStart c = false ∧ isBlank c = false := by decide
  simpa only [List.all_eq_true, decide_eq_true_eq] using all

/-- The longest run of some class is the run that nothing of the class follows. -/
theorem span_run {f : Char → Bool} {run rest : List Char} (inside : ∀ c ∈ run, f c)
    (ends : ∀ c, rest.head? = some c → f c = false) :
    (run ++ rest).takeWhile f = run ∧ (run ++ rest).dropWhile f = rest := by
  rw [List.takeWhile_append_of_pos inside, List.dropWhile_append_of_pos inside]
  cases rest with
  | nil => simp
  | cons c rest => simp [ends c rfl]

theorem head_dropWhile {f : Char → Bool} {cs : List Char} {c : Char}
    (h : (cs.dropWhile f).head? = some c) : f c = false := by
  have := List.head?_dropWhile_not f cs
  rwa [h] at this

/-! ## Lexemes -/

theorem ofWord_keyword {word : String} {k : Keyword} (h : k.text = word) :
    TokenKind.ofWord word = .keyword k := by
  rw [TokenKind.ofWord, ← h, Keyword.ofText?_text]

theorem ofWord_identifier {word : String} (h : ∀ k : Keyword, k.text ≠ word) :
    TokenKind.ofWord word = .identifier word := by
  have : Keyword.ofText? word = none := by
    rw [Keyword.ofText?, List.find?_eq_none]
    intro k _
    simpa using h k
  rw [TokenKind.ofWord, this]

theorem lexeme_word {c : Char} {cs rest : List Char} (h : Word c cs rest) :
    Lexeme (c :: cs) (.ofWord (.ofList (c :: cs))) rest := by
  by_cases reserved : ∃ k : Keyword, k.text = .ofList (c :: cs)
  · obtain ⟨k, same⟩ := reserved
    rw [ofWord_keyword same]
    exact .keyword h same
  · rw [not_exists] at reserved
    rw [ofWord_identifier reserved]
    exact .identifier h reserved

/-- No gap starts where a lexeme starts. -/
theorem Lexeme.stops {lexeme rest : List Char} {kind : TokenKind} (h : Lexeme lexeme kind rest) :
    Stops (lexeme ++ rest) := by
  have word {c : Char} {more : List Char} (start : isWordChar c) : Stops (c :: more) := by
    intro d _ same
    obtain ⟨rfl, rfl⟩ := List.cons.inj same
    exact ⟨(dark_of_isWordChar start).1, fun slash => absurd slash (dark_of_isWordChar start).2.1⟩
  cases h with
  | @symbol c rest mem slash =>
    intro d _ same
    obtain ⟨rfl, rfl⟩ := List.cons.inj same
    exact ⟨(dark_of_mem_symbols c mem).2.2.2, slash⟩
  | int some inside _ _ =>
    obtain ⟨c, more, rfl⟩ := List.exists_cons_of_ne_nil some
    exact word (isWordChar_of_isDigit (inside c (by simp)))
  | keyword w _ => exact word (isWordChar_of_isWordStart (isWordStart_iff.2 w.start))
  | identifier w _ => exact word (isWordChar_of_isWordStart (isWordStart_iff.2 w.start))
  | string =>
    intro d _ same
    obtain ⟨rfl, -⟩ := List.cons.inj same
    exact ⟨by decide, fun slash => absurd slash (by decide)⟩

theorem token_word {c : Char} {cs rest : List Char} (h : Word c cs rest) (p : Position) :
    token c (cs ++ rest) p =
      .ok ⟨.ofWord (.ofList (c :: cs)), .between p (p.advance (c :: cs))⟩
        ⟨rest, p.advance (c :: cs)⟩ := by
  have start := isWordStart_iff.2 h.start
  have quote := (dark_of_isWordChar (isWordChar_of_isWordStart start)).2.2
  obtain ⟨take, drop⟩ := span_run (f := isWordChar) (fun d mem => isWordChar_iff.2 (h.more d mem))
    (fun d head => by rw [← Bool.not_eq_true, isWordChar_iff]; exact h.ends d head)
  rw [token, if_neg quote, if_neg (by simp [not_isDigit_of_isWordStart start]), if_pos start,
    take, drop]

/-- A lexeme is read as its token, whatever stands before it. -/
theorem token_complete {lexeme rest : List Char} {kind : TokenKind}
    (h : Lexeme lexeme kind rest) (p : Position) :
    ∃ c cs, lexeme = c :: cs ∧ token c (cs ++ rest) p =
      .ok ⟨kind, .between p (p.advance lexeme)⟩ ⟨rest, p.advance lexeme⟩ := by
  cases h with
  | @symbol c rest mem _ =>
    obtain ⟨quote, digit, start, -⟩ := dark_of_mem_symbols c mem
    refine ⟨c, [], rfl, ?_⟩
    rw [token, if_neg quote, if_neg (by simp [digit]), if_neg (by simp [start]),
      if_pos (by simpa [isSymbol] using mem)]
    rfl
  | int some inside ends small =>
    obtain ⟨c, digits, rfl⟩ := List.exists_cons_of_ne_nil some
    rw [List.forall_mem_cons] at inside
    have quote := (dark_of_isWordChar (isWordChar_of_isDigit inside.1)).2.2
    obtain ⟨take, drop⟩ := span_run inside.2 (fun d head => by simpa using ends d head)
    refine ⟨c, digits, rfl, ?_⟩
    rw [token, if_neg quote, if_pos inside.1, take, drop]
    exact if_pos small
  | keyword w same => exact ⟨_, _, rfl, ofWord_keyword same ▸ token_word w p⟩
  | identifier w other => exact ⟨_, _, rfl, ofWord_identifier other ▸ token_word w p⟩
  | @string body rest unquoted line short codes =>
    refine ⟨'"', body ++ ['"'], rfl, ?_⟩
    rw [token, if_pos rfl, List.append_assoc, List.singleton_append,
      string_complete unquoted line codes _ _ _ _ _ (by omega)]
    rfl

/-- Whatever is read as a token where no gap starts is a lexeme of that token. -/
theorem token_sound {c : Char} {cs : List Char} {p : Position} {t : Token} {s : Scanner}
    (stops : Stops (c :: cs)) (h : token c cs p = .ok t s) :
    ∃ lexeme, c :: cs = lexeme ++ s.rest ∧ Lexeme lexeme t.kind s.rest ∧
      s.position = p.advance lexeme ∧ t.span = .between p s.position := by
  unfold token at h
  split at h
  · next quote =>
    subst quote
    obtain ⟨body, rfl, unquoted, line, short, codes, place, rfl⟩ := string_sound h (by decide)
    rw [Nat.zero_add] at short
    exact ⟨'"' :: (body ++ ['"']), by simp, .string unquoted line short codes, place, rfl⟩
  split at h
  · next digit =>
    dsimp only at h
    split at h
    · next small =>
      cases h
      refine ⟨c :: cs.takeWhile Char.isDigit, by simp, .int (by simp) ?_ ?_ small, rfl, rfl⟩
      · rw [List.forall_mem_cons]
        exact ⟨digit, fun d mem => List.all_eq_true.1 List.all_takeWhile d mem⟩
      · intro d head
        rw [head_dropWhile head]
        decide
    · cases h
  split at h
  · next start =>
    cases h
    refine ⟨c :: cs.takeWhile isWordChar, by simp, lexeme_word ⟨?_, ?_, ?_⟩, rfl, rfl⟩
    · exact isWordStart_iff.1 start
    · exact fun d mem => isWordChar_iff.1 (List.all_eq_true.1 List.all_takeWhile d mem)
    · intro d head
      rw [← isWordChar_iff, head_dropWhile head]
      decide
  split at h
  · next mem =>
    cases h
    have mem : c ∈ symbols := by simpa [isSymbol] using mem
    exact ⟨[c], rfl, .symbol mem (stops c cs rfl).2, rfl, rfl⟩
  · cases h

end Jack.Lexical
