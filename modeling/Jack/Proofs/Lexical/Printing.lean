import Mathlib
import Jack.Proofs.Lexical.MaximalMunch

/-!
# Printing tokens and reading them again

`TokenKind.text` is a printer for tokens. The tokens that it can print are exactly those that the
scanner finds. If such tokens are printed with white space between them, then the scanner reads
the same tokens again.
-/

namespace Jack.Lexical

/-! ## Tokens that can be printed -/

/-- A letter or an underscore, and then letters, digits and underscores. -/
def IsWord (name : String) : Prop :=
  ∃ c cs, name.toList = c :: cs ∧ (c.isAlpha ∨ c = '_') ∧ ∀ d ∈ cs, d.isAlphanum ∨ d = '_'

/-- A token whose text can be read. -/
def Printable : TokenKind → Prop
  | .keyword _ => True
  | .symbol c => c ∈ symbols
  | .int n => n ≤ 32767
  | .string s => '"' ∉ s.toList ∧ '\n' ∉ s.toList ∧ s.length ≤ 32767 ∧
      ∀ c ∈ s.toList, c.toNat ≤ 32767
  | .identifier name => IsWord name ∧ ∀ k : Keyword, k.text ≠ name

/-- Every token that the scanner finds can be printed. -/
theorem Lexeme.printable {lexeme rest : List Char} {kind : TokenKind}
    (h : Lexeme lexeme kind rest) : Printable kind := by
  cases h with
  | symbol mem _ => exact mem
  | int _ _ _ small => exact small
  | keyword _ _ => trivial
  | @identifier c cs _ word other =>
    exact ⟨⟨c, cs, String.toList_ofList, word.start, word.more⟩, other⟩
  | @string body _ unquoted line short codes =>
    show '"' ∉ (String.ofList body).toList ∧ _
    rw [String.toList_ofList, String.length_ofList]
    exact ⟨unquoted, line, short, codes⟩

theorem printable_of_scan {source : String} {tokens : List Token} (h : scan source = .ok tokens) :
    ∀ k ∈ tokens.map Token.kind, Printable k := by
  intro k hk
  obtain ⟨t, ht, rfl⟩ := List.mem_map.1 hk
  obtain ⟨lexeme, rest, isLexeme⟩ := lexeme_of_mem_scan h ht
  exact isLexeme.printable

theorem printable_of_kinds {source : String} {kinds : List TokenKind}
    (h : (scan source).map (List.map Token.kind) = .ok kinds) : ∀ k ∈ kinds, Printable k := by
  cases scanned : scan source with
  | error e =>
    rw [scanned] at h
    cases h
  | ok tokens =>
    rw [scanned, Except.map, Except.ok.injEq] at h
    rw [← h]
    exact printable_of_scan scanned

/-! ## The text of a token -/

/-- The end of a text, or white space. -/
def Apart (rest : List Char) : Prop :=
  ∀ c, rest.head? = some c → isBlank c

theorem apart_nil : Apart [] := by
  simp [Apart]

theorem apart_run {run : List Char} (some : run ≠ []) (blank : ∀ c ∈ run, isBlank c)
    (rest : List Char) : Apart (run ++ rest) := by
  obtain ⟨d, more, rfl⟩ := List.exists_cons_of_ne_nil some
  rintro c ⟨⟩
  exact blank d (by simp)

/-- White space does not continue a word or a number. -/
theorem Apart.not_word {rest : List Char} (h : Apart rest) {c : Char}
    (head : rest.head? = some c) : ¬ Scanner.isWordChar c := by
  intro word
  have blank := h c head
  rw [(dark_of_isWordChar word).1] at blank
  cases blank

theorem IsWord.word {name : String} (h : IsWord name) {rest : List Char} (apart : Apart rest) :
    ∃ c cs, name.toList = c :: cs ∧ Word c cs rest := by
  obtain ⟨c, cs, spelled, start, more⟩ := h
  refine ⟨c, cs, spelled, start, more, ?_⟩
  intro d head isWord
  exact apart.not_word head (isWordChar_iff.2 isWord)

theorem isWord_iff {name : String} : IsWord name ↔
    (name.toList.head?.any Scanner.isWordStart &&
      name.toList.tail.all Scanner.isWordChar) = true := by
  cases spelled : name.toList <;> simp [IsWord, spelled, isWordStart_iff, isWordChar_iff]

instance : DecidablePred IsWord :=
  fun _ => decidable_of_iff _ isWord_iff.symm

theorem isWord_keyword (k : Keyword) : IsWord k.text := by
  cases k <;> decide

theorem lexeme_digits {n : Nat} (small : n ≤ 32767) {rest : List Char} (apart : Apart rest) :
    Lexeme n.repr.toList (.int n) rest := by
  have value : Nat.ofDigitChars 10 (Nat.toDigits 10 n) 0 = n := Nat.ofDigitChars_ten_toDigits
  have read :
      Lexeme (Nat.toDigits 10 n) (.int (Nat.ofDigitChars 10 (Nat.toDigits 10 n) 0)) rest := by
    refine .int Nat.toDigits_ne_nil ?_ ?_ ?_
    · exact fun c hc => Nat.isDigit_of_mem_toDigits (by decide) (by decide) hc
    · exact fun c head digit => apart.not_word head (isWordChar_of_isDigit digit)
    · rw [value]
      exact small
  rw [value] at read
  rwa [Nat.toList_repr]

/-- A token that can be printed is read from its text, if white space or nothing follows. -/
theorem lexeme_text {kind : TokenKind} (h : Printable kind) {rest : List Char}
    (apart : Apart rest) : Lexeme kind.text.toList kind rest := by
  cases kind with
  | keyword k =>
    obtain ⟨c, cs, spelled, word⟩ := (isWord_keyword k).word apart
    have text : k.text = .ofList (c :: cs) := by rw [← spelled, String.ofList_toList]
    show Lexeme k.text.toList _ _
    rw [spelled]
    exact .keyword word text
  | symbol c =>
    have single : (TokenKind.symbol c).text.toList = [c] := String.toList_singleton c
    rw [single]
    refine .symbol h fun _ => ⟨?_, ?_⟩ <;>
    · intro head
      exact absurd (apart _ head) (by decide)
  | int n => exact lexeme_digits h apart
  | string s =>
    obtain ⟨unquoted, line, short, codes⟩ := h
    have quoted : (TokenKind.string s).text.toList = '"' :: (s.toList ++ ['"']) := by
      simp [TokenKind.text]
    rw [quoted]
    have read := @Lexeme.string s.toList rest unquoted line (by rwa [String.length_toList]) codes
    rwa [String.ofList_toList] at read
  | identifier name =>
    obtain ⟨isWord, other⟩ := h
    obtain ⟨c, cs, spelled, word⟩ := isWord.word apart
    have text : name = .ofList (c :: cs) := by rw [← spelled, String.ofList_toList]
    show Lexeme name.toList _ _
    rw [spelled, text]
    exact .identifier word (by rwa [← text])

/-! ## Texts of tokens -/

/-- The texts of some tokens, with white space between them. -/
inductive Printed : List TokenKind → List Char → Prop
  | none : Printed [] []
  | one (k : TokenKind) : Printed [k] k.text.toList
  | more (k : TokenKind) {kinds : List TokenKind} {run text : List Char} : run ≠ [] →
      (∀ c ∈ run, isBlank c) → kinds ≠ [] → Printed kinds text →
      Printed (k :: kinds) (k.text.toList ++ (run ++ text))

theorem gap_run {run : List Char} (blank : ∀ c ∈ run, isBlank c) (rest : List Char) :
    Gap run rest := by
  induction run with
  | nil => exact .nil
  | cons c run ih =>
    obtain ⟨first, others⟩ := List.forall_mem_cons.1 blank
    show Gap ([c] ++ run) rest
    exact .cons (.blank first) (ih others)

/-- A printed text splits into its tokens, whatever white space stands before it. -/
theorem Printed.splits {kinds : List TokenKind} {text : List Char} (h : Printed kinds text)
    (printable : ∀ k ∈ kinds, Printable k) {gap : List Char} (blank : ∀ c ∈ gap, isBlank c) :
    ∃ pieces last, Splits (gap ++ text) pieces last ∧ pieces.map Piece.kind = kinds := by
  induction h generalizing gap with
  | none =>
    rw [List.append_nil]
    exact ⟨[], gap, .done (gap_run blank []), rfl⟩
  | one k =>
    let piece : Piece := ⟨gap, k.text.toList, k⟩
    have read : Lexeme piece.lexeme piece.kind [] := lexeme_text (printable k (by simp)) apart_nil
    have split : Splits (gap ++ (k.text.toList ++ [])) [piece] [] :=
      .piece (p := piece) (gap_run blank _) read (.done .nil)
    rw [List.append_nil] at split
    exact ⟨[piece], [], split, rfl⟩
  | @more k kinds run text some between _ _ ih =>
    obtain ⟨first, others⟩ := List.forall_mem_cons.1 printable
    obtain ⟨pieces, last, split, same⟩ := ih others between
    let piece : Piece := ⟨gap, k.text.toList, k⟩
    have read : Lexeme piece.lexeme piece.kind (run ++ text) :=
      lexeme_text first (apart_run some between text)
    refine ⟨piece :: pieces, last, .piece (p := piece) (gap_run blank _) read split, ?_⟩
    rw [List.map_cons, same]

/-- Printed tokens are read again. -/
theorem scan_printed {kinds : List TokenKind} {source : String}
    (printable : ∀ k ∈ kinds, Printable k) (h : Printed kinds source.toList) :
    ∃ tokens, scan source = .ok tokens ∧ tokens.map Token.kind = kinds := by
  obtain ⟨pieces, last, split, same⟩ := h.splits printable (List.forall_mem_nil _)
  rw [← same]
  exact scan_of_splits split

/-- Some tokens, with one space between them. -/
def spaced : List TokenKind → List Char
  | [] => []
  | [k] => k.text.toList
  | k :: kinds => k.text.toList ++ ([' '] ++ spaced kinds)

theorem printed_spaced (kinds : List TokenKind) : Printed kinds (spaced kinds) := by
  induction kinds with
  | nil => exact .none
  | cons k kinds ih =>
    cases kinds with
    | nil => exact .one k
    | cons k' kinds => exact .more k (by simp) (by simp; decide) (by simp) ih

/-- Printing tokens and reading them again gives the same tokens: for all tokens that can be
printed, and for all that are read from some text. -/
theorem scan_print_scan :
    (∀ (kinds : List TokenKind) (source : String), (∀ k ∈ kinds, Printable k) →
      Printed kinds source.toList →
        ∃ tokens, scan source = .ok tokens ∧ tokens.map Token.kind = kinds) ∧
    ∀ (source : String) (tokens : List Token), scan source = .ok tokens →
      (∀ k ∈ tokens.map Token.kind, Printable k) ∧
      ∀ source' : String, Printed (tokens.map Token.kind) source'.toList →
        ∃ tokens', scan source' = .ok tokens' ∧
          tokens'.map Token.kind = tokens.map Token.kind := by
  refine ⟨fun kinds source printable printed => scan_printed printable printed, ?_⟩
  intro source tokens read
  have printable := printable_of_scan read
  exact ⟨printable, fun source' printed => scan_printed printable printed⟩

/-- A string that looks like a comment, two symbols that are one if they stand together, the
largest number, and a word that starts like a reserved one. -/
def awkward : List TokenKind :=
  [.string "/*é", .symbol '/', .symbol '*', .int 32767, .identifier "classy", .keyword .class]

theorem printable_awkward : ∀ k ∈ awkward, Printable k := by
  have quoted : Printable (.string "/*é") :=
    ⟨by simp, by simp, by decide, by simp⟩
  have slash : Printable (.symbol '/') := by simp [Printable, symbols]
  have star : Printable (.symbol '*') := by simp [Printable, symbols]
  have word : Printable (.identifier "classy") :=
    ⟨by decide, fun k => by cases k <;> decide⟩
  simp only [awkward, List.forall_mem_cons]
  exact ⟨quoted, slash, star, Nat.le_refl _, word, trivial, List.forall_mem_nil _⟩

theorem printed_awkward : Printed awkward "\"/*é\"\n/ *\t32767 classy class".toList := by
  have blank : ∀ c ∈ [' '], isBlank c := by simp; decide
  have newline : ∀ c ∈ ['\n'], isBlank c := by simp; decide
  have tab : ∀ c ∈ ['\t'], isBlank c := by simp; decide
  exact .more _ (by simp) newline (by simp)
    (.more _ (by simp) blank (by simp)
      (.more _ (by simp) tab (by simp)
        (.more _ (by simp) blank (by simp)
          (.more _ (by simp) blank (by simp) (.one _)))))

/-- A number with comments around it. -/
theorem scan_commented : scan "/*x*/007//" = .ok [⟨.int 7, 5, 8, 1, 6⟩] := by
  cbv

theorem awkward_reread :
    (∃ tokens, scan "\"/*é\"\n/ *\t32767 classy class" = .ok tokens ∧
      tokens.map Token.kind = awkward) ∧
    Printable (.int 7) ∧
    ∃ tokens, scan "7" = .ok tokens ∧ tokens.map Token.kind = [.int 7] := by
  have again := scan_print_scan.2 _ _ scan_commented
  exact ⟨scan_print_scan.1 _ _ printable_awkward printed_awkward, again.1 _ (by simp),
    again.2 "7" (.one (.int 7))⟩

end Jack.Lexical
