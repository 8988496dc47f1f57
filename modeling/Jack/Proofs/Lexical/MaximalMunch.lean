import Jack.Proofs.Lexical.Scanner

/-!
# Reading a text by maximal munch

A text has at most one split into gaps and lexemes, and the scanner finds it. One step of the
scanner takes one piece off the text (`next_some`) or finds that only a gap is left (`next_none`).
-/

namespace Jack.Lexical

open Scanner

/-! ## One step -/

theorem next_some {s s' : Scanner} {t : Token} :
    s.next = .ok (some t) s' ↔
      ∃ gap lexeme, s.rest = gap ++ (lexeme ++ s'.rest) ∧ Gap gap (lexeme ++ s'.rest) ∧
        Lexeme lexeme t.kind s'.rest ∧ s'.position = (s.position.advance gap).advance lexeme ∧
        t.span = .between (s.position.advance gap) s'.position := by
  constructor
  · intro h
    unfold next at h
    split at h
    · cases h
    · cases h
    · next c cs p skipped =>
      obtain ⟨gap, rest, rfl, isGap, stops⟩ := skip_eq_ok.1 skipped
      split at h
      · cases h
      · next read =>
        cases h
        obtain ⟨lexeme, same, isLexeme, place, span⟩ := token_sound stops read
        rw [same] at rest isGap
        exact ⟨gap, lexeme, rest, isGap, isLexeme, place, span⟩
  · rintro ⟨gap, lexeme, rest, isGap, isLexeme, place, span⟩
    have skipped : skip .open s.rest s.position =
        .ok () ⟨lexeme ++ s'.rest, s.position.advance gap⟩ :=
      skip_eq_ok.2 ⟨gap, rest, rfl, isGap, isLexeme.stops⟩
    obtain ⟨c, cs, rfl, read⟩ := token_complete isLexeme (s.position.advance gap)
    rw [← place, ← span] at read
    rw [next, skipped, List.cons_append]
    simp only [read]

theorem next_none {s s' : Scanner} :
    s.next = .ok none s' ↔ Gap s.rest [] ∧ s' = ⟨[], s.position.advance s.rest⟩ := by
  constructor
  · intro h
    unfold next at h
    split at h
    · cases h
    · next skipped =>
      cases h
      obtain ⟨gap, rest, rfl, isGap, -⟩ := skip_eq_ok.1 skipped
      rw [List.append_nil] at rest
      exact ⟨rest ▸ isGap, by rw [rest]⟩
    · split at h <;> cases h
  · rintro ⟨isGap, rfl⟩
    have skipped : skip .open s.rest s.position = .ok () ⟨[], s.position.advance s.rest⟩ :=
      skip_eq_ok.2 ⟨s.rest, by simp, rfl, isGap, by simp [Stops]⟩
    rw [next, skipped]

/-! ## Splits are unique -/

theorem gap_unique {gap gap' rest rest' : List Char} (same : gap ++ rest = gap' ++ rest')
    (h : Gap gap rest) (h' : Gap gap' rest') (stops : Stops rest) (stops' : Stops rest') :
    gap = gap' ∧ rest = rest' := by
  have skipped := skip_gap h {}
  rw [skip_stops stops, same, skip_gap h', skip_stops stops'] at skipped
  obtain ⟨rfl, -⟩ : rest' = rest ∧ _ := by simpa using skipped
  exact ⟨List.append_cancel_right same, rfl⟩

theorem lexeme_unique {lexeme lexeme' rest rest' : List Char} {kind kind' : TokenKind}
    (same : lexeme ++ rest = lexeme' ++ rest') (h : Lexeme lexeme kind rest)
    (h' : Lexeme lexeme' kind' rest') : lexeme = lexeme' ∧ kind = kind' ∧ rest = rest' := by
  obtain ⟨c, cs, rfl, read⟩ := token_complete h {}
  obtain ⟨c', cs', rfl, read'⟩ := token_complete h' {}
  obtain ⟨rfl, tail⟩ : c = c' ∧ cs ++ rest = cs' ++ rest' := by simpa using same
  rw [tail, read'] at read
  simp only [EStateM.Result.ok.injEq, Token.mk.injEq, Scanner.mk.injEq] at read
  obtain ⟨⟨rfl, -⟩, rfl, -⟩ := read
  exact ⟨List.append_cancel_right same, rfl, rfl⟩

theorem Lexeme.ne_nil {lexeme rest : List Char} {kind : TokenKind} (h : Lexeme lexeme kind rest) :
    lexeme ++ rest ≠ [] := by
  obtain ⟨c, cs, rfl, -⟩ := token_complete h {}
  simp

theorem Splits.unique {cs last last' : List Char} {pieces pieces' : List Piece}
    (h : Splits cs pieces last) (h' : Splits cs pieces' last') :
    pieces' = pieces ∧ last' = last := by
  have noEnd : Stops [] := by simp [Stops]
  induction h generalizing pieces' last' with
  | @done gap isGap =>
    generalize whole : gap = text at h'
    cases h' with
    | done => exact ⟨rfl, rfl⟩
    | piece isGap' isLexeme' _ =>
      have same := gap_unique (by rw [List.append_nil, whole]) isGap isGap' noEnd isLexeme'.stops
      exact absurd same.2.symm isLexeme'.ne_nil
  | @piece p rest last pieces isGap isLexeme _ ih =>
    generalize whole : p.gap ++ (p.lexeme ++ rest) = text at h'
    cases h' with
    | done isGap' =>
      have same := gap_unique (by rw [List.append_nil, whole]) isGap isGap' isLexeme.stops noEnd
      exact absurd same.2 isLexeme.ne_nil
    | @piece p' rest' _ pieces' isGap' isLexeme' more' =>
      obtain ⟨gaps, tails⟩ := gap_unique whole isGap isGap' isLexeme.stops isLexeme'.stops
      obtain ⟨lexemes, kinds, rfl⟩ := lexeme_unique tails isLexeme isLexeme'
      obtain ⟨rfl, rfl⟩ := ih more'
      cases p
      cases p'
      simp_all

/-! ## Whole texts -/

/-- The text of some pieces and a last gap. -/
theorem Splits.flatten {cs last : List Char} {pieces : List Piece} (h : Splits cs pieces last) :
    pieces.flatMap (fun p => p.gap ++ p.lexeme) ++ last = cs := by
  induction h with
  | done => rfl
  | piece _ _ _ ih => rw [List.flatMap_cons, List.append_assoc, ih, List.append_assoc]

/-- What a token is, and the bytes where it starts and ends. -/
def range (t : Token) : TokenKind × Nat × Nat :=
  (t.kind, t.span.start, t.span.stop)

theorem tokensAfter_complete {cs last : List Char} {pieces : List Piece}
    (h : Splits cs pieces last) (before : List Token) (p : Position) :
    ∃ tokens, tokensAfter before ⟨cs, p⟩ = .ok (before.reverse ++ tokens) ∧
      tokens.map range = ranges p.offset pieces := by
  induction h generalizing before p with
  | @done gap isGap =>
    have read : next ⟨gap, p⟩ = .ok none ⟨[], p.advance gap⟩ := next_none.2 ⟨isGap, rfl⟩
    refine ⟨[], ?_, rfl⟩
    rw [tokensAfter]
    split <;> simp_all
  | @piece piece rest last pieces isGap isLexeme _ ih =>
    let start := p.advance piece.gap
    let stop := start.advance piece.lexeme
    let t : Token := ⟨piece.kind, .between start stop⟩
    have read : next ⟨piece.gap ++ (piece.lexeme ++ rest), p⟩ = .ok (some t) ⟨rest, stop⟩ :=
      next_some.2 ⟨piece.gap, piece.lexeme, rfl, isGap, isLexeme, rfl, rfl⟩
    obtain ⟨tokens, more, same⟩ := ih (t :: before) stop
    refine ⟨t :: tokens, ?_, ?_⟩
    · rw [tokensAfter]
      split <;> simp_all
    · have starts : start.offset = p.offset + size piece.gap := offset_advance p _
      have stops : stop.offset = p.offset + size piece.gap + size piece.lexeme := by
        rw [← starts]
        exact offset_advance start _
      rw [List.map_cons, same, ranges, stops]
      simp only [range, t, Span.between, starts, stops]

theorem fst_ranges (offset : Nat) (pieces : List Piece) :
    (ranges offset pieces).map Prod.fst = pieces.map Piece.kind := by
  induction pieces generalizing offset with
  | nil => rfl
  | cons p more ih => rw [ranges, List.map_cons, List.map_cons, ih]

/-- The tokens of a text that splits are of the kinds of its pieces. -/
theorem scan_of_splits {source : String} {pieces : List Piece} {last : List Char}
    (h : Splits source.toList pieces last) :
    ∃ tokens, scan source = .ok tokens ∧ tokens.map Token.kind = pieces.map Piece.kind := by
  obtain ⟨tokens, read, same⟩ := tokensAfter_complete h [] {}
  refine ⟨tokens, read, ?_⟩
  rw [← fst_ranges, ← same, List.map_map]
  rfl

theorem tokensAfter_sound {before : List Token} {s : Scanner} {tokens : List Token}
    (h : tokensAfter before s = .ok tokens) : ∃ pieces last, Splits s.rest pieces last := by
  fun_induction tokensAfter before s with
  | case1 => cases h
  | case2 before s _ read => exact ⟨[], s.rest, .done (next_none.1 read).1⟩
  | case3 before s t s' read ih =>
    obtain ⟨pieces, last, more⟩ := ih h
    obtain ⟨gap, lexeme, rest, isGap, isLexeme, -⟩ := next_some.1 read
    rw [rest]
    let piece : Piece := ⟨gap, lexeme, t.kind⟩
    exact ⟨piece :: pieces, last, .piece (p := piece) isGap isLexeme more⟩

theorem lexeme_of_mem_tokensAfter {before : List Token} {s : Scanner} {tokens : List Token}
    (h : tokensAfter before s = .ok tokens) {t : Token} (ht : t ∈ tokens) :
    t ∈ before ∨ ∃ lexeme rest, Lexeme lexeme t.kind rest := by
  fun_induction tokensAfter before s with
  | case1 => cases h
  | case2 before s _ read =>
    cases h
    exact .inl (List.mem_reverse.1 ht)
  | case3 before s t' s' read ih =>
    obtain earlier | later := ih h
    · obtain rfl | earlier := List.mem_cons.1 earlier
      · obtain ⟨gap, lexeme, -, -, isLexeme, -⟩ := next_some.1 read
        exact .inr ⟨lexeme, _, isLexeme⟩
      · exact .inl earlier
    · exact .inr later

/-- Each token of a text is a lexeme of it. -/
theorem lexeme_of_mem_scan {source : String} {tokens : List Token} (h : scan source = .ok tokens)
    {t : Token} (ht : t ∈ tokens) : ∃ lexeme rest, Lexeme lexeme t.kind rest :=
  (lexeme_of_mem_tokensAfter h ht).resolve_left List.not_mem_nil

/-- A text is read exactly if it splits into gaps and lexemes. Then it splits in one way, the gaps
and lexemes make up the text, and the tokens are the lexemes in order, each with its kind and the
bytes it takes up. -/
theorem scan_reads_unique_split (source : String) :
    ((∃ tokens, scan source = .ok tokens) ↔
      ∃ pieces last, Splits source.toList pieces last) ∧
    ∀ pieces last, Splits source.toList pieces last →
      (∀ pieces' last', Splits source.toList pieces' last' → pieces' = pieces ∧ last' = last) ∧
      pieces.flatMap (fun p => p.gap ++ p.lexeme) ++ last = source.toList ∧
      ∃ tokens, scan source = .ok tokens ∧
        tokens.map range = ranges 0 pieces := by
  have complete {pieces : List Piece} {last : List Char}
      (h : Splits source.toList pieces last) : ∃ tokens, scan source = .ok tokens ∧
        tokens.map range = ranges 0 pieces :=
    tokensAfter_complete h [] {}
  refine ⟨⟨?_, ?_⟩, ?_⟩
  · rintro ⟨tokens, h⟩
    exact tokensAfter_sound h
  · rintro ⟨pieces, last, h⟩
    obtain ⟨tokens, read, -⟩ := complete h
    exact ⟨tokens, read⟩
  · intro pieces last h
    exact ⟨fun _ _ h' => h.unique h', h.flatten, complete h⟩

/-- A comment that contains a slash, and then three tokens with no space between them. -/
def crowded : List Piece :=
  [⟨['/', '*', '/', '*', '/'], ['l', 'e', 't'], .keyword .let⟩, ⟨[], ['/'], .symbol '/'⟩,
    ⟨[], ['"', '/', '/', '"'], .string "//"⟩]

theorem crowded_splits : Splits "/*/*/let/\"//\"//".toList crowded ['/', '/'] := by
  have comment : Gap ['/', '*', '/', '*', '/'] "let/\"//\"//".toList :=
    .cons (@GapPart.block ['/'] _ (by simp [List.infix_cons_iff])) .nil
  have word : Word 'l' ['e', 't'] "/\"//\"//".toList := by
    refine ⟨by decide, by simp, ?_⟩
    rintro d ⟨⟩
    decide
  have slashes : ∀ c ∈ ['/', '/'], c.toNat ≤ 32767 := by simp
  have rest : Gap ['/', '/'] [] := .cons (@GapPart.line [] _ (by simp) (.inl rfl)) .nil
  exact .piece (p := crowded[0]) comment (.keyword word rfl)
    (.piece (p := crowded[1]) .nil (.symbol (by decide) (by decide))
      (.piece (p := crowded[2]) .nil
        (@Lexeme.string ['/', '/'] _ (by decide) (by decide) (by decide) slashes)
        (.done rest)))

theorem scan_crowded : ∃ tokens, scan "/*/*/let/\"//\"//" = .ok tokens ∧
    tokens.map range =
      [(.keyword .let, 5, 8), (.symbol '/', 8, 9), (.string "//", 9, 13)] :=
  ((scan_reads_unique_split _).2 _ _ crowded_splits).2.2

end Jack.Lexical
