import Mathlib
import Jack.Proofs.Lexical.MaximalMunch
import Jack.Proofs.Pass.Replay
import Jack.Proofs.TwoPasses

/-!
# Layout does not influence code

Where tokens stand matters for the places in error messages, and for nothing else. Two passes over
tokens of the same kinds stay level: they do the same, and a place that one of them remembers is
the place of the same token in the other. So white space and comments do not change the code.
-/

namespace Jack

variable {α : Type}

/-! ## Places of the same token -/

/-- A place in each of two classes: that of the tokens at one position, or the end of both. -/
inductive SamePlace (c c' : Cursor) : Span → Span → Prop
  | token (i : Nat) {t t' : Token} : c.rest[i]? = some t → c'.rest[i]? = some t' →
      SamePlace c c' t.span t'.span
  | ending : SamePlace c c' c.ending c'.ending

/-- An error in each of two classes. They are the same but for their places, which are places of the
same token. If one is not about a place, then they are the same. -/
inductive SameError (c c' : Cursor) (e : CompileError) : CompileError → Prop
  | moved {s s' : Span} : e.span? = some s → SamePlace c c' s s' → SameError c c' e (e.movedTo s')
  | unplaced : e.span? = none → SameError c c' e e

theorem SameError.samePlace {c c' : Cursor} {e e' : CompileError} (h : SameError c c' e e')
    {s : Span} (told : e.span? = some s) : ∃ s', SamePlace c c' s s' := by
  cases h with
  | @moved s₀ s' told' place =>
    obtain rfl : s₀ = s := Option.some.inj (told'.symm.trans told)
    exact ⟨s', place⟩
  | unplaced none => cases none.symm.trans told

/-- Two passes have come equally far, one over the tokens of `c`, the other over those of `c'`. -/
structure Level (c c' : Cursor) (p q : Progress Listing) : Prop where
  symbols : q.symbols = p.symbols
  labels : q.labels = p.labels
  sink : q.sink = p.sink
  tokens : ∃ i, p.cursor = ⟨c.rest.drop i, c.ending⟩ ∧ q.cursor = ⟨c'.rest.drop i, c'.ending⟩

/-- Two cursors that look at the same token, or at the ends. -/
inductive Facing (c c' : Cursor) (d d' : Cursor) : Prop
  | token {t t' : Token} : d.current? = some t → d'.current? = some t' → t'.kind = t.kind →
      SamePlace c c' t.span t'.span → Facing c c' d d'
  | ending : d.current? = none → d'.current? = none → SamePlace c c' d.ending d'.ending →
      Facing c c' d d'

section Facing

variable {c c' d d' : Cursor}

theorem Facing.kind_eq (h : Facing c c' d d') : d'.kind? = d.kind? := by
  unfold Cursor.kind?
  cases h with
  | token ht ht' kind _ => rw [ht, ht', Option.map_some, Option.map_some, kind]
  | ending none none' _ => rw [none, none']

theorem Facing.samePlace (h : Facing c c' d d') : SamePlace c c' d.span d'.span := by
  unfold Cursor.span
  cases h with
  | token ht ht' _ place => rwa [ht, ht']
  | ending none none' place => rwa [none, none']

theorem Facing.unexpected (h : Facing c c' d d') (expected : Expectation) :
    SameError c c' (d.unexpected expected) (d'.unexpected expected) := by
  unfold Cursor.unexpected
  cases h with
  | token ht ht' kind place =>
    simp only [ht, ht', kind]
    exact .moved rfl place
  | ending none none' place =>
    rw [none, none']
    exact .moved rfl place

/-- Both tokens are the same identifier, or both are none, which is the same error. -/
theorem Facing.identifier (h : Facing c c' d d') :
    (∃ name, d.identifier = .ok name ∧ d'.identifier = .ok name) ∨
      ∃ e e', d.identifier = .error e ∧ d'.identifier = .error e' ∧ SameError c c' e e' := by
  unfold Cursor.identifier Cursor.read
  cases h with
  | @token t t' ht ht' kind place =>
    simp only [ht, ht', kind]
    cases t.kind.identifier? with
    | some name => exact .inl ⟨name, rfl, rfl⟩
    | none => exact .inr ⟨_, _, rfl, rfl, .moved rfl place⟩
  | ending none none' place =>
    rw [none, none']
    exact .inr ⟨_, _, rfl, rfl, .moved rfl place⟩

end Facing

section Level

variable {c c' : Cursor} {p q : Progress Listing}

theorem Level.facing (h : Level c c' p q) (kinds : c'.rest.map Token.kind = c.rest.map Token.kind) :
    Facing c c' p.cursor q.cursor := by
  obtain ⟨i, hp, hq⟩ := h.tokens
  have kind : (c'.rest[i]?).map Token.kind = (c.rest[i]?).map Token.kind := by
    rw [← List.getElem?_map, ← List.getElem?_map, kinds]
  have current : p.cursor.current? = c.rest[i]? := by
    rw [hp]
    exact List.head?_drop
  have current' : q.cursor.current? = c'.rest[i]? := by
    rw [hq]
    exact List.head?_drop
  cases ht : c.rest[i]? with
  | none =>
    rw [ht, Option.map_none, Option.map_eq_none_iff] at kind
    refine .ending (by rw [current, ht]) (by rw [current', kind]) ?_
    rw [hp, hq]
    exact .ending
  | some t =>
    rw [ht, Option.map_some, Option.map_eq_some_iff] at kind
    obtain ⟨t', ht', same⟩ := kind
    exact .token (by rw [current, ht]) (by rw [current', ht']) same (.token i ht ht')

theorem Level.next (h : Level c c' p q) : Level c c' (Pass.next p) (Pass.next q) where
  symbols := h.symbols
  labels := h.labels
  sink := h.sink
  tokens := by
    obtain ⟨i, hp, hq⟩ := h.tokens
    refine ⟨i + 1, ?_, ?_⟩
    · rw [Pass.next, hp, Cursor.advance, List.tail_drop]
    · rw [Pass.next, hq, Cursor.advance, List.tail_drop]

end Level

/-! ## Two passes -/

/-- Two passes end level, and in the same way. -/
inductive EndLevel (c c' : Cursor) : EStateM.Result CompileError (Progress Listing) α →
    EStateM.Result CompileError (Progress Listing) α → Prop
  | ok (a : α) {p q : Progress Listing} : Level c c' p q → EndLevel c c' (.ok a p) (.ok a q)
  | error {e e' : CompileError} {p q : Progress Listing} : SameError c c' e e' → Level c c' p q →
      EndLevel c c' (.error e p) (.error e' q)

/-- Passes over tokens of the same kinds stay level. -/
theorem Pass.Parallel.endLevel {c c' : Cursor} {classes : String → Prop} {labels : List String}
    {x y : Pass Listing α} (h : Parallel classes (SamePlace c c') labels x y)
    (kinds : c'.rest.map Token.kind = c.rest.map Token.kind) {p q : Progress Listing}
    (level : Level c c' p q) : EndLevel c c' (x p) (y q) := by
  induction h generalizing p q with
  | pure a => exact .ok a level
  | @append _ _ x y f g _ _ _ _ ihx ihf =>
    have first := ihx level
    generalize hx : x p = r at first
    generalize hy : y q = r' at first
    cases first with
    | ok a level' =>
      rw [bind_of_ok hx, bind_of_ok hy]
      exact ihf a level'
    | error same level' =>
      rw [bind_of_error hx, bind_of_error hy]
      exact .error same level'
  | peek =>
    show EndLevel c c' (.ok p.cursor.kind? p) (.ok q.cursor.kind? q)
    rw [(level.facing kinds).kind_eq]
    exact .ok _ level
  | here _ ih =>
    rw [bind_of_ok here_apply, bind_of_ok here_apply]
    exact ih _ _ (level.facing kinds).samePlace level
  | advance => exact .ok () level.next
  | identifier =>
    rw [identifier_apply, identifier_apply]
    rcases (level.facing kinds).identifier with ⟨name, hp, hq⟩ | ⟨e, e', hp, hq, same⟩
    · rw [hp, hq]
      exact .ok name level.next
    · rw [hp, hq]
      exact .error same level
  | unexpected expected => exact .error ((level.facing kinds).unexpected expected) level
  | consult f =>
    show EndLevel c c' (.ok (f p.symbols) p) (.ok (f q.symbols) q)
    rw [level.symbols]
    exact .ok _ level
  | update f => exact .ok () { level with symbols := congrArg f level.symbols }
  | fresh _ _ ih =>
    rw [bind_of_ok freshLabel_apply, bind_of_ok freshLabel_apply, level.labels]
    exact ih _ { level with labels := rfl }
  | @emit i _ =>
    have sink : (⟨i :: q.sink.latest⟩ : Listing) = ⟨i :: p.sink.latest⟩ := by rw [level.sink]
    exact .ok () { level with sink }
  | throw span place => exact .error (.moved span place) level

/-! ## Whole classes -/

/-- Two compilers give the same result, or the same error at the same place. -/
inductive SameAnswer {ε : Type} (wrap : CompileError → ε) (c c' : Cursor) :
    Except ε α → Except ε α → Prop
  | ok (a : α) : SameAnswer wrap c c' (.ok a) (.ok a)
  | error {e e' : CompileError} : SameError c c' e e' →
      SameAnswer wrap c c' (.error (wrap e)) (.error (wrap e'))

theorem compileClass_listing_level {c c' : Cursor}
    (kinds : c'.rest.map Token.kind = c.rest.map Token.kind) :
    final (compileClass c' ({} : Listing)) = final (compileClass c ({} : Listing)) ∧
      SameAnswer id c c' (answer (compileClass c ({} : Listing)))
        (answer (compileClass c' ({} : Listing))) := by
  have length : c'.rest.length = c.rest.length := by
    rw [← List.length_map (f := Token.kind), kinds, List.length_map]
  let p : Progress Listing := { cursor := c, sink := {} }
  let q : Progress Listing := { cursor := c', sink := {} }
  have start : Level c c' p q := ⟨rfl, rfl, rfl, 0, rfl, rfl⟩
  have level := (Pass.parallel_classUnit (allowance c.rest.length)).endLevel kinds start
  unfold compileClass
  rw [length]
  generalize Pass.classUnit (allowance c.rest.length) p = r at level
  generalize Pass.classUnit (allowance c.rest.length) q = r' at level
  cases level with
  | ok a level' => exact ⟨level'.sink, .ok ()⟩
  | error same level' => exact ⟨level'.sink, .error same⟩

/-- A sink gets as much of the code of a listing as it takes. -/
theorem final_deliver {σ : Type} [Sink σ] (r : EStateM.Result CompileError Listing Unit) (s : σ) :
    final (deliver r s) = final (writeAll (final r).code s) := by
  unfold deliver
  cases writeAll (final r).code s with
  | error fault t => rfl
  | ok u t =>
    cases r with
    | error e l => rfl
    | ok v l =>
      dsimp only
      split <;> rfl

/-- If the sink fails, then it fails in the same way. -/
theorem answer_deliver {σ : Type} [Sink σ] {c c' : Cursor}
    {r r' : EStateM.Result CompileError Listing Unit} (same : final r' = final r)
    (answers : SameAnswer id c c' (answer r) (answer r')) (s : σ) :
    SameAnswer id c c' (answer (deliver r s)) (answer (deliver r' s)) := by
  unfold deliver
  rw [same]
  cases writeAll (final r).code s with
  | error fault t => exact .error (.unplaced rfl)
  | ok u t =>
    cases r with
    | error e l =>
      cases r' with
      | ok v' l' => cases answers
      | error e' l' => exact answers
    | ok v l =>
      cases r' with
      | error e' l' => cases answers
      | ok v' l' =>
        dsimp only
        split
        · exact .error (.unplaced rfl)
        · exact .ok ()

/-- The compiler does the same to any sink, if the tokens are of the same kinds. -/
theorem compileClass_level {σ : Type} [Sink σ] {c c' : Cursor}
    (kinds : c'.rest.map Token.kind = c.rest.map Token.kind) (s : σ) :
    final (compileClass c' s) = final (compileClass c s) ∧
      SameAnswer id c c' (answer (compileClass c s)) (answer (compileClass c' s)) := by
  obtain ⟨same, answers⟩ := compileClass_listing_level kinds
  rw [compileClass_eq_deliver c', compileClass_eq_deliver c, final_deliver, final_deliver, same]
  exact ⟨rfl, answer_deliver same answers s⟩

/-! ## Sources -/

theorem Cursor.ofSource_eq_ok {source : String} {c : Cursor} :
    Cursor.ofSource source = .ok c ↔
      ∃ tokens, scan source = .ok tokens ∧ c = ⟨tokens, .point (.endOf source)⟩ := by
  unfold Cursor.ofSource
  cases scan source with
  | error e => simp [bind, Except.bind]
  | ok tokens => simp [bind, Except.bind, pure, Except.pure, eq_comm]

theorem Cursor.ofSource_eq_error {source : String} {e : ScanError} :
    Cursor.ofSource source = .error e ↔ scan source = .error e := by
  unfold Cursor.ofSource
  cases scan source <;> simp [bind, Except.bind, pure, Except.pure]

theorem compile_of_cursor {source : String} {c : Cursor} (read : Cursor.ofSource source = .ok c) :
    compile source =
      match compileClass c ({} : Listing) with
      | .ok _ l => .ok (codeText l.code)
      | .error e _ => .error (.compile e) := by
  cases h : compileClass c ({} : Listing) with
  | ok u l =>
    refine compile_of_listing ?_
    rw [compileInto, read]
    simp only [h]
  | error e l =>
    let b : Buffer := { bytes := (codeText l.code).toUTF8 }
    have written : writeAll l.code ({} : Buffer) = .ok () b := writeAll_eq_ok.2 (writes_empty.2 rfl)
    have failed : compileClass c ({} : Buffer) = .error e b := by
      rw [compileClass_eq_deliver, h, deliver, final, written]
    rw [compile, compileBytes, compileInto, read]
    simp only [failed]
    rfl

/-- Sources with tokens of the same kinds compile to the same text, or fail with the same error. -/
theorem compile_level {source source' : String} {c c' : Cursor}
    (read : Cursor.ofSource source = .ok c) (read' : Cursor.ofSource source' = .ok c')
    (kinds : c'.rest.map Token.kind = c.rest.map Token.kind) :
    SameAnswer .compile c c' (compile source) (compile source') := by
  obtain ⟨same, answers⟩ := compileClass_listing_level kinds
  rw [compile_of_cursor read, compile_of_cursor read']
  generalize compileClass c ({} : Listing) = r at same answers
  generalize compileClass c' ({} : Listing) = r' at same answers
  cases r with
  | ok u l =>
    cases r' with
    | ok u' l' =>
      obtain rfl : l' = l := same
      exact .ok _
    | error e' l' => cases answers
  | error e l =>
    cases r' with
    | ok u' l' => cases answers
    | error e' l' =>
      cases answers with
      | error moved => exact .error moved

namespace Lexical

/-- A lexeme can also stand at the end of a text. -/
theorem Lexeme.at_end {lexeme rest : List Char} {kind : TokenKind} (h : Lexeme lexeme kind rest) :
    Lexeme lexeme kind [] := by
  have ends {c : Char} {cs : List Char} (word : Word c cs rest) : Word c cs [] :=
    ⟨word.start, word.more, by simp⟩
  cases h with
  | symbol mem _ => exact .symbol mem (by simp)
  | int some digits _ small => exact .int some digits (by simp) small
  | keyword word same => exact .keyword (ends word) same
  | identifier word other => exact .identifier (ends word) other
  | string unquoted line short codes => exact .string unquoted line short codes

/-- What token a lexeme is does not depend on what follows it. -/
theorem Lexeme.kind_unique {lexeme rest rest' : List Char} {kind kind' : TokenKind}
    (h : Lexeme lexeme kind rest) (h' : Lexeme lexeme kind' rest') : kind' = kind :=
  (lexeme_unique rfl h.at_end h'.at_end).2.1.symm

/-- Two texts that are read as tokens, and differ at most in the white space and the comments
between these. -/
def DifferInGaps (source source' : String) : Prop :=
  ∃ pieces last pieces' last', Splits source.toList pieces last ∧
    Splits source'.toList pieces' last' ∧ pieces'.map Piece.lexeme = pieces.map Piece.lexeme

theorem Splits.kinds_eq {cs cs' last last' : List Char} {pieces pieces' : List Piece}
    (h : Splits cs pieces last) (h' : Splits cs' pieces' last')
    (same : pieces'.map Piece.lexeme = pieces.map Piece.lexeme) :
    pieces'.map Piece.kind = pieces.map Piece.kind := by
  induction h generalizing cs' pieces' with
  | done =>
    rw [List.map_nil, List.map_eq_nil_iff] at same
    rw [same]
  | @piece p rest last pieces _ isLexeme _ ih =>
    cases h' with
    | done => cases same
    | @piece p' rest' _ pieces' _ isLexeme' more' =>
      rw [List.map_cons, List.map_cons, List.cons.injEq] at same
      obtain ⟨first, others⟩ := same
      rw [first] at isLexeme'
      rw [List.map_cons, List.map_cons, ih more' others, isLexeme.kind_unique isLexeme']

theorem DifferInGaps.cursors {source source' : String} (h : DifferInGaps source source') :
    ∃ c c', Cursor.ofSource source = .ok c ∧ Cursor.ofSource source' = .ok c' ∧
      c'.rest.map Token.kind = c.rest.map Token.kind := by
  obtain ⟨pieces, last, pieces', last', split, split', same⟩ := h
  obtain ⟨tokens, read, kinds⟩ := scan_of_splits split
  obtain ⟨tokens', read', kinds'⟩ := scan_of_splits split'
  refine ⟨_, _, Cursor.ofSource_eq_ok.2 ⟨tokens, read, rfl⟩,
    Cursor.ofSource_eq_ok.2 ⟨tokens', read', rfl⟩, ?_⟩
  show tokens'.map Token.kind = tokens.map Token.kind
  rw [kinds, kinds', split.kinds_eq split' same]

end Lexical

/-- Layout does not influence code. If tokens are of the same kinds, then the compiler does the same
to any sink, whatever their places are, and it gives the same answer, with the same places in its
errors. If sources differ only between their tokens, then they compile to the same text, or fail
with the same error at the same token. -/
theorem layout_irrelevant :
    (∀ ts ts' : List Token, ts'.map Token.kind = ts.map Token.kind →
      ∀ (σ : Type) [Sink σ] (s : σ),
        final (compileClass (.ofTokens ts') s) = final (compileClass (.ofTokens ts) s) ∧
        SameAnswer id (.ofTokens ts) (.ofTokens ts') (answer (compileClass (.ofTokens ts) s))
          (answer (compileClass (.ofTokens ts') s))) ∧
    ∀ source source' : String, Lexical.DifferInGaps source source' →
      ∃ c c', Cursor.ofSource source = .ok c ∧ Cursor.ofSource source' = .ok c' ∧
        SameAnswer .compile c c' (compile source) (compile source') := by
  refine ⟨fun ts ts' kinds σ _ s => compileClass_level kinds s, fun source source' h => ?_⟩
  obtain ⟨c, c', read, read', kinds⟩ := h.cursors
  exact ⟨c, c', read, read', compile_level read read' kinds⟩

/-- A word and a number, with a space between them. -/
theorem narrow_splits : Lexical.Splits "class 1".toList
    [⟨[], ['c', 'l', 'a', 's', 's'], .keyword .class⟩, ⟨[' '], ['1'], .int 1⟩] [] := by
  have word : Lexical.Word 'c' ['l', 'a', 's', 's'] [' ', '1'] :=
    ⟨by decide, by simp, by simp⟩
  have space : Lexical.Gap [' '] ['1'] := .cons (@Lexical.GapPart.blank ' ' _ (by decide)) .nil
  have number : Lexical.Lexeme ['1'] (.int 1) [] :=
    @Lexical.Lexeme.int ['1'] _ (by simp) (by simp) (by simp) (by decide)
  exact .piece (p := ⟨[], _, _⟩) .nil (.keyword word rfl)
    (.piece (p := ⟨[' '], _, _⟩) space number (.done .nil))

/-- The same tokens, with comments around the second one, which stands in another line. -/
theorem wide_splits : Lexical.Splits "class/*A*/\n1//".toList
    [⟨[], ['c', 'l', 'a', 's', 's'], .keyword .class⟩,
      ⟨['/', '*', 'A', '*', '/', '\n'], ['1'], .int 1⟩] ['/', '/'] := by
  have word : Lexical.Word 'c' ['l', 'a', 's', 's'] "/*A*/\n1//".toList :=
    ⟨by decide, by simp, by simp⟩
  have comment : Lexical.Gap ['/', '*', 'A', '*', '/', '\n'] ['1', '/', '/'] :=
    .cons (@Lexical.GapPart.block ['A'] _ (by simp [List.infix_cons_iff]))
      (.cons (@Lexical.GapPart.blank '\n' _ (by decide)) .nil)
  have number : Lexical.Lexeme ['1'] (.int 1) ['/', '/'] :=
    @Lexical.Lexeme.int ['1'] _ (by simp) (by simp) (by simp) (by decide)
  have rest : Lexical.Gap ['/', '/'] [] :=
    .cons (@Lexical.GapPart.line [] _ (by simp) (.inl rfl)) .nil
  exact .piece (p := ⟨[], _, _⟩) .nil (.keyword word rfl)
    (.piece (p := ⟨['/', '*', 'A', '*', '/', '\n'], _, _⟩) comment number (.done rest))

/-- The tokens of `class 1`. -/
def narrow : List Token :=
  [⟨.keyword .class, 0, 5, 1, 1⟩, ⟨.int 1, 6, 7, 1, 7⟩]

/-- The same tokens in two lines. -/
def wide : List Token :=
  [⟨.keyword .class, 0, 5, 1, 1⟩, ⟨.int 1, 11, 12, 2, 1⟩]

theorem relaid_same_error :
    (∃ c c', Cursor.ofSource "class 1" = .ok c ∧ Cursor.ofSource "class/*A*/\n1//" = .ok c' ∧
      SameAnswer .compile c c' (compile "class 1") (compile "class/*A*/\n1//")) ∧
    SameAnswer id (.ofTokens narrow) (.ofTokens wide)
      (answer (compileClass (.ofTokens narrow) ({} : Buffer)))
      (answer (compileClass (.ofTokens wide) ({} : Buffer))) :=
  ⟨layout_irrelevant.2 _ _ ⟨_, _, _, _, narrow_splits, wide_splits, rfl⟩,
    (layout_irrelevant.1 narrow wide rfl Buffer {}).2⟩

end Jack
