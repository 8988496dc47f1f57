import Mathlib.Logic.ExistsUnique
import Jack.Compile
import Jack.Proofs.Pass.CompleteClass
import Jack.Proofs.Syntax.Unambiguous

/-!
# One pass and two passes

The compiler reads, checks and translates in one pass. Here this pass is compared with a compiler
that has two: the first reads a syntax tree off the tokens, the second checks the tree and writes
its code. Both accept the same tokens and write the same text.
-/

namespace Jack

open Syntax

/-! ## Sinks -/

/-- A listing takes everything. -/
theorem writes_listing {code : List Instruction} {l l' : Listing} :
    Writes code l l' ↔ l' = ⟨code.reverse ++ l.latest⟩ := by
  induction code generalizing l with
  | nil => exact eq_comm
  | cons i code ih =>
    have write (u : Listing) : Sink.write i l = .ok () u ↔ ⟨i :: l.latest⟩ = u := by
      simp [Sink.write]
    simp [Writes, write, ih]

theorem toUTF8_codeText_cons (i : Instruction) (code : List Instruction) :
    (codeText (i :: code)).toUTF8 = i.line.toUTF8 ++ (codeText code).toUTF8 := by
  rw [codeText, List.map_cons, String.join_cons]
  exact String.toByteArray_append

/-- A buffer without a limit takes everything, as text. -/
theorem writes_buffer {code : List Instruction} {b b' : Buffer} (unlimited : b.capacity = none) :
    Writes code b b' ↔ b' = { b with bytes := b.bytes ++ (codeText code).toUTF8 } := by
  induction code generalizing b with
  | nil =>
    have empty : b.bytes ++ (codeText []).toUTF8 = b.bytes := ByteArray.append_empty
    rw [empty]
    exact eq_comm
  | cons i code ih =>
    have write : Sink.write i b = .ok () { b with bytes := b.bytes ++ i.line.toUTF8 } := by
      simp [Sink.write, Buffer.append, unlimited]
    have more := ih (b := { b with bytes := b.bytes ++ i.line.toUTF8 }) unlimited
    rw [Writes, toUTF8_codeText_cons, ← ByteArray.append_assoc, ← more]
    constructor
    · rintro ⟨u, hu, written⟩
      rw [write] at hu
      cases hu
      exact written
    · exact fun written => ⟨_, write, written⟩

theorem roomy_listing (l : Listing) : Roomy l :=
  fun _ => ⟨_, writes_listing.2 rfl⟩

theorem roomy_buffer {b : Buffer} (unlimited : b.capacity = none) : Roomy b :=
  fun _ => ⟨_, (writes_buffer unlimited).2 rfl⟩

theorem roomy_empty : Roomy ({} : Buffer) :=
  roomy_buffer rfl

/-- What an empty buffer holds after some code is the text of the code. -/
theorem writes_empty {code : List Instruction} {b : Buffer} :
    Writes code ({} : Buffer) b ↔ b = { bytes := (codeText code).toUTF8 } := by
  rw [writes_buffer rfl]
  simp only [ByteArray.empty_append]

/-! ## Classes -/

/-- The pass accepts the tokens of the valid classes, and writes their code. -/
theorem compileClass_eq_ok {σ : Type} [Sink σ] {cursor : Cursor} {s t : σ} (roomy : Roomy s) :
    compileClass cursor s = .ok () t ↔
      (∃ c : Syntax.Class, c.tokens = cursor.rest.map Token.kind ∧ c.Valid ∧ Writes c.code s t) ∧
        Sink.flush t = .ok () := by
  rw [compileClass]
  constructor
  · intro h
    split at h
    · cases h
    · next p hp =>
      split at h
      · cases h
      · next hflush =>
        cases h
        obtain ⟨c, tokens, valid, written⟩ := Pass.classUnit_sound rfl rfl hp
        exact ⟨⟨c, tokens.symm, valid, written⟩, hflush⟩
  · rintro ⟨⟨c, tokens, valid, written⟩, hflush⟩
    have room : 3 * c.tokens.length ≤ allowance cursor.rest.length := by
      rw [tokens, List.length_map, allowance]
      exact Nat.le_add_right _ _
    obtain ⟨q, hq, written'⟩ :=
      Pass.classUnit_complete (p := { cursor, sink := s }) valid rfl rfl tokens.symm roomy room
    rw [hq]
    simp only [← written.unique written', hflush]

/-- A source text is compiled if its tokens are those of a valid class. -/
theorem compileInto_eq_ok {σ : Type} [Sink σ] {source : String} {s t : σ} (roomy : Roomy s) :
    compileInto source s = .ok () t ↔
      (∃ tokens, scan source = .ok tokens ∧ ∃ c : Syntax.Class, c.tokens = tokens.map Token.kind ∧
        c.Valid ∧ Writes c.code s t) ∧ Sink.flush t = .ok () := by
  rw [compileInto, Cursor.ofSource]
  cases h : scan source with
  | error e => simp [bind, Except.bind]
  | ok tokens =>
    let cursor : Cursor := { rest := tokens, ending := .point (.endOf source) }
    have whole : compileClass cursor s = .ok () t ↔ _ := compileClass_eq_ok roomy
    simp only [Except.ok.injEq, exists_eq_left']
    rw [← whole]
    simp only [bind, Except.bind, pure, Except.pure]
    split <;> simp_all [cursor]

theorem fromUTF8?_eq_some {bytes : ByteArray} {text : String} :
    String.fromUTF8? bytes = some text ↔ bytes = text.toUTF8 := by
  rw [String.fromUTF8?]
  constructor
  · intro h
    split at h
    · cases h
      rfl
    · cases h
  · rintro rfl
    exact dif_pos text.isValidUTF8

/-- The bytes of the code of a class are always a text. -/
theorem compile_eq_ok {source text : String} :
    compile source = .ok text ↔
      ∃ tokens, scan source = .ok tokens ∧ ∃ c : Syntax.Class, c.tokens = tokens.map Token.kind ∧
        c.Valid ∧ codeText c.code = text := by
  have read : compile source = .ok text ↔
      ∃ b : Buffer, compileInto source ({} : Buffer) = .ok () b ∧ b.bytes = text.toUTF8 := by
    rw [compile, compileBytes]
    cases h : compileInto source ({} : Buffer) with
    | error e b => simp [bind, Except.bind]
    | ok u b =>
      simp only [bind, Except.bind, EStateM.Result.ok.injEq, true_and, exists_eq_left',
        ← fromUTF8?_eq_some]
      cases String.fromUTF8? b.bytes <;>
        simp [pure, Except.pure, throw, throwThe, MonadExceptOf.throw]
  simp only [read, compileInto_eq_ok roomy_empty, writes_empty]
  constructor
  · rintro ⟨b, ⟨⟨tokens, scanned, c, same, valid, rfl⟩, -⟩, hb⟩
    exact ⟨tokens, scanned, c, same, valid, String.toByteArray_inj.1 hb⟩
  · rintro ⟨tokens, scanned, c, same, valid, rfl⟩
    exact ⟨_, ⟨⟨tokens, scanned, c, same, valid, rfl⟩, rfl⟩, rfl⟩

/-- The text of the code does not depend on the sink. -/
theorem compile_of_listing {source : String} {l : Listing}
    (h : compileInto source ({} : Listing) = .ok () l) :
    compile source = .ok (codeText l.code) := by
  obtain ⟨⟨tokens, scanned, c, same, valid, written⟩, -⟩ :=
    (compileInto_eq_ok (roomy_listing {})).1 h
  refine compile_eq_ok.2 ⟨tokens, scanned, c, same, valid, ?_⟩
  rw [writes_listing.1 written]
  simp [Listing.code]

/-- A source compiles to some code, and this is its tree. -/
structure Compiled (source : String) (c : Syntax.Class) (code : List Instruction) : Prop where
  tokens : ∃ tokens, scan source = .ok tokens ∧ c.tokens = tokens.map Token.kind
  emitted : compileInto source ({} : Listing) = .ok () ⟨code.reverse⟩
  text : compile source = .ok (codeText code)

/-- A source that has the tokens of a valid class compiles to the code of the class. -/
theorem compiled_of_valid {source : String} {c : Syntax.Class} (valid : c.Valid)
    (h : ∃ tokens, scan source = .ok tokens ∧ c.tokens = tokens.map Token.kind) :
    Compiled source c c.code := by
  obtain ⟨tokens, scanned, same⟩ := h
  refine ⟨⟨tokens, scanned, same⟩, ?_, compile_eq_ok.2 ⟨tokens, scanned, c, same, valid, rfl⟩⟩
  refine (compileInto_eq_ok (roomy_listing {})).2
    ⟨⟨tokens, scanned, c, same, valid, writes_listing.2 ?_⟩, rfl⟩
  rw [List.append_nil]

theorem exists_compiled {source text : String} (h : compile source = .ok text) :
    ∃ c code, Compiled source c code ∧ codeText code = text := by
  obtain ⟨tokens, scanned, c, same, valid, rfl⟩ := compile_eq_ok.1 h
  exact ⟨c, c.code, compiled_of_valid valid ⟨tokens, scanned, same⟩, rfl⟩

theorem Compiled.code_unique {source : String} {c : Syntax.Class} {code code' : List Instruction}
    (h : Compiled source c code)
    (emitted : compileInto source ({} : Listing) = .ok () ⟨code'.reverse⟩) : code = code' := by
  have same := h.emitted.symm.trans emitted
  simpa using same

theorem Compiled.class_unique {source : String} {c c' : Syntax.Class} {code : List Instruction}
    (h : Compiled source c code)
    (read : (scan source).map (List.map Token.kind) = .ok c'.tokens) : c = c' := by
  obtain ⟨tokens, scanned, same⟩ := h.tokens
  rw [scanned, Except.map, Except.ok.injEq, ← same] at read
  exact Syntax.Class.tokens_injective read

theorem Compiled.unique {source : String} {c c' : Syntax.Class} {code code' : List Instruction}
    (h : Compiled source c code) (h' : Compiled source c' code') : c = c' ∧ code = code' := by
  obtain ⟨tokens, scanned, same⟩ := h'.tokens
  refine ⟨h.class_unique ?_, h.code_unique h'.emitted⟩
  rw [scanned, Except.map, same]

/-- The tree of a source that compiles is valid, and its code is what is written. -/
theorem Compiled.valid_and_code {source : String} {c : Syntax.Class} {code : List Instruction}
    (h : Compiled source c code) : c.Valid ∧ code = c.code := by
  obtain ⟨tokens, scanned, same⟩ := h.tokens
  obtain ⟨⟨tokens', scanned', c', same', valid, written⟩, -⟩ :=
    (compileInto_eq_ok (roomy_listing {})).1 h.emitted
  rw [scanned] at scanned'
  cases scanned'
  obtain rfl := Syntax.Class.tokens_injective (same'.trans same.symm)
  have whole := congrArg Listing.code (writes_listing.1 written)
  refine ⟨valid, ?_⟩
  simpa [Listing.code] using whole

/-- One pass does what two passes do. For all tokens, compiling into a buffer succeeds with a text
exactly if the tokens are those of a syntax tree that is valid and whose code has this text. There
is only one such tree. -/
theorem compileClass_refines_two_passes (tokens : List Token) (text : String) :
    (∃ b, compileClass (.ofTokens tokens) ({} : Buffer) = .ok () b ∧ b.bytes = text.toUTF8) ↔
      ∃! c : Syntax.Class, c.tokens = tokens.map Token.kind ∧ c.Valid ∧ codeText c.code = text := by
  simp only [compileClass_eq_ok roomy_empty, writes_empty]
  constructor
  · rintro ⟨b, ⟨⟨c, same, valid, rfl⟩, -⟩, hb⟩
    refine ⟨c, ⟨same, valid, String.toByteArray_inj.1 hb⟩, ?_⟩
    rintro c' ⟨same', -⟩
    exact Syntax.Class.tokens_injective (same'.trans same.symm)
  · rintro ⟨c, ⟨same, valid, rfl⟩, -⟩
    exact ⟨_, ⟨⟨c, same, valid, rfl⟩, rfl⟩, rfl⟩

end Jack
