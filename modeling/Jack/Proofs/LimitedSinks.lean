import Jack.Proofs.Pass.Replay
import Jack.Proofs.TwoPasses

/-!
# Compiling into a buffer of limited size

A buffer that is too small gets the first bytes of what an unlimited one gets, and the compiler
blames the buffer, whatever it would have found later. A buffer that is large enough makes no
difference, unless it cannot be flushed, which the compiler only tries after it has succeeded.
-/

namespace Jack

/-! ## Buffers -/

theorem extract_of_full {a b c : ByteArray} {room : Nat} (inside : a.size ≤ room)
    (full : room ≤ a.size + b.size) :
    (a ++ b ++ c).extract 0 room = a ++ b.extract 0 (room - a.size) := by
  have whole : a.extract 0 room = a := by
    rw [← Nat.max_eq_left inside]
    exact ByteArray.extract_zero_max_size
  have none : c.extract (0 - (a ++ b).size) (room - (a ++ b).size) = .empty := by
    rw [ByteArray.extract_eq_empty_iff, ByteArray.size_append]
    omega
  rw [ByteArray.extract_append, ByteArray.extract_append, none, ByteArray.append_empty, whole,
    Nat.zero_sub]

/-- A buffer takes the text of some code, or else as much of it as fits. -/
theorem writeAll_limited {b : Buffer} {room : Nat} (limit : b.capacity = some room)
    (inside : b.bytes.size ≤ room) (code : List Instruction) :
    writeAll code b =
      if (b.bytes ++ (codeText code).toUTF8).size ≤ room then
        .ok () { b with bytes := b.bytes ++ (codeText code).toUTF8 }
      else .error .full { b with bytes := (b.bytes ++ (codeText code).toUTF8).extract 0 room } := by
  obtain ⟨bytes, capacity, stuck⟩ := b
  subst limit
  induction code generalizing bytes with
  | nil =>
    have empty : bytes ++ (codeText []).toUTF8 = bytes := ByteArray.append_empty
    rw [empty, if_pos inside]
    rfl
  | cons i code ih =>
    change EStateM.bind (Buffer.append i.line) (fun _ => writeAll code) _ = _
    rw [toUTF8_codeText_cons, ← ByteArray.append_assoc]
    simp only [EStateM.bind, Buffer.append]
    by_cases line : bytes.size + i.line.toUTF8.size ≤ room
    · rw [if_pos line]
      exact ih _ (by rw [ByteArray.size_append]; exact line)
    · have long : ¬ (bytes ++ i.line.toUTF8 ++ (codeText code).toUTF8).size ≤ room := by
        simp only [ByteArray.size_append]
        omega
      rw [if_neg line, if_neg long, extract_of_full inside (Nat.le_of_not_le line)]

/-- The bytes that a compiler leaves in a buffer, and its answer. -/
def outcome {ε : Type} : EStateM.Result ε Buffer Unit → ByteArray × Except ε Unit
  | .ok _ b => (b.bytes, .ok ())
  | .error e b => (b.bytes, .error e)

/-- What the compiler leaves in a buffer that takes all of its code. It flushes the buffer if it has
succeeded. -/
theorem outcome_deliver_of_ok {r : EStateM.Result CompileError Listing Unit} {b t : Buffer}
    (written : writeAll (final r).code b = .ok () t) :
    outcome (deliver r b) =
      (t.bytes, if t.stuck then answer r >>= fun _ => .error (.write .flush) else answer r) := by
  rw [deliver, written]
  cases r with
  | error e l => cases t.stuck <;> rfl
  | ok u l => cases h : t.stuck <;> simp [Sink.flush, h, outcome, answer, bind, Except.bind]

theorem outcome_deliver_of_error {r : EStateM.Result CompileError Listing Unit} {b t : Buffer}
    {fault : Fault} (refused : writeAll (final r).code b = .error fault t) :
    outcome (deliver r b) = (t.bytes, .error (.write fault)) := by
  rw [deliver, refused]
  rfl

section Deliver

variable (r : EStateM.Result CompileError Listing Unit)

theorem outcome_deliver_unlimited :
    outcome (deliver r ({} : Buffer)) = ((codeText (final r).code).toUTF8, answer r) := by
  rw [outcome_deliver_of_ok (writeAll_eq_ok.2 (writes_empty.2 rfl))]
  rfl

theorem outcome_deliver_large {room : Nat} (stuck : Bool)
    (large : (codeText (final r).code).toUTF8.size ≤ room) :
    outcome (deliver r ({ capacity := some room, stuck } : Buffer)) =
      ((codeText (final r).code).toUTF8,
        if stuck then answer r >>= fun _ => .error (.write .flush) else answer r) := by
  have written := writeAll_limited (b := { capacity := some room, stuck }) rfl (Nat.zero_le room)
    (final r).code
  rw [ByteArray.empty_append, if_pos large] at written
  rw [outcome_deliver_of_ok written]

theorem outcome_deliver_small {room : Nat} (stuck : Bool)
    (small : room < (codeText (final r).code).toUTF8.size) :
    outcome (deliver r ({ capacity := some room, stuck } : Buffer)) =
      ((codeText (final r).code).toUTF8.extract 0 room, .error (.write .full)) := by
  have refused := writeAll_limited (b := { capacity := some room, stuck }) rfl (Nat.zero_le room)
    (final r).code
  rw [ByteArray.empty_append, if_neg (Nat.not_le_of_lt small)] at refused
  rw [outcome_deliver_of_error refused]

end Deliver

/-! ## Truncation -/

/-- A compiler that gives `out` and `r` without a limit gives as much of `out` as there is room
for. It gives the fault `io` of the buffer if there is not room for all of it, or if it would
succeed and the buffer cannot be flushed. -/
structure Truncates {ε : Type} (io : Fault → ε) (run : Buffer → EStateM.Result ε Buffer Unit)
    (out : ByteArray) (r : Except ε Unit) : Prop where
  unlimited : outcome (run {}) = (out, r)
  fits : ∀ room, out.size ≤ room → outcome (run { capacity := some room }) = (out, r)
  full : ∀ room stuck, room < out.size →
    outcome (run { capacity := some room, stuck }) = (out.extract 0 room, .error (io .full))
  flush : ∀ room, (outcome (run { capacity := some room, stuck := true })).2 = .error (io .flush) ↔
    r = .ok () ∧ out.size ≤ room
  written : ∀ room, out.size ≤ room →
    (outcome (run { capacity := some room, stuck := true })).1 = out
  kept : ∀ room e, out.size ≤ room → r = .error e →
    outcome (run { capacity := some room, stuck := true }) = (out, .error e)

theorem truncates_deliver {r : EStateM.Result CompileError Listing Unit}
    (blameless : ∀ fault, answer r ≠ .error (.write fault)) :
    Truncates .write (deliver r) (codeText (final r).code).toUTF8 (answer r) where
  unlimited := outcome_deliver_unlimited r
  fits _ large := outcome_deliver_large r false large
  full _ stuck small := outcome_deliver_small r stuck small
  flush room := by
    by_cases large : (codeText (final r).code).toUTF8.size ≤ room
    · rw [outcome_deliver_large r true large]
      cases hr : answer r with
      | ok u => exact ⟨fun _ => ⟨rfl, large⟩, fun _ => rfl⟩
      | error e =>
        have other : (.error e : Except CompileError Unit) ≠ .error (.write .flush) :=
          hr ▸ blameless .flush
        exact ⟨fun same => absurd same other, fun ok => by cases ok.1⟩
    · rw [outcome_deliver_small r true (Nat.lt_of_not_le large)]
      exact ⟨fun same => (by cases same), fun ok => absurd ok.2 large⟩
  written _ large := by rw [outcome_deliver_large r true large]
  kept _ e large hr := by
    rw [outcome_deliver_large r true large, hr]
    rfl

theorem compileClass_truncates (cursor : Cursor) :
    ∃ out r, Truncates .write (compileClass cursor) out r := by
  have same : compileClass cursor = deliver (σ := Buffer) (compileClass cursor ({} : Listing)) :=
    funext fun b => compileClass_eq_deliver cursor b
  rw [same]
  refine ⟨_, _, truncates_deliver fun fault blamed => ?_⟩
  cases h : compileClass cursor ({} : Listing) with
  | ok u l =>
    rw [h] at blamed
    cases blamed
  | error e l =>
    rw [h] at blamed
    cases blamed
    cases compileClass_listing_error h

/-! ## Source texts -/

theorem outcome_compileInto {source : String} {cursor : Cursor}
    (read : Cursor.ofSource source = .ok cursor) (b : Buffer) :
    outcome (compileInto source b) = ((outcome (compileClass cursor b)).1,
      (outcome (compileClass cursor b)).2.mapError .compile) := by
  rw [compileInto, read]
  cases h : compileClass cursor b <;> simp only [h] <;> rfl

/-- Nothing is written if the text cannot be read as tokens. -/
theorem outcome_compileInto_of_error {source : String} {e : ScanError}
    (unread : Cursor.ofSource source = .error e) (b : Buffer) :
    outcome (compileInto source b) = (b.bytes, .error (.scan e)) := by
  rw [compileInto, unread]
  rfl

theorem mapError_compile_eq_error {r : Except CompileError Unit} {e : CompileError} :
    r.mapError Error.compile = .error (.compile e) ↔ r = .error e := by
  cases r <;> simp [Except.mapError]

theorem mapError_compile_eq_ok {r : Except CompileError Unit} :
    r.mapError Error.compile = .ok () ↔ r = .ok () := by
  cases r <;> simp [Except.mapError]

theorem compileInto_truncates (source : String) :
    ∃ out r, Truncates (fun fault => .compile (.write fault)) (compileInto source) out r := by
  cases read : Cursor.ofSource source with
  | error e =>
    refine ⟨.empty, .error (.scan e), ?_⟩
    have nothing := outcome_compileInto_of_error read
    refine ⟨nothing _, fun _ _ => nothing _, fun _ _ small => absurd small (Nat.not_lt_zero _), ?_,
      fun _ _ => by rw [nothing], ?_⟩
    · intro room
      rw [nothing]
      exact ⟨fun same => (by cases same), fun ok => (by cases ok.1)⟩
    · rintro room _ - ⟨⟩
      exact nothing _
  | ok cursor =>
    obtain ⟨out, r, truncates⟩ := compileClass_truncates cursor
    have mapped := outcome_compileInto read
    refine ⟨out, r.mapError .compile, ?_, ?_, ?_, ?_, ?_, ?_⟩
    · rw [mapped, truncates.unlimited]
    · intro room large
      rw [mapped, truncates.fits room large]
    · intro room stuck small
      rw [mapped, truncates.full room stuck small]
      rfl
    · intro room
      rw [mapped, mapError_compile_eq_error, truncates.flush, mapError_compile_eq_ok]
    · intro room large
      rw [mapped, truncates.written room large]
    · intro room e large failed
      rw [mapped]
      cases r with
      | ok u => cases failed
      | error e' => rw [truncates.kept room e' large rfl, ← failed]

/-! ## What happens after a refusal -/

/-- A sink either takes all the code, or it refuses an instruction, and then nothing more is done
to it. -/
theorem nothing_after_refusal {σ : Type} [Sink σ] (cursor : Cursor) (s : σ)
    {code : List Instruction}
    (emitted : (final (compileClass cursor ({} : Listing))).code = code) :
    Writes code s (final (compileClass cursor s)) ∨
    ∃ done i rest u fault t, code = done ++ i :: rest ∧ Writes done s u ∧
      Sink.write i u = .error fault t ∧ compileClass cursor s = .error (.write fault) t := by
  rw [compileClass_eq_deliver, deliver, emitted]
  cases h : writeAll code s with
  | error fault t =>
    obtain ⟨done, i, rest, u, split, written, refused⟩ := refused_of_writeAll h
    exact .inr ⟨done, i, rest, u, fault, t, split, written, refused, rfl⟩
  | ok u t =>
    refine .inl ?_
    have taken := writeAll_eq_ok.1 h
    cases compileClass cursor ({} : Listing) with
    | error e l => exact taken
    | ok v l =>
      cases hf : Sink.flush t <;> simp only [hf] <;> exact taken

/-- A sink of limited size truncates, and nothing else. For all tokens and for all sources, the
compiler writes what it writes without a limit, as far as there is room, and reports the sink
exactly if there is not room for all of it, or if it has succeeded and the sink cannot be flushed.
Whatever the sink is, nothing is written after a refusal. -/
theorem limited_sink_truncates :
    (∀ tokens : List Token, ∃ out r,
      Truncates .write (compileClass (.ofTokens tokens)) out r) ∧
    (∀ source : String, ∃ out r,
      Truncates (fun fault => .compile (.write fault)) (compileInto source) out r) ∧
    ∀ (σ : Type) [Sink σ] (cursor : Cursor) (s : σ), ∃ code,
      (final (compileClass cursor ({} : Listing))).code = code ∧
      (Writes code s (final (compileClass cursor s)) ∨
        ∃ done i rest u fault t, code = done ++ i :: rest ∧ Writes done s u ∧
          Sink.write i u = .error fault t ∧ compileClass cursor s = .error (.write fault) t) :=
  ⟨fun tokens => compileClass_truncates (.ofTokens tokens), compileInto_truncates,
    fun _ _ cursor s => ⟨_, rfl, nothing_after_refusal cursor s rfl⟩⟩

end Jack
