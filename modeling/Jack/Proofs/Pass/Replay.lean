import Jack.Compile
import Jack.Proofs.Pass.Parallel

/-!
# Passes over other sinks

A pass over a listing tells what the same pass does over any other sink. It writes the same
instructions, up to the first one that the sink refuses. If there is none, then it also ends in the
same way, and if there is one, then it ends at once.
-/

namespace Jack

variable {σ τ α : Type}

/-! ## Writing until something is refused -/

/-- Writes instructions in order, up to the first one that the sink refuses. -/
def writeAll [Sink σ] : List Instruction → EStateM Fault σ Unit
  | [] => pure ()
  | i :: code => do
    Sink.write i
    writeAll code

theorem writeAll_append [Sink σ] (code more : List Instruction) (s : σ) :
    writeAll (code ++ more) s =
      match writeAll code s with
      | .ok _ t => writeAll more t
      | .error fault t => .error fault t := by
  induction code generalizing s with
  | nil => rfl
  | cons i code ih =>
    change EStateM.bind (Sink.write i) (fun _ => writeAll (code ++ more)) s =
      match EStateM.bind (Sink.write i) (fun _ => writeAll code) s with
      | .ok _ t => writeAll more t
      | .error fault t => .error fault t
    unfold EStateM.bind
    cases Sink.write i s with
    | ok u t => exact ih t
    | error fault t => rfl

theorem writeAll_singleton [Sink σ] (i : Instruction) (s : σ) :
    writeAll [i] s = Sink.write i s := by
  change EStateM.bind (Sink.write i) (fun _ => pure ()) s = _
  unfold EStateM.bind
  cases Sink.write i s <;> rfl

theorem writeAll_eq_ok [Sink σ] {code : List Instruction} {s t : σ} {u : Unit} :
    writeAll code s = .ok u t ↔ Writes code s t := by
  induction code generalizing s with
  | nil => exact ⟨fun h => by cases h; rfl, fun h => by rw [← h]; rfl⟩
  | cons i code ih =>
    change EStateM.bind (Sink.write i) (fun _ => writeAll code) s = .ok u t ↔ _
    simp only [EStateM.bind, Writes]
    cases Sink.write i s with
    | ok v s' => simp [ih]
    | error fault s' => simp

theorem refused_of_writeAll [Sink σ] {code : List Instruction} {s t : σ} {fault : Fault}
    (h : writeAll code s = .error fault t) :
    ∃ done i rest u, code = done ++ i :: rest ∧ Writes done s u ∧
      Sink.write i u = .error fault t := by
  induction code generalizing s with
  | nil => cases h
  | cons i code ih =>
    change EStateM.bind (Sink.write i) (fun _ => writeAll code) s = .error fault t at h
    unfold EStateM.bind at h
    split at h
    · next s' taken =>
      obtain ⟨done, j, rest, u, rfl, written, refused⟩ := ih h
      exact ⟨i :: done, j, rest, u, rfl, ⟨s', taken, written⟩, refused⟩
    · next refused =>
      cases h
      exact ⟨[], i, code, s, rfl, .nil s, refused⟩

/-! ## The same state with another sink -/

/-- The same progress with another sink. -/
def Progress.onto (p : Progress τ) (s : σ) : Progress σ :=
  ⟨p.cursor, p.symbols, p.labels, s⟩

/-- The same end of a pass with another sink. -/
def endOnto (s : σ) : EStateM.Result CompileError (Progress τ) α →
    EStateM.Result CompileError (Progress σ) α
  | .ok a p => .ok a (p.onto s)
  | .error e p => .error e (p.onto s)

/-- The state in which a computation ends, whether it succeeds or fails. -/
def final {ε : Type} : EStateM.Result ε σ α → σ
  | .ok _ s => s
  | .error _ s => s

/-- What a computation gives, without its state. -/
def answer {ε : Type} : EStateM.Result ε σ α → Except ε α
  | .ok a _ => .ok a
  | .error e _ => .error e

namespace Pass

/-- If a pass over a listing ends with `r` and has written `code`, then `r'` is the end of the same
pass over the sink `s`. -/
def Replays [Sink σ] (code : List Instruction) (s : σ)
    (r : EStateM.Result CompileError (Progress Listing) α)
    (r' : EStateM.Result CompileError (Progress σ) α) : Prop :=
  match writeAll code s with
  | .ok _ t => r' = endOnto t r
  | .error fault t => ∃ q, r' = .error (.write fault) q ∧ q.sink = t

/-- From `p` on, a pass writes some code to its listing, and this code to any other sink. -/
def ReplaysFrom [Sink σ] (x : Pass σ α) (y : Pass Listing α) (p : Progress Listing) (s : σ) :
    Prop :=
  ∃ code, (final (y p)).sink = ⟨code.reverse ++ p.sink.latest⟩ ∧
    Replays code s (y p) (x (p.onto s))

theorem replaysFrom_silent [Sink σ] {x : Pass σ α} {y : Pass Listing α} {p : Progress Listing}
    {s : σ} (sink : (final (y p)).sink = p.sink) (same : x (p.onto s) = endOnto s (y p)) :
    ReplaysFrom x y p s :=
  ⟨[], sink, same⟩

theorem ReplaysFrom.bind [Sink σ] {β : Type} {x : Pass σ α} {y : Pass Listing α}
    {f : α → Pass σ β} {g : α → Pass Listing β} {p : Progress Listing} {s : σ}
    (first : ReplaysFrom x y p s)
    (next : ∀ a q t, ReplaysFrom (f a) (g a) q t) : ReplaysFrom (x >>= f) (y >>= g) p s := by
  obtain ⟨code, sink, replays⟩ := first
  unfold Replays at replays
  cases hy : y p with
  | error e q =>
    rw [hy] at sink replays
    refine ⟨code, ?_, ?_⟩
    · rw [bind_of_error hy]
      exact sink
    · rw [bind_of_error hy, Replays]
      split at replays
      · exact bind_of_error replays f
      · obtain ⟨q', hx, hq⟩ := replays
        exact ⟨q', bind_of_error hx f, hq⟩
  | ok a q =>
    rw [hy] at sink replays
    -- The rest of the code does not matter if the sink refuses something before it.
    have continues (more : List Instruction)
        (grown : (final (g a q)).sink = ⟨more.reverse ++ q.sink.latest⟩) :
        (final ((y >>= g) p)).sink = ⟨(code ++ more).reverse ++ p.sink.latest⟩ := by
      rw [bind_of_ok hy, grown, List.reverse_append, List.append_assoc]
      exact congrArg (fun l : Listing => (⟨more.reverse ++ l.latest⟩ : Listing)) sink
    split at replays
    · next t written =>
      obtain ⟨more, grown, replays'⟩ := next a q t
      refine ⟨code ++ more, continues more grown, ?_⟩
      rw [Replays, writeAll_append, written, bind_of_ok hy, bind_of_ok replays]
      exact replays'
    · next fault t refused =>
      obtain ⟨more, grown, -⟩ := next a q s
      obtain ⟨q', hx, hq⟩ := replays
      refine ⟨code ++ more, continues more grown, ?_⟩
      rw [Replays, writeAll_append, refused]
      exact ⟨q', bind_of_error hx f, hq⟩

theorem replaysFrom_identifier [Sink σ] (p : Progress Listing) (s : σ) :
    ReplaysFrom identifier identifier p s := by
  have same : (p.onto s).cursor = p.cursor := rfl
  refine replaysFrom_silent ?_ ?_
  · rw [identifier_apply]
    cases p.cursor.identifier <;> rfl
  · rw [identifier_apply, identifier_apply, same]
    cases p.cursor.identifier <;> rfl

theorem replaysFrom_emit [Sink σ] (i : Instruction) (p : Progress Listing) (s : σ) :
    ReplaysFrom (emit i) (emit i) p s := by
  have same : (p.onto s).sink = s := rfl
  refine ⟨[i], rfl, ?_⟩
  rw [Replays, writeAll_singleton, emit_apply, same]
  cases Sink.write i s with
  | ok u t => rfl
  | error fault t => exact ⟨_, rfl, rfl⟩

/-- The same pass over a listing and over another sink. -/
theorem Parallel.replaysFrom [Sink σ] {classes : String → Prop} {labels : List String}
    {x : Pass σ α} {y : Pass Listing α} (h : Parallel classes Eq labels x y)
    (p : Progress Listing) (s : σ) : ReplaysFrom x y p s := by
  induction h generalizing p s with
  | pure a => exact replaysFrom_silent rfl rfl
  | append _ _ ihx ihf => exact (ihx p s).bind ihf
  | peek => exact replaysFrom_silent rfl rfl
  | here _ ih => exact ih _ _ rfl p s
  | advance => exact replaysFrom_silent rfl rfl
  | identifier => exact replaysFrom_identifier p s
  | unexpected e => exact replaysFrom_silent rfl rfl
  | consult f => exact replaysFrom_silent rfl rfl
  | update f => exact replaysFrom_silent rfl rfl
  | fresh _ _ ih => exact ih _ { p with labels := p.labels + 1 } s
  | emit _ => exact replaysFrom_emit _ p s
  | throw span hs =>
    rw [← hs, CompileError.movedTo_eq_self span]
    exact replaysFrom_silent rfl rfl

theorem cursor_identifier_span {c : Cursor} {e : CompileError} (h : c.identifier = .error e) :
    e.span?.isSome := by
  unfold Cursor.identifier Cursor.read at h
  split at h
  · cases h
    rfl
  · split at h <;> cases h
    rfl

theorem cursor_unexpected_span (c : Cursor) (expected : Expectation) :
    (c.unexpected expected).span?.isSome := by
  unfold Cursor.unexpected
  split <;> rfl

/-- Over a listing, each error is about a place in the source. -/
theorem Parallel.error_span [Sink σ] {classes : String → Prop} {labels : List String}
    {x : Pass σ α} {y : Pass Listing α} (h : Parallel classes Eq labels x y)
    {p q : Progress Listing} {e : CompileError} (failed : y p = .error e q) : e.span?.isSome := by
  induction h generalizing p q with
  | pure a => cases failed
  | @append _ _ _ y _ _ _ _ _ _ ihx ihf =>
    cases hy : y p with
    | ok a r => exact ihf a (by rwa [bind_of_ok hy] at failed)
    | error e' r =>
      rw [bind_of_error hy] at failed
      cases failed
      exact ihx hy
  | peek => cases failed
  | here _ ih => exact ih _ _ rfl failed
  | advance => cases failed
  | identifier =>
    rw [identifier_apply] at failed
    split at failed
    · cases failed
    · next hc =>
      cases failed
      exact cursor_identifier_span hc
  | unexpected expected =>
    cases failed
    exact cursor_unexpected_span _ _
  | consult f => cases failed
  | update f => cases failed
  | fresh _ _ ih => exact ih _ failed
  | emit _ => cases failed
  | throw span hs =>
    cases failed
    rw [CompileError.span?_movedTo span]
    rfl

end Pass

/-! ## Whole passes -/

/-- What the compiler does with a sink, if `r` is what it does with a listing. The code of the
listing is written up to the first instruction that is refused. -/
def deliver [Sink σ] (r : EStateM.Result CompileError Listing Unit) (s : σ) :
    EStateM.Result CompileError σ Unit :=
  match writeAll (final r).code s with
  | .error fault t => .error (.write fault) t
  | .ok _ t =>
    match r with
    | .error e _ => .error e t
    | .ok _ _ =>
      match Sink.flush t with
      | .error fault => .error (.write fault) t
      | .ok _ => .ok () t

theorem final_compileClass [Sink σ] (cursor : Cursor) (s : σ) :
    final (compileClass cursor s) =
      (final (Pass.classUnit (allowance cursor.rest.length) { cursor, sink := s })).sink := by
  rw [compileClass]
  split
  · next h => rw [h]; rfl
  · next h => rw [h]; split <;> rfl

theorem compileClass_eq_deliver [Sink σ] (cursor : Cursor) (s : σ) :
    compileClass cursor s = deliver (compileClass cursor ({} : Listing)) s := by
  let p : Progress Listing := { cursor, sink := {} }
  obtain ⟨code, sink, replays⟩ :=
    (Pass.parallel_classUnit (σ := σ) (allowance cursor.rest.length)).replaysFrom p s
  have start : ({ cursor, sink := s } : Progress σ) = p.onto s := rfl
  have whole : (⟨code.reverse ++ p.sink.latest⟩ : Listing).code = code := by
    simp [Listing.code, p]
  rw [compileClass, compileClass, start]
  unfold Pass.Replays at replays
  cases hy : Pass.classUnit (allowance cursor.rest.length) p with
  | error e q =>
    rw [hy] at sink replays
    rw [deliver, final, show q.sink = _ from sink, whole]
    split at replays
    · next written => rw [replays, written]; rfl
    · next refused =>
      obtain ⟨q', hx, rfl⟩ := replays
      rw [hx, refused]
  | ok u q =>
    rw [hy] at sink replays
    change _ = deliver (.ok () q.sink) s
    rw [deliver, final, show q.sink = _ from sink, whole]
    split at replays
    · next written => rw [replays, written]; rfl
    · next refused =>
      obtain ⟨q', hx, rfl⟩ := replays
      rw [hx, refused]

/-- The compiler blames the sink only if the sink is at fault. -/
theorem compileClass_listing_error {cursor : Cursor} {e : CompileError} {l : Listing}
    (h : compileClass cursor ({} : Listing) = .error e l) : e.span?.isSome := by
  rw [compileClass] at h
  split at h
  · next hy =>
    cases h
    exact (Pass.parallel_classUnit (σ := Listing) _).error_span hy
  · cases h

end Jack
