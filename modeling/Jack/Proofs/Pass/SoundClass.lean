import Jack.Proofs.Pass.Declared
import Jack.Proofs.Pass.Sound

/-!
# Which classes the pass accepts

Declarations, subroutines and whole classes: a pass that succeeds has gone over the tokens of a
valid class and written its code.
-/

namespace Jack.Pass

open Syntax

variable {σ : Type} [Sink σ] {cls : String} {p q : Progress σ}

/-! ## Declarations -/

theorem typeName_step {allowVoid : Bool} {type : String} (h : typeName allowVoid p = .ok type q) :
    (∃ t : DataType, t.text = type ∧ Step p [t.token] [] 0 q) ∨
      allowVoid = true ∧ Step p [ReturnType.void.token] [] 0 q := by
  rw [typeName, bind_of_ok peek_apply] at h
  change EStateM.run _ p = _ at h
  split at h
  · next k hk =>
    split at h
    · next hword =>
      rw [run_advance_bind] at h
      obtain ⟨rfl, rfl⟩ := pure_eq_ok.1 h
      obtain rfl | rfl | rfl | ⟨rfl, void⟩ := hword
      · exact .inl ⟨.int, rfl, step_next hk⟩
      · exact .inl ⟨.char, rfl, step_next hk⟩
      · exact .inl ⟨.boolean, rfl, step_next hk⟩
      · exact .inr ⟨void, step_next hk⟩
    · exact absurd h unexpected_ne_ok
  · exact .inl ⟨.named type, rfl, identifier_step h⟩

theorem dataType_step {type : String} (h : typeName false p = .ok type q) :
    ∃ t : DataType, t.text = type ∧ Step p [t.token] [] 0 q := by
  obtain ht | ⟨void, -⟩ := typeName_step h
  · exact ht
  · cases void

theorem returnType_step {type : String} (h : typeName true p = .ok type q) :
    ∃ t : ReturnType, Step p [t.token] [] 0 q := by
  obtain ⟨t, -, step⟩ | ⟨-, step⟩ := typeName_step h
  · exact ⟨.data t, step⟩
  · exact ⟨.void, step⟩

theorem define_move {name type : String} {kind : Kind} {span : Span} {u : Unit}
    (h : define name type kind span p = .ok u q) :
    Move p [] [] 0 q ∧ Defines [⟨name, type, kind⟩] p.symbols q.symbols := by
  obtain ⟨i, t, ht, rfl⟩ := define_eq_ok.1 h
  exact ⟨⟨rfl, .nil _, rfl⟩, i, t, ht, rfl⟩

theorem names_sound {type : String} {kind : Kind} {u : Unit} :
    ∀ {n : Nat} {p q : Progress σ}, names type kind n p = .ok u q →
      ∃ (first : String) (more : List String),
        Move p (.identifier first :: nameTail more) [] 0 q ∧
        Defines ((first :: more).map fun name => ⟨name, type, kind⟩) p.symbols q.symbols
  | 0, _, _, h => absurd h exhausted_ne_ok
  | n + 1, p, q, h => by
    rw [names, bind_of_ok here_apply] at h
    obtain ⟨name, p₁, hname, h⟩ := bind_eq_ok.1 h
    obtain ⟨_, p₂, hdefine, h⟩ := bind_eq_ok.1 h
    obtain ⟨move, defines⟩ := define_move hdefine
    rw [(identifier_step hname).symbols] at defines
    have move := (identifier_step hname).toMove.trans move
    obtain ⟨p₃, comma, h⟩ | h := accept_cases h
    · obtain ⟨first, more, move', defines'⟩ := names_sound h
      rw [comma.symbols] at defines'
      refine ⟨name, first :: more, ?_, ?_⟩
      · simpa [nameTail] using (move.trans comma.toMove).trans move'
      · exact defines_append.2 ⟨_, defines, defines'⟩
    · obtain ⟨_, rfl⟩ := pure_eq_ok.1 h
      exact ⟨name, [], move, defines⟩

theorem declaration_sound {kind : Kind} {n : Nat} {u : Unit}
    (h : declaration kind n p = .ok u q) :
    ∃ d : Names, Move p d.tokens [] 0 q ∧
      Defines (d.declarations kind) p.symbols q.symbols := by
  obtain ⟨type, p₁, htype, h⟩ := bind_eq_ok.1 h
  obtain ⟨_, p₂, hnames, h⟩ := bind_eq_ok.1 h
  obtain ⟨t, text, type_step⟩ := dataType_step htype
  obtain ⟨first, more, move, defines⟩ := names_sound hnames
  rw [type_step.symbols, ← text] at defines
  refine ⟨⟨t, first, more⟩, ?_, ?_⟩
  · simpa [Names.tokens] using (type_step.toMove.trans move).trans (symbol_step h).toMove
  · rw [(symbol_step h).symbols]
    exact defines

theorem parameters_sound {u : Unit} :
    ∀ {n : Nat} {p q : Progress σ}, parameters n p = .ok u q →
      ∃ (first : Parameter) (more : List Parameter),
        Move p (parameterTokens (first :: more)) [] 0 q ∧
        Defines ((first :: more).map Parameter.declaration) p.symbols q.symbols
  | 0, _, _, h => absurd h exhausted_ne_ok
  | n + 1, p, q, h => by
    obtain ⟨type, p₁, htype, h⟩ := bind_eq_ok.1 h
    rw [bind_of_ok here_apply] at h
    obtain ⟨name, p₂, hname, h⟩ := bind_eq_ok.1 h
    obtain ⟨_, p₃, hdefine, h⟩ := bind_eq_ok.1 h
    obtain ⟨t, text, type_step⟩ := dataType_step htype
    obtain ⟨move, defines⟩ := define_move hdefine
    have step := type_step.trans (identifier_step hname)
    rw [step.symbols, ← text] at defines
    have move := step.toMove.trans move
    obtain ⟨p₄, comma, h⟩ | h := accept_cases h
    · obtain ⟨first, more, move', defines'⟩ := parameters_sound h
      rw [comma.symbols] at defines'
      refine ⟨⟨t, name⟩, first :: more, ?_, ?_⟩
      · simpa [parameterTokens, Parameter.tokens] using (move.trans comma.toMove).trans move'
      · exact defines_append.2 ⟨_, defines, defines'⟩
    · obtain ⟨_, rfl⟩ := pure_eq_ok.1 h
      exact ⟨⟨t, name⟩, [], move, defines⟩

theorem locals_sound {u : Unit} :
    ∀ {n : Nat} {p q : Progress σ}, locals n p = .ok u q →
      ∃ ls : List Names, Move p (localTokens ls) [] 0 q ∧
        Defines (ls.flatMap (Names.declarations .local)) p.symbols q.symbols
  | 0, _, _, h => absurd h exhausted_ne_ok
  | n + 1, p, q, h => by
    rw [locals, bind_of_ok get_apply] at h
    split at h
    · next hvar =>
      have word := step_next (isKeyword_iff.1 hvar)
      rw [bind_of_ok advance_apply] at h
      obtain ⟨_, p₁, hfirst, h⟩ := bind_eq_ok.1 h
      obtain ⟨d, move, defines⟩ := declaration_sound hfirst
      obtain ⟨ls, move', defines'⟩ := locals_sound h
      refine ⟨d :: ls, ?_, ?_⟩
      · simpa [localTokens] using (word.toMove.trans move).trans move'
      · exact defines_append.2 ⟨_, defines, defines'⟩
    · obtain ⟨_, rfl⟩ := pure_eq_ok.1 h
      exact ⟨[], (Step.refl p).toMove, rfl⟩

/-! ## Subroutines -/

/-- The object of a method is declared as its first argument. -/
def receiver (cls : String) (kind : SubroutineKind) (span : Span) : Pass σ Unit :=
  if kind = .method then define "this" cls .argument span else pure ()

/-- `(type name (, type name)*)?` -/
def parameterList (n : Nat) : Pass σ Unit := do
  if (← get).cursor.isSymbol ')' then pure () else parameters n

/-- `{ locals statements }` -/
def body (cls : String) (kind : SubroutineKind) (name : String) (n : Nat) : Pass σ Unit := do
  symbol '{'
  locals n
  emit (.function (cls ++ "." ++ name) (← count .local))
  emitAll (prologue kind (← count .field))
  statements cls n
  symbol '}'

theorem subroutine_eq (cls : String) (kind : SubroutineKind) (n : Nat) :
    (subroutine cls kind n : Pass σ Unit) = (do
      startSubroutine
      let _ ← typeName true
      let span ← here
      let name ← identifier
      receiver cls kind span
      symbol '('
      parameterList n
      symbol ')'
      body cls kind name n) := by
  simp only [subroutine, receiver, parameterList, body, ite_bind, bind_assoc, pure_bind]

theorem receiver_sound {kind : SubroutineKind} {span : Span} {u : Unit}
    (h : receiver cls kind span p = .ok u q) :
    Move p [] [] 0 q ∧
      Defines (if kind = .method then [⟨"this", cls, .argument⟩] else []) p.symbols q.symbols := by
  rw [receiver] at h
  split at h
  · next hk =>
    rw [if_pos hk]
    exact define_move h
  · next hk =>
    rw [if_neg hk]
    obtain ⟨_, rfl⟩ := pure_eq_ok.1 h
    exact ⟨(Step.refl p).toMove, rfl⟩

theorem parameterList_sound {n : Nat} {u : Unit} (h : parameterList n p = .ok u q) :
    ∃ ps : List Parameter, Move p (parameterTokens ps) [] 0 q ∧
      Defines (ps.map Parameter.declaration) p.symbols q.symbols := by
  rw [parameterList, bind_of_ok get_apply] at h
  split at h
  · obtain ⟨_, rfl⟩ := pure_eq_ok.1 h
    exact ⟨[], (Step.refl p).toMove, rfl⟩
  · obtain ⟨first, more, move, defines⟩ := parameters_sound h
    exact ⟨first :: more, move, defines⟩

theorem opening_eq_prologue (fields : Nat) (kind : SubroutineKind) :
    opening fields kind = prologue kind fields := by
  cases kind <;> rfl

theorem body_sound {kind : SubroutineKind} {name : String} {n : Nat} {u : Unit}
    (h : body cls kind name n p = .ok u q) :
    ∃ (ls : List Names) (ss : Statements),
      Defines (ls.flatMap (Names.declarations .local)) p.symbols q.symbols ∧
      ss.Valid (q.scope cls) ∧
      Move p (braces (localTokens ls ++ ss.tokens))
        (.function (cls ++ "." ++ name) (q.symbols.count .local) ::
          (opening (q.symbols.count .field) kind ++ ss.code (q.scope cls) p.labels))
        ss.labels q := by
  obtain ⟨_, p₁, hopen, h⟩ := bind_eq_ok.1 h
  obtain ⟨_, p₂, hlocals, h⟩ := bind_eq_ok.1 h
  rw [bind_of_ok count_apply] at h
  obtain ⟨_, p₃, hfunction, h⟩ := bind_eq_ok.1 h
  rw [bind_of_ok count_apply] at h
  obtain ⟨_, p₄, hopening, h⟩ := bind_eq_ok.1 h
  rw [← opening_eq_prologue] at hopening
  obtain ⟨_, p₅, hstatements, h⟩ := bind_eq_ok.1 h
  obtain ⟨ls, move, defines⟩ := locals_sound hlocals
  obtain ⟨ss, valid, step⟩ := statements_sound hstatements
  have start := (emit_step hfunction).trans (emitAll_step hopening)
  have before := (symbol_step hopen).toMove.trans move
  rw [(emit_step hfunction).symbols] at start
  rw [start.scope] at valid step
  rw [start.labels, before.labels] at step
  have after := (start.trans step).trans (symbol_step h)
  rw [(symbol_step hopen).symbols] at defines
  rw [after.scope, after.symbols]
  refine ⟨ls, ss, defines, valid, ?_⟩
  simpa [braces] using before.trans after.toMove

/-- A subroutine is compiled where `d` is declared. What it declares itself is forgotten by the
next one. -/
theorem subroutine_sound {d : Declared} {kind : SubroutineKind} {n : Nat} {u : Unit}
    (fits : d.Fits) (symbols : p.symbols = d.table) (h : subroutine cls kind n p = .ok u q) :
    ∃ r : Subroutine, r.kind = kind ∧ r.Valid cls d.inClass ∧
      Move p r.tail (r.code cls d.inClass p.labels) r.body.labels q ∧
      ∃ d' : Declared, d'.inClass = d.inClass ∧ d'.Fits ∧ q.symbols = d'.table := by
  rw [subroutine_eq] at h
  obtain ⟨_, p₀, hstart, h⟩ := bind_eq_ok.1 h
  obtain ⟨_, p₁, htype, h⟩ := bind_eq_ok.1 h
  rw [bind_of_ok here_apply] at h
  obtain ⟨name, p₂, hname, h⟩ := bind_eq_ok.1 h
  obtain ⟨_, p₃, hreceiver, h⟩ := bind_eq_ok.1 h
  obtain ⟨_, p₄, hopen, h⟩ := bind_eq_ok.1 h
  obtain ⟨_, p₅, hparameters, h⟩ := bind_eq_ok.1 h
  obtain ⟨_, p₆, hclose, h⟩ := bind_eq_ok.1 h
  obtain ⟨returns, type_step⟩ := returnType_step htype
  obtain ⟨move₁, defines₁⟩ := receiver_sound hreceiver
  obtain ⟨ps, move₂, defines₂⟩ := parameterList_sound hparameters
  obtain ⟨ls, ss, defines₃, valid, move₃⟩ := body_sound h
  have start : p₀.symbols = (⟨d.inClass, []⟩ : Declared).table ∧ Move p [] [] 0 p₀ := by
    rw [startSubroutine_apply, symbols, Declared.table_startSubroutine] at hstart
    cases hstart
    exact ⟨rfl, rfl, .nil _, rfl⟩
  have head := type_step.trans (identifier_step hname)
  rw [head.symbols] at defines₁
  rw [(symbol_step hopen).symbols] at defines₂
  rw [(symbol_step hclose).symbols] at defines₃
  let r : Subroutine := ⟨kind, returns, name, ps, ls, ss⟩
  have defines : Defines (r.declarations cls) p₀.symbols q.symbols :=
    defines_append.2 ⟨_, defines_append.2 ⟨_, defines₁, defines₂⟩, defines₃⟩
  rw [start.1, Declared.defines_table_iff fits.startSubroutine,
    Declared.addAll_inSubroutine Declared.kind_of_mem_declarations, List.nil_append] at defines
  obtain ⟨fits', symbols'⟩ := defines
  have scope : q.scope cls = r.scope cls d.inClass := by
    rw [Progress.scope, symbols', Declared.scope_table]
    rfl
  have before := ((start.2.trans head.toMove).trans move₁).trans
    (((symbol_step hopen).toMove.trans move₂).trans (symbol_step hclose).toMove)
  rw [scope] at valid move₃
  rw [before.labels, symbols', Declared.count_table, Declared.count_table] at move₃
  refine ⟨r, rfl, ⟨fits' .argument, fits' .local, valid⟩, ?_,
    ⟨d.inClass, r.declarations cls⟩, rfl, fits', symbols'⟩
  simpa [r, Subroutine.tail, Subroutine.code, parentheses, Declared.count, Declared.level] using
    before.trans move₃

/-! ## Classes -/

/-- From `p` to `q` the pass went over members, in a class with the variables `inClass`. -/
def MembersBetween (cls : String) (inClass : List Declaration) (p q : Progress σ) : Prop :=
  ∃ ms : List Member, membersValid cls inClass ms ∧
    (∃ k, Move p (ms.flatMap Member.tokens) (membersCode cls inClass p.labels ms) k q) ∧
    Declared.Fits { inClass := inClass ++ ms.flatMap Member.declarations }

theorem MembersBetween.statics {inClass : List Declaration} {d : Names} {r : Progress σ}
    (move : Move p (Member.statics d).tokens [] 0 r)
    (h : MembersBetween cls (inClass ++ d.declarations .static) r q) :
    MembersBetween cls inClass p q := by
  obtain ⟨ms, valid, ⟨k, move'⟩, fits⟩ := h
  rw [move.labels] at move'
  refine ⟨.statics d :: ms, valid, ⟨_, move.trans move'⟩, ?_⟩
  simpa [Member.declarations] using fits

theorem MembersBetween.fields {inClass : List Declaration} {d : Names} {r : Progress σ}
    (move : Move p (Member.fields d).tokens [] 0 r)
    (h : MembersBetween cls (inClass ++ d.declarations .field) r q) :
    MembersBetween cls inClass p q := by
  obtain ⟨ms, valid, ⟨k, move'⟩, fits⟩ := h
  rw [move.labels] at move'
  refine ⟨.fields d :: ms, valid, ⟨_, move.trans move'⟩, ?_⟩
  simpa [Member.declarations] using fits

/-- A subroutine whose first word is at the cursor, and the members after it. -/
theorem MembersBetween.afterWord {d : Declared} {kind : SubroutineKind} {n : Nat} {u : Unit}
    {r : Progress σ} (hfirst : Pass.subroutine cls kind n (next p) = .ok u r)
    (hk : p.kinds.head? = some (.keyword (subroutineKeyword kind)))
    (fits : d.Fits) (symbols : p.symbols = d.table)
    (more : ∀ {d' : Declared}, d'.Fits → r.symbols = d'.table →
      MembersBetween cls d'.inClass r q) :
    MembersBetween cls d.inClass p q := by
  have word := step_next hk
  obtain ⟨s, rfl, valid, move, d', same, fits', symbols'⟩ :=
    subroutine_sound fits (word.symbols.trans symbols) hfirst
  obtain ⟨ms, valid', ⟨k, move'⟩, fits''⟩ := more fits' symbols'
  rw [same] at valid' move' fits''
  have move := word.toMove.trans move
  rw [move.labels] at move'
  refine ⟨.subroutine s :: ms, ⟨valid, valid'⟩, ⟨s.body.labels + k, ?_⟩, fits''⟩
  simpa [Member.tokens, membersCode] using move.trans move'

/-- What is declared after a declaration of class variables. -/
theorem defines_names {d : Declared} {kind : Kind} {ns : Names} (fits : d.Fits)
    (hkind : kind = .static ∨ kind = .field) {t : SymbolTable} :
    Defines (ns.declarations kind) d.table t ↔
      Declared.Fits { d with inClass := d.inClass ++ ns.declarations kind } ∧
        t = Declared.table { d with inClass := d.inClass ++ ns.declarations kind } := by
  rw [Declared.defines_table_iff fits, Declared.addAll_inClass]
  intro x hx
  rw [Declared.kind_of_mem_names x hx]
  exact hkind

/-- The members after a place where `d` is declared. -/
theorem members_sound {u : Unit} :
    ∀ {n : Nat} {d : Declared} {p q : Progress σ}, d.Fits → p.symbols = d.table →
      members cls n p = .ok u q → MembersBetween cls d.inClass p q
  | 0, _, _, _, _, _, h => absurd h exhausted_ne_ok
  | n + 1, d, p, q, fits, symbols, h => by
    rw [members, bind_of_ok peek_apply] at h
    change EStateM.run _ p = _ at h
    split at h
    · next hk =>
      rw [run_advance_bind] at h
      obtain ⟨_, p₁, hfirst, h⟩ := bind_eq_ok.1 h
      obtain ⟨ns, move, defines⟩ := declaration_sound hfirst
      rw [(step_next hk).symbols, symbols, defines_names fits (.inl rfl)] at defines
      exact .statics ((step_next hk).toMove.trans move) (members_sound defines.1 defines.2 h)
    · next hk =>
      rw [run_advance_bind] at h
      obtain ⟨_, p₁, hfirst, h⟩ := bind_eq_ok.1 h
      obtain ⟨ns, move, defines⟩ := declaration_sound hfirst
      rw [(step_next hk).symbols, symbols, defines_names fits (.inr rfl)] at defines
      exact .fields ((step_next hk).toMove.trans move) (members_sound defines.1 defines.2 h)
    · next hk =>
      rw [run_advance_bind] at h
      obtain ⟨_, p₁, hfirst, h⟩ := bind_eq_ok.1 h
      exact .afterWord hfirst hk fits symbols fun fits symbols => members_sound fits symbols h
    · next hk =>
      rw [run_advance_bind] at h
      obtain ⟨_, p₁, hfirst, h⟩ := bind_eq_ok.1 h
      exact .afterWord hfirst hk fits symbols fun fits symbols => members_sound fits symbols h
    · next hk =>
      rw [run_advance_bind] at h
      obtain ⟨_, p₁, hfirst, h⟩ := bind_eq_ok.1 h
      exact .afterWord hfirst hk fits symbols fun fits symbols => members_sound fits symbols h
    · obtain ⟨_, rfl⟩ := pure_eq_ok.1 h
      refine ⟨[], trivial, ⟨0, (Step.refl p).toMove⟩, ?_⟩
      rw [List.flatMap_nil, List.append_nil]
      exact fits.startSubroutine

/-- `class name { members }` is a valid class, and its code is written. -/
theorem classUnit_sound {n : Nat} {u : Unit} (symbols : p.symbols = {}) (labels : p.labels = 0)
    (h : classUnit n p = .ok u q) :
    ∃ c : Syntax.Class, p.kinds = c.tokens ∧ c.Valid ∧ Writes c.code p.sink q.sink := by
  obtain ⟨_, p₁, hword, h⟩ := bind_eq_ok.1 h
  obtain ⟨cls, p₂, hname, h⟩ := bind_eq_ok.1 h
  obtain ⟨_, p₃, hopen, h⟩ := bind_eq_ok.1 h
  obtain ⟨_, p₄, hmembers, h⟩ := bind_eq_ok.1 h
  obtain ⟨_, p₅, hclose, h⟩ := bind_eq_ok.1 h
  have head := ((keyword_step hword).trans (identifier_step hname)).trans (symbol_step hopen)
  have start : p₃.symbols = (⟨[], []⟩ : Declared).table := head.symbols.trans symbols
  have fits : Declared.Fits {} := fun kind => by cases kind <;> exact Nat.zero_le _
  obtain ⟨ms, valid, ⟨k, move⟩, fits'⟩ := members_sound fits start hmembers
  rw [head.labels, labels] at move
  have whole := (head.toMove.trans move).trans (symbol_step hclose).toMove
  rw [bind_of_ok get_apply] at h
  split at h
  · next hend =>
    obtain ⟨_, rfl⟩ := pure_eq_ok.1 h
    have rest : p₅.kinds = [] := by
      simpa [Progress.kinds, Cursor.atEnd] using hend
    refine ⟨⟨cls, ms⟩, ?_, ⟨fits' .static, fits' .field, valid⟩, ?_⟩
    · rw [whole.tokens, rest]
      simp [Syntax.Class.tokens, braces]
    · simpa [Syntax.Class.code] using whole.written
  · exact absurd h unexpected_ne_ok

end Jack.Pass
