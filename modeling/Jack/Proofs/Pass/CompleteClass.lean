import Jack.Proofs.Pass.CompleteBody
import Jack.Proofs.Pass.SoundClass

/-!
# Classes that the pass does not refuse

Declarations, subroutines and whole classes: the pass goes over the tokens of every valid class
and writes its code.
-/

namespace Jack.Pass

open Syntax

variable {σ : Type} [Sink σ] {cls : String} {p q : Progress σ}

/-! ## Declarations -/

theorem dataType_ok (allowVoid : Bool) (t : DataType) {ks : List TokenKind}
    (kinds : p.kinds = t.token :: ks) :
    ∃ q, typeName allowVoid p = .ok t.text q ∧ Step p [t.token] [] 0 q ∧ q.kinds = ks := by
  cases t with
  | named name =>
    obtain ⟨q, h, step⟩ := identifier_ok kinds
    refine ⟨q, ?_, step⟩
    rw [typeName, bind_of_ok peek_apply, kinds]
    exact h
  | _ =>
    refine ⟨next p, ?_, next_ok kinds⟩
    rw [typeName, bind_of_ok peek_apply, kinds]
    rfl

theorem returnType_ok (t : ReturnType) {ks : List TokenKind} (kinds : p.kinds = t.token :: ks) :
    ∃ type q, typeName true p = .ok type q ∧ Step p [t.token] [] 0 q ∧ q.kinds = ks := by
  cases t with
  | void =>
    refine ⟨Keyword.void.text, next p, ?_, next_ok kinds⟩
    rw [typeName, bind_of_ok peek_apply, kinds]
    rfl
  | data t => exact ⟨_, dataType_ok true t kinds⟩

/-- The pass goes over the tokens `ks`, up to `rest`, and the table is `t` then. -/
def Declares (x : Pass σ Unit) (p : Progress σ) (ks : List TokenKind) (t : SymbolTable)
    (rest : List TokenKind) : Prop :=
  ∃ q, x p = .ok () q ∧ Move p ks [] 0 q ∧ q.symbols = t ∧ q.kinds = rest

theorem define_ok {name type : String} {kind : Kind} {t : SymbolTable} (span : Span)
    (h : Defines [⟨name, type, kind⟩] p.symbols t) :
    Declares (define name type kind span) p [] t p.kinds := by
  obtain ⟨i, u, hu, rfl⟩ := h
  exact ⟨{ p with symbols := u }, define_eq_ok.2 ⟨i, u, hu, rfl⟩, ⟨rfl, .nil _, rfl⟩, rfl, rfl⟩

theorem defines_cons {d : Declaration} {ds : List Declaration} {t u : SymbolTable}
    (h : Defines (d :: ds) t u) : ∃ v, Defines [d] t v ∧ Defines ds v u :=
  defines_append.1 h

theorem names_complete {type : String} {kind : Kind} :
    ∀ (more : List String) (first : String) {n : Nat} {p : Progress σ} {ks : List TokenKind}
      {t : SymbolTable}, p.kinds = .identifier first :: (nameTail more ++ ks) →
      ks.head? ≠ some (.symbol ',') →
      Defines ((first :: more).map fun name => ⟨name, type, kind⟩) p.symbols t →
      more.length + 1 ≤ n →
      Declares (names type kind n) p (.identifier first :: nameTail more) t ks
  | _, _, 0, _, _, _, _, _, _, room => absurd room (Nat.not_succ_le_zero _)
  | more, first, n + 1, p, ks, t, kinds, ends, defines, room => by
    obtain ⟨u, defines₁, defines₂⟩ := defines_cons defines
    obtain ⟨p₁, hname, step₁, kinds₁⟩ := identifier_ok kinds
    rw [← step₁.symbols] at defines₁
    obtain ⟨p₂, hdefine, move₂, symbols₂, kinds₂⟩ := define_ok p.cursor.span defines₁
    have move := step₁.toMove.trans move₂
    cases more with
    | nil =>
      have kinds₂ : p₂.kinds = ks := kinds₂.trans kinds₁
      refine ⟨p₂, ?_, move, symbols₂.trans defines₂, kinds₂⟩
      rw [names, bind_of_ok here_apply, bind_of_ok hname, bind_of_ok hdefine,
        bind_of_ok (accept_of_ne (by rw [kinds₂]; exact ends))]
      rfl
    | cons second more =>
      obtain ⟨p₃, hcomma, step₃, kinds₃⟩ := accept_ok (kinds₂.trans kinds₁)
      rw [← symbols₂, ← step₃.symbols] at defines₂
      obtain ⟨q, hrest, move', symbols', kinds'⟩ :=
        names_complete more second (n := n) kinds₃ ends defines₂
          (by simp only [List.length_cons] at room; omega)
      refine ⟨q, ?_, ?_, symbols', kinds'⟩
      · rw [names, bind_of_ok here_apply, bind_of_ok hname, bind_of_ok hdefine, bind_of_ok hcomma,
          if_pos rfl, hrest]
      · simpa [nameTail] using (move.trans step₃.toMove).trans move'

theorem length_nameTail (names : List String) : (nameTail names).length = 2 * names.length := by
  induction names with
  | nil => rfl
  | cons name names ih =>
    simp only [nameTail, List.flatMap_cons, List.length_append, List.length_cons] at ih ⊢
    simp only [ih, List.length_nil]
    omega

theorem declaration_complete {kind : Kind} (d : Names) {n : Nat} {ks : List TokenKind}
    {t : SymbolTable} (kinds : p.kinds = d.tokens ++ ks)
    (defines : Defines (d.declarations kind) p.symbols t) (room : d.tokens.length ≤ n) :
    Declares (declaration kind n) p d.tokens t ks := by
  simp only [Names.tokens, List.append_assoc, List.cons_append, List.nil_append, List.length_cons,
    List.length_append, length_nameTail] at kinds room
  obtain ⟨p₁, htype, step₁, kinds₁⟩ := dataType_ok false d.type kinds
  rw [← step₁.symbols] at defines
  obtain ⟨p₂, hnames, move₂, symbols₂, kinds₂⟩ :=
    names_complete d.more d.first (n := n) kinds₁ (by simp) defines (by omega)
  obtain ⟨p₃, hend, step₃, kinds₃⟩ := symbol_ok kinds₂
  refine ⟨p₃, ?_, ?_, step₃.symbols.trans symbols₂, kinds₃⟩
  · rw [declaration, bind_of_ok htype, bind_of_ok hnames, hend]
  · simpa [Names.tokens] using (step₁.toMove.trans move₂).trans step₃.toMove

theorem parameters_complete :
    ∀ (more : List Parameter) (first : Parameter) {n : Nat} {p : Progress σ}
      {ks : List TokenKind} {t : SymbolTable},
      p.kinds = parameterTokens (first :: more) ++ ks → ks.head? ≠ some (.symbol ',') →
      Defines ((first :: more).map Parameter.declaration) p.symbols t → more.length + 1 ≤ n →
      Declares (parameters n) p (parameterTokens (first :: more)) t ks
  | _, _, 0, _, _, _, _, _, _, room => absurd room (Nat.not_succ_le_zero _)
  | more, first, n + 1, p, ks, t, kinds, ends, defines, room => by
    obtain ⟨u, defines₁, defines₂⟩ := defines_cons defines
    simp only [parameterTokens, Parameter.tokens, List.cons_append, List.nil_append] at kinds
    obtain ⟨p₁, htype, step₁, kinds₁⟩ := dataType_ok false first.type kinds
    obtain ⟨p₂, hname, step₂, kinds₂⟩ := identifier_ok kinds₁
    have head := step₁.trans step₂
    rw [← head.symbols] at defines₁
    obtain ⟨p₃, hdefine, move₃, symbols₃, kinds₃⟩ := define_ok p₁.cursor.span defines₁
    have move := head.toMove.trans move₃
    cases more with
    | nil =>
      have kinds₃ : p₃.kinds = ks := kinds₃.trans kinds₂
      refine ⟨p₃, ?_, move, symbols₃.trans defines₂, kinds₃⟩
      rw [parameters, bind_of_ok htype, bind_of_ok here_apply, bind_of_ok hname,
        bind_of_ok hdefine, bind_of_ok (accept_of_ne (by rw [kinds₃]; exact ends))]
      rfl
    | cons second more =>
      obtain ⟨p₄, hcomma, step₄, kinds₄⟩ := accept_ok (kinds₃.trans kinds₂)
      rw [← symbols₃, ← step₄.symbols] at defines₂
      obtain ⟨q, hrest, move', symbols', kinds'⟩ :=
        parameters_complete more second (n := n)
          (by rw [kinds₄]; simp [parameterTokens, Parameter.tokens, List.flatMap_def]) ends
          defines₂ (by simp only [List.length_cons] at room; omega)
      refine ⟨q, ?_, ?_, symbols', kinds'⟩
      · rw [parameters, bind_of_ok htype, bind_of_ok here_apply, bind_of_ok hname,
          bind_of_ok hdefine, bind_of_ok hcomma, if_pos rfl, hrest]
      · simpa [parameterTokens, Parameter.tokens] using (move.trans step₄.toMove).trans move'

theorem locals_complete :
    ∀ (ls : List Names) {n : Nat} {p : Progress σ} {ks : List TokenKind} {t : SymbolTable},
      p.kinds = localTokens ls ++ ks → ks.head? ≠ some (.keyword .var) →
      Defines (ls.flatMap (Names.declarations .local)) p.symbols t →
      (localTokens ls).length + 1 ≤ n →
      Declares (locals n) p (localTokens ls) t ks
  | _, 0, _, _, _, _, _, _, room => absurd room (Nat.not_succ_le_zero _)
  | [], n + 1, p, ks, t, kinds, ends, defines, _ => by
    have kinds : p.kinds = ks := kinds
    have hvar : ¬ p.cursor.isKeyword .var = true := by rwa [isKeyword_iff, kinds]
    refine ⟨p, ?_, (Step.refl p).toMove, defines, kinds⟩
    rw [locals, bind_of_ok get_apply, if_neg hvar]
    rfl
  | d :: ls, n + 1, p, ks, t, kinds, ends, defines, room => by
    obtain ⟨u, defines₁, defines₂⟩ := defines_append.1 defines
    simp only [localTokens, List.flatMap_cons, List.append_assoc, List.cons_append,
      List.length_cons, List.length_append] at kinds room
    have hvar : p.cursor.isKeyword .var = true := by rw [isKeyword_iff, kinds]; rfl
    obtain ⟨step₁, kinds₁⟩ := next_ok kinds
    rw [← step₁.symbols] at defines₁
    obtain ⟨p₂, hfirst, move₂, symbols₂, kinds₂⟩ :=
      declaration_complete d (n := n) kinds₁ defines₁ (by omega)
    rw [← symbols₂] at defines₂
    obtain ⟨q, hrest, move₃, symbols₃, kinds₃⟩ :=
      locals_complete ls (n := n) kinds₂ ends defines₂ (by simp only [localTokens]; omega)
    refine ⟨q, ?_, ?_, symbols₃, kinds₃⟩
    · rw [locals, bind_of_ok get_apply, if_pos hvar, bind_of_ok advance_apply, bind_of_ok hfirst,
        hrest]
    · simpa [localTokens] using (step₁.toMove.trans move₂).trans move₃

/-! ## Subroutines -/

theorem receiver_complete {kind : SubroutineKind} {t : SymbolTable} (span : Span)
    (defines : Defines (if kind = .method then [⟨"this", cls, .argument⟩] else []) p.symbols t) :
    Declares (receiver cls kind span) p [] t p.kinds := by
  rw [receiver]
  split at defines
  · next hk =>
    rw [if_pos hk]
    exact define_ok span defines
  · next hk =>
    rw [if_neg hk]
    exact ⟨p, rfl, (Step.refl p).toMove, defines, rfl⟩

theorem length_parameterTokens (first : Parameter) (more : List Parameter) :
    more.length + 1 ≤ (parameterTokens (first :: more)).length := by
  induction more with
  | nil => simp [parameterTokens, Parameter.tokens]
  | cons second more ih =>
    simp only [parameterTokens, Parameter.tokens, List.flatMap_cons, List.length_append,
      List.length_cons] at ih ⊢
    omega

theorem parameterList_complete {ps : List Parameter} {n : Nat} {ks : List TokenKind}
    {t : SymbolTable} (kinds : p.kinds = parameterTokens ps ++ .symbol ')' :: ks)
    (defines : Defines (ps.map Parameter.declaration) p.symbols t)
    (room : (parameterTokens ps).length ≤ n) :
    Declares (parameterList n) p (parameterTokens ps) t (.symbol ')' :: ks) := by
  cases ps with
  | nil =>
    have hclose : p.cursor.isSymbol ')' = true := by rw [isSymbol_iff, kinds]; rfl
    refine ⟨p, ?_, (Step.refl p).toMove, defines, kinds⟩
    rw [parameterList, bind_of_ok get_apply, if_pos hclose]
    rfl
  | cons first more =>
    have hopen : ¬ p.cursor.isSymbol ')' = true := by
      rw [isSymbol_iff, kinds]
      exact parameterTokens_head first more _
    obtain ⟨q, h, declares⟩ := parameters_complete more first (n := n) kinds (by simp) defines
      (Nat.le_trans (length_parameterTokens first more) room)
    refine ⟨q, ?_, declares⟩
    rw [parameterList, bind_of_ok get_apply, if_neg hopen, h]

theorem body_complete (kind : SubroutineKind) (name : String) {ls : List Names} {ss : Statements}
    {n : Nat} {ks : List TokenKind} {t : SymbolTable}
    (kinds : p.kinds = braces (localTokens ls ++ ss.tokens) ++ ks)
    (defines : Defines (ls.flatMap (Names.declarations .local)) p.symbols t)
    (valid : ss.Valid ⟨cls, t.lookup⟩) (roomy : Roomy p.sink)
    (room : 3 * (localTokens ls ++ ss.tokens).length + 2 ≤ n) :
    ∃ q, body cls kind name n p = .ok () q ∧
      Move p (braces (localTokens ls ++ ss.tokens))
        (.function (cls ++ "." ++ name) (t.count .local) ::
          (opening (t.count .field) kind ++ ss.code ⟨cls, t.lookup⟩ p.labels))
        ss.labels q ∧ q.symbols = t ∧ q.kinds = ks := by
  simp only [braces, List.append_assoc, List.cons_append, List.nil_append, List.length_append]
    at kinds room
  obtain ⟨p₁, hopen, step₁, kinds₁⟩ := symbol_ok kinds
  rw [← step₁.symbols] at defines
  obtain ⟨p₂, hlocals, move₂, symbols₂, kinds₂⟩ :=
    locals_complete ls (n := n) kinds₁ (statements_head ss ks).2 defines (by omega)
  have before := step₁.toMove.trans move₂
  obtain ⟨p₃, hfunction, step₃⟩ :=
    emit_ok (.function (cls ++ "." ++ name) (p₂.symbols.count .local)) (before.roomy roomy)
  obtain ⟨p₄, hopening, step₄⟩ :=
    emitAll_ok (opening (p₃.symbols.count .field) kind) (step₃.roomy (before.roomy roomy))
  have start := step₃.trans step₄
  have scope : p₄.scope cls = ⟨cls, t.lookup⟩ := by
    rw [start.scope, Progress.scope, symbols₂]
  rw [← scope] at valid
  obtain ⟨p₅, hstatements, step₅, kinds₅⟩ :=
    statements_complete ss (n := n) valid (start.kinds_eq.trans kinds₂)
      (start.roomy (before.roomy roomy)) (by omega)
  obtain ⟨q, hclose, step₆, kinds₆⟩ := symbol_ok kinds₅
  have after := (start.trans step₅).trans step₆
  refine ⟨q, ?_, ?_, after.symbols.trans symbols₂, kinds₆⟩
  · rw [body, bind_of_ok hopen, bind_of_ok hlocals, bind_of_ok count_apply, bind_of_ok hfunction,
      bind_of_ok count_apply, ← opening_eq_prologue, bind_of_ok hopening, bind_of_ok hstatements,
      hclose]
  · have whole := before.trans after.toMove
    rw [step₃.symbols, symbols₂, scope, start.labels, before.labels] at whole
    simpa [braces] using whole

/-- A valid subroutine is compiled where `d` is declared. -/
theorem subroutine_complete {d : Declared} {r : Subroutine} {n : Nat} {ks : List TokenKind}
    (fits : d.Fits) (symbols : p.symbols = d.table) (valid : r.Valid cls d.inClass)
    (kinds : p.kinds = r.tail ++ ks) (roomy : Roomy p.sink) (room : 3 * r.tail.length ≤ n) :
    ∃ q, subroutine cls r.kind n p = .ok () q ∧
      Move p r.tail (r.code cls d.inClass p.labels) r.body.labels q ∧ q.kinds = ks ∧
      ∃ d' : Declared, d'.inClass = d.inClass ∧ d'.Fits ∧ q.symbols = d'.table := by
  let d' : Declared := ⟨d.inClass, r.declarations cls⟩
  have fits' : d'.Fits
    | .static => fits .static
    | .field => fits .field
    | .argument => valid.arguments
    | .local => valid.locals
  have defines : Defines (r.declarations cls) d.table.startSubroutine d'.table := by
    rw [Declared.table_startSubroutine, Declared.defines_table_iff fits.startSubroutine,
      Declared.addAll_inSubroutine Declared.kind_of_mem_declarations]
    exact ⟨fits', rfl⟩
  obtain ⟨t₂, defines, defines₃⟩ := defines_append.1 defines
  obtain ⟨t₁, defines₁, defines₂⟩ := defines_append.1 defines
  have scope : (⟨cls, d'.table.lookup⟩ : Scope) = r.scope cls d.inClass := d'.scope_table cls
  simp only [Subroutine.tail, parentheses, List.append_assoc, List.cons_append, List.nil_append,
    List.length_append, List.length_cons, braces] at kinds room
  -- The table of the last subroutine is forgotten before the first token.
  let p₀ : Progress σ := { p with symbols := p.symbols.startSubroutine }
  have start : Move p [] [] 0 p₀ := ⟨rfl, .nil _, rfl⟩
  obtain ⟨type, p₁, htype, step₁, kinds₁⟩ := returnType_ok (p := p₀) r.returns kinds
  obtain ⟨p₂, hname, step₂, kinds₂⟩ := identifier_ok kinds₁
  have head := step₁.trans step₂
  rw [← symbols, ← show p₂.symbols = p.symbols.startSubroutine from head.symbols] at defines₁
  obtain ⟨p₃, hreceiver, move₃, symbols₃, kinds₃⟩ := receiver_complete p₁.cursor.span defines₁
  obtain ⟨p₄, hopen, step₄, kinds₄⟩ := symbol_ok (kinds₃.trans kinds₂)
  rw [← symbols₃, ← step₄.symbols] at defines₂
  obtain ⟨p₅, hparameters, move₅, symbols₅, kinds₅⟩ :=
    parameterList_complete (n := n) kinds₄ defines₂ (by omega)
  obtain ⟨p₆, hclose, step₆, kinds₆⟩ := symbol_ok kinds₅
  have before := ((start.trans head.toMove).trans move₃).trans
    ((step₄.toMove.trans move₅).trans step₆.toMove)
  rw [← symbols₅, ← step₆.symbols] at defines₃
  have kinds₆ : p₆.kinds = braces (localTokens r.locals ++ r.body.tokens) ++ ks := by
    rw [kinds₆]
    simp [braces]
  obtain ⟨q, hbody, move₇, symbols₇, kinds₇⟩ :=
    body_complete r.kind r.name (n := n) kinds₆ defines₃ (scope ▸ valid.body)
      (before.roomy roomy) (by rw [List.length_append]; omega)
  refine ⟨q, ?_, ?_, kinds₇, d', rfl, fits', symbols₇⟩
  · rw [subroutine_eq, bind_of_ok startSubroutine_apply, bind_of_ok htype, bind_of_ok here_apply,
      bind_of_ok hname, bind_of_ok hreceiver, bind_of_ok hopen, bind_of_ok hparameters,
      bind_of_ok hclose, hbody]
  · rw [scope, before.labels, Declared.count_table, Declared.count_table] at move₇
    simpa [Subroutine.tail, Subroutine.code, parentheses, d', Declared.count, Declared.level] using
      before.trans move₇

/-! ## Classes -/

theorem members_variables {kind : Kind} {word : Keyword} {n : Nat}
    (hword : kind = .static ∧ word = .static ∨ kind = .field ∧ word = .field)
    (hk : p.kinds.head? = some (.keyword word)) :
    members cls (n + 1) p = (declaration kind n >>= fun _ => members cls n) (next p) := by
  rw [members, bind_of_ok peek_apply, hk]
  obtain ⟨rfl, rfl⟩ | ⟨rfl, rfl⟩ := hword <;> rfl

theorem members_subroutine {kind : SubroutineKind} {n : Nat}
    (hk : p.kinds.head? = some (.keyword (subroutineKeyword kind))) :
    members cls (n + 1) p = (subroutine cls kind n >>= fun _ => members cls n) (next p) := by
  rw [members, bind_of_ok peek_apply, hk]
  cases kind <;> rfl

/-- The pass goes over some members, where `d` is declared. -/
def GoesOverMembers (cls : String) (d : Declared) (ms : List Member) (n : Nat) (p : Progress σ)
    (ks : List TokenKind) : Prop :=
  ∃ q k, members cls n p = .ok () q ∧
    Move p (ms.flatMap Member.tokens) (membersCode cls d.inClass p.labels ms) k q ∧ q.kinds = ks

/-- A declaration of class variables, and the members after it. -/
theorem GoesOverMembers.variables {kind : Kind} {word : Keyword} {d : Declared} {ns : Names}
    {m : Member} {ms : List Member} {n : Nat} {ks ks' : List TokenKind}
    (hword : kind = .static ∧ word = .static ∨ kind = .field ∧ word = .field)
    (tokens : m.tokens = .keyword word :: ns.tokens)
    (code : ∀ k, membersCode cls d.inClass k (m :: ms) =
      membersCode cls (d.inClass ++ ns.declarations kind) k ms)
    (fits : d.Fits) (symbols : p.symbols = d.table) (kinds : p.kinds = m.tokens ++ ks)
    (fits' : Declared.Fits { d with inClass := d.inClass ++ ns.declarations kind })
    (room : m.tokens.length ≤ n)
    (more : ∀ r : Progress σ, Move p m.tokens [] 0 r → r.kinds = ks →
      r.symbols = Declared.table { d with inClass := d.inClass ++ ns.declarations kind } →
      GoesOverMembers cls { d with inClass := d.inClass ++ ns.declarations kind } ms n r ks') :
    GoesOverMembers cls d (m :: ms) (n + 1) p ks' := by
  rw [tokens, List.cons_append] at kinds
  rw [tokens, List.length_cons] at room
  obtain ⟨step₁, kinds₁⟩ := next_ok kinds
  have defines := (defines_names fits (by obtain h | h := hword <;> simp [h.1])).2 ⟨fits', rfl⟩
  rw [← symbols, ← step₁.symbols] at defines
  obtain ⟨p₂, hfirst, move₂, symbols₂, kinds₂⟩ :=
    declaration_complete ns (n := n) kinds₁ defines (by omega)
  have move : Move p m.tokens [] 0 p₂ := by
    rw [tokens]
    exact step₁.toMove.trans move₂
  obtain ⟨q, k, hrest, move₃, kinds₃⟩ := more p₂ move kinds₂ symbols₂
  refine ⟨q, 0 + k, ?_, ?_, kinds₃⟩
  · rw [members_variables hword (by rw [kinds]; rfl), bind_of_ok hfirst, hrest]
  · rw [move.labels] at move₃
    rw [code, List.flatMap_cons]
    exact move.trans move₃

theorem members_complete :
    ∀ (ms : List Member) {n : Nat} {d : Declared} {p : Progress σ} {ks : List TokenKind},
      d.Fits → p.symbols = d.table → membersValid cls d.inClass ms →
      Declared.Fits { inClass := d.inClass ++ ms.flatMap Member.declarations } →
      p.kinds = ms.flatMap Member.tokens ++ .symbol '}' :: ks → Roomy p.sink →
      3 * (ms.flatMap Member.tokens).length + 1 ≤ n →
      GoesOverMembers cls d ms n p (.symbol '}' :: ks)
  | _, 0, _, _, _, _, _, _, _, _, _, room => absurd room (Nat.not_succ_le_zero _)
  | [], n + 1, d, p, ks, _, _, _, _, kinds, _, _ => by
    have kinds : p.kinds = .symbol '}' :: ks := kinds
    refine ⟨p, 0, ?_, (Step.refl p).toMove, kinds⟩
    rw [members, bind_of_ok peek_apply, kinds]
    rfl
  | .statics ns :: ms, n + 1, d, p, ks, fits, symbols, valid, total, kinds, roomy, room => by
    simp only [List.flatMap_cons, List.append_assoc, List.length_append] at kinds room total
    have fits' := fits.variables total
    rw [← List.append_assoc] at total
    refine .variables (.inl ⟨rfl, rfl⟩) rfl (fun _ => rfl) fits symbols kinds fits' (by omega) ?_
    intro r move kinds' symbols'
    exact members_complete ms fits' symbols' valid total kinds'
      (move.roomy roomy) (by simp only [Member.tokens, List.length_cons] at room; omega)
  | .fields ns :: ms, n + 1, d, p, ks, fits, symbols, valid, total, kinds, roomy, room => by
    simp only [List.flatMap_cons, List.append_assoc, List.length_append] at kinds room total
    have fits' := fits.variables total
    rw [← List.append_assoc] at total
    refine .variables (.inr ⟨rfl, rfl⟩) rfl (fun _ => rfl) fits symbols kinds fits' (by omega) ?_
    intro r move kinds' symbols'
    exact members_complete ms fits' symbols' valid total kinds'
      (move.roomy roomy) (by simp only [Member.tokens, List.length_cons] at room; omega)
  | .subroutine s :: ms, n + 1, d, p, ks, fits, symbols, valid, total, kinds, roomy, room => by
    simp only [List.flatMap_cons, Member.tokens, List.append_assoc, List.cons_append,
      List.length_append, List.length_cons] at kinds room
    obtain ⟨step₁, kinds₁⟩ := next_ok kinds
    obtain ⟨p₂, hfirst, move₂, kinds₂, d', same, fits', symbols'⟩ :=
      subroutine_complete (n := n) fits (step₁.symbols.trans symbols) valid.1 kinds₁
        (step₁.roomy roomy) (by omega)
    have move := step₁.toMove.trans move₂
    obtain ⟨q, k, hrest, move₃, kinds₃⟩ :=
      members_complete ms (n := n) fits' symbols' (same ▸ valid.2) (same ▸ total) kinds₂
        (move.roomy roomy) (by omega)
    refine ⟨q, s.body.labels + k, ?_, ?_, kinds₃⟩
    · rw [members_subroutine (by rw [kinds]; rfl), bind_of_ok hfirst, hrest]
    · rw [same, move.labels] at move₃
      simpa [Member.tokens, membersCode] using move.trans move₃

/-- The pass goes over the tokens of a valid class and writes its code. -/
theorem classUnit_complete {c : Syntax.Class} {n : Nat} (valid : c.Valid) (symbols : p.symbols = {})
    (labels : p.labels = 0) (kinds : p.kinds = c.tokens) (roomy : Roomy p.sink)
    (room : 3 * c.tokens.length ≤ n) :
    ∃ q, classUnit n p = .ok () q ∧ Writes c.code p.sink q.sink := by
  simp only [Syntax.Class.tokens, braces, List.cons_append, List.nil_append, List.length_cons,
    List.length_append] at kinds room
  obtain ⟨p₁, hword, step₁, kinds₁⟩ := keyword_ok kinds
  obtain ⟨p₂, hname, step₂, kinds₂⟩ := identifier_ok kinds₁
  obtain ⟨p₃, hopen, step₃, kinds₃⟩ := symbol_ok kinds₂
  have head := (step₁.trans step₂).trans step₃
  have fits : Declared.Fits {} := fun kind => by cases kind <;> exact Nat.zero_le _
  have total : Declared.Fits { inClass := [] ++ c.members.flatMap Member.declarations } := by
    intro kind
    cases kind with
    | static => exact valid.statics
    | field => exact valid.fields
    | argument => exact Nat.zero_le _
    | «local» => exact Nat.zero_le _
  obtain ⟨p₄, k, hmembers, move₄, kinds₄⟩ :=
    members_complete c.members (n := n) fits (head.symbols.trans symbols) valid.members total
      kinds₃ (head.roomy roomy) (by omega)
  obtain ⟨p₅, hclose, step₅, kinds₅⟩ := symbol_ok kinds₄
  have whole := (head.toMove.trans move₄).trans step₅.toMove
  have hend : p₅.cursor.atEnd = true := by
    simpa [Progress.kinds, Cursor.atEnd] using kinds₅
  refine ⟨p₅, ?_, ?_⟩
  · rw [classUnit, bind_of_ok hword, bind_of_ok hname, bind_of_ok hopen, bind_of_ok hmembers,
      bind_of_ok hclose, bind_of_ok get_apply, if_pos hend]
    rfl
  · have written := whole.written
    rw [head.labels, labels] at written
    simpa [Syntax.Class.code] using written

end Jack.Pass
