import Jack.Proofs.Pass.CompleteBody
import Jack.Proofs.Pass.SoundClass
import Jack.Proofs.Syntax.Labels

/-!
# Parallel passes

What the compiler does can depend on the current token, on the declared variables and on the number
of labels, and on nothing else: not on the tokens behind the current one, nor on the sink, nor on
where tokens stand, apart from the places it reports. `Parallel x y` says this of a piece `x` of
the pass, and of the same piece `y` over another sink. It is built from the primitives of the pass,
so a comparison of two passes needs one case for each primitive, whatever the grammar is.

The labels of a pass are part of this. A label is taken before it is defined, by a piece that
defines it, and each piece says which of the labels taken before it are left to it.
-/

namespace Jack

open Syntax

/-- The same error at another place. -/
def CompileError.movedTo (e : CompileError) (span : Span) : CompileError :=
  match e with
  | mismatch expected found _ => mismatch expected found span
  | unexpected expected found _ => unexpected expected found span
  | unexpectedEnd _ => unexpectedEnd span
  | undefined name _ => undefined name span
  | tooMany what _ => tooMany what span
  | write fault => write fault

theorem CompileError.movedTo_eq_self {e : CompileError} {span : Span} (h : e.span? = some span) :
    e.movedTo span = e := by
  cases e <;> simp_all [movedTo, span?]

theorem CompileError.span?_movedTo {e : CompileError} {span span' : Span}
    (h : e.span? = some span) : (e.movedTo span').span? = some span' := by
  cases e <;> simp_all [movedTo, span?]

theorem Cursor.atEnd_eq (c : Cursor) : c.atEnd = c.kind?.isNone := by
  obtain ⟨rest, ending⟩ := c
  cases rest <;> rfl

namespace Pass

/-- Two pieces of a pass that do the same, step by step. Places that one of them remembers `agree`
with those of the other. The list has the labels taken before, in the order in which the pieces
define them. The labels that they take themselves are those of `classes`. -/
inductive Parallel {σ τ : Type} [Sink σ] [Sink τ] (classes : String → Prop)
    (agree : Span → Span → Prop) : {α : Type} → List String → Pass σ α → Pass τ α → Prop
  | pure {α : Type} (a : α) : Parallel classes agree [] (pure a) (pure a)
  | append {α β : Type} {x : Pass σ α} {y : Pass τ α} {f : α → Pass σ β} {g : α → Pass τ β}
      {labels labels' : List String} :
      Parallel classes agree labels x y → (∀ a, Parallel classes agree labels' (f a) (g a)) →
      Parallel classes agree (labels ++ labels') (x >>= f) (y >>= g)
  | peek : Parallel classes agree [] peek peek
  | here {α : Type} {f : Span → Pass σ α} {g : Span → Pass τ α} {labels : List String} :
      (∀ s s', agree s s' → Parallel classes agree labels (f s) (g s')) →
      Parallel classes agree labels (here >>= f) (here >>= g)
  | advance : Parallel classes agree [] advance advance
  | identifier : Parallel classes agree [] identifier identifier
  | unexpected {α : Type} (expected : Expectation) :
      Parallel classes agree [] (unexpected expected : Pass σ α) (unexpected expected)
  | consult {α : Type} (f : SymbolTable → α) :
      Parallel classes agree [] (fun p => .ok (f p.symbols) p) (fun p => .ok (f p.symbols) p)
  | update (f : SymbolTable → SymbolTable) :
      Parallel classes agree [] (modify fun p => { p with symbols := f p.symbols })
        (modify fun p => { p with symbols := f p.symbols })
  | fresh {α : Type} {cls : String} {f : String → Pass σ α} {g : String → Pass τ α}
      {labels : List String} :
      classes cls → (∀ l, Parallel classes agree (labels ++ [l]) (f l) (g l)) →
      Parallel classes agree labels (freshLabel cls >>= f) (freshLabel cls >>= g)
  | emit {i : Instruction} {labels : List String} :
      i.label?.toList = labels → Parallel classes agree labels (emit i) (emit i)
  | throw {α : Type} {e : CompileError} {s s' : Span} : e.span? = some s → agree s s' →
      Parallel classes agree [] (throw e : Pass σ α) (throw (e.movedTo s'))

section Rules

variable {σ τ α β : Type} [Sink σ] [Sink τ] {classes : String → Prop}
  {agree : Span → Span → Prop} {labels : List String}

/-- First a piece that defines none of the labels. -/
theorem Parallel.bind {x : Pass σ α} {y : Pass τ α} {f : α → Pass σ β} {g : α → Pass τ β}
    (first : Parallel classes agree [] x y)
    (next : ∀ a, Parallel classes agree labels (f a) (g a)) :
    Parallel classes agree labels (x >>= f) (y >>= g) :=
  .append first next

/-- First a piece that defines the first one of the labels. -/
theorem Parallel.define {l : String} {x : Pass σ α} {y : Pass τ α} {f : α → Pass σ β}
    {g : α → Pass τ β} (first : Parallel classes agree [l] x y)
    (next : ∀ a, Parallel classes agree labels (f a) (g a)) :
    Parallel classes agree (l :: labels) (x >>= f) (y >>= g) :=
  .append first next

/-- Both passes go the same way if it depends on the current token. -/
theorem Parallel.ifCurrent {f : Option TokenKind → Bool} {x x' : Pass σ α} {y y' : Pass τ α}
    (h : Parallel classes agree labels x y) (h' : Parallel classes agree labels x' y') :
    Parallel classes agree labels (Pass.peek >>= fun k => if f k then x else x')
      (Pass.peek >>= fun k => if f k then y else y') :=
  .bind .peek fun k => by
    cases f k with
    | true => exact h
    | false => exact h'

theorem Parallel.ifSymbol {c : Char} {x x' : Pass σ α} {y y' : Pass τ α}
    (h : Parallel classes agree labels x y) (h' : Parallel classes agree labels x' y') :
    Parallel classes agree labels (get >>= fun p => if p.cursor.isSymbol c then x else x')
      (get >>= fun p => if p.cursor.isSymbol c then y else y') :=
  .ifCurrent (f := fun k => k == some (.symbol c)) h h'

theorem Parallel.ifKeyword {k : Keyword} {x x' : Pass σ α} {y y' : Pass τ α}
    (h : Parallel classes agree labels x y) (h' : Parallel classes agree labels x' y') :
    Parallel classes agree labels (get >>= fun p => if p.cursor.isKeyword k then x else x')
      (get >>= fun p => if p.cursor.isKeyword k then y else y') :=
  .ifCurrent (f := fun found => found == some (.keyword k)) h h'

/-! ## Primitives -/

theorem parallel_symbol (c : Char) :
    Parallel classes agree [] (symbol c : Pass σ Unit) (symbol c : Pass τ Unit) :=
  .ifSymbol .advance (.unexpected _)

theorem parallel_keyword (k : Keyword) :
    Parallel classes agree [] (keyword k : Pass σ Unit) (keyword k : Pass τ Unit) :=
  .ifKeyword .advance (.unexpected _)

theorem parallel_accept (c : Char) :
    Parallel classes agree [] (accept c : Pass σ Bool) (accept c : Pass τ Bool) :=
  .ifSymbol (.bind .advance fun _ => .pure true) (.pure false)

/-- Where the pass goes on depends on a symbol. -/
theorem Parallel.ifAccept {c : Char} {x x' : Pass σ α} {y y' : Pass τ α}
    (h : Parallel classes agree labels x y) (h' : Parallel classes agree labels x' y') :
    Parallel classes agree labels (accept c >>= fun found => if found = true then x else x')
      (accept c >>= fun found => if found = true then y else y') :=
  .bind (parallel_accept c) fun found => by
    cases found with
    | true => exact h
    | false => exact h'

theorem parallel_exhausted :
    Parallel classes agree [] (exhausted : Pass σ α) (exhausted : Pass τ α) :=
  .here fun _ _ hs => .throw rfl hs

theorem parallel_lookup (name : String) :
    Parallel classes agree [] (lookup name : Pass σ _) (lookup name : Pass τ _) :=
  .consult fun t => t.lookup name

theorem parallel_count (kind : Kind) :
    Parallel classes agree [] (count kind : Pass σ _) (count kind : Pass τ _) :=
  .consult fun t => t.count kind

theorem parallel_startSubroutine :
    Parallel classes agree [] (startSubroutine : Pass σ Unit) (startSubroutine : Pass τ Unit) :=
  .update SymbolTable.startSubroutine

theorem parallel_define (name type : String) (kind : Kind) {s s' : Span} (hs : agree s s') :
    Parallel classes agree [] (define name type kind s : Pass σ Unit)
      (define name type kind s' : Pass τ Unit) := by
  have shape {υ : Type} (span : Span) : (define name type kind span : Pass υ Unit) =
      ((fun p => .ok (p.symbols.define? name type kind) p) >>= fun found =>
        found.elim (throw (.tooMany (.declarations kind) span)) fun new =>
          modify fun p => { p with symbols := new.2 }) := by
    funext p
    refine Eq.trans ?_ (bind_of_ok rfl _).symm
    rw [define, bind_of_ok get_apply]
    cases p.symbols.define? name type kind <;> rfl
  rw [shape, shape]
  refine .bind (.consult fun t => t.define? name type kind) fun found => ?_
  cases found with
  | none => exact .throw rfl hs
  | some new => exact .update fun _ => new.2

theorem parallel_resolve (name : String) {s s' : Span} (hs : agree s s') :
    Parallel classes agree [] (resolve name s : Pass σ _) (resolve name s' : Pass τ _) :=
  .bind (parallel_lookup name) fun found => by
    cases found with
    | none => exact .throw rfl hs
    | some v => exact .pure v

theorem parallel_emitAll {code : List Instruction} (h : labelsOf code = labels) :
    Parallel classes agree labels (emitAll code : Pass σ Unit) (emitAll code : Pass τ Unit) := by
  subst h
  induction code with
  | nil => exact .pure ()
  | cons i code ih =>
    rw [labelsOf_cons]
    exact .append (.emit rfl) fun _ => ih

end Rules

variable {σ τ : Type} [Sink σ] [Sink τ] {classes : String → Prop} {agree : Span → Span → Prop}

/-! ## Expressions -/

section Body

variable {cls : String}

theorem parallel_stringConstant (text : String) {s s' : Span} (hs : agree s s') :
    Parallel classes agree [] (stringConstant text s : Pass σ Unit)
      (stringConstant text s' : Pass τ Unit) := by
  simp only [stringConstant]
  split
  · exact parallel_emitAll (labelsOf_plain (plain_string ⟨"", fun _ => none⟩ text))
  · exact .throw rfl hs

theorem parallel_callee (name : String) :
    Parallel classes agree [] (callee cls name : Pass σ _) (callee cls name : Pass τ _) := by
  refine .ifAccept (.bind .identifier fun sub => .bind (parallel_lookup name) fun found => ?_)
    (.bind (.emit rfl) fun _ => .pure _)
  cases found with
  | none => exact .pure _
  | some v => exact .bind (.emit rfl) fun _ => .pure _

mutual

theorem parallel_expression : ∀ n : Nat, Parallel classes agree []
    (expression cls n : Pass σ Unit) (expression cls n : Pass τ Unit)
  | 0 => parallel_exhausted
  | n + 1 => .bind (parallel_term n) fun _ => parallel_operators n

theorem parallel_operators : ∀ n : Nat, Parallel classes agree []
    (operators cls n : Pass σ Unit) (operators cls n : Pass τ Unit)
  | 0 => parallel_exhausted
  | n + 1 => by
    simp only [operators]
    refine .bind .peek fun k => ?_
    split
    · split
      · next hi =>
        obtain ⟨op, -, rfl⟩ := exists_operator hi
        refine .bind .advance fun _ => .bind (parallel_term n) fun _ => ?_
        exact .bind (.emit (by cases op <;> rfl)) fun _ => parallel_operators n
      · exact .pure ()
    · exact .pure ()

theorem parallel_term : ∀ n : Nat, Parallel classes agree []
    (term cls n : Pass σ Unit) (term cls n : Pass τ Unit)
  | 0 => parallel_exhausted
  | n + 1 => by
    simp only [term]
    refine .here fun s s' hs => .bind .peek fun k => ?_
    split
    · exact .bind .advance fun _ => .emit rfl
    · exact .bind .advance fun _ => parallel_stringConstant _ hs
    · exact .bind (.emit rfl) fun _ => .advance
    · exact .bind (.emit rfl) fun _ => .advance
    · exact .bind (.emit rfl) fun _ => .advance
    · exact .bind (parallel_emitAll rfl) fun _ => .advance
    · refine .bind .advance fun _ => .bind .peek fun k => ?_
      split
      · exact parallel_call _ n
      · exact parallel_call _ n
      · refine .bind (parallel_resolve _ hs) fun base => .bind .advance fun _ => ?_
        refine .bind (.emit rfl) fun _ => .bind (parallel_expression n) fun _ => ?_
        exact .bind (parallel_symbol ']') fun _ => parallel_emitAll rfl
      · exact .bind (parallel_resolve _ hs) fun v => .emit rfl
    · exact .bind .advance fun _ => .bind (parallel_expression n) fun _ => parallel_symbol ')'
    · exact .bind .advance fun _ => .bind (parallel_term n) fun _ => .emit rfl
    · exact .bind .advance fun _ => .bind (parallel_term n) fun _ => .emit rfl
    · exact .unexpected .term

theorem parallel_call (name : String) : ∀ n : Nat, Parallel classes agree []
    (call cls name n : Pass σ Unit) (call cls name n : Pass τ Unit)
  | 0 => parallel_exhausted
  | n + 1 => by
    rw [call_eq, call_eq]
    refine .here fun s s' hs => .bind (parallel_callee name) fun called => ?_
    refine .bind (parallel_symbol '(') fun _ => .bind ?_ fun seen => ?_
    · exact .ifSymbol (.pure 0) (parallel_arguments 0 n)
    · refine .bind (parallel_symbol ')') fun _ => ?_
      split
      · exact .emit rfl
      · exact .throw rfl hs

theorem parallel_arguments : ∀ before n : Nat, Parallel classes agree []
    (arguments cls before n : Pass σ Nat) (arguments cls before n : Pass τ Nat)
  | _, 0 => parallel_exhausted
  | before, n + 1 => by
    simp only [arguments]
    refine .here fun s s' hs => .bind (parallel_expression n) fun _ => ?_
    split
    · exact .ifAccept (parallel_arguments (before + 1) n) (.pure _)
    · exact .throw rfl hs

end

/-! ## Statements -/

theorem parallel_letStatement (n : Nat) : Parallel classes agree []
    (letStatement cls n : Pass σ Unit) (letStatement cls n : Pass τ Unit) := by
  refine .here fun s s' hs => .bind .identifier fun name => .bind (parallel_resolve name hs) ?_
  intro target
  refine .ifAccept ?_ ?_
  · refine .bind (.emit rfl) fun _ => .bind (parallel_expression n) fun _ => ?_
    refine .bind (parallel_symbol ']') fun _ => .bind (.emit rfl) fun _ => ?_
    refine .bind (parallel_symbol '=') fun _ => .bind (parallel_expression n) fun _ => ?_
    exact .bind (parallel_symbol ';') fun _ => parallel_emitAll rfl
  · refine .bind (parallel_symbol '=') fun _ => .bind (parallel_expression n) fun _ => ?_
    exact .bind (parallel_symbol ';') fun _ => .emit rfl

theorem parallel_doStatement (n : Nat) : Parallel classes agree []
    (doStatement cls n : Pass σ Unit) (doStatement cls n : Pass τ Unit) := by
  refine .bind .identifier fun name => .bind (parallel_call name n) fun _ => ?_
  exact .bind (parallel_symbol ';') fun _ => .emit rfl

theorem parallel_returnStatement (n : Nat) : Parallel classes agree []
    (returnStatement cls n : Pass σ Unit) (returnStatement cls n : Pass τ Unit) := by
  refine .ifSymbol (.bind (.emit rfl) fun _ => ?_) (.bind (parallel_expression n) fun _ => ?_)
  · exact .bind (parallel_symbol ';') fun _ => .emit rfl
  · exact .bind (parallel_symbol ';') fun _ => .emit rfl

theorem parallel_condition (n : Nat) (label : String) : Parallel classes agree []
    (condition cls n label : Pass σ Unit) (condition cls n label : Pass τ Unit) := by
  refine .bind (parallel_symbol '(') fun _ => .bind (parallel_expression n) fun _ => ?_
  exact .bind (parallel_symbol ')') fun _ => parallel_emitAll rfl

mutual

theorem parallel_statements (own : classes cls) : ∀ n : Nat, Parallel classes agree []
    (statements cls n : Pass σ Unit) (statements cls n : Pass τ Unit)
  | 0 => parallel_exhausted
  | n + 1 => by
    have more := parallel_statements own n
    simp only [statements]
    refine .bind .peek fun k => ?_
    split
    · exact .bind .advance fun _ => .bind (parallel_letStatement n) fun _ => more
    · exact .bind .advance fun _ => .bind (parallel_ifStatement own n) fun _ => more
    · exact .bind .advance fun _ => .bind (parallel_whileStatement own n) fun _ => more
    · exact .bind .advance fun _ => .bind (parallel_doStatement n) fun _ => more
    · exact .bind .advance fun _ => .bind (parallel_returnStatement n) fun _ => more
    · exact .pure ()

theorem parallel_block (own : classes cls) : ∀ n : Nat, Parallel classes agree []
    (block cls n : Pass σ Unit) (block cls n : Pass τ Unit)
  | 0 => parallel_exhausted
  | n + 1 => by
    refine .bind (parallel_symbol '{') fun _ => ?_
    exact .bind (parallel_statements own n) fun _ => parallel_symbol '}'

theorem parallel_ifStatement (own : classes cls) : ∀ n : Nat, Parallel classes agree []
    (ifStatement cls n : Pass σ Unit) (ifStatement cls n : Pass τ Unit)
  | 0 => parallel_exhausted
  | n + 1 => by
    have inner := parallel_block own n
    rw [ifStatement_eq, ifStatement_eq]
    simp only [ifStart, bind_assoc, pure_bind]
    refine .fresh own fun otherwise => .fresh own fun done => ?_
    refine .bind (parallel_condition n otherwise) fun _ => .bind inner fun _ => ?_
    refine .define (parallel_emitAll rfl) fun _ => .bind ?_ fun _ => .emit rfl
    exact .ifKeyword (.bind .advance fun _ => inner) (.pure ())

theorem parallel_whileStatement (own : classes cls) : ∀ n : Nat, Parallel classes agree []
    (whileStatement cls n : Pass σ Unit) (whileStatement cls n : Pass τ Unit)
  | 0 => parallel_exhausted
  | n + 1 => by
    refine .fresh own fun top => .fresh own fun done => .define (.emit rfl) fun _ => ?_
    refine .bind (parallel_condition n done) fun _ => ?_
    exact .bind (parallel_block own n) fun _ => parallel_emitAll rfl

end

end Body

/-! ## Classes -/

theorem parallel_typeName (allowVoid : Bool) : Parallel classes agree []
    (typeName allowVoid : Pass σ String) (typeName allowVoid : Pass τ String) := by
  refine .bind .peek fun k => ?_
  split
  · split
    · exact .bind .advance fun _ => .pure _
    · exact .unexpected .type
  · exact .identifier

theorem parallel_names (type : String) (kind : Kind) : ∀ n : Nat, Parallel classes agree []
    (names type kind n : Pass σ Unit) (names type kind n : Pass τ Unit)
  | 0 => parallel_exhausted
  | n + 1 => by
    refine .here fun s s' hs => .bind .identifier fun name => ?_
    refine .bind (parallel_define name type kind hs) fun _ => ?_
    exact .ifAccept (parallel_names type kind n) (.pure ())

theorem parallel_declaration (kind : Kind) (n : Nat) : Parallel classes agree []
    (declaration kind n : Pass σ Unit) (declaration kind n : Pass τ Unit) := by
  refine .bind (parallel_typeName false) fun type => ?_
  exact .bind (parallel_names type kind n) fun _ => parallel_symbol ';'

theorem parallel_parameters : ∀ n : Nat, Parallel classes agree []
    (parameters n : Pass σ Unit) (parameters n : Pass τ Unit)
  | 0 => parallel_exhausted
  | n + 1 => by
    refine .bind (parallel_typeName false) fun type => .here fun s s' hs => ?_
    refine .bind .identifier fun name => .bind (parallel_define name type .argument hs) fun _ => ?_
    exact .ifAccept (parallel_parameters n) (.pure ())

theorem parallel_locals : ∀ n : Nat, Parallel classes agree []
    (locals n : Pass σ Unit) (locals n : Pass τ Unit)
  | 0 => parallel_exhausted
  | n + 1 => by
    refine .ifKeyword (.bind .advance fun _ => ?_) (.pure ())
    exact .bind (parallel_declaration .local n) fun _ => parallel_locals n

theorem parallel_body {cls : String} (own : classes cls) (kind : SubroutineKind) (name : String)
    (n : Nat) : Parallel classes agree [] (body cls kind name n : Pass σ Unit)
      (body cls kind name n : Pass τ Unit) := by
  have unlabelled (fields : Nat) : labelsOf (prologue kind fields) = [] := by
    cases kind <;> rfl
  refine .bind (parallel_symbol '{') fun _ => .bind (parallel_locals n) fun _ => ?_
  refine .bind (parallel_count .local) fun _ => .bind (.emit rfl) fun _ => ?_
  refine .bind (parallel_count .field) fun fields => ?_
  refine .bind (parallel_emitAll (unlabelled fields)) fun _ => ?_
  exact .bind (parallel_statements own n) fun _ => parallel_symbol '}'

theorem parallel_subroutine {cls : String} (own : classes cls) (kind : SubroutineKind) (n : Nat) :
    Parallel classes agree [] (subroutine cls kind n : Pass σ Unit)
      (subroutine cls kind n : Pass τ Unit) := by
  rw [subroutine_eq, subroutine_eq]
  refine .bind parallel_startSubroutine fun _ => .bind (parallel_typeName true) fun _ => ?_
  refine .here fun s s' hs => .bind .identifier fun name => .bind ?_ fun _ => ?_
  · simp only [receiver]
    split
    · exact parallel_define _ _ _ hs
    · exact .pure ()
  refine .bind (parallel_symbol '(') fun _ => .bind ?_ fun _ => ?_
  · exact .ifSymbol (.pure ()) (parallel_parameters n)
  exact .bind (parallel_symbol ')') fun _ => parallel_body own kind name n

theorem parallel_members {cls : String} (own : classes cls) : ∀ n : Nat,
    Parallel classes agree [] (members cls n : Pass σ Unit) (members cls n : Pass τ Unit)
  | 0 => parallel_exhausted
  | n + 1 => by
    have more := parallel_members own n
    simp only [members]
    refine .bind .peek fun k => ?_
    split
    · exact .bind .advance fun _ => .bind (parallel_declaration .static n) fun _ => more
    · exact .bind .advance fun _ => .bind (parallel_declaration .field n) fun _ => more
    · exact .bind .advance fun _ => .bind (parallel_subroutine own .constructor n) fun _ => more
    · exact .bind .advance fun _ => .bind (parallel_subroutine own .function n) fun _ => more
    · exact .bind .advance fun _ => .bind (parallel_subroutine own .method n) fun _ => more
    · exact .pure ()

/-- `class name { members`, up to the last brace of a class. -/
def openClass (n : Nat) : Pass σ Unit := do
  keyword .class
  let cls ← identifier
  symbol '{'
  members cls n

/-- The last brace of a class, and nothing after it. -/
def closeClass : Pass σ Unit := do
  symbol '}'
  unless (← get).cursor.atEnd do unexpected .endOfFile

theorem classUnit_eq (n : Nat) :
    (classUnit n : Pass σ Unit) = (openClass n >>= fun _ => closeClass) := by
  simp only [classUnit, openClass, closeClass, bind_assoc]

theorem parallel_openClass (n : Nat) : Parallel (fun _ => True) agree []
    (openClass n : Pass σ Unit) (openClass n : Pass τ Unit) := by
  refine .bind (parallel_keyword .class) fun _ => .bind .identifier fun cls => ?_
  exact .bind (parallel_symbol '{') fun _ => parallel_members trivial n

theorem parallel_closeClass :
    Parallel classes agree [] (closeClass : Pass σ Unit) (closeClass : Pass τ Unit) := by
  refine .bind (parallel_symbol '}') fun _ => ?_
  simp only [Cursor.atEnd_eq]
  exact .ifCurrent (f := Option.isNone) (.pure ()) (.unexpected .endOfFile)

/-- A whole pass does the same over any two sinks. -/
theorem parallel_classUnit (n : Nat) : Parallel (fun _ => True) agree []
    (classUnit n : Pass σ Unit) (classUnit n : Pass τ Unit) := by
  rw [classUnit_eq, classUnit_eq]
  exact .bind (parallel_openClass n) fun _ => parallel_closeClass

end Pass

end Jack
