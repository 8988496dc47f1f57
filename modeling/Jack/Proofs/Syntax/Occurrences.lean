import Jack.Proofs.Syntax.Labels

/-!
# Expressions inside a class

Where an expression stands in a class: in an assignment, a condition, a return, an argument, an
index or in parentheses, with some tokens of the class before it and the others after it. Another
expression can be put in its place. If it has the same code, then the class keeps its code.
-/

namespace Jack.Syntax

/-! ## Places of an expression -/

mutual

/-- The expression `e` stands in a term, between some tokens before it and some after it. -/
inductive Expression.InTerm (e : Expression) : Term → List TokenKind → List TokenKind → Prop
  | index {name : String} {i : Expression} {before after : List TokenKind} :
      e.Inside i before after →
      e.InTerm (.element name i) ([.identifier name, .symbol '['] ++ before)
        (after ++ [.symbol ']'])
  | call {c : Call} {before after : List TokenKind} : e.InCall c before after →
      e.InTerm (.call c) before after
  | group {inside : Expression} {before after : List TokenKind} :
      e.Inside inside before after →
      e.InTerm (.group inside) ([.symbol '('] ++ before) (after ++ [.symbol ')'])
  | signed {sign : Sign} {t : Term} {before after : List TokenKind} : e.InTerm t before after →
      e.InTerm (.signed sign t) ([.symbol sign.symbol] ++ before) after

/-- The expression `e` is an expression, or stands in one of its terms. -/
inductive Expression.Inside (e : Expression) : Expression → List TokenKind → List TokenKind → Prop
  | whole : e.Inside e [] []
  | first {t : Term} {rest : Chain} {before after : List TokenKind} : e.InTerm t before after →
      e.Inside (.mk t rest) before (after ++ rest.tokens)
  | later {t : Term} {rest : Chain} {before after : List TokenKind} :
      e.InChain rest before after → e.Inside (.mk t rest) (t.tokens ++ before) after

/-- The expression `e` stands in a term of a chain. -/
inductive Expression.InChain (e : Expression) : Chain → List TokenKind → List TokenKind → Prop
  | first {op : Operator} {t : Term} {rest : Chain} {before after : List TokenKind} :
      e.InTerm t before after →
      e.InChain (.cons op t rest) ([.symbol op.symbol] ++ before) (after ++ rest.tokens)
  | later {op : Operator} {t : Term} {rest : Chain} {before after : List TokenKind} :
      e.InChain rest before after →
      e.InChain (.cons op t rest) (.symbol op.symbol :: t.tokens ++ before) after

/-- The expression `e` stands in an argument of a call. -/
inductive Expression.InCall (e : Expression) : Call → List TokenKind → List TokenKind → Prop
  | own {name : String} {as : Arguments} {before after : List TokenKind} :
      e.InArguments as before after →
      e.InCall (.own name as) ([.identifier name, .symbol '('] ++ before)
        (after ++ [.symbol ')'])
  | qualified {qualifier name : String} {as : Arguments} {before after : List TokenKind} :
      e.InArguments as before after →
      e.InCall (.qualified qualifier name as)
        ([.identifier qualifier, .symbol '.', .identifier name, .symbol '('] ++ before)
        (after ++ [.symbol ')'])

/-- The expression `e` stands in one of some arguments. -/
inductive Expression.InArguments (e : Expression) :
    Arguments → List TokenKind → List TokenKind → Prop
  | first {a : Expression} {rest : Arguments} {before after : List TokenKind} :
      e.Inside a before after → e.InArguments (.cons a rest) before (after ++ rest.tail)
  | later {a : Expression} {rest : Arguments} {before after : List TokenKind} :
      e.InLaterArguments rest before after →
      e.InArguments (.cons a rest) (a.tokens ++ before) after

/-- The expression `e` stands in one of some arguments that others precede. -/
inductive Expression.InLaterArguments (e : Expression) :
    Arguments → List TokenKind → List TokenKind → Prop
  | first {a : Expression} {rest : Arguments} {before after : List TokenKind} :
      e.Inside a before after →
      e.InLaterArguments (.cons a rest) ([.symbol ','] ++ before) (after ++ rest.tail)
  | later {a : Expression} {rest : Arguments} {before after : List TokenKind} :
      e.InLaterArguments rest before after →
      e.InLaterArguments (.cons a rest) (.symbol ',' :: a.tokens ++ before) after

end

mutual

/-- The expression `e` stands in a statement. -/
inductive Expression.InStatement (e : Expression) :
    Statement → List TokenKind → List TokenKind → Prop
  | assign {name : String} {value : Expression} {before after : List TokenKind} :
      e.Inside value before after →
      e.InStatement (.assign name value)
        ([.keyword .let, .identifier name, .symbol '='] ++ before) (after ++ [.symbol ';'])
  | assignIndex {name : String} {index value : Expression} {before after : List TokenKind} :
      e.Inside index before after →
      e.InStatement (.assignElement name index value)
        ([.keyword .let, .identifier name, .symbol '['] ++ before)
        (after ++ ([.symbol ']', .symbol '='] ++ value.tokens ++ [.symbol ';']))
  | assignValue {name : String} {index value : Expression} {before after : List TokenKind} :
      e.Inside value before after →
      e.InStatement (.assignElement name index value)
        ([.keyword .let, .identifier name, .symbol '['] ++ index.tokens ++
          [.symbol ']', .symbol '='] ++ before) (after ++ [.symbol ';'])
  | whenCondition {condition : Expression} {yes : Statements} {before after : List TokenKind} :
      e.Inside condition before after →
      e.InStatement (.when condition yes) ([.keyword .if, .symbol '('] ++ before)
        (after ++ ([.symbol ')'] ++ braces yes.tokens))
  | whenYes {condition : Expression} {yes : Statements} {before after : List TokenKind} :
      e.InStatements yes before after →
      e.InStatement (.when condition yes)
        (.keyword .if :: parentheses condition.tokens ++ [.symbol '{'] ++ before)
        (after ++ [.symbol '}'])
  | chooseCondition {condition : Expression} {yes no : Statements}
      {before after : List TokenKind} : e.Inside condition before after →
      e.InStatement (.choose condition yes no) ([.keyword .if, .symbol '('] ++ before)
        (after ++ ([.symbol ')'] ++ braces yes.tokens ++ .keyword .else :: braces no.tokens))
  | chooseYes {condition : Expression} {yes no : Statements} {before after : List TokenKind} :
      e.InStatements yes before after →
      e.InStatement (.choose condition yes no)
        (.keyword .if :: parentheses condition.tokens ++ [.symbol '{'] ++ before)
        (after ++ (.symbol '}' :: .keyword .else :: braces no.tokens))
  | chooseNo {condition : Expression} {yes no : Statements} {before after : List TokenKind} :
      e.InStatements no before after →
      e.InStatement (.choose condition yes no)
        (.keyword .if :: parentheses condition.tokens ++ braces yes.tokens ++
          [.keyword .else, .symbol '{'] ++ before) (after ++ [.symbol '}'])
  | loopCondition {condition : Expression} {body : Statements} {before after : List TokenKind} :
      e.Inside condition before after →
      e.InStatement (.loop condition body) ([.keyword .while, .symbol '('] ++ before)
        (after ++ ([.symbol ')'] ++ braces body.tokens))
  | loopBody {condition : Expression} {body : Statements} {before after : List TokenKind} :
      e.InStatements body before after →
      e.InStatement (.loop condition body)
        (.keyword .while :: parentheses condition.tokens ++ [.symbol '{'] ++ before)
        (after ++ [.symbol '}'])
  | perform {c : Call} {before after : List TokenKind} : e.InCall c before after →
      e.InStatement (.perform c) ([.keyword .do] ++ before) (after ++ [.symbol ';'])
  | leave {value : Expression} {before after : List TokenKind} :
      e.Inside value before after →
      e.InStatement (.leave (some value)) ([.keyword .return] ++ before)
        (after ++ [.symbol ';'])

/-- The expression `e` stands in one of some statements. -/
inductive Expression.InStatements (e : Expression) :
    Statements → List TokenKind → List TokenKind → Prop
  | first {st : Statement} {rest : Statements} {before after : List TokenKind} :
      e.InStatement st before after →
      e.InStatements (.cons st rest) before (after ++ rest.tokens)
  | later {st : Statement} {rest : Statements} {before after : List TokenKind} :
      e.InStatements rest before after →
      e.InStatements (.cons st rest) (st.tokens ++ before) after

end

/-- The tokens of a subroutine before its first statement. -/
def Subroutine.header (r : Subroutine) : List TokenKind :=
  [.keyword (subroutineKeyword r.kind), r.returns.token, .identifier r.name] ++
    parentheses (parameterTokens r.parameters) ++ [.symbol '{'] ++ localTokens r.locals

/-- The expression `e` stands in the body of a subroutine of a class. -/
inductive Expression.InClass (e : Expression) : Class → List TokenKind → List TokenKind → Prop
  | body {name : String} {earlier later : List Member} {r : Subroutine}
      {before after : List TokenKind} : e.InStatements r.body before after →
      e.InClass ⟨name, earlier ++ .subroutine r :: later⟩
        ([.keyword .class, .identifier name, .symbol '{'] ++ earlier.flatMap Member.tokens ++
          r.header ++ before)
        (after ++ ([.symbol '}'] ++ later.flatMap Member.tokens ++ [.symbol '}']))

/-! ## Trees with the same code -/

/-- In every scope, the code is the same, and the second is valid if the first is. -/
def Term.Like (t t' : Term) : Prop :=
  ∀ s : Scope, t'.code s = t.code s ∧ (t.Valid s → t'.Valid s)

@[inherit_doc Term.Like]
def Expression.Like (e e' : Expression) : Prop :=
  ∀ s : Scope, e'.code s = e.code s ∧ (e.Valid s → e'.Valid s)

@[inherit_doc Term.Like]
def Chain.Like (c c' : Chain) : Prop :=
  ∀ s : Scope, c'.code s = c.code s ∧ (c.Valid s → c'.Valid s)

@[inherit_doc Term.Like]
def Call.Like (c c' : Call) : Prop :=
  ∀ s : Scope, c'.code s = c.code s ∧ (c.Valid s → c'.Valid s)

/-- As many arguments, and in every scope the same code, valid if the first are. -/
def Arguments.Like (as as' : Arguments) : Prop :=
  as'.length = as.length ∧ ∀ s : Scope, as'.code s = as.code s ∧ (as.Valid s → as'.Valid s)

/-- As many labels, and in every scope the same code, valid if the first is. -/
def Statement.Like (st st' : Statement) : Prop :=
  st'.labels = st.labels ∧
    ∀ s : Scope, (∀ k, st'.code s k = st.code s k) ∧ (st.Valid s → st'.Valid s)

@[inherit_doc Statement.Like]
def Statements.Like (ss ss' : Statements) : Prop :=
  ss'.labels = ss.labels ∧
    ∀ s : Scope, (∀ k, ss'.code s k = ss.code s k) ∧ (ss.Valid s → ss'.Valid s)

/-- The same code, and the second class is valid if the first is. -/
def Class.Like (c c' : Class) : Prop :=
  c'.code = c.code ∧ (c.Valid → c'.Valid)

/-! ## Putting another expression in the place -/

/-- The tree `x` has a place for expressions, between the tokens `before` and `after`, where `e`
stands. Like expressions there make like trees. -/
def Frame {α : Type} (tokens : α → List TokenKind) (Like : α → α → Prop) (e : Expression) (x : α)
    (before after : List TokenKind) : Prop :=
  ∃ fill : Expression → α, fill e = x ∧
    (∀ e', tokens (fill e') = before ++ e'.tokens ++ after) ∧ ∀ e', e.Like e' → Like x (fill e')

theorem frame_whole (e : Expression) : Frame Expression.tokens Expression.Like e e [] [] :=
  ⟨id, rfl, fun _ => (List.append_nil _).symm, fun _ like => like⟩

section Map

variable {α β : Type} {tokens : α → List TokenKind} {tokens' : β → List TokenKind}
  {Like : α → α → Prop} {Like' : β → β → Prop} {e : Expression} {x : α}
  {before after : List TokenKind}

/-- A frame inside a larger tree. -/
theorem Frame.map (frame : Frame tokens Like e x before after) (g : α → β)
    (left right : List TokenKind) (around : ∀ a, tokens' (g a) = left ++ tokens a ++ right)
    (like : ∀ a, Like x a → Like' (g x) (g a)) :
    Frame tokens' Like' e (g x) (left ++ before) (after ++ right) := by
  obtain ⟨fill, rfl, filled, alike⟩ := frame
  refine ⟨fun e' => g (fill e'), rfl, fun e' => ?_, fun e' h => like _ (alike e' h)⟩
  rw [around, filled]
  simp only [List.append_assoc]

/-- A frame at the end of a larger tree. -/
theorem Frame.mapLast (frame : Frame tokens Like e x before after) (g : α → β)
    (left : List TokenKind) (around : ∀ a, tokens' (g a) = left ++ tokens a)
    (like : ∀ a, Like x a → Like' (g x) (g a)) :
    Frame tokens' Like' e (g x) (left ++ before) after := by
  have whole := frame.map g left [] (fun a => (around a).trans (List.append_nil _).symm) like
  rwa [List.append_nil] at whole

end Map

section Frames

variable {e : Expression}

mutual

theorem frame_term : ∀ {t : Term} {before after : List TokenKind}, e.InTerm t before after →
    Frame Term.tokens Term.Like e t before after
  | .element name index, _, _, .index h => by
    refine (frame_expression h).map (Term.element name) _ _ (fun _ => rfl) fun a like s => ?_
    exact ⟨by simp only [Term.code, (like s).1], And.imp_right (like s).2⟩
  | .call c, _, _, .call h =>
    (frame_call h).mapLast Term.call [] (fun _ => rfl) fun _ like s => like s
  | .group inside, _, _, .group h =>
    (frame_expression h).map Term.group _ _ (fun _ => rfl) fun _ like s => like s
  | .signed sign t, _, _, .signed h => by
    refine (frame_term h).mapLast (Term.signed sign) _ (fun _ => rfl) fun a like s => ?_
    exact ⟨by simp only [Term.code, (like s).1], (like s).2⟩
termination_by structural t => t

theorem frame_expression : ∀ {f : Expression} {before after : List TokenKind},
    e.Inside f before after → Frame Expression.tokens Expression.Like e f before after
  | _, _, _, .whole => frame_whole e
  | .mk t rest, _, _, .first h => by
    refine (frame_term h).map (Expression.mk · rest) [] _ (fun _ => rfl) fun a like s => ?_
    exact ⟨by simp only [Expression.code, (like s).1], And.imp_left (like s).2⟩
  | .mk t rest, _, _, .later h => by
    refine (frame_chain h).mapLast (Expression.mk t) _ (fun _ => rfl) fun a like s => ?_
    exact ⟨by simp only [Expression.code, (like s).1], And.imp_right (like s).2⟩
termination_by structural f => f

theorem frame_chain : ∀ {c : Chain} {before after : List TokenKind},
    e.InChain c before after → Frame Chain.tokens Chain.Like e c before after
  | .cons op t rest, _, _, .first h => by
    refine (frame_term h).map (Chain.cons op · rest) _ _ (fun _ => rfl) fun a like s => ?_
    exact ⟨by simp only [Chain.code, (like s).1], And.imp_left (like s).2⟩
  | .cons op t rest, _, _, .later h => by
    refine (frame_chain h).mapLast (Chain.cons op t) _ (fun _ => rfl) fun a like s => ?_
    exact ⟨by simp only [Chain.code, (like s).1], And.imp_right (like s).2⟩
termination_by structural c => c

theorem frame_call : ∀ {c : Call} {before after : List TokenKind},
    e.InCall c before after → Frame Call.tokens Call.Like e c before after
  | .own name as, _, _, .own h => by
    refine (frame_arguments h).map (Call.own name) _ _ (fun _ => rfl) fun a like s => ?_
    exact ⟨by simp only [Call.code, like.1, (like.2 s).1],
      And.imp (fun few => by rwa [like.1]) (like.2 s).2⟩
  | .qualified qualifier name as, _, _, .qualified h => by
    refine (frame_arguments h).map (Call.qualified qualifier name) _ _ (fun _ => rfl)
      fun a like s => ?_
    exact ⟨by simp only [Call.code, like.1, (like.2 s).1],
      And.imp (fun few => by rwa [like.1]) (like.2 s).2⟩
termination_by structural c => c

theorem frame_arguments : ∀ {as : Arguments} {before after : List TokenKind},
    e.InArguments as before after → Frame Arguments.tokens Arguments.Like e as before after
  | .cons a rest, _, _, .first h => by
    refine (frame_expression h).map (Arguments.cons · rest) [] _ (fun _ => rfl) fun a like => ?_
    refine ⟨rfl, fun s => ?_⟩
    exact ⟨by simp only [Arguments.code, (like s).1], And.imp_left (like s).2⟩
  | .cons a rest, _, _, .later h => by
    refine (frame_later h).mapLast (Arguments.cons a) _ (fun _ => rfl) fun a like => ?_
    refine ⟨congrArg (· + 1) like.1, fun s => ?_⟩
    exact ⟨by simp only [Arguments.code, (like.2 s).1], And.imp_right (like.2 s).2⟩
termination_by structural as => as

theorem frame_later : ∀ {as : Arguments} {before after : List TokenKind},
    e.InLaterArguments as before after → Frame Arguments.tail Arguments.Like e as before after
  | .cons a rest, _, _, .first h => by
    refine (frame_expression h).map (Arguments.cons · rest) _ _ (fun _ => rfl) fun a like => ?_
    refine ⟨rfl, fun s => ?_⟩
    exact ⟨by simp only [Arguments.code, (like s).1], And.imp_left (like s).2⟩
  | .cons a rest, _, _, .later h => by
    refine (frame_later h).mapLast (Arguments.cons a) _ (fun _ => rfl) fun a like => ?_
    refine ⟨congrArg (· + 1) like.1, fun s => ?_⟩
    exact ⟨by simp only [Arguments.code, (like.2 s).1], And.imp_right (like.2 s).2⟩
termination_by structural as => as

end

theorem conditionCode_like {condition condition' : Expression} (like : condition.Like condition')
    (s : Scope) (k : Nat) : conditionCode s condition' k = conditionCode s condition k := by
  rw [conditionCode, (like s).1, conditionCode]

mutual

theorem frame_statement : ∀ {st : Statement} {before after : List TokenKind},
    e.InStatement st before after → Frame Statement.tokens Statement.Like e st before after
  | .assign name value, _, _, .assign h => by
    refine (frame_expression h).map (Statement.assign name) _ _ (fun _ => rfl) fun a like => ?_
    refine ⟨rfl, fun s => ⟨fun k => ?_, And.imp_right (like s).2⟩⟩
    simp only [Statement.code, (like s).1]
  | .assignElement name index value, _, _, .assignIndex h => by
    refine (frame_expression h).map (Statement.assignElement name · value) _ _
      (fun _ => by simp [Statement.tokens]) fun a like => ?_
    refine ⟨rfl, fun s => ⟨fun k => ?_, And.imp_right (And.imp_left (like s).2)⟩⟩
    simp only [Statement.code, (like s).1]
  | .assignElement name index value, _, _, .assignValue h => by
    refine (frame_expression h).map (Statement.assignElement name index) _ _ (fun _ => rfl)
      fun a like => ?_
    refine ⟨rfl, fun s => ⟨fun k => ?_, And.imp_right (And.imp_right (like s).2)⟩⟩
    simp only [Statement.code, (like s).1]
  | .when condition yes, _, _, .whenCondition h => by
    refine (frame_expression h).map (Statement.when · yes) _ _
      (fun _ => by simp [Statement.tokens, parentheses]) fun a like => ?_
    refine ⟨rfl, fun s => ⟨fun k => ?_, And.imp_left (like s).2⟩⟩
    simp only [Statement.code, conditionCode_like like]
  | .when condition yes, _, _, .whenYes h => by
    refine (frame_statements h).map (Statement.when condition) _ _
      (fun _ => by simp [Statement.tokens, braces]) fun a like => ?_
    refine ⟨congrArg (· + 2) like.1, fun s => ⟨fun k => ?_, And.imp_right (like.2 s).2⟩⟩
    simp only [Statement.code, (like.2 s).1]
  | .choose condition yes no, _, _, .chooseCondition h => by
    refine (frame_expression h).map (Statement.choose · yes no) _ _
      (fun _ => by simp [Statement.tokens, parentheses]) fun a like => ?_
    refine ⟨rfl, fun s => ⟨fun k => ?_, And.imp_left (like s).2⟩⟩
    simp only [Statement.code, conditionCode_like like]
  | .choose condition yes no, _, _, .chooseYes h => by
    refine (frame_statements h).map (Statement.choose condition · no) _ _
      (fun _ => by simp [Statement.tokens, braces]) fun a like => ?_
    refine ⟨by simp only [Statement.labels, like.1], fun s => ⟨fun k => ?_,
      And.imp_right (And.imp_left (like.2 s).2)⟩⟩
    simp only [Statement.code, like.1, (like.2 s).1]
  | .choose condition yes no, _, _, .chooseNo h => by
    refine (frame_statements h).map (Statement.choose condition yes) _ _
      (fun _ => by simp [Statement.tokens, braces]) fun a like => ?_
    refine ⟨by simp only [Statement.labels, like.1], fun s => ⟨fun k => ?_,
      And.imp_right (And.imp_right (like.2 s).2)⟩⟩
    simp only [Statement.code, (like.2 s).1]
  | .loop condition body, _, _, .loopCondition h => by
    refine (frame_expression h).map (Statement.loop · body) _ _
      (fun _ => by simp [Statement.tokens, parentheses]) fun a like => ?_
    refine ⟨rfl, fun s => ⟨fun k => ?_, And.imp_left (like s).2⟩⟩
    simp only [Statement.code, conditionCode_like like]
  | .loop condition body, _, _, .loopBody h => by
    refine (frame_statements h).map (Statement.loop condition) _ _
      (fun _ => by simp [Statement.tokens, braces]) fun a like => ?_
    refine ⟨congrArg (· + 2) like.1, fun s => ⟨fun k => ?_, And.imp_right (like.2 s).2⟩⟩
    simp only [Statement.code, (like.2 s).1]
  | .perform c, _, _, .perform h => by
    refine (frame_call h).map Statement.perform _ _ (fun _ => rfl) fun a like => ?_
    refine ⟨rfl, fun s => ⟨fun k => ?_, (like s).2⟩⟩
    simp only [Statement.code, (like s).1]
  | .leave (some value), _, _, .leave h => by
    refine (frame_expression h).map (fun value => Statement.leave (some value)) _ _ (fun _ => rfl)
      fun a like => ?_
    refine ⟨rfl, fun s => ⟨fun k => ?_, (like s).2⟩⟩
    simp only [Statement.code, (like s).1]
termination_by structural st => st

theorem frame_statements : ∀ {ss : Statements} {before after : List TokenKind},
    e.InStatements ss before after → Frame Statements.tokens Statements.Like e ss before after
  | .cons st rest, _, _, .first h => by
    refine (frame_statement h).map (Statements.cons · rest) [] _ (fun _ => rfl) fun a like => ?_
    refine ⟨congrArg (· + rest.labels) like.1, fun s => ⟨fun k => ?_, And.imp_left (like.2 s).2⟩⟩
    simp only [Statements.code, like.1, (like.2 s).1]
  | .cons st rest, _, _, .later h => by
    refine (frame_statements h).mapLast (Statements.cons st) _ (fun _ => rfl) fun a like => ?_
    refine ⟨congrArg (st.labels + ·) like.1, fun s => ⟨fun k => ?_, And.imp_right (like.2 s).2⟩⟩
    simp only [Statements.code, (like.2 s).1]
termination_by structural ss => ss

end

/-! ## Classes -/

section Class

variable {r : Subroutine} {body : Statements} (like : r.body.Like body) (cls : String)

include like

theorem subroutineCode_like (inClass : List Declaration) (k : Nat) :
    ({ r with body } : Subroutine).code cls inClass k = r.code cls inClass k := by
  show _ :: (_ ++ body.code (r.scope cls inClass) k) = _
  rw [(like.2 _).1 k]
  rfl

theorem subroutineValid_like {inClass : List Declaration} (valid : r.Valid cls inClass) :
    ({ r with body } : Subroutine).Valid cls inClass where
  arguments := valid.arguments
  locals := valid.locals
  body := (like.2 _).2 valid.body

/-- Another body of a subroutine does not change what the members after it become. -/
theorem membersCode_like (later earlier : List Member) (inClass : List Declaration) (k : Nat) :
    membersCode cls inClass k (earlier ++ .subroutine { r with body } :: later) =
      membersCode cls inClass k (earlier ++ .subroutine r :: later) := by
  induction earlier generalizing inClass k with
  | nil => simp only [List.nil_append, membersCode, subroutineCode_like like, like.1]
  | cons m earlier ih => cases m <;> simp only [List.cons_append, membersCode, ih]

theorem membersValid_like (later earlier : List Member) (inClass : List Declaration)
    (valid : membersValid cls inClass (earlier ++ .subroutine r :: later)) :
    membersValid cls inClass (earlier ++ .subroutine { r with body } :: later) := by
  induction earlier generalizing inClass with
  | nil => exact ⟨subroutineValid_like like cls valid.1, valid.2⟩
  | cons m earlier ih =>
    cases m with
    | statics d => exact ih _ valid
    | fields d => exact ih _ valid
    | subroutine r' => exact ⟨valid.1, ih _ valid.2⟩

theorem class_like (earlier later : List Member) :
    Class.Like ⟨cls, earlier ++ .subroutine r :: later⟩
      ⟨cls, earlier ++ .subroutine { r with body } :: later⟩ := by
  refine ⟨membersCode_like like cls later earlier [] 0, fun valid => ⟨?_, ?_, ?_⟩⟩
  · have few := valid.statics
    simp only [List.flatMap_append, List.flatMap_cons, Member.declarations] at few ⊢
    exact few
  · have few := valid.fields
    simp only [List.flatMap_append, List.flatMap_cons, Member.declarations] at few ⊢
    exact few
  · exact membersValid_like like cls later earlier [] valid.members

end Class

/-- A class has a place for expressions wherever one stands in it. -/
theorem frame_class {c : Class} {before after : List TokenKind} (h : e.InClass c before after) :
    Frame Class.tokens Class.Like e c before after := by
  cases h with
  | @body name earlier later r before after h =>
    refine (frame_statements h).map
      (fun body => (⟨name, earlier ++ .subroutine { r with body } :: later⟩ : Class)) _ _
      (fun body => ?_) fun body like => class_like like name earlier later
    simp [Class.tokens, Member.tokens, Subroutine.tail, Subroutine.header, braces]

end Frames

end Jack.Syntax
