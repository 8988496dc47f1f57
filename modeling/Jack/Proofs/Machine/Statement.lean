import Jack.Proofs.Machine.Control
import Jack.Proofs.Syntax.Unambiguous
import Jack.Proofs.TwoPasses

/-!
# Code of statements on the machine

The code of statements means what the statements mean. The pass writes this code, so running what
it writes and executing what it reads have the same outcomes.
-/

namespace Jack.Machine

open Syntax

variable {calls : Calls} {s : Scope}

/-! ## Statements without statements inside -/

theorem means_assign {name : String} {value : Expression} {k : Nat}
    (valid : (Statement.assign name value).Valid s) :
    Means calls s.cls ((Statement.assign name value).code s k)
      ((Statement.assign name value).Runs calls s) := by
  obtain ⟨v, hv⟩ := Option.isSome_iff_exists.1 valid.1
  have write : s.write name = [save v] := by
    rw [Scope.write, hv]
    rfl
  have turns : Turns calls s.cls (value.code s ++ [save v]) [] fun st ys st' =>
      ys = [] ∧ ∃ w s₁, value.Gives calls s st w s₁ ∧ st' = s₁.set s.cls v w := by
    refine ((expression_computes value valid.2 []).andThen fun {_ w _} _ =>
      turns_assign v w []).congr fun st ys st' => ?_
    grind
  have plain : PlainCode (value.code s ++ [save v]) := by
    rw [← write]
    exact plainCode_append.2 ⟨plain_expression s value, plain_write s name⟩
  rw [Statement.code, write]
  refine (means_plain plain turns).congr fun st o => ?_
  simp only [Statement.Runs, hv]
  grind

theorem means_assignElement {name : String} {index value : Expression} {k : Nat}
    (valid : (Statement.assignElement name index value).Valid s) :
    Means calls s.cls ((Statement.assignElement name index value).code s k)
      ((Statement.assignElement name index value).Runs calls s) := by
  obtain ⟨v, hv⟩ := Option.isSome_iff_exists.1 valid.1
  have sum (b i : Word) : Turns calls s.cls [.arithmetic .add] [i, b] fun st ys st' =>
      ∃ a, ys = [a] ∧ a = b + i ∧ st' = st := turns_operator .add b i []
  have turns : Turns calls s.cls ((Statement.assignElement name index value).code s k) []
      fun st ys st' => ys = [] ∧ ∃ i s₁ w s₂, index.Gives calls s st i s₁ ∧
        value.Gives calls s s₁ w s₂ ∧ st' = s₂.poke (st.value s.cls v + i) w := by
    have whole := (computes_read hv []).andThen fun {_ b _} _ =>
      (expression_computes index valid.2.1 [b]).andThen fun {_ i _} _ =>
        (sum b i).andThen fun {_ a _} _ =>
          (expression_computes value valid.2.2 [a]).andThen fun {_ w _} _ => turns_store w a []
    simp only [Statement.code, List.append_assoc]
    refine whole.congr fun st ys st' => ?_
    grind
  have plain : PlainCode ((Statement.assignElement name index value).code s k) := by
    simp only [Statement.code, plainCode_append]
    refine ⟨⟨⟨⟨plain_read s name, plain_expression s index⟩, ?_⟩, plain_expression s value⟩, ?_⟩ <;>
      simp [PlainCode, Instruction.Plain]
  refine (means_plain plain turns).congr fun st o => ?_
  simp only [Statement.Runs, hv]
  grind

theorem means_perform {c : Call} {k : Nat} (valid : (Statement.perform c).Valid s) :
    Means calls s.cls ((Statement.perform c).code s k) ((Statement.perform c).Runs calls s) := by
  have turns : Turns calls s.cls (c.code s ++ [.pop .temp 0]) [] fun st ys st' =>
      ys = [] ∧ ∃ w, c.Gives calls s st w st' := by
    refine ((call_computes c valid []).andThen fun {_ w _} _ => turns_discard w []).congr
      fun st ys st' => ?_
    grind
  have plain : PlainCode (c.code s ++ [.pop .temp 0]) :=
    plainCode_append.2 ⟨plain_call s c, plainCode_cons.2 ⟨trivial, plainCode_nil⟩⟩
  refine (means_plain plain turns).congr fun st o => ?_
  simp only [Statement.Runs]
  grind

theorem means_leave {value : Option Expression} {k : Nat}
    (valid : (Statement.leave value).Valid s) :
    Means calls s.cls ((Statement.leave value).code s k)
      ((Statement.leave value).Runs calls s) := by
  cases value with
  | none =>
    have zero : Computes calls s.cls [.push .constant 0] fun st w st' => w = 0 ∧ st' = st :=
      computes_push fun _ => rfl
    have plain : PlainCode [.push .constant 0] := plainCode_cons.2 ⟨trivial, plainCode_nil⟩
    refine (means_return plain zero).congr fun st o => ?_
    simp only [Statement.Runs]
    grind
  | some e =>
    refine (means_return (plain_expression s e) (expression_computes e valid)).congr
      fun st o => ?_
    simp only [Statement.Runs]

theorem means_nil {cls : String} : Means calls cls [] fun st o => o = .next st := by
  have turns : Turns calls cls [] [] fun st ys st' => ys = [] ∧ st' = st := turns_nil []
  refine (means_plain plainCode_nil turns).congr fun st o => ?_
  grind

/-! ## All statements -/

theorem nodup_statement (st : Statement) (k : Nat) : (labelsOf (st.code s k)).Nodup :=
  (labelsOf_statement s st k).nodup_iff.2 (nodup_numberedLabels s.cls k st.labels)

theorem nodup_statements (ss : Statements) (k : Nat) : (labelsOf (ss.code s k)).Nodup :=
  (labelsOf_statements s ss k).nodup_iff.2 (nodup_numberedLabels s.cls k ss.labels)

mutual

theorem statement_means : ∀ (st : Statement) (k : Nat), st.Valid s →
    Means calls s.cls (st.code s k) (st.Runs calls s)
  | .assign _ _, _, valid => means_assign valid
  | .assignElement _ _ _, _, valid => means_assignElement valid
  | .when e yes, k, valid => by
    -- Without an `else`, the other branch is empty.
    have shape : (Statement.when e yes).code s k = branchCode (e.code s) (yes.code s (k + 2)) []
        (label s.cls k) (label s.cls (k + 1)) := by
      simp [Statement.code, branchCode, conditionCode]
    have nodup := nodup_statement (s := s) (.when e yes) k
    rw [shape] at nodup ⊢
    exact .branch (plain_expression s e) (expression_computes e valid.1)
      (statements_means yes (k + 2) valid.2) means_nil nodup
  | .choose e yes no, k, valid =>
    .branch (plain_expression s e) (expression_computes e valid.1)
      (statements_means yes (k + 2) valid.2.1)
      (statements_means no (k + 2 + yes.labels) valid.2.2) (nodup_statement (.choose e yes no) k)
  | .loop e body, k, valid =>
    .loop (plain_expression s e) (expression_computes e valid.1)
      (statements_means body (k + 2) valid.2) (nodup_statement (.loop e body) k)
  | .perform _, _, valid => means_perform valid
  | .leave _, _, valid => means_leave valid
termination_by structural st => st

/-- The code of statements means what they mean. -/
theorem statements_means : ∀ (ss : Statements) (k : Nat), ss.Valid s →
    Means calls s.cls (ss.code s k) (ss.Runs calls s)
  | .nil, _, _ => means_nil
  | .cons first rest, k, valid =>
    (statement_means first k valid.1).append
      (statements_means rest (k + first.labels) valid.2) (nodup_statements (.cons first rest) k)
termination_by structural ss => ss

end

/-! ## What the pass writes -/

/-- The labels of a part of a program stand nowhere else in it. -/
def LabelsOnlyIn (before code after : List Instruction) : Prop :=
  ∀ l, .label l ∈ code → .label l ∉ before ∧ .label l ∉ after

/-- The part `code` of a program, run from its first instruction, ends with the outcome `o`: the
run reaches the instruction after the part with nothing on the working stack, or a return in it
with one word there. -/
def Finishes (calls : Calls) (cls : String) (before code after : List Instruction) (m : Core)
    (o : Ending) : Prop :=
  ∃ n y, Run calls cls (before ++ code ++ after) before.length (before.length + code.length) n
      ⟨before.length, m⟩ y ∧
    Ends (before ++ code ++ after) before.length (before.length + code.length) y o

theorem placed_between {before code after : List Instruction}
    (only : LabelsOnlyIn before code after) :
    Placed (before ++ code ++ after) before.length code where
  fetch i hi := by
    rw [List.append_assoc, List.getElem?_append_right (Nat.le_add_right _ _),
      Nat.add_sub_cancel_left, List.getElem?_append_left hi]
  only := by
    intro l j hl hj
    constructor
    · refine Nat.le_of_not_lt fun early => (only l hl).1 ?_
      rw [List.append_assoc, List.getElem?_append_left early] at hj
      exact List.mem_of_getElem? hj
    · refine Nat.lt_of_not_le fun late => (only l hl).2 ?_
      rw [List.getElem?_append_right (by rw [List.length_append]; exact late)] at hj
      exact List.mem_of_getElem? hj

theorem Means.finishes_iff {cls : String} {before code after : List Instruction} {m : Core}
    {R : Store → Ending → Prop} (means : Means calls cls code R)
    (only : LabelsOnlyIn before code after) (stack : m.stack = []) (o : Ending) :
    R m.store o ↔ Finishes calls cls before code after m o := by
  constructor
  · exact means.complete (placed_between only) stack
  · rintro ⟨n, y, run, ends⟩
    obtain ⟨o', ho', ends'⟩ := means.sound (placed_between only) stack run ends.isOver
    rw [ends.unique ends']
    exact ho'

/-- In the code of a class, the labels of each part stand nowhere else. -/
theorem labelsOnlyIn_class {c : Syntax.Class} {before code after : List Instruction}
    (h : c.code = before ++ code ++ after) : LabelsOnlyIn before code after := by
  have nodup := nodup_class c
  rw [h, labelsOf_append, labelsOf_append] at nodup
  intro l hl
  obtain ⟨first, -, rest⟩ := List.nodup_append.1 nodup
  constructor
  · intro early
    exact (List.nodup_append.1 first).2.2 l (mem_labelsOf.2 early) l (mem_labelsOf.2 hl) rfl
  · intro late
    exact rest l (List.mem_append_right _ (mem_labelsOf.2 hl)) l (mem_labelsOf.2 late) rfl

/-- Statements keep their meaning. The tokens of statements that the pass accepts are those of one
tree. Whatever calls do, and in every program where the labels of the code that is written stand
nowhere else, as in the code of a class: from every state with an empty working stack, this code
ends exactly as the statements do. -/
theorem statements_keep_meaning {cls : String} {n : Nat} {p p' : Progress Listing}
    (accepted : Pass.statements cls n p = .ok () p') :
    ∃ (ss : Statements) (code : List Instruction),
      p.kinds = ss.tokens ++ p'.kinds ∧
      (∀ ss' : Statements, p.kinds = ss'.tokens ++ p'.kinds → ss' = ss) ∧
      p'.sink.code = p.sink.code ++ code ∧
      (∀ (c : Syntax.Class) (before after : List Instruction), c.code = before ++ code ++ after →
        LabelsOnlyIn before code after) ∧
      ∀ (calls : Calls) (before after : List Instruction), LabelsOnlyIn before code after →
        ∀ m : Core, m.stack = [] → ∀ o : Ending,
          ss.Runs calls (p.scope cls) m.store o ↔ Finishes calls cls before code after m o := by
  obtain ⟨ss, valid, step⟩ := Pass.statements_sound accepted
  refine ⟨ss, ss.code (p.scope cls) p.labels, step.tokens, ?_, ?_, ?_, ?_⟩
  · intro ss' tokens
    exact Statements.tokens_injective (List.append_cancel_right (tokens.symm.trans step.tokens))
  · rw [Listing.code, writes_listing.1 step.written, List.reverse_append, List.reverse_reverse,
      Listing.code]
  · exact fun c before after h => labelsOnlyIn_class h
  · intro calls before after only m stack o
    exact (statements_means ss p.labels valid).finishes_iff only stack o

/-- `while (x) { let x = x - 1; } return x;` -/
def countdown : Statements :=
  .cons (.loop (.mk (.var "x") .nil)
      (.cons (.assign "x" (.mk (.var "x") (.cons .sub (.int 1) .nil))) .nil))
    (.cons (.leave (some (.mk (.var "x") .nil))) .nil)

/-- The pass before these statements, where `x` is a local variable. -/
def beforeCountdown : Progress Listing where
  cursor := .ofTokens ((countdown.tokens ++ [TokenKind.symbol '}']).map (⟨·, ⟨0, 0, 1, 1⟩⟩))
  symbols := { inSubroutine := [("x", ⟨"int", .local, 0⟩)], locals := 1 }
  labels := 4
  sink := {}

/-- A store where the first local variable has a value. -/
def storeWith (w : Word) : Store where
  statics _ _ := 0
  heap _ := 0
  locals := Function.update (fun _ => 0) 0 w
  arguments _ := 0
  object := 0

/-- The loop runs once, because only the word of all ones counts as true. -/
theorem countdown_runs (calls : Calls) : countdown.Runs calls (beforeCountdown.scope "Main")
    (storeWith 0xFFFF) (.returned 0xFFFE (storeWith 0xFFFE)) := by
  let x : Variable := ⟨"int", .local, 0⟩
  have read (w : Word) : (Expression.mk (.var "x") .nil).Gives calls
      (beforeCountdown.scope "Main") (storeWith w) w (storeWith w) :=
    ⟨w, storeWith w, ⟨x, rfl, rfl, rfl⟩, rfl, rfl⟩
  have decrement : (Expression.mk (.var "x") (.cons .sub (.int 1) .nil)).Gives calls
      (beforeCountdown.scope "Main") (storeWith 0xFFFF) 0xFFFE (storeWith 0xFFFF) :=
    ⟨0xFFFF, _, ⟨x, rfl, rfl, rfl⟩, 1, _, 0xFFFE, _, ⟨rfl, rfl⟩, ⟨by decide, rfl⟩, rfl, rfl⟩
  have assigned : (storeWith 0xFFFF).set "Main" x 0xFFFE = storeWith 0xFFFE := by
    simp [Store.set, storeWith, x]
  have body : Statements.Runs calls (beforeCountdown.scope "Main")
      (.cons (.assign "x" (.mk (.var "x") (.cons .sub (.int 1) .nil))) .nil) (storeWith 0xFFFF)
      (.next (storeWith 0xFFFE)) :=
    .next ⟨x, 0xFFFE, storeWith 0xFFFF, rfl, decrement, by rw [← assigned]; rfl⟩ rfl
  refine .next (.again (read 0xFFFF) body (.done (read 0xFFFE) (by decide))) (.returned ?_)
  exact ⟨0xFFFE, storeWith 0xFFFE, read 0xFFFE, rfl⟩

theorem countdown_returns : ∃ p' code, Pass.statements "Main" 60 beforeCountdown = .ok () p' ∧
    p'.sink.code = code ∧ ∀ calls, Finishes calls "Main" [] code []
      ⟨[], storeWith 0xFFFF, 0, fun _ => 0⟩ (.returned 0xFFFE (storeWith 0xFFFE)) := by
  have valid : countdown.Valid (beforeCountdown.scope "Main") := by
    simp [countdown, Statements.Valid, Statement.Valid, Expression.Valid, Term.Valid, Chain.Valid,
      Scope.Declares, Progress.scope, beforeCountdown, SymbolTable.lookup]
  have kinds : beforeCountdown.kinds = countdown.tokens ++ [.symbol '}'] := rfl
  obtain ⟨p', accepted, -, rest⟩ :=
    Pass.statements_complete countdown (n := 60) valid kinds (roomy_listing _) (by decide)
  obtain ⟨ss, code, -, only, emitted, -, meaning⟩ := statements_keep_meaning accepted
  have same : countdown = ss := only countdown (by rw [kinds, rest])
  rw [← same] at meaning
  refine ⟨p', code, accepted, emitted, fun calls => ?_⟩
  exact (meaning calls [] [] (fun _ _ => ⟨List.not_mem_nil, List.not_mem_nil⟩) _ rfl _).1
    (countdown_runs calls)

end Jack.Machine
