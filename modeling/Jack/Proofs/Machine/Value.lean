import Jack.Proofs.Machine.Control
import Jack.Proofs.Syntax.Unambiguous
import Jack.Proofs.TwoPasses

/-!
# The value of an expression

If calls are functions, an expression has one value. Here it is computed, from the left to the
right and without precedence, together with the calls that are made on the way. The code that the
pass writes for an expression computes the same value, and makes the same calls.
-/

namespace Jack

namespace Machine

/-! ## Calls that are functions -/

/-- What a call leaves behind. -/
structure Returned where
  word : Word
  shared : Shared
  temp : Nat → Word

/-- What the subroutines of each name do, given their arguments and the shared memory. -/
abbrev Routines := String → List Word → Shared → Returned

/-- Calls that end as the routines say. -/
def Routines.calls (f : Routines) : Calls := fun name arguments before w after temp =>
  f name arguments before = ⟨w, after, temp⟩

/-- One call. -/
structure Invocation where
  name : String
  arguments : List Word

/-- The shared memory after one call. -/
def Routines.effect (f : Routines) (shared : Shared) (c : Invocation) : Shared :=
  (f c.name c.arguments shared).shared

section Unique

variable {f : Routines} {cls : String} {m m₁ m₂ : Core}

theorem Performs.unique {i : Instruction} (h₁ : Performs f.calls cls i m m₁)
    (h₂ : Performs f.calls cls i m m₂) : m₁ = m₂ := by
  cases i with
  | push segment i =>
    obtain ⟨w, read, rfl⟩ := h₁
    obtain ⟨w', read', rfl⟩ := h₂
    rw [read] at read'
    cases read'
    rfl
  | pop segment i =>
    obtain ⟨w, rest, stack, assign⟩ := h₁
    obtain ⟨w', rest', stack', assign'⟩ := h₂
    rw [stack] at stack'
    cases stack'
    exact Option.some.inj (assign.symm.trans assign')
  | arithmetic command =>
    obtain ⟨stack, result, rfl⟩ := h₁
    obtain ⟨stack', result', rfl⟩ := h₂
    rw [result] at result'
    cases result'
    rfl
  | call name n =>
    obtain ⟨ws, rest, w, shared, temp, stack, length, called, rfl⟩ := h₁
    obtain ⟨ws', rest', w', shared', temp', stack', length', called', rfl⟩ := h₂
    rw [stack] at stack'
    obtain ⟨same, rfl⟩ := List.append_inj stack' (by simp [length, length'])
    rw [← List.reverse_inj.1 same] at called'
    cases called.symm.trans called'
    rfl
  | _ => exact h₁.elim

theorem Exec.unique {code : List Instruction} (h₁ : Exec f.calls cls code m m₁)
    (h₂ : Exec f.calls cls code m m₂) : m₁ = m₂ := by
  induction code generalizing m with
  | nil => exact h₁.symm.trans h₂
  | cons i code ih =>
    obtain ⟨m', first, rest⟩ := h₁
    obtain ⟨m'', first', rest'⟩ := h₂
    rw [first.unique first'] at rest
    exact ih rest rest'

end Unique

end Machine

/-! ## Values -/

namespace Syntax

open Machine

/-- Where an evaluation has come to: the store, and the calls made so far. -/
structure Account where
  store : Store
  made : List Invocation

/-- Something that is evaluated, and that may call subroutines. -/
abbrev Evaluation := StateM Account

/-- A call. The caller keeps its own variables and its object. -/
def invoke (f : Routines) (name : String) (arguments : List Word) : Evaluation Word :=
  fun a =>
    let back := f name arguments a.store.toShared
    (back.word, ⟨{ a.store with toShared := back.shared }, a.made ++ [⟨name, arguments⟩]⟩)

/-- A word that depends on the store. -/
def look (word : Store → Word) : Evaluation Word :=
  fun a => (word a.store, a)

/-- The value that a name has in a store. -/
def Scope.value (s : Scope) (name : String) (store : Store) : Word :=
  (s.resolve? name).elim 0 (store.value s.cls)

/-- What an operator does with two words. -/
def Operator.value (f : Routines) (x y : Word) : Operator → Evaluation Word
  | add => return x + y
  | sub => return x - y
  | and => return x &&& y
  | or => return x ||| y
  | lt => return flag (x.slt y)
  | gt => return flag (y.slt x)
  | eq => return flag (x == y)
  | mul => invoke f "Math.multiply" [x, y]
  | div => invoke f "Math.divide" [x, y]

/-- The string `x` with a character more. -/
def appendChar (f : Routines) (x : Word) (c : Char) : Evaluation Word :=
  invoke f "String.appendChar" [x, BitVec.ofNat 16 c.toNat]

mutual

/-- The value of a term. -/
def Term.value (f : Routines) (s : Scope) : Term → Evaluation Word
  | .int n => return BitVec.ofNat 16 n
  | .string text => do
    let x ← invoke f "String.new" [BitVec.ofNat 16 text.length]
    text.toList.foldlM (appendChar f) x
  | .constant c => look fun store => c.value store
  | .var name => look (s.value name)
  | .element name index => do
    let a ← look (s.value name)
    let i ← index.value f s
    look fun store => store.heap (a + i)
  | .call c => c.value f s
  | .group e => e.value f s
  | .signed sign t => do
    let x ← t.value f s
    return sign.apply x

/-- The value of an expression. -/
def Expression.value (f : Routines) (s : Scope) : Expression → Evaluation Word
  | .mk first rest => do
    let x ← first.value f s
    rest.value f s x

/-- The value of an expression that has come to the value `x` and goes on like this. -/
def Chain.value (f : Routines) (s : Scope) : Chain → Word → Evaluation Word
  | .nil, x => return x
  | .cons op t rest, x => do
    let y ← t.value f s
    let z ← op.value f x y
    rest.value f s z

/-- What a call returns. An object that is passed is read before the arguments. -/
def Call.value (f : Routines) (s : Scope) : Call → Evaluation Word
  | .own name arguments => do
    let object ← look Store.object
    let ws ← arguments.values f s
    invoke f (s.cls ++ "." ++ name) (object :: ws)
  | .qualified qualifier name arguments =>
    match s.resolve? qualifier with
    | some v => do
      let object ← look fun store => store.value s.cls v
      let ws ← arguments.values f s
      invoke f (v.type ++ "." ++ name) (object :: ws)
    | none => do
      let ws ← arguments.values f s
      invoke f (qualifier ++ "." ++ name) ws

/-- The values of arguments. -/
def Arguments.values (f : Routines) (s : Scope) : Arguments → Evaluation (List Word)
  | .nil => return []
  | .cons e rest => do
    let w ← e.value f s
    let ws ← rest.values f s
    return w :: ws

end

/-- An evaluation and a meaning agree, and only the calls that the evaluation makes change the
store, one after the other. -/
structure Follows (f : Routines) {α : Type} (x : Evaluation α) (R : Store → α → Store → Prop) :
    Prop where
  gives : ∀ (a : Account) (w : α) (after : Store),
    R a.store w after ↔ w = (x a).1 ∧ after = (x a).2.store
  effect : ∀ a : Account, ∃ more : List Invocation,
    (x a).2 = ⟨{ a.store with toShared := more.foldl f.effect a.store.toShared }, a.made ++ more⟩

section Follows

variable {f : Routines} {α β : Type}

theorem Follows.congr {x : Evaluation α} {R R' : Store → α → Store → Prop} (h : Follows f x R)
    (same : ∀ s w s', R s w s' ↔ R' s w s') : Follows f x R' where
  gives a w after := (same _ _ _).symm.trans (h.gives a w after)
  effect := h.effect

theorem follows_look (word : Store → Word) :
    Follows f (look word) fun s w s' => w = word s ∧ s' = s where
  gives _ _ _ := Iff.rfl
  effect a := ⟨[], by rw [List.append_nil]; rfl⟩

theorem follows_pure (w : α) : Follows f (pure w) fun s v s' => v = w ∧ s' = s where
  gives _ _ _ := Iff.rfl
  effect a := ⟨[], by rw [List.append_nil]; rfl⟩

theorem follows_invoke (name : String) (arguments : List Word) :
    Follows f (invoke f name arguments) (Returns f.calls name arguments) where
  gives a w after := by
    constructor
    · rintro ⟨shared, temp, called, rfl⟩
      have back : (f name arguments a.store.toShared).word = w ∧
          (f name arguments a.store.toShared).shared = shared := by rw [called]; exact ⟨rfl, rfl⟩
      obtain ⟨rfl, rfl⟩ := back
      exact ⟨rfl, rfl⟩
    · rintro ⟨rfl, rfl⟩
      exact ⟨_, _, rfl, rfl⟩
  effect a := ⟨[⟨name, arguments⟩], rfl⟩

/-- One evaluation after the other. -/
theorem Follows.bind {x : Evaluation α} {R : Store → α → Store → Prop} {g : α → Evaluation β}
    {R' : α → Store → β → Store → Prop} (first : Follows f x R)
    (rest : ∀ v, Follows f (g v) (R' v)) :
    Follows f (x >>= g) fun s w s' => ∃ v s₁, R s v s₁ ∧ R' v s₁ w s' where
  gives a w after := by
    have next := (rest (x a).1).gives (x a).2 w after
    constructor
    · rintro ⟨v, s₁, hv, hw⟩
      obtain ⟨rfl, rfl⟩ := (first.gives a v s₁).1 hv
      exact next.1 hw
    · intro h
      exact ⟨_, _, (first.gives a _ _).2 ⟨rfl, rfl⟩, next.2 h⟩
  effect a := by
    obtain ⟨more, hx⟩ := first.effect a
    obtain ⟨more', hg⟩ := (rest (x a).1).effect (x a).2
    refine ⟨more ++ more', ?_⟩
    have whole : ((x >>= g) a).2 = ((g (x a).1) (x a).2).2 := rfl
    rw [whole, hg, hx, List.foldl_append, List.append_assoc]

theorem follows_operator (op : Operator) (x y : Word) :
    Follows f (op.value f x y) fun s w s' => op.Gives f.calls x y s w s' := by
  cases op with
  | mul | div => exact follows_invoke _ _
  | _ => exact follows_pure _

theorem follows_appends (cs : List Char) (x : Word) :
    Follows f (cs.foldlM (appendChar f) x) (Appends f.calls cs x) := by
  induction cs generalizing x with
  | nil => exact follows_pure x
  | cons c cs ih => exact (follows_invoke _ _).bind ih

variable {s : Scope}

theorem follows_name {name : String} {v : Variable} (hv : s.resolve? name = some v) :
    Follows f (look (s.value name)) fun st w st' => w = st.value s.cls v ∧ st' = st := by
  have value : s.value name = fun st => st.value s.cls v := by
    funext st
    rw [Scope.value, hv]
    rfl
  rw [value]
  exact follows_look _

mutual

theorem term_follows : ∀ t : Term, t.Valid s → Follows f (t.value f s) (t.Gives f.calls s)
  | .int n, _ => follows_pure _
  | .string text, _ => (follows_invoke _ _).bind (follows_appends text.toList)
  | .constant c, _ => follows_look _
  | .var name, valid => by
    obtain ⟨v, hv⟩ := Option.isSome_iff_exists.1 valid
    refine (follows_name hv).congr fun st w st' => ?_
    simp [Term.Gives, hv]
  | .element name index, valid => by
    obtain ⟨v, hv⟩ := Option.isSome_iff_exists.1 valid.1
    have whole := (follows_name (f := f) hv).bind fun a =>
      (expression_follows index valid.2).bind fun i => follows_look fun st => st.heap (a + i)
    refine whole.congr fun st w st' => ?_
    simp only [Term.Gives]
    grind
  | .call c, valid => call_follows c valid
  | .group e, valid => expression_follows e valid
  | .signed sign t, valid => by
    have whole := (term_follows t valid).bind fun x => follows_pure (sign.apply x)
    refine whole.congr fun st w st' => ?_
    simp only [Term.Gives]
    grind
termination_by structural t => t

/-- The value of an expression is what it means. -/
theorem expression_follows : ∀ e : Expression, e.Valid s →
    Follows f (e.value f s) (e.Gives f.calls s)
  | .mk first rest, valid => (term_follows first valid.1).bind (chain_follows rest valid.2)
termination_by structural e => e

theorem chain_follows : ∀ c : Chain, c.Valid s → ∀ x : Word,
    Follows f (c.value f s x) (c.Gives f.calls s x)
  | .nil, _, x => follows_pure x
  | .cons op t rest, valid, x => by
    have whole := (term_follows t valid.1).bind fun y =>
      (follows_operator op x y).bind (chain_follows rest valid.2)
    refine whole.congr fun st w st' => ?_
    simp only [Chain.Gives]
    grind
termination_by structural c => c

theorem call_follows : ∀ c : Call, c.Valid s → Follows f (c.value f s) (c.Gives f.calls s)
  | .own name as, valid => by
    have whole := (follows_look (f := f) Store.object).bind fun object =>
      (arguments_follow as valid.2).bind fun ws =>
        follows_invoke (s.cls ++ "." ++ name) (object :: ws)
    refine whole.congr fun st w st' => ?_
    simp only [Call.Gives]
    grind
  | .qualified qualifier name as, valid => by
    rw [Call.value]
    cases hv : s.resolve? qualifier with
    | some v =>
      have whole := (follows_look (f := f) fun st => st.value s.cls v).bind fun object =>
        (arguments_follow as valid.2).bind fun ws =>
          follows_invoke (v.type ++ "." ++ name) (object :: ws)
      refine whole.congr fun st w st' => ?_
      simp only [Call.Gives, hv]
      grind
    | none =>
      have whole := (arguments_follow as valid.2).bind fun ws =>
        follows_invoke (qualifier ++ "." ++ name) ws
      refine whole.congr fun st w st' => ?_
      simp only [Call.Gives, hv]
termination_by structural c => c

theorem arguments_follow : ∀ as : Arguments, as.Valid s →
    Follows f (as.values f s) (as.Give f.calls s)
  | .nil, _ => follows_pure []
  | .cons e rest, valid => by
    have whole := (expression_follows e valid.1).bind fun w =>
      (arguments_follow rest valid.2).bind fun ws => follows_pure (w :: ws)
    refine whole.congr fun st ws st' => ?_
    simp only [Arguments.Give]
    grind
termination_by structural as => as

end

end Follows

end Syntax

namespace Machine

open Syntax

/-! ## What the pass writes -/

/-- The part `code` of a program, run from its first instruction, comes to the instruction after
the part. -/
def Reaches (calls : Calls) (cls : String) (before code after : List Instruction)
    (m m' : Core) : Prop :=
  ∃ n, Run calls cls (before ++ code ++ after) before.length (before.length + code.length) n
    ⟨before.length, m⟩ ⟨before.length + code.length, m'⟩

/-- Plain code is executed from its first to its last instruction. -/
theorem reaches_iff {calls : Calls} {cls : String} {before code after : List Instruction}
    {m m' : Core} (plain : PlainCode code) :
    Reaches calls cls before code after m m' ↔ Exec calls cls code m m' := by
  have fetch : CodeAt (before ++ code ++ after) before.length code := by
    intro i hi
    rw [List.append_assoc, List.getElem?_append_right (Nat.le_add_right _ _),
      Nat.add_sub_cancel_left, List.getElem?_append_left hi]
  constructor
  · rintro ⟨n, run⟩
    obtain ⟨m₁, k, -, exec, rest⟩ := run.exec plain fetch (.inl rfl) (Nat.le_refl _)
    cases rest.at_end
    exact exec
  · exact fun exec => exec.run plain fetch (Nat.le_refl _) (Nat.le_refl _)

/-- The code of an expression ends in one state only. -/
theorem exec_expression {s : Scope} {e : Expression} (valid : e.Valid s) (f : Routines)
    (m : Core) : ∃ m', (∀ y, Exec f.calls s.cls (e.code s) m y ↔ y = m') ∧
      m'.stack = (e.value f s ⟨m.store, []⟩).1 :: m.stack ∧
      m'.store = (e.value f s ⟨m.store, []⟩).2.store := by
  have computes : Turns f.calls s.cls (e.code s) [] _ := expression_computes e valid []
  have value := (expression_follows (f := f) e valid).gives ⟨m.store, []⟩
  have start : m.stack = [] ++ m.stack := rfl
  obtain ⟨m', exec, stack, store⟩ := computes.complete start ⟨_, rfl, (value _ _).2 ⟨rfl, rfl⟩⟩
  refine ⟨m', fun y => ⟨fun other => other.unique exec, ?_⟩, stack, store⟩
  rintro rfl
  exact exec

/-- Expressions have their value. The tokens of an expression that the pass accepts are those of one
tree. Whatever the routines do that are called, and in every program: from every state, the code
that is written can end in one state only. There the value of the tree lies on the words that were
on the stack before, and nothing in the store has changed but what the calls changed, which the
evaluation makes, one after the other. -/
theorem expression_has_value {cls : String} {n : Nat} {p p' : Progress Listing}
    (accepted : Pass.expression cls n p = .ok () p') :
    ∃ (e : Expression) (code : List Instruction),
      p.kinds = e.tokens ++ p'.kinds ∧
      (∀ e' : Expression, p.kinds = e'.tokens ++ p'.kinds → e' = e) ∧
      p'.sink.code = p.sink.code ++ code ∧
      ∀ (f : Routines) (before after : List Instruction) (m : Core),
        ∃ (m' : Core) (w : Word) (made : List Invocation),
          e.value f (p.scope cls) ⟨m.store, []⟩ = (w, ⟨m'.store, made⟩) ∧
          (∀ y, Reaches f.calls cls before code after m y ↔ y = m') ∧
          m'.stack = w :: m.stack ∧
          m'.store = { m.store with toShared := made.foldl f.effect m.store.toShared } := by
  obtain ⟨e, valid, step⟩ := Pass.expression_sound accepted
  refine ⟨e, e.code (p.scope cls), step.tokens, ?_, ?_, ?_⟩
  · intro e' tokens
    exact Expression.tokens_injective (List.append_cancel_right (tokens.symm.trans step.tokens))
  · rw [Listing.code, writes_listing.1 step.written, List.reverse_append, List.reverse_reverse,
      Listing.code]
  · intro f before after m
    obtain ⟨m', only, stack, store⟩ := exec_expression valid f m
    obtain ⟨made, effect⟩ := (expression_follows e valid).effect (f := f) ⟨m.store, []⟩
    refine ⟨m', _, made, Prod.ext rfl ?_, ?_, stack, ?_⟩
    · rw [store, effect, List.nil_append]
    · intro y
      rw [reaches_iff (plain_expression _ e), ← only y]
      rfl
    · rw [store, effect]

/-- `y + next() * y` -/
def growing : Expression :=
  .mk (.var "y") (.cons .add (.call (.own "next" .nil)) (.cons .mul (.var "y") .nil))

/-- The pass before this expression, where `y` is a static variable. -/
def beforeGrowing : Progress Listing where
  cursor := .ofTokens ((growing.tokens ++ [TokenKind.symbol ';']).map (⟨·, ⟨0, 0, 1, 1⟩⟩))
  symbols := { inClass := [("y", ⟨"int", .static, 0⟩)], statics := 1 }
  labels := 0
  sink := {}

/-- A method that returns the first static variable of the class and makes it greater by one. All
other routines multiply. -/
def growth : Routines := fun name arguments shared =>
  if name = "Main.next" then
    let y := shared.statics "Main" 0
    ⟨y, { shared with statics := fun _ _ => y + 1 }, fun _ => 0⟩
  else ⟨arguments.foldl (· * ·) 1, shared, fun _ => 0⟩

/-- A state where all static variables are 7, with one word on the stack. -/
def beforeGrowth : Core where
  stack := [5]
  store := ⟨⟨fun _ _ => 7, fun _ => 0⟩, fun _ => 0, fun _ => 0, 0⟩
  array := 0
  temp _ := 0

/-- The sum comes before the product, and the variable is read again after the call. -/
theorem growing_value : ∃ p' code m', Pass.expression "Main" 60 beforeGrowing = .ok () p' ∧
    p'.sink.code = code ∧ (∀ y, Reaches growth.calls "Main" [] code [] beforeGrowth y ↔ y = m') ∧
    m'.stack = [(7 + 7) * 8, 5] ∧ m'.store.statics "Main" 0 = 8 := by
  have valid : growing.Valid (beforeGrowing.scope "Main") :=
    ⟨rfl, ⟨by decide, trivial⟩, rfl, trivial⟩
  have kinds : beforeGrowing.kinds = growing.tokens ++ [.symbol ';'] := rfl
  obtain ⟨p', accepted, -, rest⟩ := Pass.expression_complete growing (n := 60) valid kinds
    (endsExpression_symbol (by decide) []) (roomy_listing _) (by decide)
  obtain ⟨e, code, -, only, emitted, value⟩ := expression_has_value accepted
  have same : growing = e := only growing (by rw [kinds, rest])
  obtain ⟨m', w, made, evaluated, reaches, stack, -⟩ := value growth [] [] beforeGrowth
  rw [← same] at evaluated
  have known : growing.value growth (beforeGrowing.scope "Main") ⟨beforeGrowth.store, []⟩ =
      ((7 + 7) * 8, ⟨⟨⟨fun _ _ => 8, fun _ => 0⟩, fun _ => 0, fun _ => 0, 0⟩,
        [⟨"Main.next", [0]⟩, ⟨"Math.multiply", [14, 8]⟩]⟩) := by
    rfl
  rw [known, Prod.mk.injEq, Account.mk.injEq] at evaluated
  obtain ⟨rfl, store, -⟩ := evaluated
  exact ⟨p', code, m', accepted, emitted, reaches, stack, by rw [← store]⟩

end Machine

end Jack
