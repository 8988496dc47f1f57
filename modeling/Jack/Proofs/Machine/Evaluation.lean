import Jack.Proofs.Syntax.Meaning

/-!
# Code of expressions on the machine

The code of an expression pushes its value and leaves the words below it alone. `Turns code xs R`
says what code without jumps does with some words on top of the stack, in both directions: each
execution is described by `R`, and each case of `R` is an execution. Pointer 1 and the scratch
words may change.
-/

namespace Jack.Machine

open Syntax

variable {calls : Calls} {cls : String} {code code' : List Instruction}

/-! ## Code without jumps -/

/-- The code takes the words `xs` from the top of the stack and puts others there, as `R` says. -/
structure Turns (calls : Calls) (cls : String) (code : List Instruction) (xs : List Word)
    (R : Store → List Word → Store → Prop) : Prop where
  sound : ∀ {m m' : Core} {rest : List Word}, m.stack = xs ++ rest → Exec calls cls code m m' →
    ∃ ys, m'.stack = ys ++ rest ∧ R m.store ys m'.store
  complete : ∀ {m : Core} {rest ys : List Word} {after : Store}, m.stack = xs ++ rest →
    R m.store ys after → ∃ m', Exec calls cls code m m' ∧ m'.stack = ys ++ rest ∧ m'.store = after

theorem Turns.congr {xs : List Word} {R R' : Store → List Word → Store → Prop}
    (h : Turns calls cls code xs R) (same : ∀ s ys s', R s ys s' ↔ R' s ys s') :
    Turns calls cls code xs R' := by
  have : R = R' := by
    funext s ys s'
    exact propext (same s ys s')
  exact this ▸ h

theorem turns_nil (xs : List Word) :
    Turns calls cls [] xs fun s ys s' => ys = xs ∧ s' = s where
  sound := by
    rintro m m' rest stack rfl
    exact ⟨xs, stack, rfl, rfl⟩
  complete := by
    rintro m rest ys after stack ⟨rfl, rfl⟩
    exact ⟨m, rfl, stack, rfl⟩

/-- The code pushes one word, which `R` describes. -/
def Computes (calls : Calls) (cls : String) (code : List Instruction)
    (R : Store → Word → Store → Prop) : Prop :=
  ∀ xs, Turns calls cls code xs fun s ys s' => ∃ w, ys = w :: xs ∧ R s w s'

/-- Code that puts the words of some `a` on the stack, and then code that finds them there. -/
theorem Turns.andThen {α : Type} {words : α → List Word} {xs : List Word}
    {R : Store → α → Store → Prop} {R' : α → Store → List Word → Store → Prop}
    (first : Turns calls cls code xs fun s ys s' => ∃ a, ys = words a ∧ R s a s')
    (rest : ∀ {s a s'}, R s a s' → Turns calls cls code' (words a) (R' a)) :
    Turns calls cls (code ++ code') xs fun s ys s' => ∃ a s₁, R s a s₁ ∧ R' a s₁ ys s' where
  sound := by
    intro m m' below stack exec
    obtain ⟨m₁, exec₁, exec₂⟩ := (exec_append calls cls).1 exec
    obtain ⟨_, stack₁, a, rfl, ha⟩ := first.sound stack exec₁
    obtain ⟨ys, stack₂, hys⟩ := (rest ha).sound stack₁ exec₂
    exact ⟨ys, stack₂, a, m₁.store, ha, hys⟩
  complete := by
    rintro m below ys after stack ⟨a, s₁, ha, hys⟩
    obtain ⟨m₁, exec₁, stack₁, rfl⟩ := first.complete stack ⟨a, rfl, ha⟩
    obtain ⟨m', exec₂, stack₂, store⟩ := (rest ha).complete stack₁ hys
    exact ⟨m', (exec_append calls cls).2 ⟨m₁, exec₁, exec₂⟩, stack₂, store⟩

/-! ## Instructions -/

theorem exec_push {m m' : Core} {segment : Segment} {i : Nat} {w : Word}
    (read : m.read cls segment i = some w) :
    Exec calls cls (.push segment i :: code) m m' ↔
      Exec calls cls code { m with stack := w :: m.stack } m' := by
  constructor
  · rintro ⟨m₁, ⟨w', hw', rfl⟩, exec⟩
    rw [read] at hw'
    cases hw'
    exact exec
  · exact fun exec => ⟨_, ⟨w, read, rfl⟩, exec⟩

theorem exec_pop {m m₁ m' : Core} {segment : Segment} {i : Nat} {w : Word} {rest : List Word}
    (stack : m.stack = w :: rest)
    (assign : Core.assign cls { m with stack := rest } w segment i = some m₁) :
    Exec calls cls (.pop segment i :: code) m m' ↔ Exec calls cls code m₁ m' := by
  constructor
  · rintro ⟨m₂, ⟨w', rest', stack', hm₂⟩, exec⟩
    rw [stack] at stack'
    cases stack'
    rw [assign] at hm₂
    cases hm₂
    exact exec
  · exact fun exec => ⟨_, ⟨w, rest, stack, assign⟩, exec⟩

theorem exec_nil {m m' : Core} : Exec calls cls [] m m' ↔ m' = m :=
  eq_comm

/-- Code that can end in one way only. -/
theorem turns_of_exec {xs : List Word} {ys : Store → List Word} {place : Store → Store}
    (h : ∀ (m : Core) (rest : List Word), m.stack = xs ++ rest →
      ∃ m', (∀ m₁, Exec calls cls code m m₁ ↔ m₁ = m') ∧ m'.stack = ys m.store ++ rest ∧
        m'.store = place m.store) :
    Turns calls cls code xs fun s zs s' => zs = ys s ∧ s' = place s where
  sound := by
    intro m m₁ rest stack exec
    obtain ⟨m', only, stack', store⟩ := h m rest stack
    rw [(only m₁).1 exec]
    exact ⟨_, stack', rfl, store⟩
  complete := by
    rintro m rest _ _ stack ⟨rfl, rfl⟩
    obtain ⟨m', only, stack', store⟩ := h m rest stack
    exact ⟨m', (only m').2 rfl, stack', store⟩

/-- Reading a place that the store determines. -/
theorem computes_push {segment : Segment} {i : Nat} {value : Store → Word}
    (read : ∀ m : Core, m.read cls segment i = some (value m.store)) :
    Computes calls cls [.push segment i] fun s w s' => w = value s ∧ s' = s := by
  intro xs
  have h : Turns calls cls [.push segment i] xs fun s ys s' => ys = value s :: xs ∧ s' = s := by
    refine turns_of_exec fun m rest stack => ⟨{ m with stack := value m.store :: m.stack }, ?_⟩
    refine ⟨fun m₁ => (exec_push (read m)).trans exec_nil, ?_, rfl⟩
    rw [stack]
    rfl
  exact h.congr fun s ys s' => by grind

theorem computes_variable (v : Variable) :
    Computes calls cls [load v] fun s w s' => w = s.value cls v ∧ s' = s := by
  obtain ⟨type, kind, i⟩ := v
  cases kind <;> exact computes_push fun _ => rfl

/-- Taking a word off the stack, to a place of the store. -/
theorem turns_pop {segment : Segment} {i : Nat} {w : Word} {xs : List Word}
    (place : Store → Store)
    (assign : ∀ m : Core, ∃ m', m.assign cls w segment i = some m' ∧ m'.stack = m.stack ∧
      m'.store = place m.store) :
    Turns calls cls [.pop segment i] (w :: xs) fun s ys s' => ys = xs ∧ s' = place s := by
  refine turns_of_exec fun m rest stack => ?_
  obtain ⟨m', hm', stack', store⟩ := assign { m with stack := xs ++ rest }
  exact ⟨m', fun m₁ => (exec_pop stack hm').trans exec_nil, stack', store⟩

theorem turns_assign (v : Variable) (w : Word) (xs : List Word) :
    Turns calls cls [save v] (w :: xs) fun s ys s' => ys = xs ∧ s' = s.set cls v w := by
  obtain ⟨type, kind, i⟩ := v
  cases kind <;> exact turns_pop _ fun _ => ⟨_, rfl, rfl, rfl⟩

theorem turns_discard (w : Word) (xs : List Word) :
    Turns calls cls [.pop .temp 0] (w :: xs) fun s ys s' => ys = xs ∧ s' = s :=
  turns_pop id fun _ => ⟨_, rfl, rfl, rfl⟩

theorem turns_arithmetic {command : Command} {xs ys : List Word}
    (result : ∀ rest, arithmetic command (xs ++ rest) = some (ys ++ rest)) :
    Turns calls cls [.arithmetic command] xs fun s zs s' => zs = ys ∧ s' = s := by
  refine turns_of_exec fun m rest stack => ⟨{ m with stack := ys ++ rest }, fun m₁ => ?_, rfl, rfl⟩
  constructor
  · rintro ⟨m₂, ⟨stack', hstack, rfl⟩, rfl⟩
    rw [stack, result] at hstack
    cases hstack
    rfl
  · rintro rfl
    exact ⟨_, ⟨_, by rw [stack, result], rfl⟩, rfl⟩

/-- Reading an element of an array. Pointer 1 is set just before. -/
theorem turns_load (a : Word) (xs : List Word) :
    Turns calls cls [.pop .pointer 1, .push .that 0] (a :: xs) fun s ys s' =>
      ys = s.heap a :: xs ∧ s' = s := by
  refine turns_of_exec fun m rest stack =>
    ⟨⟨m.store.heap a :: (xs ++ rest), m.store, a, m.temp⟩, fun m₁ => ?_, rfl, rfl⟩
  have read : Core.read cls ⟨xs ++ rest, m.store, a, m.temp⟩ .that 0 = some (m.store.heap a) := by
    simp [Core.read]
  exact ((exec_pop stack rfl).trans (exec_push read)).trans exec_nil

/-- Assigning to an element of an array. The word waits in a scratch place while pointer 1 is
set, so it does not matter what its own computation did to pointer 1. -/
theorem turns_store (w a : Word) (xs : List Word) :
    Turns calls cls [.pop .temp 0, .pop .pointer 1, .push .temp 0, .pop .that 0] (w :: a :: xs)
      fun s ys s' => ys = xs ∧ s' = s.poke a w := by
  refine turns_of_exec fun m rest stack =>
    ⟨⟨xs ++ rest, m.store.poke a w, a, Function.update m.temp 0 w⟩, fun m₁ => ?_, rfl, rfl⟩
  let temp := Function.update m.temp 0 w
  have read : Core.read cls ⟨xs ++ rest, m.store, a, temp⟩ .temp 0 = some w := by
    simp [Core.read, temp]
  have assign : Core.assign cls ⟨xs ++ rest, m.store, a, temp⟩ w .that 0 =
      some ⟨xs ++ rest, m.store.poke a w, a, temp⟩ := by
    simp [Core.assign]
  exact (((exec_pop stack rfl).trans (exec_pop rfl rfl)).trans (exec_push read)).trans
    ((exec_pop rfl assign).trans exec_nil)

/-- A call takes its arguments, the last of which is on top. -/
theorem turns_call (f : String) {n : Nat} (ws xs : List Word) (length : ws.length = n) :
    Turns calls cls [.call f n] (ws.reverse ++ xs) fun s ys s' =>
      ∃ w, ys = w :: xs ∧ Returns calls f ws s w s' where
  sound := by
    rintro m m' rest stack ⟨m₁, ⟨ws', rest', w, shared, temp, stack', length', hcall, rfl⟩, rfl⟩
    rw [stack, List.append_assoc] at stack'
    obtain ⟨same, rfl⟩ := List.append_inj stack' (by simp [length, length'])
    rw [← List.reverse_inj.1 same] at hcall
    exact ⟨w :: xs, rfl, w, rfl, shared, temp, hcall, rfl⟩
  complete := by
    rintro m rest _ _ stack ⟨w, rfl, shared, temp, hcall, rfl⟩
    rw [List.append_assoc] at stack
    exact ⟨_, ⟨_, ⟨ws, _, w, shared, temp, stack, length, hcall, rfl⟩, rfl⟩, rfl, rfl⟩

/-! ## Expressions -/

variable {s : Scope}

theorem computes_read {name : String} {v : Variable} (hv : s.resolve? name = some v) :
    Computes calls s.cls (s.read name) fun st w st' => w = st.value s.cls v ∧ st' = st := by
  rw [Scope.read, hv]
  exact computes_variable v

theorem turns_appends (cs : List Char) (x : Word) (xs : List Word) :
    Turns calls cls
      (cs.flatMap fun c => [.push .constant c.toNat, .call "String.appendChar" 2]) (x :: xs)
      fun st ys st' => ∃ w, ys = w :: xs ∧ Appends calls cs x st w st' := by
  induction cs generalizing x with
  | nil => exact (turns_nil _).congr fun st ys st' => by grind [Appends]
  | cons c cs ih =>
    have char : Computes calls cls [.push .constant c.toNat] fun st w st' =>
        w = BitVec.ofNat 16 c.toNat ∧ st' = st := computes_push fun _ => rfl
    have append (w : Word) : Turns calls cls [.call "String.appendChar" 2] (w :: x :: xs)
        fun st ys st' => ∃ y, ys = y :: xs ∧
          Returns calls "String.appendChar" [x, w] st y st' :=
      turns_call "String.appendChar" [x, w] xs rfl
    have whole := (char (x :: xs)).andThen fun {_ w _} _ => (append w).andThen fun _ => ih _
    refine whole.congr fun st ys st' => ?_
    grind [Appends]

theorem computes_string (text : String) :
    Computes calls s.cls ((Term.string text).code s) ((Term.string text).Gives calls s) := by
  intro xs
  have length : Computes calls s.cls [.push .constant text.length] fun st w st' =>
      w = BitVec.ofNat 16 text.length ∧ st' = st := computes_push fun _ => rfl
  have new (w : Word) : Turns calls s.cls [.call "String.new" 1] (w :: xs) fun st ys st' =>
      ∃ x, ys = x :: xs ∧ Returns calls "String.new" [w] st x st' :=
    turns_call "String.new" [w] xs rfl
  have whole := (length xs).andThen fun {_ w _} _ => (new w).andThen
    fun {_ x _} _ => turns_appends text.toList x xs
  refine whole.congr fun st ys st' => ?_
  simp only [Term.Gives]
  grind

theorem computes_constant (c : Constant) :
    Computes calls cls c.code fun st w st' => w = c.value st ∧ st' = st := by
  cases c with
  | true =>
    intro xs
    have zero : Computes calls cls [.push .constant 0] fun st w st' => w = 0 ∧ st' = st :=
      computes_push fun _ => rfl
    have not (w : Word) : Turns calls cls [.arithmetic .not] (w :: xs) fun st ys st' =>
        ys = ~~~w :: xs ∧ st' = st := turns_arithmetic fun _ => rfl
    refine ((zero xs).andThen fun _ => not _).congr fun st ys st' => ?_
    have ones : ~~~(0 : Word) = 0xFFFF := by decide
    grind [Constant.value]
  | false => exact computes_push fun _ => rfl
  | null => exact computes_push fun _ => rfl
  | this => exact computes_push fun _ => rfl

theorem turns_sign (sign : Sign) (x : Word) (xs : List Word) :
    Turns calls cls [sign.code] (x :: xs) fun st ys st' => ys = sign.apply x :: xs ∧ st' = st := by
  cases sign <;> exact turns_arithmetic fun _ => rfl

/-- An operator finds its second operand on top. -/
theorem turns_operator (op : Operator) (x y : Word) (xs : List Word) :
    Turns calls cls [op.code] (y :: x :: xs) fun st ys st' =>
      ∃ w, ys = w :: xs ∧ op.Gives calls x y st w st' := by
  have primitive {command : Command} {w : Word}
      (result : ∀ rest, arithmetic command (y :: x :: rest) = some (w :: rest)) :
      Turns calls cls [.arithmetic command] (y :: x :: xs) fun st ys st' =>
        ∃ z, ys = z :: xs ∧ z = w ∧ st' = st := by
    have h : Turns calls cls [.arithmetic command] (y :: x :: xs) fun st ys st' =>
        ys = w :: xs ∧ st' = st := turns_arithmetic fun rest => result (xs ++ rest)
    exact h.congr fun st ys st' => by grind
  cases op with
  | mul => exact turns_call "Math.multiply" [x, y] xs rfl
  | div => exact turns_call "Math.divide" [x, y] xs rfl
  | _ => exact primitive fun _ => rfl

theorem length_of_give {as : Arguments} {before after : Store} {ws : List Word}
    (h : as.Give calls s before ws after) : ws.length = as.length := by
  induction ws generalizing as before with
  | nil =>
    cases as with
    | nil => rfl
    | cons e as =>
      obtain ⟨w, middle, more, -, -, h⟩ := h
      cases h
  | cons w ws ih =>
    cases as with
    | nil => cases h.1
    | cons e as =>
      obtain ⟨w', middle, more, -, rest, h⟩ := h
      cases h
      rw [List.length_cons, ih rest, Arguments.length]

/-- The call of a subroutine that gets an object, which lies below the arguments. -/
theorem turns_method (f : String) (object : Word) {as : Arguments} {xs : List Word}
    (arguments : Turns calls s.cls (as.code s) (object :: xs) fun st ys st' =>
      ∃ ws, ys = ws.reverse ++ object :: xs ∧ as.Give calls s st ws st') :
    Turns calls s.cls (as.code s ++ [.call f (as.length + 1)]) (object :: xs) fun st ys st' =>
      ∃ ws middle, as.Give calls s st ws middle ∧
        ∃ w, ys = w :: xs ∧ Returns calls f (object :: ws) middle w st' := by
  refine arguments.andThen fun {_ ws _} h => ?_
  have length : (object :: ws).length = as.length + 1 := by
    rw [List.length_cons, length_of_give h]
  simpa using turns_call f (object :: ws) xs length

mutual

/-- The code of a term pushes its value. -/
theorem term_computes : ∀ t : Term, t.Valid s →
    Computes calls s.cls (t.code s) (t.Gives calls s)
  | .int n, _ => computes_push fun _ => rfl
  | .string text, _ => computes_string text
  | .constant c, _ => computes_constant c
  | .var name, valid => by
    obtain ⟨v, hv⟩ := Option.isSome_iff_exists.1 valid
    intro xs
    refine (computes_read hv xs).congr fun st ys st' => ?_
    simp [Term.Gives, hv]
  | .element name index, valid => by
    obtain ⟨v, hv⟩ := Option.isSome_iff_exists.1 valid.1
    intro xs
    have sum (b i : Word) : Turns calls s.cls [.arithmetic .add] (i :: b :: xs) fun st ys st' =>
        ∃ a, ys = a :: xs ∧ a = b + i ∧ st' = st := turns_operator .add b i xs
    have whole := (computes_read hv xs).andThen fun {_ b _} _ =>
      (expression_computes index valid.2 (b :: xs)).andThen fun {_ i _} _ =>
        (sum b i).andThen fun {_ a _} _ => turns_load a xs
    rw [Term.code, List.append_assoc]
    refine whole.congr fun st ys st' => ?_
    simp only [Term.Gives]
    grind
  | .call c, valid => call_computes c valid
  | .group e, valid => expression_computes e valid
  | .signed sign t, valid => by
    intro xs
    have whole := (term_computes t valid xs).andThen fun {_ x _} _ => turns_sign sign x xs
    refine whole.congr fun st ys st' => ?_
    simp only [Term.Gives]
    grind
termination_by structural t => t

/-- The code of an expression pushes its value. -/
theorem expression_computes : ∀ e : Expression, e.Valid s →
    Computes calls s.cls (e.code s) (e.Gives calls s)
  | .mk first rest, valid => by
    intro xs
    have whole := (term_computes first valid.1 xs).andThen fun {_ x _} _ =>
      chain_turns rest valid.2 x xs
    refine whole.congr fun st ys st' => ?_
    simp only [Expression.Gives]
    grind
termination_by structural e => e

/-- The code of a chain replaces the value on top. -/
theorem chain_turns : ∀ c : Chain, c.Valid s → ∀ (x : Word) (xs : List Word),
    Turns calls s.cls (c.code s) (x :: xs) fun st ys st' =>
      ∃ w, ys = w :: xs ∧ c.Gives calls s x st w st'
  | .nil, _, x, xs => (turns_nil _).congr fun st ys st' => by grind [Chain.Gives]
  | .cons op t rest, valid, x, xs => by
    have whole := (term_computes t valid.1 (x :: xs)).andThen fun {_ y _} _ =>
      (turns_operator op x y xs).andThen fun {_ z _} _ => chain_turns rest valid.2 z xs
    refine whole.congr fun st ys st' => ?_
    simp only [Chain.Gives]
    grind
termination_by structural c => c

/-- The code of a call pushes what it returns. -/
theorem call_computes : ∀ c : Call, c.Valid s →
    Computes calls s.cls (c.code s) (c.Gives calls s)
  | .own name as, valid => by
    intro xs
    have object : Computes calls s.cls [.push .pointer 0] fun st w st' =>
        w = st.object ∧ st' = st := computes_push fun _ => rfl
    have whole := (object xs).andThen fun {_ o _} _ =>
      turns_method (s.cls ++ "." ++ name) o (arguments_turn as valid.2 (o :: xs))
    rw [Call.code, List.append_assoc]
    refine whole.congr fun st ys st' => ?_
    simp only [Call.Gives]
    grind
  | .qualified qualifier name as, valid => by
    intro xs
    rw [Call.code, List.append_assoc, Scope.target]
    cases hv : s.resolve? qualifier with
    | some v =>
      have whole := (computes_variable v xs).andThen fun {_ o _} _ =>
        turns_method (v.type ++ "." ++ name) o (arguments_turn as valid.2 (o :: xs))
      rw [Scope.read, hv]
      refine whole.congr fun st ys st' => ?_
      simp only [Call.Gives, hv]
      grind
    | none =>
      have whole := (arguments_turn as valid.2 xs).andThen fun {_ ws _} h =>
        turns_call (qualifier ++ "." ++ name) ws xs (length_of_give h)
      rw [Scope.read, hv]
      refine whole.congr fun st ys st' => ?_
      simp only [Call.Gives, hv]
      grind
termination_by structural c => c

/-- The code of arguments pushes their values. -/
theorem arguments_turn : ∀ as : Arguments, as.Valid s → ∀ xs : List Word,
    Turns calls s.cls (as.code s) xs fun st ys st' =>
      ∃ ws, ys = ws.reverse ++ xs ∧ as.Give calls s st ws st'
  | .nil, _, xs => by
    refine (turns_nil _).congr fun st ys st' => ⟨?_, ?_⟩
    · exact fun h => ⟨[], h.1, rfl, h.2⟩
    · rintro ⟨_, rfl, rfl, rfl⟩
      exact ⟨rfl, rfl⟩
  | .cons e rest, valid, xs => by
    have whole := (expression_computes e valid.1 xs).andThen fun {_ w _} _ =>
      arguments_turn rest valid.2 (w :: xs)
    refine whole.congr fun st ys st' => ?_
    simp only [Arguments.Give]
    grind
termination_by structural as => as

end

end Jack.Machine
