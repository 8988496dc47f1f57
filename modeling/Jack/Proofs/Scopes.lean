import Mathlib.Data.List.Induction
import Jack.Symbols

/-!
# Scopes of names

What a table of declared names holds after any sequence of operations. The operations that take
effect are its history: all but the declarations that the table refuses. A name stands for its last
declaration in the history, one of the current subroutine before one of the class. Its number is
the number of declarations of its kind before it, in the class or in the current subroutine.
-/

namespace Jack

/-- Whether variables of a kind belong to the class, and not to a subroutine. -/
def Kind.ofClass : Kind → Bool
  | static => true
  | field => true
  | argument => false
  | «local» => false

namespace SymbolTable

/-! ## Operations -/

/-- An operation on a table. -/
inductive Operation where
  | startSubroutine
  | define (name type : String) (kind : Kind)
deriving DecidableEq, Repr

/-- What an operation answers, which is a number if it declares a variable, and the table after it.
A declaration that is refused answers nothing. -/
def perform (t : SymbolTable) : Operation → Option Nat × SymbolTable
  | .startSubroutine => (none, t.startSubroutine)
  | .define name type kind =>
    match t.define? name type kind with
    | some (index, t') => (some index, t')
    | none => (none, t)

/-- Whether an operation with this answer changed the table. -/
def Operation.tookEffect : Operation → Option Nat → Bool
  | startSubroutine, _ => true
  | define _ _ _, answer => answer.isSome

/-- The table and the history of operations, after one more operation. -/
def record : SymbolTable × List Operation → Operation → SymbolTable × List Operation
  | (t, history), op =>
    ((t.perform op).2, if op.tookEffect (t.perform op).1 then history ++ [op] else history)

/-- The table after some operations on an empty one, and its history: those of the operations that
took effect. -/
def run (ops : List Operation) : SymbolTable × List Operation :=
  ops.foldl record ({}, [])

/-! ## What a history tells -/

namespace Operation

/-- Whether an operation declares a variable of a kind. -/
def declares (kind : Kind) : Operation → Bool
  | startSubroutine => false
  | define _ _ kind' => kind' = kind

/-- Whether an earlier declaration of a name, of some kind, does not count after an operation: the
name is declared again at the same level, or the subroutine of the declaration is over. -/
def hides (name : String) (kind : Kind) : Operation → Bool
  | startSubroutine => !kind.ofClass
  | define name' _ kind' => name' = name && kind'.ofClass = kind.ofClass

end Operation

/-- The part of a history in which variables of a kind live: all of it, or what came since the
current subroutine began. -/
def lifetime (kind : Kind) (history : List Operation) : List Operation :=
  if kind.ofClass then history
  else (history.reverse.takeWhile (· ≠ .startSubroutine)).reverse

/-- How many variables of a kind are declared in their lifetime. -/
def declared (kind : Kind) (history : List Operation) : Nat :=
  (lifetime kind history).countP (Operation.declares kind)

/-- The last declaration of a name at some level made it the variable `v`. -/
def LastDeclared (history : List Operation) (name : String) (v : Variable) : Prop :=
  ∃ before since, history = before ++ .define name v.type v.kind :: since ∧
    v.index = declared v.kind before ∧ ∀ op ∈ since, op.hides name v.kind = false

/-- What a name stands for: its last declaration in the current subroutine, and if there is none,
that in the class. -/
def StandsFor (history : List Operation) (name : String) (v : Variable) : Prop :=
  LastDeclared history name v ∧
    (v.kind.ofClass = true → ∀ u, LastDeclared history name u → u.kind.ofClass = true)

/-! ## Counting -/

theorem declared_define (kind : Kind) (history : List Operation) (name type : String)
    (kind' : Kind) :
    declared kind (history ++ [.define name type kind']) =
      declared kind history + if kind' = kind then 1 else 0 := by
  unfold declared lifetime
  cases kind.ofClass <;> simp [List.countP_append, List.countP_cons, Operation.declares]

theorem declared_startSubroutine (kind : Kind) (history : List Operation) :
    declared kind (history ++ [.startSubroutine]) =
      if kind.ofClass then declared kind history else 0 := by
  unfold declared lifetime
  cases kind.ofClass <;> simp [List.countP_append, Operation.declares]

/-- A lifetime that goes on adds what is declared in it. -/
theorem declared_append {kind : Kind} {since : List Operation} (history : List Operation)
    (alive : ∀ op ∈ since, op = .startSubroutine → kind.ofClass = true) :
    declared kind (history ++ since) =
      declared kind history + since.countP (Operation.declares kind) := by
  induction since using List.reverseRecOn with
  | nil => simp
  | append_singleton since op ih =>
    rw [← List.append_assoc, List.countP_append]
    have before := ih fun op' mem => alive op' (by simp [mem])
    cases op with
    | startSubroutine =>
      rw [declared_startSubroutine, alive .startSubroutine (by simp) rfl, if_pos rfl, before]
      rfl
    | define name type kind' =>
      rw [declared_define, before, Nat.add_assoc, List.countP_singleton]
      simp [Operation.declares]

/-! ## Last declarations -/

theorem lastDeclared_append_singleton {history : List Operation} {op : Operation} {name : String}
    {v : Variable} :
    LastDeclared (history ++ [op]) name v ↔
      (op = .define name v.type v.kind ∧ v.index = declared v.kind history) ∨
        (LastDeclared history name v ∧ op.hides name v.kind = false) := by
  constructor
  · rintro ⟨before, since, whole, index, kept⟩
    obtain rfl | ⟨since, last, rfl⟩ := List.eq_nil_or_concat since
    · obtain ⟨rfl, rfl⟩ := List.append_singleton_inj.1 whole
      exact .inl ⟨rfl, index⟩
    · rw [List.concat_eq_append, ← List.cons_append, ← List.append_assoc] at whole
      obtain ⟨rfl, rfl⟩ := List.append_singleton_inj.1 whole
      rw [List.concat_eq_append, List.forall_mem_append, List.forall_mem_singleton] at kept
      exact .inr ⟨⟨before, since, rfl, index, kept.1⟩, kept.2⟩
  · rintro (⟨rfl, index⟩ | ⟨⟨before, since, rfl, index, kept⟩, last⟩)
    · exact ⟨history, [], rfl, index, List.forall_mem_nil _⟩
    · refine ⟨before, since ++ [op], by simp, index, ?_⟩
      rw [List.forall_mem_append, List.forall_mem_singleton]
      exact ⟨kept, last⟩

theorem not_lastDeclared_nil (name : String) (v : Variable) : ¬ LastDeclared [] name v := by
  rintro ⟨before, since, whole, -⟩
  simp at whole

/-! ## Tables and histories -/

/-- The declarations of a table at one of its levels, the latest first. -/
def level (t : SymbolTable) (ofClass : Bool) : List (String × Variable) :=
  if ofClass then t.inClass else t.inSubroutine

/-- A table holds what its history tells. -/
structure Holds (t : SymbolTable) (history : List Operation) : Prop where
  count (kind : Kind) : t.count kind = declared kind history
  count_le (kind : Kind) : t.count kind ≤ maxVariables
  entries (ofClass : Bool) (name : String) (v : Variable) :
    (t.level ofClass).lookup name = some v ↔
      LastDeclared history name v ∧ v.kind.ofClass = ofClass

theorem count_declare (t : SymbolTable) (name : String) (v : Variable) (kind : Kind) :
    (t.declare name v).count kind = t.count kind + if v.kind = kind then 1 else 0 := by
  unfold declare
  cases h : v.kind <;> cases kind <;> rfl

theorem level_declare (t : SymbolTable) (name : String) (v : Variable) (ofClass : Bool) :
    (t.declare name v).level ofClass =
      if v.kind.ofClass = ofClass then (name, v) :: t.level ofClass else t.level ofClass := by
  unfold declare
  cases h : v.kind <;> cases ofClass <;> rfl

theorem holds_empty : Holds {} [] where
  count kind := by cases kind <;> rfl
  count_le kind := by cases kind <;> exact Nat.zero_le _
  entries ofClass name v := by
    cases ofClass <;> simp [level, not_lastDeclared_nil]

theorem Holds.startSubroutine {t : SymbolTable} {history : List Operation} (h : Holds t history) :
    Holds t.startSubroutine (history ++ [.startSubroutine]) where
  count kind := by
    rw [declared_startSubroutine]
    cases kind with
    | static => exact h.count .static
    | field => exact h.count .field
    | argument => rfl
    | «local» => rfl
  count_le kind := by
    cases kind with
    | static => exact h.count_le .static
    | field => exact h.count_le .field
    | argument => exact Nat.zero_le _
    | «local» => exact Nat.zero_le _
  entries ofClass name v := by
    have before := h.entries ofClass name v
    rw [lastDeclared_append_singleton]
    cases ofClass with
    | true =>
      show t.inClass.lookup name = some v ↔ _
      simp_all [level, Operation.hides]
    | false => simp [level, SymbolTable.startSubroutine, Operation.hides]

theorem Holds.define {t : SymbolTable} {history : List Operation} (h : Holds t history)
    (name type : String) {kind : Kind} (room : t.count kind < maxVariables) :
    Holds (t.declare name ⟨type, kind, t.count kind⟩) (history ++ [.define name type kind]) where
  count kind' := by rw [count_declare, declared_define, h.count]
  count_le kind' := by
    rw [count_declare]
    by_cases same : kind = kind'
    · rwa [if_pos same, ← same]
    · rw [if_neg same]
      exact h.count_le kind'
  entries ofClass name' v := by
    have before := h.entries ofClass name' v
    rw [level_declare, lastDeclared_append_singleton, h.count]
    by_cases here : kind.ofClass = ofClass
    · rw [if_pos here, List.lookup_cons]
      by_cases named : name' = name
      · -- The new declaration hides all others of its level.
        subst named
        simp only [beq_self_eq_true, Option.some.injEq]
        constructor
        · rintro rfl
          exact ⟨.inl ⟨rfl, rfl⟩, here⟩
        · rintro ⟨⟨same, index⟩ | ⟨-, kept⟩, atLevel⟩
          · cases same
            rw [← index]
          · simp [Operation.hides, here, atLevel] at kept
      · have other : (name' == name) = false := by simpa using named
        have new : name ≠ name' := fun h => named h.symm
        simp only [other, before]
        simp [Operation.hides, new]
    · rw [if_neg here, before]
      constructor
      · rintro ⟨last, atLevel⟩
        refine ⟨.inr ⟨last, ?_⟩, atLevel⟩
        simp [Operation.hides, atLevel, here]
      · rintro ⟨⟨same, -⟩ | ⟨last, -⟩, atLevel⟩
        · cases same
          exact absurd atLevel here
        · exact ⟨last, atLevel⟩

theorem perform_define (t : SymbolTable) (name type : String) (kind : Kind) :
    t.perform (.define name type kind) =
      if t.count kind < maxVariables then
        (some (t.count kind), t.declare name ⟨type, kind, t.count kind⟩)
      else (none, t) := by
  by_cases room : t.count kind < maxVariables <;> simp [perform, define?, room]

theorem Holds.record {t : SymbolTable} {history : List Operation} (h : Holds t history)
    (op : Operation) : Holds (record (t, history) op).1 (record (t, history) op).2 := by
  cases op with
  | startSubroutine => exact h.startSubroutine
  | define name type kind =>
    have answer := perform_define t name type kind
    by_cases room : t.count kind < maxVariables
    · rw [if_pos room] at answer
      rw [SymbolTable.record, answer]
      exact h.define name type room
    · rw [if_neg room] at answer
      rw [SymbolTable.record, answer]
      exact h

/-- After any operations, the table holds what the history tells. -/
theorem holds_run (ops : List Operation) : Holds (run ops).1 (run ops).2 := by
  induction ops using List.reverseRecOn with
  | nil => exact holds_empty
  | append_singleton ops op ih =>
    rw [run, List.foldl_append]
    exact ih.record op

/-! ## Looking names up -/

theorem Holds.lookup_inSubroutine_eq_none {t : SymbolTable} {history : List Operation}
    (h : Holds t history) (name : String) :
    t.inSubroutine.lookup name = none ↔
      ∀ u, LastDeclared history name u → u.kind.ofClass = true := by
  rw [Option.eq_none_iff_forall_ne_some]
  refine forall_congr' fun u => ?_
  have found := h.entries false name u
  rw [level, if_neg Bool.false_ne_true] at found
  rw [ne_eq, found, not_and, Bool.not_eq_false]

theorem Holds.lookup_eq_some {t : SymbolTable} {history : List Operation} (h : Holds t history)
    {name : String} {v : Variable} : t.lookup name = some v ↔ StandsFor history name v := by
  have inSubroutine := h.entries false name v
  have inClass := h.entries true name v
  rw [level, if_neg Bool.false_ne_true] at inSubroutine
  rw [level, if_pos rfl] at inClass
  rw [lookup, Option.or_eq_some_iff, inSubroutine, h.lookup_inSubroutine_eq_none, inClass]
  constructor
  · rintro (⟨last, inner⟩ | ⟨outer, last, -⟩)
    · exact ⟨last, fun outer => absurd (inner.symm.trans outer) Bool.false_ne_true⟩
    · exact ⟨last, fun _ => outer⟩
  · rintro ⟨last, outer⟩
    cases inner : v.kind.ofClass with
    | false => exact .inl ⟨last, rfl⟩
    | true => exact .inr ⟨outer inner, last, rfl⟩

theorem Holds.lookup_eq_none {t : SymbolTable} {history : List Operation} (h : Holds t history)
    {name : String} : t.lookup name = none ↔ ∀ v, ¬ LastDeclared history name v := by
  have outside := fun v => h.entries true name v
  simp only [level, if_true] at outside
  rw [lookup, Option.or_eq_none_iff, h.lookup_inSubroutine_eq_none]
  rw [Option.eq_none_iff_forall_ne_some]
  constructor
  · rintro ⟨inner, outer⟩ v last
    exact outer v ((outside v).2 ⟨last, inner v last⟩)
  · intro none
    refine ⟨fun u last => (none u last).elim, fun v found => ?_⟩
    exact none v ((outside v).1 found).1

/-! ## Numbers -/

/-- What is not hidden is still alive. -/
theorem alive_of_not_hides {name : String} {kind : Kind} {since : List Operation}
    (kept : ∀ op ∈ since, op.hides name kind = false) :
    ∀ op ∈ since, op = .startSubroutine → kind.ofClass = true := by
  rintro op mem rfl
  simpa [Operation.hides] using kept _ mem

/-- A declaration counts in its lifetime, so later ones have larger numbers. -/
theorem declared_lt_declared {before since : List Operation} {kind : Kind} (name type : String)
    (alive : ∀ op ∈ since, op = .startSubroutine → kind.ofClass = true) :
    declared kind before < declared kind (before ++ .define name type kind :: since) := by
  rw [declared_append, List.countP_cons_of_pos (by simp [Operation.declares])]
  · omega
  · simpa using alive

theorem LastDeclared.index_lt_declared {history : List Operation} {name : String} {v : Variable}
    (h : LastDeclared history name v) : v.index < declared v.kind history := by
  obtain ⟨before, since, rfl, index, kept⟩ := h
  rw [index]
  exact declared_lt_declared name v.type (alive_of_not_hides kept)

/-- Variables of one kind that have the same number have the same name. -/
theorem LastDeclared.name_eq {history : List Operation} {name name' : String} {v v' : Variable}
    (h : LastDeclared history name v) (h' : LastDeclared history name' v')
    (kind : v.kind = v'.kind) (index : v.index = v'.index) : name = name' := by
  obtain ⟨before, since, rfl, number, kept⟩ := h
  obtain ⟨before', since', whole, number', kept'⟩ := h'
  have same : declared v.kind before = declared v.kind before' := by
    rw [← number, index, number', kind]
  obtain ⟨between, rfl, rest⟩ | ⟨between, rfl, rest⟩ := List.append_eq_append_iff.1 whole
  · cases between with
    | nil => simp_all
    | cons op between =>
      obtain ⟨rfl, rfl⟩ := List.cons.inj rest
      have alive := alive_of_not_hides fun op mem => kept op (List.mem_append_left _ mem)
      exact absurd same (Nat.ne_of_lt (declared_lt_declared name v.type alive))
  · cases between with
    | nil => simp_all
    | cons op between =>
      obtain ⟨rfl, rfl⟩ := List.cons.inj rest
      have alive := alive_of_not_hides fun op mem => kept' op (List.mem_append_left _ mem)
      rw [kind] at same
      exact absurd same (Nat.ne_of_gt (declared_lt_declared name' v'.type alive))

/-! ## All together -/

theorem Holds.perform_eq_none {t : SymbolTable} {history : List Operation} (h : Holds t history)
    (name type : String) (kind : Kind) :
    (t.perform (.define name type kind)).1 = none ↔ declared kind history = 65535 := by
  have bound : declared kind history ≤ 65535 := h.count kind ▸ h.count_le kind
  rw [perform_define, h.count]
  split_ifs with room
  · exact ⟨False.elim, fun full => Nat.ne_of_lt room full⟩
  · exact ⟨fun _ => Nat.le_antisymm bound (Nat.le_of_not_lt room), fun _ => rfl⟩

/-- After any operations on an empty table: a name stands for its last declaration, one of the
current subroutine first, and for nothing if it has none. Its number is the number of declarations
of its kind before it in their lifetime, and `count` is the number of all of them. A declaration is
refused exactly if there are 65535 of its kind, and then nothing changes. So variables of one kind
have different numbers, all of them smaller than the count. -/
theorem last_declaration_wins (ops : List Operation) :
    let t := (run ops).1
    let history := (run ops).2
    (∀ name v, t.lookup name = some v ↔ StandsFor history name v) ∧
    (∀ name, t.lookup name = none ↔ ∀ v, ¬ LastDeclared history name v) ∧
    (∀ kind, t.count kind = declared kind history) ∧
    (∀ name type kind,
      ((t.perform (.define name type kind)).1 = none ↔ declared kind history = 65535) ∧
      ((t.perform (.define name type kind)).1 = none →
        (t.perform (.define name type kind)).2 = t) ∧
      ∀ index, (t.perform (.define name type kind)).1 = some index →
        index = declared kind history) ∧
    (∀ name name' v v', name ≠ name' → t.lookup name = some v → t.lookup name' = some v' →
      v.kind = v'.kind → v.index ≠ v'.index) ∧
    ∀ name v, t.lookup name = some v → v.index < t.count v.kind := by
  intro t history
  have h : Holds t history := holds_run ops
  refine ⟨fun _ _ => h.lookup_eq_some, fun _ => h.lookup_eq_none, h.count, ?_, ?_, ?_⟩
  · intro name type kind
    refine ⟨h.perform_eq_none name type kind, ?_, ?_⟩ <;> rw [perform_define] <;> split_ifs
    · exact False.elim
    · exact fun _ => rfl
    · rintro index ⟨⟩
      exact h.count kind
    · rintro index ⟨⟩
  · intro name name' v v' other found found' kind index
    exact other ((h.lookup_eq_some.1 found).1.name_eq (h.lookup_eq_some.1 found').1 kind index)
  · intro name v found
    rw [h.count]
    exact (h.lookup_eq_some.1 found).1.index_lt_declared

/-- A name that is declared for the class, hidden in a subroutine, and then declared for the class
again with another kind, and a local variable beside it. -/
def shadowing : List Operation :=
  [.define "x" "int" .field, .startSubroutine, .define "x" "char" .local,
    .define "y" "int" .local, .define "x" "A" .static]

theorem shadowing_stands :
    StandsFor (run shadowing).2 "x" ⟨"char", .local, 0⟩ ∧
      StandsFor (run (shadowing ++ [.startSubroutine])).2 "x" ⟨"A", .static, 0⟩ ∧
      ∃ v v', (run shadowing).1.lookup "x" = some v ∧ (run shadowing).1.lookup "y" = some v' ∧
        v.kind = v'.kind ∧ v.index ≠ v'.index := by
  have here := last_declaration_wins shadowing
  have next := last_declaration_wins (shadowing ++ [.startSubroutine])
  have hidden : (run shadowing).1.lookup "x" = some ⟨"char", .local, 0⟩ := by decide
  have beside : (run shadowing).1.lookup "y" = some ⟨"int", .local, 1⟩ := by decide
  refine ⟨(here.1 _ _).1 hidden, (next.1 _ _).1 (by decide), _, _, hidden, beside, rfl, ?_⟩
  exact here.2.2.2.2.1 "x" "y" _ _ (by decide) hidden beside rfl

end SymbolTable

end Jack
