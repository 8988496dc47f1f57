import Jack.Proofs.Pass.Step

/-!
# Declarations and the table of variables

The table that the pass keeps is a function of the declarations it has gone over. `Declared` holds
these declarations, `Declared.table` is their table, and declaring more succeeds exactly as long as
no kind has too many variables.
-/

namespace Jack

open Syntax

/-- Declarations of the class and of the current subroutine, in the order of the text. -/
structure Declared where
  inClass : List Declaration := []
  inSubroutine : List Declaration := []

namespace Declared

/-- The declarations among which a kind is counted. -/
def level (d : Declared) : Kind → List Declaration
  | .static => d.inClass
  | .field => d.inClass
  | .argument => d.inSubroutine
  | .local => d.inSubroutine

/-- How many variables of a kind are declared. -/
def count (d : Declared) (kind : Kind) : Nat :=
  countKind kind (d.level kind)

/-- One more declaration. -/
def add (d : Declared) (new : Declaration) : Declared :=
  match new.kind with
  | .static => { d with inClass := d.inClass ++ [new] }
  | .field => { d with inClass := d.inClass ++ [new] }
  | .argument => { d with inSubroutine := d.inSubroutine ++ [new] }
  | .local => { d with inSubroutine := d.inSubroutine ++ [new] }

/-- More declarations, one after the other. -/
def addAll (d : Declared) (new : List Declaration) : Declared :=
  new.foldl add d

/-- No kind has too many variables. -/
def Fits (d : Declared) : Prop :=
  ∀ kind, d.count kind ≤ maxVariables

/-- The variables of some declarations, the latest first. -/
def numbered : List Declaration → List (String × Variable)
  | [] => []
  | d :: earlier => (d.name, ⟨d.type, d.kind, countKind d.kind earlier⟩) :: numbered earlier

/-- The table of what is declared. -/
def table (d : Declared) : SymbolTable where
  inClass := numbered d.inClass.reverse
  inSubroutine := numbered d.inSubroutine.reverse
  statics := d.count .static
  fields := d.count .field
  arguments := d.count .argument
  locals := d.count .local

/-! ## Looking names up -/

theorem lookup_numbered (name : String) (ds : List Declaration) :
    (numbered ds).lookup name = latest name ds := by
  induction ds with
  | nil => rfl
  | cons d earlier ih =>
    rw [numbered, List.lookup_cons, latest, ih]
    by_cases h : d.name = name
    · simp [h]
    · have h' : (name == d.name) = false := by simpa using fun h' => h h'.symm
      simp [h, h']

theorem lookup_table (d : Declared) (name : String) :
    d.table.lookup name =
      (latest name d.inSubroutine.reverse).or (latest name d.inClass.reverse) := by
  simp only [SymbolTable.lookup, table, lookup_numbered]

theorem count_table (d : Declared) (kind : Kind) : d.table.count kind = d.count kind := by
  cases kind <;> rfl

theorem table_startSubroutine (d : Declared) :
    d.table.startSubroutine = table { inClass := d.inClass } := rfl

/-! ## Declaring -/

theorem countKind_append (kind : Kind) (ds ds' : List Declaration) :
    countKind kind (ds ++ ds') = countKind kind ds + countKind kind ds' :=
  List.countP_append

theorem countKind_reverse (kind : Kind) (ds : List Declaration) :
    countKind kind ds.reverse = countKind kind ds :=
  List.countP_reverse

theorem count_add (d : Declared) (new : Declaration) (kind : Kind) :
    (d.add new).count kind = d.count kind + countKind kind [new] := by
  obtain ⟨name, type, k⟩ := new
  cases k <;> cases kind <;> simp [add, count, level, countKind]

theorem count_addAll (d : Declared) (new : List Declaration) (kind : Kind) :
    (d.addAll new).count kind = d.count kind + countKind kind new := by
  induction new generalizing d with
  | nil => rfl
  | cons first more ih =>
    change ((d.add first).addAll more).count kind = _
    rw [ih, count_add, Nat.add_assoc, ← countKind_append]
    rfl

theorem declare_table (d : Declared) (new : Declaration) :
    d.table.declare new.name ⟨new.type, new.kind, d.count new.kind⟩ = (d.add new).table := by
  obtain ⟨name, type, kind⟩ := new
  cases kind <;>
    simp [SymbolTable.declare, table, add, numbered, count, level, countKind_append,
      countKind_reverse] <;> simp [countKind]

/-- A declaration succeeds if its kind has room. -/
theorem define?_table (d : Declared) (new : Declaration) :
    d.table.define? new.name new.type new.kind =
      if d.count new.kind < maxVariables then some (d.count new.kind, (d.add new).table)
      else none := by
  rw [SymbolTable.define?, count_table, declare_table]

end Declared

/-- Declaring `new` one after the other leads from one table to another. -/
def Defines : List Declaration → SymbolTable → SymbolTable → Prop
  | [], t, t' => t = t'
  | d :: more, t, t' =>
    ∃ i u, t.define? d.name d.type d.kind = some (i, u) ∧ Defines more u t'

theorem defines_append {ds ds' : List Declaration} {t u : SymbolTable} :
    Defines (ds ++ ds') t u ↔ ∃ v, Defines ds t v ∧ Defines ds' v u := by
  induction ds generalizing t with
  | nil => simp [Defines]
  | cons d ds ih =>
    simp only [List.cons_append, Defines, ih]
    constructor
    · rintro ⟨i, w, hw, v, hv, hu⟩
      exact ⟨v, ⟨i, w, hw, hv⟩, hu⟩
    · rintro ⟨v, ⟨i, w, hw, hv⟩, hu⟩
      exact ⟨i, w, hw, v, hv, hu⟩

namespace Declared

theorem fits_add_iff {d : Declared} (fits : d.Fits) (new : Declaration) :
    (d.add new).Fits ↔ d.count new.kind < maxVariables := by
  constructor
  · intro h
    have := h new.kind
    rw [count_add] at this
    simp [countKind] at this
    omega
  · intro h kind
    rw [count_add]
    by_cases hk : new.kind = kind
    · subst hk
      simp [countKind]
      omega
    · have := fits kind
      simp [countKind, hk]
      omega

theorem Fits.of_addAll {d : Declared} {new : List Declaration} (fits : (d.addAll new).Fits) :
    d.Fits := by
  intro kind
  have := fits kind
  rw [count_addAll] at this
  omega

/-- Declarations succeed exactly if there is room for all of them. -/
theorem defines_table_iff {d : Declared} (fits : d.Fits) (new : List Declaration)
    {t : SymbolTable} :
    Defines new d.table t ↔ (d.addAll new).Fits ∧ t = (d.addAll new).table := by
  induction new generalizing d with
  | nil => simp [Defines, addAll, fits, eq_comm]
  | cons first more ih =>
    change _ ↔ ((d.add first).addAll more).Fits ∧ t = ((d.add first).addAll more).table
    simp only [Defines, define?_table]
    by_cases h : d.count first.kind < maxVariables
    · rw [← ih ((fits_add_iff fits first).2 h)]
      simp [h, and_assoc]
    · simp only [h, if_false, reduceCtorEq, false_and, exists_false, false_iff, not_and]
      intro fits'
      exact absurd ((fits_add_iff fits first).1 fits'.of_addAll) h

theorem addAll_inClass {d : Declared} {new : List Declaration}
    (h : ∀ x ∈ new, x.kind = .static ∨ x.kind = .field) :
    d.addAll new = { d with inClass := d.inClass ++ new } := by
  induction new generalizing d with
  | nil => simp [addAll]
  | cons first more ih =>
    change (d.add first).addAll more = _
    rw [ih fun x hx => h x (List.mem_cons_of_mem _ hx)]
    rcases h first List.mem_cons_self with hk | hk <;> simp [add, hk]

theorem addAll_inSubroutine {d : Declared} {new : List Declaration}
    (h : ∀ x ∈ new, x.kind = .argument ∨ x.kind = .local) :
    d.addAll new = { d with inSubroutine := d.inSubroutine ++ new } := by
  induction new generalizing d with
  | nil => simp [addAll]
  | cons first more ih =>
    change (d.add first).addAll more = _
    rw [ih fun x hx => h x (List.mem_cons_of_mem _ hx)]
    rcases h first List.mem_cons_self with hk | hk <;> simp [add, hk]

/-- What a subroutine declares belongs to it, and not to its class. -/
theorem kind_of_mem_declarations {cls : String} {r : Subroutine} :
    ∀ x ∈ r.declarations cls, x.kind = .argument ∨ x.kind = .local := by
  intro x hx
  simp only [Subroutine.declarations, List.mem_append, List.mem_map, List.mem_flatMap] at hx
  obtain (hx | ⟨q, -, rfl⟩) | ⟨d, -, hx⟩ := hx
  · split at hx
    · rw [List.mem_singleton] at hx
      exact .inl (by rw [hx])
    · cases hx
  · exact .inl rfl
  · obtain ⟨name, -, rfl⟩ := List.mem_map.1 hx
    exact .inr rfl

theorem kind_of_mem_names {kind : Kind} {d : Names} :
    ∀ x ∈ d.declarations kind, x.kind = kind := by
  intro x hx
  obtain ⟨name, -, rfl⟩ := List.mem_map.1 hx
  rfl

theorem Fits.startSubroutine {d : Declared} (fits : d.Fits) :
    Fits { inClass := d.inClass } := by
  intro kind
  cases kind with
  | static => exact fits .static
  | field => exact fits .field
  | argument => exact Nat.zero_le _
  | «local» => exact Nat.zero_le _

/-- Class variables that fit in the end fit all along. -/
theorem Fits.variables {d : Declared} {new later : List Declaration} (fits : d.Fits)
    (total : Fits { inClass := d.inClass ++ (new ++ later) }) :
    Fits { d with inClass := d.inClass ++ new } := by
  have count_le (kind : Kind) : countKind kind (d.inClass ++ new) ≤
      countKind kind (d.inClass ++ (new ++ later)) := by
    rw [← List.append_assoc, countKind_append _ (d.inClass ++ new)]
    exact Nat.le_add_right _ _
  intro kind
  cases kind with
  | static => exact Nat.le_trans (count_le .static) (total .static)
  | field => exact Nat.le_trans (count_le .field) (total .field)
  | argument => exact fits .argument
  | «local» => exact fits .local

/-- The variables in sight are those of the scope of the declarations. -/
theorem scope_table (d : Declared) (cls : String) :
    (⟨cls, d.table.lookup⟩ : Scope) = .of cls d.inClass d.inSubroutine := by
  rw [Scope.of, Scope.mk.injEq]
  exact ⟨rfl, funext d.lookup_table⟩

end Declared

end Jack
