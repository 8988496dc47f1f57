import Jack.Proofs.Syntax.Labels

/-!
# Renumbering labels

The labels of a statement are numbered from some number on. If they are numbered from a larger
number, then the code is the same, but with larger numbers in its labels and jumps.
-/

namespace Jack

/-- The same instruction with another label, if it defines a label or jumps to one. -/
def Instruction.mapLabel (f : String → String) : Instruction → Instruction
  | label l => label (f l)
  | goto l => goto (f l)
  | ifGoto l => ifGoto (f l)
  | i => i

theorem Instruction.mapLabel_plain {i : Instruction} (plain : i.Plain) (f : String → String) :
    i.mapLabel f = i := by
  cases i with
  | label l => exact plain.elim
  | goto l => exact plain.elim
  | ifGoto l => exact plain.elim
  | _ => rfl

namespace Syntax

/-- The number of a label of the class `cls`. -/
def labelNumber (cls l : String) : Nat :=
  Nat.ofDigitChars 10 (l.toList.drop (cls.length + 2)) 0

/-- A label of the class `cls` with a number that is larger by `d`. Any other label is left as it
is. -/
def renumber (cls : String) (d : Nat) (l : String) : String :=
  if l = label cls (labelNumber cls l) then label cls (labelNumber cls l + d) else l

theorem labelNumber_label (cls : String) (k : Nat) : labelNumber cls (label cls k) = k := by
  have digits : (label cls k).toList.drop (cls.length + 2) = Nat.toDigits 10 k := by
    have before : cls.length + 2 = (cls ++ ".L").toList.length := by simp [String.length_toList]
    rw [label, String.toList_append, before, List.drop_left, Nat.toList_repr]
  rw [labelNumber, digits, Nat.ofDigitChars_ten_toDigits]

theorem renumber_label (cls : String) (d k : Nat) :
    renumber cls d (label cls k) = label cls (k + d) := by
  rw [renumber, labelNumber_label, if_pos rfl]

/-- Code with labels of the class `cls` renumbered. -/
def renumbered (cls : String) (d : Nat) (code : List Instruction) : List Instruction :=
  code.map (Instruction.mapLabel (renumber cls d))

section Renumbered

variable (cls : String) (d : Nat)

theorem renumbered_append (code code' : List Instruction) :
    renumbered cls d (code ++ code') = renumbered cls d code ++ renumbered cls d code' :=
  List.map_append

theorem renumbered_nil : renumbered cls d [] = [] :=
  rfl

theorem renumbered_label (k : Nat) (code : List Instruction) :
    renumbered cls d (.label (label cls k) :: code) =
      .label (label cls (k + d)) :: renumbered cls d code := by
  rw [← renumber_label]
  rfl

theorem renumbered_jump (k : Nat) (code : List Instruction) :
    renumbered cls d (.goto (label cls k) :: code) =
      .goto (label cls (k + d)) :: renumbered cls d code := by
  rw [← renumber_label]
  rfl

/-- Code without labels and jumps is left as it is. -/
theorem renumbered_plain {code : List Instruction} (plain : PlainCode code) :
    renumbered cls d code = code := by
  have each : ∀ i ∈ code, i.mapLabel (renumber cls d) = id i :=
    fun i hi => Instruction.mapLabel_plain (plain i hi) _
  rw [renumbered, List.map_congr_left each, List.map_id]

end Renumbered

/-! ## Statements -/

section Statements

variable (s : Scope) (d : Nat)

theorem renumbered_expression (e : Expression) : renumbered s.cls d (e.code s) = e.code s :=
  renumbered_plain s.cls d (plain_expression s e)

theorem renumbered_condition (e : Expression) (k : Nat) :
    renumbered s.cls d (conditionCode s e k) = conditionCode s e (k + d) := by
  rw [conditionCode, renumbered_append, renumbered_expression, conditionCode, ← renumber_label]
  rfl

mutual

/-- The code of a statement with labels numbered from a larger number on. -/
theorem renumbered_statement : ∀ (st : Statement) (k : Nat),
    renumbered s.cls d (st.code s k) = st.code s (k + d)
  | .assign name value, k => by
    rw [Statement.code, Statement.code, renumbered_append, renumbered_expression,
      renumbered_plain s.cls d (plain_write s name)]
  | .assignElement name index value, k => by
    simp only [Statement.code, renumbered_append, renumbered_expression,
      renumbered_plain s.cls d (plain_read s name)]
    rfl
  | .when condition yes, k => by
    simp only [Statement.code, renumbered_append, renumbered_condition, renumbered_statements yes,
      renumbered_jump, renumbered_label, renumbered_nil, Nat.add_right_comm k _ d]
  | .choose condition yes no, k => by
    simp only [Statement.code, renumbered_append, renumbered_condition, renumbered_statements yes,
      renumbered_statements no, renumbered_jump, renumbered_label, renumbered_nil,
      Nat.add_right_comm _ _ d]
  | .loop condition body, k => by
    simp only [Statement.code, renumbered_append, renumbered_condition,
      renumbered_statements body, renumbered_jump, renumbered_label, renumbered_nil,
      Nat.add_right_comm k _ d]
  | .perform call, k => by
    rw [Statement.code, Statement.code, renumbered_append,
      renumbered_plain s.cls d (plain_call s call)]
    rfl
  | .leave none, k => rfl
  | .leave (some value), k => by
    rw [Statement.code, Statement.code, renumbered_append, renumbered_expression]
    rfl
termination_by structural st => st

theorem renumbered_statements : ∀ (ss : Statements) (k : Nat),
    renumbered s.cls d (ss.code s k) = ss.code s (k + d)
  | .nil, _ => rfl
  | .cons first rest, k => by
    rw [Statements.code, renumbered_append, renumbered_statement first,
      renumbered_statements rest, Statements.code, Nat.add_right_comm]
termination_by structural ss => ss

end

end Statements

/-! ## Subroutines -/

theorem renumbered_subroutine (cls : String) (inClass : List Declaration) (d k : Nat)
    (r : Subroutine) :
    renumbered cls d (r.code cls inClass k) = r.code cls inClass (k + d) := by
  have body := renumbered_statements (r.scope cls inClass) d r.body k
  have entry (f : String) (n : Nat) (code : List Instruction) :
      renumbered cls d (.function f n :: code) = .function f n :: renumbered cls d code := rfl
  rw [Subroutine.code, entry, renumbered_append, renumbered_plain cls d (plain_opening _ _),
    Subroutine.code]
  exact congrArg _ (congrArg _ body)

end Syntax

end Jack
