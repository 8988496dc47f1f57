import Mathlib.Data.List.Perm.Basic
import Mathlib.Data.List.Nodup
import Jack.Proofs.Syntax.Instructions

/-!
# Labels and jumps in the code of a tree

Expressions have plain code, without labels and jumps. The labels of statements are numbered
without gaps. Each of them is defined once, and is the target of one jump.
-/

namespace Jack

namespace Instruction

/-- An instruction that is no jump, label, entry or return. -/
def Plain : Instruction → Prop
  | push _ _ => True
  | pop _ _ => True
  | arithmetic _ => True
  | call _ _ => True
  | _ => False

/-- The label that an instruction defines. -/
def label? : Instruction → Option String
  | label name => some name
  | _ => none

/-- The label that control can go to. -/
def target? : Instruction → Option String
  | goto l => some l
  | ifGoto l => some l
  | _ => none

theorem label?_eq_some {i : Instruction} {l : String} : i.label? = some l ↔ i = .label l := by
  cases i <;> simp [label?]

end Instruction

/-- The labels that some code defines, in the order of the code. -/
def labelsOf (code : List Instruction) : List String :=
  code.filterMap Instruction.label?

@[simp] theorem labelsOf_append (code code' : List Instruction) :
    labelsOf (code ++ code') = labelsOf code ++ labelsOf code' :=
  List.filterMap_append

theorem labelsOf_cons (i : Instruction) (code : List Instruction) :
    labelsOf (i :: code) = i.label?.toList ++ labelsOf code := by
  cases i <;> rfl

@[simp] theorem mem_labelsOf {code : List Instruction} {l : String} :
    l ∈ labelsOf code ↔ .label l ∈ code := by
  simp [labelsOf, Instruction.label?_eq_some]

/-- The labels that some code jumps to, in the order of the code. -/
def targetsOf (code : List Instruction) : List String :=
  code.filterMap Instruction.target?

@[simp] theorem targetsOf_append (code code' : List Instruction) :
    targetsOf (code ++ code') = targetsOf code ++ targetsOf code' :=
  List.filterMap_append

/-- Code without labels, jumps, entries and returns. -/
def PlainCode (code : List Instruction) : Prop :=
  ∀ i ∈ code, i.Plain

theorem plainCode_append {code code' : List Instruction} :
    PlainCode (code ++ code') ↔ PlainCode code ∧ PlainCode code' :=
  List.forall_mem_append

theorem plainCode_cons {i : Instruction} {code : List Instruction} :
    PlainCode (i :: code) ↔ i.Plain ∧ PlainCode code :=
  List.forall_mem_cons

theorem plainCode_nil : PlainCode [] :=
  List.forall_mem_nil _

theorem labelsOf_plain {code : List Instruction} (plain : PlainCode code) :
    labelsOf code = [] := by
  rw [labelsOf, List.filterMap_eq_nil_iff]
  intro i hi
  cases i with
  | label l => exact (plain _ hi).elim
  | _ => rfl

theorem targetsOf_plain {code : List Instruction} (plain : PlainCode code) :
    targetsOf code = [] := by
  rw [targetsOf, List.filterMap_eq_nil_iff]
  intro i hi
  cases i with
  | goto l => exact (plain _ hi).elim
  | ifGoto l => exact (plain _ hi).elim
  | _ => rfl

namespace Syntax

/-! ## Expressions -/

theorem InExpression.plain {s : Scope} {i : Instruction} (h : InExpression s i) : i.Plain := by
  cases h <;> trivial

section Expressions

variable (s : Scope)

theorem plain_read (name : String) : PlainCode (s.read name) :=
  fun i hi => (inExpression_read s name i hi).plain

theorem plain_write (name : String) : PlainCode (s.write name) := by
  cases h : s.resolve? name <;> simp [Scope.write, h, PlainCode, save, Instruction.Plain]

theorem plain_string (text : String) : PlainCode ((Term.string text).code s) :=
  fun i hi => (inExpression_string s text i hi).plain

theorem plain_expression (e : Expression) : PlainCode (e.code s) :=
  fun i hi => (inExpression_expression s e i hi).plain

theorem plain_call (c : Call) : PlainCode (c.code s) :=
  fun i hi => (inExpression_call s c i hi).plain

end Expressions

/-! ## Statements -/

theorem label_injective (cls : String) {j k : Nat} (h : label cls j = label cls k) : j = k := by
  have digits : j.repr = k.repr := (String.append_right_inj (cls ++ ".L")).1 h
  have value := congrArg (fun text : String => Nat.ofDigitChars 10 text.toList 0) digits
  simpa [Nat.repr] using value

/-- The labels with `n` numbers from `k` on. -/
def numberedLabels (cls : String) (k n : Nat) : List String :=
  (List.range' k n).map (label cls)

theorem nodup_numberedLabels (cls : String) (k n : Nat) : (numberedLabels cls k n).Nodup :=
  List.Nodup.map (fun _ _ => label_injective cls) (List.nodup_range' 1)

theorem numberedLabels_add (cls : String) (k m n : Nat) :
    numberedLabels cls k (m + n) = numberedLabels cls k m ++ numberedLabels cls (k + m) n := by
  rw [numberedLabels, numberedLabels, numberedLabels, ← List.map_append, List.range'_append_1]

/-- A statement takes two labels of its own, and those inside are numbered after them. -/
theorem numberedLabels_add_two (cls : String) (k n : Nat) :
    numberedLabels cls k (n + 2) =
      [label cls k, label cls (k + 1)] ++ numberedLabels cls (k + 2) n := by
  rw [Nat.add_comm, numberedLabels_add]
  rfl

theorem labelsOf_expression (s : Scope) (e : Expression) : labelsOf (e.code s) = [] :=
  labelsOf_plain (plain_expression s e)

theorem labelsOf_condition (s : Scope) (e : Expression) (k : Nat) :
    labelsOf (conditionCode s e k) = [] := by
  rw [conditionCode, labelsOf_append, labelsOf_expression]
  rfl

theorem perm_around (xs : List String) (a : String) (ys : List String) (b : String) :
    (xs ++ [a] ++ ys ++ [b]).Perm ([a, b] ++ (xs ++ ys)) := by
  rw [List.perm_iff_count]
  intro l
  simp only [List.count_append, List.count_cons, List.count_nil]
  omega

mutual

/-- Each label number of a statement is used for one label. -/
theorem labelsOf_statement (s : Scope) : ∀ (st : Statement) (k : Nat),
    (labelsOf (st.code s k)).Perm (numberedLabels s.cls k st.labels)
  | .assign name value, k => by
    rw [Statement.code, labelsOf_append, labelsOf_expression, labelsOf_plain (plain_write s name)]
    exact .refl _
  | .assignElement name index value, k => by
    simp only [Statement.code, labelsOf_append, labelsOf_expression,
      labelsOf_plain (plain_read s name)]
    exact .refl _
  | .when condition yes, k => by
    have inside := labelsOf_statements s yes (k + 2)
    rw [Statement.code, labelsOf_append, labelsOf_append, labelsOf_condition, Statement.labels,
      numberedLabels_add_two]
    exact (inside.append_right _).trans List.perm_append_comm
  | .choose condition yes no, k => by
    have inside := (labelsOf_statements s yes (k + 2)).append
      (labelsOf_statements s no (k + 2 + yes.labels))
    rw [← numberedLabels_add] at inside
    rw [Statement.labels, numberedLabels_add_two]
    refine List.Perm.trans ?_ (inside.append_left _)
    simp only [Statement.code, labelsOf_append, labelsOf_condition]
    exact perm_around _ _ _ _
  | .loop condition body, k => by
    have inside := labelsOf_statements s body (k + 2)
    simp only [Statement.code, labelsOf_append, labelsOf_condition, Statement.labels,
      numberedLabels_add_two]
    exact (perm_around [] (label s.cls k) _ (label s.cls (k + 1))).trans (inside.append_left _)
  | .perform call, k => by
    rw [Statement.code, labelsOf_append, labelsOf_plain (plain_call s call)]
    exact .refl _
  | .leave none, k => .refl _
  | .leave (some value), k => by
    rw [Statement.code, labelsOf_append, labelsOf_expression]
    exact .refl _
termination_by structural st => st

theorem labelsOf_statements (s : Scope) : ∀ (ss : Statements) (k : Nat),
    (labelsOf (ss.code s k)).Perm (numberedLabels s.cls k ss.labels)
  | .nil, _ => .refl _
  | .cons first rest, k => by
    rw [Statements.code, labelsOf_append, Statements.labels, numberedLabels_add]
    exact (labelsOf_statement s first k).append (labelsOf_statements s rest _)
termination_by structural ss => ss

end

/-! ## Jumps -/

theorem perm_between (a : String) (xs : List String) (b : String) (ys : List String) :
    ([a] ++ xs ++ [b] ++ ys).Perm ([a, b] ++ (xs ++ ys)) := by
  rw [List.perm_iff_count]
  intro l
  simp only [List.count_append, List.count_cons, List.count_nil]
  omega

theorem targetsOf_expression (s : Scope) (e : Expression) : targetsOf (e.code s) = [] :=
  targetsOf_plain (plain_expression s e)

theorem targetsOf_condition (s : Scope) (e : Expression) (k : Nat) :
    targetsOf (conditionCode s e k) = [label s.cls k] := by
  rw [conditionCode, targetsOf_append, targetsOf_expression]
  rfl

mutual

/-- A statement jumps once to each of its labels, and to no other. -/
theorem targetsOf_statement (s : Scope) : ∀ (st : Statement) (k : Nat),
    (targetsOf (st.code s k)).Perm (labelsOf (st.code s k))
  | .assign name value, k => by
    rw [Statement.code, targetsOf_append, targetsOf_expression,
      targetsOf_plain (plain_write s name), labelsOf_append, labelsOf_expression,
      labelsOf_plain (plain_write s name)]
  | .assignElement name index value, k => by
    simp only [Statement.code, targetsOf_append, targetsOf_expression,
      targetsOf_plain (plain_read s name), labelsOf_append, labelsOf_expression,
      labelsOf_plain (plain_read s name)]
    exact .refl _
  | .when condition yes, k => by
    have inside := targetsOf_statements s yes (k + 2)
    simp only [Statement.code, targetsOf_append, targetsOf_condition, labelsOf_append,
      labelsOf_condition]
    refine (perm_around [] (label s.cls k) _ (label s.cls (k + 1))).trans ?_
    exact (inside.append_left _).trans List.perm_append_comm
  | .choose condition yes no, k => by
    have inside := (targetsOf_statements s yes (k + 2)).append
      (targetsOf_statements s no (k + 2 + yes.labels))
    simp only [Statement.code, targetsOf_append, targetsOf_condition, labelsOf_append,
      labelsOf_condition]
    refine .trans ?_ ((inside.append_left _).trans (perm_around _ _ _ _).symm)
    rw [show targetsOf [.label (label s.cls (k + 1))] = [] from rfl, List.append_nil]
    exact perm_between (label s.cls k) _ (label s.cls (k + 1)) _
  | .loop condition body, k => by
    have inside := targetsOf_statements s body (k + 2)
    simp only [Statement.code, targetsOf_append, targetsOf_condition, labelsOf_append,
      labelsOf_condition]
    refine .trans ?_ ((inside.append_left _).trans
      (perm_around [] (label s.cls k) _ (label s.cls (k + 1))).symm)
    exact (perm_around [] (label s.cls (k + 1)) _ (label s.cls k)).trans
      ((List.Perm.swap _ _ []).append_right _)
  | .perform call, k => by
    rw [Statement.code, targetsOf_append, targetsOf_plain (plain_call s call), labelsOf_append,
      labelsOf_plain (plain_call s call)]
    exact .refl _
  | .leave none, k => .refl _
  | .leave (some value), k => by
    rw [Statement.code, targetsOf_append, targetsOf_expression, labelsOf_append,
      labelsOf_expression]
    exact .refl _
termination_by structural st => st

theorem targetsOf_statements (s : Scope) : ∀ (ss : Statements) (k : Nat),
    (targetsOf (ss.code s k)).Perm (labelsOf (ss.code s k))
  | .nil, _ => .refl _
  | .cons first rest, k => by
    rw [Statements.code, targetsOf_append, labelsOf_append]
    exact (targetsOf_statement s first k).append (targetsOf_statements s rest _)
termination_by structural ss => ss

end

/-! ## Classes -/

/-- How many labels the code of a member has. -/
def Member.labels : Member → Nat
  | statics _ => 0
  | fields _ => 0
  | subroutine r => r.body.labels

/-- How many labels the code of some members has. -/
def membersLabels : List Member → Nat
  | [] => 0
  | m :: ms => m.labels + membersLabels ms

theorem plain_opening (fields : Nat) (kind : SubroutineKind) : PlainCode (opening fields kind) := by
  cases kind <;> simp [opening, PlainCode, Instruction.Plain]

theorem labelsOf_body (cls : String) (inClass : List Declaration) (k : Nat) (r : Subroutine) :
    labelsOf (r.code cls inClass k) = labelsOf (r.body.code (r.scope cls inClass) k) := by
  rw [Subroutine.code]
  cases r.kind <;> rfl

theorem targetsOf_body (cls : String) (inClass : List Declaration) (k : Nat) (r : Subroutine) :
    targetsOf (r.code cls inClass k) = targetsOf (r.body.code (r.scope cls inClass) k) := by
  rw [Subroutine.code]
  cases r.kind <;> rfl

theorem labelsOf_subroutine (cls : String) (inClass : List Declaration) (k : Nat)
    (r : Subroutine) :
    (labelsOf (r.code cls inClass k)).Perm (numberedLabels cls k r.body.labels) := by
  rw [labelsOf_body]
  exact labelsOf_statements (r.scope cls inClass) r.body k

theorem targetsOf_subroutine (cls : String) (inClass : List Declaration) (k : Nat)
    (r : Subroutine) :
    (targetsOf (r.code cls inClass k)).Perm (labelsOf (r.code cls inClass k)) := by
  rw [targetsOf_body, labelsOf_body]
  exact targetsOf_statements (r.scope cls inClass) r.body k

theorem labelsOf_members (cls : String) : ∀ (ms : List Member) (inClass : List Declaration)
    (k : Nat), (labelsOf (membersCode cls inClass k ms)).Perm
      (numberedLabels cls k (membersLabels ms))
  | [], _, _ => .refl _
  | .statics d :: ms, inClass, k => by
    have := labelsOf_members cls ms (inClass ++ (Member.statics d).declarations) k
    simpa [membersCode, membersLabels, Member.labels] using this
  | .fields d :: ms, inClass, k => by
    have := labelsOf_members cls ms (inClass ++ (Member.fields d).declarations) k
    simpa [membersCode, membersLabels, Member.labels] using this
  | .subroutine r :: ms, inClass, k => by
    rw [membersCode, labelsOf_append, membersLabels, numberedLabels_add]
    exact (labelsOf_subroutine cls inClass k r).append (labelsOf_members cls ms inClass _)

/-- Each label of a class is defined once. -/
theorem nodup_class (c : Class) : (labelsOf c.code).Nodup :=
  (labelsOf_members c.name c.members [] 0).nodup_iff.2 (nodup_numberedLabels c.name 0 _)

end Syntax

end Jack
