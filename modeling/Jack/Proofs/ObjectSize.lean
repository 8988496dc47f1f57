import Mathlib
import Jack.Proofs.Decoding
import Jack.Proofs.Independence
import Jack.Proofs.OperandBounds

/-!
# The size of objects

A constructor makes an object with a word for each field that is declared before the constructor.
Fields are numbered in the order of the text, and code addresses them by their numbers. So a field
is inside of the object exactly if its declaration stands before the constructor. Code for other
fields addresses memory behind the object.
-/

namespace Jack

namespace Syntax

/-! ## Numbers of variables -/

/-- The names of a kind that are declared, in order. -/
def namesOf (kind : Kind) (ds : List Declaration) : List String :=
  (ds.filter (·.kind = kind)).map Declaration.name

theorem namesOf_append (kind : Kind) (ds ds' : List Declaration) :
    namesOf kind (ds ++ ds') = namesOf kind ds ++ namesOf kind ds' := by
  simp [namesOf]

theorem length_namesOf (kind : Kind) (ds : List Declaration) :
    (namesOf kind ds).length = countKind kind ds := by
  rw [namesOf, List.length_map, countKind, List.countP_eq_length_filter]

/-- The number of a variable is the place of its name among the names of its kind. -/
theorem getElem?_namesOf {name : String} {ds : List Declaration} {v : Variable}
    (h : latest name ds = some v) : (namesOf v.kind ds.reverse)[v.index]? = some name := by
  induction ds with
  | nil => cases h
  | cons d earlier ih =>
    rw [List.reverse_cons, namesOf_append]
    rw [latest] at h
    split at h
    · next same =>
      cases h
      have place : (namesOf d.kind earlier.reverse).length = countKind d.kind earlier := by
        rw [length_namesOf, Declared.countKind_reverse]
      rw [List.getElem?_append_right place.le, place, Nat.sub_self]
      simp [namesOf, same]
    · have found := ih h
      obtain ⟨inside, -⟩ := List.getElem?_eq_some_iff.1 found
      rwa [List.getElem?_append_left inside]

theorem namesOf_members (kind : Kind) (ms : List Member) :
    namesOf kind (ms.flatMap Member.declarations) = ms.flatMap (Member.names kind) := by
  induction ms with
  | nil => rfl
  | cons m ms ih =>
    rw [List.flatMap_cons, List.flatMap_cons, namesOf_append, ih]
    congr 1
    cases m <;> cases kind <;>
      simp [namesOf, Member.declarations, Member.names, Names.declarations, Names.names,
        List.filter_map, Function.comp_def]

/-! ## Fields -/

/-- The fields of a class in order. -/
def Class.fieldNames (c : Class) : List String :=
  c.members.flatMap (Member.names .field)

/-- The fields that are declared before a subroutine, in order. -/
def Located.fieldNames (r : Located) : List String :=
  r.before.flatMap (Member.names .field)

/-- A name stands in a subroutine for the field with some number. -/
def Located.Refers (cls : String) (r : Located) (name : String) (i : ℕ) : Prop :=
  ∃ type, (r.subroutine.scope cls (r.before.flatMap Member.declarations)).resolve? name =
    some ⟨type, .field, i⟩

theorem Located.Refers.getElem? {cls name : String} {r : Located} {i : ℕ}
    (h : r.Refers cls name i) : r.fieldNames[i]? = some name := by
  obtain ⟨type, h⟩ := h
  rcases Option.or_eq_some_iff.1 h with here | ⟨-, outside⟩
  · -- A subroutine declares no fields.
    have found := List.mem_of_getElem? (getElem?_namesOf here)
    rw [List.reverse_reverse] at found
    simp only [namesOf, List.mem_map, List.mem_filter, decide_eq_true_eq] at found
    obtain ⟨d, ⟨mem, isField⟩, -⟩ := found
    rcases Declared.kind_of_mem_declarations d mem with other | other <;> simp [isField] at other
  · have found := getElem?_namesOf outside
    rwa [List.reverse_reverse, namesOf_members] at found

/-- The fields before a subroutine are the first fields of its class. -/
theorem getElem?_fieldNames {c : Class} {r : Located} (h : r ∈ c.subroutines) {i : ℕ}
    (inside : i < r.fieldNames.length) : c.fieldNames[i]? = r.fieldNames[i]? := by
  obtain ⟨after, whole⟩ := Class.exists_after h
  rw [Class.fieldNames, whole, List.flatMap_append]
  exact List.getElem?_append_left inside

end Syntax

/-! ## Code for fields -/

/-- Code that reads field `i` of the current object, or assigns to it. -/
def Addresses (code : List Instruction) (i : ℕ) : Prop :=
  .push .this i ∈ code ∨ .pop .this i ∈ code

theorem addresses_append {code code' : List Instruction} {i : ℕ} :
    Addresses (code ++ code') i ↔ Addresses code i ∨ Addresses code' i := by
  simp only [Addresses, List.mem_append]
  tauto

namespace Syntax

theorem InBody.refers {s : Scope} {x : Instruction} {i : ℕ} (h : InBody s x)
    (field : x = .push .this i ∨ x = .pop .this i) :
    ∃ name type, s.resolve? name = some ⟨type, .field, i⟩ := by
  cases h with
  | expression h =>
    cases h with
    | @read name v h =>
      obtain ⟨type, kind, index⟩ := v
      cases kind <;> simp [load, segmentOf] at field
      exact ⟨name, type, by rw [h, field]⟩
    | _ => simp at field
  | @write name v h =>
    obtain ⟨type, kind, index⟩ := v
    cases kind <;> simp [save, segmentOf] at field
    exact ⟨name, type, by rw [h, field]⟩
  | _ => simp at field

theorem not_addresses_opening (fields i : ℕ) (kind : SubroutineKind) :
    ¬ Addresses (opening fields kind) i := by
  cases kind <;> simp [Addresses, opening]

/-- A subroutine addresses only fields that it has a name for. -/
theorem Located.refers_of_addresses {cls : String} {r : Located} {i : ℕ}
    (h : Addresses (r.code cls) i) : ∃ name, r.Refers cls name i := by
  rw [code, Subroutine.code, ← List.singleton_append, addresses_append, addresses_append] at h
  rcases h with entry | opened | read | assigned
  · simp [Addresses] at entry
  · exact absurd opened (not_addresses_opening _ _ _)
  · exact (inBody_statements _ _ _ _ read).refers (.inl rfl)
  · exact (inBody_statements _ _ _ _ assigned).refers (.inr rfl)

/-- How an object of `n` words that is made in `r` serves a subroutine `r'` of the class that
addresses field `i`. The field is inside of the object exactly if it is declared before `r`. So it
is inside if `r'` is `r` itself or stands before it, and if no field is declared after `r`. -/
structure Serves (c : Class) (r r' : Located) (n i : ℕ) : Prop where
  inside : ∃ name, r'.Refers c.name name i ∧ c.fieldNames[i]? = some name ∧
    (i < n ↔ r.fieldNames[i]? = some name)
  earlier : r'.before <+: r.before → i < n
  complete : r.fieldNames = c.fieldNames → i < n

theorem Located.serves {c : Class} {r r' : Located} (h : r ∈ c.subroutines)
    (h' : r' ∈ c.subroutines) {i : ℕ} (addressed : Addresses (r'.code c.name) i) :
    Serves c r r' (r.size .field) i := by
  obtain ⟨name, refers⟩ := refers_of_addresses addressed
  have declared : r'.fieldNames[i]? = some name := refers.getElem?
  have known : i < r'.fieldNames.length := (List.getElem?_eq_some_iff.1 declared).1
  have inClass : c.fieldNames[i]? = some name := (getElem?_fieldNames h' known).trans declared
  refine ⟨⟨name, refers, inClass, ?_, ?_⟩, ?_, ?_⟩
  · exact fun inside => (getElem?_fieldNames h inside).symm.trans inClass
  · exact fun before => (List.getElem?_eq_some_iff.1 before).1
  · exact fun earlier => known.trans_le (earlier.flatMap _).length_le
  · intro complete
    rw [← complete] at inClass
    exact (List.getElem?_eq_some_iff.1 inClass).1

theorem mem_zip_blocks {c : Class} {r : Located} {block : List Instruction}
    (h : (r, block) ∈ c.subroutines.zip (blocks c.code)) :
    r ∈ c.subroutines ∧ block = r.code c.name := by
  have each : List.Forall₂ (fun r block => r ∈ c.subroutines ∧ block = r.code c.name)
      c.subroutines (blocks c.code) := by
    rw [blocks_class, List.forall₂_map_right_iff, List.forall₂_same]
    exact fun r mem => ⟨mem, rfl⟩
  exact List.forall₂_zip each h

end Syntax

open Syntax

/-- In every source that compiles, a constructor makes an object with a word for each field that is
declared before it. Where code of the class addresses field `i`, this is field `i` of the class, and
it is inside of the object exactly if it is declared before the constructor. -/
theorem objects_hold_earlier_fields {source text : String} (h : compile source = .ok text) :
    ∃ c code, Compiled source c code ∧ readCode text = some code ∧
      (blocks code).length = c.subroutines.length ∧
      ∀ r block, (r, block) ∈ c.subroutines.zip (blocks code) →
        r.subroutine.kind = .constructor → ∃ n, n = r.fieldNames.length ∧
          block.tail.take 3 = [.push .constant n, .call "Memory.alloc" 1, .pop .pointer 0] ∧
          ∀ r' block', (r', block') ∈ c.subroutines.zip (blocks code) →
            ∀ i, Addresses block' i → Serves c r r' n i := by
  obtain ⟨c, code, compiled, rfl⟩ := exists_compiled h
  obtain ⟨-, rfl⟩ := compiled.valid_and_code
  refine ⟨c, _, compiled, compiled.readCode_eq, by rw [blocks_class, List.length_map], ?_⟩
  intro r block mem constructed
  obtain ⟨hr, rfl⟩ := mem_zip_blocks mem
  refine ⟨_, rfl, (r.inBounds c.name).object constructed, ?_⟩
  intro r' block' mem' i addressed
  obtain ⟨hr', rfl⟩ := mem_zip_blocks mem'
  exact Located.serves hr hr' addressed

/-- A class with a field before its constructor, and one after it. -/
def lateSource : String :=
  "class A\x7bfield int a;constructor A new()\x7blet a=1;return this;\x7dfield int b;" ++
    "method int f()\x7blet b=a;return b;\x7d\x7d"

/-- The constructor of `lateSource`. -/
def lateNew : Subroutine where
  kind := .constructor
  returns := .data (.named "A")
  name := "new"
  parameters := []
  locals := []
  body := .cons (.assign "a" (.mk (.int 1) .nil))
    (.cons (.leave (some (.mk (.constant .this) .nil))) .nil)

/-- The method of `lateSource`. -/
def lateGet : Subroutine where
  kind := .method
  returns := .data .int
  name := "f"
  parameters := []
  locals := []
  body := .cons (.assign "b" (.mk (.var "a") .nil))
    (.cons (.leave (some (.mk (.var "b") .nil))) .nil)

/-- The tree of `lateSource`. -/
def lateClass : Syntax.Class where
  name := "A"
  members :=
    [.fields ⟨.int, "a", []⟩, .subroutine lateNew, .fields ⟨.int, "b", []⟩, .subroutine lateGet]

/-- The code of `lateSource`, one list for each subroutine. -/
def lateBlocks : List (List Instruction) :=
  [[.function "A.new" 0, .push .constant 1, .call "Memory.alloc" 1, .pop .pointer 0,
      .push .constant 1, .pop .this 0, .push .pointer 0, .return],
    [.function "A.f" 0, .push .argument 0, .pop .pointer 0, .push .this 0, .pop .this 1,
      .push .this 1, .return]]

set_option maxRecDepth 40000 in
theorem late_tokens : (scan lateSource).map (List.map Token.kind) = .ok lateClass.tokens := by
  cbv

set_option maxRecDepth 40000 in
theorem late_emitted :
    compileInto lateSource ({} : Listing) = .ok () ⟨lateBlocks.flatten.reverse⟩ := by
  cbv

theorem late_served :
    Serves lateClass ⟨lateClass.members.take 1, lateNew⟩ ⟨lateClass.members.take 3, lateGet⟩ 1 0 ∧
      Serves lateClass ⟨lateClass.members.take 1, lateNew⟩ ⟨lateClass.members.take 3, lateGet⟩
        1 1 := by
  obtain ⟨c, code, compiled, -, -, objects⟩ :=
    objects_hold_earlier_fields (compile_of_listing late_emitted)
  obtain rfl := compiled.class_unique late_tokens
  obtain rfl := compiled.code_unique late_emitted
  have cut : blocks lateBlocks.flatten = lateBlocks := by decide
  rw [cut] at objects
  obtain ⟨n, rfl, -, serves⟩ := objects _ _ List.mem_cons_self rfl
  have second := serves _ _ (List.mem_cons_of_mem _ List.mem_cons_self)
  exact ⟨second 0 (by simp [Addresses]), second 1 (by simp [Addresses])⟩

/-- The method assigns to a word behind the object that the constructor makes. -/
theorem late_field_outside :
    ∃ text code, compile lateSource = .ok text ∧ readCode text = some code ∧
      ¬ ∀ n i, [.push .constant n, .call "Memory.alloc" 1, .pop .pointer 0] <:+: code →
        (.push .this i ∈ code ∨ .pop .this i ∈ code) → i < n := by
  obtain ⟨c, code, compiled, -⟩ := exists_compiled (compile_of_listing late_emitted)
  obtain rfl := compiled.code_unique late_emitted
  refine ⟨_, _, compiled.text, compiled.readCode_eq, fun inside => ?_⟩
  have object : [.push .constant 1, .call "Memory.alloc" 1, .pop .pointer 0] <:+:
      lateBlocks.flatten := by decide
  have field : .push .this 1 ∈ lateBlocks.flatten := by decide
  exact absurd (inside 1 1 object (.inl field)) (Nat.lt_irrefl 1)

end Jack
