import Mathlib
import Jack.Proofs.Decoding
import Jack.Proofs.Independence
import Jack.Proofs.OperandBounds
import Jack.Proofs.Syntax.Tally

/-!
# The range of constants

Numbers, lengths of strings and codes of characters are at most 32767 in every source that can be
read, and so are the constants that they become. One constant has another bound: a constructor
pushes the size of the new object, which is the number of fields declared before it, and a class may
have 65535 of them. So all constants of a class are in the range of the machine exactly if no
constructor stands after more than 32767 fields.
-/

namespace Jack

/-- Whether an instruction pushes a constant that is out of range. -/
def Instruction.isLarge : Instruction → Bool
  | push .constant n => maxConstant < n
  | _ => false

theorem Instruction.isLarge_constant {n : ℕ} :
    (push .constant n).isLarge = false ↔ n ≤ 32767 := by
  rw [isLarge, decide_eq_false_iff_not, Nat.not_lt]
  rfl

namespace Syntax

/-! ## Bodies -/

/-- Counts the constants that are out of range. -/
def Tally.large : Tally where
  instruction i := i.isLarge.toNat
  token
    | .int n => (Instruction.push .constant n).isLarge.toNat
    | .string text => total (fun i => i.isLarge.toNat) (stringCode text)
    | _ => 0

theorem fair_large : Tally.large.Fair where
  int _ := rfl
  string _ := rfl
  zero := rfl
  constant _ := rfl
  push segment _ h := by
    cases segment with
    | constant => exact absurd rfl h
    | _ => rfl
  pop _ _ := rfl
  arithmetic _ := rfl
  call _ _ := rfl
  symbol _ := rfl
  identifier _ := rfl
  silent := ⟨rfl, rfl, rfl⟩
  branch _ _ _ _ := rfl
  again := rfl
  leave := rfl

theorem isLarge_stringCode {text : String} (short : text.length ≤ 32767)
    (codes : ∀ c ∈ text.toList, c.toNat ≤ 32767) : ∀ i ∈ stringCode text, i.isLarge = false := by
  unfold stringCode
  simp only [List.forall_mem_cons, List.mem_flatMap]
  refine ⟨Instruction.isLarge_constant.2 short, rfl, ?_⟩
  rintro i ⟨c, hc, hi⟩
  rcases List.mem_cons.1 hi with rfl | hi
  · exact Instruction.isLarge_constant.2 (codes c hc)
  · obtain rfl := List.mem_singleton.1 hi
    rfl

/-- A token that can be read stands for constants in range. -/
theorem large_printable {k : TokenKind} (h : Lexical.Printable k) : Tally.large.token k = 0 := by
  cases k with
  | int n =>
    show (Instruction.push .constant n).isLarge.toNat = 0
    rw [Instruction.isLarge_constant.2 h]
    rfl
  | string text =>
    refine total_eq_zero.2 fun i hi => ?_
    rw [isLarge_stringCode h.2.2.1 h.2.2.2 i hi]
    rfl
  | _ => rfl

theorem isLarge_statements (s : Scope) (k : ℕ) {ss : Statements}
    (printable : ∀ k ∈ ss.tokens, Lexical.Printable k) : ∀ i ∈ ss.code s k, i.isLarge = false := by
  have none : Tally.large.tokens ss.tokens = 0 :=
    total_eq_zero.2 fun k hk => large_printable (printable k hk)
  rw [← fair_large.statements s ss k] at none
  intro i hi
  have weight : i.isLarge.toNat = 0 := total_eq_zero.1 none i hi
  exact Bool.toNat_eq_zero.1 weight

/-! ## Blocks -/

/-- Code for a subroutine in which all constants are in range, apart from the size of the object
that a constructor makes. -/
structure SizeApart (r : Located) (block : List Instruction) : Prop where
  size : r.subroutine.kind = .constructor → block[1]? = some (.push .constant (r.size .field))
  others : ∀ i n, block[i]? = some (.push .constant n) →
    n ≤ 32767 ∨ r.subroutine.kind = .constructor ∧ i = 1

theorem body_tokens_subset {c : Class} {r : Located} (h : r ∈ c.subroutines) :
    r.subroutine.body.tokens ⊆ c.tokens := by
  obtain ⟨after, whole⟩ := Class.exists_after h
  intro k hk
  have inMember : k ∈ (Member.subroutine r.subroutine).tokens := by
    simp [Member.tokens, Subroutine.tail, braces, hk]
  have inMembers : k ∈ c.members.flatMap Member.tokens :=
    List.mem_flatMap.2 ⟨_, by simp [whole], inMember⟩
  simp [Class.tokens, braces, inMembers]

/-- Only the opening of a constructor has a constant, in its first place. -/
theorem opening_constant {kind : SubroutineKind} {fields i n : ℕ}
    (h : (opening fields kind)[i]? = some (.push .constant n)) :
    kind = .constructor ∧ i = 0 := by
  cases kind with
  | constructor => rcases i with _ | _ | _ | i <;> simp [opening] at h ⊢
  | function => simp [opening] at h
  | method => rcases i with _ | _ | i <;> simp [opening] at h

theorem Located.sizeApart {c : Class} (printable : ∀ k ∈ c.tokens, Lexical.Printable k)
    {r : Located} (h : r ∈ c.subroutines) : SizeApart r (r.code c.name) := by
  have fields : countKind .field (r.before.flatMap Member.declarations) = r.size .field :=
    countKind_members .field r.before
  have body := isLarge_statements (r.subroutine.scope c.name (r.before.flatMap Member.declarations))
    (membersLabels r.before) fun k hk => printable k (body_tokens_subset h hk)
  rw [code, Subroutine.code, fields]
  constructor
  · intro constructed
    rw [constructed]
    rfl
  · -- The constant stands in the entry, in the opening or in the body.
    rintro (- | i) n found
    · cases found
    · rw [List.getElem?_cons_succ, List.getElem?_append] at found
      split at found
      · obtain ⟨constructed, rfl⟩ := opening_constant found
        exact .inr ⟨constructed, rfl⟩
      · exact .inl (Instruction.isLarge_constant.1 (body _ (List.mem_of_getElem? found)))

/-- A class has at most 65535 fields, and so has an object. -/
theorem Class.Valid.size_field_le {c : Class} (valid : c.Valid) {r : Located}
    (h : r ∈ c.subroutines) : r.size .field ≤ 65535 := by
  obtain ⟨after, whole⟩ := Class.exists_after h
  have fields := valid.fields
  rw [countKind_members, whole, List.flatMap_append, List.length_append] at fields
  exact (Nat.le_add_right _ _).trans fields

theorem SizeApart.constant {r : Located} {block : List Instruction} (h : SizeApart r block) {n : ℕ}
    (mem : .push .constant n ∈ block) :
    n ≤ 32767 ∨ r.subroutine.kind = .constructor ∧ r.size .field = n := by
  obtain ⟨i, found⟩ := List.mem_iff_getElem?.1 mem
  refine (h.others i n found).imp_right ?_
  rintro ⟨constructed, rfl⟩
  have size := h.size constructed
  rw [found, Option.some.injEq, Instruction.push.injEq] at size
  exact ⟨constructed, size.2.symm⟩

end Syntax

open Syntax

/-- In the code of every source that compiles, all constants but the sizes of new objects are at
most 32767, and these sizes are at most 65535. So all constants are in the range of the machine
exactly if no constructor stands after more than 32767 fields. -/
theorem constants_in_range_iff {source text : String} (h : compile source = .ok text) :
    ∃ c code, Compiled source c code ∧ readCode text = some code ∧
      List.Forall₂ SizeApart c.subroutines (blocks code) ∧
      (∀ n, .push .constant n ∈ code → n ≤ 65535) ∧
      ((∀ n, .push .constant n ∈ code → n ≤ 32767) ↔
        ∀ r ∈ c.subroutines, r.subroutine.kind = .constructor → r.size .field ≤ 32767) := by
  obtain ⟨c, code, compiled, rfl⟩ := exists_compiled h
  obtain ⟨valid, rfl⟩ := compiled.valid_and_code
  obtain ⟨tokens, scanned, same⟩ := compiled.tokens
  have printable : ∀ k ∈ c.tokens, Lexical.Printable k := by
    rw [same]
    exact Lexical.printable_of_scan scanned
  have apart {r : Located} (mem : r ∈ c.subroutines) : SizeApart r (r.code c.name) :=
    Located.sizeApart printable mem
  refine ⟨c, _, compiled, compiled.readCode_eq, ?_, ?_, ?_, ?_⟩
  · rw [blocks_class, List.forall₂_map_right_iff, List.forall₂_same]
    exact fun r mem => apart mem
  · intro n mem
    obtain ⟨r, hr, mem⟩ := mem_code_class.1 mem
    rcases (apart hr).constant mem with small | ⟨-, rfl⟩
    · omega
    · exact valid.size_field_le hr
  · intro small r hr constructed
    refine small _ (mem_code_class.2 ⟨r, hr, ?_⟩)
    exact List.mem_of_getElem? ((apart hr).size constructed)
  · intro sizes n mem
    obtain ⟨r, hr, mem⟩ := mem_code_class.1 mem
    rcases (apart hr).constant mem with small | ⟨constructed, rfl⟩
    · exact small
    · exact sizes r hr constructed

/-! ## Bulky objects -/

/-- A constructor with the largest number and a string in its body. -/
def bulkyNew : Subroutine where
  kind := .constructor
  returns := .data (.named "A")
  name := "new"
  parameters := []
  locals := []
  body :=
    .cons
      (.perform (.own "f" (.cons (.mk (.int 32767) .nil) (.cons (.mk (.string "é") .nil) .nil))))
      (.cons (.leave (some (.mk (.constant .this) .nil))) .nil)

/-- A declaration of `more + 1` names. -/
def bulkyFields (more : ℕ) : Names where
  type := .int
  first := "x"
  more := List.replicate more "x"

/-- A class with `more + 1` fields before its constructor. -/
def bulky (more : ℕ) : Syntax.Class where
  name := "A"
  members := [.fields (bulkyFields more), .subroutine bulkyNew]

/-- The text of a bulky class. -/
def bulkySource (more : ℕ) : String :=
  .ofList (Lexical.spaced (bulky more).tokens)

/-- The code of a bulky class. -/
def bulkyCode (more : ℕ) : List Instruction :=
  [.function "A.new" 0, .push .constant (more + 1), .call "Memory.alloc" 1, .pop .pointer 0,
    .push .pointer 0, .push .constant 32767, .push .constant 1, .call "String.new" 1,
    .push .constant 233, .call "String.appendChar" 2, .call "A.f" 3, .pop .temp 0,
    .push .pointer 0, .return]

theorem length_bulkyFields (more : ℕ) : (bulkyFields more).names.length = more + 1 := by
  simp [bulkyFields, Names.names]

theorem bulky_code (more : ℕ) : (bulky more).code = bulkyCode more := by
  have fields : countKind .field ((bulkyFields more).declarations .field) = more + 1 := by
    rw [countKind_names, if_pos rfl, length_bulkyFields]
  have body (s : Scope) (h : s.cls = "A") : bulkyNew.body.code s 0 = (bulkyCode 0).drop 4 := by
    obtain ⟨cls, resolve⟩ := s
    obtain rfl : cls = "A" := h
    cbv
  show .function _ _ :: (opening (countKind .field _) .constructor ++
    bulkyNew.body.code _ 0 ++ []) = _
  rw [body _ rfl, List.nil_append, Member.declarations, fields]
  rfl

theorem bulky_valid {more : ℕ} (h : more < 65535) : (bulky more).Valid where
  statics := by
    rw [countKind_members]
    simp [bulky, Member.names]
  fields := by
    rw [countKind_members]
    simp [bulky, Member.names, length_bulkyFields]
    omega
  members := by
    refine ⟨⟨?_, ?_, ?_⟩, trivial⟩
    · exact Nat.zero_le _
    · exact Nat.zero_le _
    · have short : "é".length ≤ 32767 := by decide
      simp [bulkyNew, Statements.Valid, Statement.Valid, Call.Valid, Arguments.Valid,
        Expression.Valid, Term.Valid, Chain.Valid, Arguments.length, short]

set_option maxRecDepth 40000 in
theorem bulky_tokens : (scan ("class A \x7b field int x, x; constructor A new() " ++
    "\x7b do f(32767, \"é\"); return this; \x7d \x7d")).map (List.map Token.kind) =
      .ok (bulky 1).tokens := by
  cbv

/-- More names make no other tokens. -/
theorem bulky_tokens_subset (more : ℕ) : (bulky more).tokens ⊆ (bulky 1).tokens := by
  have tail : nameTail (List.replicate more "x") ⊆ nameTail ["x"] := by
    intro k hk
    obtain ⟨name, repeated, hk⟩ := List.mem_flatMap.1 hk
    obtain rfl := List.eq_of_mem_replicate repeated
    exact List.mem_flatMap.2 ⟨_, List.mem_singleton_self _, hk⟩
  intro k hk
  have inTail : k ∈ nameTail (List.replicate more "x") → k ∈ nameTail ["x"] := @tail k
  simp [Class.tokens, bulky, bulkyFields, braces, Member.tokens, Names.tokens] at hk ⊢
  grind

theorem bulky_printable (more : ℕ) : ∀ k ∈ (bulky more).tokens, Lexical.Printable k :=
  fun k hk => Lexical.printable_of_kinds bulky_tokens k (bulky_tokens_subset more hk)

theorem bulky_compiled {more : ℕ} (h : more < 65535) :
    Compiled (bulkySource more) (bulky more) (bulkyCode more) := by
  have printed : Lexical.Printed (bulky more).tokens (bulkySource more).toList := by
    rw [bulkySource, String.toList_ofList]
    exact Lexical.printed_spaced _
  obtain ⟨tokens, scanned, same⟩ := Lexical.scan_printed (bulky_printable more) printed
  rw [← bulky_code]
  exact compiled_of_valid (bulky_valid h) ⟨tokens, scanned, same.symm⟩

theorem bulky_size {more : ℕ} {r : Located} (h : r ∈ (bulky more).subroutines) :
    r.size .field = more + 1 := by
  obtain rfl : r = ⟨[.fields (bulkyFields more)], bulkyNew⟩ := List.mem_singleton.1 h
  exact (congrArg List.length (List.append_nil _)).trans (length_bulkyFields more)

/-- With 32767 fields, an object has the largest size that is in range. -/
theorem bulky_in_range :
    ∃ text, compile (bulkySource 32766) = .ok text ∧ readCode text = some (bulkyCode 32766) ∧
      ∀ n, .push .constant n ∈ bulkyCode 32766 → n ≤ 32767 := by
  have known : Compiled (bulkySource 32766) (bulky 32766) (bulkyCode 32766) :=
    bulky_compiled (by decide)
  obtain ⟨c, code, compiled, read, -, -, inRange⟩ := constants_in_range_iff known.text
  obtain ⟨rfl, rfl⟩ := compiled.unique known
  refine ⟨_, known.text, read, inRange.2 ?_⟩
  intro r hr _
  exact (bulky_size hr).le

/-- With one field more, its size is out of range. -/
theorem bulky_out_of_range :
    ∃ text, compile (bulkySource 32767) = .ok text ∧ readCode text = some (bulkyCode 32767) ∧
      ¬ ∀ n, .push .constant n ∈ bulkyCode 32767 → n ≤ 32767 := by
  have known : Compiled (bulkySource 32767) (bulky 32767) (bulkyCode 32767) :=
    bulky_compiled (by decide)
  refine ⟨_, known.text, known.readCode_eq, fun small => ?_⟩
  have size := small 32768 (List.mem_cons_of_mem _ List.mem_cons_self)
  omega

end Jack
