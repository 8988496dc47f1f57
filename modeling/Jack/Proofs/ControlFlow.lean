import Mathlib
import Jack.Proofs.Decoding
import Jack.Proofs.Syntax.Blocks
import Jack.Proofs.Syntax.Tally

/-!
# Control flow can be counted in the source

Each subroutine becomes one function, each `if` and `while` becomes two labels and two jumps, and
each `return` becomes one return. These words stand nowhere else in a class that compiles. So the
functions of the code, and how many labels, jumps and returns it has, can be read off the tokens,
without a look at the grammar.
-/

namespace Jack

/-! ## Functions -/

/-- The name of the function that an instruction is the entry of. -/
def Instruction.function? : Instruction → Option String
  | function f _ => some f
  | _ => none

/-- The names of the functions in some code, in order. -/
def functionsOf (code : List Instruction) : List String :=
  code.filterMap Instruction.function?

/-- Whether a token starts a subroutine. -/
def TokenKind.startsSubroutine : TokenKind → Bool
  | keyword .constructor => true
  | keyword .function => true
  | keyword .method => true
  | _ => false

/-- What stands two tokens after each token that starts a subroutine, in order. -/
def subroutineNames : List TokenKind → List (Option TokenKind)
  | [] => []
  | k :: kinds =>
    if k.startsSubroutine then kinds[1]? :: subroutineNames kinds else subroutineNames kinds

theorem length_subroutineNames (kinds : List TokenKind) :
    (subroutineNames kinds).length = kinds.countP TokenKind.startsSubroutine := by
  induction kinds with
  | nil => rfl
  | cons k kinds ih =>
    by_cases h : k.startsSubroutine
    · rw [subroutineNames, if_pos h, List.countP_cons_of_pos h, List.length_cons, ih]
    · rw [subroutineNames, if_neg h, List.countP_cons_of_neg h, ih]

theorem subroutineNames_append {kinds : List TokenKind}
    (none : ∀ k ∈ kinds, k.startsSubroutine = false) (rest : List TokenKind) :
    subroutineNames (kinds ++ rest) = subroutineNames rest := by
  induction kinds with
  | nil => rfl
  | cons k kinds ih =>
    obtain ⟨first, others⟩ := List.forall_mem_cons.1 none
    rw [List.cons_append, subroutineNames, first]
    exact ih others

namespace Syntax

/-- Counts the words that start a subroutine, and no instruction. -/
def Tally.subroutines : Tally where
  instruction _ := 0
  token k := k.startsSubroutine.toNat

theorem fair_subroutines : Tally.subroutines.Fair where
  int _ := rfl
  string _ := total_eq_zero.2 fun _ _ => rfl
  zero := rfl
  constant c := by cases c <;> rfl
  push _ _ _ := rfl
  pop _ _ := rfl
  arithmetic _ := rfl
  call _ _ := rfl
  symbol _ := rfl
  identifier _ := rfl
  silent := ⟨rfl, rfl, rfl⟩
  branch _ _ _ _ := rfl
  again := rfl
  leave := rfl

theorem startsSubroutine_of_declarationToken {k : TokenKind} (h : DeclarationToken k) :
    k.startsSubroutine = false := by
  cases h with
  | type type => cases type <;> rfl
  | _ => rfl

/-- No subroutine starts inside a subroutine. -/
theorem startsSubroutine_tail (r : Subroutine) : ∀ k ∈ r.tail, k.startsSubroutine = false := by
  have declared (k : TokenKind) (h : DeclarationToken k) : Tally.subroutines.token k = 0 := by
    show k.startsSubroutine.toNat = 0
    rw [startsSubroutine_of_declarationToken h]
    rfl
  have body : Tally.subroutines.tokens r.body.tokens = 0 := by
    rw [← fair_subroutines.statements (r.scope "" []) r.body 0]
    exact total_eq_zero.2 fun _ _ => rfl
  have whole := (Tally.tokens_subroutine declared r).trans body
  intro k hk
  have weight : k.startsSubroutine.toNat = 0 := total_eq_zero.1 whole k hk
  exact Bool.toNat_eq_zero.1 weight

theorem subroutineNames_names (word : Keyword)
    (h : (TokenKind.keyword word).startsSubroutine = false) (d : Names) (rest : List TokenKind) :
    subroutineNames (.keyword word :: d.tokens ++ rest) = subroutineNames rest := by
  refine subroutineNames_append (List.forall_mem_cons.2 ⟨h, fun k hk => ?_⟩) rest
  exact startsSubroutine_of_declarationToken (declarationToken_names d k hk)

theorem subroutineNames_subroutine (r : Subroutine) (rest : List TokenKind) :
    subroutineNames ((Member.subroutine r).tokens ++ rest) =
      some (.identifier r.name) :: subroutineNames rest := by
  have word : (TokenKind.keyword (subroutineKeyword r.kind)).startsSubroutine = true := by
    cases r.kind <;> rfl
  have name : (r.tail ++ rest)[1]? = some (.identifier r.name) := rfl
  rw [Member.tokens, List.cons_append, subroutineNames, if_pos word, name,
    subroutineNames_append (startsSubroutine_tail r)]

theorem subroutineNames_members (ms before : List Member) {rest : List TokenKind}
    (done : subroutineNames rest = []) :
    subroutineNames (ms.flatMap Member.tokens ++ rest) =
      (locatedAfter before ms).map fun r => some (.identifier r.subroutine.name) := by
  induction ms generalizing before with
  | nil => exact done
  | cons m ms ih =>
    rw [List.flatMap_cons, List.append_assoc]
    cases m with
    | statics d =>
      rw [Member.tokens, subroutineNames_names .static rfl]
      exact ih _
    | fields d =>
      rw [Member.tokens, subroutineNames_names .field rfl]
      exact ih _
    | subroutine r =>
      rw [subroutineNames_subroutine, ih (before ++ [.subroutine r])]
      rfl

theorem subroutineNames_class (c : Class) :
    subroutineNames c.tokens =
      c.subroutines.map fun r => some (.identifier r.subroutine.name) :=
  subroutineNames_members c.members [] rfl

/-- A subroutine becomes one function. -/
theorem functionsOf_subroutine (cls : String) (inClass : List Declaration) (k : ℕ)
    (r : Subroutine) : functionsOf (r.code cls inClass k) = [cls ++ "." ++ r.name] := by
  obtain ⟨f, n, body, block, inside⟩ := isBlock_subroutine cls inClass k r
  have entry : f = cls ++ "." ++ r.name := by
    rw [Subroutine.code] at block
    cases block
    rfl
  have none : functionsOf body = [] := by
    refine List.filterMap_eq_nil_iff.2 fun i hi => ?_
    have other := inside i hi
    cases i with
    | function g m => cases other
    | _ => rfl
  rw [block, entry]
  exact congrArg (_ :: ·) none

theorem functionsOf_class (c : Class) :
    functionsOf c.code = c.subroutines.map fun r => c.name ++ "." ++ r.subroutine.name := by
  rw [code_class]
  induction c.subroutines with
  | nil => rfl
  | cons r rs ih =>
    rw [List.map_cons, List.flatten_cons, functionsOf, List.filterMap_append]
    exact congrArg₂ (· ++ ·) (functionsOf_subroutine _ _ _ _) ih

end Syntax

/-! ## Labels, jumps and returns -/

/-- The instructions that statements direct control with. -/
inductive Mark where
  | label | ifGoto | goto | leave
deriving DecidableEq, Repr

namespace Mark

/-- Whether an instruction is of this sort. -/
def marks : Mark → Instruction → Bool
  | label, .label _ => true
  | ifGoto, .ifGoto _ => true
  | goto, .goto _ => true
  | leave, .return => true
  | _, _ => false

/-- How many such instructions each `if` and each `while` becomes. -/
def perBranch : Mark → ℕ
  | label => 2
  | ifGoto => 1
  | goto => 1
  | leave => 0

/-- How many such instructions each `return` becomes. -/
def perReturn : Mark → ℕ
  | leave => 1
  | _ => 0

end Mark

namespace Syntax

/-- Counts the instructions of a sort, and what the words of statements become. -/
def Tally.ofMark (m : Mark) : Tally where
  instruction i := (m.marks i).toNat
  token k := m.perBranch * k.branches.toNat + m.perReturn * (k == .keyword .return).toNat

theorem marks_plain (m : Mark) {i : Instruction} (h : i.Plain) : m.marks i = false := by
  cases i with
  | label _ => exact h.elim
  | goto _ => exact h.elim
  | ifGoto _ => exact h.elim
  | function _ _ => exact h.elim
  | «return» => exact h.elim
  | _ => cases m <;> rfl

theorem code_plain (m : Mark) {code : List Instruction} (h : PlainCode code) :
    (Tally.ofMark m).code code = 0 := by
  refine total_eq_zero.2 fun i hi => ?_
  show (m.marks i).toNat = 0
  rw [marks_plain m (h i hi)]
  rfl

theorem fair_ofMark (m : Mark) : (Tally.ofMark m).Fair where
  int _ := by cases m <;> rfl
  string text := by
    have plain : PlainCode (stringCode text) := plain_string ⟨"", fun _ => none⟩ text
    rw [code_plain m plain]
    cases m <;> rfl
  zero := by cases m <;> rfl
  constant c := by cases m <;> cases c <;> rfl
  push _ _ _ := by cases m <;> rfl
  pop _ _ := by cases m <;> rfl
  arithmetic _ := by cases m <;> rfl
  call _ _ := by cases m <;> rfl
  symbol _ := by cases m <;> rfl
  identifier _ := by cases m <;> rfl
  silent := by cases m <;> exact ⟨rfl, rfl, rfl⟩
  branch _ _ _ _ := by cases m <;> rfl
  again := by cases m <;> rfl
  leave := by cases m <;> rfl

theorem tokens_ofMark (m : Mark) (kinds : List TokenKind) :
    (Tally.ofMark m).tokens kinds =
      m.perBranch * branchings kinds + m.perReturn * kinds.count (.keyword .return) := by
  unfold branchings List.count
  rw [countP_eq_total, countP_eq_total]
  induction kinds with
  | nil => rfl
  | cons k kinds ih =>
    rw [Tally.tokens_cons, total_cons, total_cons, ih]
    simp only [Tally.ofMark]
    ring

theorem code_ofMark (m : Mark) (code : List Instruction) :
    (Tally.ofMark m).code code = code.countP m.marks :=
  (countP_eq_total m.marks code).symm

theorem ofMark_declared (m : Mark) {k : TokenKind} (h : DeclarationToken k) :
    (Tally.ofMark m).token k = 0 := by
  cases h with
  | type type => cases m <;> cases type <;> rfl
  | _ => cases m <;> rfl

/-- Neither the entry of a subroutine nor what it does first is a jump, a label or a return. -/
theorem ofMark_subroutine (m : Mark) (cls : String) (inClass : List Declaration) (k : ℕ)
    (r : Subroutine) :
    (Tally.ofMark m).code (r.code cls inClass k) =
      (Tally.ofMark m).tokens (Member.subroutine r).tokens := by
  have head : (Tally.ofMark m).code (opening (countKind .field inClass) r.kind) = 0 :=
    code_plain m (plain_opening _ _)
  have entry (f : String) (n : ℕ) : (Tally.ofMark m).instruction (.function f n) = 0 := by
    cases m <;> rfl
  have word : (Tally.ofMark m).token (.keyword (subroutineKeyword r.kind)) = 0 := by
    cases m <;> cases r.kind <;> rfl
  rw [Subroutine.code, Tally.code_cons, Tally.code_append, entry, head,
    (fair_ofMark m).statements, Member.tokens, Tally.tokens_cons, word,
    Tally.tokens_subroutine fun k => ofMark_declared m]
  omega

theorem ofMark_members (m : Mark) (cls : String) (ms : List Member)
    (inClass : List Declaration) (k : ℕ) :
    (Tally.ofMark m).code (membersCode cls inClass k ms) =
      (Tally.ofMark m).tokens (ms.flatMap Member.tokens) := by
  have names (d : Names) := Tally.tokens_names (fun k => ofMark_declared m) d
  induction ms generalizing inClass k with
  | nil => rfl
  | cons member ms ih =>
    rw [List.flatMap_cons, Tally.tokens_append]
    cases member with
    | statics d =>
      have word : (Tally.ofMark m).token (.keyword .static) = 0 := by cases m <;> rfl
      rw [Member.tokens, Tally.tokens_cons, word, names, Nat.zero_add]
      exact ih _ _
    | fields d =>
      have word : (Tally.ofMark m).token (.keyword .field) = 0 := by cases m <;> rfl
      rw [Member.tokens, Tally.tokens_cons, word, names, Nat.zero_add]
      exact ih _ _
    | subroutine r =>
      rw [membersCode, Tally.code_append, ih, ofMark_subroutine]

/-- The instructions of a sort in the code of a class, counted in its tokens. -/
theorem countP_marks_class (m : Mark) (c : Class) :
    c.code.countP m.marks =
      m.perBranch * branchings c.tokens + m.perReturn * c.tokens.count (.keyword .return) := by
  have word : (Tally.ofMark m).token (.keyword .class) = 0 := by cases m <;> rfl
  have name := ofMark_declared m (.identifier c.name)
  rw [← code_ofMark, ← tokens_ofMark, Class.code, ofMark_members, Class.tokens,
    Tally.tokens_append, (fair_ofMark m).tokens_braces, Tally.tokens_cons, Tally.tokens_cons, word,
    name]
  simp

end Syntax

/-! ## Compiled code -/

/-- The control flow of the code of a class `cls` is what its tokens say. -/
structure Census (cls : String) (kinds : List TokenKind) (code : List Instruction) : Prop where
  /-- The functions are those whose names stand two tokens after the words that start them. -/
  named : ∃ names : List String, functionsOf code = names.map (fun s => cls ++ "." ++ s) ∧
    subroutineNames kinds = names.map fun s => some (.identifier s)
  functions : (functionsOf code).length = kinds.countP TokenKind.startsSubroutine
  labels : code.countP Mark.label.marks = 2 * branchings kinds
  branches : code.countP Mark.ifGoto.marks = branchings kinds
  jumps : code.countP Mark.goto.marks = branchings kinds
  returns : code.countP Mark.leave.marks = kinds.count (.keyword .return)

theorem Syntax.census_class (c : Syntax.Class) : Census c.name c.tokens c.code := by
  have names : subroutineNames c.tokens =
      (c.subroutines.map fun r => r.subroutine.name).map fun s => some (.identifier s) := by
    rw [subroutineNames_class, List.map_map]
    rfl
  have functions : functionsOf c.code =
      (c.subroutines.map fun r => r.subroutine.name).map fun s => c.name ++ "." ++ s := by
    rw [functionsOf_class, List.map_map]
    rfl
  refine ⟨⟨_, functions, names⟩, ?_, ?_, ?_, ?_, ?_⟩
  · rw [← length_subroutineNames, names, functions]
    simp only [List.length_map]
  all_goals
    rw [countP_marks_class]
    simp [Mark.perBranch, Mark.perReturn]

/-- The control flow of every source that compiles can be counted in its tokens. The functions of
the class are named, in order, by the identifiers two tokens after each word that starts a
subroutine. There are two labels, one conditional and one unconditional jump for each `if` and each
`while`, and one return for each `return`. -/
theorem control_flow_counted {source text : String} (h : compile source = .ok text) :
    ∃ tokens cls code, scan source = .ok tokens ∧ readCode text = some code ∧
      (tokens.map Token.kind)[1]? = some (.identifier cls) ∧
      Census cls (tokens.map Token.kind) code := by
  obtain ⟨c, code, compiled, rfl⟩ := exists_compiled h
  obtain ⟨tokens, scanned, same⟩ := compiled.tokens
  have read := compiled.readCode_eq
  obtain ⟨-, rfl⟩ := compiled.valid_and_code
  refine ⟨tokens, c.name, c.code, scanned, read, ?_, ?_⟩
  · rw [← same]
    rfl
  · rw [← same]
    exact Syntax.census_class c

/-- A class with a subroutine of each sort, and a loop inside a choice. -/
def shapesSource : String :=
  "class A\x7bfield int x;constructor A new()\x7breturn this;\x7dmethod int f()\x7bif(x)" ++
    "\x7breturn 1;\x7delse\x7bwhile(x)\x7b\x7d\x7dreturn 0;\x7dfunction A g()\x7breturn null;" ++
    "\x7d\x7d"

/-- The code of `shapesSource`. -/
def shapesCode : List Instruction :=
  [.function "A.new" 0, .push .constant 1, .call "Memory.alloc" 1, .pop .pointer 0,
    .push .pointer 0, .return, .function "A.f" 0, .push .argument 0, .pop .pointer 0,
    .push .this 0, .arithmetic .not, .ifGoto "A.L0", .push .constant 1, .return, .goto "A.L1",
    .label "A.L0", .label "A.L2", .push .this 0, .arithmetic .not, .ifGoto "A.L3", .goto "A.L2",
    .label "A.L3", .label "A.L1", .push .constant 0, .return, .function "A.g" 0,
    .push .constant 0, .return]

set_option maxRecDepth 40000 in
theorem shapes_emitted : compileInto shapesSource ({} : Listing) = .ok () ⟨shapesCode.reverse⟩ := by
  cbv

/-- What a census reads off some tokens. -/
def survey (tokens : List Token) : Option TokenKind × List (Option TokenKind) × ℕ × ℕ :=
  let kinds := tokens.map Token.kind
  (kinds[1]?, subroutineNames kinds, branchings kinds, kinds.count (.keyword .return))

set_option maxRecDepth 40000 in
theorem shapes_survey : (scan shapesSource).map survey =
    .ok (some (.identifier "A"), [some (.identifier "new"), some (.identifier "f"),
      some (.identifier "g")], 2, 4) := by
  cbv

theorem shapes_counted :
    functionsOf shapesCode = ["A.new", "A.f", "A.g"] ∧ shapesCode.countP Mark.label.marks = 4 ∧
      shapesCode.countP Mark.ifGoto.marks = 2 ∧ shapesCode.countP Mark.goto.marks = 2 ∧
      shapesCode.countP Mark.leave.marks = 4 := by
  obtain ⟨tokens, cls, code, scanned, read, named, census⟩ :=
    control_flow_counted (compile_of_listing shapes_emitted)
  have surveyed := shapes_survey
  rw [scanned, Except.map, Except.ok.injEq] at surveyed
  simp only [survey, Prod.mk.injEq] at surveyed
  obtain ⟨first, starts, branches, returns⟩ := surveyed
  have solid : ∀ i ∈ shapesCode, i.NameSolid := by decide
  have same : (⟨shapesCode.reverse⟩ : Listing).code = shapesCode := List.reverse_reverse _
  rw [same, readCode_codeText solid, Option.some.injEq] at read
  subst read
  have cls : cls = "A" := by
    rw [first] at named
    simpa using named.symm
  obtain ⟨names, functions, same⟩ := census.named
  have names : names = ["new", "f", "g"] := by
    have injective : Function.Injective fun s => some (TokenKind.identifier s) :=
      fun s s' h => by simpa using h
    exact injective.list_map (same.symm.trans starts)
  have labels := census.labels
  rw [branches] at labels
  refine ⟨?_, labels, census.branches.trans branches, census.jumps.trans branches,
    census.returns.trans returns⟩
  rw [functions, names, cls]
  decide

end Jack
