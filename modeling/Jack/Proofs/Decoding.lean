import Mathlib
import Jack.Proofs.Syntax.Names
import Jack.Proofs.TwoPasses

/-!
# Reading VM code

The text of VM code can be read again: it is cut into lines and the lines into words, and numbers
are decimal. Reading gives back all instructions whose names have no white space in them. The code
of a class is such code, and its text is ASCII.
-/

namespace Jack

/-! ## A reader -/

/-- The segment with a name. -/
def Segment.ofText? (word : String) : Option Segment :=
  [constant, argument, «local», static, this, that, pointer, temp].find? fun s => s.text = word

/-- The operation with a name. -/
def Command.ofText? (word : String) : Option Command :=
  [add, sub, neg, eq, gt, lt, and, or, not].find? fun c => c.text = word

/-- The number that decimal digits denote. -/
def number? (word : String) : Option Nat :=
  if word ≠ "" ∧ word.toList.all Char.isDigit then some (Nat.ofDigitChars 10 word.toList 0)
  else none

namespace Instruction

/-- The instruction that some words are. -/
def ofWords? : List String → Option Instruction
  | ["push", segment, index] => do return push (← Segment.ofText? segment) (← number? index)
  | ["pop", segment, index] => do return pop (← Segment.ofText? segment) (← number? index)
  | ["label", name] => some (label name)
  | ["goto", name] => some (goto name)
  | ["if-goto", name] => some (ifGoto name)
  | ["call", name, arguments] => do return call name (← number? arguments)
  | ["function", name, locals] => do return function name (← number? locals)
  | ["return"] => some «return»
  | [command] => do return arithmetic (← Command.ofText? command)
  | _ => none

/-- The instruction that stands on a line, without its newline. -/
def ofLine? (line : List Char) : Option Instruction :=
  ofWords? ((line.splitOn ' ').map String.ofList)

end Instruction

/-- The instructions of a text, if each line is one. A newline ends every line, also the last
one. -/
def readCode (text : String) : Option (List Instruction) :=
  let lines := text.toList.splitOn '\n'
  if lines.getLast? = some [] then lines.dropLast.mapM Instruction.ofLine? else none

/-- The instructions of some bytes, if these are a text. -/
def readBytes (bytes : ByteArray) : Option (List Instruction) :=
  (String.fromUTF8? bytes).bind readCode

/-! ## Words -/

theorem Segment.ofText?_text (s : Segment) : Segment.ofText? s.text = some s := by
  cases s <;> decide

theorem number?_repr (n : Nat) : number? n.repr = some n := by
  have digits : n.repr.toList.all Char.isDigit := by
    rw [Nat.toList_repr, List.all_eq_true]
    exact fun c mem => Nat.isDigit_of_mem_toDigits (by decide) (by decide) mem
  have some : n.repr ≠ "" := by
    intro empty
    have := congrArg String.toList empty
    rw [Nat.toList_repr] at this
    exact Nat.toDigits_ne_nil this
  rw [number?, if_pos ⟨some, digits⟩, Nat.toList_repr, Nat.ofDigitChars_ten_toDigits]

namespace Instruction

theorem ofWords?_words (i : Instruction) : ofWords? i.words = some i := by
  cases i with
  | arithmetic command => cases command <;> rfl
  | _ => simp [words, ofWords?, Segment.ofText?_text, number?_repr]

/-- Whether a character occurs in the fixed words and in numbers. -/
def isFixedChar (c : Char) : Bool :=
  c.isAlphanum || c = '-'

/-- The characters of the words of an instruction are those of fixed words and numbers, and those
of its name. -/
theorem forall_mem_words {p : Char → Prop} (fixed : ∀ c, isFixedChar c → p c) {i : Instruction}
    (named : ∀ name, i.name? = some name → ∀ c ∈ name.toList, p c) :
    ∀ word ∈ i.words, ∀ c ∈ word.toList, p c := by
  have text {word : String} (h : word.toList.all isFixedChar) : ∀ c ∈ word.toList, p c :=
    fun c mem => fixed c (List.all_eq_true.1 h c mem)
  have digits (n : Nat) : ∀ c ∈ n.repr.toList, p c := by
    intro c mem
    rw [Nat.toList_repr] at mem
    have digit := Nat.isDigit_of_mem_toDigits (by decide) (by decide) mem
    exact fixed c (by simp [isFixedChar, Char.isAlphanum, digit])
  have segment (s : Segment) : ∀ c ∈ s.text.toList, p c := text (by cases s <;> decide)
  have command (s : Command) : ∀ c ∈ s.text.toList, p c := text (by cases s <;> decide)
  cases i <;> simp only [words, List.forall_mem_cons]
  case push s n => exact ⟨text (by decide), segment s, digits n, List.forall_mem_nil _⟩
  case pop s n => exact ⟨text (by decide), segment s, digits n, List.forall_mem_nil _⟩
  case arithmetic c => exact ⟨command c, List.forall_mem_nil _⟩
  case label name => exact ⟨text (by decide), named name rfl, List.forall_mem_nil _⟩
  case goto name => exact ⟨text (by decide), named name rfl, List.forall_mem_nil _⟩
  case ifGoto name => exact ⟨text (by decide), named name rfl, List.forall_mem_nil _⟩
  case call name n => exact ⟨text (by decide), named name rfl, digits n, List.forall_mem_nil _⟩
  case function name n => exact ⟨text (by decide), named name rfl, digits n, List.forall_mem_nil _⟩
  case «return» => exact ⟨text (by decide), List.forall_mem_nil _⟩

/-! ## Lines -/

/-- The name in an instruction, if it has one, has no white space in it. -/
def NameSolid (i : Instruction) : Prop :=
  ∀ name, i.name? = some name → ∀ c ∈ name.toList, isBlank c = false

theorem nameSolid_iff {i : Instruction} :
    i.NameSolid ↔ (i.name?.all fun name => name.toList.all fun c => !isBlank c) = true := by
  cases h : i.name? <;> simp [NameSolid, h]

instance : DecidablePred NameSolid :=
  fun _ => decidable_of_iff _ nameSolid_iff.symm

/-- The characters of the line of an instruction before its newline. -/
def spaced (i : Instruction) : List Char :=
  [' '].intercalate (i.words.map String.toList)

theorem toList_line (i : Instruction) : i.line.toList = i.spaced ++ ['\n'] := by
  simp [line, spaced]

theorem isBlank_of_isFixedChar {c : Char} (h : isFixedChar c) : isBlank c = false := by
  simp only [isFixedChar, Bool.or_eq_true, decide_eq_true_eq] at h
  rcases h with h | rfl
  · exact (Lexical.dark_of_isWordChar (Lexical.isWordChar_iff.2 (.inl h))).1
  · decide

theorem NameSolid.words {i : Instruction} (h : i.NameSolid) :
    ∀ word ∈ i.words, ∀ c ∈ word.toList, isBlank c = false :=
  forall_mem_words (fun _ => isBlank_of_isFixedChar) h

/-- The characters between words are spaces. -/
theorem forall_mem_spaced {p : Char → Prop} (space : p ' ') {i : Instruction}
    (h : ∀ word ∈ i.words, ∀ c ∈ word.toList, p c) : ∀ c ∈ i.spaced, p c := by
  unfold spaced
  generalize i.words = words at h ⊢
  induction words with
  | nil => simp
  | cons word words ih =>
    obtain ⟨first, others⟩ := List.forall_mem_cons.1 h
    cases words with
    | nil => simpa using first
    | cons word' words =>
      simp only [List.map_cons, List.intercalate_cons_cons, List.forall_mem_append,
        List.forall_mem_singleton] at ih ⊢
      exact ⟨⟨first, space⟩, ih others⟩

theorem ofLine?_spaced {i : Instruction} (h : i.NameSolid) : ofLine? i.spaced = some i := by
  have cut : i.spaced.splitOn ' ' = i.words.map String.toList := by
    apply List.splitOn_intercalate
    · intro letters mem space
      obtain ⟨word, inWords, rfl⟩ := List.mem_map.1 mem
      exact absurd (h.words word inWords ' ' space) (by decide)
    · cases i <;> simp [words]
  have read : (i.words.map String.toList).map String.ofList = i.words := by
    simp [List.map_map, Function.comp_def]
  rw [ofLine?, cut, read, ofWords?_words]

end Instruction

/-! ## Texts -/

theorem toList_codeText (code : List Instruction) :
    (codeText code).toList = code.flatMap fun i => i.spaced ++ ['\n'] := by
  simp [codeText, List.flatMap_map, Instruction.toList_line]

theorem splitOn_codeText {code : List Instruction} (h : ∀ i ∈ code, i.NameSolid) :
    (codeText code).toList.splitOn '\n' = code.map Instruction.spaced ++ [[]] := by
  rw [toList_codeText]
  induction code with
  | nil => rfl
  | cons i code ih =>
    obtain ⟨first, others⟩ := List.forall_mem_cons.1 h
    have line : '\n' ∉ i.spaced := by
      intro mem
      have spaced := Instruction.forall_mem_spaced (p := (· ≠ '\n')) (by decide)
        fun word hw c hc newline => absurd (first.words word hw c hc) (by subst newline; decide)
      exact spaced _ mem rfl
    rw [List.flatMap_cons, List.append_assoc, List.singleton_append,
      List.splitOn_append_cons_self_of_not_mem line, ih others]
    rfl

/-- Reading the text of code gives the code. -/
theorem readCode_codeText {code : List Instruction} (h : ∀ i ∈ code, i.NameSolid) :
    readCode (codeText code) = some code := by
  have lines : (code.map Instruction.spaced).mapM Instruction.ofLine? = some code := by
    induction code with
    | nil => rfl
    | cons i code ih =>
      obtain ⟨first, others⟩ := List.forall_mem_cons.1 h
      rw [List.map_cons, List.mapM_cons, Instruction.ofLine?_spaced first, ih others]
      rfl
  simp [readCode, splitOn_codeText h, lines]

theorem readBytes_toUTF8 (text : String) : readBytes text.toUTF8 = readCode text := by
  rw [readBytes, fromUTF8?_eq_some.2 rfl, Option.bind_some]

/-! ## Compiled code -/

theorem Spelled.isBlank_eq {name : String} (h : Spelled name) :
    ∀ c ∈ name.toList, isBlank c = false := by
  intro c mem
  rcases h c mem with word | rfl
  · exact (Lexical.dark_of_isWordChar word).1
  · decide

theorem Spelled.ascii {name : String} (h : Spelled name) : ∀ c ∈ name.toList, c.toNat < 128 := by
  intro c mem
  rcases h c mem with word | rfl
  · have := Lexical.toNat_of_isWordChar word
    omega
  · decide

theorem Instruction.ascii_of_isFixedChar {c : Char} (h : isFixedChar c) : c.toNat < 128 := by
  simp only [isFixedChar, Bool.or_eq_true, decide_eq_true_eq] at h
  rcases h with h | rfl
  · have := Lexical.toNat_of_isWordChar (Lexical.isWordChar_iff.2 (.inl h))
    omega
  · decide

/-- The text of code is ASCII, if the names in it are. -/
theorem ascii_codeText {code : List Instruction} (named : ∀ i ∈ code, i.Named) :
    ∀ c ∈ (codeText code).toList, c.toNat < 128 := by
  rw [toList_codeText]
  intro c mem
  obtain ⟨i, hi, inLine⟩ := List.mem_flatMap.1 mem
  rcases List.mem_append.1 inLine with inside | newline
  · have words := Instruction.forall_mem_words (p := fun c => c.toNat < 128)
      (fun _ => Instruction.ascii_of_isFixedChar) fun name hn => (named i hi name hn).ascii
    exact Instruction.forall_mem_spaced (p := fun c => c.toNat < 128) (by decide) words c inside
  · obtain rfl := List.mem_singleton.1 newline
    decide

theorem codeText_ends (code : List Instruction) :
    codeText code = "" ∨ (codeText code).toList.getLast? = some '\n' := by
  rcases List.eq_nil_or_concat code with rfl | ⟨code, i, rfl⟩
  · exact .inl rfl
  · right
    rw [List.concat_eq_append, toList_codeText, List.flatMap_append]
    simp

theorem Compiled.named {source : String} {c : Syntax.Class} {code : List Instruction}
    (h : Compiled source c code) : ∀ i ∈ code, i.Named := by
  obtain ⟨-, rfl⟩ := h.valid_and_code
  obtain ⟨tokens, scanned, same⟩ := h.tokens
  apply Syntax.named_class
  intro name mem
  rw [same] at mem
  exact spelled_of_isWord (Lexical.printable_of_scan scanned _ mem).1

theorem Compiled.readCode_eq {source : String} {c : Syntax.Class} {code : List Instruction}
    (h : Compiled source c code) : readCode (codeText code) = some code :=
  readCode_codeText fun i hi name hn => (h.named i hi name hn).isBlank_eq

/-- VM code can be read from its text. Reading what is written into a buffer gives the code back,
if the names in it have no white space. The text of every class that compiles is ASCII, it ends
with a newline unless it is empty, and reading it gives the instructions that the compiler wrote,
in their order. -/
theorem code_can_be_read :
    (∀ code : List Instruction, (∀ i ∈ code, i.NameSolid) →
      ∃ b : Buffer, Writes code ({} : Buffer) b ∧ readBytes b.bytes = some code) ∧
    ∀ source text : String, compile source = .ok text →
      (∀ c ∈ text.toList, c.toNat < 128) ∧
      (text = "" ∨ text.toList.getLast? = some '\n') ∧
      ∃ l : Listing, compileInto source ({} : Listing) = .ok () l ∧
        readBytes text.toUTF8 = some l.code := by
  constructor
  · intro code solid
    refine ⟨_, writes_empty.2 rfl, ?_⟩
    rw [readBytes_toUTF8, readCode_codeText solid]
  · intro source text h
    obtain ⟨c, code, compiled, rfl⟩ := exists_compiled h
    have named := compiled.named
    refine ⟨ascii_codeText named, codeText_ends code, _, compiled.emitted, ?_⟩
    rw [readBytes_toUTF8, readCode_codeText fun i hi name hn => (named i hi name hn).isBlank_eq]
    simp [Listing.code]

/-- Names that are words of other instructions, or not ASCII, and the largest operand. -/
def awkwardCode : List Instruction :=
  [.label "goto", .goto "if-goto", .ifGoto "é", .call "return" 65535, .function "add" 0, .return,
    .arithmetic .neg, .pop .temp 65535]

/-- A method that is called on a number. -/
def numberSource : String :=
  "class A\x7bfunction int f(int x)\x7bdo x.g();return 1;\x7d\x7d"

/-- The code of `numberSource`. -/
def numberCode : List Instruction :=
  [.function "A.f" 0, .push .argument 0, .call "int.g" 1, .pop .temp 0, .push .constant 1,
    .return]

set_option maxRecDepth 40000 in
theorem number_emitted :
    compileInto numberSource ({} : Listing) = .ok () ⟨numberCode.reverse⟩ := by
  cbv

theorem awkward_code_read :
    (∃ b : Buffer, Writes awkwardCode ({} : Buffer) b ∧ readBytes b.bytes = some awkwardCode) ∧
      readBytes (codeText numberCode).toUTF8 = some numberCode := by
  refine ⟨code_can_be_read.1 awkwardCode (by decide), ?_⟩
  obtain ⟨-, -, l, emitted, read⟩ :=
    code_can_be_read.2 numberSource _ (compile_of_listing number_emitted)
  rw [number_emitted] at emitted
  cases emitted
  exact read

end Jack
