import Mathlib.Tactic.SplitIfs
import Jack.Console.Request

/-!
# Reading arguments

What arguments mean, said without a parser: they are read from the left to the right, a number
belongs to the option before it, and the first fault or the first request for help decides. The
parser reads them like that.
-/

namespace Jack.Request

/-! ## Single arguments -/

/-- A request for help. -/
def IsHelp (arg : String) : Prop :=
  arg = "--help" ∨ arg = "-h"

/-- An option that needs a number of jobs after it. -/
def IsJobs (arg : String) : Prop :=
  arg = "--jobs" ∨ arg = "-j"

/-- An option that stands alone. -/
def IsFlag (arg : String) : Prop :=
  arg = "--fail-fast" ∨ arg = "--verbose" ∨ arg = "-v"

/-- A file or a directory. -/
def IsTarget (arg : String) : Prop :=
  arg.toList.head? ≠ some '-'

/-- A positive number that fits into 64 bits, in decimal digits that may follow a plus sign. -/
def IsCount (text : String) : Prop :=
  ∃ digits, (text.toList = digits ∨ text.toList = '+' :: digits) ∧ digits ≠ [] ∧
    (∀ c ∈ digits, c.isDigit = true) ∧ 0 < Nat.ofDigitChars 10 digits 0 ∧
    Nat.ofDigitChars 10 digits 0 ≤ maxJobs

theorem isCount_iff {text : String} : IsCount text ↔ ∃ n, jobs? text = some n := by
  -- What is checked once it is known which characters are the digits.
  have checked (digits : List Char) :
      (∃ n, (if digits.isEmpty || !digits.all Char.isDigit then none
        else if 0 < Nat.ofDigitChars 10 digits 0 ∧ Nat.ofDigitChars 10 digits 0 ≤ maxJobs then
          some (Nat.ofDigitChars 10 digits 0) else none) = some n) ↔
      digits ≠ [] ∧ (∀ c ∈ digits, c.isDigit = true) ∧ 0 < Nat.ofDigitChars 10 digits 0 ∧
        Nat.ofDigitChars 10 digits 0 ≤ maxJobs := by
    have unreadable : (digits.isEmpty || !digits.all Char.isDigit) = true ↔
        ¬ (digits ≠ [] ∧ ∀ c ∈ digits, c.isDigit = true) := by
      simp [Decidable.or_iff_not_imp_left]
    split_ifs <;> grind
  unfold jobs?
  simp only [checked]
  split
  · next digits signed =>
    constructor
    · rintro ⟨digits', plain | signed', nonempty, all, rest⟩
      · rw [← plain, signed] at all
        exact absurd (all '+' List.mem_cons_self) (by decide)
      · cases signed.symm.trans signed'
        exact ⟨nonempty, all, rest⟩
    · exact fun rest => ⟨digits, .inr signed, rest⟩
  · next unsigned =>
    constructor
    · rintro ⟨digits', rfl | signed, rest⟩
      · exact rest
      · exact (unsigned digits' signed).elim
    · exact fun rest => ⟨_, .inl rfl, rest⟩

/-! ## Reading from the left -/

/-- Arguments that are read without a fault and without help, and the target among them. -/
inductive Reads : List String → Option String → Prop
  | nil : Reads [] none
  | jobs {option number : String} {args : List String} {target : Option String} : IsJobs option →
      IsCount number → Reads args target → Reads (option :: number :: args) target
  | flag {arg : String} {args : List String} {target : Option String} : IsFlag arg →
      Reads args target → Reads (arg :: args) target
  | target {arg : String} {args : List String} : IsTarget arg → Reads args none →
      Reads (arg :: args) (some arg)

/-- The arguments start with a fault, where a target may have come before. -/
inductive Malformed (earlier : Option String) : List String → Prop
  | missing {option : String} : IsJobs option → Malformed earlier [option]
  | invalid {option number : String} {args : List String} : IsJobs option → ¬ IsCount number →
      Malformed earlier (option :: number :: args)
  | unknown {arg : String} {args : List String} : ¬ IsHelp arg → ¬ IsJobs arg → ¬ IsFlag arg →
      ¬ IsTarget arg → Malformed earlier (arg :: args)
  | second {arg : String} {args : List String} : IsTarget arg → earlier.isSome = true →
      Malformed earlier (arg :: args)

/-- A fault comes before any request for help, or there is neither help nor a target. -/
def Misused (args : List String) : Prop :=
  (∃ before target rest, args = before ++ rest ∧ Reads before target ∧ Malformed target rest) ∨
    Reads args none

/-- A request for help comes before any fault. -/
def AsksForHelp (args : List String) : Prop :=
  ∃ before target arg rest, args = before ++ arg :: rest ∧ Reads before target ∧ IsHelp arg

/-- There is no fault and no request for help, but a target. -/
def Names (args : List String) (target : String) : Prop :=
  Reads args (some target)

/-- Reading stops: after the last argument, at a fault or at a request for help. -/
def Stops (earlier : Option String) (args : List String) : Prop :=
  args = [] ∨ Malformed earlier args ∨ ∃ arg rest, args = arg :: rest ∧ IsHelp arg

/-- Whatever the arguments are, and whether there is a target already, some of them are read and
then reading stops. -/
theorem exists_reading : ∀ (args : List String) (earlier : Option String),
    ∃ before target rest, args = before ++ rest ∧ Reads before target ∧
      (earlier = none ∨ target = none) ∧ Stops (target.or earlier) rest
  | [], _ => ⟨[], none, [], rfl, .nil, .inr rfl, .inl rfl⟩
  | arg :: args, earlier => by
    by_cases stops : Stops earlier (arg :: args)
    · exact ⟨[], none, arg :: args, rfl, .nil, .inr rfl, stops⟩
    have formed : ¬ Malformed earlier (arg :: args) := fun h => stops (.inr (.inl h))
    have help : ¬ IsHelp arg := fun h => stops (.inr (.inr ⟨arg, args, rfl, h⟩))
    by_cases jobs : IsJobs arg
    · cases args with
      | nil => exact absurd (.missing jobs) formed
      | cons number args =>
        have count : IsCount number := Classical.not_not.1 fun h => formed (.invalid jobs h)
        obtain ⟨before, target, rest, rfl, reads, free, stops⟩ := exists_reading args earlier
        exact ⟨arg :: number :: before, target, rest, rfl, .jobs jobs count reads, free, stops⟩
    by_cases flag : IsFlag arg
    · obtain ⟨before, target, rest, rfl, reads, free, stops⟩ := exists_reading args earlier
      exact ⟨arg :: before, target, rest, rfl, .flag flag reads, free, stops⟩
    have isTarget : IsTarget arg :=
      Classical.not_not.1 fun h => formed (.unknown help jobs flag h)
    cases earlier with
    | some earlier => exact absurd (.second isTarget rfl) formed
    | none =>
      obtain ⟨before, target, rest, rfl, reads, free, stops⟩ := exists_reading args (some arg)
      obtain rfl : target = none := free.resolve_left (Option.some_ne_none _)
      exact ⟨arg :: before, some arg, rest, rfl, .target isTarget reads, .inl rfl, stops⟩

theorem misused_or_help_or_names (args : List String) :
    Misused args ∨ AsksForHelp args ∨ ∃ target, Names args target := by
  obtain ⟨before, target, rest, rfl, reads, -, rfl | malformed | ⟨arg, more, rfl, help⟩⟩ :=
    exists_reading args none
  · rw [List.append_nil]
    cases target with
    | none => exact .inl (.inr reads)
    | some target => exact .inr (.inr ⟨target, reads⟩)
  · rw [Option.or_none] at malformed
    exact .inl (.inl ⟨before, target, rest, rfl, reads, malformed⟩)
  · exact .inr (.inl ⟨before, target, arg, more, rfl, reads, help⟩)

/-! ## The parser -/

variable {options : BuildOptions} {target : Option Path} {arg : String} {args : List String}

theorem parseFrom_help (help : IsHelp arg) :
    parseFrom options target (arg :: args) = .ok .help := by
  unfold IsHelp at help
  cases args <;> rw [parseFrom, if_pos help]

theorem parseFrom_flag (flag : IsFlag arg) : ∃ options',
    parseFrom options target (arg :: args) = parseFrom options' target args := by
  obtain rfl | verbose := flag
  · refine ⟨{ options with failFast := true }, ?_⟩
    cases args <;> simp [parseFrom]
  · refine ⟨{ options with verbose := true }, ?_⟩
    obtain rfl | rfl := verbose <;> cases args <;> simp [parseFrom]

theorem parseFrom_other (help : ¬ IsHelp arg) (jobs : ¬ IsJobs arg) (flag : ¬ IsFlag arg) :
    parseFrom options target (arg :: args) =
      if arg.toList.head? = some '-' then .error (.unknownOption arg)
      else if target.isSome then .error .secondTarget
      else parseFrom options (some (.ofString arg)) args := by
  obtain ⟨slow, quiet⟩ := not_or.1 flag
  unfold IsHelp at help
  unfold IsJobs at jobs
  cases args <;> simp only [parseFrom, if_neg help, if_neg jobs, if_neg slow, if_neg quiet]

theorem IsTarget.not_option (h : IsTarget arg) : ¬ IsHelp arg ∧ ¬ IsJobs arg ∧ ¬ IsFlag arg := by
  refine ⟨?_, ?_, ?_⟩
  · rintro (rfl | rfl) <;> exact h (by decide)
  · rintro (rfl | rfl) <;> exact h (by decide)
  · rintro (rfl | rfl | rfl) <;> exact h (by decide)

/-- The parser gets past arguments without a fault. -/
theorem Reads.parseFrom_append {before : List String} {found : Option String}
    (h : Reads before found) (options : BuildOptions) (target : Option Path)
    (free : target = none ∨ found = none) (rest : List String) :
    ∃ options', parseFrom options target (before ++ rest) =
      parseFrom options' ((found.map Path.ofString).or target) rest := by
  induction h generalizing options target with
  | nil => exact ⟨options, rfl⟩
  | jobs isJobs count _ ih =>
    obtain ⟨n, hn⟩ := isCount_iff.1 count
    obtain ⟨options', same⟩ := ih { options with jobs := n } target free
    refine ⟨options', same ▸ ?_⟩
    obtain rfl | rfl := isJobs <;> simp [parseFrom, hn]
  | flag isFlag _ ih =>
    obtain ⟨next, first⟩ := parseFrom_flag isFlag
    obtain ⟨options', same⟩ := ih next target free
    exact ⟨options', first.trans same⟩
  | @target arg args isTarget _ ih =>
    obtain rfl : target = none := free.resolve_right (Option.some_ne_none _)
    obtain ⟨options', same⟩ := ih options (some (.ofString arg)) (.inr rfl)
    obtain ⟨help, jobs, flag⟩ := isTarget.not_option
    refine ⟨options', same ▸ ?_⟩
    unfold IsTarget at isTarget
    rw [List.cons_append, parseFrom_other help jobs flag, if_neg isTarget]
    rfl

theorem Malformed.parseFrom {earlier : Option String} (h : Malformed earlier args)
    (same : target.isSome = earlier.isSome) : ∃ e, parseFrom options target args = .error e := by
  cases h with
  | missing isJobs => obtain rfl | rfl := isJobs <;> exact ⟨_, rfl⟩
  | @invalid option number args isJobs count =>
    have none : jobs? number = none := by
      cases h : jobs? number with
      | none => rfl
      | some n => exact absurd (isCount_iff.2 ⟨n, h⟩) count
    refine ⟨.jobsInvalid number, ?_⟩
    obtain rfl | rfl := isJobs <;> simp [Request.parseFrom, none]
  | unknown help jobs flag notTarget =>
    rw [parseFrom_other help jobs flag, if_pos (Decidable.not_not.1 notTarget)]
    exact ⟨_, rfl⟩
  | second isTarget known =>
    obtain ⟨help, jobs, flag⟩ := isTarget.not_option
    unfold IsTarget at isTarget
    rw [parseFrom_other help jobs flag, if_neg isTarget, if_pos (same.trans known)]
    exact ⟨_, rfl⟩

variable (processors : Nat)

/-- Misuse is an error. -/
theorem parse_of_misused (h : Misused args) : ∃ e, parse processors args = .error e := by
  obtain ⟨before, found, rest, rfl, reads, malformed⟩ | reads := h
  · obtain ⟨options, same⟩ :=
      reads.parseFrom_append { jobs := processors } none (.inl rfl) rest
    rw [parse, same]
    exact malformed.parseFrom (by simp)
  · obtain ⟨options, same⟩ := reads.parseFrom_append { jobs := processors } none (.inl rfl) []
    rw [List.append_nil] at same
    rw [parse, same]
    exact ⟨.noTarget, rfl⟩

theorem parse_of_asksForHelp (h : AsksForHelp args) : parse processors args = .ok .help := by
  obtain ⟨before, found, arg, rest, rfl, reads, help⟩ := h
  obtain ⟨options, same⟩ :=
    reads.parseFrom_append { jobs := processors } none (.inl rfl) (arg :: rest)
  rw [parse, same, parseFrom_help help]

/-- What is named is built. -/
theorem parse_of_names {name : String} (h : Names args name) :
    ∃ options, parse processors args = .ok (.build (.ofString name) options) := by
  obtain ⟨options, same⟩ := h.parseFrom_append { jobs := processors } none (.inl rfl) []
  rw [List.append_nil] at same
  rw [parse, same]
  exact ⟨options, rfl⟩

/-! ## One verdict only -/

theorem AsksForHelp.not_misused (h : AsksForHelp args) : ¬ Misused args := by
  intro misused
  obtain ⟨e, parsed⟩ := parse_of_misused 0 misused
  cases parsed.symm.trans (parse_of_asksForHelp 0 h)

theorem Names.not_misused {name : String} (h : Names args name) : ¬ Misused args := by
  intro misused
  obtain ⟨e, parsed⟩ := parse_of_misused 0 misused
  obtain ⟨options, parsed'⟩ := parse_of_names 0 h
  cases parsed.symm.trans parsed'

theorem Names.not_asksForHelp {name : String} (h : Names args name) : ¬ AsksForHelp args := by
  intro help
  obtain ⟨options, parsed⟩ := parse_of_names 0 h
  cases parsed.symm.trans (parse_of_asksForHelp 0 help)

end Jack.Request
