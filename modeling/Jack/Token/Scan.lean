import Jack.Source.Blank
import Jack.Token.Basic

/-!
# Reading tokens

A scanner is the rest of a source text and the place where it starts. Each step passes over white
space and comments and then reads the longest token it can, or finds out why there is none. A step
that fails leaves the scanner just after the characters it looked at, so that reading can go on.
-/

namespace Jack

/-! ## Errors -/

/-- What is wrong with the characters of a source text. -/
inductive ScanError where
  | unexpectedChar (c : Char) (span : Span)
  | unterminatedString (span : Span)
  | unterminatedComment (span : Span)
  | invalidNumber (digits : String) (span : Span)
  | invalidStringChar (c : Char) (span : Span)
  | stringTooLong (span : Span)
deriving DecidableEq, Repr

namespace ScanError

/-- Where an error is. -/
def span : ScanError → Span
  | unexpectedChar _ span | unterminatedString span | unterminatedComment span
  | invalidNumber _ span | invalidStringChar _ span | stringTooLong span => span

/-- The wording of an error. -/
def message : ScanError → String
  | unexpectedChar c span => "Unexpected character '" ++ c.toString ++ "' at " ++ span.text
  | unterminatedString span => "Unterminated string at " ++ span.text
  | unterminatedComment span => "Unterminated block comment starting at " ++ span.text
  | invalidNumber digits span => "Invalid integer constant '" ++ digits ++ "' at " ++ span.text
  | invalidStringChar c span =>
    "Character '" ++ c.toString ++ "' cannot appear in a string constant at " ++ span.text
  | stringTooLong span =>
    "String constant longer than " ++ maxConstant.repr ++ " characters at " ++ span.text

end ScanError

/-! ## Scanners -/

/-- The characters not yet read, and where they start. -/
structure Scanner where
  rest : List Char
  position : Position := {}
deriving DecidableEq, Repr

/-- A step of a scanner: a result, or an error, and the scanner after it. -/
abbrev Scan := EStateM.Result ScanError Scanner

namespace Scanner

/-- The scanner at the start of a text. -/
def ofString (source : String) : Scanner :=
  { rest := source.toList }

/-! ### Gaps between tokens -/

/-- What the characters of a gap belong to. -/
inductive Gap where
  /-- White space. -/
  | open
  /-- A comment that ends with the line. -/
  | line
  /-- A comment that ends with the first `*/`, and where it started. -/
  | block (start : Position)

/-- Passes over white space and comments. -/
def skip : Gap → List Char → Position → Scan Unit
  | .open, '/' :: '/' :: cs, p => skip .line cs (p.advance ['/', '/'])
  | .open, '/' :: '*' :: cs, p => skip (.block p) cs (p.advance ['/', '*'])
  | .open, c :: cs, p =>
    if isBlank c then skip .open cs (p.after c) else .ok () ⟨c :: cs, p⟩
  | .line, c :: cs, p => skip (if c = '\n' then .open else .line) cs (p.after c)
  | .block _, '*' :: '/' :: cs, p => skip .open cs (p.advance ['*', '/'])
  | .block start, c :: cs, p => skip (.block start) cs (p.after c)
  | .block start, [], p => .error (.unterminatedComment (.between start p)) ⟨[], p⟩
  | _, [], p => .ok () ⟨[], p⟩

/-! ### Single tokens -/

/-- A letter or an underscore starts a word. -/
def isWordStart (c : Char) : Bool :=
  c.isAlpha || c = '_'

/-- Letters, digits and underscores continue a word. -/
def isWordChar (c : Char) : Bool :=
  c.isAlphanum || c = '_'

/-- The value of a run of decimal digits. -/
def decimal (digits : List Char) : Nat :=
  digits.foldl (fun n c => 10 * n + (c.toNat - '0'.toNat)) 0

/-- Reads the rest of a string constant whose opening quote stands at `start`. The characters read
so far are in `body`, the latest first, and `length` is their number. -/
def string (start : Position) : List Char → Position → List Char → Nat → Scan Token
  | [], p, _, _ => .error (.unterminatedString (.between start p)) ⟨[], p⟩
  | c :: cs, p, body, length =>
    let p' := p.after c
    if c = '\n' then .error (.unterminatedString (.between start p)) ⟨c :: cs, p⟩
    else if c = '"' then
      .ok ⟨.string (.ofList body.reverse), .between start p'⟩ ⟨cs, p'⟩
    else if c.toNat > maxConstant then
      .error (.invalidStringChar c (.between p p')) ⟨cs, p'⟩
    else if length = maxConstant then
      .error (.stringTooLong (.between start p')) ⟨cs, p'⟩
    else string start cs p' (c :: body) (length + 1)

/-- Reads the token that starts with the character `c` at `p`. -/
def token (c : Char) (cs : List Char) (p : Position) : Scan Token :=
  if c = '"' then string p cs (p.after c) [] 0
  else if c.isDigit then
    let digits := c :: cs.takeWhile Char.isDigit
    let p' := p.advance digits
    let rest := cs.dropWhile Char.isDigit
    if decimal digits ≤ maxConstant then .ok ⟨.int (decimal digits), .between p p'⟩ ⟨rest, p'⟩
    else .error (.invalidNumber (.ofList digits) (.between p p')) ⟨rest, p'⟩
  else if isWordStart c then
    let word := c :: cs.takeWhile isWordChar
    let p' := p.advance word
    .ok ⟨.ofWord (.ofList word), .between p p'⟩ ⟨cs.dropWhile isWordChar, p'⟩
  else if isSymbol c then .ok ⟨.symbol c, .between p (p.after c)⟩ ⟨cs, p.after c⟩
  else .error (.unexpectedChar c (.between p (p.after c))) ⟨cs, p.after c⟩

/-- Reads the next token, or `none` at the end of the text. -/
def next (s : Scanner) : Scan (Option Token) :=
  match skip .open s.rest s.position with
  | .error e s => .error e s
  | .ok _ ⟨[], p⟩ => .ok none ⟨[], p⟩
  | .ok _ ⟨c :: cs, p⟩ =>
    match token c cs p with
    | .error e s => .error e s
    | .ok t s => .ok (some t) s

/-! ### Progress -/

theorem length_skip_le (g : Gap) (cs : List Char) (p : Position) {r : Unit} {s : Scanner}
    (h : skip g cs p = .ok r s) : s.rest.length ≤ cs.length := by
  fun_induction skip g cs p <;> grind

theorem length_string_lt (start : Position) (cs : List Char) (p : Position) (body : List Char)
    (n : Nat) {t : Token} {s : Scanner} (h : string start cs p body n = .ok t s) :
    s.rest.length < cs.length := by
  fun_induction string start cs p body n <;> grind

theorem length_token_le (c : Char) (cs : List Char) (p : Position) {t : Token} {s : Scanner}
    (h : token c cs p = .ok t s) : s.rest.length ≤ cs.length := by
  have drop (f : Char → Bool) : (cs.dropWhile f).length ≤ cs.length :=
    (List.dropWhile_suffix f).length_le
  unfold token at h
  split at h
  · exact Nat.le_of_lt (length_string_lt _ _ _ _ _ h)
  · grind

theorem length_next_lt {s s' : Scanner} {t : Token} (h : s.next = .ok (some t) s') :
    s'.rest.length < s.rest.length := by
  unfold next at h
  split at h
  · cases h
  · cases h
  · next hskip =>
    have := length_skip_le _ _ _ hskip
    split at h
    · cases h
    · next htoken =>
      have := length_token_le _ _ _ htoken
      cases h
      grind

/-! ### Whole texts -/

/-- Reads all tokens up to the end of the text or the first error, after those in `before`, which
has the latest first. -/
def tokensAfter (before : List Token) (s : Scanner) : Except ScanError (List Token) :=
  match _h : s.next with
  | .error e _ => .error e
  | .ok none _ => .ok before.reverse
  | .ok (some t) s' => tokensAfter (t :: before) s'
termination_by s.rest.length
decreasing_by exact length_next_lt ‹_›

/-- Reads all tokens up to the end of the text or the first error. -/
def tokens (s : Scanner) : Except ScanError (List Token) :=
  s.tokensAfter []

end Scanner

/-- The tokens of a source text, or the first error in it. -/
def scan (source : String) : Except ScanError (List Token) :=
  (Scanner.ofString source).tokens

end Jack
