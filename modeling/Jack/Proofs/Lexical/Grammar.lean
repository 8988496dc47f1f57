import Jack.Source.Blank
import Jack.Token.Basic

/-!
# The lexical grammar

Which texts are sequences of tokens. A text is split into gaps and lexemes in turn. Whether some
characters are a gap or a lexeme also depends on what follows them: a lexeme and a comment are as
long as they can be.
-/

namespace Jack.Lexical

/-! ## Gaps -/

/-- A part of a gap, and what follows it: white space, a comment up to the end of its line, or a
comment up to the first `*/` in it. -/
inductive GapPart : List Char → List Char → Prop
  | blank {c : Char} {rest : List Char} : isBlank c → GapPart [c] rest
  | line {body rest : List Char} : '\n' ∉ body → rest = [] ∨ rest.head? = some '\n' →
      GapPart ('/' :: '/' :: body) rest
  | block {body rest : List Char} : ¬ ['*', '/'] <:+: body →
      GapPart ('/' :: '*' :: (body ++ ['*', '/'])) rest

/-- A gap, which may be empty, and what follows it. -/
inductive Gap : List Char → List Char → Prop
  | nil {rest : List Char} : Gap [] rest
  | cons {part gap rest : List Char} : GapPart part (gap ++ rest) → Gap gap rest →
      Gap (part ++ gap) rest

/-! ## Lexemes -/

/-- Letters, digits and underscores, the first of them not a digit, and not followed by
another. -/
structure Word (c : Char) (cs rest : List Char) : Prop where
  start : c.isAlpha ∨ c = '_'
  more : ∀ d ∈ cs, d.isAlphanum ∨ d = '_'
  ends : ∀ d, rest.head? = some d → ¬ (d.isAlphanum ∨ d = '_')

/-- The characters of a token, the token, and what follows it. -/
inductive Lexeme : List Char → TokenKind → List Char → Prop
  | symbol {c : Char} {rest : List Char} : c ∈ symbols →
      (c = '/' → rest.head? ≠ some '/' ∧ rest.head? ≠ some '*') → Lexeme [c] (.symbol c) rest
  | int {digits rest : List Char} : digits ≠ [] → (∀ c ∈ digits, c.isDigit) →
      (∀ c, rest.head? = some c → ¬ c.isDigit) → Nat.ofDigitChars 10 digits 0 ≤ 32767 →
      Lexeme digits (.int (Nat.ofDigitChars 10 digits 0)) rest
  | keyword {c : Char} {cs rest : List Char} {k : Keyword} : Word c cs rest →
      k.text = .ofList (c :: cs) → Lexeme (c :: cs) (.keyword k) rest
  | identifier {c : Char} {cs rest : List Char} : Word c cs rest →
      (∀ k : Keyword, k.text ≠ .ofList (c :: cs)) →
      Lexeme (c :: cs) (.identifier (.ofList (c :: cs))) rest
  | string {body rest : List Char} : '"' ∉ body → '\n' ∉ body → body.length ≤ 32767 →
      (∀ c ∈ body, c.toNat ≤ 32767) → Lexeme ('"' :: (body ++ ['"'])) (.string (.ofList body)) rest

/-! ## Texts -/

/-- A gap, the lexeme after it, and the token that the lexeme is. -/
structure Piece where
  gap : List Char
  lexeme : List Char
  kind : TokenKind

/-- A text is split into pieces and a last gap. -/
inductive Splits : List Char → List Piece → List Char → Prop
  | done {gap : List Char} : Gap gap [] → Splits gap [] gap
  | piece {p : Piece} {rest last : List Char} {pieces : List Piece} :
      Gap p.gap (p.lexeme ++ rest) → Lexeme p.lexeme p.kind rest → Splits rest pieces last →
      Splits (p.gap ++ (p.lexeme ++ rest)) (p :: pieces) last

/-- How many bytes some characters take. -/
def size (cs : List Char) : Nat :=
  (String.ofList cs).utf8ByteSize

/-- The tokens of some pieces, with the bytes where each lexeme starts and ends, if the first gap
starts at `offset`. -/
def ranges (offset : Nat) : List Piece → List (TokenKind × Nat × Nat)
  | [] => []
  | p :: more =>
    (p.kind, offset + size p.gap, offset + size p.gap + size p.lexeme) ::
      ranges (offset + size p.gap + size p.lexeme) more

end Jack.Lexical
