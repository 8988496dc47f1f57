import Jack.Fault
import Jack.Symbols
import Jack.Token.Basic

/-!
# Errors of the compiler

What can be wrong with a class whose tokens were read, each with the place it is reported at.
-/

namespace Jack

/-- What should stand where something else was found. -/
inductive Expectation where
  | keyword (k : Keyword)
  | symbol (c : Char)
  /-- The name of a type. -/
  | type
  /-- An operand of an expression. -/
  | term
  /-- The end of the class is the end of the text. -/
  | endOfFile
deriving DecidableEq, Repr

/-- How an error message calls what it expects. -/
def Expectation.text : Expectation → String
  | keyword k => "'" ++ k.text ++ "'"
  | symbol c => "'" ++ c.toString ++ "'"
  | type => "type"
  | term => "term"
  | endOfFile => "end of file"

/-- What there can be too many of. -/
inductive Limit where
  /-- Variables of one kind, at most `maxVariables`. -/
  | declarations (kind : Kind)
  /-- Arguments of one call, at most `maxArguments`. -/
  | arguments
  /-- Characters of a string constant, or their codes, at most `maxConstant`. -/
  | characters
  /-- Constructs inside and after one another, at most the allowance of a pass. -/
  | constructs
deriving DecidableEq, Repr

/-- How an error message calls what there is too much of. -/
def Limit.text : Limit → String
  | declarations kind => kind.text ++ " variables"
  | arguments => "call arguments"
  | characters => "characters in string constant"
  | constructs => "nested constructs"

/-- Why a class cannot be compiled. -/
inductive CompileError where
  /-- A token of another sort was needed. -/
  | mismatch (expected : TokenType) (found : TokenKind) (span : Span)
  /-- Another token was needed. -/
  | unexpected (expected : Expectation) (found : TokenKind) (span : Span)
  /-- The tokens end too early. -/
  | unexpectedEnd (span : Span)
  /-- A variable is used that is not declared. -/
  | undefined (name : String) (span : Span)
  /-- A limit is exceeded. -/
  | tooMany (what : Limit) (span : Span)
  /-- The code could not be written. -/
  | write (fault : Fault)
deriving DecidableEq, Repr

namespace CompileError

/-- Where an error is. A failed write has no place in the source. -/
def span? : CompileError → Option Span
  | mismatch _ _ span | unexpected _ _ span | unexpectedEnd span | undefined _ span
  | tooMany _ span => some span
  | write _ => none

/-- The wording of an error. -/
def message : CompileError → String
  | mismatch expected found span =>
    "Token type mismatch: expected " ++ expected.text ++ ", found '" ++ found.text ++ "' at " ++
      span.text
  | unexpected expected found span =>
    "Syntax error: expected " ++ expected.text ++ ", found '" ++ found.text ++ "' at " ++ span.text
  | unexpectedEnd span => "Unexpected end of file at " ++ span.text
  | undefined name span => "Undefined variable '" ++ name ++ "' at " ++ span.text
  | tooMany what span => "Too many " ++ what.text ++ " at " ++ span.text
  | write fault => "Failed to write VM code: " ++ fault.message

end CompileError

end Jack
