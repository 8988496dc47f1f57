import Jack.Source.Position

/-!
# Tokens of the Jack language

A token is a reserved word, a symbol, an integer constant, a string constant or an identifier,
together with the stretch of text it was read from.
-/

namespace Jack

/-! ## Reserved words and symbols -/

/-- The reserved words. -/
inductive Keyword where
  | «class» | constructor | function | method | field | static | var
  | int | char | boolean | void | true | false | null | this
  | «let» | «do» | «if» | «else» | «while» | «return»
deriving DecidableEq, Repr

namespace Keyword

/-- The spelling of a reserved word. -/
def text : Keyword → String
  | «class» => "class"
  | constructor => "constructor"
  | function => "function"
  | method => "method"
  | field => "field"
  | static => "static"
  | var => "var"
  | int => "int"
  | char => "char"
  | boolean => "boolean"
  | void => "void"
  | true => "true"
  | false => "false"
  | null => "null"
  | this => "this"
  | «let» => "let"
  | «do» => "do"
  | «if» => "if"
  | «else» => "else"
  | «while» => "while"
  | «return» => "return"

/-- Every reserved word once. -/
def all : List Keyword :=
  [«class», constructor, function, method, field, static, var, int, char, boolean, void, true,
    false, null, this, «let», «do», «if», «else», «while», «return»]

/-- The reserved word with this spelling, if there is one. Case counts. -/
def ofText? (word : String) : Option Keyword :=
  all.find? fun k => k.text == word

theorem ofText?_text (k : Keyword) : ofText? k.text = some k := by
  cases k <;> decide

end Keyword

/-- The characters that are tokens by themselves. -/
def symbols : List Char :=
  ['{', '}', '(', ')', '[', ']', '.', ',', ';', '+', '-', '*', '/', '&', '|', '<', '>', '=', '~']

/-- Whether a character is a token by itself. -/
def isSymbol (c : Char) : Bool :=
  symbols.contains c

/-- The largest integer constant, character code and string length. -/
def maxConstant : Nat := 32767

/-! ## Tokens -/

/-- What a token is. A scanned symbol is one of `symbols` and a scanned integer is at most
`maxConstant`, but token sequences made by other means need not respect either. -/
inductive TokenKind where
  | keyword (k : Keyword)
  | symbol (c : Char)
  | int (n : Nat)
  | string (s : String)
  | identifier (name : String)
deriving DecidableEq, Repr

/-- The five sorts of token. -/
inductive TokenType where
  | keyword | symbol | int | string | identifier
deriving DecidableEq, Repr

/-- How error messages call a sort of token. -/
def TokenType.text : TokenType → String
  | keyword => "keyword"
  | symbol => "symbol"
  | int => "integer constant"
  | string => "string constant"
  | identifier => "identifier"

namespace TokenKind

/-- The sort of a token. -/
def type : TokenKind → TokenType
  | keyword _ => .keyword
  | symbol _ => .symbol
  | int _ => .int
  | string _ => .string
  | identifier _ => .identifier

/-- A token as it is written in a source text. -/
def text : TokenKind → String
  | keyword k => k.text
  | symbol c => String.singleton c
  | int n => n.repr
  | string s => "\"" ++ s ++ "\""
  | identifier name => name

/-- The token that a word stands for: a reserved word, or else an identifier. -/
def ofWord (word : String) : TokenKind :=
  match Keyword.ofText? word with
  | some k => keyword k
  | none => identifier word

/-- The word, if a token is a reserved word. -/
def keyword? : TokenKind → Option Keyword
  | keyword k => some k
  | _ => none

/-- The character, if a token is a symbol. -/
def symbol? : TokenKind → Option Char
  | symbol c => some c
  | _ => none

/-- The value, if a token is an integer constant. -/
def int? : TokenKind → Option Nat
  | int n => some n
  | _ => none

/-- The text between the quotes, if a token is a string constant. -/
def string? : TokenKind → Option String
  | string s => some s
  | _ => none

/-- The name, if a token is an identifier. -/
def identifier? : TokenKind → Option String
  | identifier name => some name
  | _ => none

end TokenKind

/-- A token and where it stands. -/
structure Token where
  kind : TokenKind
  span : Span
deriving DecidableEq, Repr

end Jack
