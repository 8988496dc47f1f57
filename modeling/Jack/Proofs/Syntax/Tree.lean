import Jack.Codegen.Class

/-!
# Syntax trees

The grammar as types: a type for each production, a constructor for each of its forms. `tokens`
writes a tree out as the kinds of its tokens, so a sequence of tokens belongs to the grammar
exactly if it is `tokens` of some tree.
-/

namespace Jack.Syntax

/-! ## Expressions -/

/-- The binary operators. -/
inductive Operator where
  | add | sub | and | or | lt | gt | eq | mul | div
deriving DecidableEq, Repr

/-- The symbol of a binary operator. -/
def Operator.symbol : Operator → Char
  | add => '+'
  | sub => '-'
  | and => '&'
  | or => '|'
  | lt => '<'
  | gt => '>'
  | eq => '='
  | mul => '*'
  | div => '/'

/-- What may stand before a term. -/
inductive Sign where
  | minus | tilde
deriving DecidableEq, Repr

/-- The symbol of a sign. -/
def Sign.symbol : Sign → Char
  | minus => '-'
  | tilde => '~'

/-- The constants that are reserved words. -/
inductive Constant where
  | true | false | null | this
deriving DecidableEq, Repr

/-- The reserved word of a constant. -/
def Constant.keyword : Constant → Keyword
  | true => .true
  | false => .false
  | null => .null
  | this => .this

mutual

/-- An operand of an expression. -/
inductive Term where
  | int (n : Nat)
  | string (s : String)
  | constant (c : Constant)
  | var (name : String)
  /-- `name [ index ]` -/
  | element (name : String) (index : Expression)
  | call (c : Call)
  /-- `( e )` -/
  | group (e : Expression)
  | signed (sign : Sign) (t : Term)

/-- `term (operator term)*` -/
inductive Expression where
  | mk (first : Term) (rest : Chain)

/-- `(operator term)*` -/
inductive Chain where
  | nil
  | cons (op : Operator) (t : Term) (rest : Chain)

/-- A call. Whether the qualifier of a call is a variable or a class is not a matter of form. -/
inductive Call where
  /-- `name ( arguments )` -/
  | own (name : String) (arguments : Arguments)
  /-- `qualifier . name ( arguments )` -/
  | qualified (qualifier name : String) (arguments : Arguments)

/-- `(expression (, expression)*)?` -/
inductive Arguments where
  | nil
  | cons (e : Expression) (rest : Arguments)

end

/-- The identifier that a call starts with. -/
def Call.first : Call → String
  | own name _ => name
  | qualified qualifier _ _ => qualifier

/-- The number of arguments in a list. -/
def Arguments.length : Arguments → Nat
  | nil => 0
  | cons _ rest => rest.length + 1

mutual

/-- The tokens of a term. -/
def Term.tokens : Term → List TokenKind
  | .int n => [.int n]
  | .string s => [.string s]
  | .constant c => [.keyword c.keyword]
  | .var name => [.identifier name]
  | .element name index => [.identifier name, .symbol '['] ++ index.tokens ++ [.symbol ']']
  | .call c => .identifier c.first :: c.tail
  | .group e => [.symbol '('] ++ e.tokens ++ [.symbol ')']
  | .signed sign t => .symbol sign.symbol :: t.tokens

/-- The tokens of an expression. -/
def Expression.tokens : Expression → List TokenKind
  | .mk first rest => first.tokens ++ rest.tokens

/-- The tokens of a chain. -/
def Chain.tokens : Chain → List TokenKind
  | .nil => []
  | .cons op t rest => .symbol op.symbol :: (t.tokens ++ rest.tokens)

/-- The tokens of a call after its first identifier. -/
def Call.tail : Call → List TokenKind
  | .own _ arguments => [.symbol '('] ++ arguments.tokens ++ [.symbol ')']
  | .qualified _ name arguments =>
    [.symbol '.', .identifier name, .symbol '('] ++ arguments.tokens ++ [.symbol ')']

/-- The tokens of arguments. -/
def Arguments.tokens : Arguments → List TokenKind
  | .nil => []
  | .cons e rest => e.tokens ++ rest.tail

/-- The tokens of arguments that others precede. -/
def Arguments.tail : Arguments → List TokenKind
  | .nil => []
  | .cons e rest => .symbol ',' :: (e.tokens ++ rest.tail)

end

/-- The tokens of a call. -/
def Call.tokens (c : Call) : List TokenKind :=
  .identifier c.first :: c.tail

/-! ## Statements -/

mutual

/-- A statement. -/
inductive Statement where
  /-- `let name = value ;` -/
  | assign (name : String) (value : Expression)
  /-- `let name [ index ] = value ;` -/
  | assignElement (name : String) (index value : Expression)
  /-- `if ( condition ) { yes }` -/
  | when (condition : Expression) (yes : Statements)
  /-- `if ( condition ) { yes } else { no }` -/
  | choose (condition : Expression) (yes no : Statements)
  /-- `while ( condition ) { body }` -/
  | loop (condition : Expression) (body : Statements)
  /-- `do call ;` -/
  | perform (call : Call)
  /-- `return value? ;` -/
  | leave (value : Option Expression)

/-- Statements, one after the other. -/
inductive Statements where
  | nil
  | cons (s : Statement) (rest : Statements)

end

/-- `{ inside }` -/
def braces (inside : List TokenKind) : List TokenKind :=
  [.symbol '{'] ++ inside ++ [.symbol '}']

/-- `( inside )` -/
def parentheses (inside : List TokenKind) : List TokenKind :=
  [.symbol '('] ++ inside ++ [.symbol ')']

mutual

/-- The tokens of a statement. -/
def Statement.tokens : Statement → List TokenKind
  | .assign name value =>
    [.keyword .let, .identifier name, .symbol '='] ++ value.tokens ++ [.symbol ';']
  | .assignElement name index value =>
    [.keyword .let, .identifier name, .symbol '['] ++ index.tokens ++
      [.symbol ']', .symbol '='] ++ value.tokens ++ [.symbol ';']
  | .when condition yes =>
    .keyword .if :: (parentheses condition.tokens ++ braces yes.tokens)
  | .choose condition yes no =>
    .keyword .if :: (parentheses condition.tokens ++ braces yes.tokens ++
      .keyword .else :: braces no.tokens)
  | .loop condition body =>
    .keyword .while :: (parentheses condition.tokens ++ braces body.tokens)
  | .perform call => .keyword .do :: (call.tokens ++ [.symbol ';'])
  | .leave none => [.keyword .return, .symbol ';']
  | .leave (some value) => .keyword .return :: (value.tokens ++ [.symbol ';'])

/-- The tokens of statements. -/
def Statements.tokens : Statements → List TokenKind
  | .nil => []
  | .cons s rest => s.tokens ++ rest.tokens

end

/-! ## Declarations -/

/-- The type of a variable. -/
inductive DataType where
  | int | char | boolean
  | named (cls : String)
deriving DecidableEq, Repr

/-- The token of a type. -/
def DataType.token : DataType → TokenKind
  | int => .keyword .int
  | char => .keyword .char
  | boolean => .keyword .boolean
  | named cls => .identifier cls

/-- The name of a type. -/
def DataType.text : DataType → String
  | int => "int"
  | char => "char"
  | boolean => "boolean"
  | named cls => cls

/-- The type of what a subroutine returns. -/
inductive ReturnType where
  | void
  | data (type : DataType)
deriving DecidableEq, Repr

/-- The token of a return type. -/
def ReturnType.token : ReturnType → TokenKind
  | void => .keyword .void
  | data type => type.token

/-- Names after others. -/
def nameTail (names : List String) : List TokenKind :=
  names.flatMap fun name => [.symbol ',', .identifier name]

/-- `type first (, name)* ;` -/
structure Names where
  type : DataType
  first : String
  more : List String
deriving DecidableEq, Repr

/-- The tokens of a declaration after its first word. -/
def Names.tokens (d : Names) : List TokenKind :=
  [d.type.token, .identifier d.first] ++ nameTail d.more ++ [.symbol ';']

/-- `type name` -/
structure Parameter where
  type : DataType
  name : String
deriving DecidableEq, Repr

/-- The tokens of a parameter. -/
def Parameter.tokens (q : Parameter) : List TokenKind :=
  [q.type.token, .identifier q.name]

/-- The tokens of `type name (, type name)*`, or of nothing. -/
def parameterTokens : List Parameter → List TokenKind
  | [] => []
  | q :: more => q.tokens ++ more.flatMap fun q => .symbol ',' :: q.tokens

/-! ## Classes -/

/-- `sort type name ( parameters ) { locals body }` -/
structure Subroutine where
  kind : SubroutineKind
  returns : ReturnType
  name : String
  parameters : List Parameter
  locals : List Names
  body : Statements

/-- The word that a subroutine of a sort starts with. -/
def subroutineKeyword : SubroutineKind → Keyword
  | .constructor => .constructor
  | .function => .function
  | .method => .method

/-- The tokens of declarations of local variables. -/
def localTokens (locals : List Names) : List TokenKind :=
  locals.flatMap fun d => .keyword .var :: d.tokens

/-- The tokens of a subroutine after its first word. -/
def Subroutine.tail (r : Subroutine) : List TokenKind :=
  [r.returns.token, .identifier r.name] ++ parentheses (parameterTokens r.parameters) ++
    braces (localTokens r.locals ++ r.body.tokens)

/-- What stands in a class. -/
inductive Member where
  | statics (d : Names)
  | fields (d : Names)
  | subroutine (r : Subroutine)

/-- The tokens of a member. -/
def Member.tokens : Member → List TokenKind
  | statics d => .keyword .static :: d.tokens
  | fields d => .keyword .field :: d.tokens
  | subroutine r => .keyword (subroutineKeyword r.kind) :: r.tail

/-- `class name { members }`, with variables and subroutines in any order. -/
structure Class where
  name : String
  members : List Member

/-- The tokens of a class. -/
def Class.tokens (c : Class) : List TokenKind :=
  [.keyword .class, .identifier c.name] ++ braces (c.members.flatMap Member.tokens)

end Jack.Syntax
