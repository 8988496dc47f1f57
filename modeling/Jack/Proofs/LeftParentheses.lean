import Jack.Proofs.Syntax.Occurrences
import Jack.Proofs.TwoPasses

/-!
# Parentheses on the left are redundant

All operators bind alike, and from the left. So an expression means the same, and has the same code,
if its first terms are put into parentheses. This holds at every place where an expression can stand
in a class.
-/

namespace Jack

namespace Syntax

/-! ## Cutting a chain -/

/-- One chain after the other. -/
def Chain.append : Chain → Chain → Chain
  | .nil, right => right
  | .cons op t left, right => .cons op t (left.append right)

section Append

variable (left right : Chain)

theorem Chain.tokens_append : (left.append right).tokens = left.tokens ++ right.tokens := by
  fun_induction Chain.append left right with
  | case1 => rfl
  | case2 op t left right ih => simp only [tokens, ih, List.cons_append, List.append_assoc]

theorem Chain.code_append (s : Scope) :
    (left.append right).code s = left.code s ++ right.code s := by
  fun_induction Chain.append left right with
  | case1 => rfl
  | case2 op t left right ih => simp only [code, ih, List.append_assoc, List.cons_append]

theorem Chain.valid_append (s : Scope) :
    (left.append right).Valid s ↔ left.Valid s ∧ right.Valid s := by
  fun_induction Chain.append left right with
  | case1 => simp only [Valid, true_and]
  | case2 op t left right ih => simp only [Valid, ih, and_assoc]

end Append

/-- An expression with its first terms in parentheses. -/
def enclosed (t : Term) (left right : Chain) : Expression :=
  .mk (.group (.mk t left)) right

/-- Parentheses around the first terms change neither the code nor what is valid. -/
theorem like_enclosed (t : Term) (left right : Chain) :
    (Expression.mk t (left.append right)).Like (enclosed t left right) := by
  intro s
  constructor
  · simp only [enclosed, Expression.code, Term.code, Chain.code_append, List.append_assoc]
  · intro valid
    obtain ⟨first, rest⟩ := valid
    obtain ⟨inside, outside⟩ := (Chain.valid_append left right s).1 rest
    exact ⟨⟨first, inside⟩, outside⟩

end Syntax

/-! ## Compiled code -/

/-- An expression of a class whose tokens are these, and the tokens before it and after it. -/
def Syntax.Expression.StandsIn (e : Syntax.Expression) (kinds before after : List TokenKind) :
    Prop :=
  ∃ c : Syntax.Class, c.tokens = kinds ∧ e.InClass c before after

/-- Parentheses on the left are redundant. In all tokens that the compiler accepts, and for every
expression that stands in them, the tokens with any first terms of the expression in parentheses are
accepted too, and compiled to the same bytes. -/
theorem left_parentheses_redundant {tokens tokens' : List Token} {b : Buffer}
    {t : Syntax.Term} {left right : Syntax.Chain} {before after : List TokenKind}
    (accepted : compileClass (.ofTokens tokens) ({} : Buffer) = .ok () b)
    (stands : (Syntax.Expression.mk t (left.append right)).StandsIn (tokens.map Token.kind) before
      after)
    (inserted : tokens'.map Token.kind =
      before ++ [.symbol '('] ++ (Syntax.Expression.mk t left).tokens ++ [.symbol ')'] ++
        right.tokens ++ after) :
    tokens.map Token.kind =
        before ++ (Syntax.Expression.mk t left).tokens ++ right.tokens ++ after ∧
      compileClass (.ofTokens tokens') ({} : Buffer) = .ok () b := by
  obtain ⟨c, same, place⟩ := stands
  obtain ⟨fill, rfl, filled, alike⟩ := Syntax.frame_class place
  constructor
  · rw [← same, filled]
    simp only [Syntax.Expression.tokens, Syntax.Chain.tokens_append, List.append_assoc]
  · obtain ⟨code_eq, stays_valid⟩ := alike _ (Syntax.like_enclosed t left right)
    obtain ⟨⟨c', same', valid, writes⟩, flushed⟩ := (compileClass_eq_ok roomy_empty).1 accepted
    obtain rfl := Syntax.Class.tokens_injective (same'.trans same.symm)
    apply (compileClass_eq_ok roomy_empty).2
    refine ⟨⟨_, ?_, stays_valid valid, ?_⟩, flushed⟩
    · rw [filled]
      refine Eq.trans ?_ inserted.symm
      simp only [Syntax.enclosed, Syntax.Expression.tokens, Syntax.Term.tokens, List.append_assoc]
    · rw [code_eq]
      exact writes

/-- A method with a loop that passes a value on. -/
def passingMethod (argument : Syntax.Expression) : Syntax.Subroutine where
  kind := .method
  returns := .data .int
  name := "f"
  parameters := [⟨.int, "x"⟩]
  locals := []
  body := .cons (.loop (.mk (.var "x") .nil) (.cons (.assign "x" (.mk (.var "y")
      (.cons .sub (.call (.qualified "A" "g" (.cons (.mk (.int 1) .nil)
        (.cons argument .nil)))) .nil))) .nil))
    (.cons (.leave (some (.mk (.var "x") .nil))) .nil)

/-- A class with this method and a field. -/
def passing (argument : Syntax.Expression) : Syntax.Class :=
  ⟨"A", [.fields ⟨.int, "y", []⟩, .subroutine (passingMethod argument)]⟩

/-- `+ y * 2` -/
def plusTwice : Syntax.Chain :=
  .cons .add (.var "y") (.cons .mul (.int 2) .nil)

/-- `- x` -/
def minusLast : Syntax.Chain :=
  .cons .sub (.var "x") .nil

/-- The tokens of the class before the argument. -/
def beforeArgument : List TokenKind :=
  [.keyword .class, .identifier "A", .symbol '{', .keyword .field, .keyword .int, .identifier "y",
    .symbol ';', .keyword .method, .keyword .int, .identifier "f", .symbol '(', .keyword .int,
    .identifier "x", .symbol ')', .symbol '{', .keyword .while, .symbol '(', .identifier "x",
    .symbol ')', .symbol '{', .keyword .let, .identifier "x", .symbol '=', .identifier "y",
    .symbol '-', .identifier "A", .symbol '.', .identifier "g", .symbol '(', .int 1, .symbol ',']

/-- The tokens of the class after the argument. -/
def afterArgument : List TokenKind :=
  [.symbol ')', .symbol ';', .symbol '}', .keyword .return, .identifier "x", .symbol ';',
    .symbol '}', .symbol '}']

theorem argument_stands (e : Syntax.Expression) :
    e.InClass (passing e) beforeArgument afterArgument := by
  have place : e.InStatements (passingMethod e).body _ _ :=
    .first (.loopBody (.first (.assign (.later (.first (.call (.qualified
      (.later (.first .whole)))))))))
  exact @Syntax.Expression.InClass.body e "A" [.fields ⟨.int, "y", []⟩] [] _ _ _ place

theorem passing_valid : (passing (.mk (.var "x") (plusTwice.append minusLast))).Valid where
  statics := by decide
  fields := by decide
  members := by
    refine ⟨⟨by decide, by decide, ?_⟩, trivial⟩
    -- The only names read are those of the parameter and of the field.
    have short : 2 + 0 ≤ 65535 := by decide
    exact ⟨⟨⟨rfl, trivial⟩, ⟨rfl, rfl, ⟨short, ⟨trivial, trivial⟩,
      ⟨rfl, rfl, trivial, rfl, trivial⟩, trivial⟩, trivial⟩, trivial⟩, ⟨rfl, trivial⟩, trivial⟩

/-- The tokens of the class with an argument, as if all stood at one place. -/
def passingTokens (argument : List TokenKind) : List Token :=
  (beforeArgument ++ argument ++ afterArgument).map (⟨·, ⟨0, 0, 1, 1⟩⟩)

/-- In the second argument, `x + y * 2 - x` can be written as `(x + y * 2) - x`. -/
theorem argument_enclosed :
    ∃ b, compileClass (.ofTokens (passingTokens [.identifier "x", .symbol '+', .identifier "y",
          .symbol '*', .int 2, .symbol '-', .identifier "x"])) ({} : Buffer) = .ok () b ∧
      compileClass (.ofTokens (passingTokens [.symbol '(', .identifier "x", .symbol '+',
          .identifier "y", .symbol '*', .int 2, .symbol ')', .symbol '-', .identifier "x"]))
        ({} : Buffer) = .ok () b := by
  let e : Syntax.Expression := .mk (.var "x") (plusTwice.append minusLast)
  refine ⟨{ bytes := (codeText (passing e).code).toUTF8 },
    (and_iff_left_of_imp fun accepted => ?_).2 ?_⟩
  · exact (left_parentheses_redundant accepted ⟨_, rfl, argument_stands e⟩ rfl).2
  · exact (compileClass_eq_ok roomy_empty).2
      ⟨⟨passing e, rfl, passing_valid, writes_empty.2 rfl⟩, rfl⟩

end Jack
