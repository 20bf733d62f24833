/-
  Syntax trees of numeric expressions.

  A sum is a chain of products, a product a chain of signed powers, and a power has a
  literal or a bracketed sum as its base.  Chains lean to the left.  A factor that
  follows without an operator carries no sign, so `2-3` is a difference.

  * `Sum`, `Product`, `Unary`, `Power`, `Primary`: the levels of the grammar.
  * `Sum.tokens` and its companions: the tokens of a tree from left to right.
-/
import SamePoly.Arithmetic.Token

namespace SamePoly.Arithmetic

/-- A sign before a power. -/
inductive Sign where
  | plus
  | minus
deriving DecidableEq, Repr

/-- The token of a sign. -/
def Sign.token : Sign → Token
  | .plus => .plus
  | .minus => .minus

/-- An odd number of minus signs. -/
def Sign.negative (signs : List Sign) : Bool :=
  signs.foldl (fun odd sign => odd ^^ (sign == .minus)) false

mutual

/-- Products added up from left to right. -/
inductive Sum where
  | single (p : Product)
  | plus (s : Sum) (p : Product)
  | minus (s : Sum) (p : Product)

/-- Factors multiplied from left to right. -/
inductive Product where
  | single (u : Unary)
  | times (p : Product) (u : Unary)
  | over (p : Product) (u : Unary)
  /-- A factor that follows without an operator. -/
  | beside (p : Product) (q : Power)

/-- A power behind any number of signs. -/
inductive Unary where
  | signed (signs : List Sign) (p : Power)

/-- A base with or without an exponent. -/
inductive Power where
  | plain (b : Primary)
  | raised (b : Primary) (e : Unary)

/-- A literal or a bracketed sum. -/
inductive Primary where
  | number (l : Literal)
  | imaginary (l : Option Literal)
  | group (s : Sum)

end

mutual

/-- The tokens of a sum. -/
def Sum.tokens : Sum → List Token
  | .single p => p.tokens
  | .plus s p => s.tokens ++ .plus :: p.tokens
  | .minus s p => s.tokens ++ .minus :: p.tokens

/-- The tokens of a product. -/
def Product.tokens : Product → List Token
  | .single u => u.tokens
  | .times p u => p.tokens ++ .times :: u.tokens
  | .over p u => p.tokens ++ .over :: u.tokens
  | .beside p q => p.tokens ++ q.tokens

/-- The tokens of a signed power. -/
def Unary.tokens : Unary → List Token
  | .signed signs p => signs.map Sign.token ++ p.tokens

/-- The tokens of a power. -/
def Power.tokens : Power → List Token
  | .plain b => b.tokens
  | .raised b e => b.tokens ++ .power :: e.tokens

/-- The tokens of a literal or a bracketed sum. -/
def Primary.tokens : Primary → List Token
  | .number l => [.number l]
  | .imaginary l => [.imaginary l]
  | .group s => .opening :: s.tokens ++ [.closing]

end

/-- The spelling of a sum. -/
def Sum.text (s : Sum) : List Char := Token.spelling s.tokens

end SamePoly.Arithmetic
