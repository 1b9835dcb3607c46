/-!
# Finite binary64 numbers

A finite number of the double format is a sign, a significand and a power of two. Arithmetic is
exact in natural numbers and rounds once at the end, to the nearest number, a tie going to the even
significand.

`Binary64.round` is the one place where rounding happens; `mul`, `div` and `add` form the exact
result and round it. A result too large for the format is `none`.
-/

namespace ContractBuild

/-- The number `(-1) ^ negative * significand * 2 ^ exponent`. Read off a rounding, the significand
is below `2 ^ 53`, and at least `2 ^ 52` unless the exponent is `-1074`. -/
structure Binary64 where
  negative : Bool
  significand : Nat
  exponent : Int
  deriving Repr, DecidableEq, Inhabited

namespace Binary64

/-- A zero with a sign. -/
def zero (negative : Bool) : Binary64 := ⟨negative, 0, -1074⟩

/-- The least exponent of the format, that of the subnormal numbers. -/
def minExponent : Int := -1074

/-- The greatest exponent of the format. -/
def maxExponent : Int := 971

/-- The quotient rounded to the nearest natural number, a tie to the even one. -/
def roundDiv (num den : Nat) : Nat :=
  let q := num / den
  let r := num % den
  if 2 * r < den then q
  else if den < 2 * r then q + 1
  else if q % 2 == 0 then q else q + 1

/-- The fraction `num / den` divided by `2 ^ e`, as a fraction. -/
def scale (num den : Nat) (e : Int) : Nat × Nat :=
  match e with
  | .ofNat k => (num, den * Nat.pow 2 k)
  | .negSucc k => (num * Nat.pow 2 (k + 1), den)

/-- The exponent under which `num / den` has a significand of 53 bits, but none below the least. -/
def exponentFor (num den : Nat) : Int :=
  let guess : Int := (num.log2 : Int) - (den.log2 : Int) - 52
  let (n, d) := scale num den guess
  -- The guess is right or one too large.
  let fitted := if n < d * Nat.pow 2 52 then guess - 1 else guess
  max fitted minExponent

/-- The number nearest to `num / den`, or none if that is too large. -/
def round (negative : Bool) (num den : Nat) : Option Binary64 :=
  if num == 0 then some (zero negative)
  else
    let e := exponentFor num den
    let (n, d) := scale num den e
    let m := roundDiv n d
    let (m, e) := if m == Nat.pow 2 53 then (Nat.pow 2 52, e + 1) else (m, e)
    if maxExponent < e then none else some ⟨negative, m, e⟩

/-- The magnitude as a fraction. -/
def fraction (x : Binary64) : Nat × Nat :=
  match x.exponent with
  | .ofNat k => (x.significand * Nat.pow 2 k, 1)
  | .negSucc k => (x.significand, Nat.pow 2 (k + 1))

/-- The number nearest to a natural number. -/
def ofNat? (n : Nat) : Option Binary64 := round false n 1

/-- The product, rounded. -/
def mul (x y : Binary64) : Option Binary64 :=
  let (a, b) := x.fraction
  let (c, d) := y.fraction
  round (x.negative != y.negative) (a * c) (b * d)

/-- The quotient, rounded; none for a zero divisor. -/
def div (x y : Binary64) : Option Binary64 :=
  let (a, b) := x.fraction
  let (c, d) := y.fraction
  if c == 0 then none else round (x.negative != y.negative) (a * d) (b * c)

/-- The sum of two numbers without signs, rounded. -/
def addMagnitudes (x y : Binary64) : Option Binary64 :=
  let (a, b) := x.fraction
  let (c, d) := y.fraction
  round false (a * d + c * b) (b * d)

/-- The number nearest to a power of ten. -/
def powerOfTen (k : Nat) : Option Binary64 := round false (Nat.pow 10 k) 1

/-- Whether the number is a zero. -/
def isZero (x : Binary64) : Bool := x.significand == 0

end Binary64

end ContractBuild
