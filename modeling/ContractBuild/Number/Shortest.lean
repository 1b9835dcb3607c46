import ContractBuild.Number.Binary64

/-!
# The shortest decimal of a binary64 number

`Binary64.shortest` finds the decimal with the fewest digits that rounds to a given number, and of
several the one nearest to it. The search runs over the grids of multiples of powers of ten, coarse
ones first: on each it tries the two neighbours of the number, and the first grid with a hit wins.
-/

namespace ContractBuild

/-- The decimal `digits * 10 ^ exponent`. -/
structure Decimal where
  digits : Nat
  exponent : Int
  deriving Repr, DecidableEq, Inhabited

namespace Binary64

/-- Four times the magnitude and four times the two ends of the interval of numbers that round to
it, all over one denominator. -/
structure Interval where
  low : Nat
  value : Nat
  high : Nat
  den : Nat
  /-- Whether the ends themselves round to the number. -/
  closed : Bool

/-- The interval of numbers that round to `x`, which is not zero. Below a power of two the next
number is only half as far away. -/
def interval (x : Binary64) : Interval :=
  let m := x.significand
  let below := if m == Nat.pow 2 52 && minExponent < x.exponent then 1 else 2
  let (up, down) : Nat × Nat := match x.exponent with
    | .ofNat k => (Nat.pow 2 k, 1)
    | .negSucc k => (1, Nat.pow 2 (k + 1))
  ⟨(4 * m - below) * up, 4 * m * up, (4 * m + 2) * up, 4 * down, m % 2 == 0⟩

/-- `n / den` with `den * 10 ^ k` for a denominator when `k` is positive, and `n * 10 ^ -k` over
`den` when it is negative: the fraction counted in units of `10 ^ k`. -/
def inUnits (n den : Nat) (k : Int) : Nat × Nat :=
  match k with
  | .ofNat j => (n, den * Nat.pow 10 j)
  | .negSucc j => (n * Nat.pow 10 (j + 1), den)

/-- The neighbour of the value on the grid of multiples of `10 ^ k` that lies in the interval, the
nearer of two, the even one of two equally near. -/
def onGrid (i : Interval) (k : Int) : Option Nat :=
  let (v, d) := inUnits i.value i.den k
  let (lo, _) := inUnits i.low i.den k
  let (hi, _) := inUnits i.high i.den k
  let inside (n : Nat) : Bool :=
    if i.closed then lo ≤ n * d && n * d ≤ hi else lo < n * d && n * d < hi
  let below := v / d
  let above := below + 1
  match inside below && below != 0, inside above with
  | true, true => some (roundDiv v d)
  | true, false => some below
  | false, true => some above
  | false, false => none

/-- Searches the grids from `10 ^ k` down. -/
def searchGrids (i : Interval) : Nat → Int → Decimal
  | 0, k => ⟨(inUnits i.value i.den k).1 / (inUnits i.value i.den k).2, k⟩
  | fuel + 1, k =>
    match onGrid i k with
    | some n => ⟨n, k⟩
    | none => searchGrids i fuel (k - 1)

/-- A power of ten that no number of the interval reaches. -/
def gridAbove (i : Interval) : Int :=
  let whole := i.high / i.den
  if whole == 0 then 1 - ((Nat.toDigits 10 (i.den / i.high)).length : Int)
  else (Nat.toDigits 10 whole).length

/-- The decimal with the fewest digits that rounds to the magnitude of `x`. Seventeen digits always
suffice, so the search ends long before its bound. -/
def shortest (x : Binary64) : Decimal :=
  if x.isZero then ⟨0, 0⟩ else searchGrids x.interval 24 (gridAbove x.interval)

end Binary64

namespace Decimal

/-- The digits of the decimal as characters. -/
def digitChars (d : Decimal) : List Char := Nat.toDigits 10 d.digits

/-- The power of ten of the first digit. -/
def magnitude (d : Decimal) : Int := d.exponent + (d.digitChars.length : Int) - 1

/-- Positional notation: the whole part, and the digits behind the point, which may be none. -/
def positional (d : Decimal) : List Char × List Char :=
  let ds := d.digitChars
  match d.exponent with
  | .ofNat k => if d.digits == 0 then (['0'], []) else (ds ++ List.replicate k '0', [])
  | .negSucc k =>
    let places := k + 1
    if ds.length ≤ places then (['0'], List.replicate (places - ds.length) '0' ++ ds)
    else (ds.take (ds.length - places), ds.drop (ds.length - places))

/-- Positional notation without a point when there is nothing behind it. -/
def plain (d : Decimal) : List Char :=
  match d.positional with
  | (whole, []) => whole
  | (whole, places) => whole ++ '.' :: places

end Decimal

end ContractBuild
