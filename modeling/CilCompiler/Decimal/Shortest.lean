import CilCompiler.Decimal.Binary64

/-!
# Shortest decimals

A double-precision number is written with the fewest digits that read back to it.

* `Decimal` is a digit string with the place of its point.
* `Decimal.shortest` finds, for a positive `m · 2 ^ q`, the first decimal grid that meets the
  interval of reals that round to it, and on that grid the point nearest to it.
-/

namespace CilCompiler

/-- The number `0.d₁d₂…dₙ · 10 ^ point`. The digits hold no leading and no trailing zero. -/
structure Decimal where
  digits : List Char
  point : Int
  deriving DecidableEq

namespace Decimal

/-- The reals that round to `m · 2 ^ q`, in quarters of `2 ^ q`: the number itself, the two ends,
and whether the ends belong. The gap below a power of two is half as wide. -/
structure Interval where
  value : Nat
  low : Nat
  high : Nat
  closed : Bool

def interval (m : Nat) (q : Int) : Interval :=
  { value := 4 * m
    low := if m = Binary64.leadingBit ∧ q > -1074 then 4 * m - 1 else 4 * m - 2
    high := 4 * m + 2
    closed := m % 2 = 0 }

/-- Whether `candidate · step` lies in the interval, all in units of the same size. -/
def Interval.holds (i : Interval) (unit : Nat) (point : Nat) : Bool :=
  if i.closed then i.low * unit ≤ point && point ≤ i.high * unit
  else i.low * unit < point && point < i.high * unit

/-- The grid of step `10 ^ k` beside the interval: both in whole units, as the size of a quarter and
the size of a step. -/
def units (q k : Int) : Nat × Nat :=
  let quarter := q - 2
  (Nat.pow 2 quarter.toNat * Nat.pow 10 (-k).toNat,
    Nat.pow 2 (-quarter).toNat * Nat.pow 10 k.toNat)

/-- The multiple of `10 ^ k` in the interval nearest to its value, if one of the value's two
neighbours lies in it. Of two that are equally near, it is the greater. -/
def onGrid? (i : Interval) (q k : Int) : Option Nat :=
  let (unit, step) := units q k
  let below := i.value * unit / step
  let excess := i.value * unit % step
  let lower := i.holds unit (below * step)
  let upper := i.holds unit ((below + 1) * step)
  if lower && (!upper || 2 * excess < step) then some below
  else if upper then some (below + 1)
  else none

/-- The least `p` with `m · 2 ^ q < 10 ^ p`, counted up from `p`. -/
def pointFrom (m : Nat) (q : Int) : Nat → Int → Int
  | 0, p => p
  | fuel + 1, p =>
    if m * Nat.pow 2 q.toNat * Nat.pow 10 (-p).toNat <
        Nat.pow 10 p.toNat * Nat.pow 2 (-q).toNat then p
    else pointFrom m q fuel (p + 1)

/-- The least `p` with `m · 2 ^ q < 10 ^ p`. Since `2 ^ 10` exceeds `10 ^ 3`, three tenths of the
binary exponent is close from below. -/
def pointOf (m : Nat) (q : Int) : Int :=
  let binary : Int := m.log2 + q
  pointFrom m q 40 (binary * 3 / 10 - (if binary < 0 then 20 else 0))

/-- The decimal of `n · 10 ^ k`, without the zeros at its end. -/
def ofScaled (n : Nat) (k : Int) : Decimal :=
  let digits := Nat.toDigits 10 n
  { digits := (digits.reverse.dropWhile (· == '0')).reverse
    point := k + digits.length }

/-- The first of the grids with `n`, `n + 1`, … digits that meets the interval. -/
def searchFrom (i : Interval) (q point : Int) : Nat → Nat → Decimal
  | 0, n => ofScaled ((onGrid? i q (point - n)).getD 0) (point - n)
  | fuel + 1, n =>
    match onGrid? i q (point - n) with
    | some c => ofScaled c (point - n)
    | none => searchFrom i q point fuel (n + 1)

/-- The shortest decimal that reads back as `m · 2 ^ q`, for a positive `m`. Seventeen digits always
suffice. -/
def shortest (m : Nat) (q : Int) : Decimal :=
  searchFrom (interval m q) q (pointOf m q) 16 1

end Decimal

end CilCompiler
