/-!
# Double-precision numbers

A float literal is a double-precision number, held as its sixty-four bits. All arithmetic on it is
exact arithmetic on natural numbers.

* `Binary64.magnitude` reads the bits: not a number, infinite, or `m · 2 ^ q`.
* `Binary64.ofRatio` rounds a quotient to the nearest number, a tie to the even one.
* `Binary64.ofDecimal` and `Binary64.ofInt` round a decimal and a whole number that way.
-/

namespace CilCompiler

structure Binary64 where
  bits : UInt64
  deriving DecidableEq

namespace Binary64

/-- The absolute value of a double-precision number. -/
inductive Magnitude
  | nan
  | infinite
  /-- The number `m · 2 ^ q`. -/
  | finite (m : Nat) (q : Int)
  deriving DecidableEq

/-- The bit that is set in negative numbers. -/
def signBit : Nat := 0x8000000000000000

/-- The lowest bit of the exponent field. As a coefficient, it is the leading bit of fifty-three,
which is not stored. -/
def leadingBit : Nat := 0x10000000000000

def isNegative (x : Binary64) : Bool :=
  x.bits.toNat / signBit = 1

def magnitude (x : Binary64) : Magnitude :=
  let exponent : Nat := x.bits.toNat / leadingBit % 2048
  let fraction : Nat := x.bits.toNat % leadingBit
  if exponent = 2047 then
    if fraction = 0 then .infinite else .nan
  else if exponent = 0 then .finite fraction (-1074)
  else .finite (leadingBit + fraction) ((exponent : Int) - 1075)

/-! ## Rounding -/

/-- The bits of an infinite magnitude. -/
def infiniteBits : Nat := 2047 * leadingBit

/-- `num / den` rounded to a whole number, a tie to the even neighbour. -/
def roundEven (num den : Nat) : Nat :=
  let quotient := num / den
  let twice := 2 * (num % den)
  if twice > den ∨ (twice = den ∧ quotient % 2 = 1) then quotient + 1 else quotient

/-- `num / den` divided by `2 ^ q`, as a quotient again. -/
def scale (num den : Nat) (q : Int) : Nat × Nat :=
  (num * Nat.pow 2 (-q).toNat, den * Nat.pow 2 q.toNat)

/-- The bits of the magnitude nearest to `num / den`. The exponent is chosen so that the rounded
coefficient has fifty-three bits, or fewer at the least exponent; a coefficient that rounds up to
`2 ^ 53` carries into the exponent field by itself. -/
def magnitudeBits (num den : Nat) : Nat :=
  if num = 0 then 0
  else
    let guess : Int := max ((num.log2 : Int) - den.log2 - 53) (-1074)
    let (n, d) := scale num den guess
    let q := if n / d ≥ 2 * leadingBit then guess + 1 else guess
    let (n, d) := scale num den q
    min ((q + 1074).toNat * leadingBit + roundEven n d) infiniteBits

def infinite (negative : Bool) : Binary64 :=
  ⟨((if negative then signBit else 0) + infiniteBits).toUInt64⟩

/-- The quiet number that is none, without a sign. -/
def nan : Binary64 := ⟨0x7ff8000000000000⟩

def ofRatio (negative : Bool) (num den : Nat) : Binary64 :=
  ⟨((if negative then signBit else 0) + magnitudeBits num den).toUInt64⟩

/-- The number nearest to `± digits · 10 ^ exponent`. Beyond the range of the format the power is
not computed: the magnitude is zero or infinite. -/
def ofDecimal (negative : Bool) (digits : Nat) (exponent : Int) : Binary64 :=
  let size : Int := (Nat.toDigits 10 digits).length + exponent
  if digits = 0 ∨ size < -330 then ofRatio negative 0 1
  else if size > 310 then infinite negative
  else ofRatio negative (digits * Nat.pow 10 exponent.toNat) (Nat.pow 10 (-exponent).toNat)

def ofInt (value : Int) : Binary64 :=
  ofRatio (value < 0) value.natAbs 1

end Binary64

end CilCompiler
