import CilCompiler.Decimal.Binary64
import CilCompiler.Document.Text

/-!
# Numbers of a document

* `number` reads a whole number of sixty-four bits.
* `fraction` reads a number with a point or an exponent, or one of the special names.
-/

namespace CilCompiler.Document

/-! ## Digits -/

/-- Digits with single underscores between them. -/
def isSpaced (isDigit : Char → Bool) : List Char → Bool
  | [] => false
  | [c] => isDigit c
  | c :: '_' :: cs => isDigit c && isSpaced isDigit cs
  | c :: cs => isDigit c && isSpaced isDigit cs

/-- The number that digits give in a base up to sixteen. -/
def digitsValue (base : Nat) (digits : List Char) : Nat :=
  digits.foldl (fun n c => base * n + (Text.hexValue? c).getD 0) 0

def isDigitOf (base : Nat) (c : Char) : Bool :=
  match Text.hexValue? c with
  | some d => d < base
  | none => false

/-- One digit or more, without the underscores. -/
def digitRun (base : Nat) : Reader (List Char) := do
  let run ← takeWhile fun c => isDigitOf base c || c = '_'
  if isSpaced (isDigitOf base) run then return run.filter (· ≠ '_') else refuse

/-- Digits of a base, as a number. -/
def digits (base : Nat) : Reader Nat := do
  return digitsValue base (← digitRun base)

/-- A decimal number without sign; no zero stands before other digits. -/
def decimal : Reader Nat := do
  if ← accept '0' then
    match ← peek with
    | some c => if isDigitOf 10 c || c = '_' then refuse else return 0
    | none => return 0
  else digits 10

/-- A sign, if one comes next; says whether it is a minus. -/
def sign : Reader Bool := do
  if ← accept '-' then return true
  else
    let _ ← accept '+'
    return false

def signed (negative : Bool) (n : Nat) : Int :=
  if negative then -Int.ofNat n else Int.ofNat n

/-! ## Whole numbers -/

/-- A number with its sign or its base. -/
def signedNumber : Reader Int := do
  if ← acceptAll ['0', 'x'] then return Int.ofNat (← digits 16)
  else if ← acceptAll ['0', 'o'] then return Int.ofNat (← digits 8)
  else if ← acceptAll ['0', 'b'] then return Int.ofNat (← digits 2)
  else return signed (← sign) (← decimal)

/-- A number that has sixty-four bits. -/
def number : Reader Int := do
  let n ← signedNumber
  if -0x8000000000000000 ≤ n ∧ n < 0x8000000000000000 then return n else refuse

/-! ## Fractions -/

/-- An exponent behind its mark, if one comes next. -/
def exponent : Reader (Option Int) := do
  match ← peek with
  | some 'e' | some 'E' => do
    let _ ← next
    return some (signed (← sign) (← digits 10))
  | _ => return none

/-- Digits with a point, an exponent or both, rounded to the nearest number. One that is too great
is refused, while one that is too small is infinite. -/
def decimalFraction : Reader Binary64 := do
  let negative ← sign
  let whole ← decimal
  let behind ← if ← accept '.' then some <$> digitRun 10 else pure none
  let power ← exponent
  if behind = none ∧ power = none then refuse
  else
    let places := behind.getD []
    let coefficient := whole * Nat.pow 10 places.length + digitsValue 10 places
    let x := Binary64.ofDecimal negative coefficient (power.getD 0 - places.length)
    if x = Binary64.infinite false then refuse else return x

/-- The name of an infinite number, or of none, with a sign that may stand before it. -/
def namedFraction : Reader Binary64 := do
  let negative ← sign
  if ← acceptAll ['i', 'n', 'f'] then return Binary64.infinite negative
  else if ← acceptAll ['n', 'a', 'n'] then return Binary64.nan
  else refuse

def fraction : Reader Binary64 := orElse decimalFraction namedFraction

end CilCompiler.Document
