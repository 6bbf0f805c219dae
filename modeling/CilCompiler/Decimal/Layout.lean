import CilCompiler.Decimal.Shortest

/-!
# Layouts of a float

The same shortest digits are laid out in two ways.

* `Layout.plain` never uses an exponent and leaves a whole number without a point. It is the form
  of listings and messages.
* `Layout.inspected` keeps a point in whole numbers and turns to an exponent for very small and
  very large magnitudes. It is the form in which an operand is shown with its constructor.
-/

namespace CilCompiler

/-- The decisions of a layout. -/
structure Layout where
  /-- The places of the point, if limited, at which digits are written without an exponent. -/
  positional : Option (Int × Int)
  /-- Whether a whole number ends in a point and a zero. -/
  pointed : Bool

namespace Layout

def plain : Layout := ⟨none, false⟩

/-- Magnitudes from `10 ^ -4` and below `10 ^ 16` are written without an exponent. -/
def inspected : Layout := ⟨some (-3, 16), true⟩

def isPositional (layout : Layout) (point : Int) : Bool :=
  match layout.positional with
  | none => true
  | some (least, greatest) => least ≤ point && point ≤ greatest

/-- The digits with a point among them, before them or behind them. -/
def positionalText (layout : Layout) (d : Decimal) : List Char :=
  let count : Int := d.digits.length
  if d.point ≤ 0 then
    ['0', '.'] ++ List.replicate (-d.point).toNat '0' ++ d.digits
  else if count ≤ d.point then
    d.digits ++ List.replicate (d.point - count).toNat '0' ++
      (if layout.pointed then ['.', '0'] else [])
  else
    d.digits.take d.point.toNat ++ ['.'] ++ d.digits.drop d.point.toNat

/-- One digit, the others behind a point, and the power of ten. -/
def scientificText (d : Decimal) : List Char :=
  let exponent := (toString (d.point - 1)).toList
  match d.digits with
  | [] => []
  | [first] => first :: 'e' :: exponent
  | first :: rest => first :: '.' :: rest ++ 'e' :: exponent

/-- The text of a double-precision number. -/
def text (layout : Layout) (x : Binary64) : String :=
  let sign := if x.isNegative then ['-'] else []
  match x.magnitude with
  | .nan => "NaN"
  | .infinite => String.ofList (sign ++ ['i', 'n', 'f'])
  | .finite 0 _ => String.ofList (sign ++ '0' :: if layout.pointed then ['.', '0'] else [])
  | .finite m q =>
    let d := Decimal.shortest m q
    String.ofList (sign ++
      if layout.isPositional d.point then layout.positionalText d else scientificText d)

end Layout

end CilCompiler
