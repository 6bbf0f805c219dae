/-!
# Hexadecimal words

Instruction offsets are written as labels: the mark `IL_` and the offset in hexadecimal.

* `hexValue?` is the value of one digit, in either case.
* `readHex?` reads a word of digits; `readWord32?` also takes a leading plus sign and bounds the
  value by 32 bits.
* `label` writes an offset with at least four lower-case digits.
-/

namespace CilCompiler.Text

/-- The value of a hexadecimal digit of either case. -/
def hexValue? (c : Char) : Option Nat :=
  if '0' ≤ c ∧ c ≤ '9' then some (c.toNat - '0'.toNat)
  else if 'a' ≤ c ∧ c ≤ 'f' then some (c.toNat - 'a'.toNat + 10)
  else if 'A' ≤ c ∧ c ≤ 'F' then some (c.toNat - 'A'.toNat + 10)
  else none

def isHexDigit (c : Char) : Bool := (hexValue? c).isSome

/-- The number that the digits `cs` continue, when `acc` has been read before them. -/
def readHexFrom? (acc : Nat) : List Char → Option Nat
  | [] => some acc
  | c :: cs =>
    match hexValue? c with
    | some d => readHexFrom? (16 * acc + d) cs
    | none => none

/-- The number written by one or more digits. -/
def readHex? : List Char → Option Nat
  | [] => none
  | cs => readHexFrom? 0 cs

/-- A number of 32 bits in hexadecimal; one plus sign may stand before the digits. -/
def readWord32? (cs : List Char) : Option UInt32 :=
  let digits := match cs with
    | '+' :: rest => rest
    | _ => cs
  match readHex? digits with
  | some n => if n < UInt32.size then some n.toUInt32 else none
  | none => none

/-- The lower-case hexadecimal digits of `n`, filled up with zeros to at least `width`. -/
def hexDigits (width n : Nat) : List Char :=
  let digits := Nat.toDigits 16 n
  List.replicate (width - digits.length) '0' ++ digits

/-- The mark with which every label starts. -/
def labelMark : List Char := ['I', 'L', '_']

/-- The label of an instruction offset. -/
def label (offset : UInt32) : String :=
  String.ofList (labelMark ++ hexDigits 4 offset.toNat)

/-- The offset that a word names when it is a label. -/
def readLabel? (word : String) : Option UInt32 :=
  match word.toList with
  | 'I' :: 'L' :: '_' :: digits => readWord32? digits
  | _ => none

/-- Whether a word carries the mark of a label, whatever follows it. -/
def hasLabelMark (word : String) : Bool :=
  labelMark.isPrefixOf word.toList

end CilCompiler.Text
