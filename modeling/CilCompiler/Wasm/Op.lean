/-!
# Structured operators

The part of WebAssembly that compiled bodies use. Regions have no parameters and no results, so
operands never cross the boundary of a region.

* `ValueKind` and `Signature` are the types of values and functions.
* `Op` is an operator; `Op.text` is its text.
-/

namespace CilCompiler.Wasm

/-! ## Types -/

inductive ValueKind
  | i32
  | i64
  | f32
  | f64
  deriving DecidableEq

def ValueKind.text : ValueKind → String
  | .i32 => "i32"
  | .i64 => "i64"
  | .f32 => "f32"
  | .f64 => "f64"

/-- The kinds that a function takes and the one that it returns, if any. -/
structure Signature where
  params : List ValueKind
  result : Option ValueKind
  deriving DecidableEq

def Signature.text (s : Signature) : String :=
  "(" ++ " ".intercalate (s.params.map ValueKind.text) ++ ") -> " ++
    match s.result with
    | some kind => kind.text
    | none => "()"

/-! ## Operators -/

/-- The operators that take two words and leave one. -/
inductive BinOp
  | add
  | sub
  | mul
  | divS
  | divU
  | remS
  | remU
  | and
  | or
  | xor
  | shl
  | shrS
  | shrU
  | eq
  | ne
  | ltS
  | ltU
  | gtS
  | gtU
  | leS
  | leU
  | geS
  | geU
  deriving DecidableEq

namespace BinOp

def text : BinOp → String
  | .add => "i32.add"
  | .sub => "i32.sub"
  | .mul => "i32.mul"
  | .divS => "i32.div_s"
  | .divU => "i32.div_u"
  | .remS => "i32.rem_s"
  | .remU => "i32.rem_u"
  | .and => "i32.and"
  | .or => "i32.or"
  | .xor => "i32.xor"
  | .shl => "i32.shl"
  | .shrS => "i32.shr_s"
  | .shrU => "i32.shr_u"
  | .eq => "i32.eq"
  | .ne => "i32.ne"
  | .ltS => "i32.lt_s"
  | .ltU => "i32.lt_u"
  | .gtS => "i32.gt_s"
  | .gtU => "i32.gt_u"
  | .leS => "i32.le_s"
  | .leU => "i32.le_u"
  | .geS => "i32.ge_s"
  | .geU => "i32.ge_u"

/-- Every operator on two words. -/
def all : List BinOp :=
  [.add, .sub, .mul, .divS, .divU, .remS, .remU, .and, .or, .xor, .shl, .shrS, .shrU, .eq, .ne,
   .ltS, .ltU, .gtS, .gtU, .leS, .leU, .geS, .geU]

end BinOp

/-- An operator. Labels are counted outwards from the innermost open region. -/
inductive Op
  | block
  | loop
  /-- The operator `end`, which closes the innermost open region or the body. -/
  | close
  | br (label : Nat)
  | brIf (label : Nat)
  | brTable (labels : List Nat) (otherwise : Nat)
  | ret
  | unreachable
  | drop
  | call (function : Nat)
  | localGet (slot : Nat)
  | localSet (slot : Nat)
  | globalGet (global : Nat)
  | const (value : Int32)
  /-- Loads the word at the address on the stack plus `offset`. -/
  | load (offset : UInt32)
  /-- Stores a word at the address on the stack plus `offset`. -/
  | store (offset : UInt32)
  | eqz
  | extend8
  | extend16
  | bin (op : BinOp)
  deriving DecidableEq

/-- The text of an operator with its immediates. -/
def Op.text : Op → String
  | .block => "block"
  | .loop => "loop"
  | .close => "end"
  | .br label => "br " ++ toString label
  | .brIf label => "br_if " ++ toString label
  | .brTable labels otherwise =>
    "br_table " ++ " ".intercalate ((labels ++ [otherwise]).map toString)
  | .ret => "return"
  | .unreachable => "unreachable"
  | .drop => "drop"
  | .call function => "call " ++ toString function
  | .localGet slot => "local.get " ++ toString slot
  | .localSet slot => "local.set " ++ toString slot
  | .globalGet global => "global.get " ++ toString global
  | .const value => "i32.const " ++ toString value.toInt
  | .load offset => "i32.load offset=" ++ toString offset.toNat
  | .store offset => "i32.store offset=" ++ toString offset.toNat
  | .eqz => "i32.eqz"
  | .extend8 => "i32.extend8_s"
  | .extend16 => "i32.extend16_s"
  | .bin op => op.text

end CilCompiler.Wasm
