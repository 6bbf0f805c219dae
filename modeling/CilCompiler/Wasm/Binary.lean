import CilCompiler.Wasm.Op

/-!
# The binary form of operators

Everything is written as a list of bytes, so that what stands behind it can be appended.

* `unsigned` and `signed` write numbers in groups of seven bits, lowest first, as few as possible.
* `sequence` writes a counted list, `sized` bytes behind their count.
* `Op.bytes` writes an operator.
-/

namespace CilCompiler.Wasm

abbrev Bytes := List UInt8

/-! ## Numbers -/

/-- A natural number in groups of seven bits. All bytes but the last have the high bit set. -/
def unsigned (n : Nat) : Bytes :=
  if n < 128 then [n.toUInt8]
  else (n % 128 + 128).toUInt8 :: unsigned (n / 128)
termination_by n
decreasing_by omega

/-- An integer in groups of seven bits; bit six of the last byte is the sign. -/
def signed (n : Int) : Bytes :=
  if -64 ≤ n ∧ n < 64 then [(n % 128).toNat.toUInt8]
  else ((n % 128).toNat + 128).toUInt8 :: signed (n / 128)
termination_by n.natAbs
decreasing_by omega

/-! ## Sequences -/

/-- The number of items, and the items. -/
def sequence {α : Type} (item : α → Bytes) (items : List α) : Bytes :=
  unsigned items.length ++ items.flatMap item

/-- The number of bytes, and the bytes. -/
def sized (bytes : Bytes) : Bytes :=
  unsigned bytes.length ++ bytes

/-- A name in UTF-8. -/
def nameBytes (name : String) : Bytes :=
  sized name.toUTF8.data.toList

/-! ## Operators -/

def ValueKind.byte : ValueKind → UInt8
  | .i32 => 0x7f
  | .i64 => 0x7e
  | .f32 => 0x7d
  | .f64 => 0x7c

def BinOp.byte : BinOp → UInt8
  | .eq => 0x46
  | .ne => 0x47
  | .ltS => 0x48
  | .ltU => 0x49
  | .gtS => 0x4a
  | .gtU => 0x4b
  | .leS => 0x4c
  | .leU => 0x4d
  | .geS => 0x4e
  | .geU => 0x4f
  | .add => 0x6a
  | .sub => 0x6b
  | .mul => 0x6c
  | .divS => 0x6d
  | .divU => 0x6e
  | .remS => 0x6f
  | .remU => 0x70
  | .and => 0x71
  | .or => 0x72
  | .xor => 0x73
  | .shl => 0x74
  | .shrS => 0x75
  | .shrU => 0x76

/-- An operator. Regions have the empty type, and words in memory are aligned to four bytes. -/
def Op.bytes : Op → Bytes
  | .unreachable => [0x00]
  | .block => [0x02, 0x40]
  | .loop => [0x03, 0x40]
  | .close => [0x0b]
  | .br label => 0x0c :: unsigned label
  | .brIf label => 0x0d :: unsigned label
  | .brTable labels otherwise => 0x0e :: sequence unsigned labels ++ unsigned otherwise
  | .ret => [0x0f]
  | .call function => 0x10 :: unsigned function
  | .drop => [0x1a]
  | .localGet slot => 0x20 :: unsigned slot
  | .localSet slot => 0x21 :: unsigned slot
  | .globalGet global => 0x23 :: unsigned global
  | .load offset => 0x28 :: 0x02 :: unsigned offset.toNat
  | .store offset => 0x36 :: 0x02 :: unsigned offset.toNat
  | .const value => 0x41 :: signed value.toInt
  | .eqz => [0x45]
  | .bin op => [op.byte]
  | .extend8 => [0xc0]
  | .extend16 => [0xc1]

/-- Runs of equal kinds, with their lengths. -/
def runs : List ValueKind → List (Nat × ValueKind)
  | [] => []
  | kind :: kinds =>
    match runs kinds with
    | (count, next) :: rest =>
      if kind = next then (count + 1, next) :: rest else (1, kind) :: (count, next) :: rest
    | [] => [(1, kind)]

/-- The locals of a body, as runs, and its operators. -/
def bodyBytes (locals : List ValueKind) (ops : List Op) : Bytes :=
  sequence (fun (count, kind) => unsigned count ++ [kind.byte]) (runs locals) ++
    ops.flatMap Op.bytes

end CilCompiler.Wasm
