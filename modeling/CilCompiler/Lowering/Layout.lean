import CilCompiler.Assembly.Basic
import CilCompiler.Failure

/-!
# Values and fields

Every value that a compiled method holds is a word of thirty-two bits, and so is every field.

* `valueKind` maps the supported types to the kind of a word.
* `methodSignature` is the signature of a compiled method.
* `fieldOffset` is the place of a field in an object.
-/

namespace CilCompiler

open Wasm (ValueKind Signature)

/-- The kind of a value; only truth values and integers of thirty-two bits have one. -/
def valueKind : TypeSig → Except CompileError ValueKind
  | .boolean => .ok .i32
  | .int32 => .ok .i32
  | type => .error (.unsupportedType type)

/-- The kind of a result, which may be absent. -/
def resultKind : TypeSig → Except CompileError (Option ValueKind)
  | .void => .ok none
  | type => some <$> valueKind type

/-- The signature of a method. A receiver comes before the parameters. -/
def methodSignature (m : MethodDef) : Except CompileError Signature := do
  let params ← m.params.mapM (valueKind ·.type)
  let result ← resultKind m.result
  return ⟨(if m.hasThis then [.i32] else []) ++ params, result⟩

/-! ## Fields -/

/-- The size of a field in bytes. -/
def fieldSize : Nat := 4

/-- An offset as a sum of thirty-two bits. Beyond them the addition panics, for which
`CompileError.offsetOverflow` stands. -/
def boundedOffset (field : FieldRef) (offset : Nat) : Except CompileError UInt32 :=
  if offset < UInt32.size then .ok offset.toUInt32 else .error (.offsetOverflow field)

/-- The offset behind the instance fields among `fields`, the first of which lies at `offset`.
Every one of them has to have a kind and has to end within thirty-two bits. -/
def offsetBehind (field : FieldRef) (offset : UInt32) :
    List FieldDef → Except CompileError UInt32
  | [] => .ok offset
  | f :: fs =>
    if f.isStatic then offsetBehind field offset fs
    else
      match valueKind f.type with
      | .error e => .error e
      | .ok _ =>
        match boundedOffset field (offset.toNat + fieldSize) with
        | .error e => .error e
        | .ok next => offsetBehind field next fs

/-- The byte offset of an instance field in an object with a header of the given size: behind the
header at its declared offset, or else behind the instance fields declared before it. -/
def fieldOffset (a : Assembly) (headerSize : UInt32) (field : FieldRef) :
    Except CompileError UInt32 :=
  match a.findType field.declaring with
  | none => .error (.unresolvedField field)
  | some type =>
    match type.findField field.name with
    | none => .error (.unresolvedField field)
    | some found =>
      if found.isStatic then .error (.malformedOperand (.staticField field))
      else
        match valueKind found.type with
        | .error e => .error e
        | .ok _ =>
          match found.offset with
          | some offset => boundedOffset field (headerSize.toNat + offset.toNat)
          | none =>
            offsetBehind field headerSize (type.fields.takeWhile (·.name != field.name))

end CilCompiler
