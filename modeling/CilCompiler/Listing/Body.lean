import CilCompiler.Listing.Grammar

/-!
# Method bodies of a listing

* `Scope` holds the names that a body gives to its arguments and local variables.
* `instruction` reads an opcode and the operand that the opcode asks for.
* `body` reads directives and labelled instructions between braces.
-/

namespace CilCompiler.Listing

/-- The names of the storage of a method, by position; a place without a name holds none. The
receiver of an instance method is the first argument. -/
structure Scope where
  args : List (Option String)
  locals : List (Option String)

/-! ## Operands -/

/-- Thirty-two bits, written as a signed or as an unsigned number. -/
def int32 : Reader Int32 := do
  let value ← expectInt
  if -0x80000000 ≤ value.toInt ∧ value.toInt < 0x100000000 then return Int32.ofInt value.toInt
  else refuse (.tooWide value)

/-- A number with or without a point. -/
def number : Reader Binary64 := do
  match ← take with
  | .float value => return value
  | .int value => return Binary64.ofInt value.toInt
  | found => refuse (.expected .number found)

def string : Reader String := do
  match ← take with
  | .string text => return text
  | found => refuse (.expected .string found)

/-- A place of storage, by number or by the first declaration of a name. -/
def slotIndex (slots : SlotClass) (names : List (Option String)) : Reader UInt16 := do
  match ← take with
  | .int index =>
    if 0 ≤ index.toInt ∧ index.toInt < 0x10000 then return index.toInt.toNat.toUInt16
    else refuse (.slotRange slots index)
  | .ident name =>
    match names.findIdx? (· == some name) with
    | some position => return position.toUInt16
    | none => refuse (.unknownSlot slots name)
  | found => refuse (.expected (.slot slots) found)

/-- The tokens at the front that stand on `line`. -/
def takeLine (line : Nat) : List Located → List Token × List Located
  | [] => ([], [])
  | t :: rest =>
    if t.line = line ∧ t.token ≠ .endOfInput then
      let (seen, rest) := takeLine line rest
      (t.token :: seen, rest)
    else ([], t :: rest)

/-- What is left of `line`, with single blanks between the tokens. -/
def restOfLine (line : Nat) : Reader String := fun ts =>
  let (tokens, rest) := takeLine line ts
  .ok (" ".intercalate (tokens.map Token.describe), rest)

/-- An operand of the shape `kind`; `line` is the line of its opcode. -/
def operand (scope : Scope) (line : Nat) : OperandKind → Reader Operand
  | .empty => return .empty
  | .int32 => return .int32 (← int32)
  | .int64 => return .int64 (← expectInt)
  | .float => return .float (← number)
  | .string => return .string (← string)
  | .arg => return .arg (← slotIndex .argument scope.args)
  | .loc => return .loc (← slotIndex .variableSlot scope.locals)
  | .target => return .target (← label)
  | .targets => return .targets (← inParens label)
  | .method => return .method (← methodRef)
  | .field => return .field (← fieldRef)
  | .type => return .type (← typeSig)
  | .raw => return .raw (← restOfLine line)

/-- An opcode and its operand. An unknown opcode is reported on its own line. -/
def instruction (scope : Scope) (offset : UInt32) : Reader Instruction := do
  let line ← line
  let word ← expectName
  match Opcode.ofMnemonic? word with
  | some opcode => return { offset, opcode, operand := ← operand scope line opcode.operandKind }
  | none => throw ⟨line, .unknownOpcode word⟩

/-! ## Bodies -/

/-- A name, if one follows. -/
def optionalName : Reader (Option String) := do
  match ← peek with
  | .ident _ => return some (← expectName)
  | _ => return none

/-- A declared local variable. A slot number in brackets may stand before the type. -/
def localVariable : Reader (TypeSig × Option String) := do
  if ← acceptPunct '[' then
    let _ ← expectInt
    expectPunct ']'
  let type ← typeSig
  return (type, ← optionalName)

/-- A protected range and its handler. -/
def exceptionRegion : Reader ExceptionRegion := do
  let tryStart ← label
  expectWord "to"
  let tryEnd ← label
  if ← acceptWord "finally" then expectWord "handler"
  else if ← acceptWord "fault" then expectWord "handler"
  else if ← acceptWord "handler" then pure ()
  else
    expectWord "catch"
    let _ ← typeName
    expectWord "handler"
  let handlerStart ← label
  expectWord "to"
  return { tryStart, tryEnd, handlerStart, handlerEnd := ← label }

/-- The part of a body read so far. Local variables are in order, instructions and regions are
latest first. -/
structure PartialBody where
  locals : List (TypeSig × Option String) := []
  instructions : List Instruction := []
  regions : List ExceptionRegion := []

def PartialBody.finish (b : PartialBody) : MethodBody :=
  { locals := b.locals.map Prod.fst
    instructions := b.instructions.reverse
    regions := b.regions.reverse }

/-- One item of a body. -/
def bodyItem (args : List (Option String)) (b : PartialBody) :
    Reader (Round PartialBody MethodBody) := do
  match ← peek with
  | .punct '\x7d' =>
    let _ ← take
    return .done b.finish
  | .ident word =>
    if word = ".maxstack" then
      let _ ← take
      let _ ← expectInt
      return .more b
    else if word = ".entrypoint" then
      let _ ← take
      return .more b
    else if word = ".locals" then
      let _ ← take
      let _ ← acceptWord "init"
      let declared ← inParens localVariable
      return .more { b with locals := b.locals ++ declared }
    else if word = ".try" then
      let _ ← take
      let region ← exceptionRegion
      return .more { b with regions := region :: b.regions }
    else if Text.hasLabelMark word then
      let offset ← label
      expectPunct ':'
      let i ← instruction ⟨args, b.locals.map Prod.snd⟩ offset
      return .more { b with instructions := i :: b.instructions }
    else refuse (.expected .instruction (.ident word))
  | found => refuse (.expected .instruction found)

/-- The body of a method with the given argument names. -/
def body (args : List (Option String)) : Reader MethodBody := do
  expectPunct '\x7b'
  loop (bodyItem args) {}

end CilCompiler.Listing
