import CilCompiler.Assembly.Basic
import CilCompiler.Listing.Error
import CilCompiler.Parser

/-!
# Words, types and references of a listing

The common part of the grammar. A syntax error carries the line of the token at which reading
stands, which for some errors is the token behind the offending one.

* `current`, `take` and the `expect…` parsers read single tokens.
* `inParens` reads a list between parentheses.
* `typeSig`, `typeName`, `methodRef` and `fieldRef` read what operands and declarations name.
-/

namespace CilCompiler.Listing

/-- Reads from the tokens of a listing. -/
abbrev Reader := Parser Located SyntaxError

/-! ## Single tokens -/

/-- The token at which reading stands. -/
def current : List Located → Token
  | [] => .endOfInput
  | t :: _ => t.token

/-- The line on which reading stands. -/
def currentLine : List Located → Nat
  | [] => 0
  | t :: _ => t.line

/-- Moves past the current token, unless it is the end mark. -/
def advance : List Located → List Located
  | [] => []
  | t :: rest => if t.token = .endOfInput then t :: rest else rest

/-- Fails on the current line. -/
def refuse {α : Type} (cause : Cause) : Reader α := fun ts =>
  .error ⟨currentLine ts, cause⟩

/-- The current token, left where it is. -/
def peek : Reader Token := fun ts => .ok (current ts, ts)

/-- The current line. -/
def line : Reader Nat := fun ts => .ok (currentLine ts, ts)

/-- The current token, consumed. -/
def take : Reader Token := fun ts => .ok (current ts, advance ts)

/-- Consumes the current token if it is `token`, and says whether it was. -/
def accept (token : Token) : Reader Bool := fun ts =>
  if current ts = token then .ok (true, advance ts) else .ok (false, ts)

def acceptPunct (c : Char) : Reader Bool := accept (.punct c)

def acceptWord (word : String) : Reader Bool := accept (.ident word)

def expect (what : Expected) (token : Token) : Reader Unit := do
  unless ← accept token do
    refuse (.expected what (← peek))

def expectPunct (c : Char) : Reader Unit := expect (.punct c) (.punct c)

def expectWord (word : String) : Reader Unit := expect (.word word) (.ident word)

def expectName : Reader String := do
  match ← peek with
  | .ident text => do
    let _ ← take
    return text
  | found => refuse (.expected .name found)

def expectInt : Reader Int64 := do
  match ← peek with
  | .int value => do
    let _ ← take
    return value
  | found => refuse (.expected .integer found)

/-- An instruction label. -/
def label : Reader UInt32 := do
  let word ← expectName
  match Text.readLabel? word with
  | some offset => return offset
  | none => refuse (.invalidLabel word)

/-! ## Repetition -/

/-- Repeats a round; see `Parser.iterate`. -/
def loop {σ β : Type} (step : σ → Reader (Round σ β)) (state : σ) : Reader β := fun ts =>
  Parser.iterate ⟨currentLine ts, .stalled⟩ step state ts

/-- One or more items with commas between them. -/
def commaSeparated {α : Type} (item : Reader α) : Reader (List α) :=
  loop (fun seen => do
    let x ← item
    if ← acceptPunct ',' then return .more (x :: seen)
    else return .done (x :: seen).reverse) []

/-- Items with commas between them, in parentheses. -/
def inParens {α : Type} (item : Reader α) : Reader (List α) := do
  expectPunct '('
  let items ← if (← peek) = .punct ')' then pure [] else commaSeparated item
  expectPunct ')'
  return items

/-- The words at the front that are among `words`. -/
def takeWords (words : List String) : List Located → List String × List Located
  | [] => ([], [])
  | t :: rest =>
    match t.token with
    | .ident word =>
      if word ∈ words then
        let (seen, rest) := takeWords words rest
        (word :: seen, rest)
      else ([], t :: rest)
    | _ => ([], t :: rest)

def attributes (words : List String) : Reader (List String) := fun ts =>
  .ok (takeWords words ts)

/-- What follows the closing brace of the block around `ts`, when `depth` more blocks are open
inside it. -/
def behindBlock (depth : Nat) : List Located → Except SyntaxError (List Located)
  | [] => .error ⟨0, .unterminated .block⟩
  | t :: rest =>
    match t.token with
    | .endOfInput => .error ⟨t.line, .unterminated .block⟩
    | .punct '\x7b' => behindBlock (depth + 1) rest
    | .punct '\x7d' =>
      match depth with
      | 0 => .ok rest
      | depth + 1 => behindBlock depth rest
    | _ => behindBlock depth rest

/-- Skips a balanced block if one follows. -/
def skipBlock : Reader Unit := do
  if ← acceptPunct '\x7b' then
    let ts ← get
    set (← (behindBlock 0 ts : Except SyntaxError (List Located)))

/-! ## Types -/

/-- A type name with an optional assembly in brackets before it. -/
def typeName : Reader TypeName := do
  if ← acceptPunct '[' then
    let assembly ← expectName
    expectPunct ']'
    return TypeName.ofDotted (some assembly) (← expectName)
  else
    return TypeName.ofDotted none (← expectName)

/-- Wraps `sig` into one array type per pair of brackets at the front. -/
def arraySuffix (sig : TypeSig) : List Located → TypeSig × List Located
  | t :: u :: rest =>
    if t.token = .punct '[' ∧ u.token = .punct ']' then arraySuffix (.array sig) rest
    else (sig, t :: u :: rest)
  | ts => (sig, ts)

/-- The types with a keyword of their own. -/
def keywordType? : String → Option TypeSig
  | "void" => some .void
  | "bool" => some .boolean
  | "char" => some .char
  | "int8" => some .int8
  | "uint8" => some .uint8
  | "int16" => some .int16
  | "uint16" => some .uint16
  | "int32" => some .int32
  | "uint32" => some .uint32
  | "int64" => some .int64
  | "uint64" => some .uint64
  | "float32" => some .float32
  | "float64" => some .float64
  | "string" => some .string
  | "object" => some .object
  | _ => none

/-- The types that the word `unsigned` can stand before. -/
def unsignedType? : String → Option TypeSig
  | "int8" => some .uint8
  | "int16" => some .uint16
  | "int32" => some .uint32
  | "int64" => some .uint64
  | _ => none

/-- A type that starts with `word`, which has been consumed. -/
def typeAfter (word : String) : Reader TypeSig :=
  match keywordType? word with
  | some sig => return sig
  | none =>
    if word = "unsigned" then do
      let base ← expectName
      match unsignedType? base with
      | some sig => return sig
      | none => refuse (.invalidUnsigned base)
    else if word = "native" then do
      let unsigned ← acceptWord "unsigned"
      expectWord "int"
      return if unsigned then .nativeUInt else .nativeInt
    else if word = "class" then return .classType (← typeName)
    else if word = "valuetype" then return .valueType (← typeName)
    else return .classType (TypeName.ofDotted none word)

def typeSig : Reader TypeSig := do
  let base ← match ← peek with
    | .ident word => do
      let _ ← take
      typeAfter word
    | .punct '[' => do pure (.classType (← typeName))
    | found => refuse (.expected .type found)
  modifyGet (arraySuffix base)

/-! ## References -/

def doubleColon (refs : RefClass) : Reader Unit := do
  if (← take) ≠ .doubleColon then
    refuse (.noDoubleColon refs)

/-- A method: a word for the receiver, result, type, name and parameter types. -/
def methodRef : Reader MethodRef := do
  let hasThis ← acceptWord "instance"
  let result ← typeSig
  let declaring ← typeName
  doubleColon .method
  let name ← expectName
  let params ← inParens typeSig
  return { declaring, name, hasThis, result, params }

/-- A field: its type, the declaring type and the name. -/
def fieldRef : Reader FieldRef := do
  let type ← typeSig
  let declaring ← typeName
  doubleColon .field
  return { declaring, name := ← expectName, type }

end CilCompiler.Listing
