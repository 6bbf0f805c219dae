import CilCompiler.Listing.Body
import CilCompiler.Listing.Lexer

/-!
# Declarations of a listing

* `fieldDef`, `methodDef` and `typeDef` read the members and types of an assembly.
* `assembly` reads a whole token list, `parse` a whole text.
-/

namespace CilCompiler.Listing

/-! ## Attribute words -/

/-- Words that may stand before the name of a class. -/
def classWords : List String :=
  ["public", "private", "auto", "ansi", "beforefieldinit", "sealed", "abstract", "sequential",
   "explicit", "serializable", "interface", "specialname", "rtspecialname"]

/-- Words that may stand before the type of a field. -/
def fieldWords : List String :=
  ["public", "private", "family", "assembly", "famandassem", "famorassem", "static", "initonly",
   "literal", "notserialized", "specialname", "rtspecialname"]

/-- Words that may stand before the result of a method. -/
def methodWords : List String :=
  ["public", "private", "family", "assembly", "famandassem", "famorassem", "hidebysig", "static",
   "instance", "virtual", "final", "newslot", "abstract", "specialname", "rtspecialname",
   "pinvokeimpl", "strict"]

/-- Words that may stand behind the parameters of a method. -/
def implementationWords : List String :=
  ["cil", "managed", "unmanaged", "native", "runtime", "internalcall", "forwardref",
   "synchronized", "noinlining", "aggressiveinlining"]

/-! ## Members -/

/-- A byte offset between brackets, whose opening one has been consumed. -/
def fieldOffset : Reader UInt32 := do
  let value ← expectInt
  if 0 ≤ value.toInt ∧ value.toInt < 0x100000000 then
    expectPunct ']'
    return value.toInt.toNat.toUInt32
  else refuse .fieldOffset

def fieldDef : Reader FieldDef := do
  let before ← attributes fieldWords
  let (offset, behind) ←
    if ← acceptPunct '[' then do
      let offset ← fieldOffset
      pure (some offset, ← attributes fieldWords)
    else pure (none, [])
  let type ← typeSig
  return { name := ← expectName, type, isStatic := "static" ∈ before ++ behind, offset }

def param : Reader Param := do
  let type ← typeSig
  return { name := ← optionalName, type }

/-- The argument names of a method: no name for the receiver, if there is one, and then those of
the parameters. -/
def argNames (isStatic : Bool) (params : List Param) : List (Option String) :=
  (if isStatic then [] else [none]) ++ params.map Param.name

def methodDef : Reader MethodDef := do
  let words ← attributes methodWords
  let result ← typeSig
  let name ← expectName
  let params ← inParens param
  let _ ← attributes implementationWords
  let isStatic := decide ("static" ∈ words)
  let body ←
    if (← peek) = .punct '\x7b' then some <$> body (argNames isStatic params) else pure none
  return { name, result, params, isPublic := "public" ∈ words, isStatic,
           isVirtual := "virtual" ∈ words, body }

/-! ## Types -/

/-- One member of a class. Fields and methods are gathered latest first. -/
def member (t : TypeDef) : Reader (Round TypeDef TypeDef) := do
  match ← peek with
  | .punct '\x7d' =>
    let _ ← take
    return .done { t with fields := t.fields.reverse, methods := t.methods.reverse }
  | .ident word =>
    if word = ".field" then
      let _ ← take
      return .more { t with fields := (← fieldDef) :: t.fields }
    else if word = ".method" then
      let _ ← take
      return .more { t with methods := (← methodDef) :: t.methods }
    else if word = ".pack" ∨ word = ".size" then
      let _ ← take
      let _ ← expectInt
      return .more t
    else refuse (.expected (.member t.name) (.ident word))
  | found => refuse (.expected (.member t.name) found)

def typeDef : Reader TypeDef := do
  let words ← attributes classWords
  let name := TypeName.ofDotted none (← expectName)
  if ← acceptWord "extends" then
    let _ ← typeName
  expectPunct '\x7b'
  loop member { name, isPublic := "public" ∈ words, isExplicit := "explicit" ∈ words }

/-! ## Listings -/

/-- The part of a listing read so far: the latest assembly name, and the types, latest first. -/
structure PartialAssembly where
  name : Option String := none
  types : List TypeDef := []

/-- One declaration of a listing. A listing that ends has to have named its assembly. -/
def declaration (a : PartialAssembly) : Reader (Round PartialAssembly Assembly) := do
  match ← peek with
  | .endOfInput =>
    match a.name with
    | some name => return .done { name, types := a.types.reverse }
    | none => throw ⟨1, .noAssembly⟩
  | .ident word =>
    if word = ".assembly" then
      let _ ← take
      if ← acceptWord "extern" then
        let _ ← expectName
        skipBlock
        return .more a
      else
        let name ← expectName
        skipBlock
        return .more { a with name := some name }
    else if word = ".module" then
      let _ ← take
      let _ ← expectName
      return .more a
    else if word = ".class" then
      let _ ← take
      return .more { a with types := (← typeDef) :: a.types }
    else refuse (.expected .declaration (.ident word))
  | found => refuse (.expected .declaration found)

/-- The assembly that a token list declares. -/
def assembly : Reader Assembly :=
  loop declaration {}

/-- Reads the assembly that a text lists. -/
def parse (text : String) : Except SyntaxError Assembly := do
  let tokens ← scan text
  let (result, _) ← assembly tokens
  return result

end CilCompiler.Listing
