import CilCompiler.Assembly.TypeSig

/-!
# Identifiers and handles

Methods and types are known to the host by identifiers. A handle is an imported global that stands
for one of them.

* `escape` makes an identifier free of dots, which separate levels on the host; `unescape` undoes
  it.
* `methodHandle` and `typeHandle` are the names of the globals.
-/

namespace CilCompiler.Handle

/-! ## Escaping -/

/-- Why a text is no escaped identifier. -/
inductive EscapeFault
  | invalid (char : Char)
  | incomplete
  deriving DecidableEq

def EscapeFault.message : EscapeFault → String
  | .invalid char => "invalid escape sequence '~" ++ char.toString ++ "'"
  | .incomplete => "identifier ends with a bare '~'"

def escapeChar : Char → List Char
  | '~' => ['~', '0']
  | '.' => ['~', '1']
  | c => [c]

def escapeChars (cs : List Char) : List Char :=
  cs.flatMap escapeChar

def unescapeChars : List Char → Except EscapeFault (List Char)
  | [] => .ok []
  | ['~'] => .error .incomplete
  | '~' :: '0' :: cs => ('~' :: ·) <$> unescapeChars cs
  | '~' :: '1' :: cs => ('.' :: ·) <$> unescapeChars cs
  | '~' :: c :: _ => .error (.invalid c)
  | c :: cs => (c :: ·) <$> unescapeChars cs

/-- Writes `~0` for a tilde and `~1` for a dot. -/
def escape (identifier : String) : String :=
  String.ofList (escapeChars identifier.toList)

def unescape (escaped : String) : Except EscapeFault String :=
  String.ofList <$> unescapeChars escaped.toList

/-! ## Identifiers -/

/-- A name with the assembly that it belongs to. -/
def qualified (assembly name : String) : String :=
  assembly ++ "|" ++ name

/-- The identifier of a method that is used in the assembly `home`. -/
def methodIdentifier (home : String) (m : MethodRef) : String :=
  qualified (m.declaring.scope home) m.fullName

/-- The global that holds the handle of a method. -/
def methodHandle (identifier : String) : String :=
  "method:" ++ escape identifier

/-- The global that holds the handle of a type used in the assembly `home`. -/
def typeHandle (home : String) (t : TypeName) : String :=
  "type:" ++ qualified (t.scope home) t.fullName

end CilCompiler.Handle
