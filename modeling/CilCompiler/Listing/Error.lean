import CilCompiler.Assembly.TypeSig
import CilCompiler.Listing.Token

/-!
# Errors in a listing

A listing is refused with the line that reading has reached and a cause. `Cause.message` holds the
wording of every cause.
-/

namespace CilCompiler.Listing

/-- What the lexer found no end of. -/
inductive Unterminated
  | comment
  | string
  | name
  | block
  deriving DecidableEq

/-- Why a run of digits is no integer. -/
inductive IntegerFault
  | empty
  | tooLarge
  | tooSmall
  deriving DecidableEq

/-- The two classes of storage that an operand can name. -/
inductive SlotClass
  | argument
  | variableSlot
  deriving DecidableEq

/-- The two kinds of reference with a double colon. -/
inductive RefClass
  | method
  | field
  deriving DecidableEq

/-- What the grammar asks for at some place. -/
inductive Expected
  | punct (char : Char)
  | word (text : String)
  | name
  | integer
  | number
  | string
  | type
  | slot (slots : SlotClass)
  | declaration
  | member (owner : TypeName)
  | instruction
  deriving DecidableEq

inductive Cause
  | unterminated (what : Unterminated)
  | invalidEscape (char : Option Char)
  | invalidHex (fault : IntegerFault)
  | invalidInteger (fault : IntegerFault)
  | invalidFloat
  | unexpectedChar (char : Char)
  | expected (what : Expected) (found : Token)
  | invalidLabel (word : String)
  | unknownOpcode (word : String)
  | tooWide (value : Int64)
  | fieldOffset
  | slotRange (slots : SlotClass) (index : Int64)
  | unknownSlot (slots : SlotClass) (name : String)
  | invalidUnsigned (word : String)
  | noDoubleColon (refs : RefClass)
  | noAssembly
  /-- A loop of the grammar made no progress. -/
  | stalled
  deriving DecidableEq

structure SyntaxError where
  line : Nat
  cause : Cause
  deriving DecidableEq

def Unterminated.text : Unterminated → String
  | .comment => "comment"
  | .string => "string"
  | .name => "quoted name"
  | .block => "block"

def IntegerFault.text : IntegerFault → String
  | .empty => "cannot parse integer from empty string"
  | .tooLarge => "number too large to fit in target type"
  | .tooSmall => "number too small to fit in target type"

def SlotClass.text : SlotClass → String
  | .argument => "argument"
  | .variableSlot => "local"

def RefClass.text : RefClass → String
  | .method => "method"
  | .field => "field"

def Expected.text : Expected → String
  | .punct char => "'" ++ char.toString ++ "'"
  | .word text => "'" ++ text ++ "'"
  | .name => "a name"
  | .integer => "an integer"
  | .number => "a number"
  | .string => "a string"
  | .type => "a type"
  | .slot slots => slots.text ++ " index or name"
  | .declaration => ".assembly, .module or .class"
  | .member owner => ".field, .method or '\x7d' in class " ++ owner.fullName
  | .instruction => "a labeled instruction"

def Cause.message : Cause → String
  | .unterminated what => "unterminated " ++ what.text
  | .invalidEscape (some char) => "invalid string escape Some(" ++ Text.quotedChar char ++ ")"
  | .invalidEscape none => "invalid string escape None"
  | .invalidHex fault => "invalid hex literal: " ++ fault.text
  | .invalidInteger fault => "invalid integer literal: " ++ fault.text
  | .invalidFloat => "invalid float literal: invalid float literal"
  | .unexpectedChar char => "unexpected character '" ++ char.toString ++ "'"
  | .expected what found => "expected " ++ what.text ++ ", found " ++ found.describe
  | .invalidLabel word => "invalid label '" ++ word ++ "'"
  | .unknownOpcode word => "unknown opcode '" ++ word ++ "'"
  | .tooWide value => toString value.toInt ++ " does not fit in 32 bits"
  | .fieldOffset => "field offset out of range"
  | .slotRange slots index =>
    slots.text ++ " index " ++ toString index.toInt ++ " out of range"
  | .unknownSlot slots name => "unknown " ++ slots.text ++ " '" ++ name ++ "'"
  | .invalidUnsigned word => "invalid type 'unsigned " ++ word ++ "'"
  | .noDoubleColon refs => "expected '::' in " ++ refs.text ++ " reference"
  | .noAssembly => "listing declares no .assembly"
  | .stalled => "listing does not advance"

def SyntaxError.message (e : SyntaxError) : String :=
  "syntax error on line " ++ toString e.line ++ ": " ++ e.cause.message

end CilCompiler.Listing
