import CilCompiler.Decimal.Layout
import CilCompiler.Text.Quoted

/-!
# Tokens of a listing

* `Token` is a token; `Located` adds the line on which it starts.
* A token list ends with the mark `Token.endOfInput`, on which reading stops.
-/

namespace CilCompiler.Listing

inductive Token
  /-- A name, keyword, directive or mnemonic; also a name between single quotes. -/
  | ident (text : String)
  | int (value : Int64)
  | float (value : Binary64)
  | string (text : String)
  | punct (char : Char)
  | doubleColon
  | endOfInput
  deriving DecidableEq

structure Located where
  token : Token
  line : Nat
  deriving DecidableEq

/-- The token as a message names it. -/
def Token.describe : Token → String
  | .ident text => text
  | .int value => toString value.toInt
  | .float value => Layout.plain.text value
  | .string text => Text.quoted text
  | .punct char => char.toString
  | .doubleColon => "::"
  | .endOfInput => "end of input"

end CilCompiler.Listing
