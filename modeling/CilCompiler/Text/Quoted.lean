import CilCompiler.Text.Hex
import CilCompiler.Text.Hidden

/-!
# Quoted text

Messages and printed instructions show text between quotes, in a form in which every character
can be told apart.

* `spell` writes one character inside the given quotes.
* `quoted` writes a text between double quotes, `quotedChar` a character between single ones.
-/

namespace CilCompiler.Text

/-- One character as it stands between two `mark`s: the usual short escapes, a code point for a
hidden character, and the character itself otherwise. -/
def spell (mark c : Char) : List Char :=
  if c = '\x00' then ['\\', '0']
  else if c = '\t' then ['\\', 't']
  else if c = '\r' then ['\\', 'r']
  else if c = '\n' then ['\\', 'n']
  else if c = '\\' ∨ c = mark then ['\\', c]
  else if isHidden c then ['\\', 'u', '\x7b'] ++ Nat.toDigits 16 c.toNat ++ ['\x7d']
  else [c]

/-- A text between double quotes. -/
def quoted (s : String) : String :=
  String.ofList (['"'] ++ s.toList.flatMap (spell '"') ++ ['"'])

/-- A character between single quotes. -/
def quotedChar (c : Char) : String :=
  String.ofList (['\''] ++ spell '\'' c ++ ['\''])

end CilCompiler.Text
