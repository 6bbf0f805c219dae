import CilCompiler.Parser
import CilCompiler.Text.Hex

/-!
# Spacing and texts of a document

* `lineEnd` reads up to the next line, `spacing` over any number of lines.
* `quotedText` reads the four forms of text: with escapes or without, on one line or on several.
-/

namespace CilCompiler.Document

/-- Reads from the characters of a document. Why a document is refused is not told. -/
abbrev Reader := Parser Char Unit

/-! ## Single characters -/

def refuse {α : Type} : Reader α := fun _ => .error ()

/-- The next character, left where it is. -/
def peek : Reader (Option Char) := fun cs => .ok (cs.head?, cs)

/-- The next character, consumed. -/
def next : Reader Char := fun
  | [] => .error ()
  | c :: cs => .ok (c, cs)

/-- Consumes `text` if it comes next, and says whether it did. -/
def acceptAll (text : List Char) : Reader Bool := fun cs =>
  if text.isPrefixOf cs then .ok (true, cs.drop text.length) else .ok (false, cs)

def accept (c : Char) : Reader Bool := acceptAll [c]

def expect (c : Char) : Reader Unit := do
  unless ← accept c do
    refuse

/-- Reads with `first` if it succeeds, and otherwise from the same place with `second`. -/
def orElse {α : Type} (first second : Reader α) : Reader α := fun cs =>
  match first cs with
  | .ok result => .ok result
  | .error () => second cs

/-- What `reader` reads, or nothing if it fails. -/
def optional {α : Type} (reader : Reader α) : Reader (Option α) :=
  orElse (some <$> reader) (pure none)

def takeWhile (p : Char → Bool) : Reader (List Char) := fun cs => .ok (cs.span p)

/-- Repeats a round; see `Parser.iterate`. -/
def loop {σ β : Type} (step : σ → Reader (Round σ β)) (state : σ) : Reader β :=
  Parser.iterate () step state

/-! ## Spacing -/

def isBlank (c : Char) : Bool := c = ' ' || c = '\t'

/-- The characters that may stand in a comment: all but control characters other than the tab. -/
def isPlain (c : Char) : Bool := c = '\t' || (' ' ≤ c && c ≠ '\x7f')

def blanks : Reader Unit := do
  let _ ← takeWhile isBlank

def acceptNewline : Reader Bool := fun
  | '\n' :: cs => .ok (true, cs)
  | '\r' :: '\n' :: cs => .ok (true, cs)
  | cs => .ok (false, cs)

/-- A comment, if one comes next. -/
def comment : Reader Unit := do
  if ← accept '#' then
    let _ ← takeWhile isPlain

/-- The rest of a line that holds nothing more. -/
def lineEnd : Reader Unit := do
  blanks
  comment
  unless ← acceptNewline do
    unless (← peek) = none do
      refuse

def dropBlankLines : List Char → List Char
  | ' ' :: cs => dropBlankLines cs
  | '\t' :: cs => dropBlankLines cs
  | '\n' :: cs => dropBlankLines cs
  | '\r' :: '\n' :: cs => dropBlankLines cs
  | cs => cs

/-- Blanks, comments and line ends. -/
def spacing : Reader Unit :=
  loop (fun _ => do
    modify dropBlankLines
    if (← peek) = some '#' then
      comment
      return .more ()
    else return .done ()) ()

/-! ## Texts -/

/-- The character with the number that `digits` hexadecimal digits give. -/
def codePoint (digits : Nat) : Reader Char := fun cs =>
  match Text.readHex? (cs.take digits) with
  | some n =>
    if digits ≤ cs.length ∧ n.isValidChar then .ok (Char.ofNat n, cs.drop digits) else .error ()
  | none => .error ()

/-- The character that an escape stands for, behind the backslash. -/
def escaped : Reader Char := do
  match ← next with
  | 'b' => return '\x08'
  | 't' => return '\t'
  | 'n' => return '\n'
  | 'f' => return '\x0c'
  | 'r' => return '\r'
  | '"' => return '"'
  | '\\' => return '\\'
  | 'u' => codePoint 4
  | 'U' => codePoint 8
  | _ => refuse

/-- One character of a text in quotes of the kind `quote`; only double quotes have escapes. -/
def textChar (quote : Char) : Reader Char := do
  let c ← next
  if c = '\\' ∧ quote = '"' then escaped
  else if isPlain c then return c
  else refuse

/-- The rest of a text that ends on its line. -/
def lineText (quote : Char) : Reader (List Char) :=
  loop (fun seen => do
    if ← accept quote then return .done seen.reverse
    else return .more ((← textChar quote) :: seen)) []

/-- Consumes a backslash at the end of a line, the line end and the blank lines that follow. -/
def acceptContinuation : Reader Bool := fun cs =>
  match cs with
  | '\\' :: rest =>
    match rest.dropWhile isBlank with
    | '\n' :: below => .ok (true, dropBlankLines below)
    | '\r' :: '\n' :: below => .ok (true, dropBlankLines below)
    | _ => .ok (false, cs)
  | _ => .ok (false, cs)

/-- The rest of a text over several lines. Of the quotes at its end the last three close it. -/
def linesText (quote : Char) : Reader (List Char) :=
  loop (fun seen => do
    if ← acceptAll (List.replicate 3 quote) then
      let first ← accept quote
      let second ← if first then accept quote else pure false
      return .done (List.reverse seen ++ List.replicate (first.toNat + second.toNat) quote)
    else if ← acceptNewline then return .more ('\n' :: seen)
    else if quote = '"' then
      if ← acceptContinuation then return .more seen
      else return .more ((← textChar quote) :: seen)
    else return .more ((← textChar quote) :: seen)) []

/-- A text in quotes of the kind `quote`, behind the first of them. -/
def quotedText (quote : Char) : Reader String := do
  if ← acceptAll [quote, quote] then
    let _ ← acceptNewline
    return String.ofList (← linesText quote)
  else
    return String.ofList (← lineText quote)

end CilCompiler.Document
