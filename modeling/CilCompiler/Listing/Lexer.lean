import CilCompiler.Listing.Error
import CilCompiler.Text.Blank

/-!
# Reading the tokens of a listing

The lexer looks at the first character of what is left, lets one rule take a lexeme, and goes on
behind it. Each rule is a function from the characters behind the first one to what it took and
what it left.

* `Rule.choose` and `Rule.apply` choose and apply a rule; `lexeme` does both.
* `scan` reads a whole text.
* `length_rest_le` says that no rule gives back more than it got, so `scan` ends.
-/

namespace CilCompiler.Listing

open Text (isBlank isHexDigit readHex?)

/-! ## Character classes -/

/-- Characters that are tokens by themselves. -/
def isPunct (c : Char) : Bool :=
  c ∈ ['(', ')', '[', ']', '\x7b', '\x7d', ',', ':', '=']

def isNameStart (c : Char) : Bool :=
  c.isAlpha || c ∈ ['_', '.', '<', '$', '@']

def isNamePart (c : Char) : Bool :=
  c.isAlphanum || c ∈ ['_', '.', '<', '>', '\x60', '$', '@']

/-! ## Comments, strings and quoted names -/

/-- Skips to behind the end of a block comment; also counts the line ends on the way. -/
def skipComment : List Char → Option (Nat × List Char)
  | [] => none
  | '*' :: '/' :: cs => some (0, cs)
  | c :: cs =>
    match skipComment cs with
    | some (lines, rest) => some (if c = '\n' then lines + 1 else lines, rest)
    | none => none

/-- The character that an escape stands for. -/
def unescape? : Char → Option Char
  | 'n' => some '\n'
  | 't' => some '\t'
  | 'r' => some '\r'
  | '0' => some '\x00'
  | '"' => some '"'
  | '\\' => some '\\'
  | _ => none

/-- The text of a string up to its closing quote. A string ends on the line on which it starts. -/
def takeString : List Char → Except Cause (List Char × List Char)
  | [] => .error (.unterminated .string)
  | '\n' :: _ => .error (.unterminated .string)
  | '"' :: cs => .ok ([], cs)
  | ['\\'] => .error (.invalidEscape none)
  | '\\' :: e :: cs =>
    match unescape? e with
    | none => .error (.invalidEscape (some e))
    | some c =>
      match takeString cs with
      | .ok (text, rest) => .ok (c :: text, rest)
      | .error cause => .error cause
  | c :: cs =>
    match takeString cs with
    | .ok (text, rest) => .ok (c :: text, rest)
    | .error cause => .error cause

/-- The text of a quoted name up to its closing quote, which has to stand on the same line. -/
def takeName : List Char → Option (List Char × List Char)
  | [] => none
  | '\'' :: cs => some ([], cs)
  | c :: cs =>
    if c = '\n' then none
    else
      match takeName cs with
      | some (text, rest) => some (c :: text, rest)
      | none => none

/-! ## Numbers -/

/-- The number written by decimal digits. -/
def readDecimal (digits : List Char) : Nat :=
  digits.foldl (fun n c => 10 * n + (c.toNat - '0'.toNat)) 0

/-- The part of a number behind its first character, and whether it holds a point. A point counts
only before a digit, an exponent mark only behind a point, and a sign only behind a mark. -/
def takeNumber (pointed marked : Bool) : List Char → Bool × List Char × List Char
  | [] => (pointed, [], [])
  | c :: cs =>
    if c.isDigit then put c (takeNumber pointed false cs)
    else if c = '.' ∧ cs.head?.any Char.isDigit then put c (takeNumber true false cs)
    else if (c = 'e' ∨ c = 'E') ∧ pointed then put c (takeNumber true true cs)
    else if (c = '-' ∨ c = '+') ∧ marked then put c (takeNumber pointed false cs)
    else (pointed, [], c :: cs)
where
  put (c : Char) (taken : Bool × List Char × List Char) : Bool × List Char × List Char :=
    (taken.1, c :: taken.2.1, taken.2.2)

/-- Splits a minus sign off. -/
def takeSign : List Char → Bool × List Char
  | '-' :: cs => (true, cs)
  | cs => (false, cs)

/-- A decimal integer of sixty-four bits. -/
def integerToken (text : List Char) : Except Cause Token :=
  let (negative, digits) := takeSign text
  let magnitude := readDecimal digits
  if negative then
    if magnitude ≤ 0x8000000000000000 then .ok (.int (Int64.ofInt (-magnitude)))
    else .error (.invalidInteger .tooSmall)
  else if magnitude < 0x8000000000000000 then .ok (.int (Int64.ofInt magnitude))
  else .error (.invalidInteger .tooLarge)

/-- A hexadecimal integer: sixty-four bits, read as a signed number. -/
def hexToken (digits : List Char) : Except Cause Token :=
  match readHex? digits with
  | none => .error (.invalidHex .empty)
  | some n =>
    if n < UInt64.size then .ok (.int n.toUInt64.toInt64) else .error (.invalidHex .tooLarge)

/-- The exponent behind a coefficient: nothing, or a mark, a sign and digits. -/
def readExponent? : List Char → Option Int
  | [] => some 0
  | _ :: cs =>
    let (negative, digits) := match cs with
      | '-' :: ds => (true, ds)
      | '+' :: ds => (false, ds)
      | ds => (false, ds)
    if digits ≠ [] ∧ digits.all Char.isDigit then
      some (if negative then -(readDecimal digits : Int) else readDecimal digits)
    else none

/-- A float: digits, a point, digits, and perhaps an exponent. -/
def floatToken (text : List Char) : Except Cause Token :=
  let (negative, cs) := takeSign text
  let whole := cs.takeWhile Char.isDigit
  let behind := (cs.dropWhile Char.isDigit).tail
  let fraction := behind.takeWhile Char.isDigit
  match behind.dropWhile Char.isDigit with
  | '.' :: _ => .error .invalidFloat
  | tail =>
    match readExponent? tail with
    | some e =>
      .ok (.float (Binary64.ofDecimal negative (readDecimal (whole ++ fraction))
        (e - fraction.length)))
    | none => .error .invalidFloat

/-- A number that starts with `c`. -/
def numberToken (c : Char) (cs : List Char) : Except Cause (Token × List Char) :=
  if c = '0' ∧ (cs.head? = some 'x' ∨ cs.head? = some 'X') then
    let behind := cs.tail
    match hexToken (behind.takeWhile isHexDigit) with
    | .ok token => .ok (token, behind.dropWhile isHexDigit)
    | .error cause => .error cause
  else
    let (pointed, text, rest) := takeNumber false false cs
    match if pointed then floatToken (c :: text) else integerToken (c :: text) with
    | .ok token => .ok (token, rest)
    | .error cause => .error cause

/-! ## Lexemes -/

/-- What a rule took: a token or something to skip, the line ends in it, and what it left. -/
structure Lexeme where
  token : Option Token
  lines : Nat
  rest : List Char

/-- The rules of the lexer. -/
inductive Rule
  | lineEnd
  | blank
  | lineComment
  | blockComment
  | doubleColon
  | punct
  | string
  | quotedName
  | number
  | name
  deriving DecidableEq

/-- The rule for a lexeme that starts with `c` and goes on in `cs`, if there is one. -/
def Rule.choose (c : Char) (cs : List Char) : Option Rule :=
  if c = '\n' then some .lineEnd
  else if isBlank c then some .blank
  else if c = '/' ∧ cs.head? = some '/' then some .lineComment
  else if c = '/' ∧ cs.head? = some '*' then some .blockComment
  else if c = ':' ∧ cs.head? = some ':' then some .doubleColon
  else if isPunct c then some .punct
  else if c = '"' then some .string
  else if c = '\'' then some .quotedName
  else if c.isDigit ∨ (c = '-' ∧ cs.head?.any Char.isDigit) then some .number
  else if isNameStart c then some .name
  else none

/-- Takes a lexeme that starts with `c` and goes on in `cs`. -/
def Rule.apply (c : Char) (cs : List Char) : Rule → Except Cause Lexeme
  | .lineEnd => .ok ⟨none, 1, cs⟩
  | .blank => .ok ⟨none, 0, cs⟩
  | .lineComment => .ok ⟨none, 0, cs.dropWhile (· != '\n')⟩
  | .blockComment =>
    match skipComment cs.tail with
    | some (lines, rest) => .ok ⟨none, lines, rest⟩
    | none => .error (.unterminated .comment)
  | .doubleColon => .ok ⟨some .doubleColon, 0, cs.tail⟩
  | .punct => .ok ⟨some (.punct c), 0, cs⟩
  | .string =>
    match takeString cs with
    | .ok (text, rest) => .ok ⟨some (.string (String.ofList text)), 0, rest⟩
    | .error cause => .error cause
  | .quotedName =>
    match takeName cs with
    | some (text, rest) => .ok ⟨some (.ident (String.ofList text)), 0, rest⟩
    | none => .error (.unterminated .name)
  | .number =>
    match numberToken c cs with
    | .ok (token, rest) => .ok ⟨some token, 0, rest⟩
    | .error cause => .error cause
  | .name =>
    .ok ⟨some (.ident (String.ofList (c :: cs.takeWhile isNamePart))), 0, cs.dropWhile isNamePart⟩

/-- The lexeme that starts with `c` and goes on in `cs`. -/
def lexeme (c : Char) (cs : List Char) : Except Cause Lexeme :=
  match Rule.choose c cs with
  | some rule => rule.apply c cs
  | none => .error (.unexpectedChar c)

/-! ## Every rule leaves a part of what it got -/

theorem length_dropWhile_le {α : Type} (p : α → Bool) (xs : List α) :
    (xs.dropWhile p).length ≤ xs.length :=
  (List.dropWhile_sublist p).length_le

theorem length_skipComment_le {cs rest : List Char} {lines : Nat}
    (h : skipComment cs = some (lines, rest)) : rest.length ≤ cs.length := by
  fun_induction skipComment cs generalizing lines rest with
  | case1 => simp at h
  | case2 cs =>
    simp only [Option.some.injEq, Prod.mk.injEq] at h
    simp [← h.2]
    omega
  | case3 c cs _ lines' rest' hrec ih =>
    simp only [Option.some.injEq, Prod.mk.injEq] at h
    have := ih hrec
    simp [← h.2]
    omega
  | case4 => simp at h

theorem length_takeString_le {cs text rest : List Char} (h : takeString cs = .ok (text, rest)) :
    rest.length ≤ cs.length := by
  fun_induction takeString cs generalizing text rest with
  | case1 => simp at h
  | case2 => simp at h
  | case3 cs =>
    simp only [Except.ok.injEq, Prod.mk.injEq] at h
    simp [← h.2]
  | case4 => simp at h
  | case5 => simp at h
  | case6 e cs c _ text' rest' hrec ih =>
    simp only [Except.ok.injEq, Prod.mk.injEq] at h
    have := ih hrec
    simp [← h.2]
    omega
  | case7 => simp at h
  | case8 c cs _ _ _ _ text' rest' hrec ih =>
    simp only [Except.ok.injEq, Prod.mk.injEq] at h
    have := ih hrec
    simp [← h.2]
    omega
  | case9 => simp at h

theorem length_takeName_le {cs text rest : List Char} (h : takeName cs = some (text, rest)) :
    rest.length ≤ cs.length := by
  fun_induction takeName cs generalizing text rest with
  | case1 => simp at h
  | case2 cs =>
    simp only [Option.some.injEq, Prod.mk.injEq] at h
    simp [← h.2]
  | case3 => simp at h
  | case4 c cs _ _ text' rest' hrec ih =>
    simp only [Option.some.injEq, Prod.mk.injEq] at h
    have := ih hrec
    simp [← h.2]
    omega
  | case5 => simp at h

theorem length_takeNumber_le (pointed marked : Bool) (cs : List Char) :
    (takeNumber pointed marked cs).2.2.length ≤ cs.length := by
  fun_induction takeNumber pointed marked cs with
  | case1 => simp
  | case2 _ _ _ _ _ ih | case3 _ _ _ _ _ _ ih | case4 _ _ _ _ _ _ ih | case5 _ _ _ _ _ _ _ _ ih =>
    simp only [takeNumber.put, List.length_cons]
    omega
  | case6 => simp

theorem length_numberToken_le {c : Char} {cs rest : List Char} {token : Token}
    (h : numberToken c cs = .ok (token, rest)) : rest.length ≤ cs.length := by
  unfold numberToken at h
  split at h
  · dsimp only at h
    split at h
    · simp only [Except.ok.injEq, Prod.mk.injEq] at h
      have := length_dropWhile_le isHexDigit (cs.tail)
      rw [List.length_tail] at this
      rw [← h.2]
      omega
    · simp at h
  · have := length_takeNumber_le false false cs
    simp only at h
    split at h
    · simp only [Except.ok.injEq, Prod.mk.injEq] at h
      rw [← h.2]
      exact this
    · simp at h

theorem Rule.length_rest_le {c : Char} {cs : List Char} {rule : Rule} {l : Lexeme}
    (h : rule.apply c cs = .ok l) : l.rest.length ≤ cs.length := by
  have drop : cs.tail.length ≤ cs.length := by simp
  cases rule with
  | lineEnd | blank | punct =>
    cases h
    exact Nat.le_refl _
  | doubleColon =>
    cases h
    exact drop
  | lineComment | name =>
    cases h
    exact length_dropWhile_le _ _
  | blockComment =>
    cases hc : skipComment cs.tail with
    | none => simp [Rule.apply, hc] at h
    | some taken =>
      simp only [Rule.apply, hc, Except.ok.injEq] at h
      rw [← h]
      exact Nat.le_trans (length_skipComment_le hc) drop
  | string =>
    cases hs : takeString cs with
    | error cause => simp [Rule.apply, hs] at h
    | ok taken =>
      simp only [Rule.apply, hs, Except.ok.injEq] at h
      rw [← h]
      exact length_takeString_le hs
  | quotedName =>
    cases hn : takeName cs with
    | none => simp [Rule.apply, hn] at h
    | some taken =>
      simp only [Rule.apply, hn, Except.ok.injEq] at h
      rw [← h]
      exact length_takeName_le hn
  | number =>
    cases hn : numberToken c cs with
    | error cause => simp [Rule.apply, hn] at h
    | ok taken =>
      simp only [Rule.apply, hn, Except.ok.injEq] at h
      rw [← h]
      exact length_numberToken_le hn

theorem length_rest_le {c : Char} {cs : List Char} {l : Lexeme} (h : lexeme c cs = .ok l) :
    l.rest.length ≤ cs.length := by
  unfold lexeme at h
  split at h
  · exact Rule.length_rest_le h
  · simp at h

/-! ## Scanning -/

/-- The tokens of `cs`, the first of whose characters stands on `line`, and the end mark. -/
def scanFrom (line : Nat) : List Char → Except SyntaxError (List Located)
  | [] => .ok [⟨.endOfInput, line⟩]
  | c :: cs =>
    match _h : lexeme c cs with
    | .error cause => .error ⟨line, cause⟩
    | .ok l =>
      match l.token with
      | none => scanFrom (line + l.lines) l.rest
      | some token =>
        match scanFrom (line + l.lines) l.rest with
        | .ok tokens => .ok (⟨token, line⟩ :: tokens)
        | .error e => .error e
termination_by cs => cs.length
decreasing_by all_goals exact Nat.lt_succ_of_le (length_rest_le _h)

/-- The tokens of a text. -/
def scan (text : String) : Except SyntaxError (List Located) :=
  scanFrom 1 text.toList

end CilCompiler.Listing
