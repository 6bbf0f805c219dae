import Mathlib.Data.Nat.Digits.Defs
import CilCompiler.Proofs.Landing
import CilCompiler.Proofs.ListingText
import CilCompiler.Proofs.Surroundings

/-!
# Integers as a listing writes them

An integer passes through sixty-four bits on its way from the digits of a listing to a constant of
thirty-two. Decimal digits have to fit there as a signed number and hexadecimal ones as an unsigned
number, which is then read as a signed one.

* `Literal` is a written integer, and `Literal.value` the number that it writes.
* `lexemes` follows the lexer to a position of a text. `Literal.StandsIn` says that a literal is
  written there, and `scan_literal` that it is read as one token.
* `Literal.token_cases` says which numbers a literal can be read as.
-/

namespace CilCompiler.Listing

open Text (hexValue? isHexDigit readHexFrom? readHex?)

/-! ## Literals -/

/-- The value of a digit of any base up to sixteen. -/
def digitValue (c : Char) : Nat := (hexValue? c).getD 0

/-- The number that digits write in a base; the last digit counts ones. -/
def positional (base : Nat) (digits : List Char) : Nat :=
  Nat.ofDigits base (digits.map digitValue).reverse

/-- One or more digits of some kind. -/
structure Digits (isDigit : Char → Bool) where
  chars : List Char
  nonempty : chars ≠ []
  all : ∀ c ∈ chars, isDigit c = true

/-- An integer as a listing writes it: in decimal, perhaps with a sign, or in hexadecimal. -/
inductive Literal
  | decimal (negative : Bool) (digits : Digits Char.isDigit)
  | hex (digits : Digits isHexDigit)

namespace Literal

def chars : Literal → List Char
  | decimal negative digits => (if negative then ['-'] else []) ++ digits.chars
  | hex digits => '0' :: 'x' :: digits.chars

/-- The number that the literal writes. -/
def value : Literal → Int
  | decimal negative digits =>
    if negative then -(positional 10 digits.chars : Int) else positional 10 digits.chars
  | hex digits => positional 16 digits.chars

def isHex : Literal → Bool
  | decimal _ _ => false
  | hex _ => true

/-- What follows is not taken for a part of the literal: digits, a point before a digit, and behind
a lone zero the mark of a hexadecimal number. -/
def EndsBefore : Literal → List Char → Prop
  | decimal negative digits, post =>
    post.head?.any Char.isDigit = false ∧
      ¬(post.head? = some '.' ∧ post.tail.head?.any Char.isDigit) ∧
      (negative = false → digits.chars = ['0'] → post.head? ≠ some 'x' ∧ post.head? ≠ some 'X')
  | hex _, post => post.head?.any isHexDigit = false

instance : (lit : Literal) → (post : List Char) → Decidable (lit.EndsBefore post)
  | decimal _ _, _ => inferInstanceAs (Decidable (_ ∧ _))
  | hex _, _ => inferInstanceAs (Decidable (_ = _))

/-- The token that the literal is read as. -/
def token : Literal → Except Cause Token
  | decimal negative digits => integerToken ((decimal negative digits).chars)
  | hex digits => hexToken digits.chars

end Literal

/-! ## The values of digits -/

theorem positional_eq_foldl (base : Nat) (digits : List Char) :
    positional base digits = digits.foldl (fun n c => base * n + digitValue c) 0 := by
  calc positional base digits
      = (digits.map digitValue).reverse.foldr (fun d n => d + base * n) 0 :=
        Nat.ofDigits_eq_foldr base _
    _ = (digits.map digitValue).foldl (fun n d => d + base * n) 0 := List.foldr_reverse
    _ = digits.foldl (fun n c => digitValue c + base * n) 0 := List.foldl_map
    _ = digits.foldl (fun n c => base * n + digitValue c) 0 := by simp only [Nat.add_comm]

theorem digitValue_of_isDigit {c : Char} (h : c.isDigit = true) :
    digitValue c = c.toNat - '0'.toNat := by
  have hrange : '0' ≤ c ∧ c ≤ '9' := by
    simpa [Char.isDigit, Char.le_def] using h
  simp only [digitValue, hexValue?, if_pos hrange, Option.getD_some]

theorem readDecimal_eq {digits : List Char} (h : ∀ c ∈ digits, c.isDigit = true) :
    readDecimal digits = positional 10 digits := by
  rw [positional_eq_foldl, readDecimal]
  refine List.foldl_ext _ _ 0 fun n c hc => ?_
  rw [digitValue_of_isDigit (h c hc)]

theorem readHexFrom?_eq {digits : List Char} (h : ∀ c ∈ digits, isHexDigit c = true) (acc : Nat) :
    readHexFrom? acc digits = some (digits.foldl (fun n c => 16 * n + digitValue c) acc) := by
  induction digits generalizing acc with
  | nil =>
      rfl
  | cons c digits ih =>
      rcases Option.isSome_iff_exists.1 (h c (.head _)) with ⟨d, hd⟩
      have hvalue : digitValue c = d := by rw [digitValue, hd, Option.getD_some]
      simp only [readHexFrom?, hd, List.foldl_cons, hvalue]
      exact ih (fun c hc => h c (.tail _ hc)) _

theorem readHex?_eq (digits : Digits isHexDigit) :
    readHex? digits.chars = some (positional 16 digits.chars) := by
  rw [positional_eq_foldl, ← readHexFrom?_eq digits.all]
  unfold readHex?
  split
  · next hnil =>
      exact absurd hnil digits.nonempty
  · rfl

/-! ## The token of a literal -/

namespace Literal

theorem takeSign_chars (negative : Bool) (digits : Digits Char.isDigit) :
    takeSign (decimal negative digits).chars = (negative, digits.chars) := by
  cases negative with
  | true =>
      rfl
  | false =>
      change takeSign digits.chars = _
      unfold takeSign
      split
      · next cs hcs =>
          have hdigit : ('-').isDigit = true := digits.all '-' (hcs ▸ List.mem_cons_self)
          cases hdigit
      · rfl

theorem token_decimal (negative : Bool) (digits : Digits Char.isDigit) :
    let lit := decimal negative digits
    (lit.token = .ok (.int (Int64.ofInt lit.value)) ∧
        -0x8000000000000000 ≤ lit.value ∧ lit.value < 0x8000000000000000) ∨
      (∃ cause, lit.token = .error cause) ∧
        (lit.value < -0x8000000000000000 ∨ 0x8000000000000000 ≤ lit.value) := by
  simp only [token, integerToken, takeSign_chars, readDecimal_eq digits.all, value]
  cases negative with
  | true =>
      simp only [if_true]
      split
      · exact .inl ⟨rfl, by omega, by omega⟩
      · exact .inr ⟨⟨_, rfl⟩, by omega⟩
  | false =>
      simp only [Bool.false_eq_true, if_false]
      split
      · exact .inl ⟨rfl, by omega, by omega⟩
      · exact .inr ⟨⟨_, rfl⟩, by omega⟩

theorem token_hex (digits : Digits isHexDigit) :
    let n := positional 16 digits.chars
    ((hex digits).token = .ok (.int n.toUInt64.toInt64) ∧ n < 0x10000000000000000) ∨
      (∃ cause, (hex digits).token = .error cause) ∧ 0x10000000000000000 ≤ n := by
  simp only [token, hexToken, readHex?_eq]
  split
  · next hlt =>
      exact .inl ⟨rfl, hlt⟩
  · next hge =>
      exact .inr ⟨⟨_, rfl⟩, Nat.le_of_not_lt hge⟩

/-- A number that sixty-four bits hold stays what it is, but a great hexadecimal number counts from
below zero. -/
theorem token_cases (lit : Literal) :
    (∃ w : Int64, lit.token = .ok (.int w) ∧
        (w.toInt = lit.value ∨
          lit.isHex ∧ 0x8000000000000000 ≤ lit.value ∧ lit.value < 0x10000000000000000 ∧
            w.toInt = lit.value - 0x10000000000000000)) ∨
      (∃ cause, lit.token = .error cause) ∧
        (lit.value < -0x8000000000000000 ∨ 0x8000000000000000 ≤ lit.value) ∧
        (lit.isHex → 0x10000000000000000 ≤ lit.value) := by
  cases lit with
  | decimal negative digits =>
      rcases token_decimal negative digits with ⟨htoken, hlow, hhigh⟩ | ⟨herror, hrange⟩
      · exact .inl ⟨_, htoken, .inl (Int64.toInt_ofInt_of_le hlow hhigh)⟩
      · exact .inr ⟨herror, hrange, nofun⟩
  | hex digits =>
      have hvalue : (hex digits).value = positional 16 digits.chars := rfl
      rcases token_hex digits with ⟨htoken, hlt⟩ | ⟨herror, hge⟩
      · have hword : (positional 16 digits.chars).toUInt64.toInt64.toInt =
            (positional 16 digits.chars : Int).bmod Int64.size := by
          rw [Nat.toUInt64_eq, UInt64.toInt64_ofNat', Int64.toInt_ofNat']
        -- the upper half of the unsigned numbers is read as the negative ones
        refine .inl ⟨_, htoken, ?_⟩
        rw [hword, hvalue, Int.bmod_def, Int64.size]
        split
        · exact .inl (by omega)
        · exact .inr ⟨rfl, by omega, by omega, by omega⟩
      · exact .inr ⟨herror, by omega, fun _ => by omega⟩

end Literal

/-! ## Taking a literal -/

theorem takeNumber_digits {ds post : List Char} (h : ∀ d ∈ ds, d.isDigit = true)
    (hdigit : post.head?.any Char.isDigit = false)
    (hpoint : ¬(post.head? = some '.' ∧ post.tail.head?.any Char.isDigit)) :
    takeNumber false false (ds ++ post) = (false, ds, post) := by
  induction ds with
  | nil =>
      cases post with
      | nil =>
          rfl
      | cons c post =>
          have hc : c.isDigit = false := hdigit
          have hc' : ¬(c = '.' ∧ post.head?.any Char.isDigit = true) := by simpa using hpoint
          simp [takeNumber, hc, hc']
  | cons d ds ih =>
      have hrest := ih fun c hc => h c (.tail _ hc)
      rw [List.cons_append, takeNumber, if_pos (h d (.head _)), hrest]
      rfl

/-- A run of characters of some kind ends before a character of another one. -/
theorem takeWhile_digits {isDigit : Char → Bool} {ds post : List Char}
    (h : ∀ d ∈ ds, isDigit d = true) (hpost : post.head?.any isDigit = false) :
    (ds ++ post).takeWhile isDigit = ds ∧ (ds ++ post).dropWhile isDigit = post := by
  rw [List.takeWhile_append_of_pos h, List.dropWhile_append_of_pos h]
  cases post with
  | nil =>
      simp
  | cons c post =>
      have hc : isDigit c = false := hpost
      simp [hc]

/-- The lexer takes a literal as a whole, and nothing behind it. -/
theorem numberToken_literal {lit : Literal} {post : List Char} (h : lit.EndsBefore post) :
    ∃ c cs, lit.chars ++ post = c :: cs ∧ Rule.choose c cs = some .number ∧
      numberToken c cs = lit.token.map (·, post) := by
  cases lit with
  | hex digits =>
      rcases takeWhile_digits digits.all h with ⟨htake, hdrop⟩
      refine ⟨'0', 'x' :: (digits.chars ++ post), rfl, choose_digit rfl _, ?_⟩
      simp only [numberToken, List.head?_cons, true_or, and_self, if_true, List.tail_cons, htake,
        hdrop, Literal.token]
      cases hexToken digits.chars <;> rfl
  | decimal negative digits =>
      -- the lexer looks at the first digit apart from the others
      rcases h with ⟨hdigit, hpoint, hmark⟩
      rcases List.exists_cons_of_ne_nil digits.nonempty with ⟨d, ds, hds⟩
      have hall : ∀ c ∈ d :: ds, c.isDigit = true := hds ▸ digits.all
      have hd := hall d (.head _)
      cases negative with
      | true =>
          have hchoose : Rule.choose '-' (d :: ds ++ post) = some .number := by
            simp [Rule.choose, hd, Text.isBlank, isPunct]
          have htake := takeNumber_digits hall hdigit hpoint
          refine ⟨'-', d :: ds ++ post, by simp [Literal.chars, hds], hchoose, ?_⟩
          simp only [numberToken, Char.reduceEq, false_and, if_false, htake, Bool.false_eq_true,
            Literal.token, Literal.chars, if_true, hds, List.singleton_append]
          cases integerToken ('-' :: d :: ds) <;> rfl
      | false =>
          have htail : ∀ c ∈ ds, c.isDigit = true := fun c hc => hall c (.tail _ hc)
          have htake := takeNumber_digits htail hdigit hpoint
          -- a digit follows the first one, or the literal ends there
          have hhex : ¬(d = '0' ∧
              ((ds ++ post).head? = some 'x' ∨ (ds ++ post).head? = some 'X')) := by
            rintro ⟨rfl, hhead⟩
            cases ds with
            | nil =>
                rcases hmark rfl hds with ⟨hx, hX⟩
                exact hhead.elim hx hX
            | cons e ds =>
                have he := htail e (.head _)
                simp only [List.cons_append, List.head?_cons, Option.some.injEq] at hhead
                rcases hhead with rfl | rfl <;> cases he
          refine ⟨d, ds ++ post, by simp [Literal.chars, hds], choose_digit hd _, ?_⟩
          simp only [numberToken, if_neg hhex, htake, Bool.false_eq_true, if_false, Literal.token,
            Literal.chars, hds, List.nil_append]
          cases integerToken (d :: ds) <;> rfl

/-! ## Lexing up to a position -/

/-- The tokens of the first `count` lexemes of a text that starts on `line`, with the line and the
text that they leave. -/
def lexemes : Nat → Nat → List Char → Option (List Located × Nat × List Char)
  | 0, line, cs => some ([], line, cs)
  | _ + 1, _, [] => none
  | count + 1, line, c :: cs =>
    match lexeme c cs with
    | .error _ => none
    | .ok l =>
      (lexemes count (line + l.lines) l.rest).map fun taken =>
        (l.located line ++ taken.1, taken.2)

theorem scanFrom_of_lexemes {count line line' : Nat} {cs rest : List Char} {front : List Located}
    (h : lexemes count line cs = some (front, line', rest)) :
    scanFrom line cs = (scanFrom line' rest).map (front ++ ·) := by
  induction count generalizing line cs front with
  | zero =>
      cases h
      cases scanFrom line' rest <;> rfl
  | succ count ih =>
      cases cs with
      | nil =>
          cases h
      | cons c cs =>
          unfold lexemes at h
          cases hlexeme : lexeme c cs with
          | error cause =>
              rw [hlexeme] at h
              cases h
          | ok l =>
              rw [hlexeme] at h
              rcases Option.map_eq_some_iff.1 h with ⟨⟨front', line'', rest'⟩, hrest, heq⟩
              cases heq
              rw [scanFrom_ok hlexeme, ih hrest]
              cases scanFrom line' rest with
              | error e =>
                  rfl
              | ok ts =>
                  exact congrArg Except.ok (List.append_assoc _ _ _).symm

theorem lexemes_add {count count' line line' line'' : Nat} {cs rest rest' : List Char}
    {front front' : List Located} (h : lexemes count line cs = some (front, line', rest))
    (h' : lexemes count' line' rest = some (front', line'', rest')) :
    lexemes (count + count') line cs = some (front ++ front', line'', rest') := by
  induction count generalizing line cs front with
  | zero =>
      cases h
      rw [Nat.zero_add]
      exact h'
  | succ count ih =>
      cases cs with
      | nil =>
          cases h
      | cons c cs =>
          rw [Nat.succ_add]
          unfold lexemes at h ⊢
          cases hlexeme : lexeme c cs with
          | error cause =>
              rw [hlexeme] at h
              cases h
          | ok l =>
              rw [hlexeme] at h
              rcases Option.map_eq_some_iff.1 h with ⟨⟨behind, line''', rest''⟩, hrest, heq⟩
              cases heq
              simp only [ih hrest, Option.map_some, List.append_assoc]

/-- Lexemes are taken in the same way when a line end and more text follow. -/
theorem lexemes_before {count line line' : Nat} {cs rest : List Char} {front : List Located}
    (h : lexemes count line cs = some (front, line', rest)) (ds : List Char) :
    lexemes count line (cs ++ '\n' :: ds) = some (front, line', rest ++ '\n' :: ds) := by
  induction count generalizing line cs front with
  | zero =>
      cases h
      rfl
  | succ count ih =>
      cases cs with
      | nil =>
          cases h
      | cons c cs =>
          unfold lexemes at h
          cases hlexeme : lexeme c cs with
          | error cause =>
              rw [hlexeme] at h
              cases h
          | ok l =>
              rw [hlexeme] at h
              rcases Option.map_eq_some_iff.1 h with ⟨⟨behind, line'', rest'⟩, hrest, heq⟩
              cases heq
              rw [List.cons_append, lexemes, lexeme_before hlexeme ds]
              have hbehind : lexemes count (line + (l.before ds).lines) (l.before ds).rest =
                  some (behind, line', rest ++ '\n' :: ds) := ih hrest
              simp only [hbehind, Option.map_some]
              rfl

/-- The literal stands on `line` of the text, behind what is read as the tokens `front` and before
what is read as the tokens `rest`. -/
def Literal.StandsIn (lit : Literal) (text : String) (front : List Located) (line : Nat)
    (rest : List Located) : Prop :=
  ∃ count post, lexemes count 1 text.toList = some (front, line, lit.chars ++ post) ∧
    lit.EndsBefore post ∧ scanFrom line post = .ok rest

section Scan

variable {text : String} {lit : Literal} {front rest : List Located} {line : Nat}

theorem scan_literal {t : Token} (h : lit.StandsIn text front line rest)
    (ht : lit.token = .ok t) : scan text = .ok (front ++ ⟨t, line⟩ :: rest) := by
  rcases h with ⟨count, post, hlexed, hends, hrest⟩
  rcases numberToken_literal hends with ⟨c, cs, hchars, hchoose, hnumber⟩
  have hlexeme : lexeme c cs = .ok ⟨some t, 0, post⟩ := by
    simp only [lexeme, hchoose, Rule.apply, hnumber, ht, Except.map]
  rw [scan, scanFrom_of_lexemes hlexed, hchars, scanFrom_ok hlexeme, Nat.add_zero, hrest]
  rfl

theorem parse_literal_error {cause : Cause} (h : lit.StandsIn text front line rest)
    (ht : lit.token = .error cause) : parse text = .error ⟨line, cause⟩ := by
  rcases h with ⟨count, post, hlexed, hends, -⟩
  rcases numberToken_literal hends with ⟨c, cs, hchars, hchoose, hnumber⟩
  have hlexeme : lexeme c cs = .error cause := by
    simp only [lexeme, hchoose, Rule.apply, hnumber, ht, Except.map]
  have hscan : scan text = .error ⟨line, cause⟩ := by
    rw [scan, scanFrom_of_lexemes hlexed, hchars, scanFrom_error hlexeme]
    rfl
  unfold parse
  rw [hscan]
  rfl

end Scan

/-! ## Constants -/

/-- The literals that are taken for thirty-two bits: signed and unsigned numbers of that width, and
hexadecimal numbers that count from below zero in sixty-four bits. -/
def Literal.FitsWord (lit : Literal) : Prop :=
  (-0x80000000 ≤ lit.value ∧ lit.value < 0x100000000) ∨
    (lit.isHex ∧ 0xffffffff80000000 ≤ lit.value ∧ lit.value < 0x10000000000000000)

instance (lit : Literal) : Decidable lit.FitsWord :=
  inferInstanceAs (Decidable (_ ∨ _))

/-- The thirty-two bits of a literal that fits. -/
def Literal.word (lit : Literal) : Int32 := Int32.ofInt lit.value

theorem int32_of_token {w : Int64} {line : Nat} {rest : List Located}
    (h : -0x80000000 ≤ w.toInt ∧ w.toInt < 0x100000000) :
    int32 (⟨.int w, line⟩ :: rest) = .ok (Int32.ofInt w.toInt, rest) := by
  have hexpect : expectInt (⟨.int w, line⟩ :: rest) = .ok (w, rest) := rfl
  unfold int32
  rw [run_bind hexpect, if_pos h]
  rfl

theorem int32_tooWide {w : Int64} {line : Nat} {rest : List Located}
    (h : ¬(-0x80000000 ≤ w.toInt ∧ w.toInt < 0x100000000)) :
    int32 (⟨.int w, line⟩ :: rest) = .error ⟨currentLine rest, .tooWide w⟩ := by
  have hexpect : expectInt (⟨.int w, line⟩ :: rest) = .ok (w, rest) := rfl
  unfold int32
  rw [run_bind hexpect, if_neg h]
  rfl

/-- Numbers that differ by sixty-four bits have the same thirty-two. -/
theorem int32_ofInt_sub (n : Int) : Int32.ofInt (n - 0x10000000000000000) = Int32.ofInt n := by
  refine Int32.toInt.inj ?_
  rw [Int32.toInt_ofInt, Int32.toInt_ofInt, Int32.size, Int.bmod_def, Int.bmod_def]
  omega

theorem Literal.word_emod (lit : Literal) :
    lit.word.toInt % 0x100000000 = lit.value % 0x100000000 := by
  rw [Literal.word, Int32.toInt_ofInt]
  exact Int.bmod_emod

/-- A literal is read as a word exactly if it fits. -/
theorem Literal.token_word (lit : Literal) :
    (lit.FitsWord ∧ ∃ w : Int64, lit.token = .ok (.int w) ∧
        (-0x80000000 ≤ w.toInt ∧ w.toInt < 0x100000000) ∧ Int32.ofInt w.toInt = lit.word) ∨
      (¬lit.FitsWord ∧ ∃ w : Int64, lit.token = .ok (.int w) ∧
        ¬(-0x80000000 ≤ w.toInt ∧ w.toInt < 0x100000000)) ∨
      (¬lit.FitsWord ∧ ∃ cause, lit.token = .error cause) := by
  unfold FitsWord
  rcases lit.token_cases with ⟨w, htoken, hw | ⟨hhex, hlow, hhigh, hw⟩⟩ | ⟨herror, hrange, hhex⟩
  · by_cases hfits : -0x80000000 ≤ w.toInt ∧ w.toInt < 0x100000000
    · exact .inl ⟨.inl (hw ▸ hfits), w, htoken, hfits, by rw [hw, Literal.word]⟩
    · refine .inr (.inl ⟨?_, w, htoken, hfits⟩)
      have hhigh := Int64.toInt_lt w
      omega
  · by_cases hfits : -0x80000000 ≤ w.toInt ∧ w.toInt < 0x100000000
    · refine .inl ⟨.inr ⟨hhex, by omega, hhigh⟩, w, htoken, hfits, ?_⟩
      rw [hw, int32_ofInt_sub, Literal.word]
    · exact .inr (.inl ⟨by omega, w, htoken, hfits⟩)
  · refine .inr (.inr ⟨?_, herror⟩)
    rintro (hfits | ⟨hisHex, -, hhigh⟩)
    · omega
    · have := hhex hisHex
      omega

end CilCompiler.Listing

namespace CilCompiler

open Wasm (Op)

/-- Lowered instructions are written with operators of their own, and those of a constant are the
constant. -/
theorem LoweredFrom.constants {l : Linkage} {c : Cursor} {is : List Instruction} {code : List Op}
    (h : LoweredFrom l c is code) :
    ∃ coded, coded.map Prod.fst = is ∧ code = written c coded ∧ ∀ x ∈ coded, ∀ w,
      x.1.opcode.action = .constant → x.1.operand = .int32 w → x.2 = [.const w] := by
  induction h with
  | nil c =>
      exact ⟨[], rfl, rfl, by simp⟩
  | @cons c i is es ops rest hselect hlinked _ ih =>
      rcases ih with ⟨coded, hcoded, hrest, hconstants⟩
      refine ⟨(i, ops) :: coded, by rw [List.map_cons, hcoded], by rw [written, hrest], ?_⟩
      refine List.forall_mem_cons.2 ⟨fun w haction hoperand => ?_, hconstants⟩
      have hconstant : i.opcode.action = .constant := haction
      have hword : i.operand = .int32 w := hoperand
      -- a constant is selected as one element, and linking leaves it as it is
      unfold select at hselect
      rw [hconstant, hword] at hselect
      cases hselect
      cases hlinked with
      | cons hop hnil =>
          cases hop
          cases hnil
          rfl

/-- In a module that was built, every method with code of its own has a function in which each
instruction has its operators; those of a constant are the constant. -/
theorem build_constants {a : Assembly} {o : Options} {image : Image} {t : TypeDef} {m : MethodDef}
    {body : MethodBody} (h : build a o = .ok image) (hm : (t, m) ∈ a.methods)
    (hown : o.isInterop (m.ref t.name).fullName = false) (hbody : m.body = some body)
    (hne : body.instructions ≠ []) :
    ∃ d ∈ image.functions, d.function.name = (m.ref t.name).fullName ∧
      ∃ opened closing schedule coded, coded.map Prod.fst = body.instructions ∧
        d.function.body = opened ++ written { schedule } coded ++ closing ∧ ∀ x ∈ coded, ∀ w,
          x.1.opcode.action = .constant → x.1.operand = .int32 w → x.2 = [.const w] := by
  rcases build_ok h with ⟨tables, hbuilt⟩
  rcases hbuilt.exists_function hm with ⟨d, hd, hcompiles⟩
  have hname := hcompiles.name
  rcases hcompiles.body.bodyLowered (hname ▸ hown) hbody with ⟨slots, -, -, hlowered⟩
  refine ⟨d, hd, hname, ?_⟩
  generalize d.function.body = code at hlowered ⊢
  cases hlowered with
  | empty hnil =>
      exact absurd hnil hne
  | @code schedule table code _ _ _ hcode =>
      rcases hcode.constants with ⟨coded, hcoded, rfl, hconstants⟩
      refine ⟨.loop :: List.replicate schedule.size .block ++ table,
        [.close] ++ epilogue d.function.signature.result.isSome, schedule, coded, hcoded, ?_,
        hconstants⟩
      simp only [List.append_assoc, List.cons_append]

namespace Listing

/-- Another token can stand in the place of one that is not the mark. -/
theorem Marked.exchange {front rest : List Located} {t u : Located}
    (h : Marked (front ++ t :: rest)) (ht : t.token ≠ .endOfInput) (hu : u.token ≠ .endOfInput) :
    Marked (front ++ u :: rest) := by
  induction front with
  | nil =>
      exact marked_cons_iff.2 (.inr ⟨hu, h.tail ht⟩)
  | cons s front ih =>
      rcases marked_cons_iff.1 h with ⟨-, hnil⟩ | ⟨hs, hrest⟩
      · cases (List.append_eq_nil_iff.1 hnil).2
      · exact marked_cons_iff.2 (.inr ⟨hs, ih hrest⟩)

theorem exists_of_isOk {ε α : Type} {outcome : Except ε α} (h : outcome.isOk = true) :
    ∃ x, outcome = .ok x := by
  cases outcome with
  | error e =>
      cases h
  | ok x =>
      exact ⟨x, rfl⟩

section Word

variable {text : String} {lit : Literal} {front rest : List Located} {line : Nat}
  {here : Setting} {items : List (List Located)} {offset : UInt32} {opcode : Opcode}

/-- A literal that fits is read as its word, with the rest of the listing around it. -/
theorem parse_of_fitsWord (hlit : lit.StandsIn text front line rest)
    (hplace : OperandAt front ⟨.int 0, line⟩ rest here items offset opcode)
    (hkind : opcode.operandKind = .int32)
    (hwell : (assembly (front ++ ⟨.int 0, line⟩ :: rest)).isOk = true)
    (hfits : lit.FitsWord) :
    ∃ later, parse text = .ok (here.enclose later ⟨offset, opcode, .int32 lit.word⟩) := by
  rcases lit.token_word with ⟨-, w, htoken, hbounds, hword⟩ | ⟨hnot, -⟩ | ⟨hnot, -⟩
  · have hscan := scan_literal hlit htoken
    have hmarked : Marked (front ++ ⟨.int 0, line⟩ :: rest) :=
      (marked_of_scan hscan).exchange nofun nofun
    have hoperand : ∀ (v : Int64), -0x80000000 ≤ v.toInt ∧ v.toInt < 0x100000000 → ∀ n,
        operand here.scope n opcode.operandKind (⟨.int v, line⟩ :: rest) =
          .ok (.int32 (Int32.ofInt v.toInt), rest) := by
      intro v hv n
      rw [hkind, operand, run_bind (int32_of_token hv)]
      rfl
    -- the listing with a zero in this place says that what stands behind can be read
    rcases hplace.assembly_eq hmarked with ⟨n, heq⟩
    rw [heq, run_bind (hoperand 0 (by decide) n)] at hwell
    rcases exists_of_isOk hwell with ⟨⟨a, us⟩, hread⟩
    rcases bind_eq_ok hread with ⟨later, us', hlater, -⟩
    rcases hplace.exchange ⟨.int w, line⟩ with ⟨items', hplace'⟩
    refine ⟨later, ?_⟩
    rw [hplace'.parse_of_ok hscan (hoperand w hbounds), hlater, hword]
    rfl
  · exact absurd hfits hnot
  · exact absurd hfits hnot

/-- A literal that does not fit is refused. -/
theorem parse_of_not_fitsWord (hlit : lit.StandsIn text front line rest)
    (hplace : OperandAt front ⟨.int 0, line⟩ rest here items offset opcode)
    (hkind : opcode.operandKind = .int32) (hfits : ¬lit.FitsWord) :
    ∃ e, parse text = .error e := by
  rcases lit.token_word with ⟨hdoes, -⟩ | ⟨-, w, htoken, hbounds⟩ | ⟨-, cause, htoken⟩
  · exact absurd hdoes hfits
  · have hscan := scan_literal hlit htoken
    rcases hplace.exchange ⟨.int w, line⟩ with ⟨items', hplace'⟩
    refine ⟨⟨currentLine rest, .tooWide w⟩, hplace'.parse_of_error hscan fun n => ?_⟩
    rw [hkind]
    change (int32 _ >>= _) = _
    rw [int32_tooWide hbounds]
    rfl
  · exact ⟨⟨line, cause⟩, parse_literal_error hlit htoken⟩

/-- In a listing that is well formed with a zero as the operand of `ldc.i4` or `ldc.i4.s`, another
literal can stand there exactly if it fits. The instruction then holds the word that is congruent to
the number written, and in every module that is built from the listing the operator of the
instruction is the constant of that word. -/
theorem parse_word_literal (hlit : lit.StandsIn text front line rest)
    (hplace : OperandAt front ⟨.int 0, line⟩ rest here items offset opcode)
    (hopcode : opcode = .ldcI4 ∨ opcode = .ldcI4S)
    (hwell : (assembly (front ++ ⟨.int 0, line⟩ :: rest)).isOk = true) :
    ((∃ a, parse text = .ok a) ↔ lit.FitsWord) ∧
      ∀ a, parse text = .ok a → ∃ later w,
        a = here.enclose later ⟨offset, opcode, .int32 w⟩ ∧
        w.toInt % 0x100000000 = lit.value % 0x100000000 ∧
        ∃ t m body, (t, m) ∈ a.methods ∧ m.body = some body ∧
          body.instructions[here.body.instructions.length]? = some ⟨offset, opcode, .int32 w⟩ ∧
          ∀ o image, build a o = .ok image → o.isInterop (m.ref t.name).fullName = false →
            ∃ d ∈ image.functions, d.function.name = (m.ref t.name).fullName ∧
              ∃ opened closing schedule coded, coded.map Prod.fst = body.instructions ∧
                d.function.body = opened ++ written { schedule } coded ++ closing ∧
                coded[here.body.instructions.length]? =
                  some (⟨offset, opcode, .int32 w⟩, [.const w]) := by
  have hkind : opcode.operandKind = .int32 := by
    rcases hopcode with rfl | rfl <;> rfl
  have haction : opcode.action = .constant := by
    rcases hopcode with rfl | rfl <;> rfl
  by_cases hfits : lit.FitsWord
  · rcases parse_of_fitsWord hlit hplace hkind hwell hfits with ⟨later, hparse⟩
    refine ⟨⟨fun _ => hfits, fun _ => ⟨_, hparse⟩⟩, fun a ha => ?_⟩
    cases hparse.symm.trans ha
    rcases here.mem_enclose later ⟨offset, opcode, .int32 lit.word⟩ with
      ⟨t, m, body, hm, hbody, hget⟩
    refine ⟨later, lit.word, rfl, lit.word_emod, t, m, body, hm, hbody, hget, ?_⟩
    intro o image hbuild hown
    have hne : body.instructions ≠ [] := by
      rintro hnil
      rw [hnil] at hget
      cases hget
    rcases build_constants hbuild hm hown hbody hne with
      ⟨d, hd, hname, opened, closing, schedule, coded, hcoded, hcode, hconstants⟩
    refine ⟨d, hd, hname, opened, closing, schedule, coded, hcoded, hcode, ?_⟩
    -- the instruction and its operators stand at the same place
    rw [← hcoded, List.getElem?_map] at hget
    rcases Option.map_eq_some_iff.1 hget with ⟨⟨i, ops⟩, hx, hi⟩
    cases hi
    have hops : ops = [.const lit.word] :=
      hconstants _ (List.mem_of_getElem? hx) lit.word haction rfl
    rw [hx, hops]
  · rcases parse_of_not_fitsWord hlit hplace hkind hfits with ⟨e, hparse⟩
    refine ⟨⟨?_, fun hdoes => absurd hdoes hfits⟩, ?_⟩
    · rintro ⟨a, ha⟩
      cases hparse.symm.trans ha
    · intro a ha
      cases hparse.symm.trans ha

end Word

namespace OneMethod

/-! ### Listings with one method -/

/-- A listing up to the body of its only method. -/
def text : List Char :=
  ".assembly Lib\n.class C\n\x7b\n.method static int32 M()\n\x7b".toList

def tokens : List Located :=
  [⟨.ident ".assembly", 1⟩, ⟨.ident "Lib", 1⟩, ⟨.ident ".class", 2⟩, ⟨.ident "C", 2⟩,
    ⟨.punct '\x7b', 3⟩, ⟨.ident ".method", 4⟩, ⟨.ident "static", 4⟩, ⟨.ident "int32", 4⟩,
    ⟨.ident "M", 4⟩, ⟨.punct '(', 4⟩, ⟨.punct ')', 4⟩, ⟨.punct '\x7b', 5⟩]

theorem lexemes_text : lexemes 21 1 text = some (tokens, 5, []) := by
  decide +kernel

/-- What has been read when reading stands in the body. -/
def setting (body : PartialBody) : Setting :=
  { assembly := { name := some "Lib" }
    type := { name := ⟨none, "", "C"⟩, isPublic := false, isExplicit := false }
    head := ⟨["static"], .int32, "M", []⟩
    body }

/-- Reading comes to every position that the items of the body come to. -/
theorem comesTo {us vs : List Located} {items : List (List Located)} {body : PartialBody}
    (h : Rounds (bodyItem []) {} us items body vs) :
    ComesTo (tokens ++ us) (setting body) items vs := by
  have hdeclared : declaration {} (tokens ++ us) =
      .ok (.more (setting body).assembly, tokens.drop 2 ++ us) := rfl
  have htyped : typeHead (tokens.drop 3 ++ us) =
      .ok ((setting body).type, tokens.drop 5 ++ us) := rfl
  have hheaded : methodHead (tokens.drop 6 ++ us) =
      .ok ((setting body).head, tokens.drop 11 ++ us) := rfl
  exact .intro (.more hdeclared (by simp [tokens]) (.refl _ _)) rfl htyped (.refl _ _) rfl
    hheaded rfl h

end OneMethod

namespace GreatHex

/-- A method that returns a hexadecimal number of sixty-four bits. -/
def text : String :=
  ".assembly Lib\n.class C\n\x7b\n.method static int32 M()\n\x7b\n" ++
    "IL_0000: ldc.i4 0xffffffff80000000\nIL_0005: ret\n\x7d\n\x7d\n"

def literal : Literal :=
  .hex ⟨"ffffffff80000000".toList, by decide, List.all_eq_true.1 (by decide)⟩

def front : List Located :=
  OneMethod.tokens ++ [⟨.ident "IL_0000", 6⟩, ⟨.punct ':', 6⟩, ⟨.ident "ldc.i4", 6⟩]

def rest : List Located :=
  [⟨.ident "IL_0005", 7⟩, ⟨.punct ':', 7⟩, ⟨.ident "ret", 7⟩, ⟨.punct '\x7d', 8⟩,
    ⟨.punct '\x7d', 9⟩, ⟨.endOfInput, 10⟩]

def here : Setting := OneMethod.setting {}

theorem stands : literal.StandsIn text front 6 rest :=
  ⟨27, "\nIL_0005: ret\n\x7d\n\x7d\n".toList, by decide +kernel, by decide +kernel,
    by decide +kernel⟩

theorem operandAt : OperandAt front ⟨.int 0, 6⟩ rest here [] 0 .ldcI4 :=
  .intro rfl rfl (by decide +kernel) rfl rfl (by decide +kernel) (OneMethod.comesTo (.refl _ _))

theorem reads_zero : (assembly (front ++ ⟨.int 0, 6⟩ :: rest)).isOk = true := by
  decide +kernel

/-- The number is taken for the least signed number of thirty-two bits. -/
theorem taken_for_least :
    literal.StandsIn text front 6 rest ∧ OperandAt front ⟨.int 0, 6⟩ rest here [] 0 .ldcI4 ∧
      (assembly (front ++ ⟨.int 0, 6⟩ :: rest)).isOk = true ∧ literal.FitsWord ∧
      ∃ later w, parse text = .ok (here.enclose later ⟨0, .ldcI4, .int32 w⟩) ∧
        w.toInt % 0x100000000 = 0x80000000 := by
  have hfits : literal.FitsWord := by decide +kernel
  have hread := parse_word_literal stands operandAt (.inl rfl) reads_zero
  refine ⟨stands, operandAt, reads_zero, hfits, ?_⟩
  rcases hread.1.2 hfits with ⟨a, ha⟩
  rcases hread.2 a ha with ⟨later, w, rfl, hword, -⟩
  exact ⟨later, w, ha, hword⟩

/-- But the number that is written is neither a signed nor an unsigned number of that width. -/
theorem out_of_range :
    ¬(-0x80000000 ≤ literal.value ∧ literal.value < 0x100000000) ∧ (parse text).isOk = true := by
  decide +kernel

end GreatHex

end Listing

end CilCompiler
