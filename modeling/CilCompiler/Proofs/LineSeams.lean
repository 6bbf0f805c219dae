import Mathlib.Data.List.Basic
import CilCompiler.Listing.Lexer

/-!
# Reading line by line

No lexeme reaches over the end of a line, except for block comments, and these count the line ends
that they pass. So a text that can be read by itself is read in the same way when more lines follow
it, and these lines are read as if they stood alone, with greater line numbers.

* `Lexeme.before` is a lexeme with another line behind it; `lexeme_before` says that it is taken as
  it is without that line, and `count_lexeme` that its line ends are counted.
* `scanFrom_before` carries this to whole texts, and `scanFrom_later` says that nothing but the
  line numbers depends on where a text starts.
* `scan_append_line` joins the two.
-/

namespace CilCompiler.Listing

open Text (isHexDigit)

/-! ## Runs of characters -/

section Runs

variable {p : Char → Bool}

/-- A run of characters that a line end does not belong to stops there. -/
theorem takeWhile_before (hp : p '\n' = false) (cs ds : List Char) :
    (cs ++ '\n' :: ds).takeWhile p = cs.takeWhile p := by
  induction cs with
  | nil => simp [hp]
  | cons c cs ih => simp only [List.cons_append, List.takeWhile_cons, ih]

theorem dropWhile_before (hp : p '\n' = false) (cs ds : List Char) :
    (cs ++ '\n' :: ds).dropWhile p = cs.dropWhile p ++ '\n' :: ds := by
  induction cs with
  | nil => simp [hp]
  | cons c cs ih =>
    simp only [List.cons_append, List.dropWhile_cons, ih]
    split <;> rfl

theorem count_dropWhile (hp : p '\n' = false) (cs : List Char) :
    (cs.dropWhile p).count '\n' = cs.count '\n' := by
  induction cs with
  | nil => rfl
  | cons c cs ih =>
    cases hc : p c with
    | true =>
      have hne : c ≠ '\n' := by
        rintro rfl
        rw [hp] at hc
        cases hc
      rw [List.dropWhile_cons_of_pos hc, ih, List.count_cons_of_ne hne]
    | false => rw [List.dropWhile_cons_of_neg (by simp [hc])]

end Runs

/-! ## Comments, strings and quoted names -/

variable {c : Char} {cs rest text : List Char} {lines : Nat}

/-- A comment that ends is skipped in the same way whatever follows it. -/
theorem skipComment_append (h : skipComment cs = some (lines, rest)) (ds : List Char) :
    skipComment (cs ++ ds) = some (lines, rest ++ ds) := by
  fun_induction skipComment cs generalizing lines rest with
  | case1 => cases h
  | case2 cs =>
    cases h
    rfl
  | case3 c cs hend lines' rest' hrec ih =>
    cases h
    -- the two characters that end a comment do not stand here, and what follows adds none
    have hend' : ∀ cs', c = '*' → cs ++ ds ≠ '/' :: cs' := by
      intro cs' hc hcs
      cases cs with
      | nil => cases hrec
      | cons d cs =>
        cases hcs
        exact hend cs hc rfl
    rw [List.cons_append, skipComment, ih hrec]
    exact hend'
  | case4 => cases h

theorem count_skipComment (h : skipComment cs = some (lines, rest)) :
    cs.count '\n' = lines + rest.count '\n' := by
  fun_induction skipComment cs generalizing lines rest with
  | case1 => cases h
  | case2 cs =>
    cases h
    simp
  | case3 c cs _ lines' rest' hrec ih =>
    cases h
    have := ih hrec
    by_cases hc : c = '\n'
    · simp [hc]
      omega
    · simp [hc, this]
  | case4 => cases h

theorem takeString_before (h : takeString cs = .ok (text, rest)) (ds : List Char) :
    takeString (cs ++ ds) = .ok (text, rest ++ ds) := by
  fun_induction takeString cs generalizing text rest with
  | case1 => cases h
  | case2 => cases h
  | case3 cs =>
    cases h
    rfl
  | case4 => cases h
  | case5 => cases h
  | case6 e cs c hc text' rest' hrec ih =>
    cases h
    simp only [List.cons_append, takeString, hc, ih hrec]
  | case7 => cases h
  | case8 c cs hline hquote hlast hslash text' rest' hrec ih =>
    cases h
    -- a backslash would have been read with what it escapes
    have hplain : c ≠ '\\' := by
      intro hc
      cases cs with
      | nil => exact hlast hc rfl
      | cons e cs => exact hslash e cs hc rfl
    rw [List.cons_append, takeString, ih hrec]
    · exact hline
    · exact hquote
    · exact fun hc _ => hplain hc
    · exact fun _ _ hc _ => hplain hc
  | case9 => cases h

theorem count_takeString (h : takeString cs = .ok (text, rest)) :
    cs.count '\n' = rest.count '\n' := by
  fun_induction takeString cs generalizing text rest with
  | case1 => cases h
  | case2 => cases h
  | case3 cs =>
    cases h
    simp
  | case4 => cases h
  | case5 => cases h
  | case6 e cs c hc text' rest' hrec ih =>
    cases h
    have hne : e ≠ '\n' := by
      rintro rfl
      cases hc
    simp [hne, ih hrec]
  | case7 => cases h
  | case8 c cs hline _ _ _ text' rest' hrec ih =>
    cases h
    rw [List.count_cons_of_ne hline, ih hrec]
  | case9 => cases h

theorem takeName_before (h : takeName cs = some (text, rest)) (ds : List Char) :
    takeName (cs ++ ds) = some (text, rest ++ ds) := by
  fun_induction takeName cs generalizing text rest with
  | case1 => cases h
  | case2 cs =>
    cases h
    rfl
  | case3 => cases h
  | case4 c cs hquote hline text' rest' hrec ih =>
    cases h
    rw [List.cons_append, takeName, if_neg hline, ih hrec]
    exact hquote
  | case5 => cases h

theorem count_takeName (h : takeName cs = some (text, rest)) :
    cs.count '\n' = rest.count '\n' := by
  fun_induction takeName cs generalizing text rest with
  | case1 => cases h
  | case2 cs =>
    cases h
    simp
  | case3 => cases h
  | case4 c cs _ hline text' rest' hrec ih =>
    cases h
    rw [List.count_cons_of_ne hline, ih hrec]
  | case5 => cases h

/-! ## Numbers -/

theorem head?_before {d : Char} (hd : d ≠ '\n') (cs ds : List Char) :
    (cs ++ '\n' :: ds).head? = some d ↔ cs.head? = some d := by
  cases cs with
  | nil => simp [Ne.symm hd]
  | cons c cs => rfl

theorem head?_any_before {p : Char → Bool} (hp : p '\n' = false) (cs ds : List Char) :
    (cs ++ '\n' :: ds).head?.any p = cs.head?.any p := by
  cases cs with
  | nil => exact hp
  | cons c cs => rfl

theorem takeNumber_before (pointed marked : Bool) (cs ds : List Char) :
    takeNumber pointed marked (cs ++ '\n' :: ds) =
      ((takeNumber pointed marked cs).1, (takeNumber pointed marked cs).2.1,
        (takeNumber pointed marked cs).2.2 ++ '\n' :: ds) := by
  induction cs generalizing pointed marked with
  | nil => rfl
  | cons c cs ih =>
    rw [List.cons_append, takeNumber, takeNumber, head?_any_before rfl]
    -- whichever character is taken, what follows it is taken in the same way
    split
    · rw [ih]
      rfl
    split
    · rw [ih]
      rfl
    split
    · rw [ih]
      rfl
    split
    · rw [ih]
      rfl
    · rfl

theorem count_put {taken : Bool × List Char × List Char} (hc : c ≠ '\n')
    (h : cs.count '\n' = taken.2.2.count '\n') :
    (c :: cs).count '\n' = (takeNumber.put c taken).2.2.count '\n' := by
  rw [List.count_cons_of_ne hc, h]
  rfl

theorem count_takeNumber (pointed marked : Bool) (cs : List Char) :
    cs.count '\n' = (takeNumber pointed marked cs).2.2.count '\n' := by
  fun_induction takeNumber pointed marked cs with
  | case1 => rfl
  | case2 _ _ c cs hc ih =>
    refine count_put ?_ ih
    rintro rfl
    cases hc
  | case3 _ _ c cs _ hc ih =>
    refine count_put ?_ ih
    rw [hc.1]
    decide
  | case4 _ _ c cs _ _ hc ih =>
    refine count_put ?_ ih
    rcases hc with ⟨rfl | rfl, _⟩ <;> decide
  | case5 _ _ c cs _ _ _ hc ih =>
    refine count_put ?_ ih
    rcases hc with ⟨rfl | rfl, _⟩ <;> decide
  | case6 => rfl

/-- What a number is and what it leaves. A hexadecimal one has its mark behind the first character. -/
theorem numberToken_eq_ok {token : Token} (h : numberToken c cs = .ok (token, rest)) :
    (∃ mark digits, c = '0' ∧ (mark = 'x' ∨ mark = 'X') ∧ cs = mark :: digits ∧
        hexToken (digits.takeWhile isHexDigit) = .ok token ∧ rest = digits.dropWhile isHexDigit) ∨
      (¬(c = '0' ∧ (cs.head? = some 'x' ∨ cs.head? = some 'X')) ∧
        rest = (takeNumber false false cs).2.2 ∧
        (if (takeNumber false false cs).1 then floatToken (c :: (takeNumber false false cs).2.1)
          else integerToken (c :: (takeNumber false false cs).2.1)) = .ok token) := by
  unfold numberToken at h
  split at h
  · next hhex =>
    cases cs with
    | nil => simp at hhex
    | cons mark digits =>
      simp only [List.head?_cons, Option.some.injEq] at hhex
      simp only [List.tail_cons] at h
      cases htoken : hexToken (digits.takeWhile isHexDigit) with
      | ok token' =>
        rw [htoken] at h
        cases h
        exact .inl ⟨mark, digits, hhex.1, hhex.2, rfl, htoken, rfl⟩
      | error cause =>
        rw [htoken] at h
        cases h
  · next hhex =>
    revert h
    rcases takeNumber false false cs with ⟨pointed, text, behind⟩
    intro h
    simp only at h
    split at h
    · next token' htoken =>
      cases h
      exact .inr ⟨hhex, rfl, htoken⟩
    · cases h

/-- A number before a line end is read like one at the end of a text. -/
theorem numberToken_before {token : Token} (h : numberToken c cs = .ok (token, rest))
    (ds : List Char) : numberToken c (cs ++ '\n' :: ds) = .ok (token, rest ++ '\n' :: ds) := by
  rcases numberToken_eq_ok h with ⟨mark, digits, hc, hmark, rfl, htoken, rfl⟩ | ⟨hhex, rfl, htoken⟩
  · have hhex : c = '0' ∧ (some mark = some 'x' ∨ some mark = some 'X') := by simpa [hc] using hmark
    simp only [numberToken, List.cons_append, List.head?_cons, if_pos hhex, List.tail_cons,
      takeWhile_before (p := isHexDigit) rfl, dropWhile_before (p := isHexDigit) rfl, htoken]
  · have hhex' : ¬(c = '0' ∧ ((cs ++ '\n' :: ds).head? = some 'x' ∨
        (cs ++ '\n' :: ds).head? = some 'X')) := by
      rwa [head?_before (by decide), head?_before (by decide)]
    simp only [numberToken, if_neg hhex', takeNumber_before, htoken]

theorem count_numberToken {token : Token} (h : numberToken c cs = .ok (token, rest)) :
    cs.count '\n' = rest.count '\n' := by
  rcases numberToken_eq_ok h with ⟨mark, digits, -, hmark, rfl, -, rfl⟩ | ⟨-, rfl, -⟩
  · have hne : mark ≠ '\n' := by
      rcases hmark with rfl | rfl <;> decide
    rw [List.count_cons_of_ne hne, count_dropWhile (p := isHexDigit) rfl]
  · exact count_takeNumber false false cs

/-! ## Lexemes -/

/-- The lexeme with a line end and `ds` behind what it left. -/
def Lexeme.before (l : Lexeme) (ds : List Char) : Lexeme :=
  { l with rest := l.rest ++ '\n' :: ds }

theorem choose_before (c : Char) (cs ds : List Char) :
    Rule.choose c (cs ++ '\n' :: ds) = Rule.choose c cs := by
  cases cs with
  | nil => simp [Rule.choose]
  | cons d cs => rfl

variable {rule : Rule} {l : Lexeme}

/-- Only one rule takes a line end, and two rules have seen the character that they skip. -/
theorem choose_eq_some (h : Rule.choose c cs = some rule) :
    (rule = .lineEnd ↔ c = '\n') ∧ (rule = .blockComment → ∃ rest, cs = '*' :: rest) ∧
      (rule = .doubleColon → ∃ rest, cs = ':' :: rest) := by
  unfold Rule.choose at h
  -- one case for each rule, with the test that led to it
  repeat' split at h
  all_goals cases h <;> simp_all [List.head?_eq_some_iff]

/-- What the rules take from `c` and `cs`: the outcomes of `Rule.apply`, one by one. -/
inductive Rule.Takes (c : Char) (cs : List Char) : Rule → Lexeme → Prop
  | lineEnd : Takes c cs .lineEnd ⟨none, 1, cs⟩
  | blank : Takes c cs .blank ⟨none, 0, cs⟩
  | lineComment : Takes c cs .lineComment ⟨none, 0, cs.dropWhile (· != '\n')⟩
  | blockComment {lines : Nat} {rest : List Char} (h : skipComment cs.tail = some (lines, rest)) :
      Takes c cs .blockComment ⟨none, lines, rest⟩
  | doubleColon : Takes c cs .doubleColon ⟨some .doubleColon, 0, cs.tail⟩
  | punct : Takes c cs .punct ⟨some (.punct c), 0, cs⟩
  | string {text rest : List Char} (h : takeString cs = .ok (text, rest)) :
      Takes c cs .string ⟨some (.string (String.ofList text)), 0, rest⟩
  | quotedName {text rest : List Char} (h : takeName cs = some (text, rest)) :
      Takes c cs .quotedName ⟨some (.ident (String.ofList text)), 0, rest⟩
  | number {token : Token} {rest : List Char} (h : numberToken c cs = .ok (token, rest)) :
      Takes c cs .number ⟨some token, 0, rest⟩
  | name :
      Takes c cs .name
        ⟨some (.ident (String.ofList (c :: cs.takeWhile isNamePart))), 0, cs.dropWhile isNamePart⟩

theorem Rule.takes_of_apply (h : rule.apply c cs = .ok l) : rule.Takes c cs l := by
  cases rule with
  | lineEnd =>
    cases h
    exact .lineEnd
  | blank =>
    cases h
    exact .blank
  | lineComment =>
    cases h
    exact .lineComment
  | doubleColon =>
    cases h
    exact .doubleColon
  | punct =>
    cases h
    exact .punct
  | name =>
    cases h
    exact .name
  | blockComment =>
    simp only [Rule.apply] at h
    split at h <;> cases h
    exact .blockComment ‹_›
  | string =>
    simp only [Rule.apply] at h
    split at h <;> cases h
    exact .string ‹_›
  | quotedName =>
    simp only [Rule.apply] at h
    split at h <;> cases h
    exact .quotedName ‹_›
  | number =>
    simp only [Rule.apply] at h
    split at h <;> cases h
    exact .number ‹_›

theorem Rule.apply_before (hrule : Rule.choose c cs = some rule) (h : rule.apply c cs = .ok l)
    (ds : List Char) : rule.apply c (cs ++ '\n' :: ds) = .ok (l.before ds) := by
  cases Rule.takes_of_apply h with
  | lineEnd | blank | punct => rfl
  | lineComment =>
    simp only [Rule.apply, dropWhile_before (p := (· != '\n')) rfl, Lexeme.before]
  | name =>
    simp only [Rule.apply, takeWhile_before (p := isNamePart) rfl,
      dropWhile_before (p := isNamePart) rfl, Lexeme.before]
  | doubleColon =>
    rcases (choose_eq_some hrule).2.2 rfl with ⟨rest, rfl⟩
    rfl
  | blockComment hskip =>
    rcases (choose_eq_some hrule).2.1 rfl with ⟨behind, rfl⟩
    rw [List.tail_cons] at hskip
    simp only [Rule.apply, List.cons_append, List.tail_cons, skipComment_append hskip, Lexeme.before]
  | string htake => simp only [Rule.apply, takeString_before htake, Lexeme.before]
  | quotedName htake => simp only [Rule.apply, takeName_before htake, Lexeme.before]
  | number htake => simp only [Rule.apply, numberToken_before htake, Lexeme.before]

/-- The line ends of a lexeme and of what it left are those of the text. -/
theorem Rule.count_apply (hrule : Rule.choose c cs = some rule) (h : rule.apply c cs = .ok l) :
    (c :: cs).count '\n' = l.lines + l.rest.count '\n' := by
  have hchosen := choose_eq_some hrule
  by_cases hc : c = '\n'
  · cases hchosen.1.2 hc
    cases h
    rw [hc, List.count_cons_self, Nat.add_comm]
  · rw [List.count_cons_of_ne hc]
    cases Rule.takes_of_apply h with
    | lineEnd => exact absurd (hchosen.1.1 rfl) hc
    | blank | punct => exact (Nat.zero_add _).symm
    | lineComment => simp [count_dropWhile (p := (· != '\n')) rfl]
    | name => simp [count_dropWhile (p := isNamePart) rfl]
    | doubleColon =>
      rcases hchosen.2.2 rfl with ⟨rest, rfl⟩
      simp
    | blockComment hskip =>
      rcases hchosen.2.1 rfl with ⟨behind, rfl⟩
      rw [List.tail_cons] at hskip
      rw [List.count_cons_of_ne (by decide), count_skipComment hskip]
    | string htake => simp [count_takeString htake]
    | quotedName htake => simp [count_takeName htake]
    | number htake => simp [count_numberToken htake]

theorem lexeme_eq_ok (h : lexeme c cs = .ok l) :
    ∃ rule, Rule.choose c cs = some rule ∧ rule.apply c cs = .ok l := by
  unfold lexeme at h
  split at h
  · next rule hrule => exact ⟨rule, hrule, h⟩
  · cases h

theorem lexeme_before (h : lexeme c cs = .ok l) (ds : List Char) :
    lexeme c (cs ++ '\n' :: ds) = .ok (l.before ds) := by
  rcases lexeme_eq_ok h with ⟨rule, hrule, happly⟩
  simp only [lexeme, choose_before, hrule, Rule.apply_before hrule happly]

theorem count_lexeme (h : lexeme c cs = .ok l) :
    (c :: cs).count '\n' = l.lines + l.rest.count '\n' := by
  rcases lexeme_eq_ok h with ⟨rule, hrule, happly⟩
  exact Rule.count_apply hrule happly

/-! ## Texts -/

/-- The token of a lexeme on `line`, if it has one. -/
def Lexeme.located (l : Lexeme) (line : Nat) : List Located :=
  l.token.toList.map (⟨·, line⟩)

theorem scanFrom_nil (line : Nat) : scanFrom line [] = .ok [⟨.endOfInput, line⟩] := by
  rw [scanFrom]

theorem scanFrom_error {cause : Cause} (h : lexeme c cs = .error cause) (line : Nat) :
    scanFrom line (c :: cs) = .error ⟨line, cause⟩ := by
  rw [scanFrom]
  split
  · next cause' h' =>
    rw [h] at h'
    cases h'
    rfl
  · next l h' =>
    rw [h] at h'
    cases h'

theorem scanFrom_ok (h : lexeme c cs = .ok l) (line : Nat) :
    scanFrom line (c :: cs) =
      (scanFrom (line + l.lines) l.rest).map (l.located line ++ ·) := by
  rw [scanFrom]
  split
  · next cause h' =>
    rw [h] at h'
    cases h'
  · next l' h' =>
    rw [h] at h'
    cases h'
    unfold Lexeme.located
    cases l.token with
    | none => cases scanFrom (line + l.lines) l.rest <;> rfl
    | some token => cases scanFrom (line + l.lines) l.rest <;> rfl

/-- Texts are read lexeme by lexeme: what holds of the empty text, of texts without a first lexeme,
and of texts whose first lexeme leaves a text of which it holds, holds of all texts. -/
theorem lexeme_induction {P : Nat → List Char → Prop} (nil : ∀ line, P line [])
    (error : ∀ line c cs cause, lexeme c cs = .error cause → P line (c :: cs))
    (ok : ∀ line c cs l, lexeme c cs = .ok l → P (line + l.lines) l.rest → P line (c :: cs))
    (line : Nat) (cs : List Char) : P line cs := by
  induction hlength : cs.length using Nat.strongRecOn generalizing line cs with
  | ind n ih =>
    cases cs with
    | nil => exact nil line
    | cons c cs =>
      cases h : lexeme c cs with
      | error cause => exact error line c cs cause h
      | ok l =>
        have hshorter : l.rest.length < n := by
          rw [← hlength]
          exact Nat.lt_succ_of_le (length_rest_le h)
        exact ok line c cs l h (ih l.rest.length hshorter (line + l.lines) l.rest rfl)

/-- A text that can be read is read in the same way when a line end and more text follow it. The
end mark then makes room for the tokens of what follows. -/
theorem scanFrom_before {line : Nat} {cs : List Char} {ts : List Located}
    (h : scanFrom line cs = .ok ts) :
    ∃ front, ts = front ++ [⟨.endOfInput, line + cs.count '\n'⟩] ∧
      ∀ ds, scanFrom line (cs ++ '\n' :: ds) =
        (scanFrom (line + cs.count '\n' + 1) ds).map (front ++ ·) := by
  induction line, cs using lexeme_induction generalizing ts with
  | nil line =>
    rw [scanFrom_nil] at h
    cases h
    refine ⟨[], rfl, fun ds => ?_⟩
    exact scanFrom_ok (l := ⟨none, 1, ds⟩) rfl line
  | error line c cs cause hlexeme =>
    rw [scanFrom_error hlexeme] at h
    cases h
  | ok line c cs l hlexeme ih =>
    rw [scanFrom_ok hlexeme] at h
    cases hrest : scanFrom (line + l.lines) l.rest with
    | error e =>
      rw [hrest] at h
      cases h
    | ok us =>
      rw [hrest] at h
      cases h
      rcases ih hrest with ⟨front, rfl, hbefore⟩
      -- the line behind this lexeme and what it left is the line behind the whole text
      have hline : line + l.lines + l.rest.count '\n' = line + (c :: cs).count '\n' := by
        rw [count_lexeme hlexeme, Nat.add_assoc]
      rw [hline] at hbefore ⊢
      refine ⟨l.located line ++ front, (List.append_assoc ..).symm, fun ds => ?_⟩
      rw [List.cons_append, scanFrom_ok (lexeme_before hlexeme ds)]
      change Except.map (l.located line ++ ·) (scanFrom (line + l.lines) (l.rest ++ '\n' :: ds)) = _
      rw [hbefore]
      cases scanFrom (line + (c :: cs).count '\n' + 1) ds with
      | ok vs => exact congrArg Except.ok (List.append_assoc ..).symm
      | error e => rfl

/-- The token, some lines further down. -/
def Located.later (lines : Nat) (t : Located) : Located :=
  { t with line := t.line + lines }

/-- The error, some lines further down. -/
def SyntaxError.later (lines : Nat) (e : SyntaxError) : SyntaxError :=
  { e with line := e.line + lines }

theorem located_later (l : Lexeme) (line k : Nat) :
    l.located (line + k) = (l.located line).map (Located.later k) := by
  unfold Lexeme.located
  rw [List.map_map]
  rfl

/-- Where a text starts decides the line numbers and nothing else. -/
theorem scanFrom_later (k line : Nat) (cs : List Char) :
    scanFrom (line + k) cs =
      ((scanFrom line cs).mapError (SyntaxError.later k)).map (List.map (Located.later k)) := by
  induction line, cs using lexeme_induction with
  | nil line =>
    rw [scanFrom_nil, scanFrom_nil]
    rfl
  | error line c cs cause hlexeme =>
    rw [scanFrom_error hlexeme, scanFrom_error hlexeme]
    rfl
  | ok line c cs l hlexeme ih =>
    rw [scanFrom_ok hlexeme, scanFrom_ok hlexeme, located_later, Nat.add_right_comm, ih]
    cases scanFrom (line + l.lines) l.rest with
    | ok us => exact congrArg Except.ok (List.map_append ..).symm
    | error e => rfl

/-- If a text can be read, then a line end and another text behind it are read apart from it: its own
tokens come first, without the end mark, and then come the tokens of the other text, or its error,
with the lines counted from the start of the whole. -/
theorem scan_append_line {a : String} {ts : List Located} (ha : scan a = .ok ts) (b : String) :
    ∃ front, ts = front ++ [⟨.endOfInput, 1 + a.toList.count '\n'⟩] ∧
      (∀ us, scan b = .ok us →
        scan (a ++ "\n" ++ b) = .ok (front ++ us.map (Located.later (1 + a.toList.count '\n')))) ∧
      ∀ e, scan b = .error e →
        scan (a ++ "\n" ++ b) = .error (e.later (1 + a.toList.count '\n')) := by
  rcases scanFrom_before ha with ⟨front, hts, hbefore⟩
  have hjoined : scan (a ++ "\n" ++ b) =
      (scanFrom (1 + (1 + a.toList.count '\n')) b.toList).map (front ++ ·) := by
    rw [scan, String.toList_append, String.toList_append, List.append_assoc,
      Nat.add_comm 1 (1 + a.toList.count '\n')]
    exact hbefore b.toList
  rw [scanFrom_later] at hjoined
  refine ⟨front, hts, fun us hb => ?_, fun e hb => ?_⟩
  · rw [hjoined, show scanFrom 1 b.toList = .ok us from hb]
    rfl
  · rw [hjoined, show scanFrom 1 b.toList = .error e from hb]
    rfl

/-! ## Two texts and a seam -/

namespace Seam

/-- Its comment holds a line end, and its last lexeme is another comment. -/
def upper : String := "0x1F /* two\nlines */ -1.5 // note"

def lower : String := "\n'A B' :: \"c\""

/-- Its string does not end on its line. -/
def broken : String := "ret\n\"open"

theorem scan_upper :
    scan upper = .ok ([⟨.int 31, 1⟩, ⟨.float (Binary64.ofDecimal true 15 (-1)), 2⟩] ++
      [⟨.endOfInput, 2⟩]) := by
  decide +kernel

theorem scan_lower :
    scan lower = .ok [⟨.ident "A B", 2⟩, ⟨.doubleColon, 2⟩, ⟨.string "c", 2⟩, ⟨.endOfInput, 2⟩] := by
  decide +kernel

theorem scan_broken : scan broken = .error ⟨2, .unterminated .string⟩ := by
  decide +kernel

/-- The texts behind the first one are two lines further down. -/
theorem reads_apart :
    scan upper = .ok [⟨.int 31, 1⟩, ⟨.float (Binary64.ofDecimal true 15 (-1)), 2⟩,
        ⟨.endOfInput, 2⟩] ∧
      scan (upper ++ "\n" ++ lower) =
        .ok [⟨.int 31, 1⟩, ⟨.float (Binary64.ofDecimal true 15 (-1)), 2⟩, ⟨.ident "A B", 4⟩,
          ⟨.doubleColon, 4⟩, ⟨.string "c", 4⟩, ⟨.endOfInput, 4⟩] ∧
      scan (upper ++ "\n" ++ broken) = .error ⟨4, .unterminated .string⟩ := by
  have hcount : 1 + upper.toList.count '\n' = 2 := by
    decide +kernel
  rcases scan_append_line scan_upper lower with ⟨front, hts, hlower, -⟩
  rcases scan_append_line scan_upper broken with ⟨-, -, -, hbroken⟩
  rw [hcount] at hts hlower hbroken
  cases List.append_cancel_right hts
  exact ⟨scan_upper, hlower _ scan_lower, hbroken _ scan_broken⟩

end Seam

end CilCompiler.Listing
