import CilCompiler.Listing.Lexer
import CilCompiler.Text.Hex

/-!
# The text of a listing, piece by piece

A printed listing is a row of pieces: words, quoted names, numbers, strings, labels and punctuation.
`layout` writes the pieces one behind the other and puts a line end, a blank or nothing between two
of them.

* `Piece.text` is what a piece looks like, `Piece.tokens` what it means.
* `gap_stops` says that no piece runs into the one behind it.
* `scan_layout` says that scanning the text of well-formed pieces gives their tokens.
-/

namespace CilCompiler.Listing

/-! ## Pieces -/

/-- A piece of a printed listing. -/
inductive Piece
  /-- A keyword, directive or mnemonic. -/
  | word (text : String)
  /-- A name between single quotes. -/
  | name (text : String)
  | int (value : Int64)
  | string (text : String)
  /-- The label of an instruction where something refers to it. -/
  | label (offset : UInt32)
  /-- The label that stands before its instruction. -/
  | mark (offset : UInt32)
  | punct (c : Char)
  /-- The pair of brackets behind the elements of an array type. -/
  | brackets
  | doubleColon

/-- How a character is written in a string. -/
def escape : Char → List Char
  | '\n' => ['\\', 'n']
  | '\t' => ['\\', 't']
  | '\r' => ['\\', 'r']
  | '\x00' => ['\\', '0']
  | '"' => ['\\', '"']
  | '\\' => ['\\', '\\']
  | c => [c]

/-- A number in decimal, with a sign if it is negative. -/
def decimal (value : Int) : List Char :=
  (if value < 0 then ['-'] else []) ++ Nat.toDigits 10 value.natAbs

/-- Whether a text can be written between single quotes. -/
def Quotable (text : String) : Prop :=
  '\'' ∉ text.toList ∧ '\n' ∉ text.toList

instance (text : String) : Decidable (Quotable text) :=
  inferInstanceAs (Decidable (_ ∧ _))

/-- Whether a text can be written without quotes. -/
def isWord (text : String) : Bool :=
  match text.toList with
  | [] => false
  | c :: cs => Rule.choose c [] = some .name && cs.all isNamePart

namespace Piece

def text : Piece → List Char
  | word text => text.toList
  | name text => '\'' :: (text.toList ++ ['\''])
  | int value => decimal value.toInt
  | string text => '"' :: (text.toList.flatMap escape ++ ['"'])
  | label offset => (Text.label offset).toList
  | mark offset => (Text.label offset).toList ++ [':', ' ']
  | punct c => [c]
  | brackets => ['[', ']']
  | doubleColon => [':', ':']

@[simp] def tokens : Piece → List Token
  | word text | name text => [.ident text]
  | int value => [.int value]
  | string text => [.string text]
  | label offset => [.ident (Text.label offset)]
  | mark offset => [.ident (Text.label offset), .punct ':']
  | punct c => [.punct c]
  | brackets => [.punct '[', .punct ']']
  | doubleColon => [.doubleColon]

/-- A piece that the lexer can take as it is written. -/
@[simp] def WellFormed : Piece → Prop
  | word text => isWord text
  | name text => Quotable text
  | punct c => isPunct c ∧ c ≠ ':'
  | _ => True

/-- Whether a piece starts a line: directives, marked instructions and closing braces do. -/
def startsLine : Piece → Bool
  | word text => text.toList.head? = some '.'
  | mark _ => true
  | punct c => c = '\x7d'
  | _ => false

/-- Whether the next piece stands right behind this one. -/
def opens : Piece → Bool
  | punct c => c ∈ ['(', '[']
  | doubleColon => true
  | _ => false

def isName : Piece → Bool
  | name _ => true
  | _ => false

/-- Whether a piece stands right behind `p`. An opening parenthesis does so behind a name. -/
def joins (p : Piece) : Piece → Bool
  | punct c => c ∈ [')', ']', ','] || (c = '(' && p.isName)
  | brackets | doubleColon => true
  | _ => false

/-- What stands between two pieces. -/
def gap (p q : Piece) : List Char :=
  if q.startsLine then ['\n']
  else if p.opens || p.joins q then []
  else [' ']

end Piece

/-- The tokens of a row of pieces. -/
def tokens (ps : List Piece) : List Token :=
  ps.flatMap Piece.tokens

@[simp] theorem tokens_nil : tokens [] = [] := rfl

@[simp] theorem tokens_cons (p : Piece) (ps : List Piece) :
    tokens (p :: ps) = p.tokens ++ tokens ps := rfl

@[simp] theorem tokens_append (ps qs : List Piece) :
    tokens (ps ++ qs) = tokens ps ++ tokens qs :=
  List.flatMap_append

/-- The text of a row of pieces; a line end stands behind the last one. -/
def layout : List Piece → List Char
  | [] => []
  | [p] => p.text ++ ['\n']
  | p :: q :: ps => p.text ++ (p.gap q ++ layout (q :: ps))

/-! ## Scanning step by step -/

/-- The characters `cs` are scanned into the tokens `ts`, on whatever line they start. -/
def Scans (cs : List Char) (ts : List Token) : Prop :=
  ∀ line, ∃ located, scanFrom line cs = .ok located ∧ located.map (·.token) = ts

namespace Scans

variable {c : Char} {cs rest : List Char} {ts : List Token} {lines : Nat}

theorem nil : Scans [] [.endOfInput] := by
  intro line
  exact ⟨_, by rw [scanFrom], rfl⟩

/-- A lexeme that is a token comes before the tokens of what it leaves. -/
theorem token {rule : Rule} {t : Token} (hrule : Rule.choose c cs = some rule)
    (happly : rule.apply c cs = .ok ⟨some t, 0, rest⟩) (hs : Scans rest ts) :
    Scans (c :: cs) (t :: ts) := by
  have h : lexeme c cs = .ok ⟨some t, 0, rest⟩ := by simp only [lexeme, hrule, happly]
  intro line
  obtain ⟨located, hl, hts⟩ := hs line
  refine ⟨⟨t, line⟩ :: located, ?_, by simp [hts]⟩
  rw [scanFrom]
  split
  · next cause hc =>
    rw [h] at hc
    cases hc
  · next l hc =>
    rw [h] at hc
    cases hc
    simp only [Nat.add_zero, hl]

/-- A lexeme that is no token is passed over. -/
theorem skip (h : lexeme c cs = .ok ⟨none, lines, rest⟩) (hs : Scans rest ts) :
    Scans (c :: cs) ts := by
  intro line
  obtain ⟨located, hl, hts⟩ := hs (line + lines)
  refine ⟨located, ?_, hts⟩
  rw [scanFrom]
  split
  · next cause hc =>
    rw [h] at hc
    cases hc
  · next l hc =>
    rw [h] at hc
    cases hc
    exact hl

theorem blank (hs : Scans cs ts) : Scans (' ' :: cs) ts :=
  skip rfl hs

theorem lineEnd (hs : Scans cs ts) : Scans ('\n' :: cs) ts :=
  skip rfl hs

end Scans

/-! ## One lemma per kind of piece -/

/-- Nothing at the front of `cs` continues a word or a number. -/
def Stops (cs : List Char) : Prop :=
  ∀ c ∈ cs.head?, isNamePart c = false

theorem Stops.cons {c : Char} (h : isNamePart c = false) (cs : List Char) : Stops (c :: cs) := by
  intro d hd
  cases hd
  exact h

theorem takeWhile_append_of_stops {cs rest : List Char} (h : cs.all isNamePart = true)
    (hrest : Stops rest) :
    (cs ++ rest).takeWhile isNamePart = cs ∧ (cs ++ rest).dropWhile isNamePart = rest := by
  have hall : ∀ c ∈ cs, isNamePart c = true := List.all_eq_true.1 h
  rw [List.takeWhile_append_of_pos hall, List.dropWhile_append_of_pos hall]
  cases rest with
  | nil => simp
  | cons c rest => simp [hrest c rfl]

/-- A character that starts a name by itself starts one whatever follows it. -/
theorem choose_name {c : Char} (h : Rule.choose c [] = some .name) (cs : List Char) :
    Rule.choose c cs = some .name := by
  -- The rules that look at the next character are those of these three.
  have hslash : c ≠ '/' := by
    rintro rfl
    revert h
    decide
  have hcolon : c ≠ ':' := by
    rintro rfl
    revert h
    decide
  have hminus : c ≠ '-' := by
    rintro rfl
    revert h
    decide
  simpa [Rule.choose, hslash, hcolon, hminus] using h

theorem scans_word {text : String} {rest : List Char} {ts : List Token} (h : isWord text = true)
    (hrest : Stops rest) (hs : Scans rest ts) : Scans (text.toList ++ rest) (.ident text :: ts) := by
  unfold isWord at h
  split at h
  · cases h
  · next c cs hcs =>
    obtain ⟨hc, hall⟩ := Bool.and_eq_true_iff.1 h
    obtain ⟨htake, hdrop⟩ := takeWhile_append_of_stops hall hrest
    have htext : String.ofList (c :: cs) = text := by rw [← hcs, String.ofList_toList]
    rw [hcs, List.cons_append]
    refine Scans.token (choose_name (of_decide_eq_true hc) _) ?_ hs
    simp only [Rule.apply, htake, hdrop, htext]

theorem takeName_append {cs : List Char} (rest : List Char) (hquote : '\'' ∉ cs)
    (hline : '\n' ∉ cs) : takeName (cs ++ '\'' :: rest) = some (cs, rest) := by
  induction cs with
  | nil => rfl
  | cons c cs ih =>
    simp only [List.mem_cons, not_or] at hquote hline
    rw [List.cons_append, takeName]
    · simp [Ne.symm hline.1, ih hquote.2 hline.2]
    · intro hc
      exact hquote.1 hc.symm

theorem scans_name {text : String} {rest : List Char} {ts : List Token} (h : Quotable text)
    (hs : Scans rest ts) :
    Scans ('\'' :: (text.toList ++ '\'' :: rest)) (.ident text :: ts) := by
  have hchoose : Rule.choose '\'' (text.toList ++ '\'' :: rest) = some .quotedName := rfl
  refine Scans.token hchoose ?_ hs
  simp only [Rule.apply, takeName_append rest h.1 h.2, String.ofList_toList]

/-- An escaped character is taken as the character. -/
theorem takeString_escape {c : Char} {cs text rest : List Char}
    (h : takeString cs = .ok (text, rest)) :
    takeString (escape c ++ cs) = .ok (c :: text, rest) := by
  unfold escape
  split
  case h_7 hline _ _ _ hquote hslash =>
    -- A character without an escape stands for itself.
    rw [List.singleton_append, takeString, h]
    · exact hline
    · exact hquote
    · intro hc
      exact absurd hc hslash
    · intro _ _ hc
      exact absurd hc hslash
  all_goals simp [takeString, unescape?, h]

theorem takeString_append (cs rest : List Char) :
    takeString (cs.flatMap escape ++ '"' :: rest) = .ok (cs, rest) := by
  induction cs with
  | nil => rfl
  | cons c cs ih =>
    rw [List.flatMap_cons, List.append_assoc]
    exact takeString_escape ih

theorem scans_string (text : String) {rest : List Char} {ts : List Token} (hs : Scans rest ts) :
    Scans ('"' :: (text.toList.flatMap escape ++ '"' :: rest)) (.string text :: ts) := by
  have hchoose : Rule.choose '"' (text.toList.flatMap escape ++ '"' :: rest) = some .string := rfl
  refine Scans.token hchoose ?_ hs
  simp only [Rule.apply, takeString_append, String.ofList_toList]

/-! ### Numbers -/

theorem takeNumber_append {ds rest : List Char} (h : ∀ d ∈ ds, d.isDigit = true)
    (hrest : Stops rest) : takeNumber false false (ds ++ rest) = (false, ds, rest) := by
  induction ds with
  | nil =>
    cases rest with
    | nil => rfl
    | cons c rest =>
      have hc := hrest c rfl
      simp only [isNamePart, Char.isAlphanum, Bool.or_eq_false_iff, decide_eq_false_iff_not] at hc
      have hpoint : c ≠ '.' := by
        rintro rfl
        simp at hc
      simp [takeNumber, hc.1.2, hpoint]
  | cons d ds ih =>
    simp only [List.mem_cons, forall_eq_or_imp] at h
    rw [List.cons_append, takeNumber, if_pos h.1, ih h.2]
    rfl

/-- Digits are not followed by the mark of a hexadecimal number. -/
theorem head?_append_ne {ds rest : List Char} (h : ∀ d ∈ ds, d.isDigit = true)
    (hrest : Stops rest) {c : Char} (hc : isNamePart c = true) (hdigit : c.isDigit = false) :
    (ds ++ rest).head? ≠ some c := by
  intro hhead
  cases ds with
  | nil =>
    have := hrest c hhead
    rw [hc] at this
    cases this
  | cons d ds =>
    cases hhead
    have := h c (.head _)
    rw [hdigit] at this
    cases this

theorem numberToken_append {c : Char} {ds rest : List Char} {t : Token}
    (h : ∀ d ∈ ds, d.isDigit = true) (hrest : Stops rest) (ht : integerToken (c :: ds) = .ok t) :
    numberToken c (ds ++ rest) = .ok (t, rest) := by
  have hx : (ds ++ rest).head? ≠ some 'x' := head?_append_ne h hrest rfl rfl
  have hX : (ds ++ rest).head? ≠ some 'X' := head?_append_ne h hrest rfl rfl
  simp only [numberToken, hx, hX, or_self, and_false, if_false, takeNumber_append h hrest,
    Bool.false_eq_true, ht]

theorem readDecimal_toDigits (n : Nat) : readDecimal (Nat.toDigits 10 n) = n :=
  Nat.ofDigitChars_toDigits (by decide) (by decide)

theorem isDigit_of_mem_decimal {n : Nat} {d : Char} (h : d ∈ Nat.toDigits 10 n) :
    d.isDigit = true :=
  Nat.isDigit_of_mem_toDigits (by decide) (by decide) h

theorem takeSign_toDigits (n : Nat) :
    takeSign (Nat.toDigits 10 n) = (false, Nat.toDigits 10 n) := by
  unfold takeSign
  split
  · next cs hcs =>
    have hdigit : ('-').isDigit = true := isDigit_of_mem_decimal (hcs ▸ List.mem_cons_self)
    cases hdigit
  · rfl

theorem integerToken_decimal (value : Int64) :
    integerToken (decimal value.toInt) = .ok (.int value) := by
  have hlow := Int64.le_toInt value
  have hhigh := Int64.toInt_lt value
  unfold decimal
  split
  · next hneg =>
    have hvalue : -(value.toInt.natAbs : Int) = value.toInt := by omega
    have hbound : value.toInt.natAbs ≤ 0x8000000000000000 := by omega
    simp only [integerToken, List.singleton_append, takeSign, if_true, readDecimal_toDigits,
      if_pos hbound, hvalue, Int64.ofInt_toInt]
  · next hpos =>
    have hvalue : (value.toInt.natAbs : Int) = value.toInt := by omega
    have hbound : value.toInt.natAbs < 0x8000000000000000 := by omega
    simp only [integerToken, List.nil_append, takeSign_toDigits, Bool.false_eq_true, if_false,
      readDecimal_toDigits, if_pos hbound, hvalue, Int64.ofInt_toInt]

theorem choose_digit {d : Char} (h : d.isDigit = true) (cs : List Char) :
    Rule.choose d cs = some .number := by
  have hother : ∀ c : Char, c.isDigit = false → d ≠ c := by
    rintro c hc rfl
    rw [hc] at h
    cases h
  -- Digits lie between the blanks of ASCII and those beyond it.
  have hblank : Text.isBlank d = false := by
    have hrange : 48 ≤ d.toNat ∧ d.toNat ≤ 57 := by
      simpa [Char.isDigit, UInt32.le_iff_toNat_le] using h
    simp [Text.isBlank]
    omega
  have hpunct : isPunct d = false := by
    simp [isPunct, hother]
  simp [Rule.choose, hblank, hpunct, h, hother]

theorem scans_number {c : Char} {ds rest : List Char} {t : Token} {ts : List Token}
    (hchoose : Rule.choose c (ds ++ rest) = some .number) (h : ∀ d ∈ ds, d.isDigit = true)
    (hrest : Stops rest) (ht : integerToken (c :: ds) = .ok t) (hs : Scans rest ts) :
    Scans (c :: (ds ++ rest)) (t :: ts) := by
  refine Scans.token hchoose ?_ hs
  simp only [Rule.apply, numberToken_append h hrest ht]

theorem scans_int (value : Int64) {rest : List Char} {ts : List Token} (hrest : Stops rest)
    (hs : Scans rest ts) : Scans (decimal value.toInt ++ rest) (.int value :: ts) := by
  have htoken := integerToken_decimal value
  revert htoken
  obtain ⟨d, ds, hdigits⟩ := List.exists_cons_of_ne_nil
    (Nat.toDigits_ne_nil (b := 10) (n := value.toInt.natAbs))
  have hall : ∀ c ∈ d :: ds, c.isDigit = true := by
    intro c hc
    exact isDigit_of_mem_decimal (hdigits ▸ hc)
  have hd := hall d (.head _)
  unfold decimal
  rw [hdigits]
  -- The first character is a sign or a digit; all others are digits.
  split
  · intro htoken
    have hchoose : Rule.choose '-' (d :: ds ++ rest) = some .number := by
      simp [Rule.choose, hd, Text.isBlank, isPunct]
    exact scans_number hchoose hall hrest htoken hs
  · intro htoken
    have htail : ∀ c ∈ ds, c.isDigit = true := fun c hc => hall c (.tail _ hc)
    exact scans_number (choose_digit hd _) htail hrest htoken hs

/-! ### Labels -/

theorem mem_toDigits {n : Nat} {c : Char} (h : c ∈ Nat.toDigits 16 n) :
    ∃ d < 16, c = Nat.digitChar d := by
  induction n using Nat.strongRecOn with
  | ind n ih =>
    rw [Nat.toDigits_eq_if (by decide)] at h
    split at h
    · next hn => exact ⟨n, hn, List.mem_singleton.1 h⟩
    · rcases List.mem_append.1 h with h | h
      · exact ih (n / 16) (by omega) h
      · exact ⟨n % 16, Nat.mod_lt _ (by decide), List.mem_singleton.1 h⟩

theorem isNamePart_digitChar : ∀ d < 16, isNamePart (Nat.digitChar d) = true := by
  decide

theorem label_toList (offset : UInt32) :
    (Text.label offset).toList = 'I' :: 'L' :: '_' :: Text.hexDigits 4 offset.toNat :=
  String.toList_ofList

theorem isWord_label (offset : UInt32) : isWord (Text.label offset) = true := by
  have hdigits : ∀ c ∈ Text.hexDigits 4 offset.toNat, isNamePart c = true := by
    intro c hc
    rcases List.mem_append.1 hc with hc | hc
    · rw [List.eq_of_mem_replicate hc]
      rfl
    · obtain ⟨d, hd, rfl⟩ := mem_toDigits hc
      exact isNamePart_digitChar d hd
  have hstart : Rule.choose 'I' [] = some .name := rfl
  have hL : isNamePart 'L' = true := rfl
  have hline : isNamePart '_' = true := rfl
  simp only [isWord, label_toList, hstart, decide_true, Bool.true_and, List.all_cons, hL, hline]
  exact List.all_eq_true.2 hdigits

theorem scans_mark (offset : UInt32) {rest : List Char} {ts : List Token} (hs : Scans rest ts) :
    Scans ((Text.label offset).toList ++ ':' :: ' ' :: rest)
      (.ident (Text.label offset) :: .punct ':' :: ts) := by
  -- The blank behind the colon keeps it apart from a second one.
  have hrule : Rule.choose ':' (' ' :: rest) = some .punct := rfl
  have hcolon : Scans (':' :: ' ' :: rest) (.punct ':' :: ts) := Scans.token hrule rfl hs.blank
  exact scans_word (isWord_label offset) (Stops.cons rfl (' ' :: rest)) hcolon

/-! ## Rows of pieces -/

theorem choose_punct {c : Char} (h : isPunct c = true) (hcolon : c ≠ ':') (cs : List Char) :
    Rule.choose c cs = some .punct := by
  simp only [isPunct, List.mem_cons, List.not_mem_nil, or_false, decide_eq_true_eq] at h
  rcases h with rfl | rfl | rfl | rfl | rfl | rfl | rfl | rfl | rfl
  case inr.inr.inr.inr.inr.inr.inr.inl => exact absurd rfl hcolon
  all_goals rfl

theorem scans_punct {c : Char} (h : isPunct c = true) (hcolon : c ≠ ':') {rest : List Char}
    {ts : List Token} (hs : Scans rest ts) : Scans (c :: rest) (.punct c :: ts) :=
  Scans.token (choose_punct h hcolon rest) rfl hs

/-- A piece is scanned into its tokens when nothing behind it can continue it. -/
theorem scans_piece {p : Piece} (h : p.WellFormed) {rest : List Char} {ts : List Token}
    (hrest : p.opens = true ∨ Stops rest) (hs : Scans rest ts) :
    Scans (p.text ++ rest) (p.tokens ++ ts) := by
  cases p with
  | word text => exact scans_word h (hrest.resolve_left (by simp [Piece.opens])) hs
  | name text =>
    have := scans_name h hs
    simpa [Piece.text, Piece.tokens] using this
  | int value => exact scans_int value (hrest.resolve_left (by simp [Piece.opens])) hs
  | string text =>
    have := scans_string text hs
    simpa [Piece.text, Piece.tokens] using this
  | label offset =>
    exact scans_word (isWord_label offset) (hrest.resolve_left (by simp [Piece.opens])) hs
  | mark offset =>
    have := scans_mark offset hs
    simpa [Piece.text, Piece.tokens] using this
  | punct c => exact scans_punct h.1 h.2 hs
  | brackets => exact scans_punct rfl (by decide) (scans_punct rfl (by decide) hs)
  | doubleColon =>
    have hrule : Rule.choose ':' (':' :: rest) = some .doubleColon := rfl
    exact Scans.token hrule rfl hs

theorem scans_gap (p q : Piece) {rest : List Char} {ts : List Token} (hs : Scans rest ts) :
    Scans (p.gap q ++ rest) ts := by
  unfold Piece.gap
  split
  · exact hs.lineEnd
  · split
    · exact hs
    · exact hs.blank

theorem layout_cons (q : Piece) (qs : List Piece) :
    ∃ rest, layout (q :: qs) = q.text ++ rest := by
  cases qs with
  | nil => exact ⟨_, rfl⟩
  | cons r qs => exact ⟨_, rfl⟩

/-- What stands behind a piece does not continue it. -/
theorem gap_stops (p q : Piece) (qs : List Piece) :
    p.opens = true ∨ Stops (p.gap q ++ layout (q :: qs)) := by
  obtain ⟨rest, hrest⟩ := layout_cons q qs
  rw [hrest]
  unfold Piece.gap
  split
  · exact .inr (Stops.cons rfl _)
  · split
    · next hjoin =>
      rcases Bool.or_eq_true_iff.1 hjoin with hopen | hlean
      · exact .inl hopen
      · -- A piece that leans on the one before it starts with punctuation.
        right
        cases q with
        | punct c =>
          simp only [Piece.joins, List.mem_cons, List.not_mem_nil, or_false, Bool.or_eq_true,
            Bool.and_eq_true, decide_eq_true_eq] at hlean
          rcases hlean with (rfl | rfl | rfl) | ⟨rfl, _⟩ <;> exact Stops.cons rfl _
        | brackets | doubleColon => exact Stops.cons rfl _
        | word _ | name _ | int _ | string _ | label _ | mark _ => simp [Piece.joins] at hlean
    · exact .inr (Stops.cons rfl _)

theorem scans_layout {ps : List Piece} (h : ∀ p ∈ ps, p.WellFormed) :
    Scans (layout ps) (tokens ps ++ [.endOfInput]) := by
  induction ps with
  | nil => exact Scans.nil
  | cons p ps ih =>
    have hp := h p (.head _)
    have ih := ih fun q hq => h q (.tail _ hq)
    rw [tokens_cons, List.append_assoc]
    cases ps with
    | nil => exact scans_piece hp (.inr (Stops.cons rfl _)) Scans.nil.lineEnd
    | cons q qs => exact scans_piece hp (gap_stops p q qs) (scans_gap p q ih)

/-- Scanning the text of pieces gives their tokens and the end mark. -/
theorem scan_layout {ps : List Piece} (h : ∀ p ∈ ps, p.WellFormed) :
    ∃ located, scan (String.ofList (layout ps)) = .ok located ∧
      located.map (·.token) = tokens ps ++ [.endOfInput] := by
  unfold scan
  rw [String.toList_ofList]
  exact scans_layout h 1

end CilCompiler.Listing
