import Mathlib.Logic.Function.Basic
import CilCompiler.Lowering.Handle

/-!
# Escaped identifiers

An escaped text is made of pieces: a tilde stands for nothing by itself, but together with a digit
for a tilde or a dot, and every other character stands for itself. Reading goes from piece to piece,
so a text is read exactly if it can be cut into pieces, and there is only one way to cut it.

* `Piece` is a piece with the character that it stands for.
* `unescapeChars_eq_ok_iff` says what is read, and `escapeChars_eq_pieces` what is written.
* `eq_escape_iff` says that escaping is a bijection onto the texts without dots that can be read.
-/

namespace CilCompiler.Handle

/-! ## Pieces -/

/-- A piece of an escaped text. -/
inductive Piece
  | plain (c : Char) (notTilde : c ≠ '~')
  | escapedTilde
  | escapedDot

namespace Piece

def chars : Piece → List Char
  | plain c _ => [c]
  | escapedTilde => ['~', '0']
  | escapedDot => ['~', '1']

/-- The character that a piece stands for. -/
def meaning : Piece → Char
  | plain c _ => c
  | escapedTilde => '~'
  | escapedDot => '.'

/-- The piece that is written for a character. -/
def ofChar (c : Char) : Piece :=
  if h : c = '~' then escapedTilde else if c = '.' then escapedDot else plain c h

theorem ofChar_meaning {p : Piece} (h : '.' ∉ p.chars) : ofChar p.meaning = p := by
  cases p with
  | plain c notTilde =>
      have hdot : c ≠ '.' := fun hc => h (by simp [chars, hc])
      simp [meaning, ofChar, notTilde, hdot]
  | escapedTilde =>
      rfl
  | escapedDot =>
      rfl

theorem meaning_ofChar (c : Char) : (ofChar c).meaning = c := by
  by_cases htilde : c = '~'
  · simp [ofChar, htilde, meaning]
  · by_cases hdot : c = '.' <;> simp [ofChar, htilde, hdot, meaning]

theorem dot_not_mem_ofChar (c : Char) : '.' ∉ (ofChar c).chars := by
  by_cases htilde : c = '~'
  · simp [ofChar, htilde, chars]
  · by_cases hdot : c = '.'
    · simp [ofChar, hdot, chars]
    · simpa [ofChar, htilde, hdot, chars] using Ne.symm hdot

theorem chars_ofChar (c : Char) : (ofChar c).chars = escapeChar c := by
  unfold escapeChar
  split
  · rfl
  · rfl
  · next htilde hdot =>
      have hplain : ofChar c = plain c htilde := by
        rw [ofChar, dif_neg htilde, if_neg hdot]
      rw [hplain, chars]

end Piece

/-- The text that pieces make up. -/
def textOf (ps : List Piece) : List Char := ps.flatMap Piece.chars

/-! ## Reading and writing pieces -/

/-- The first piece is read, and then the others. -/
theorem unescapeChars_piece (p : Piece) (cs : List Char) :
    unescapeChars (p.chars ++ cs) = (p.meaning :: ·) <$> unescapeChars cs := by
  cases p with
  | plain c notTilde =>
      change unescapeChars (c :: cs) = (c :: ·) <$> unescapeChars cs
      rw [unescapeChars]
      all_goals intros; contradiction
  | escapedTilde =>
      rfl
  | escapedDot =>
      rfl

theorem unescapeChars_textOf (ps : List Piece) :
    unescapeChars (textOf ps) = .ok (ps.map Piece.meaning) := by
  induction ps with
  | nil =>
      rfl
  | cons p ps ih =>
      have htext : textOf (p :: ps) = p.chars ++ textOf ps := rfl
      rw [htext, unescapeChars_piece, ih]
      rfl

/-- A text that is not made of pieces is refused. -/
theorem pieces_or_fault (cs : List Char) :
    (∃ ps, cs = textOf ps) ∨ ∃ fault, unescapeChars cs = .error fault := by
  -- a piece in front changes neither
  have hpiece : ∀ (p : Piece) (rest : List Char),
      ((∃ ps, rest = textOf ps) ∨ ∃ fault, unescapeChars rest = .error fault) →
        (∃ ps, p.chars ++ rest = textOf ps) ∨
          ∃ fault, unescapeChars (p.chars ++ rest) = .error fault := by
    rintro p rest (⟨ps, rfl⟩ | ⟨fault, hfault⟩)
    · exact .inl ⟨p :: ps, rfl⟩
    · exact .inr ⟨fault, by rw [unescapeChars_piece, hfault]; rfl⟩
  induction cs using unescapeChars.induct with
  | case1 =>
      exact .inl ⟨[], rfl⟩
  | case2 =>
      exact .inr ⟨.incomplete, rfl⟩
  | case3 cs ih =>
      exact hpiece .escapedTilde cs ih
  | case4 cs ih =>
      exact hpiece .escapedDot cs ih
  | case5 c cs hzero hone =>
      exact .inr ⟨.invalid c, by rw [unescapeChars] <;> assumption⟩
  | case6 c cs hend hzero hone hother ih =>
      have htilde : c ≠ '~' := by
        rintro rfl
        cases cs with
        | nil =>
            exact hend rfl rfl
        | cons d ds =>
            exact hother d ds rfl rfl
      exact hpiece (.plain c htilde) cs ih

/-- What is read is what the pieces stand for. -/
theorem unescapeChars_eq_ok_iff {cs s : List Char} :
    unescapeChars cs = .ok s ↔ ∃ ps, cs = textOf ps ∧ s = ps.map Piece.meaning := by
  constructor
  · intro h
    rcases pieces_or_fault cs with ⟨ps, rfl⟩ | ⟨fault, hfault⟩
    · rw [unescapeChars_textOf] at h
      exact ⟨ps, rfl, (Except.ok.inj h).symm⟩
    · rw [hfault] at h
      cases h
  · rintro ⟨ps, rfl, rfl⟩
    exact unescapeChars_textOf ps

/-- A text is refused exactly if it is not made of pieces. -/
theorem unescapeChars_eq_error_iff {cs : List Char} :
    (∃ fault, unescapeChars cs = .error fault) ↔ ¬∃ ps, cs = textOf ps := by
  constructor
  · rintro ⟨fault, hfault⟩ ⟨ps, rfl⟩
    rw [unescapeChars_textOf] at hfault
    cases hfault
  · exact (pieces_or_fault cs).resolve_left

theorem escapeChars_eq_pieces (s : List Char) : escapeChars s = textOf (s.map Piece.ofChar) := by
  rw [escapeChars, textOf, List.flatMap_map]
  simp only [Piece.chars_ofChar]

theorem dot_not_mem_textOf {ps : List Piece} : '.' ∉ textOf ps ↔ ∀ p ∈ ps, '.' ∉ p.chars := by
  simp [textOf]

/-- Escaping gives the texts without dots that can be read, and reading them undoes it. -/
theorem eq_escapeChars_iff {cs s : List Char} :
    cs = escapeChars s ↔ '.' ∉ cs ∧ unescapeChars cs = .ok s := by
  rw [escapeChars_eq_pieces, unescapeChars_eq_ok_iff]
  constructor
  · rintro rfl
    refine ⟨dot_not_mem_textOf.2 ?_, s.map Piece.ofChar, rfl, ?_⟩
    · intro p hp
      rcases List.mem_map.1 hp with ⟨c, -, rfl⟩
      exact Piece.dot_not_mem_ofChar c
    · have hchar : ∀ c ∈ s, (Piece.ofChar c).meaning = c := fun c _ => Piece.meaning_ofChar c
      rw [List.map_map]
      exact ((List.map_congr_left hchar).trans (List.map_id s)).symm
  · rintro ⟨hdot, ps, rfl, rfl⟩
    -- without dots, every piece is the one that is written for its meaning
    have hpieces : (ps.map Piece.meaning).map Piece.ofChar = ps := by
      have hpiece : ∀ p ∈ ps, Piece.ofChar p.meaning = p := fun p hp =>
        Piece.ofChar_meaning (dot_not_mem_textOf.1 hdot p hp)
      rw [List.map_map]
      exact (List.map_congr_left hpiece).trans (List.map_id ps)
    rw [hpieces]

/-! ## Texts -/

theorem unescape_eq_ok_iff {e s : String} :
    unescape e = .ok s ↔ unescapeChars e.toList = .ok s.toList := by
  unfold unescape
  cases unescapeChars e.toList with
  | error fault =>
      simp [Functor.map, Except.map]
  | ok cs =>
      simp [Functor.map, Except.map, ← String.toList_inj]

theorem unescape_eq_error_iff {e : String} {fault : EscapeFault} :
    unescape e = .error fault ↔ unescapeChars e.toList = .error fault := by
  unfold unescape
  cases unescapeChars e.toList <;> simp [Functor.map, Except.map]

theorem eq_escape_iff {e s : String} :
    e = escape s ↔ '.' ∉ e.toList ∧ unescape e = .ok s := by
  rw [unescape_eq_ok_iff, ← eq_escapeChars_iff, ← String.toList_inj, escape, String.toList_ofList]

theorem escape_injective : Function.Injective escape := by
  intro s s' h
  have hread := (eq_escape_iff.1 (rfl : escape s = escape s)).2
  have hread' := (eq_escape_iff.1 h).2
  exact Except.ok.inj (hread.symm.trans hread')

theorem methodHandle_injective : Function.Injective methodHandle := by
  intro identifier identifier' h
  exact escape_injective (String.append_right_inj _ |>.1 h)

theorem methodHandle_ne_typeHandle (identifier home : String) (t : TypeName) :
    methodHandle identifier ≠ typeHandle home t := by
  intro h
  have hchars := congrArg (fun name : String => name.toList.head?) h
  simp [methodHandle, typeHandle] at hchars

/-- Escaping is a bijection between all identifiers and the texts without dots that can be read,
and reading is its inverse. A text is refused exactly if it is not made of characters other than
tildes and of the pairs `~0` and `~1`. So no two methods share a handle, and none has the handle of
a type. -/
theorem escape_bijection :
    (∀ e s, e = escape s ↔ '.' ∉ e.toList ∧ unescape e = .ok s) ∧
      (∀ e, (∃ fault, unescape e = .error fault) ↔ ¬∃ ps, e.toList = textOf ps) ∧
      Function.Injective methodHandle ∧
      ∀ identifier home t, methodHandle identifier ≠ typeHandle home t := by
  refine ⟨fun e s => eq_escape_iff, fun e => ?_, methodHandle_injective,
    methodHandle_ne_typeHandle⟩
  simp only [unescape_eq_error_iff, unescapeChars_eq_error_iff]

/-- Neighbouring escapes do not disturb each other. -/
example : escape "~0.~" = "~00~1~0" ∧ unescape "~00~1~0" = .ok "~0.~" ∧
    unescape "a~" = .error .incomplete ∧ unescape "~~0" = .error (.invalid '~') :=
  ⟨rfl, rfl, rfl, rfl⟩

end CilCompiler.Handle
