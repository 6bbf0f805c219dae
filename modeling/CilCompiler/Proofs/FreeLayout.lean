import Mathlib.Data.List.Forall2
import CilCompiler.Proofs.Hereditary

/-!
# Free layout

Tokens carry the lines on which they stand, but what a listing means does not depend on them: lines
are there for messages. The one exception is `calli`, whose operand is whatever is left of its line.

* `SameTokens` relates token lists that differ in nothing but their lines, and hold no `calli`.
* `Blind` says that a reader does the same on such lists, up to the line of its error. It is
  hereditary.
* `blind_instruction` is for the one reader that looks at a line on purpose.
* `parse_of_sameTokens` says of whole texts that their layout is free.
-/

namespace CilCompiler.Listing

variable {α β σ : Type}

/-! ## Outcomes on other lines -/

/-- The same tokens, perhaps on other lines. None of them is the word `calli`. -/
def SameTokens : List Located → List Located → Prop :=
  List.Forall₂ fun t u => u.token = t.token ∧ t.token ≠ .ident "calli"

theorem sameTokens_of_map_eq {ts us : List Located}
    (h : ts.map (·.token) = us.map (·.token)) (hcalli : .ident "calli" ∉ ts.map (·.token)) :
    SameTokens ts us := by
  induction ts generalizing us with
  | nil =>
      rw [List.map_nil, eq_comm, List.map_eq_nil_iff] at h
      rw [h]
      exact .nil
  | cons t ts ih =>
      cases us with
      | nil =>
          cases h
      | cons u us =>
          rw [List.map_cons, List.map_cons, List.cons.injEq] at h
          rw [List.map_cons, List.mem_cons, not_or] at hcalli
          exact .cons ⟨h.1.symm, Ne.symm hcalli.1⟩ (ih h.2 hcalli.2)

/-- The same result with the same tokens left, or errors for the same cause. -/
inductive SameOutcome :
    Except SyntaxError (α × List Located) → Except SyntaxError (α × List Located) → Prop
  | ok (x : α) {ts us : List Located} (h : SameTokens ts us) : SameOutcome (.ok (x, ts)) (.ok (x, us))
  | error (line line' : Nat) (cause : Cause) :
      SameOutcome (.error ⟨line, cause⟩) (.error ⟨line', cause⟩)

/-- Two readers do the same on the same tokens. They may know of different lines. -/
def Alike (r r' : Reader α) : Prop :=
  ∀ ts us, SameTokens ts us → SameOutcome (r ts) (r' us)

/-- The reader does the same on whatever lines the tokens stand. -/
def Blind (r : Reader α) : Prop := Alike r r

theorem SameTokens.current {ts us : List Located} (h : SameTokens ts us) :
    current us = current ts := by
  cases h with
  | nil =>
      rfl
  | cons ht _ =>
      exact ht.1

theorem SameTokens.advance {ts us : List Located} (h : SameTokens ts us) :
    SameTokens (advance ts) (advance us) := by
  cases h with
  | nil =>
      exact .nil
  | cons ht hts =>
      simp only [Listing.advance, ht.1]
      split
      · exact .cons ht hts
      · exact hts

/-! ## A calculus of blind readers -/

section Rules

variable {r r' : Reader α} {f f' : α → Reader β}

theorem Alike.bind (hr : Alike r r') (hf : ∀ x, Alike (f x) (f' x)) :
    Alike (r >>= f) (r' >>= f') := by
  intro ts us h
  have hsteps : (r >>= f) ts = r ts >>= fun p => f p.1 p.2 := rfl
  have hsteps' : (r' >>= f') us = r' us >>= fun p => f' p.1 p.2 := rfl
  rw [hsteps, hsteps']
  have hfirst := hr ts us h
  generalize r ts = outcome at hfirst
  generalize r' us = outcome' at hfirst
  cases hfirst with
  | ok x hrest =>
      exact hf x _ _ hrest
  | error line line' cause =>
      exact .error line line' cause

/-- A word that is read is not `calli`. -/
theorem Alike.expectName {f f' : String → Reader β}
    (hf : ∀ word, word ≠ "calli" → Alike (f word) (f' word)) :
    Alike (Listing.expectName >>= f) (Listing.expectName >>= f') := by
  intro ts us h
  cases h with
  | nil =>
      exact .error _ _ _
  | @cons t u ts us ht hts =>
      rcases t with ⟨token, line⟩
      rcases u with ⟨token', line'⟩
      cases ht.1
      cases token with
      | ident word =>
          -- the tokens hold no `calli`, so the word that is handed on is another one
          refine hf word ?_ ts us hts
          rintro rfl
          exact ht.2 rfl
      | _ =>
          exact .error _ _ _

namespace Blind

theorem pure (x : α) : Blind (pure x) := by
  intro ts us h
  exact .ok x h

theorem refuse (cause : Cause) : Blind (refuse cause : Reader α) := by
  intro ts us _
  exact .error _ _ cause

theorem throw (e : SyntaxError) : Blind (throw e : Reader α) := by
  intro ts us _
  exact .error _ _ e.cause

theorem bind (hr : Blind r) (hf : ∀ x, Blind (f x)) : Blind (r >>= f) :=
  Alike.bind hr hf

/-- A line may be looked at if what follows is alike for all lines. -/
theorem line {f : Nat → Reader β} (hf : ∀ n m, Alike (f n) (f m)) : Blind (Listing.line >>= f) := by
  intro ts us h
  exact hf _ _ ts us h

theorem peek : Blind peek := by
  intro ts us h
  unfold Listing.peek
  rw [h.current]
  exact .ok _ h

theorem take : Blind take := by
  intro ts us h
  unfold Listing.take
  rw [h.current]
  exact .ok _ h.advance

theorem ahead : Blind ahead := by
  intro ts us h
  unfold Listing.ahead
  rw [h.advance.current]
  exact .ok _ h

/-- The rounds of a loop leave equally many tokens, so the loops go on and end together. -/
theorem loop {step : σ → Reader (Round σ β)} (hstep : ∀ state, Blind (step state)) (state : σ) :
    Blind (loop step state) := by
  intro ts us h
  unfold Listing.loop
  generalize currentLine ts = line
  generalize currentLine us = line'
  induction hlength : ts.length using Nat.strongRecOn generalizing ts us state with
  | ind n ih =>
      rw [Parser.iterate_eq, Parser.iterate_eq]
      have hround := hstep state ts us h
      generalize step state ts = outcome at hround
      generalize step state us = outcome' at hround
      cases hround with
      | error l l' cause =>
          exact .error l l' cause
      | @ok round ts' us' hrest =>
          cases round with
          | done result =>
              exact .ok result hrest
          | more next =>
              -- both rounds have moved, or none has
              simp only [← List.Forall₂.length_eq hrest, ← List.Forall₂.length_eq h]
              split
              · next hshorter =>
                  exact ih ts'.length (hlength ▸ hshorter) next ts' us' hrest rfl
              · exact .error line line' .stalled

end Blind

end Rules

theorem hereditary_blind : Hereditary Blind where
  pure := .pure
  throw _ := .throw _
  refuse _ := .refuse _
  peek := .peek
  ahead := .ahead
  take := .take
  bind := .bind
  loop hstep _ state := .loop hstep state

/-! ## Instructions -/

/-- Only a raw operand depends on the line of its opcode. -/
theorem operand_of_line (scope : Scope) (line line' : Nat) {kind : OperandKind} (h : kind ≠ .raw) :
    operand scope line' kind = operand scope line kind := by
  cases kind with
  | raw =>
      exact absurd rfl h
  | _ =>
      rfl

theorem mnemonic_of_raw {op : Opcode} (h : op.operandKind = .raw) : op.mnemonic = "calli" := by
  cases op <;> cases h
  rfl

theorem operandKind_ne_raw {word : String} {op : Opcode} (h : Opcode.ofMnemonic? word = some op)
    (hword : word ≠ "calli") : op.operandKind ≠ .raw := by
  intro hraw
  have hmnemonic : op.mnemonic = word := by simpa using List.find?_some h
  exact hword (hmnemonic ▸ mnemonic_of_raw hraw)

theorem blind_instruction (scope : Scope) (offset : UInt32) : Blind (instruction scope offset) := by
  refine .line fun line line' => .expectName fun word hword => ?_
  cases hop : Opcode.ofMnemonic? word with
  | none =>
      -- this error is on the line of the opcode, which is no longer the current one
      intro ts us _
      exact .error line line' _
  | some op =>
      have hkind := operandKind_ne_raw hop hword
      have hoperand : Alike (operand scope line op.operandKind)
          (operand scope line' op.operandKind) := by
        rw [operand_of_line scope line line' hkind]
        exact hereditary_blind.operand scope line hkind
      exact hoperand.bind fun _ => Blind.pure _

/-- A text means what its tokens do. -/
theorem parse_of_scan {text : String} {ts : List Located} (h : scan text = .ok ts) :
    parse text = (assembly ts).map Prod.fst := by
  unfold parse
  rw [h]
  change (assembly ts >>= fun p => .ok p.1) = _
  cases assembly ts with
  | ok p =>
      rfl
  | error e =>
      rfl

/-- Two texts with the same tokens, none of which is `calli`, list the same assembly, or are refused
for the same cause. Only the line of the error may differ. -/
theorem parse_of_sameTokens {text text' : String} {ts us : List Located} (hts : scan text = .ok ts)
    (hus : scan text' = .ok us) (h : ts.map (·.token) = us.map (·.token))
    (hcalli : .ident "calli" ∉ ts.map (·.token)) :
    (∃ a, parse text = .ok a ∧ parse text' = .ok a) ∨
      ∃ line line' cause, parse text = .error ⟨line, cause⟩ ∧ parse text' = .error ⟨line', cause⟩ := by
  have hread := hereditary_blind.assembly blind_instruction ts us (sameTokens_of_map_eq h hcalli)
  rw [parse_of_scan hts, parse_of_scan hus]
  generalize assembly ts = outcome at hread
  generalize assembly us = outcome' at hread
  cases hread with
  | ok a hrest =>
      exact .inl ⟨a, rfl, rfl⟩
  | error line line' cause =>
      exact .inr ⟨line, line', cause, rfl, rfl⟩

namespace Layout

/-- A listing on one line. -/
def row : String :=
  ".assembly Lib .class A \x7b .method static void M() \x7b IL_0000: switch (IL_0000, IL_0001) " ++
    "IL_0001: ret \x7d \x7d"

/-- The same listing, with line ends inside its instructions. -/
def column : String :=
  ".assembly Lib // the library\n.class A\n\x7b .method static void M()\n\x7b IL_0000:\n" ++
    "switch (IL_0000,\nIL_0001) IL_0001:\nret \x7d\n\x7d"

def words : List Token :=
  [.ident ".assembly", .ident "Lib", .ident ".class", .ident "A", .punct '\x7b', .ident ".method",
    .ident "static", .ident "void", .ident "M", .punct '(', .punct ')', .punct '\x7b',
    .ident "IL_0000", .punct ':', .ident "switch", .punct '(', .ident "IL_0000", .punct ',',
    .ident "IL_0001", .punct ')', .ident "IL_0001", .punct ':', .ident "ret", .punct '\x7d',
    .punct '\x7d', .endOfInput]

def lines : List Nat :=
  [1, 1, 2, 2, 3, 3, 3, 3, 3, 3, 3, 4, 4, 4, 5, 5, 5, 5, 6, 6, 6, 6, 7, 7, 8, 8]

def library : Assembly :=
  { name := "Lib"
    types := [{
      name := ⟨none, "", "A"⟩
      methods := [{
        name := "M"
        result := .void
        params := []
        isStatic := true
        body := some { instructions := [⟨0, .switch, .targets [0, 1]⟩, ⟨1, .ret, .empty⟩] } }] }] }

theorem scan_row : scan row = .ok (words.map (⟨·, 1⟩)) := by
  decide +kernel

theorem scan_column : scan column = .ok (List.zipWith Located.mk words lines) := by
  decide +kernel

theorem parse_row : parse row = .ok library := by
  decide +kernel

/-- On its many lines the listing is the one that it is on a single line. -/
theorem column_lists_library :
    scan row = .ok (words.map (⟨·, 1⟩)) ∧ scan column = .ok (List.zipWith Located.mk words lines) ∧
      parse row = .ok library ∧ parse column = .ok library := by
  refine ⟨scan_row, scan_column, parse_row, ?_⟩
  rcases parse_of_sameTokens scan_row scan_column (by decide +kernel) (by decide +kernel) with
    ⟨a, hrow, hcolumn⟩ | ⟨line, line', cause, hrow, -⟩
  · rw [parse_row] at hrow
    cases hrow
    exact hcolumn
  · rw [parse_row] at hrow
    cases hrow

end Layout

end CilCompiler.Listing
