import CilCompiler.Proofs.Hereditary
import CilCompiler.Proofs.LineSeams
import CilCompiler.Proofs.OperandShapes

/-!
# Reading up to the end mark

The tokens of a text end with a mark, which reading does not move past. So a loop that took tokens
without looking for the mark would take the mark again and again. No loop of the grammar does: each of
its rounds takes a token or ends the loop, and reading stands within the tokens all the time.

* `marked_of_scan` says that the tokens of a text are marked.
* `rest_of_assembly` says that an assembly that was read has taken all tokens but the mark.
* `LoopsProgress` names all loops of the grammar.
* `assembly_stays_within` is the main result: reading ends, and never leaves the tokens.
-/

namespace CilCompiler.Listing

variable {σ β : Type}

/-! ## Tokens of a text -/

theorem integerToken_ne_endOfInput {text : List Char} {token : Token}
    (h : integerToken text = .ok token) : token ≠ .endOfInput := by
  rintro rfl
  simp only [integerToken] at h
  split at h
  · split at h <;> cases h
  · split at h <;> cases h

theorem hexToken_ne_endOfInput {digits : List Char} {token : Token}
    (h : hexToken digits = .ok token) : token ≠ .endOfInput := by
  rintro rfl
  unfold hexToken at h
  split at h
  · cases h
  · split at h <;> cases h

theorem floatToken_ne_endOfInput {text : List Char} {token : Token}
    (h : floatToken text = .ok token) : token ≠ .endOfInput := by
  rintro rfl
  simp only [floatToken] at h
  split at h
  · cases h
  · split at h <;> cases h

theorem numberToken_ne_endOfInput {c : Char} {cs rest : List Char} {token : Token}
    (h : numberToken c cs = .ok (token, rest)) : token ≠ .endOfInput := by
  rcases numberToken_eq_ok h with ⟨mark, digits, -, -, -, htoken, -⟩ | ⟨-, -, htoken⟩
  · exact hexToken_ne_endOfInput htoken
  · split at htoken
    · exact floatToken_ne_endOfInput htoken
    · exact integerToken_ne_endOfInput htoken

/-- No part of a text is read as the mark. -/
theorem token_ne_endOfInput {c : Char} {cs : List Char} {l : Lexeme} (h : lexeme c cs = .ok l) :
    l.token ≠ some .endOfInput := by
  rcases lexeme_eq_ok h with ⟨rule, -, happly⟩
  cases Rule.takes_of_apply happly with
  | number hnumber =>
      exact fun heq => numberToken_ne_endOfInput hnumber (Option.some.inj heq)
  | _ =>
      simp

theorem marked_of_scanFrom {line : Nat} {cs : List Char} {ts : List Located}
    (h : scanFrom line cs = .ok ts) : Marked ts := by
  induction line, cs using lexeme_induction generalizing ts with
  | nil line =>
      rw [scanFrom_nil] at h
      cases h
      exact ⟨[], ⟨.endOfInput, line⟩, rfl, rfl, by simp⟩
  | error line c cs cause hlexeme =>
      rw [scanFrom_error hlexeme] at h
      cases h
  | ok line c cs l hlexeme ih =>
      rw [scanFrom_ok hlexeme] at h
      cases hrest : scanFrom (line + l.lines) l.rest with
      | error e =>
          rw [hrest] at h
          cases h
      | ok us =>
          rw [hrest] at h
          cases h
          have hne := token_ne_endOfInput hlexeme
          unfold Lexeme.located
          cases htoken : l.token with
          | none =>
              exact ih hrest
          | some token =>
              rw [htoken] at hne
              exact marked_cons_iff.2 (.inr ⟨fun heq => hne (congrArg some heq), ih hrest⟩)

theorem marked_of_scan {text : String} {ts : List Located} (h : scan text = .ok ts) : Marked ts :=
  marked_of_scanFrom h

/-! ## The last round -/

/-- What a loop returns is what its last round returned. -/
theorem exists_last_round {step : σ → Reader (Round σ β)} (hstep : ∀ state, Safe (step state))
    {stalled : SyntaxError} {state : σ} {ts rest : List Located} {result : β} (hts : Marked ts)
    (h : Parser.iterate stalled step state ts = .ok (result, rest)) :
    ∃ last us, Within ts us ∧ step last us = .ok (.done result, rest) := by
  induction state, ts using round_induction step with
  | error state ts e hround =>
      rw [iterate_error hround] at h
      cases h
  | done state ts result' rest' hround =>
      rw [iterate_done hround] at h
      cases h
      exact ⟨state, ts, hts.within, hround⟩
  | stuck state ts next behind hround hstuck =>
      rw [iterate_stalled hround hstuck] at h
      cases h
  | more state ts next behind hround hmoved ih =>
      have hbehind := (hstep state ts hts).rest _ behind hround
      rw [iterate_more hround hmoved] at h
      rcases ih hbehind.marked h with ⟨last, us, hus, hlast⟩
      exact ⟨last, us, hbehind.trans hus, hlast⟩

/-- The round goes on, or fails. -/
def GoesOn : Round σ β → Prop := RoundOf (fun _ => True) fun _ => False

/-- A listing ends nowhere but at the mark. -/
theorem declaration_eq_done {a : PartialAssembly} {us rest : List Located} {result : Assembly}
    (h : declaration a us = .ok (.done result, rest)) : current us = .endOfInput ∧ rest = us := by
  unfold declaration at h
  rw [peek_bind] at h
  cases hcurrent : current us with
  | endOfInput =>
      rw [hcurrent] at h
      cases hname : a.name with
      | none =>
          simp only [hname] at h
          cases h
      | some name =>
          simp only [hname] at h
          cases h
          exact ⟨rfl, rfl⟩
  | ident word =>
      rw [hcurrent] at h
      -- a declaration has been read here, and another one may follow
      have hgoes : ∀ r : Reader (Round PartialAssembly Assembly), Ensures GoesOn r →
          r us ≠ .ok (.done result, rest) := fun r hr hrun => hr us _ rest hrun
      refine absurd h (hgoes _ ?_)
      dsimp only
      split
      · refine .after fun _ => .after fun isExtern => ?_
        split
        · exact .after fun _ => .after fun _ => .pure trivial
        · exact .after fun _ => .after fun _ => .pure trivial
      split
      · exact .after fun _ => .after fun _ => .pure trivial
      split
      · exact .after fun _ => .after fun _ => .pure trivial
      · exact .refuse
  | _ =>
      rw [hcurrent] at h
      cases h

/-- When an assembly has been read, nothing but the mark is left. -/
theorem rest_of_assembly {ts rest : List Located} {a : Assembly} (hts : Marked ts)
    (h : assembly ts = .ok (a, rest)) : ∃ mark, rest = [mark] := by
  have hsafe := hereditary_safe.declaration safe_instruction
  rcases exists_last_round hsafe hts h with ⟨last, us, hus, hlast⟩
  rcases declaration_eq_done hlast with ⟨hcurrent, rfl⟩
  exact hus.marked.eq_singleton hcurrent

/-! ## All loops -/

/-- The rounds of every loop of the grammar take a token or end the loop. The equations are for what
is not written as a loop of these rounds. -/
structure LoopsProgress : Prop where
  declarations : Progresses declaration
  members : Progresses member
  bodyItems : ∀ args, Progresses (bodyItem args)
  lists : ∀ {α : Type} (item : Reader α), commaSeparated item = loop (commaRound item) []
  params : Progresses (commaRound param)
  localVariables : Progresses (commaRound localVariable)
  targets : Progresses (commaRound label)
  types : Progresses (commaRound typeSig)
  words : ∀ words, attributes words = loop (wordRound words) [] ∧ Progresses (wordRound words)
  blocks : skipBlock = (do if ← acceptPunct '\x7b' then loop blockRound 0) ∧ Progresses blockRound
  arrays : (∀ sig, modifyGet (arraySuffix sig) = loop arrayRound sig) ∧ Progresses arrayRound
  rawOperands : ∀ n,
    restOfLine n = (do return " ".intercalate ((← loop (lineRound n) []).map Token.describe)) ∧
      Progresses (lineRound n)

theorem loopsProgress : LoopsProgress where
  declarations := progresses_declaration
  members := progresses_member
  bodyItems := progresses_bodyItem
  lists _ := rfl
  params := progresses_commaRound hereditary_safe.param
  localVariables := progresses_commaRound hereditary_safe.localVariable
  targets := progresses_commaRound hereditary_safe.label
  types := progresses_commaRound hereditary_safe.typeSig
  words words := ⟨attributes_eq_loop words, progresses_wordRound words⟩
  blocks := ⟨skipBlock_eq_loop, progresses_blockRound⟩
  arrays := ⟨arraySuffix_eq_loop, progresses_arrayRound⟩
  rawOperands n := ⟨restOfLine_eq_loop n, progresses_lineRound n⟩

/-- Every text is refused or gives marked tokens. Reading marked tokens comes to an end without ever
leaving them, and an assembly is read only when all tokens before the mark have been taken. -/
theorem assembly_stays_within :
    (∀ text, (∃ e, scan text = .error e) ∨ ∃ ts, scan text = .ok ts ∧ Marked ts) ∧
      LoopsProgress ∧
      ∀ ts, Marked ts →
        (∃ positions, Run assembly ts positions ∧ ∀ us ∈ positions, us ≠ [] ∧ us <:+ ts) ∧
          ((∃ front mark a, ts = front ++ [mark] ∧ assembly ts = .ok (a, [mark])) ∨
            ∃ e, assembly ts = .error e ∧ e.cause ≠ .stalled) := by
  refine ⟨fun text => ?_, loopsProgress, fun ts hts => ?_⟩
  · cases hscan : scan text with
    | error e =>
        exact .inl ⟨e, rfl⟩
    | ok ts =>
        exact .inr ⟨ts, rfl, marked_of_scan hscan⟩
  · have hsafe := hereditary_safe.assembly safe_instruction ts hts
    rcases hsafe.run with ⟨positions, hrun, hwithin⟩
    refine ⟨⟨positions, hrun, fun us hus => ?_⟩, ?_⟩
    · exact ⟨(hwithin us hus).marked.ne_nil, (hwithin us hus).suffix⟩
    · cases hend : assembly ts with
      | error e =>
          exact .inr ⟨e, rfl, hsafe.cause e hend⟩
      | ok p =>
          rcases p with ⟨a, rest⟩
          rcases rest_of_assembly hts hend with ⟨mark, rfl⟩
          rcases (hsafe.rest a [mark] hend).suffix with ⟨front, hfront⟩
          exact .inl ⟨front, mark, a, hfront.symm, rfl⟩

namespace CutOff

/-- A class that is cut off behind its opening brace. -/
def tokens : List Located :=
  [⟨.ident ".assembly", 1⟩, ⟨.ident "Lib", 1⟩, ⟨.ident ".class", 2⟩, ⟨.ident "A", 2⟩,
    ⟨.punct '\x7b', 2⟩, ⟨.endOfInput, 3⟩]

theorem marked_tokens : Marked tokens :=
  ⟨tokens.dropLast, ⟨.endOfInput, 3⟩, rfl, rfl, by decide⟩

/-- Reading looks for a member at the mark, finds none, and ends there. -/
theorem ends_at_mark :
    scan ".assembly Lib\n.class A \x7b\n" = .ok tokens ∧ Marked tokens ∧
      (∃ positions, Run assembly tokens positions ∧ ∀ us ∈ positions, us ≠ [] ∧ us <:+ tokens) ∧
      assembly tokens = .error ⟨3, .expected (.member ⟨none, "", "A"⟩) .endOfInput⟩ := by
  have hread := assembly_stays_within.2.2 tokens marked_tokens
  refine ⟨by decide +kernel, marked_tokens, hread.1, ?_⟩
  decide +kernel

end CutOff

end CilCompiler.Listing
