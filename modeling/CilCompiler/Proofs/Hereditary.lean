import CilCompiler.Listing.Declaration
import CilCompiler.Proofs.Positions
import CilCompiler.Proofs.Reading

/-!
# Hereditary properties of readers

Every reader of the grammar is put together from looks at single tokens, by doing one thing after the
other and by loops. A property is hereditary if looks at tokens have it and it passes through these
constructions; then all readers of the grammar have it, but for those that look at lines.

* `wordRound`, `blockRound`, `arrayRound` and `lineRound` are single rounds of what is defined by
  recursion on the tokens; `attributes_eq_loop` and its siblings say that these are loops.
* `Hereditary` collects the rules. Its lemmas go through the grammar up to `Hereditary.assembly`.
* `Progresses` is shown for the rounds of every loop on the way, since loops ask for it.
-/

namespace CilCompiler.Listing

variable {α β σ : Type} {P : ∀ {α : Type}, Reader α → Prop}

/-! ## Recursion on the tokens as a loop -/

section Looks

variable (f : Token → Reader β) (ts : List Located)

theorem pure_apply (x : α) : (pure x : Reader α) ts = .ok (x, ts) := rfl

theorem peek_bind : (peek >>= f) ts = f (current ts) ts := rfl

theorem ahead_bind : (ahead >>= f) ts = f (current (advance ts)) ts := rfl

theorem line_bind (f : Nat → Reader β) : (line >>= f) ts = f (currentLine ts) ts := rfl

theorem take_bind : (take >>= f) ts = f (current ts) (advance ts) := rfl

end Looks

/-- Takes one of the words, or ends. -/
def wordRound (words seen : List String) : Reader (Round (List String) (List String)) := do
  match ← peek with
  | .ident word =>
    if word ∈ words then
      let _ ← take
      return .more (word :: seen)
    else return .done seen.reverse
  | _ => return .done seen.reverse

theorem iterate_wordRound (stalled : SyntaxError) (words seen : List String) (ts : List Located) :
    Parser.iterate stalled (wordRound words) seen ts =
      .ok (seen.reverse ++ (takeWords words ts).1, (takeWords words ts).2) := by
  -- a round that takes nothing ends the loop with the words that it has seen
  have hend : ∀ seen ts, wordRound words seen ts = .ok (.done seen.reverse, ts) →
      takeWords words ts = ([], ts) → Parser.iterate stalled (wordRound words) seen ts =
        .ok (seen.reverse ++ (takeWords words ts).1, (takeWords words ts).2) := by
    intro seen ts hround htaken
    rw [iterate_done hround, htaken, List.append_nil]
  induction ts generalizing seen with
  | nil =>
      exact hend seen [] rfl rfl
  | cons t ts ih =>
      rcases t with ⟨token, line⟩
      cases token with
      | ident word =>
          by_cases hword : word ∈ words
          · have hround : wordRound words seen (⟨.ident word, line⟩ :: ts) =
                .ok (.more (word :: seen), ts) := by
              simp only [wordRound, peek_bind, current, if_pos hword, take_bind, pure_apply]
              rfl
            rw [iterate_more hround (Nat.lt_succ_self _), ih]
            simp [takeWords, hword]
          · refine hend seen _ ?_ (by simp [takeWords, hword])
            simp only [wordRound, peek_bind, current, if_neg hword, pure_apply]
      | _ =>
          exact hend seen _ rfl rfl

theorem attributes_eq_loop (words : List String) : attributes words = loop (wordRound words) [] := by
  funext ts
  unfold loop
  rw [iterate_wordRound]
  rfl

/-- Takes one token of a block with `depth` more blocks open inside it, or the end of the block. -/
def blockRound (depth : Nat) : Reader (Round Nat Unit) := do
  match ← take with
  | .endOfInput => refuse (.unterminated .block)
  | .punct '\x7b' => return .more (depth + 1)
  | .punct '\x7d' =>
    match depth with
    | 0 => return .done ()
    | depth + 1 => return .more depth
  | _ => return .more depth

theorem iterate_blockRound (stalled : SyntaxError) (depth : Nat) (ts : List Located) :
    Parser.iterate stalled blockRound depth ts = (behindBlock depth ts).map ((), ·) := by
  induction ts generalizing depth with
  | nil =>
      exact iterate_error rfl
  | cons t ts ih =>
      have hmore : ∀ next, blockRound depth (t :: ts) = .ok (.more next, ts) →
          Parser.iterate stalled blockRound depth (t :: ts) =
            (behindBlock next ts).map ((), ·) := by
        intro next hround
        rw [iterate_more hround (Nat.lt_succ_self _), ih]
      rcases t with ⟨token, line⟩
      unfold behindBlock
      dsimp only
      split
      · exact iterate_error rfl
      · exact hmore (depth + 1) rfl
      · cases depth with
        | zero =>
            exact iterate_done rfl
        | succ depth =>
            exact hmore depth rfl
      · next hmark hopen hclose =>
          refine hmore depth ?_
          simp only [blockRound, take_bind, current]
          rw [advance_eq_tail hmark]
          rfl

theorem skipBlock_eq_loop :
    skipBlock = (do if ← acceptPunct '\x7b' then loop blockRound 0) := by
  unfold skipBlock
  congr 1
  funext opened ts
  split
  · unfold loop
    rw [iterate_blockRound]
    -- what is left becomes the new state, whatever was left before
    change ((behindBlock 0 ts >>= fun rest => .ok (rest, ts)) >>= fun p => .ok ((), p.1)) = _
    cases behindBlock 0 ts with
    | ok rest =>
        rfl
    | error e =>
        rfl
  · rfl

/-- Takes a pair of brackets, or ends. -/
def arrayRound (sig : TypeSig) : Reader (Round TypeSig TypeSig) := do
  if (← peek) = .punct '[' then
    if (← ahead) = .punct ']' then
      let _ ← take
      let _ ← take
      return .more (.array sig)
    else return .done sig
  else return .done sig

theorem iterate_arrayRound (stalled : SyntaxError) (sig : TypeSig) (ts : List Located) :
    Parser.iterate stalled arrayRound sig ts = .ok (arraySuffix sig ts) := by
  fun_induction arraySuffix sig ts with
  | case1 sig t u rest hpair ih =>
      have ht : t.token ≠ .endOfInput := by simp [hpair.1]
      have hu : u.token ≠ .endOfInput := by simp [hpair.2]
      have hround : arrayRound sig (t :: u :: rest) = .ok (.more (.array sig), rest) := by
        simp only [arrayRound, peek_bind, ahead_bind, take_bind, current, hpair.1, hpair.2,
          advance_eq_tail ht, advance_eq_tail hu, ↓reduceIte, pure_apply]
      rw [iterate_more hround (Nat.lt_add_of_pos_right Nat.two_pos), ih]
  | case2 sig t u rest hpair =>
      refine iterate_done ?_
      by_cases ht : t.token = .punct '['
      · have hne : t.token ≠ .endOfInput := by simp [ht]
        have hu : u.token ≠ .punct ']' := fun hu => hpair ⟨ht, hu⟩
        simp only [arrayRound, peek_bind, ahead_bind, current, ht, advance_eq_tail hne, hu,
          ↓reduceIte, pure_apply]
      · simp only [arrayRound, peek_bind, current, ht, ↓reduceIte, pure_apply]
  | case3 sig ts hshort =>
      refine iterate_done ?_
      cases ts with
      | nil =>
          rfl
      | cons t ts =>
          cases ts with
          | cons u rest =>
              exact absurd rfl (hshort t u rest)
          | nil =>
              by_cases ht : t.token = .punct '['
              · have hne : t.token ≠ .endOfInput := by simp [ht]
                simp [arrayRound, peek_bind, ahead_bind, current, ht, advance_eq_tail hne,
                  pure_apply]
              · simp only [arrayRound, peek_bind, current, ht, ↓reduceIte, pure_apply]

theorem arraySuffix_eq_loop (sig : TypeSig) :
    (modifyGet (arraySuffix sig) : Reader TypeSig) = loop arrayRound sig := by
  funext ts
  unfold loop
  rw [iterate_arrayRound]
  rfl

/-- Takes a token of the line, or ends. -/
def lineRound (n : Nat) (seen : List Token) : Reader (Round (List Token) (List Token)) := do
  if (← line) = n ∧ (← peek) ≠ .endOfInput then
    let token ← take
    return .more (token :: seen)
  else return .done seen.reverse

theorem iterate_lineRound (stalled : SyntaxError) (n : Nat) (seen : List Token)
    (ts : List Located) :
    Parser.iterate stalled (lineRound n) seen ts =
      .ok (seen.reverse ++ (takeLine n ts).1, (takeLine n ts).2) := by
  induction ts generalizing seen with
  | nil =>
      have hround : lineRound n seen [] = .ok (.done seen.reverse, []) := by
        simp [lineRound, line_bind, peek_bind, current, pure_apply]
      rw [iterate_done hround, takeLine, List.append_nil]
  | cons t ts ih =>
      by_cases ht : t.line = n ∧ t.token ≠ .endOfInput
      · have hround : lineRound n seen (t :: ts) = .ok (.more (t.token :: seen), ts) := by
          simp only [lineRound, line_bind, peek_bind, currentLine, current, ht, take_bind,
            advance_eq_tail ht.2, ne_eq, not_false_eq_true, and_self, ↓reduceIte, pure_apply]
        rw [iterate_more hround (Nat.lt_succ_self _), ih]
        simp [takeLine, ht]
      · have hround : lineRound n seen (t :: ts) = .ok (.done seen.reverse, t :: ts) := by
          simp only [lineRound, line_bind, peek_bind, currentLine, current, ht, ↓reduceIte,
            pure_apply]
        rw [iterate_done hround]
        simp only [takeLine, if_neg ht, List.append_nil]

theorem restOfLine_eq_loop (n : Nat) : restOfLine n =
    (do return " ".intercalate ((← loop (lineRound n) []).map Token.describe)) := by
  funext ts
  have hloop : loop (lineRound n) [] ts = .ok (takeLine n ts) := by
    unfold loop
    rw [iterate_lineRound]
    rfl
  rw [run_bind hloop]
  rfl

/-! ## Progress -/

section Progress

variable {r : Reader α} {f : α → Reader β} {ts : List Located}

theorem bind_eq_ok {y : β} {rest : List Located} (h : (r >>= f) ts = .ok (y, rest)) :
    ∃ x behind, r ts = .ok (x, behind) ∧ f x behind = .ok (y, rest) := by
  have hsteps : (r >>= f) ts = r ts >>= fun p => f p.1 p.2 := rfl
  rw [hsteps] at h
  cases hfirst : r ts with
  | error e =>
      rw [hfirst] at h
      cases h
  | ok p =>
      rw [hfirst] at h
      exact ⟨p.1, p.2, rfl, h⟩

/-- What the reader takes from `ts` is at least one token. -/
def ConsumesAt (r : Reader α) (ts : List Located) : Prop :=
  ∀ x rest, r ts = .ok (x, rest) → rest.length < ts.length

theorem ConsumesAt.take (h : current ts ≠ .endOfInput) : ConsumesAt take ts := by
  intro x rest hrun
  cases hrun
  exact length_advance h

/-- What follows does not give anything back. -/
theorem ConsumesAt.bind (h : ConsumesAt r ts) (hr : SafeAt r ts) (hf : ∀ x, Safe (f x)) :
    ConsumesAt (r >>= f) ts := by
  intro y rest hrun
  rcases bind_eq_ok hrun with ⟨x, behind, hfirst, hsecond⟩
  have hbehind := (hr.rest x behind hfirst).marked
  calc rest.length
      ≤ behind.length := ((hf x behind hbehind).rest y rest hsecond).suffix.length_le
    _ < ts.length := h x behind hfirst

theorem ConsumesAt.expectName (ts : List Located) : ConsumesAt expectName ts := by
  intro word rest hrun
  unfold Listing.expectName at hrun
  rw [peek_bind] at hrun
  cases hcurrent : current ts with
  | ident text =>
      rw [hcurrent] at hrun
      cases hrun
      exact length_advance (by simp [hcurrent])
  | _ =>
      rw [hcurrent] at hrun
      cases hrun

variable {round : Reader (Round σ β)}

theorem ConsumesAt.movesOn (h : ConsumesAt round ts) : MovesOn round ts :=
  fun next rest hrun => h (.more next) rest hrun

theorem MovesOn.peek {f : Token → Reader (Round σ β)}
    (h : ∀ token, current ts = token → MovesOn (f token) ts) : MovesOn (Listing.peek >>= f) ts :=
  h (current ts) rfl

/-- A token that is not the mark is taken first. -/
theorem MovesOn.take {f : Token → Reader (Round σ β)} (hts : Marked ts)
    (h : current ts ≠ .endOfInput) (hf : ∀ token, Safe (f token)) :
    MovesOn (Listing.take >>= f) ts :=
  (ConsumesAt.bind (.take h) (Safe.take ts hts) hf).movesOn

theorem MovesOn.done (result : β) (ts : List Located) :
    MovesOn (pure (.done result) : Reader (Round σ β)) ts := by
  intro next rest hrun
  cases hrun

theorem MovesOn.refuse (cause : Cause) (ts : List Located) :
    MovesOn (refuse cause : Reader (Round σ β)) ts := by
  intro next rest hrun
  cases hrun

end Progress

/-! ## The rules -/

/-- The property `P` holds of looks at tokens, and passes from readers to what is put together from
them. Loops are asked to progress. -/
structure Hereditary (P : ∀ {α : Type}, Reader α → Prop) : Prop where
  pure : ∀ {α : Type} (x : α), P (pure x)
  throw : ∀ {α : Type} {e : SyntaxError}, e.cause ≠ .stalled → P (throw e : Reader α)
  refuse : ∀ {α : Type} {cause : Cause}, cause ≠ .stalled → P (refuse cause : Reader α)
  peek : P peek
  ahead : P ahead
  take : P take
  bind : ∀ {α β : Type} {r : Reader α} {f : α → Reader β}, P r → (∀ x, P (f x)) → P (r >>= f)
  loop : ∀ {σ β : Type} {step : σ → Reader (Round σ β)}, (∀ state, P (step state)) →
    Progresses step → ∀ state, P (loop step state)

theorem hereditary_safe : Hereditary Safe where
  pure := .pure
  throw := .throw
  refuse := .refuse
  peek := .peek
  ahead := .ahead
  take := .take
  bind := .bind
  loop := .loop

namespace Hereditary

/-! ## Words and lists -/

theorem accept (h : Hereditary P) (token : Token) : P (accept token) := by
  -- a token is accepted by looking at it and then taking it
  have hsteps : Listing.accept token = (do
      if (← Listing.peek) = token then
        let _ ← Listing.take
        return true
      else return false) := by
    funext ts
    rw [peek_bind]
    unfold Listing.accept
    split <;> rfl
  rw [hsteps]
  refine h.bind h.peek fun found => ?_
  split
  · exact h.bind h.take fun _ => h.pure true
  · exact h.pure false

theorem expect (h : Hereditary P) (what : Expected) (token : Token) : P (expect what token) := by
  refine h.bind (h.accept token) fun accepted => ?_
  split
  · exact h.pure ()
  · exact h.bind h.peek fun found => h.refuse nofun

theorem expectPunct (h : Hereditary P) (c : Char) : P (expectPunct c) :=
  h.expect _ _

theorem expectWord (h : Hereditary P) (word : String) : P (expectWord word) :=
  h.expect _ _

theorem expectName (h : Hereditary P) : P expectName := by
  refine h.bind h.peek fun token => ?_
  split
  · exact h.bind h.take fun _ => h.pure _
  · exact h.refuse nofun

theorem expectInt (h : Hereditary P) : P expectInt := by
  refine h.bind h.peek fun token => ?_
  split
  · exact h.bind h.take fun _ => h.pure _
  · exact h.refuse nofun

theorem label (h : Hereditary P) : P label := by
  refine h.bind h.expectName fun word => ?_
  split
  · exact h.pure _
  · exact h.refuse nofun

end Hereditary

/-- A comma that makes a list go on has been taken. -/
theorem progresses_commaRound {item : Reader α} (hitem : Safe item) :
    Progresses (commaRound item) := by
  intro seen ts hts next rest hrun
  rcases bind_eq_ok hrun with ⟨x, behind, hfirst, hsecond⟩
  have hbehind := hitem ts hts |>.rest x behind hfirst
  rcases bind_eq_ok hsecond with ⟨more, rest', haccept, hend⟩
  unfold acceptPunct accept at haccept
  split at haccept
  · next hcurrent =>
      cases haccept
      cases hend
      calc (advance behind).length
          < behind.length := length_advance (by simp [hcurrent])
        _ ≤ ts.length := hbehind.suffix.length_le
  · cases haccept
    cases hend

theorem progresses_wordRound (words : List String) : Progresses (wordRound words) := by
  intro seen ts hts
  refine .peek fun token hcurrent => ?_
  split
  · split
    · exact .take hts (by simp [hcurrent]) fun _ => .pure _
    · exact .done _ ts
  · exact .done _ ts

/-- At the mark a block is not closed, and the loop ends with an error. -/
theorem progresses_blockRound : Progresses blockRound := by
  intro depth ts hts next rest hrun
  by_cases hcurrent : current ts = .endOfInput
  -- taking the mark does not move, but it is what the round refuses
  · simp only [blockRound, take_bind, hcurrent] at hrun
    cases hrun
  · refine MovesOn.take hts hcurrent (fun token => ?_) next rest hrun
    split
    · exact .refuse nofun
    · exact .pure _
    · split
      · exact .pure _
      · exact .pure _
    · exact .pure _

theorem progresses_arrayRound : Progresses arrayRound := by
  intro sig ts hts
  refine .peek fun token hcurrent => ?_
  split
  · next hopen =>
      have hne : current ts ≠ .endOfInput := by simp [hcurrent, hopen]
      change MovesOn (if current (advance ts) = .punct ']' then _ else _) ts
      split
      · exact .take hts hne fun _ => .bind .take fun _ => .pure _
      · exact .done _ ts
  · exact .done _ ts

theorem progresses_lineRound (n : Nat) : Progresses (lineRound n) := by
  intro seen ts hts
  change MovesOn (if currentLine ts = n ∧ current ts ≠ .endOfInput then _ else _) ts
  split
  · next hline =>
      exact .take hts hline.2 fun _ => .pure _
  · exact .done _ ts

namespace Hereditary

theorem inParens (h : Hereditary P) {item : Reader α} (hitem : P item) (hsafe : Safe item) :
    P (inParens item) := by
  have hclose : ∀ items : List α, P (do Listing.expectPunct ')'; return items) := fun items =>
    h.bind (h.expectPunct _) fun _ => h.pure items
  have hround : ∀ seen, P (commaRound item seen) := by
    intro seen
    refine h.bind hitem fun x => h.bind (h.accept _) fun more => ?_
    split
    · exact h.pure _
    · exact h.pure _
  refine h.bind (h.expectPunct _) fun _ => h.bind h.peek fun token => ?_
  split
  · exact hclose []
  · exact h.bind (h.loop hround (progresses_commaRound hsafe) []) hclose

theorem attributes (h : Hereditary P) (words : List String) : P (attributes words) := by
  rw [attributes_eq_loop]
  refine h.loop (fun seen => h.bind h.peek fun token => ?_) (progresses_wordRound words) []
  split
  · split
    · exact h.bind h.take fun _ => h.pure _
    · exact h.pure _
  · exact h.pure _

theorem skipBlock (h : Hereditary P) : P skipBlock := by
  rw [skipBlock_eq_loop]
  refine h.bind (h.accept _) fun opened => ?_
  split
  · refine h.loop (fun depth => h.bind h.take fun token => ?_) progresses_blockRound 0
    split
    · exact h.refuse nofun
    · exact h.pure _
    · split
      · exact h.pure _
      · exact h.pure _
    · exact h.pure _
  · exact h.pure ()

/-! ## Types and references -/

theorem typeName (h : Hereditary P) : P typeName := by
  refine h.bind (h.accept _) fun opened => ?_
  split
  · exact h.bind h.expectName fun scope => h.bind (h.expectPunct _) fun _ =>
      h.bind h.expectName fun name => h.pure _
  · exact h.bind h.expectName fun name => h.pure _

theorem arraySuffix (h : Hereditary P) (sig : TypeSig) : P (modifyGet (arraySuffix sig)) := by
  rw [arraySuffix_eq_loop]
  refine h.loop (fun sig => h.bind h.peek fun token => ?_) progresses_arrayRound sig
  split
  · refine h.bind h.ahead fun token => ?_
    split
    · exact h.bind h.take fun _ => h.bind h.take fun _ => h.pure _
    · exact h.pure _
  · exact h.pure _

theorem typeAfter (h : Hereditary P) (word : String) : P (typeAfter word) := by
  unfold Listing.typeAfter
  split
  · exact h.pure _
  split
  · refine h.bind h.expectName fun base => ?_
    split
    · exact h.pure _
    · exact h.refuse nofun
  split
  · exact h.bind (h.accept _) fun unsigned => h.bind (h.expectWord _) fun _ => h.pure _
  split
  · exact h.bind h.typeName fun name => h.pure _
  split
  · exact h.bind h.typeName fun name => h.pure _
  · exact h.pure _

theorem typeSig (h : Hereditary P) : P typeSig := by
  refine h.bind h.peek fun token => ?_
  split
  · exact h.bind h.take fun _ => h.bind (h.typeAfter _) h.arraySuffix
  · exact h.bind h.typeName fun name => h.arraySuffix _
  · exact h.bind (h.refuse nofun) h.arraySuffix

theorem doubleColon (h : Hereditary P) (refs : RefClass) : P (doubleColon refs) := by
  refine h.bind h.take fun token => ?_
  split
  · exact h.refuse nofun
  · exact h.pure ()

theorem methodRef (h : Hereditary P) : P methodRef :=
  h.bind (h.accept _) fun _ => h.bind h.typeSig fun _ => h.bind h.typeName fun _ =>
    h.bind (h.doubleColon _) fun _ => h.bind h.expectName fun _ =>
      h.bind (h.inParens h.typeSig hereditary_safe.typeSig) fun _ => h.pure _

theorem fieldRef (h : Hereditary P) : P fieldRef :=
  h.bind h.typeSig fun _ => h.bind h.typeName fun _ => h.bind (h.doubleColon _) fun _ =>
    h.bind h.expectName fun _ => h.pure _

/-! ## Bodies -/

theorem int32 (h : Hereditary P) : P int32 := by
  refine h.bind h.expectInt fun value => ?_
  split
  · exact h.pure _
  · exact h.refuse nofun

theorem number (h : Hereditary P) : P number := by
  refine h.bind h.take fun token => ?_
  split
  · exact h.pure _
  · exact h.pure _
  · exact h.refuse nofun

theorem string (h : Hereditary P) : P string := by
  refine h.bind h.take fun token => ?_
  split
  · exact h.pure _
  · exact h.refuse nofun

theorem slotIndex (h : Hereditary P) (slots : SlotClass) (names : List (Option String)) :
    P (slotIndex slots names) := by
  refine h.bind h.take fun token => ?_
  split
  · split
    · exact h.pure _
    · exact h.refuse nofun
  · split
    · exact h.pure _
    · exact h.refuse nofun
  · exact h.refuse nofun

/-- A raw operand is what is left of a line, and to tell its end takes more than the rules give. -/
theorem operand (h : Hereditary P) (scope : Scope) (line : Nat) {kind : OperandKind}
    (hkind : kind ≠ .raw) : P (operand scope line kind) := by
  cases kind with
  | empty =>
      exact h.pure _
  | int32 =>
      exact h.bind h.int32 fun _ => h.pure _
  | int64 =>
      exact h.bind h.expectInt fun _ => h.pure _
  | float =>
      exact h.bind h.number fun _ => h.pure _
  | string =>
      exact h.bind h.string fun _ => h.pure _
  | arg | loc =>
      exact h.bind (h.slotIndex _ _) fun _ => h.pure _
  | target =>
      exact h.bind h.label fun _ => h.pure _
  | targets =>
      exact h.bind (h.inParens h.label hereditary_safe.label) fun _ => h.pure _
  | method =>
      exact h.bind h.methodRef fun _ => h.pure _
  | field =>
      exact h.bind h.fieldRef fun _ => h.pure _
  | type =>
      exact h.bind h.typeSig fun _ => h.pure _
  | raw =>
      exact absurd rfl hkind

theorem optionalName (h : Hereditary P) : P optionalName := by
  refine h.bind h.peek fun token => ?_
  split
  · exact h.bind h.expectName fun _ => h.pure _
  · exact h.pure _

theorem localVariable (h : Hereditary P) : P localVariable := by
  have htype : P (do let type ← Listing.typeSig; return (type, ← Listing.optionalName)) :=
    h.bind h.typeSig fun _ => h.bind h.optionalName fun _ => h.pure _
  refine h.bind (h.accept _) fun opened => ?_
  split
  · exact h.bind h.expectInt fun _ => h.bind (h.expectPunct _) fun _ => htype
  · exact htype

theorem exceptionRegion (h : Hereditary P) : P exceptionRegion := by
  refine h.bind h.label fun tryStart => h.bind (h.expectWord _) fun _ =>
    h.bind h.label fun tryEnd => ?_
  -- the words before `handler` differ from kind to kind, and what follows it does not
  have hhandler : ∀ _ : Unit, P (do
      let handlerStart ← Listing.label
      Listing.expectWord "to"
      return ({ tryStart, tryEnd, handlerStart, handlerEnd := ← Listing.label } :
        ExceptionRegion)) := fun _ =>
    h.bind h.label fun _ => h.bind (h.expectWord _) fun _ => h.bind h.label fun _ => h.pure _
  refine h.bind (h.accept _) fun isFinally => ?_
  split
  · exact h.bind (h.expectWord _) hhandler
  refine h.bind (h.accept _) fun isFault => ?_
  split
  · exact h.bind (h.expectWord _) hhandler
  refine h.bind (h.accept _) fun isHandler => ?_
  split
  · exact hhandler ()
  · exact h.bind (h.expectWord _) fun _ => h.bind h.typeName fun _ =>
      h.bind (h.expectWord _) hhandler

end Hereditary

theorem safe_restOfLine (n : Nat) : Safe (restOfLine n) := by
  rw [restOfLine_eq_loop]
  refine .bind (.loop (fun seen => ?_) (progresses_lineRound n) []) fun _ => .pure _
  refine .bind .line fun l => .bind .peek fun token => ?_
  split
  · exact .bind .take fun _ => .pure _
  · exact .pure _

theorem safe_instruction (scope : Scope) (offset : UInt32) : Safe (instruction scope offset) := by
  refine .bind .line fun line => .bind hereditary_safe.expectName fun word => ?_
  split
  · next opcode _ =>
      refine .bind ?_ fun _ => .pure _
      by_cases hkind : opcode.operandKind = .raw
      · rw [hkind]
        exact .bind (safe_restOfLine line) fun _ => .pure _
      · exact hereditary_safe.operand scope line hkind
  · exact .throw nofun

theorem ConsumesAt.label {ts : List Located} (hts : Marked ts) : ConsumesAt label ts := by
  refine (ConsumesAt.expectName ts).bind (hereditary_safe.expectName ts hts) fun word => ?_
  split
  · exact .pure _
  · exact .refuse nofun

theorem progresses_bodyItem (args : List (Option String)) : Progresses (bodyItem args) := by
  intro b ts hts
  refine .peek fun token hcurrent => ?_
  have safe := hereditary_safe
  split
  · exact .take hts (by simp [hcurrent]) fun _ => .pure _
  · have hne : current ts ≠ .endOfInput := by simp [hcurrent]
    split
    · exact .take hts hne fun _ => .bind safe.expectInt fun _ => .pure _
    split
    · exact .take hts hne fun _ => .pure _
    split
    · exact .take hts hne fun _ => .bind (safe.accept _) fun _ =>
        .bind (safe.inParens safe.localVariable safe.localVariable) fun _ => .pure _
    split
    · exact .take hts hne fun _ => .bind safe.exceptionRegion fun _ => .pure _
    split
    -- the label is only looked at so far; reading it takes it
    · refine ((ConsumesAt.label hts).bind (safe.label ts hts) fun offset => ?_).movesOn
      exact .bind (safe.expectPunct _) fun _ => .bind (safe_instruction _ _) fun _ => .pure _
    · exact .refuse _ ts
  · exact .refuse _ ts

namespace Hereditary

theorem bodyItem (h : Hereditary P) (hinstruction : ∀ scope offset, P (instruction scope offset))
    (args : List (Option String)) (b : PartialBody) : P (bodyItem args b) := by
  refine h.bind h.peek fun token => ?_
  split
  · exact h.bind h.take fun _ => h.pure _
  · split
    · exact h.bind h.take fun _ => h.bind h.expectInt fun _ => h.pure _
    split
    · exact h.bind h.take fun _ => h.pure _
    split
    · exact h.bind h.take fun _ => h.bind (h.accept _) fun _ =>
        h.bind (h.inParens h.localVariable hereditary_safe.localVariable) fun _ => h.pure _
    split
    · exact h.bind h.take fun _ => h.bind h.exceptionRegion fun _ => h.pure _
    split
    · exact h.bind h.label fun _ => h.bind (h.expectPunct _) fun _ =>
        h.bind (hinstruction _ _) fun _ => h.pure _
    · exact h.refuse nofun
  · exact h.refuse nofun

theorem body (h : Hereditary P) (hinstruction : ∀ scope offset, P (instruction scope offset))
    (args : List (Option String)) : P (body args) :=
  h.bind (h.expectPunct _) fun _ =>
    h.loop (h.bodyItem hinstruction args) (progresses_bodyItem args) _

/-! ## Declarations -/

theorem fieldOffset (h : Hereditary P) : P fieldOffset := by
  refine h.bind h.expectInt fun value => ?_
  split
  · exact h.bind (h.expectPunct _) fun _ => h.pure _
  · exact h.refuse nofun

theorem fieldDef (h : Hereditary P) : P fieldDef := by
  refine h.bind (h.attributes _) fun before => h.bind (h.accept _) fun opened => ?_
  dsimp only
  have hrest : ∀ (offset : Option UInt32) (behind : List String), P (do
      let type ← Listing.typeSig
      return ({ name := ← Listing.expectName, type, isStatic := "static" ∈ before ++ behind,
                offset } : FieldDef)) := fun offset behind =>
    h.bind h.typeSig fun _ => h.bind h.expectName fun _ => h.pure _
  split
  · exact h.bind h.fieldOffset fun offset => h.bind (h.attributes _) fun behind =>
      h.bind (h.pure _) fun _ => hrest _ _
  · exact h.bind (h.pure _) fun _ => hrest _ _

theorem param (h : Hereditary P) : P param :=
  h.bind h.typeSig fun _ => h.bind h.optionalName fun _ => h.pure _

theorem methodDef (h : Hereditary P) (hinstruction : ∀ scope offset, P (instruction scope offset)) :
    P methodDef := by
  refine h.bind (h.attributes _) fun words => h.bind h.typeSig fun result =>
    h.bind h.expectName fun name =>
      h.bind (h.inParens h.param hereditary_safe.param) fun params =>
        h.bind (h.attributes _) fun _ => h.bind h.peek fun token => ?_
  dsimp only
  split
  · rw [map_eq_pure_bind]
    exact h.bind (h.bind (h.body hinstruction _) fun _ => h.pure _) fun _ => h.pure _
  · exact h.bind (h.pure _) fun _ => h.pure _

end Hereditary

theorem progresses_member : Progresses member := by
  intro t ts hts
  refine .peek fun token hcurrent => ?_
  have safe := hereditary_safe
  split
  · exact .take hts (by simp [hcurrent]) fun _ => .pure _
  · have hne : current ts ≠ .endOfInput := by simp [hcurrent]
    split
    · exact .take hts hne fun _ => .bind safe.fieldDef fun _ => .pure _
    split
    · exact .take hts hne fun _ => .bind (safe.methodDef safe_instruction) fun _ => .pure _
    split
    · exact .take hts hne fun _ => .bind safe.expectInt fun _ => .pure _
    · exact .refuse _ ts
  · exact .refuse _ ts

theorem Hereditary.member (h : Hereditary P)
    (hinstruction : ∀ scope offset, P (instruction scope offset)) (t : TypeDef) : P (member t) := by
  refine h.bind h.peek fun token => ?_
  split
  · exact h.bind h.take fun _ => h.pure _
  · split
    · exact h.bind h.take fun _ => h.bind h.fieldDef fun _ => h.pure _
    split
    · exact h.bind h.take fun _ => h.bind (h.methodDef hinstruction) fun _ => h.pure _
    split
    · exact h.bind h.take fun _ => h.bind h.expectInt fun _ => h.pure _
    · exact h.refuse nofun
  · exact h.refuse nofun

theorem Hereditary.typeDef (h : Hereditary P)
    (hinstruction : ∀ scope offset, P (instruction scope offset)) : P typeDef := by
  have hmembers : ∀ t, P (Listing.loop Listing.member t) :=
    h.loop (h.member hinstruction) progresses_member
  refine h.bind (h.attributes _) fun words => h.bind h.expectName fun name =>
    h.bind (h.accept _) fun extended => ?_
  split
  · exact h.bind h.typeName fun _ => h.bind (h.expectPunct _) fun _ => hmembers _
  · exact h.bind (h.expectPunct _) fun _ => hmembers _

/-- At the mark the listing ends, or is refused. -/
theorem progresses_declaration : Progresses declaration := by
  intro a ts hts
  refine .peek fun token hcurrent => ?_
  have safe := hereditary_safe
  split
  · split
    · exact .done _ ts
    · exact fun next rest hrun => nomatch hrun
  · have hne : current ts ≠ .endOfInput := by simp [hcurrent]
    split
    · refine .take hts hne fun _ => .bind (safe.accept _) fun isExtern => ?_
      split
      · exact .bind safe.expectName fun _ => .bind safe.skipBlock fun _ => .pure _
      · exact .bind safe.expectName fun _ => .bind safe.skipBlock fun _ => .pure _
    split
    · exact .take hts hne fun _ => .bind safe.expectName fun _ => .pure _
    split
    · exact .take hts hne fun _ => .bind (safe.typeDef safe_instruction) fun _ => .pure _
    · exact .refuse _ ts
  · exact .refuse _ ts

theorem Hereditary.declaration (h : Hereditary P)
    (hinstruction : ∀ scope offset, P (instruction scope offset)) (a : PartialAssembly) :
    P (declaration a) := by
  refine h.bind h.peek fun token => ?_
  split
  · split
    · exact h.pure _
    · exact h.throw nofun
  · split
    · refine h.bind h.take fun _ => h.bind (h.accept _) fun isExtern => ?_
      split
      · exact h.bind h.expectName fun _ => h.bind h.skipBlock fun _ => h.pure _
      · exact h.bind h.expectName fun _ => h.bind h.skipBlock fun _ => h.pure _
    split
    · exact h.bind h.take fun _ => h.bind h.expectName fun _ => h.pure _
    split
    · exact h.bind h.take fun _ => h.bind (h.typeDef hinstruction) fun _ => h.pure _
    · exact h.refuse nofun
  · exact h.refuse nofun

/-- All of the grammar has a hereditary property, if instructions do. -/
theorem Hereditary.assembly (h : Hereditary P)
    (hinstruction : ∀ scope offset, P (instruction scope offset)) : P assembly :=
  h.loop (h.declaration hinstruction) progresses_declaration _

end CilCompiler.Listing
