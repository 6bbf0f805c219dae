import Mathlib.Data.List.Infix
import CilCompiler.Listing.Grammar

/-!
# Positions of a reader

A reader stands at a position among the tokens, which is told by the tokens that are left. A token
list ends with a mark, and the mark is never passed, so there is always a token to look at.

* `Marked` says that a token list ends with the only mark in it.
* `Run` takes the run of a reader apart into looks at single tokens, with the positions at which it
  stands. A loop has a run only if every round that goes on has moved.
* `Safe` says that a reader has a run from every marked list, that this run stays within the list, and
  that it does not end for want of progress. It is closed under `bind`, and under loops whose rounds
  progress.
-/

namespace CilCompiler.Listing

variable {α β σ : Type}

/-! ## Marked lists -/

/-- The last token is an end mark, and no other one is. -/
def Marked (ts : List Located) : Prop :=
  ∃ front mark, ts = front ++ [mark] ∧ mark.token = .endOfInput ∧
    ∀ t ∈ front, t.token ≠ .endOfInput

theorem marked_cons_iff {t : Located} {ts : List Located} :
    Marked (t :: ts) ↔
      (t.token = .endOfInput ∧ ts = []) ∨ (t.token ≠ .endOfInput ∧ Marked ts) := by
  constructor
  · rintro ⟨front, mark, heq, hmark, hfront⟩
    -- a list without a front is its mark
    cases front with
    | nil =>
        cases heq
        exact .inl ⟨hmark, rfl⟩
    | cons u front =>
        cases heq
        rw [List.forall_mem_cons] at hfront
        exact .inr ⟨hfront.1, front, mark, rfl, hmark, hfront.2⟩
  · rintro (⟨ht, rfl⟩ | ⟨ht, front, mark, rfl, hmark, hfront⟩)
    · exact ⟨[], t, rfl, ht, by simp⟩
    · exact ⟨t :: front, mark, rfl, hmark, List.forall_mem_cons.2 ⟨ht, hfront⟩⟩

theorem Marked.ne_nil {ts : List Located} (h : Marked ts) : ts ≠ [] := by
  rintro rfl
  rcases h with ⟨front, mark, heq, -⟩
  simp at heq

/-- At the mark nothing else is left. -/
theorem Marked.eq_singleton {ts : List Located} (h : Marked ts)
    (hcurrent : current ts = .endOfInput) : ∃ mark, ts = [mark] := by
  cases ts with
  | nil =>
      exact absurd rfl h.ne_nil
  | cons t ts =>
      rcases marked_cons_iff.1 h with ⟨-, rfl⟩ | ⟨hne, -⟩
      · exact ⟨t, rfl⟩
      · exact absurd hcurrent hne

/-- The position `us` lies within the marked tokens `ts`, or at their mark. -/
structure Within (ts us : List Located) : Prop where
  marked : Marked us
  suffix : us <:+ ts

theorem Within.trans {ts us vs : List Located} (h : Within ts us) (h' : Within us vs) :
    Within ts vs :=
  ⟨h'.marked, h'.suffix.trans h.suffix⟩

theorem Marked.within {ts : List Located} (h : Marked ts) : Within ts ts :=
  ⟨h, List.suffix_refl ts⟩

theorem advance_eq_tail {t : Located} {ts : List Located} (h : t.token ≠ .endOfInput) :
    advance (t :: ts) = ts :=
  if_neg h

theorem advance_eq_self {t : Located} {ts : List Located} (h : t.token = .endOfInput) :
    advance (t :: ts) = t :: ts :=
  if_pos h

theorem Marked.advance {ts : List Located} (h : Marked ts) : Within ts (advance ts) := by
  cases ts with
  | nil =>
      exact h.within
  | cons t ts =>
      rcases marked_cons_iff.1 h with ⟨ht, -⟩ | ⟨hne, hts⟩
      · rw [advance_eq_self ht]
        exact h.within
      · rw [advance_eq_tail hne]
        exact ⟨hts, List.suffix_cons t ts⟩

/-- Only the mark is not moved past. -/
theorem length_advance {ts : List Located} (h : current ts ≠ .endOfInput) :
    (advance ts).length < ts.length := by
  cases ts with
  | nil =>
      exact absurd rfl h
  | cons t ts =>
      rw [advance_eq_tail h]
      exact Nat.lt_succ_self _

/-! ## Rounds -/

section Rounds

variable {stalled : SyntaxError} {step : σ → Reader (Round σ β)} {state : σ} {ts : List Located}

theorem iterate_error {e : SyntaxError} (h : step state ts = .error e) :
    Parser.iterate stalled step state ts = .error e := by
  rw [Parser.iterate_eq, h]

theorem iterate_done {result : β} {rest : List Located}
    (h : step state ts = .ok (.done result, rest)) :
    Parser.iterate stalled step state ts = .ok (result, rest) := by
  rw [Parser.iterate_eq, h]

theorem iterate_more {next : σ} {rest : List Located} (h : step state ts = .ok (.more next, rest))
    (hmoved : rest.length < ts.length) :
    Parser.iterate stalled step state ts = Parser.iterate stalled step next rest := by
  rw [Parser.iterate_eq, h]
  exact if_pos hmoved

theorem iterate_stalled {next : σ} {rest : List Located}
    (h : step state ts = .ok (.more next, rest)) (hstuck : ¬rest.length < ts.length) :
    Parser.iterate stalled step state ts = .error stalled := by
  rw [Parser.iterate_eq, h]
  exact if_neg hstuck

/-- Loops are followed round by round: what holds where the loop ends, and before a round that moved
if it holds after it, holds wherever the loop starts. -/
theorem round_induction (step : σ → Reader (Round σ β)) {P : σ → List Located → Prop}
    (error : ∀ state ts e, step state ts = .error e → P state ts)
    (done : ∀ state ts result rest, step state ts = .ok (.done result, rest) → P state ts)
    (stuck : ∀ state ts next rest, step state ts = .ok (.more next, rest) →
      ¬rest.length < ts.length → P state ts)
    (more : ∀ state ts next rest, step state ts = .ok (.more next, rest) →
      rest.length < ts.length → P next rest → P state ts)
    (state : σ) (ts : List Located) : P state ts := by
  induction hlength : ts.length using Nat.strongRecOn generalizing state ts with
  | ind n ih =>
      cases hround : step state ts with
      | error e =>
          exact error state ts e hround
      | ok p =>
          rcases p with ⟨round, rest⟩
          cases round with
          | done result =>
              exact done state ts result rest hround
          | more next =>
              by_cases hmoved : rest.length < ts.length
              · exact more state ts next rest hround hmoved
                  (ih rest.length (hlength ▸ hmoved) next rest rfl)
              · exact stuck state ts next rest hround hmoved

/-- If the round that starts at `ts` goes on, then it has moved. -/
def MovesOn (round : Reader (Round σ β)) (ts : List Located) : Prop :=
  ∀ next rest, round ts = .ok (.more next, rest) → rest.length < ts.length

/-- Every round ends the loop or has moved. -/
def Progresses (step : σ → Reader (Round σ β)) : Prop :=
  ∀ state ts, Marked ts → MovesOn (step state) ts

end Rounds

/-! ## Runs -/

/-- The token behind the current one. Behind the mark there is none, and the mark is seen again. -/
def ahead : Reader Token := fun ts => .ok (current (advance ts), ts)

/-- `Run r ts positions` says that `r`, when it starts at `ts`, stands at these positions one after
the other, looks at the tokens there, and comes to an end. A round of a loop ends the loop, or leaves
fewer tokens than there were. -/
inductive Run : ∀ {α : Type}, Reader α → List Located → List (List Located) → Prop
  | pure {α : Type} (x : α) (ts : List Located) : Run (Pure.pure x) ts []
  | throw {α : Type} (e : SyntaxError) (ts : List Located) : Run (throw e : Reader α) ts []
  | peek (ts : List Located) : Run peek ts [ts]
  | ahead (ts : List Located) : Run ahead ts [ts, advance ts]
  | line (ts : List Located) : Run line ts [ts]
  | take (ts : List Located) : Run take ts [ts, advance ts]
  | bind {α β : Type} {r : Reader α} {f : α → Reader β} {x : α} {ts rest : List Located}
      {us vs : List (List Located)} (first : Run r ts us) (ends : r ts = .ok (x, rest))
      (second : Run (f x) rest vs) : Run (r >>= f) ts (us ++ vs)
  | fail {α β : Type} {r : Reader α} {f : α → Reader β} {e : SyntaxError} {ts : List Located}
      {us : List (List Located)} (first : Run r ts us) (ends : r ts = .error e) :
      Run (r >>= f) ts us
  | round_error {σ β : Type} {stalled e : SyntaxError} {step : σ → Reader (Round σ β)} {state : σ}
      {ts : List Located} {us : List (List Located)} (round : Run (step state) ts us)
      (ends : step state ts = .error e) : Run (Parser.iterate stalled step state) ts us
  | round_done {σ β : Type} {stalled : SyntaxError} {step : σ → Reader (Round σ β)} {state : σ}
      {result : β} {ts rest : List Located} {us : List (List Located)}
      (round : Run (step state) ts us) (ends : step state ts = .ok (.done result, rest)) :
      Run (Parser.iterate stalled step state) ts us
  | round_more {σ β : Type} {stalled : SyntaxError} {step : σ → Reader (Round σ β)}
      {state next : σ} {ts rest : List Located} {us vs : List (List Located)}
      (round : Run (step state) ts us) (ends : step state ts = .ok (.more next, rest))
      (moved : rest.length < ts.length) (rounds : Run (Parser.iterate stalled step next) rest vs) :
      Run (Parser.iterate stalled step state) ts (us ++ vs)
  | loop {σ β : Type} {step : σ → Reader (Round σ β)} {state : σ} {ts : List Located}
      {us : List (List Located)}
      (rounds : Run (Parser.iterate ⟨currentLine ts, .stalled⟩ step state) ts us) :
      Run (loop step state) ts us

/-- The reader has a run from `ts` that stays within `ts`, it leaves off within `ts`, and it does not
fail for want of progress. -/
structure SafeAt (r : Reader α) (ts : List Located) : Prop where
  run : ∃ positions, Run r ts positions ∧ ∀ us ∈ positions, Within ts us
  rest : ∀ x rest, r ts = .ok (x, rest) → Within ts rest
  cause : ∀ e, r ts = .error e → e.cause ≠ .stalled

/-- The reader is safe wherever it starts. -/
def Safe (r : Reader α) : Prop := ∀ ts, Marked ts → SafeAt r ts

namespace Safe

variable {r : Reader α} {f : α → Reader β}

theorem pure (x : α) : Safe (pure x) := by
  intro ts h
  refine ⟨⟨[], .pure x ts, by simp⟩, fun y rest hrun => ?_, fun e hrun => nomatch hrun⟩
  cases hrun
  exact h.within

theorem throw {e : SyntaxError} (he : e.cause ≠ .stalled) : Safe (throw e : Reader α) := by
  intro ts h
  refine ⟨⟨[], .throw e ts, by simp⟩, fun y rest hrun => (nomatch hrun), fun e' hrun => ?_⟩
  cases hrun
  exact he

theorem peek : Safe peek := by
  intro ts h
  refine ⟨⟨[ts], .peek ts, by simpa using h.within⟩, fun x rest hrun => ?_, fun e hrun => nomatch hrun⟩
  cases hrun
  exact h.within

theorem line : Safe line := by
  intro ts h
  refine ⟨⟨[ts], .line ts, by simpa using h.within⟩, fun x rest hrun => ?_, fun e hrun => nomatch hrun⟩
  cases hrun
  exact h.within

theorem ahead : Safe ahead := by
  intro ts h
  refine ⟨⟨_, .ahead ts, by simp [h.within, h.advance]⟩, fun x rest hrun => ?_,
    fun e hrun => nomatch hrun⟩
  cases hrun
  exact h.within

theorem take : Safe take := by
  intro ts h
  refine ⟨⟨_, .take ts, by simp [h.within, h.advance]⟩, fun x rest hrun => ?_,
    fun e hrun => nomatch hrun⟩
  cases hrun
  exact h.advance

theorem bind (hr : Safe r) (hf : ∀ x, Safe (f x)) : Safe (r >>= f) := by
  intro ts h
  have hsteps : (r >>= f) ts = r ts >>= fun p => f p.1 p.2 := rfl
  rcases (hr ts h).run with ⟨us, hrun, hus⟩
  cases hfirst : r ts with
  | error e =>
      rw [hfirst] at hsteps
      refine ⟨⟨us, .fail hrun hfirst, hus⟩, fun x rest hend => ?_, fun e' hend => ?_⟩
      · rw [hsteps] at hend
        cases hend
      · rw [hsteps] at hend
        cases hend
        exact (hr ts h).cause e hfirst
  | ok p =>
      rcases p with ⟨x, rest⟩
      -- the second reader starts at a position within the tokens, and stays behind that position
      have hrest := (hr ts h).rest x rest hfirst
      have hsecond := hf x rest hrest.marked
      rcases hsecond.run with ⟨vs, hrun', hvs⟩
      have hstep : (r >>= f) ts = f x rest := by
        rw [hsteps, hfirst]
        rfl
      refine ⟨⟨us ++ vs, .bind hrun hfirst hrun', ?_⟩, fun y rest' hend => ?_, fun e hend => ?_⟩
      · intro vs' hmem
        rcases List.mem_append.1 hmem with hmem | hmem
        · exact hus vs' hmem
        · exact hrest.trans (hvs vs' hmem)
      · exact hrest.trans (hsecond.rest y rest' (hstep ▸ hend))
      · exact hsecond.cause e (hstep ▸ hend)

/-- Rounds that move come to an end, since the tokens do. -/
theorem iterate {step : σ → Reader (Round σ β)} (hstep : ∀ state, Safe (step state))
    (hmoves : Progresses step) (stalled : SyntaxError) (state : σ) :
    Safe (Parser.iterate stalled step state : Reader β) := by
  intro ts h
  induction state, ts using round_induction step with
  | error state ts e hend =>
      rcases (hstep state ts h).run with ⟨us, hrun, hus⟩
      refine ⟨⟨us, .round_error hrun hend, hus⟩, fun x rest hx => ?_, fun e' he => ?_⟩
      · rw [iterate_error hend] at hx
        cases hx
      · rw [iterate_error hend] at he
        cases he
        exact (hstep state ts h).cause e hend
  | done state ts result rest hend =>
      rcases (hstep state ts h).run with ⟨us, hrun, hus⟩
      refine ⟨⟨us, .round_done hrun hend, hus⟩, fun x rest' hx => ?_, fun e he => ?_⟩
      · rw [iterate_done hend] at hx
        cases hx
        exact (hstep state ts h).rest _ rest hend
      · rw [iterate_done hend] at he
        cases he
  | stuck state ts next rest hend hstuck =>
      exact absurd (hmoves state ts h next rest hend) hstuck
  | more state ts next rest hend hmoved ih =>
      rcases (hstep state ts h).run with ⟨us, hrun, hus⟩
      have hrest := (hstep state ts h).rest _ rest hend
      rcases (ih hrest.marked).run with ⟨vs, hrun', hvs⟩
      refine ⟨⟨us ++ vs, .round_more hrun hend hmoved hrun', ?_⟩, fun x rest' hx => ?_,
        fun e he => ?_⟩
      · intro vs' hmem
        rcases List.mem_append.1 hmem with hmem | hmem
        · exact hus vs' hmem
        · exact hrest.trans (hvs vs' hmem)
      · rw [iterate_more hend hmoved] at hx
        exact hrest.trans ((ih hrest.marked).rest x rest' hx)
      · rw [iterate_more hend hmoved] at he
        exact (ih hrest.marked).cause e he

theorem loop {step : σ → Reader (Round σ β)} (hstep : ∀ state, Safe (step state))
    (hmoves : Progresses step) (state : σ) : Safe (loop step state) := by
  intro ts h
  have hrounds := iterate hstep hmoves ⟨currentLine ts, .stalled⟩ state ts h
  rcases hrounds.run with ⟨us, hrun, hus⟩
  exact ⟨⟨us, .loop hrun, hus⟩, hrounds.rest, hrounds.cause⟩

theorem refuse {cause : Cause} (hcause : cause ≠ .stalled) : Safe (refuse cause : Reader α) := by
  have hsteps : (Listing.refuse cause : Reader α) =
      Listing.line >>= fun n => MonadExcept.throw ⟨n, cause⟩ := rfl
  rw [hsteps]
  exact bind line fun n => throw hcause

end Safe

end CilCompiler.Listing
