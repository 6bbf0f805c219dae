import CilCompiler.Proofs.Hereditary

/-!
# Readers look two tokens ahead

A reader has to look behind what it takes: a type goes on if a pair of brackets follows it. But no
reader looks further than that, so what stands behind the two next tokens can be exchanged.

* `Shortsighted` says this of one reader; it is hereditary, and instructions have it too.
* `Rounds` follows a loop through rounds that go on, and records where they start.
* `Rounds.exchange` says that such rounds do not depend on what stands far behind them.
-/

namespace CilCompiler.Listing

variable {α β σ : Type}

/-! ## Exchanging what stands behind -/

/-- Lists with the same two first tokens have them behind any front. -/
theorem take_two_append {us vs : List Located} (front : List Located)
    (h : vs.take 2 = us.take 2) : (front ++ vs).take 2 = (front ++ us).take 2 := by
  have hless : ∀ n ≤ 2, vs.take n = us.take n := by
    intro n hn
    have hvs : (vs.take 2).take n = vs.take n := by rw [List.take_take, Nat.min_eq_left hn]
    have hus : (us.take 2).take n = us.take n := by rw [List.take_take, Nat.min_eq_left hn]
    rw [← hvs, ← hus, h]
  rw [List.take_append, List.take_append, hless _ (Nat.sub_le _ _)]

/-- Lists with the same two first tokens are both empty, or start alike. -/
theorem take_two_cases {us vs : List Located} (h : vs.take 2 = us.take 2) :
    (us = [] ∧ vs = []) ∨ ∃ t us' vs', us = t :: us' ∧ vs = t :: vs' ∧ vs'.head? = us'.head? := by
  cases us with
  | nil =>
      have hvs : vs = [] := by simpa using h
      exact .inl ⟨rfl, hvs⟩
  | cons t us =>
      cases vs with
      | nil =>
          cases h
      | cons t' vs =>
          rw [List.take_succ_cons, List.take_succ_cons, List.cons.injEq] at h
          rcases h with ⟨rfl, htail⟩
          refine .inr ⟨t', us, vs, rfl, rfl, ?_⟩
          cases us with
          | nil =>
              have hvs : vs = [] := by simpa using htail
              rw [hvs]
          | cons u us =>
              cases vs with
              | nil =>
                  cases htail
              | cons v vs =>
                  rw [List.take_succ_cons, List.take_succ_cons, List.cons.injEq] at htail
                  rw [List.head?_cons, List.head?_cons, htail.1]

theorem current_of_take_two {us vs : List Located} (h : vs.take 2 = us.take 2) :
    current vs = current us := by
  rcases take_two_cases h with ⟨rfl, rfl⟩ | ⟨t, us', vs', rfl, rfl, -⟩
  · rfl
  · rfl

theorem currentLine_of_take_two {us vs : List Located} (h : vs.take 2 = us.take 2) :
    currentLine vs = currentLine us := by
  rcases take_two_cases h with ⟨rfl, rfl⟩ | ⟨t, us', vs', rfl, rfl, -⟩
  · rfl
  · rfl

theorem current_advance_of_take_two {us vs : List Located} (h : vs.take 2 = us.take 2) :
    current (advance vs) = current (advance us) := by
  rcases take_two_cases h with ⟨rfl, rfl⟩ | ⟨t, us', vs', rfl, rfl, hhead⟩
  · rfl
  · by_cases hmark : t.token = .endOfInput
    · rw [advance_eq_self hmark, advance_eq_self hmark]
      rfl
    · rw [advance_eq_tail hmark, advance_eq_tail hmark]
      -- the token behind the first one is the same in both lists
      cases us' with
      | nil =>
          cases vs' with
          | nil =>
              rfl
          | cons v vs' =>
              cases hhead
      | cons u us' =>
          cases vs' with
          | nil =>
              cases hhead
          | cons v vs' =>
              cases hhead
              rfl

/-! ## Shortsighted readers -/

/-- What the reader takes is the front of the tokens, and it takes the same when all but the next
two tokens behind this front are exchanged. -/
def Shortsighted (r : Reader α) : Prop :=
  ∀ ts x us, r ts = .ok (x, us) →
    ∃ front, ts = front ++ us ∧ ∀ vs, vs.take 2 = us.take 2 → r (front ++ vs) = .ok (x, vs)

namespace Shortsighted

variable {r : Reader α} {f : α → Reader β} {step : σ → Reader (Round σ β)}

theorem pure (x : α) : Shortsighted (pure x) := by
  intro ts y us h
  cases h
  exact ⟨[], rfl, fun vs _ => rfl⟩

theorem throw (e : SyntaxError) : Shortsighted (throw e : Reader α) := by
  intro ts x us h
  cases h

theorem refuse (cause : Cause) : Shortsighted (refuse cause : Reader α) := by
  intro ts x us h
  cases h

theorem peek : Shortsighted peek := by
  intro ts x us h
  cases h
  refine ⟨[], rfl, fun vs hvs => ?_⟩
  rw [← current_of_take_two hvs]
  rfl

theorem line : Shortsighted line := by
  intro ts x us h
  cases h
  refine ⟨[], rfl, fun vs hvs => ?_⟩
  rw [← currentLine_of_take_two hvs]
  rfl

theorem ahead : Shortsighted ahead := by
  intro ts x us h
  cases h
  refine ⟨[], rfl, fun vs hvs => ?_⟩
  rw [← current_advance_of_take_two hvs]
  rfl

theorem take : Shortsighted take := by
  intro ts x us h
  cases h
  cases ts with
  | nil =>
      refine ⟨[], rfl, fun vs hvs => ?_⟩
      have hnil : vs = [] := by simpa [advance] using hvs
      rw [hnil]
      rfl
  | cons t ts =>
      by_cases hmark : t.token = .endOfInput
      -- the mark is seen but not taken
      · rw [advance_eq_self hmark]
        refine ⟨[], rfl, fun vs hvs => ?_⟩
        rcases take_two_cases hvs with ⟨hnil, -⟩ | ⟨t', us', vs', heq, rfl, -⟩
        · cases hnil
        · cases heq
          rw [List.nil_append, Listing.take, advance_eq_self hmark]
          rfl
      · rw [advance_eq_tail hmark]
        refine ⟨[t], rfl, fun vs _ => ?_⟩
        rw [List.singleton_append, Listing.take, advance_eq_tail hmark]
        rfl

theorem bind (hr : Shortsighted r) (hf : ∀ x, Shortsighted (f x)) : Shortsighted (r >>= f) := by
  intro ts y us h
  rcases bind_eq_ok h with ⟨x, behind, hfirst, hsecond⟩
  rcases hr ts x behind hfirst with ⟨front, rfl, hfront⟩
  rcases hf x behind y us hsecond with ⟨middle, rfl, hmiddle⟩
  refine ⟨front ++ middle, (List.append_assoc front middle us).symm, fun vs hvs => ?_⟩
  rw [List.append_assoc, run_bind (hfront (middle ++ vs) (take_two_append middle hvs))]
  exact hmiddle vs hvs

/-- A round that moved has taken a token, and moves on whatever stands far behind. -/
theorem moved {front us : List Located} (vs : List Located)
    (h : us.length < (front ++ us).length) : vs.length < (front ++ vs).length := by
  rw [List.length_append] at h ⊢
  omega

/-- The error for loops that stall does not matter where a loop ends. -/
theorem iterate (hstep : ∀ state, Shortsighted (step state)) {stalled : SyntaxError} {state : σ}
    {ts us : List Located} {x : β} (h : Parser.iterate stalled step state ts = .ok (x, us)) :
    ∃ front, ts = front ++ us ∧ ∀ stalled' vs, vs.take 2 = us.take 2 →
      Parser.iterate stalled' step state (front ++ vs) = .ok (x, vs) := by
  induction state, ts using round_induction step with
  | error state ts e hround =>
      rw [iterate_error hround] at h
      cases h
  | done state ts result rest hround =>
      rw [iterate_done hround] at h
      cases h
      rcases hstep state ts _ us hround with ⟨front, rfl, hfront⟩
      exact ⟨front, rfl, fun stalled' vs hvs => iterate_done (hfront vs hvs)⟩
  | stuck state ts next rest hround hstuck =>
      rw [iterate_stalled hround hstuck] at h
      cases h
  | more state ts next rest hround hmoved ih =>
      rw [iterate_more hround hmoved] at h
      -- this round takes `front` and the later ones take `middle`
      rcases ih h with ⟨middle, rfl, hmiddle⟩
      rcases hstep state ts _ _ hround with ⟨front, rfl, hfront⟩
      refine ⟨front ++ middle, (List.append_assoc front middle us).symm, fun stalled' vs hvs => ?_⟩
      rw [List.append_assoc,
        iterate_more (hfront _ (take_two_append middle hvs)) (moved _ hmoved)]
      exact hmiddle stalled' vs hvs

theorem loop (hstep : ∀ state, Shortsighted (step state)) (state : σ) :
    Shortsighted (loop step state) := by
  intro ts x us h
  rcases iterate hstep h with ⟨front, hts, hfront⟩
  exact ⟨front, hts, fun vs hvs => hfront _ vs hvs⟩

end Shortsighted

theorem hereditary_shortsighted : Hereditary Shortsighted where
  pure := .pure
  throw _ := .throw _
  refuse _ := .refuse _
  peek := .peek
  ahead := .ahead
  take := .take
  bind := .bind
  loop hstep _ state := .loop hstep state

/-- The end of a line is told by the next token alone. -/
theorem shortsighted_restOfLine (n : Nat) : Shortsighted (restOfLine n) := by
  rw [restOfLine_eq_loop]
  refine .bind (.loop (fun seen => ?_) []) fun _ => .pure _
  refine .bind .line fun l => .bind .peek fun token => ?_
  split
  · exact .bind .take fun _ => .pure _
  · exact .pure _

theorem shortsighted_instruction (scope : Scope) (offset : UInt32) :
    Shortsighted (instruction scope offset) := by
  refine .bind .line fun line => .bind hereditary_shortsighted.expectName fun word => ?_
  split
  · next opcode _ =>
      refine .bind ?_ fun _ => .pure _
      -- only operands without a grammar are read by their lines
      by_cases hkind : opcode.operandKind = .raw
      · rw [hkind]
        exact .bind (shortsighted_restOfLine line) fun _ => .pure _
      · exact hereditary_shortsighted.operand scope line hkind
  · exact .throw _

/-! ## Rounds that go on -/

/-- The loop comes from one state and position to another one in rounds that go on. The rounds start
at these positions, one after the other. -/
inductive Rounds (step : σ → Reader (Round σ β)) :
    σ → List Located → List (List Located) → σ → List Located → Prop
  | refl (state : σ) (ts : List Located) : Rounds step state ts [] state ts
  | more {state next last : σ} {ts rest us : List Located} {positions : List (List Located)}
      (round : step state ts = .ok (.more next, rest)) (moved : rest.length < ts.length)
      (rounds : Rounds step next rest positions last us) :
      Rounds step state ts (ts :: positions) last us

namespace Rounds

variable {step : σ → Reader (Round σ β)} {state last : σ} {ts us : List Located}
  {positions : List (List Located)}

/-- A loop can be followed from any position that it comes to. -/
theorem iterate_eq (h : Rounds step state ts positions last us) (stalled : SyntaxError) :
    Parser.iterate stalled step state ts = Parser.iterate stalled step last us := by
  induction h with
  | refl state ts =>
      rfl
  | more round moved _ ih =>
      rw [iterate_more round moved, ih]

/-- The rounds take the front of the tokens, and go the same way when all but the next two tokens
behind this front are exchanged. -/
theorem exchange (hstep : ∀ state, Shortsighted (step state))
    (h : Rounds step state ts positions last us) :
    ∃ front, ts = front ++ us ∧ ∀ vs, vs.take 2 = us.take 2 →
      ∃ positions', Rounds step state (front ++ vs) positions' last vs := by
  induction h with
  | refl state ts =>
      exact ⟨[], rfl, fun vs _ => ⟨[], .refl state vs⟩⟩
  | @more state next last ts rest us positions round moved _ ih =>
      rcases ih with ⟨middle, rfl, hmiddle⟩
      rcases hstep state ts _ _ round with ⟨front, rfl, hfront⟩
      refine ⟨front ++ middle, (List.append_assoc front middle us).symm, fun vs hvs => ?_⟩
      rcases hmiddle vs hvs with ⟨positions', hrounds⟩
      rw [List.append_assoc]
      exact ⟨_, .more (hfront _ (take_two_append middle hvs)) (Shortsighted.moved _ moved) hrounds⟩

end Rounds

end CilCompiler.Listing
