/-!
# Parsers

A parser takes a value off the front of a list, or fails. Loops in a grammar are all built from one
combinator, which goes on only while its input gets shorter.

* `Parser.iterate` repeats a step until the step says that it is done.
* `Parser.iterate_eq` unfolds one round of it.
-/

namespace CilCompiler

/-- Reads an `α` from a list of `τ`s and leaves the rest, or fails with an `ε`. -/
abbrev Parser (τ ε : Type) := StateT (List τ) (Except ε)

/-- The outcome of one round of a loop. -/
inductive Round (σ β : Type)
  | more (state : σ)
  | done (result : β)

namespace Parser

variable {τ ε σ β : Type}

/-- Whether `rest` is shorter than `input`, of which `tail` is a part. A step leaves a part of what it
got, so `rest` is looked for in `tail` first: a part is known by its address, and the lengths of long
inputs are not counted again in every round. -/
def decideShorter (rest input : List τ) : (tail : List τ) → tail.length ≤ input.length →
    { shorter : Bool // shorter = decide (rest.length < input.length) }
  | [], _ => ⟨decide (rest.length < input.length), rfl⟩
  | _ :: tail, h =>
    have found (heq : rest = tail) : decide (rest.length < input.length) = true :=
      decide_eq_true (heq ▸ h)
    ⟨withPtrEq rest tail (fun _ => (decideShorter rest input tail (Nat.le_of_succ_le h)).val)
        fun heq => (decideShorter rest input tail (Nat.le_of_succ_le h)).property.trans (found heq),
      (decideShorter rest input tail (Nat.le_of_succ_le h)).property⟩

/-- Whether `rest` is shorter than `input`. -/
def isShorter (rest input : List τ) : Bool :=
  (decideShorter rest input input (Nat.le_refl _)).val

theorem isShorter_iff {rest input : List τ} :
    isShorter rest input = true ↔ rest.length < input.length := by
  rw [isShorter, (decideShorter rest input input (Nat.le_refl _)).property, decide_eq_true_iff]

/-- Runs `step` round after round. A round that goes on must have consumed something; one that has
not ends the loop with `stalled`, so every loop ends. -/
def iterate (stalled : ε) (step : σ → Parser τ ε (Round σ β)) (state : σ) (input : List τ) :
    Except ε (β × List τ) :=
  match step state input with
  | .error e => .error e
  | .ok (.done result, rest) => .ok (result, rest)
  | .ok (.more next, rest) =>
    if _h : isShorter rest input then iterate stalled step next rest
    else .error stalled
termination_by input.length
decreasing_by exact isShorter_iff.1 _h

theorem iterate_eq (stalled : ε) (step : σ → Parser τ ε (Round σ β)) (state : σ)
    (input : List τ) :
    iterate stalled step state input =
      match step state input with
      | .error e => .error e
      | .ok (.done result, rest) => .ok (result, rest)
      | .ok (.more next, rest) =>
        if rest.length < input.length then iterate stalled step next rest
        else .error stalled := by
  rw [iterate]
  simp only [isShorter_iff]
  rfl

end Parser

end CilCompiler
