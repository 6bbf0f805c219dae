import Mathlib.Logic.Relation

/-!
# Execution

What the instructions of an assembly and the operators of a compiled body have in common: both
work on words, both go from state to state until they return or trap.

* `Progress` is one step of such a machine, `Reaches` any number of them, `Ends` a whole run.
* `Ends.simulate` carries the end of a run over to another machine that keeps up with it.
-/

namespace CilCompiler

/-- Every value is a word of thirty-two bits. -/
abbrev Word := BitVec 32

/-- A truth value as a word. -/
def truth (b : Bool) : Word := if b then 1 else 0

/-- Takes `n` arguments off a stack. The last one is on top. -/
def popArgs (n : Nat) (stack : List Word) : Option (List Word × List Word) :=
  if n ≤ stack.length then some ((stack.take n).reverse, stack.drop n) else none

/-- How a run ends. The host state is the one that the run leaves behind. -/
inductive Outcome (σ : Type)
  | returned (value : Option Word) (host : σ)
  | trapped (host : σ)

/-- One step: on to another state, or to the end, or nowhere. -/
inductive Progress (S O : Type)
  | next (s : S)
  | done (o : O)
  | stuck

variable {S T O : Type} {step : S → Progress S O} {step' : T → Progress T O} {s s' : S} {t t' : T}
  {o : O}

/-- Some number of steps lead from one state to another. -/
abbrev Reaches (step : S → Progress S O) : S → S → Prop :=
  Relation.ReflTransGen fun s s' => step s = .next s'

/-- A run from `s` ends with `o`. -/
def Ends (step : S → Progress S O) (s : S) (o : O) : Prop :=
  ∃ s', Reaches step s s' ∧ step s' = .done o

theorem popArgs_append {args stack : List Word} :
    popArgs args.length (args.reverse ++ stack) = some (args, stack) := by
  simp [popArgs]

theorem popArgs_eq_some {n : Nat} {args stack rest : List Word}
    (h : popArgs n stack = some (args, rest)) :
    args.length = n ∧ stack = args.reverse ++ rest := by
  unfold popArgs at h
  split at h
  · next hn =>
      cases h
      refine ⟨?_, by simp⟩
      rw [List.length_reverse, List.length_take, Nat.min_eq_left hn]
  · cases h

theorem Reaches.one (h : step s = .next s') : Reaches step s s' :=
  Relation.ReflTransGen.single h

theorem Ends.of_done (h : step s = .done o) : Ends step s o :=
  ⟨s, .refl, h⟩

theorem Ends.of_reaches (h : Reaches step s s') (he : Ends step s' o) : Ends step s o := by
  rcases he with ⟨s'', hs, hd⟩
  exact ⟨s'', h.trans hs, hd⟩

/-- A run ends at once or after its first step. -/
theorem Ends.cases_head (h : Ends step s o) :
    step s = .done o ∨ ∃ s', step s = .next s' ∧ Ends step s' o := by
  rcases h with ⟨s'', hs, hd⟩
  rcases Relation.ReflTransGen.cases_head hs with rfl | ⟨s', hone, hrest⟩
  · exact Or.inl hd
  · exact Or.inr ⟨s', hone, s'', hrest, hd⟩

/-- If every step and every end of the one machine is matched by the other, so is every run that
ends. A step has to be matched only if the run that it belongs to ends. -/
theorem Ends.simulate {R : S → T → Prop}
    (hnext : ∀ {s s' : S} {t : T}, R s t → step s = .next s' → Ends step s' o →
      ∃ t', Reaches step' t t' ∧ R s' t')
    (hdone : ∀ {s : S} {t : T}, R s t → step s = .done o → Ends step' t o)
    (hr : R s t) (h : Ends step s o) : Ends step' t o := by
  rcases h with ⟨e, hs, hd⟩
  induction hs using Relation.ReflTransGen.head_induction_on generalizing t with
  | refl =>
      exact hdone hr hd
  | head hone hrest ih =>
      rcases hnext hr hone ⟨e, hrest, hd⟩ with ⟨t', ht, hr'⟩
      exact Ends.of_reaches ht (ih hr')

end CilCompiler
