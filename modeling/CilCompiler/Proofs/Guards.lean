import CilCompiler.Proofs.ModuleDrafts

/-!
# Guards

Some errors guard against faults of the compiler itself: a function without a body at the end, a
slot with two kinds, a jump to a target that is not in the schedule, a thunk without an invoker. No
input leads to one of them.

* `ReachesThunk` is the state in which a build comes to the thunk of a method.
* `build_guards_unreachable` says that no build ends with one of these errors.
-/

namespace CilCompiler

open Wasm (Signature)

section Guards

variable {a : Assembly} {o : Options} {t : TypeDef} {m : MethodDef} {signature : Signature}
  {s : BuildState}

/-! ## Failing builds -/

/-- The error of a build lies in the input. -/
theorem not_internal_of_build {failure : Failure} (h : build a o = .error failure) :
    ∃ e, failure.cause = .compile e ∧ e.isInternal = false := by
  rcases build_error h with ⟨tm, -, e, rfl, hdraft | ⟨name, rfl⟩⟩
  · exact ⟨e, rfl, (draftMethod_proper tm.1.name tm.2).not_internal hdraft⟩
  · exact ⟨.duplicateFunction name, rfl, rfl⟩

/-- A method that forwards to the host fails for its types or for the number of its parameters. -/
theorem draftMethod_error_of_isInterop {x : Setting} {declaring : TypeName} {e : CompileError}
    (hinterop : o.isInterop (m.ref declaring).fullName)
    (h : draftMethod x o declaring m = .error e) :
    (∃ type, e = .unsupportedType type) ∨ ∃ name arity limit, e = .arityExceeded name arity limit := by
  unfold draftMethod at h
  cases hsignature : methodSignature m with
  | error e' =>
      rw [hsignature] at h
      cases h
      exact .inl (methodSignature_error hsignature)
  | ok signature =>
      rw [hsignature] at h
      cases hcode : draftCode x o (m.ref declaring).fullName signature m with
      | ok code =>
          simp only [bind, Except.bind, hcode] at h
          cases h
      | error e' =>
          simp only [bind, Except.bind, hcode] at h
          cases h
          unfold draftCode at hcode
          simp only [if_pos hinterop] at hcode
          split at hcode <;> cases hcode
          exact .inr ⟨_, _, _, rfl⟩

/-! ## Thunks -/

/-- The build of `a` comes to the thunk of the method `m` of `t` in the state `s`: the methods before
it are compiled, and its own name is reserved. -/
structure ReachesThunk (a : Assembly) (o : Options) (t : TypeDef) (m : MethodDef)
    (signature : Signature) (s : BuildState) : Prop where
  interop : o.isInterop (m.ref t.name).fullName
  signature : methodSignature m = .ok signature
  reached : ∃ before after s₀ s₁ index, a.methods = before ++ (t, m) :: after ∧
    compileMethods a o before (BuildState.start a o) = (.ok (), s₀) ∧
    Build.run (Build.reserve (m.ref t.name).fullName) s₀ = (.ok index, s₁) ∧
    s = { s₁ with log := s₁.log.push (.compilingThunk (m.ref t.name).fullName) }

/-- What was declared at the start is still there. -/
theorem ReachesThunk.grown (h : ReachesThunk a o t m signature s) :
    (BuildState.start a o).tables.Grows s.tables := by
  rcases h.reached with ⟨before, after, s₀, s₁, index, -, hcompiled, hreserved, rfl⟩
  have hreserve : s₀.tables.Extends s₁.tables :=
    (Build.reserve_ok hreserved).2 ▸ s₀.tables.extends_reserve _
  exact (compileMethods_ok hcompiled).1.trans hreserve.toGrows

/-- In such a state a thunk fails only for the number of its parameters. -/
theorem ReachesThunk.thunk_error (h : ReachesThunk a o t m signature s) {identifier : String}
    {e : CompileError} {s' : BuildState}
    (hrun : Build.run (thunk (m.ref t.name).fullName identifier signature) s = (.error e, s')) :
    e = .arityExceeded (m.ref t.name).fullName signature.params.length Tables.maxInteropArgs := by
  have hends := thunk_endsAs h.grown h.interop identifier signature
  unfold Build.EndsAs at hends
  rw [hrun] at hends
  split at hends
  · cases hends
    rfl
  · cases hends

/-- No build ends with an error that guards against a fault of the compiler: a function that was
asked for and has no body, a slot of two kinds, or a branch target that is missing from the
schedule. A thunk always finds the invoker, so that a method without a host import is never one that
forwards to the host. -/
theorem build_guards_unreachable (a : Assembly) (o : Options) :
    (∀ failure, build a o = .error failure →
      (∀ name, failure.cause ≠ .compile (.missingBody name)) ∧
      (∀ slot existing requested,
        failure.cause ≠ .compile (.slotConflict slot existing requested)) ∧
      ∀ target, failure.cause ≠ .compile (.controlFlow (.unscheduled target))) ∧
    (∀ t m signature s, ReachesThunk a o t m signature s → ∀ identifier s',
      Build.run (thunk (m.ref t.name).fullName
        (Handle.qualified a.name (m.ref t.name).fullName) signature) s ≠
          (.error (.unresolvedImport identifier), s')) ∧
    ∀ name identifier,
      build a o = .error ⟨[.compilingMethod name], .compile (.unresolvedImport identifier)⟩ →
        o.isInterop name = false := by
  refine ⟨?_, ?_, ?_⟩
  · intro failure hfailure
    rcases not_internal_of_build hfailure with ⟨e, hcause, hinternal⟩
    rw [hcause]
    refine ⟨?_, ?_, ?_⟩
    · intro name heq
      cases heq
      cases hinternal
    · intro slot existing requested heq
      cases heq
      cases hinternal
    · intro target heq
      cases heq
      cases hinternal
  · intro t m signature s hreaches identifier s' hrun
    cases hreaches.thunk_error hrun
  · intro name identifier hfailure
    rcases build_error hfailure with ⟨⟨t, m⟩, -, e, heq, hcause⟩
    cases heq
    rcases hcause with hdraft | ⟨name, hname⟩
    · by_contra hinterop
      rw [Bool.not_eq_false] at hinterop
      rcases draftMethod_error_of_isInterop hinterop hdraft with ⟨type, htype⟩ | ⟨n, k, l, harity⟩
      · cases htype
      · cases harity
    · cases hname

end Guards

namespace Counting

/-- Nothing is provided by the host. -/
def unlinked : Options := { bridge := { imports := [] } }

def failure : Failure :=
  ⟨[.compilingMethod "System.Int32 Lib.Counter::Count(System.Int32)"],
    .compile (.unresolvedImport
      "System.Console|System.Void System.Console::WriteLine(System.Int32)")⟩

theorem build_unlinked : build assembly unlinked = .error failure := by
  decide +kernel

theorem reachesThunk : ∃ s, ReachesThunk assembly options type lower ⟨[.i32], some .i32⟩ s := by
  have hcompiled : (compileMethods assembly options [(type, count), (type, constructor)]
      (BuildState.start assembly options)).1 = .ok () := by
    decide +kernel
  rcases hrun : compileMethods assembly options [(type, count), (type, constructor)]
    (BuildState.start assembly options) with ⟨outcome, s₀⟩
  rw [hrun] at hcompiled
  cases hcompiled
  rcases Build.run_reserve (lower.ref type.name).fullName s₀ with ⟨log, hreserved⟩
  exact ⟨_, by decide +kernel, rfl, _, [], s₀, _, _, rfl, hrun, hreserved, rfl⟩

/-- The build without a host fails for a reason of its input, and the build with one finds the
invoker when it comes to its thunk. -/
theorem guards_unreachable :
    (∀ name, failure.cause ≠ .compile (.missingBody name)) ∧
      unlinked.isInterop "System.Int32 Lib.Counter::Count(System.Int32)" = false ∧
      ∃ s, ReachesThunk assembly options type lower ⟨[.i32], some .i32⟩ s ∧
        ∀ identifier s', Build.run (thunk (lower.ref type.name).fullName
          (Handle.qualified assembly.name (lower.ref type.name).fullName)
          ⟨[.i32], some .i32⟩) s ≠ (.error (.unresolvedImport identifier), s') := by
  rcases build_guards_unreachable assembly unlinked with ⟨hcause, -, hown⟩
  rcases build_guards_unreachable assembly options with ⟨-, hthunk, -⟩
  rcases reachesThunk with ⟨s, hs⟩
  exact ⟨(hcause failure build_unlinked).1, hown _ _ build_unlinked, s, hs,
    hthunk type lower _ s hs⟩

end Counting

end CilCompiler
