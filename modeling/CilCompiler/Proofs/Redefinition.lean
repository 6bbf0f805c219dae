import CilCompiler.Image.Binary
import CilCompiler.Proofs.Exports
import CilCompiler.Proofs.Requests

/-!
# Functions that are defined again

A function can be completed once. The tables find out that it is complete only behind the requests
for its name and its signature, and so a definition that is refused still leaves a signature behind.
It leaves nothing else, and nothing but the order of the type table can ever show it.

* `Tables.Numbered` says that completed functions have an index; it holds whatever was asked for.
* `Tables.define_refused` says that a refused definition is a request for its signature.
* `Tables.untyped` forgets the type table. `Tables.answers_of_untyped` and
  `Tables.finish_of_untyped` say that other answers and the finished module do not see it.
-/

namespace CilCompiler

open Wasm (Signature)

/-- The definition without the place of its signature in the type table. -/
def Definition.untyped (d : Definition) : Definition := { d with type := 0 }

/-- The image without its type table. -/
def Image.untyped (image : Image) : Image :=
  { image with types := [], functions := image.functions.map Definition.untyped }

namespace Tables

variable {t t' : Tables} {f : Function} {e : CompileError}

/-! ## Completed functions have an index -/

/-- Every completed function has an index. -/
def Numbered (t : Tables) : Prop :=
  ∀ d ∈ t.definitions, d.function.name ∈ t.functions.keys

theorem Numbered.serve (h : t.Numbered) (r : Request) : (r.serve t).2.Numbered := by
  intro d hd
  have hold : d ∈ t.definitions → d.function.name ∈ (r.serve t).2.functions.keys :=
    fun hmem => (grows_serve t r).functions.subset (h d hmem)
  cases r with
  | define f =>
      rw [Request.serve, define_snd] at hd
      rcases List.mem_append.1 hd with hmem | hnew
      · exact hold hmem
      · split at hnew
        · cases hnew
        · cases List.mem_singleton.1 hnew
          rw [Request.serve, define_snd]
          exact Numbering.mem_keys_request
  | _ =>
      exact hold hd

theorem Numbered.after (h : t.Numbered) (rs : List Request) : (t.after rs).Numbered := by
  induction rs generalizing t with
  | nil =>
      exact h
  | cons r rs ih =>
      exact ih (h.serve r)

theorem numbered_ofBridge (bridge : Host.Bridge) (withInterop : Bool) :
    (ofBridge bridge withInterop).Numbered := by
  intro d hd
  rw [(provides_ofBridge bridge withInterop).definitions] at hd
  cases hd

/-! ## Refused definitions -/

theorem define_error_iff : (t.define f).1 = .error e ↔
    t.isDefined f.name ∧ e = .duplicateFunction f.name := by
  rw [define_eq]
  by_cases hd : t.isDefined f.name
  · simp [hd, eq_comm]
  · simp [hd]

/-- The name of a completed function has its index already, so what is left is the signature. -/
theorem prepared_of_isDefined (h : t.Numbered) (hd : t.isDefined f.name) :
    t.prepared f = (t.intern f.signature).2 := by
  rcases List.any_eq_true.1 hd with ⟨d, hmem, hname⟩
  have hkey : f.name ∈ t.functions.keys := beq_iff_eq.1 hname ▸ h d hmem
  have hreserve : (t.reserve f.name).2 = t := by
    change { t with functions := (t.functions.request f.name).2 } = t
    rw [Numbering.request_of_mem hkey]
  rw [prepared, hreserve]

theorem define_refused (h : t.Numbered) (hd : t.isDefined f.name) :
    (t.define f).2 = (t.intern f.signature).2 := by
  rw [define_eq, if_pos hd]
  exact prepared_of_isDefined h hd

theorem intern_eq_self_iff {signature : Signature} :
    (t.intern signature).2 = t ↔ signature ∈ t.types.keys := by
  constructor
  · intro h
    have hmem : signature ∈ (t.intern signature).2.types.keys := Numbering.mem_keys_request
    rwa [h] at hmem
  · intro h
    change { t with types := (t.types.request signature).2 } = t
    rw [Numbering.request_of_mem h]

/-! ## Forgetting the type table -/

/-- The tables without the type table. -/
def untyped (t : Tables) : Tables :=
  { t with types := {}, definitions := t.definitions.map Definition.untyped }

theorem untyped_intern (t : Tables) (signature : Signature) :
    (t.intern signature).2.untyped = t.untyped := rfl

theorem isDefined_untyped (t : Tables) (name : String) :
    t.untyped.isDefined name = t.isDefined name := by
  simp [isDefined, untyped, Definition.untyped, Function.comp_def]

/-- What a request does to the other tables does not depend on the type table. -/
theorem untyped_serve (t : Tables) (r : Request) :
    (r.serve t).2.untyped = (r.serve t.untyped).2.untyped := by
  cases r with
  | define f =>
      rw [Request.serve, Request.serve, define_snd, define_snd, isDefined_untyped]
      cases t.isDefined f.name <;>
        simp [untyped, Definition.untyped, prepared, reserve, intern]
  | _ =>
      simp [Request.serve, untyped, Definition.untyped, reserve, global, intern]

/-- Only the index of a signature depends on the type table. -/
theorem answer_untyped (t : Tables) {r : Request} (hr : ∀ signature, r ≠ .intern signature) :
    (r.serve t.untyped).1 = (r.serve t).1 := by
  cases r with
  | intern signature =>
      exact absurd rfl (hr signature)
  | define f =>
      simp only [Request.serve, define_eq, isDefined_untyped]
      cases t.isDefined f.name <;> rfl
  | _ =>
      rfl

section Untyped

variable (h : t.untyped = t'.untyped)
include h

theorem serve_of_untyped (r : Request) : (r.serve t).2.untyped = (r.serve t').2.untyped := by
  rw [untyped_serve t, untyped_serve t', h]

theorem after_of_untyped (rs : List Request) : (t.after rs).untyped = (t'.after rs).untyped := by
  induction rs generalizing t t' with
  | nil =>
      exact h
  | cons r rs ih =>
      exact ih (serve_of_untyped h r)

/-- Tables that differ only in their type tables give the same answers to all requests but those
for signatures. -/
theorem answers_of_untyped {rs : List Request} {k : Nat} {r : Request} (hr : rs[k]? = some r)
    (hne : ∀ signature, r ≠ .intern signature) : (t.answers rs)[k]? = (t'.answers rs)[k]? := by
  rw [getElem?_answers, getElem?_answers, hr, Option.map_some, Option.map_some,
    ← answer_untyped _ hne, ← answer_untyped (t'.after _) hne, after_of_untyped h]

end Untyped

theorem finish_untyped (t : Tables) : t.untyped.finish = t.finish.map Image.untyped := by
  have hkeys : t.untyped.functions.keys.mapM t.untyped.definition =
      (t.functions.keys.mapM t.definition).map (List.map Definition.untyped) :=
    mapM_definition_of_map (g := Definition.untyped) (fun _ => rfl) rfl t.functions.keys
  unfold finish
  rw [hkeys]
  cases t.functions.keys.mapM t.definition with
  | error e =>
      rfl
  | ok functions =>
      rfl

/-- What is finished behind more requests differs only in the type table. -/
theorem finish_of_untyped (h : t.untyped = t'.untyped) (rs : List Request) :
    (t.after rs).finish.map Image.untyped = (t'.after rs).finish.map Image.untyped := by
  rw [← finish_untyped, ← finish_untyped, after_of_untyped h]

/-! ## The outcome -/

/-- What happens when the tables `t` refuse a definition of `f` with the error `e`. -/
structure Refused (t : Tables) (f : Function) (e : CompileError) : Prop where
  /-- The function is complete already. -/
  cause : t.isDefined f.name ∧ e = .duplicateFunction f.name
  /-- The signature is asked for; all other tables stay as they are. -/
  tables : (t.define f).2 = { t with types := (t.types.request f.signature).2 }
  /-- Nothing changes at all exactly if the signature was known. -/
  unchanged : (t.define f).2 = t ↔ f.signature ∈ t.types.keys
  /-- Later answers are those without the definition, but for the indices of signatures. -/
  answers {later : List Request} {k : Nat} {r : Request} : later[k]? = some r →
    (∀ signature, r ≠ .intern signature) →
      ((t.define f).2.answers later)[k]? = (t.answers later)[k]?
  /-- The module that is finished later is that without the definition, but for the type table. -/
  finish (later : List Request) : ((t.define f).2.after later).finish.map Image.untyped =
    (t.after later).finish.map Image.untyped

/-- Whatever was asked for before, a definition that is refused does no more than a request for its
signature would do. -/
theorem refused_after {bridge : Host.Bridge} {withInterop : Bool} {rs : List Request}
    (h : (((ofBridge bridge withInterop).after rs).define f).1 = .error e) :
    Refused ((ofBridge bridge withInterop).after rs) f e := by
  have hnumbered := (numbered_ofBridge bridge withInterop).after rs
  generalize (ofBridge bridge withInterop).after rs = t at h hnumbered ⊢
  have hcause := define_error_iff.1 h
  have htables := define_refused hnumbered hcause.1
  have huntyped : (t.define f).2.untyped = t.untyped := htables ▸ untyped_intern t f.signature
  exact
    { cause := hcause
      tables := htables
      unchanged := htables ▸ intern_eq_self_iff
      answers := answers_of_untyped huntyped
      finish := finish_of_untyped huntyped }

namespace Twice

/-- Two definitions of one name, the second one with a signature that is new. -/
def first : Function := ⟨"f", ⟨[], none⟩, [], [.close], none⟩

def second : Function := ⟨"f", ⟨[.i64], none⟩, [], [.close], none⟩

def tables : Tables := (ofBridge {} false).after [.define first]

theorem second_refused :
    (tables.define second).1 = .error (.duplicateFunction "f") ∧
      Refused tables second (.duplicateFunction "f") := by
  have h : (tables.define second).1 = .error (.duplicateFunction "f") := by decide +kernel
  exact ⟨h, refused_after h⟩

/-- The refused definition changes the type table, the index of the next signature and the binary
form of the module. -/
theorem leaves_signature :
    (tables.define second).1 = .error (.duplicateFunction "f") ∧ (tables.define second).2 ≠ tables ∧
      (tables.define second).2.answers [.intern ⟨[.f32], none⟩] ≠
        tables.answers [.intern ⟨[.f32], none⟩] ∧
      (tables.define second).2.finish.toOption.map Image.encode ≠
        tables.finish.toOption.map Image.encode := by
  decide +kernel

end Twice

end Tables

end CilCompiler
