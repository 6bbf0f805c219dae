import Mathlib.Data.List.Induction
import CilCompiler.Proofs.Acceptance

/-!
# Requests for slots

The variables of a function, its scratch slots and the resume selector share one row of indices and
are asked for in any order. What a slot table answers is determined by the parameters and by the
list of requests that came before.

* `SlotTable.Request` is a request, `SlotTable.after` the table after some of them, failing or not.
* `SlotTable.scratchSlots`, `SlotTable.kindAfter` and `SlotTable.indexAfter` say from the requests
  alone which slots there are, and the kind and the index of each.
* `SlotTable.Records` is the invariant of a run: the table says the same.
* `SlotTable.allocation_after` says how a table answers after any requests.
-/

namespace CilCompiler

namespace SlotTable

open Wasm (ValueKind)

/-! ## Requests -/

/-- A request for a slot with values of some kind. -/
structure Request where
  slot : Slot
  kind : ValueKind
  deriving DecidableEq

/-- The table behind a request. -/
def serve (t : SlotTable) (r : Request) : SlotTable :=
  (t.resolve r.slot r.kind).2

/-- The table after some requests, failing or not. -/
def after (t : SlotTable) (rs : List Request) : SlotTable :=
  rs.foldl serve t

/-- The slots behind the parameters, in the order of their first requests. -/
def scratchSlots (rs : List Request) : List Slot :=
  ((rs.map Request.slot).filter Slot.isScratch).eraseDups

/-- The kind of a slot: a parameter has it from the start, any other slot from its first request. -/
def kindAfter (params : List ValueKind) (rs : List Request) : Slot → Option ValueKind
  | .arg n => params[n.toNat]?
  | slot => (rs.find? (·.slot == slot)).map Request.kind

/-- The index of a slot: the number of a parameter, or else the place behind the parameters. -/
def indexAfter (params : List ValueKind) (rs : List Request) : Slot → Option Nat
  | .arg n => if n.toNat < params.length then some n.toNat else none
  | slot => ((scratchSlots rs).idxOf? slot).map (params.length + ·)

section Requests

variable {params : List ValueKind} {rs : List Request} {r : Request} {slot : Slot}

theorem kindAfter_of_isScratch (h : slot.isScratch) :
    kindAfter params rs slot = (rs.find? (·.slot == slot)).map Request.kind := by
  cases slot with
  | arg n =>
      cases h
  | _ =>
      rfl

theorem indexAfter_of_isScratch (h : slot.isScratch) :
    indexAfter params rs slot = ((scratchSlots rs).idxOf? slot).map (params.length + ·) := by
  cases slot with
  | arg n =>
      cases h
  | _ =>
      rfl

theorem mem_scratchSlots :
    slot ∈ scratchSlots rs ↔ slot ∈ rs.map Request.slot ∧ slot.isScratch := by
  rw [scratchSlots, List.mem_eraseDups, List.mem_filter]

/-- Slots with a kind are those with an index. -/
theorem kindAfter_eq_none_iff :
    kindAfter params rs slot = none ↔ indexAfter params rs slot = none := by
  cases hscratch : slot.isScratch with
  | true =>
      rw [kindAfter_of_isScratch hscratch, indexAfter_of_isScratch hscratch]
      have hmem : slot ∈ scratchSlots rs ↔ slot ∈ rs.map Request.slot := by
        rw [mem_scratchSlots, and_iff_left hscratch]
      simp only [Option.map_eq_none_iff, List.find?_eq_none, List.idxOf?_eq_none_iff, hmem]
      simp
  | false =>
      rcases Slot.exists_arg hscratch with ⟨n, rfl⟩
      simp [kindAfter, indexAfter]

/-! ### One more request -/

/-- A request that is not the first one for a scratch slot adds nothing. -/
theorem concat_of_known (params : List ValueKind)
    (h : r.slot.isScratch → r.slot ∈ rs.map Request.slot) :
    scratchSlots (rs ++ [r]) = scratchSlots rs ∧
      ∀ slot, kindAfter params (rs ++ [r]) slot = kindAfter params rs slot := by
  constructor
  · unfold scratchSlots
    rw [List.map_append, List.filter_append]
    cases hscratch : r.slot.isScratch with
    | true =>
        have hmem : r.slot ∈ (rs.map Request.slot).filter Slot.isScratch :=
          List.mem_filter.2 ⟨h hscratch, hscratch⟩
        simp only [List.map_singleton, List.filter_singleton, hscratch, cond_true]
        rw [Numbering.eraseDups_concat, if_pos hmem]
    | false =>
        simp [hscratch]
  · intro slot
    cases hscratch : slot.isScratch with
    | true =>
        rw [kindAfter_of_isScratch hscratch, kindAfter_of_isScratch hscratch, List.find?_append]
        cases hfind : rs.find? (·.slot == slot) with
        | some first =>
            rfl
        | none =>
            -- a slot that nobody asked for is not the one of the request
            have hne : r.slot ≠ slot := by
              rintro rfl
              rcases List.mem_map.1 (h hscratch) with ⟨r', hr', hslot⟩
              have hother := List.find?_eq_none.1 hfind r' hr'
              simp [hslot] at hother
            simp [hne]
    | false =>
        rcases Slot.exists_arg hscratch with ⟨n, rfl⟩
        rfl

/-- The first request for a scratch slot puts it behind the others, with the kind it asks for. -/
theorem concat_of_new (params : List ValueKind) (hscratch : r.slot.isScratch)
    (h : r.slot ∉ rs.map Request.slot) :
    scratchSlots (rs ++ [r]) = scratchSlots rs ++ [r.slot] ∧
      ∀ slot, kindAfter params (rs ++ [r]) slot =
        if slot = r.slot then some r.kind else kindAfter params rs slot := by
  constructor
  · unfold scratchSlots
    have hnew : r.slot ∉ (rs.map Request.slot).filter Slot.isScratch :=
      fun hmem => h (List.mem_filter.1 hmem).1
    rw [List.map_append, List.filter_append]
    simp only [List.map_singleton, List.filter_singleton, hscratch, cond_true]
    rw [Numbering.eraseDups_concat, if_neg hnew]
  · intro slot
    by_cases heq : slot = r.slot
    · subst heq
      have hnone : rs.find? (·.slot == r.slot) = none := by
        refine List.find?_eq_none.2 fun r' hr' => ?_
        have hne : r'.slot ≠ r.slot := fun heq => h (heq ▸ List.mem_map_of_mem hr')
        simpa using hne
      rw [if_pos rfl, kindAfter_of_isScratch hscratch, List.find?_append, hnone]
      simp
    · rw [if_neg heq]
      cases hother : slot.isScratch with
      | true =>
          have hne : r.slot ≠ slot := Ne.symm heq
          rw [kindAfter_of_isScratch hother, kindAfter_of_isScratch hother, List.find?_append]
          simp [hne]
      | false =>
          rcases Slot.exists_arg hother with ⟨n, rfl⟩
          rfl

end Requests

/-! ## The invariant -/

/-- The table says of every slot what the requests say. -/
structure Records (params : List ValueKind) (rs : List Request) (t : SlotTable) : Prop where
  paramCount : t.paramCount = params.length
  locals : t.locals.map some = (scratchSlots rs).map (kindAfter params rs)
  place (slot : Slot) (i : Nat) (kind : ValueKind) : t.find? slot = some ⟨i, kind⟩ ↔
    indexAfter params rs slot = some i ∧ kindAfter params rs slot = some kind

section Runs

variable {params : List ValueKind} {rs : List Request} {r : Request} {t t' : SlotTable}
  {slot : Slot} {kind : ValueKind} {i : Nat}

theorem Records.length (h : Records params rs t) : t.locals.length = (scratchSlots rs).length := by
  have hlength := congrArg List.length h.locals
  simpa using hlength

/-- The table has a place for the slots that have a kind. -/
theorem Records.find?_eq_none_iff (h : Records params rs t) :
    t.find? slot = none ↔ kindAfter params rs slot = none := by
  constructor
  · intro hnone
    cases hkind : kindAfter params rs slot with
    | none =>
        rfl
    | some kind =>
        cases hindex : indexAfter params rs slot with
        | none =>
            rw [kindAfter_eq_none_iff.2 hindex] at hkind
            cases hkind
        | some i =>
            rw [(h.place slot i kind).2 ⟨hindex, hkind⟩] at hnone
            cases hnone
  · intro hnone
    cases hfind : t.find? slot with
    | none =>
        rfl
    | some place =>
        rw [((h.place slot place.index place.kind).1 hfind).2] at hnone
        cases hnone

theorem Records.find?_eq_none_iff_of_isScratch (h : Records params rs t)
    (hscratch : slot.isScratch) :
    t.find? slot = none ↔ slot ∉ scratchSlots rs := by
  rw [h.find?_eq_none_iff, kindAfter_eq_none_iff, indexAfter_of_isScratch hscratch,
    Option.map_eq_none_iff, List.idxOf?_eq_none_iff]

theorem records_ofParams (hparams : params.length ≤ UInt16.size) :
    Records params [] (ofParams params) where
  paramCount := rfl
  locals := rfl
  place := by
    intro slot i kind
    cases hscratch : slot.isScratch with
    | true =>
        rw [kindAfter_of_isScratch hscratch]
        refine iff_of_false ?_ (by simp)
        intro hfind
        rw [(find?_ofParams hfind).2] at hscratch
        cases hscratch
    | false =>
        rcases Slot.exists_arg hscratch with ⟨n, rfl⟩
        constructor
        · intro hfind
          have hi : i = n.toNat := (wellPlaced_ofParams params).index_arg hparams hfind
          have hkind : params[i]? = some kind := (find?_ofParams hfind).1
          rcases List.getElem?_eq_some_iff.1 hkind with ⟨hlt, -⟩
          subst hi
          exact ⟨if_pos hlt, hkind⟩
        · rintro ⟨hindex, hkind⟩
          have hlt : n.toNat < params.length := (List.getElem?_eq_some_iff.1 hkind).1
          rw [indexAfter, if_pos hlt] at hindex
          cases hindex
          -- the number of a parameter fits, so the one that is found is the one that is meant
          rcases exists_find?_ofParams_iff.2 hlt with ⟨⟨j, kind'⟩, hfind⟩
          have hj : j = n.toNat := (wellPlaced_ofParams params).index_arg hparams hfind
          have hkind' : params[j]? = some kind' := (find?_ofParams hfind).1
          subst hj
          rw [hfind, Option.some.inj (hkind'.symm.trans hkind)]

/-! ## Runs -/

/-- A slot that has a place, or is no slot of the function, is not put into the table. -/
theorem serve_of_known (h : r.slot.isScratch → t.find? r.slot ≠ none) : t.serve r = t := by
  unfold serve
  rcases hr : t.resolve r.slot r.kind with ⟨e | i, t'⟩
  · exact (resolve_error_cases hr).1
  · rcases resolve_cases hr with ⟨-, hsame⟩ | ⟨hnone, hscratch, -⟩
    · exact hsame
    · exact absurd hnone (h hscratch)

/-- A scratch slot without a place gets the next one. -/
theorem resolve_of_new (hscratch : slot.isScratch) (h : t.find? slot = none) :
    t.resolve slot kind = (.ok (t.paramCount + t.locals.length), (t.allocate slot kind).2) := by
  unfold resolve
  rw [h]
  cases slot with
  | arg n =>
      cases hscratch
  | _ =>
      rfl

/-- What a table says after a request is what the requests say with this one. -/
theorem Records.serve (h : Records params rs t) (r : Request) :
    Records params (rs ++ [r]) (t.serve r) := by
  by_cases hknown : r.slot.isScratch → r.slot ∈ rs.map Request.slot
  · -- the request adds nothing on either side
    rcases concat_of_known params hknown with ⟨hslots, hkinds⟩
    have hfound : r.slot.isScratch → t.find? r.slot ≠ none := by
      intro hscratch hnone
      have hmem := mem_scratchSlots.2 ⟨hknown hscratch, hscratch⟩
      exact (h.find?_eq_none_iff_of_isScratch hscratch).1 hnone hmem
    rw [serve_of_known hfound]
    refine ⟨h.paramCount, ?_, ?_⟩
    · rw [hslots, funext hkinds]
      exact h.locals
    · intro slot i kind
      have hindex : indexAfter params (rs ++ [r]) slot = indexAfter params rs slot := by
        cases slot <;> simp only [indexAfter, hslots]
      rw [hkinds, hindex]
      exact h.place slot i kind
  · -- both sides put the slot behind the others
    rcases Classical.not_imp.1 hknown with ⟨hscratch, hnew⟩
    have hslot : r.slot ∉ scratchSlots rs := fun hmem => hnew (mem_scratchSlots.1 hmem).1
    rcases concat_of_new params hscratch hnew with ⟨hslots, hkinds⟩
    have hnone := (h.find?_eq_none_iff_of_isScratch hscratch).2 hslot
    rw [SlotTable.serve, resolve_of_new hscratch hnone]
    refine ⟨h.paramCount, ?_, ?_⟩
    · have hsame : (scratchSlots rs).map (kindAfter params (rs ++ [r])) =
          (scratchSlots rs).map (kindAfter params rs) := by
        refine List.map_congr_left fun slot hmem => ?_
        rw [hkinds, if_neg]
        rintro rfl
        exact hslot hmem
      rw [hslots, List.map_append, hsame, ← h.locals]
      simp [allocate, hkinds]
    · intro slot i kind
      rw [find?_allocate, hkinds]
      by_cases heq : slot = r.slot
      · subst heq
        rw [indexAfter_of_isScratch hscratch, hslots, idxOf?_concat hslot]
        simp [h.length, h.paramCount]
      · have hindex : indexAfter params (rs ++ [r]) slot = indexAfter params rs slot := by
          cases slot <;> simp only [indexAfter, hslots, idxOf?_concat hslot, if_neg heq]
        rw [if_neg heq, if_neg heq, hindex]
        exact h.place slot i kind

/-- After any requests the table says what they say. -/
theorem records_after (hparams : params.length ≤ UInt16.size) (rs : List Request) :
    Records params rs ((ofParams params).after rs) := by
  induction rs using List.reverseRecOn with
  | nil =>
      exact records_ofParams hparams
  | append_singleton rs r ih =>
      rw [after, List.foldl_append]
      exact ih.serve r

theorem grows_serve (t : SlotTable) (r : Request) : t.Grows (t.serve r) := by
  unfold serve
  rcases hr : t.resolve r.slot r.kind with ⟨e | i, t'⟩
  · rw [(resolve_error_cases hr).1]
    exact .refl t
  · exact .single hr

theorem grows_after (t : SlotTable) (rs : List Request) : t.Grows (t.after rs) := by
  induction rs generalizing t with
  | nil =>
      exact .refl t
  | cons r rs ih =>
      exact (grows_serve t r).trans (ih _)

/-! ## Answers -/

/-- A slot that has a place is found there under its own kind, and refused under any other. -/
theorem resolve_of_find? (h : t.find? slot = some ⟨i, kind⟩) (other : ValueKind) :
    t.resolve slot other =
      (if kind = other then .ok i else .error (.slotConflict slot kind other), t) := by
  unfold resolve
  rw [h]
  by_cases heq : kind = other <;> simp [heq]

/-- A request fails if the slot has another kind, or is an argument that is no parameter. -/
theorem Records.resolve_error_iff (h : Records params rs t) :
    (∃ e, (t.resolve slot kind).1 = .error e) ↔
      (∃ other, kindAfter params rs slot = some other ∧ other ≠ kind) ∨
        ∃ n, slot = .arg n ∧ params.length ≤ n.toNat := by
  cases hfind : t.find? slot with
  | some place =>
      rcases place with ⟨i, other⟩
      rcases (h.place slot i other).1 hfind with ⟨hindex, hkind⟩
      have hparam : ¬ ∃ n, slot = .arg n ∧ params.length ≤ n.toNat := by
        rintro ⟨n, rfl, hle⟩
        rw [indexAfter, if_neg (Nat.not_lt.2 hle)] at hindex
        cases hindex
      rw [resolve_of_find? hfind, hkind]
      by_cases heq : other = kind <;> simp [heq, hparam]
  | none =>
      have hkind := h.find?_eq_none_iff.1 hfind
      cases hscratch : slot.isScratch with
      | true =>
          rw [resolve_of_new hscratch hfind]
          refine iff_of_false (by simp) ?_
          rintro (⟨other, hother, -⟩ | ⟨n, rfl, -⟩)
          · cases hkind.symm.trans hother
          · cases hscratch
      | false =>
          rcases Slot.exists_arg hscratch with ⟨n, rfl⟩
          have hle : params.length ≤ n.toNat := List.getElem?_eq_none_iff.1 hkind
          refine iff_of_true ⟨.malformedOperand (.noSuchArgument n t.paramCount), ?_⟩
            (.inr ⟨n, rfl, hle⟩)
          unfold resolve
          rw [hfind]

theorem Records.resolve_param (h : Records params rs t) {n : UInt16}
    (hkind : params[n.toNat]? = some kind) : t.resolve (.arg n) kind = (.ok n.toNat, t) := by
  have hlt : n.toNat < params.length := (List.getElem?_eq_some_iff.1 hkind).1
  have hfind := (h.place (.arg n) n.toNat kind).2 ⟨if_pos hlt, hkind⟩
  rw [resolve_of_find? hfind, if_pos rfl]

/-- A slot that was asked for is found in its place, with the kind that the locals list there. -/
theorem Records.resolve_scratch (h : Records params rs t) {k : Nat}
    (hslot : (scratchSlots rs)[k]? = some slot) :
    ∃ kind, kindAfter params rs slot = some kind ∧ t.locals[k]? = some kind ∧
      t.resolve slot kind = (.ok (params.length + k), t) := by
  have hscratch := (mem_scratchSlots.1 (List.mem_of_getElem? hslot)).2
  have hindex : indexAfter params rs slot = some (params.length + k) := by
    have hplace : (scratchSlots rs).idxOf? slot = some k :=
      (idxOf?_eq_some_iff_of_nodup (Numbering.nodup_eraseDups _)).2 hslot
    rw [indexAfter_of_isScratch hscratch, hplace]
    rfl
  -- the kind that the requests give the slot is the one that the locals list
  have hlocal : (t.locals.map some)[k]? = some (kindAfter params rs slot) := by
    rw [h.locals, List.getElem?_map, hslot]
    rfl
  rw [List.getElem?_map] at hlocal
  rcases Option.map_eq_some_iff.1 hlocal with ⟨kind, hkind, hsame⟩
  have hfind := (h.place slot (params.length + k) kind).2 ⟨hindex, hsame.symm⟩
  refine ⟨kind, hsame.symm, hkind, ?_⟩
  rw [resolve_of_find? hfind, if_pos rfl]

/-- A slot that nobody asked for gets the place behind all others. -/
theorem Records.resolve_new (h : Records params rs t) (hscratch : slot.isScratch)
    (hnew : slot ∉ scratchSlots rs) (kind : ValueKind) :
    ∃ t', t.resolve slot kind = (.ok (params.length + (scratchSlots rs).length), t') ∧
      t'.locals = t.locals ++ [kind] := by
  have hnone := (h.find?_eq_none_iff_of_isScratch hscratch).2 hnew
  refine ⟨(t.allocate slot kind).2, ?_, rfl⟩
  rw [resolve_of_new hscratch hnone, h.length, h.paramCount]

/-- A slot keeps its place whatever is asked for later. -/
theorem find?_after (hr : t.resolve slot kind = (.ok i, t')) (later : List Request) :
    (t'.after later).find? slot = some ⟨i, kind⟩ :=
  find?_of_grows (grows_after _ later) (find?_of_resolve hr)

/-- Two answers name one index if they are about one slot, however far apart they are. -/
theorem WellPlaced.index_eq_iff (h : t.WellPlaced params) {slot' : Slot} {kind' : ValueKind}
    {i' : Nat} {t'' : SlotTable} {later : List Request} (hr : t.resolve slot kind = (.ok i, t'))
    (hr' : (t'.after later).resolve slot' kind' = (.ok i', t'')) : i = i' ↔ slot = slot' := by
  -- the table that gives the second answer still holds the place of the first
  have hplaced := ((h.resolve hr).grows (grows_after _ later)).resolve hr'
  have hfind := find?_resolve_of_find? hr' (find?_after hr later)
  have hfind' := find?_of_resolve hr'
  constructor
  · intro hi
    exact hplaced.injective hfind hfind' hi
  · rintro rfl
    rw [hfind] at hfind'
    exact congrArg Place.index (Option.some.inj hfind')

/-- How a table answers that was made for parameters and then asked for `rs`. -/
structure Allocation (params : List ValueKind) (rs : List Request) (t : SlotTable) : Prop where
  /-- A parameter has its own number as index. -/
  param {n : UInt16} {kind : ValueKind} : params[n.toNat]? = some kind →
    t.resolve (.arg n) kind = (.ok n.toNat, t)
  /-- Slots behind the parameters have consecutive indices in the order of their first requests, and
  the locals list their kinds in this order. -/
  again {k : Nat} {slot : Slot} : (scratchSlots rs)[k]? = some slot →
    ∃ kind, kindAfter params rs slot = some kind ∧ t.locals[k]? = some kind ∧
      t.resolve slot kind = (.ok (params.length + k), t)
  length : t.locals.length = (scratchSlots rs).length
  /-- A slot that is asked for the first time gets the next index. -/
  first {slot : Slot} (kind : ValueKind) : slot.isScratch → slot ∉ scratchSlots rs →
    ∃ t', t.resolve slot kind = (.ok (params.length + (scratchSlots rs).length), t') ∧
      t'.locals = t.locals ++ [kind]
  /-- Whatever is asked for later, a slot keeps its index and its kind. -/
  kept {slot : Slot} {kind : ValueKind} {i : Nat} {t' : SlotTable} :
    t.resolve slot kind = (.ok i, t') → ∀ later other, (t'.after later).resolve slot other =
      (if kind = other then .ok i else .error (.slotConflict slot kind other), t'.after later)
  /-- No two slots share an index. -/
  apart {slot slot' : Slot} {kind kind' : ValueKind} {i i' : Nat} {t' t'' : SlotTable}
    {later : List Request} : t.resolve slot kind = (.ok i, t') →
      (t'.after later).resolve slot' kind' = (.ok i', t'') → (i = i' ↔ slot = slot')
  /-- A request fails for a slot of another kind and for an argument beyond the parameters. -/
  fails_iff {slot : Slot} {kind : ValueKind} : (∃ e, (t.resolve slot kind).1 = .error e) ↔
    (∃ other, kindAfter params rs slot = some other ∧ other ≠ kind) ∨
      ∃ n, slot = .arg n ∧ params.length ≤ n.toNat
  /-- A request that fails leaves the table as it is. -/
  failed {slot : Slot} {kind : ValueKind} {e : CompileError} {t' : SlotTable} :
    t.resolve slot kind = (.error e, t') → t' = t

/-- The slots of a function stay apart whatever is asked for and in whatever order. -/
theorem allocation_after (params : List ValueKind) (hparams : params.length ≤ UInt16.size)
    (rs : List Request) : Allocation params rs ((ofParams params).after rs) := by
  have hrecords := records_after hparams rs
  have hplaced := (wellPlaced_ofParams params).grows (grows_after (ofParams params) rs)
  generalize (ofParams params).after rs = t at hrecords hplaced
  refine
    { param := hrecords.resolve_param
      again := hrecords.resolve_scratch
      length := hrecords.length
      first := fun kind hscratch hnew => hrecords.resolve_new hscratch hnew kind
      kept := ?kept
      apart := hplaced.index_eq_iff
      fails_iff := hrecords.resolve_error_iff
      failed := fun hr => (resolve_error_cases hr).1 }
  case kept =>
    intro slot kind i t' hr later other
    exact resolve_of_find? (find?_after hr later) other

end Runs

/-! ## A row of requests

A local is asked for between scratch slots, twice with its own kind and once with another. -/

namespace Interleaved

def requests : List Request :=
  [⟨.duplicate, .i32⟩, ⟨.loc 3, .i64⟩, ⟨.arg 2, .i32⟩, ⟨.loc 3, .i32⟩, ⟨.arg 1, .f32⟩,
   ⟨.resumeSelector, .i32⟩, ⟨.loc 3, .i64⟩]

theorem stay_apart :
    ([.i32, .f32] : List ValueKind).length ≤ UInt16.size ∧
      Allocation [.i32, .f32] requests ((ofParams [.i32, .f32]).after requests) ∧
      scratchSlots requests = [.duplicate, .loc 3, .resumeSelector] ∧
      ((ofParams [.i32, .f32]).after requests).locals = [.i32, .i64, .i32] := by
  have hparams : ([.i32, .f32] : List ValueKind).length ≤ UInt16.size := by decide
  exact ⟨hparams, allocation_after _ hparams requests, by decide, by decide⟩

end Interleaved

end SlotTable

end CilCompiler
