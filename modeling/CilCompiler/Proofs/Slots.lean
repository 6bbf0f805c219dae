import CilCompiler.Lowering.SlotTable

/-!
# Slots and their places

What a slot table knows after any sequence of requests, starting from the parameters of a function.

* `SlotTable.resolve_cases` says everything that one successful request can do, and
  `SlotTable.resolve_error_cases` when one fails, which then does nothing.
* `SlotTable.resolved` is an answer for those that stop at an error.
* `SlotTable.Grows` is a run of successful requests; places never change in it.
* `SlotTable.WellPlaced` is the invariant of such runs: every slot has an index of the function's
  locals, of its own kind, and no two slots share one.
-/

namespace CilCompiler

open Wasm (ValueKind)

/-- Whether a slot is not a parameter. -/
def Slot.isScratch : Slot → Bool
  | .arg _ => false
  | _ => true

theorem Slot.exists_arg {slot : Slot} (h : slot.isScratch = false) : ∃ n, slot = .arg n := by
  cases slot with
  | arg n =>
      exact ⟨n, rfl⟩
  | _ =>
      simp [Slot.isScratch] at h

namespace SlotTable

variable {t t' t'' : SlotTable} {slot other : Slot} {kind : ValueKind} {i : Nat}
  {params : List ValueKind}

/-! ## One request -/

theorem find?_allocate (t : SlotTable) (slot other : Slot) (kind : ValueKind) :
    (t.allocate slot kind).2.find? other =
      if other = slot then some ⟨t.paramCount + t.locals.length, kind⟩ else t.find? other := by
  by_cases h : other = slot
  · simp [allocate, find?, h]
  · have hb : (other == slot) = false := by simpa using h
    simp [allocate, find?, List.lookup_cons, h, hb]

/-- A request finds the slot where it is, or appends it; parameters are never appended. -/
theorem resolve_cases (h : t.resolve slot kind = (.ok i, t')) :
    (t.find? slot = some ⟨i, kind⟩ ∧ t' = t) ∨
      (t.find? slot = none ∧ slot.isScratch ∧ (i, t') = t.allocate slot kind) := by
  cases hf : t.find? slot with
  | some place =>
      by_cases hk : place.kind = kind
      · have hok : place.index = i ∧ t = t' := by
          simpa [resolve, hf, hk] using h
        rcases hok with ⟨rfl, rfl⟩
        subst hk
        exact Or.inl ⟨rfl, rfl⟩
      · simp [resolve, hf, hk] at h
  | none =>
      cases slot with
      | arg n =>
          simp [resolve, hf] at h
      | _ =>
          simp only [resolve, hf, Prod.mk.injEq, Except.ok.injEq] at h
          exact Or.inr ⟨rfl, rfl, Prod.ext h.1.symm h.2.symm⟩

/-- A request fails for a slot of another kind and for an argument without a place, and leaves the
table as it is. -/
theorem resolve_error_cases {e : CompileError} (h : t.resolve slot kind = (.error e, t')) :
    t' = t ∧ ((∃ place, t.find? slot = some place ∧ place.kind ≠ kind ∧
        e = .slotConflict slot place.kind kind) ∨
      ∃ n, slot = .arg n ∧ t.find? slot = none ∧
        e = .malformedOperand (.noSuchArgument n t.paramCount)) := by
  cases hf : t.find? slot with
  | some place =>
      by_cases hk : place.kind = kind
      · simp [resolve, hf, hk] at h
      · simp only [resolve, hf, if_neg hk, Prod.mk.injEq, Except.error.injEq] at h
        exact ⟨h.2.symm, Or.inl ⟨place, rfl, hk, h.1.symm⟩⟩
  | none =>
      cases slot with
      | arg n =>
          simp only [resolve, hf, Prod.mk.injEq, Except.error.injEq] at h
          exact ⟨h.2.symm, Or.inr ⟨n, rfl, rfl, h.1.symm⟩⟩
      | _ =>
          simp [resolve, hf] at h

/-- The index of a slot with the table behind the request, if there is one. -/
def resolved (t : SlotTable) (slot : Slot) (kind : ValueKind) :
    Except CompileError (Nat × SlotTable) :=
  (t.resolve slot kind).1.map fun index => (index, (t.resolve slot kind).2)

theorem resolved_eq_ok_iff :
    t.resolved slot kind = .ok (i, t') ↔ t.resolve slot kind = (.ok i, t') := by
  unfold resolved
  rcases t.resolve slot kind with ⟨e | j, t''⟩ <;> simp [Except.map]

theorem resolved_eq_error_iff {e : CompileError} :
    t.resolved slot kind = .error e ↔ ∃ t', t.resolve slot kind = (.error e, t') := by
  unfold resolved
  rcases t.resolve slot kind with ⟨e | j, t''⟩ <;> simp [Except.map]

theorem find?_of_resolve (h : t.resolve slot kind = (.ok i, t')) :
    t'.find? slot = some ⟨i, kind⟩ := by
  rcases resolve_cases h with ⟨hf, rfl⟩ | ⟨_, _, heq⟩
  · exact hf
  · have hi : i = t.paramCount + t.locals.length := congrArg Prod.fst heq
    have ht : t' = (t.allocate slot kind).2 := congrArg Prod.snd heq
    rw [ht, find?_allocate, if_pos rfl, hi]

theorem find?_resolve_of_find? {place : Place} (h : t.resolve slot kind = (.ok i, t'))
    (hf : t.find? other = some place) : t'.find? other = some place := by
  rcases resolve_cases h with ⟨_, rfl⟩ | ⟨hnone, _, heq⟩
  · exact hf
  · have ht : t' = (t.allocate slot kind).2 := congrArg Prod.snd heq
    have hne : other ≠ slot := by
      intro he
      rw [he, hnone] at hf
      cases hf
    rw [ht, find?_allocate, if_neg hne, hf]

/-! ## Runs of requests -/

/-- `t'` arises from `t` by successful requests. -/
inductive Grows : SlotTable → SlotTable → Prop
  | refl (t : SlotTable) : Grows t t
  | request {t t' t'' : SlotTable} {slot : Slot} {kind : ValueKind} {i : Nat} :
      Grows t t' → t'.resolve slot kind = (.ok i, t'') → Grows t t''

theorem Grows.trans (h : Grows t t') (h' : Grows t' t'') : Grows t t'' := by
  induction h' with
  | refl =>
      exact h
  | request _ hr ih =>
      exact Grows.request ih hr

theorem Grows.single (h : t.resolve slot kind = (.ok i, t')) : Grows t t' :=
  Grows.request (Grows.refl t) h

theorem find?_of_grows {place : Place} (h : Grows t t') (hf : t.find? slot = some place) :
    t'.find? slot = some place := by
  induction h with
  | refl =>
      exact hf
  | request _ hr ih =>
      exact find?_resolve_of_find? hr ih

/-! ## The invariant -/

/-- How the slots of a function with the given parameters lie in its locals. -/
structure WellPlaced (params : List ValueKind) (t : SlotTable) : Prop where
  paramCount : t.paramCount = params.length
  kind {slot : Slot} {place : Place} :
    t.find? slot = some place → (params ++ t.locals)[place.index]? = some place.kind
  arg {n : UInt16} {place : Place} :
    t.find? (.arg n) = some place → place.index < params.length ∧ place.index.toUInt16 = n
  scratch {slot : Slot} {place : Place} :
    t.find? slot = some place → slot.isScratch → params.length ≤ place.index
  apart {slot other : Slot} {place place' : Place} :
    t.find? slot = some place → t.find? other = some place' → slot.isScratch → other.isScratch →
      place.index = place'.index → slot = other

/-- The places among the parameters from `index` on. -/
theorem mem_placeParams {index : Nat} {placed : List (Slot × Place)} {kinds : List ValueKind}
    {entry : Slot × Place} (h : entry ∈ placeParams index placed kinds) :
    entry ∈ placed ∨
      ∃ k, kinds[k]? = some entry.2.kind ∧ entry.2.index = index + k ∧
        entry.1 = .arg (index + k).toUInt16 := by
  induction kinds generalizing index placed with
  | nil =>
      exact Or.inl h
  | cons kind kinds ih =>
      rcases ih h with hin | ⟨k, hk, hi, hs⟩
      · rcases List.mem_cons.1 hin with rfl | hin
        · exact Or.inr ⟨0, by simp, by simp, by simp⟩
        · exact Or.inl hin
      · refine Or.inr ⟨k + 1, by simpa using hk, by omega, ?_⟩
        rw [hs]
        congr 2
        omega

theorem find?_ofParams {place : Place} (h : (ofParams params).find? slot = some place) :
    params[place.index]? = some place.kind ∧ slot = .arg place.index.toUInt16 := by
  rcases List.lookup_eq_some_iff.1 h with ⟨front, back, heq, _⟩
  have hmem : (slot, place) ∈ placeParams 0 [] params := by
    have hplaces : placeParams 0 [] params = front ++ (slot, place) :: back := heq
    simp [hplaces]
  rcases mem_placeParams hmem with hnil | ⟨k, hk, hi, hs⟩
  · simp at hnil
  · have hik : place.index = k := by simpa using hi
    subst hik
    exact ⟨hk, by simpa using hs⟩

theorem wellPlaced_ofParams (params : List ValueKind) : WellPlaced params (ofParams params) where
  paramCount := rfl
  kind := by
    intro slot place h
    have hk := (find?_ofParams h).1
    simpa [ofParams] using hk
  arg := by
    intro n place h
    rcases find?_ofParams h with ⟨hk, hs⟩
    rcases List.getElem?_eq_some_iff.1 hk with ⟨hlt, _⟩
    exact ⟨hlt, (Slot.arg.inj hs).symm⟩
  scratch := by
    intro slot place h hscratch
    rw [(find?_ofParams h).2] at hscratch
    cases hscratch
  apart := by
    intro slot other place place' h _ hscratch _ _
    rw [(find?_ofParams h).2] at hscratch
    cases hscratch

theorem WellPlaced.allocate (hw : WellPlaced params t) (hscratch : slot.isScratch)
    (kind : ValueKind) : WellPlaced params (t.allocate slot kind).2 := by
  -- The new index lies behind all indices that are in use.
  have hlt : ∀ {s : Slot} {p : Place}, t.find? s = some p →
      p.index < params.length + t.locals.length := by
    intro s p hp
    rcases List.getElem?_eq_some_iff.1 (hw.kind hp) with ⟨h, _⟩
    simpa using h
  have hlocals : (t.allocate slot kind).2.locals = t.locals ++ [kind] := rfl
  refine ⟨hw.paramCount, ?_, ?_, ?_, ?_⟩
  · intro s p hp
    rw [find?_allocate] at hp
    by_cases hs : s = slot
    · rw [if_pos hs] at hp
      cases hp
      simp [hlocals, hw.paramCount]
    · rw [if_neg hs] at hp
      rw [hlocals, ← List.append_assoc, List.getElem?_append_left (by simpa using hlt hp)]
      exact hw.kind hp
  · intro n p hp
    have hne : Slot.arg n ≠ slot := by
      intro h
      rw [← h] at hscratch
      cases hscratch
    rw [find?_allocate, if_neg hne] at hp
    exact hw.arg hp
  · intro s p hp hs
    rw [find?_allocate] at hp
    by_cases he : s = slot
    · rw [if_pos he] at hp
      cases hp
      simp [hw.paramCount]
    · rw [if_neg he] at hp
      exact hw.scratch hp hs
  · intro s o p p' hp hp' hs ho hi
    rw [find?_allocate] at hp hp'
    by_cases he : s = slot <;> by_cases he' : o = slot
    · exact he.trans he'.symm
    · rw [if_pos he] at hp
      rw [if_neg he'] at hp'
      have hl := hlt hp'
      cases hp
      have hc := hw.paramCount
      simp only at hi
      omega
    · rw [if_neg he] at hp
      rw [if_pos he'] at hp'
      have hl := hlt hp
      cases hp'
      have hc := hw.paramCount
      simp only at hi
      omega
    · rw [if_neg he] at hp
      rw [if_neg he'] at hp'
      exact hw.apart hp hp' hs ho hi

theorem WellPlaced.resolve (hw : WellPlaced params t) (h : t.resolve slot kind = (.ok i, t')) :
    WellPlaced params t' := by
  rcases resolve_cases h with ⟨_, rfl⟩ | ⟨_, hscratch, heq⟩
  · exact hw
  · have ht : t' = (t.allocate slot kind).2 := congrArg Prod.snd heq
    rw [ht]
    exact hw.allocate hscratch kind

theorem WellPlaced.grows (hw : WellPlaced params t) (h : Grows t t') : WellPlaced params t' := by
  induction h with
  | refl =>
      exact hw
  | request _ hr ih =>
      exact ih.resolve hr

/-! ## Consequences -/

namespace WellPlaced

variable {place place' : Place}

theorem index_lt (hw : WellPlaced params t) (h : t.find? slot = some place) :
    place.index < params.length + t.locals.length := by
  rcases List.getElem?_eq_some_iff.1 (hw.kind h) with ⟨hlt, _⟩
  simpa using hlt

/-- Two slots with one index are the same slot. -/
theorem injective (hw : WellPlaced params t) (h : t.find? slot = some place)
    (h' : t.find? other = some place') (hi : place.index = place'.index) : slot = other := by
  have hparam : ∀ {n : UInt16} {s : Slot} {p q : Place}, t.find? (.arg n) = some p →
      t.find? s = some q → s.isScratch → p.index ≠ q.index := by
    intro n s p q hp hq hs he
    have hlt := (hw.arg hp).1
    have hle := hw.scratch hq hs
    omega
  cases hs : slot.isScratch with
  | true =>
      cases ho : other.isScratch with
      | true =>
          exact hw.apart h h' hs ho hi
      | false =>
          rcases Slot.exists_arg ho with ⟨n, rfl⟩
          exact absurd hi.symm (hparam h' h hs)
  | false =>
      rcases Slot.exists_arg hs with ⟨n, rfl⟩
      cases ho : other.isScratch with
      | true =>
          exact absurd hi (hparam h h' ho)
      | false =>
          rcases Slot.exists_arg ho with ⟨m, rfl⟩
          rw [← (hw.arg h).2, ← (hw.arg h').2, hi]

/-- A parameter whose number fits sixteen bits has that number as its index. -/
theorem index_arg {n : UInt16} (hw : WellPlaced params t) (hp : params.length ≤ UInt16.size)
    (h : t.find? (.arg n) = some place) : place.index = n.toNat := by
  rcases hw.arg h with ⟨hlt, hn⟩
  have hmod : n.toNat = place.index % UInt16.size := by
    rw [← hn]
    simp [UInt16.size]
  rw [hmod, Nat.mod_eq_of_lt (by omega)]

end WellPlaced

end SlotTable

end CilCompiler
