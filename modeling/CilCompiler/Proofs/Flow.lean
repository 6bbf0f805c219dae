import Mathlib.Data.List.Sort
import Mathlib.Data.List.TakeWhile
import CilCompiler.Lowering.Schedule

/-!
# Schedules and the walk over a body

* `Schedule.targets_sublist` says what a successful analysis promises: offsets ascend, and the
  schedule is a selection of them in the same order.
* `Cursor.Stands` is the invariant of the walk: the entries behind the cursor lie before the
  instructions that are left, the entries ahead of it are among them.
* `Cursor.Stands.advance` is the step: one region closes at an instruction that is a target, and
  none at any other.
-/

namespace CilCompiler

/-- The offsets of instructions. -/
abbrev offsets (is : List Instruction) : List UInt32 := is.map Instruction.offset

namespace Schedule

/-! ## Analysis -/

theorem mem_insert {x target : UInt32} {ts : List UInt32} :
    x ∈ insert target ts ↔ x = target ∨ x ∈ ts := by
  induction ts with
  | nil =>
      simp [insert]
  | cons t ts ih =>
      by_cases hlt : target < t
      · simp [insert, hlt]
      · by_cases heq : target = t
        · simp [insert, heq]
        · simp only [insert, hlt, heq, if_false, List.mem_cons, ih]
          constructor
          · rintro (h | h | h)
            · exact Or.inr (Or.inl h)
            · exact Or.inl h
            · exact Or.inr (Or.inr h)
          · rintro (h | h | h)
            · exact Or.inr (Or.inl h)
            · exact Or.inl h
            · exact Or.inr (Or.inr h)

theorem pairwise_insert (target : UInt32) {ts : List UInt32} (h : ts.Pairwise (· < ·)) :
    (insert target ts).Pairwise (· < ·) := by
  induction ts with
  | nil =>
      simp [insert]
  | cons t ts ih =>
      rcases List.pairwise_cons.1 h with ⟨hhead, htail⟩
      by_cases hlt : target < t
      · simp only [insert, hlt, if_true]
        refine List.pairwise_cons.2 ⟨?_, h⟩
        intro x hx
        rcases List.mem_cons.1 hx with rfl | hx
        · exact hlt
        · exact UInt32.lt_trans hlt (hhead x hx)
      · by_cases heq : target = t
        · simpa [insert, heq] using h
        · simp only [insert, hlt, heq, if_false]
          refine List.pairwise_cons.2 ⟨?_, ih htail⟩
          intro x hx
          rcases mem_insert.1 hx with rfl | hx
          · exact UInt32.lt_of_le_of_ne (UInt32.not_lt.1 hlt) (Ne.symm heq)
          · exact hhead x hx

theorem pairwise_foldl_insert (ts : List UInt32) {found : List UInt32}
    (h : found.Pairwise (· < ·)) :
    (ts.foldl (fun found t => insert t found) found).Pairwise (· < ·) := by
  induction ts generalizing found with
  | nil =>
      exact h
  | cons t ts ih =>
      exact ih (pairwise_insert t h)

theorem pairwise_collect {is : List Instruction} {found targets : List UInt32}
    (h : collect found is = .ok targets) (hf : found.Pairwise (· < ·)) :
    targets.Pairwise (· < ·) := by
  induction is generalizing found with
  | nil =>
      have heq : found = targets := by simpa [collect] using h
      exact heq ▸ hf
  | cons i is ih =>
      cases ht : targetsOf i with
      | error e =>
          simp [collect, ht] at h
      | ok ts =>
          have hrest : collect (ts.foldl (fun found t => insert t found) found) is =
              .ok targets := by
            simpa [collect, ht] using h
          exact ih hrest (pairwise_foldl_insert ts hf)

theorem pairwise_offsets {is : List Instruction} (h : firstDescent? is = none) :
    (offsets is).Pairwise (· < ·) := by
  induction is with
  | nil =>
      simp
  | cons i is ih =>
      cases is with
      | nil =>
          simp
      | cons j is =>
          by_cases hle : j.offset ≤ i.offset
          · simp [firstDescent?, hle] at h
          · have hrest : firstDescent? (j :: is) = none := by
              simpa [firstDescent?, hle] using h
            have htail := ih hrest
            have hij : i.offset < j.offset := UInt32.not_le.1 hle
            refine List.pairwise_cons.2 ⟨?_, htail⟩
            intro x hx
            rcases List.mem_cons.1 hx with rfl | hx
            · exact hij
            · exact UInt32.lt_trans hij ((List.pairwise_cons.1 htail).1 x hx)

variable {body : MethodBody} {s : Schedule}

/-- A body with a schedule has ascending offsets, and the targets are all among them. -/
theorem analyze_ok (h : analyze body = .ok s) :
    (offsets body.instructions).Pairwise (· < ·) ∧ s.targets.Pairwise (· < ·) ∧
      ∀ t ∈ s.targets, t ∈ offsets body.instructions := by
  unfold analyze at h
  cases hr : body.regions with
  | cons region regions =>
      simp [hr] at h
  | nil =>
      cases hd : firstDescent? body.instructions with
      | some offset =>
          simp [hr, hd] at h
      | none =>
          cases hc : collect [] body.instructions with
          | error e =>
              simp [hr, hd, hc] at h
          | ok targets =>
              cases hm : targets.find? (fun t => !body.instructions.any (·.offset == t)) with
              | some t =>
                  simp [hr, hd, hc, hm] at h
              | none =>
                  have hs : (⟨targets⟩ : Schedule) = s := by simpa [hr, hd, hc, hm] using h
                  subst hs
                  refine ⟨pairwise_offsets hd, pairwise_collect hc List.Pairwise.nil, ?_⟩
                  intro t ht
                  have hany := List.find?_eq_none.1 hm t ht
                  simpa using hany

/-- Ascending numbers are at least as large as their places. -/
theorem le_toNat_of_pairwise {ts : List UInt32} (h : ts.Pairwise (· < ·)) {t : Nat} {q : UInt32}
    (hq : ts[t]? = some q) : t ≤ q.toNat := by
  induction t generalizing q with
  | zero =>
      exact Nat.zero_le _
  | succ t ih =>
      rcases List.getElem?_eq_some_iff.1 hq with ⟨hlt, rfl⟩
      have hprev := ih (List.getElem?_eq_getElem (Nat.lt_of_succ_lt hlt))
      have hstep := List.pairwise_iff_getElem.1 h t (t + 1) (Nat.lt_of_succ_lt hlt) hlt
        (Nat.lt_succ_self t)
      exact Nat.lt_of_le_of_lt hprev (UInt32.lt_iff_toNat_lt.1 hstep)

theorem targets_sublist (h : analyze body = .ok s) :
    s.targets.Sublist (offsets body.instructions) := by
  rcases analyze_ok h with ⟨hoffsets, htargets, hmem⟩
  have hsub : s.targets.Subperm (offsets body.instructions) := by
    refine List.subperm_of_subset ?_ hmem
    exact htargets.imp fun hlt heq => UInt32.ne_of_lt hlt heq
  exact List.sublist_of_subperm_of_pairwise (r := fun x y : UInt32 => x ≤ y) hsub
    (htargets.imp UInt32.le_of_lt) (hoffsets.imp UInt32.le_of_lt)

end Schedule

/-! ## The walk -/

namespace Cursor

variable {c : Cursor} {i : Instruction} {is : List Instruction}

/-- The cursor stands right before the instructions `is`. -/
structure Stands (c : Cursor) (is : List Instruction) : Prop where
  ascending : (offsets is).Pairwise (· < ·)
  bound : c.next ≤ c.schedule.size
  /-- The regions that are open close at instructions that are left. -/
  ahead : (c.schedule.targets.drop c.next).Sublist (offsets is)
  /-- The regions that are closed closed before all of them. -/
  behind : ∀ t ∈ c.schedule.targets.take c.next, ∀ i ∈ is, t < i.offset

theorem stands_start {body : MethodBody} {s : Schedule} (h : Schedule.analyze body = .ok s) :
    Stands { schedule := s } body.instructions where
  ascending := (Schedule.analyze_ok h).1
  bound := Nat.zero_le _
  ahead := by simpa using Schedule.targets_sublist h
  behind := by simp

/-- No region is open behind the last instruction. -/
theorem Stands.openRegions_nil (h : Stands c []) : c.openRegions = 0 := by
  have hnil : c.schedule.targets.drop c.next = [] := List.sublist_nil.1 h.ahead
  have hlen := congrArg List.length hnil
  simpa [openRegions, Schedule.size] using hlen

theorem takeWhile_le_eq_nil {offset : UInt32} {ts : List UInt32} (h : ∀ t ∈ ts, offset < t) :
    ts.takeWhile (· ≤ offset) = [] := by
  cases ts with
  | nil =>
      rfl
  | cons t ts =>
      have hnle : ¬ t ≤ offset := UInt32.not_le.2 (h t (by simp))
      simp [hnle]

/-- All open regions close later: the cursor stays where it is. -/
theorem Stands.advance_later (h : Stands c (i :: is))
    (hlate : (c.schedule.targets.drop c.next).Sublist (offsets is)) :
    Stands (c.advance i.offset) is ∧ i.offset ∉ c.schedule.targets ∧ c.closing i.offset = 0 := by
  rcases List.pairwise_cons.1 h.ascending with ⟨hlater, hascending⟩
  have hclosing : c.closing i.offset = 0 := by
    simp [closing, takeWhile_le_eq_nil fun t ht => hlater t (hlate.subset ht)]
  have hstay : c.advance i.offset = c := by simp [Cursor.advance, hclosing]
  refine ⟨?_, ?_, hclosing⟩
  · rw [hstay]
    exact ⟨hascending, h.bound, hlate, fun t ht j hj => h.behind t ht j (List.mem_cons_of_mem i hj)⟩
  · intro hmem
    rw [← List.take_append_drop c.next c.schedule.targets, List.mem_append] at hmem
    rcases hmem with hmem | hmem
    · exact UInt32.lt_irrefl _ (h.behind _ hmem i (by simp))
    · exact UInt32.lt_irrefl _ (hlater _ (hlate.subset hmem))

/-- The innermost region closes here and the others later: the cursor moves by one entry. -/
theorem Stands.advance_here {ts : List UInt32} (h : Stands c (i :: is))
    (hd : c.schedule.targets.drop c.next = i.offset :: ts) (hts : ts.Sublist (offsets is)) :
    Stands (c.advance i.offset) is ∧ c.closing i.offset = 1 ∧
      c.schedule.targets[c.next]? = some i.offset := by
  rcases List.pairwise_cons.1 h.ascending with ⟨hlater, hascending⟩
  have hclosing : c.closing i.offset = 1 := by
    simp [closing, hd, takeWhile_le_eq_nil fun t ht => hlater t (hts.subset ht)]
  have hget : c.schedule.targets[c.next]? = some i.offset := by
    have hzero : (c.schedule.targets.drop c.next)[0]? = some i.offset := by simp [hd]
    simpa using hzero
  rcases List.getElem?_eq_some_iff.1 hget with ⟨hlt, hval⟩
  refine ⟨⟨hascending, ?_, ?_, ?_⟩, hclosing, hget⟩
  · have hsucc : c.next + 1 ≤ c.schedule.targets.length := hlt
    simpa [Cursor.advance, hclosing, Schedule.size] using hsucc
  · have hdrop : c.schedule.targets.drop (c.next + 1) = ts := by
      rw [← List.drop_drop, hd, List.drop_one, List.tail_cons]
    simpa [Cursor.advance, hclosing, hdrop] using hts
  · intro t ht j hj
    have hone : t ∈ c.schedule.targets.take (c.next + 1) := by
      simpa [Cursor.advance, hclosing] using ht
    rw [List.take_succ_eq_append_getElem hlt, hval, List.mem_append] at hone
    rcases hone with hold | hnew
    · exact h.behind t hold j (List.mem_cons_of_mem i hj)
    · have heq : t = i.offset := by simpa using hnew
      exact heq ▸ hlater j.offset (List.mem_map_of_mem hj)

/-- What moving to the next instruction does: it closes one region if the instruction is a target,
and none otherwise. -/
theorem Stands.advance (h : Stands c (i :: is)) :
    Stands (c.advance i.offset) is ∧
      ((i.offset ∈ c.schedule.targets ∧ c.closing i.offset = 1 ∧
          c.schedule.targets[c.next]? = some i.offset) ∨
        (i.offset ∉ c.schedule.targets ∧ c.closing i.offset = 0)) := by
  have hahead : (c.schedule.targets.drop c.next).Sublist (i.offset :: offsets is) := h.ahead
  rcases List.sublist_cons_iff.1 hahead with hlate | ⟨ts, hd, hts⟩
  · rcases h.advance_later hlate with ⟨hstands, hmem, hclosing⟩
    exact ⟨hstands, Or.inr ⟨hmem, hclosing⟩⟩
  · rcases h.advance_here hd hts with ⟨hstands, hclosing, hget⟩
    exact ⟨hstands, Or.inl ⟨List.mem_of_getElem? hget, hclosing, hget⟩⟩

/-- No region that is closed at an instruction belongs to a later one. -/
theorem Stands.le_offset (h : Stands c (i :: is)) :
    ∀ t ∈ c.schedule.targets.take (c.advance i.offset).next, t ≤ i.offset := by
  intro t ht
  rw [Cursor.advance, List.take_add] at ht
  rcases List.mem_append.1 ht with hold | hnew
  · exact UInt32.le_of_lt (h.behind t hold i (by simp))
  · rw [closing, ← List.prefix_iff_eq_take.1 (List.takeWhile_prefix _)] at hnew
    simpa using List.mem_takeWhile_imp hnew

/-! ## Reaching a target -/

/-- What is known of the way to a target: where the target stands in the schedule, and on which
side of the cursor. -/
theorem reach_cases {target : UInt32} {r : Reach} (h : c.reach target = .ok r) :
    ∃ t, c.schedule.targets[t]? = some target ∧
      ((c.next ≤ t ∧ r = .forward (t - c.next)) ∨
        (t < c.next ∧ r = .backward (t + 1) c.openRegions)) := by
  unfold reach Schedule.position at h
  cases ht : c.schedule.targets.idxOf? target with
  | none =>
      simp [ht] at h
  | some t =>
      have hget : c.schedule.targets[t]? = some target := by
        rcases List.idxOf?_eq_some_iff.1 ht with ⟨hlt, hval, _⟩
        simp [List.getElem?_eq_getElem hlt, hval]
      by_cases hle : c.next ≤ t
      · have hr : Reach.forward (t - c.next) = r := by simpa [ht, hle] using h
        exact ⟨t, hget, Or.inl ⟨hle, hr.symm⟩⟩
      · have hr : Reach.backward (t + 1) c.openRegions = r := by simpa [ht, hle] using h
        exact ⟨t, hget, Or.inr ⟨by omega, hr.symm⟩⟩

/-- The number that a jump backwards stores fits into a word, but for one jump: the one from the
last offset of all to itself. -/
theorem resume_lt {target offset : UInt32} {resume label : Nat}
    (hascending : c.schedule.targets.Pairwise (· < ·))
    (hpast : ∀ t ∈ c.schedule.targets.take c.next, t ≤ offset)
    (h : c.reach target = .ok (.backward resume label)) :
    resume < UInt32.size ∨ target = offset := by
  rcases reach_cases h with ⟨t, ht, ⟨_, hr⟩ | ⟨hlt, hr⟩⟩
  · cases hr
  · cases hr
    have hplace := Schedule.le_toNat_of_pairwise hascending ht
    have hle : target ≤ offset := hpast target (List.mem_of_getElem? (i := t) (by simp [hlt, ht]))
    have hle' := UInt32.le_iff_toNat_le.1 hle
    have hbound := offset.toNat_lt
    by_cases hfits : t + 1 < UInt32.size
    · exact Or.inl hfits
    · refine Or.inr (UInt32.toNat_inj.1 ?_)
      simp only [UInt32.size] at hfits
      omega

end Cursor

end CilCompiler
