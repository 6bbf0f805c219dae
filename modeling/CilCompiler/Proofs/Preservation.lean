import CilCompiler.Proofs.Effects
import CilCompiler.Proofs.Regions

/-!
# Compiled bodies do what bodies do

A body jumps from offset to offset; its compiled form can only leave regions and go round a loop.
The machine keeps up with the body all the same.

* `Matches` relates a run of a body to a run of its operators, between two instructions.
* `reaches_first` and `reaches_resume` are the way from the head of the loop to the first
  instruction and to any target.
* `lowerBody_preserves` is the result: a run of the operators ends as the run of the body does.
-/

namespace CilCompiler

open Wasm

variable {σ : Type} {m : Machine σ} {loop : Machine.Label} {locals stack : List Word} {host : σ}

/-! ## Moving between regions -/

/-- A jump to the label of a region. -/
theorem branch_region {n d : Nat} (hd : d < n) (k code : List Op) :
    m.branch ⟨code, locals, stack, regionLabels n k ++ [loop], host⟩ d =
      .next ⟨behindClose d k, locals, [],
        regionLabels (n - (d + 1)) (behindClose d k) ++ [loop], host⟩ := by
  have hlen : d < (regionLabels n k).length := by rwa [length_regionLabels]
  have hdrop : (regionLabels n k ++ [loop]).drop (d + 1) =
      regionLabels (n - (d + 1)) (behindClose d k) ++ [loop] := by
    rw [List.drop_append_of_le_length hlen, drop_regionLabels]
  simp only [Machine.branch, List.getElem?_append_left hlen, getElem?_regionLabels hd, hdrop]

/-- A jump to the label of the loop. -/
theorem branch_loop (n : Nat) (k code : List Op) (loop : Machine.Label) (host : σ) :
    m.branch ⟨code, locals, stack, regionLabels n k ++ [loop], host⟩ n =
      .next ⟨loop.code, locals, loop.operands, [], host⟩ := by
  have hlen : (regionLabels n k).length = n := length_regionLabels n k
  have hget : (regionLabels n k ++ [loop])[n]? = some loop := by
    rw [List.getElem?_append_right (Nat.le_of_eq hlen), hlen, Nat.sub_self]
    rfl
  have hdrop : (regionLabels n k ++ [loop]).drop (n + 1) = [] := by
    apply List.drop_eq_nil_of_le
    simp [hlen]
  simp only [Machine.branch, hget, hdrop]

theorem behindClose_replicate (n d : Nat) (k : List Op) :
    behindClose d (List.replicate n .block ++ k) = behindClose (d + n) k := by
  induction n generalizing d with
  | zero =>
      rfl
  | succ n ih =>
      rw [List.replicate_succ, List.cons_append, behindClose, ih, Nat.add_right_comm]
      rfl

theorem regionLabels_succ (n : Nat) (k : List Op) :
    regionLabels (n + 1) k = regionLabels n k ++ [⟨behindClose n k, []⟩] := by
  simp [regionLabels, List.range_succ]

/-- Entering the regions of a body. -/
theorem reaches_blocks (n : Nat) (k : List Op) (labels : List Machine.Label) :
    Reaches m.step ⟨List.replicate n .block ++ k, locals, [], labels, host⟩
      ⟨k, locals, [], regionLabels n k ++ labels, host⟩ := by
  induction n generalizing labels with
  | zero =>
      exact .refl
  | succ n ih =>
      have hcode : behindClose 0 (List.replicate n .block ++ k) = behindClose n k := by
        rw [behindClose_replicate, Nat.zero_add]
      have hrest := ih (⟨behindClose n k, []⟩ :: labels)
      rw [regionLabels_succ, List.append_assoc]
      refine .head ?_ hrest
      simp [Machine.step, Machine.execute, List.replicate_succ, hcode]

/-! ## The head of the loop -/

section Head

variable {l : Linkage} {slots : Slot → Word} {size : Nat} {table code : List Op}

/-- The label of the loop around a body: a jump to it starts the loop again. -/
def loopLabel (size : Nat) (table code : List Op) : Machine.Label :=
  ⟨.loop :: (List.replicate size .block ++ (table ++ code)), []⟩

theorem reaches_regions (size : Nat) (table code : List Op) (locals : List Word) (host : σ) :
    Reaches m.step ⟨(loopLabel size table code).code, locals, [], [], host⟩
      ⟨table ++ code, locals, [],
        regionLabels size (table ++ code) ++ [loopLabel size table code], host⟩ :=
  .head rfl (reaches_blocks size (table ++ code) [loopLabel size table code])

/-- From the head of the loop to the code behind as many regions as the selector tells. -/
theorem reaches_selected {i n : Nat} (hn : n ≤ size) (hword : n < UInt32.size)
    (hget : locals[i]? = some (BitVec.ofNat 32 n))
    (htable : table = [.block, .localGet i, .brTable (List.range size) size, .close]) :
    Reaches m.step ⟨(loopLabel size table code).code, locals, [], [], host⟩
      ⟨behindClose n (.close :: code), locals, [],
        regionLabels (size - n) (behindClose n (.close :: code)) ++ [loopLabel size table code],
        host⟩ := by
  have henter := reaches_regions (m := m) size table code locals host
  generalize loopLabel size table code = loop at henter ⊢
  subst htable
  -- the regions and the one around the table, all seen from behind the table
  have hlabels : ⟨behindClose 0 (.localGet i :: .brTable (List.range size) size :: .close :: code), []⟩ ::
      regionLabels size (.block :: .localGet i :: .brTable (List.range size) size :: .close :: code) =
        regionLabels (size + 1) (.close :: code) := regionLabels_block size _
  have hblock : m.step ⟨.block :: .localGet i :: .brTable (List.range size) size :: .close :: code,
      locals, [], regionLabels size
        (.block :: .localGet i :: .brTable (List.range size) size :: .close :: code) ++ [loop], host⟩ =
      .next ⟨.localGet i :: .brTable (List.range size) size :: .close :: code, locals, [],
        regionLabels (size + 1) (.close :: code) ++ [loop], host⟩ := by
    rw [← hlabels]
    rfl
  have hload : ∀ rest labels, m.step ⟨.localGet i :: rest, locals, [], labels, host⟩ =
      .next ⟨rest, locals, [BitVec.ofNat 32 n], labels, host⟩ := by
    intro rest labels
    simp [Machine.step, Machine.execute, Machine.State.push, hget]
  have hselect : (List.range size)[(BitVec.ofNat 32 n).toNat]?.getD size = n := by
    rw [BitVec.toNat_ofNat, Nat.mod_eq_of_lt hword]
    rcases Nat.lt_or_eq_of_le hn with hlt | rfl
    · simp [hlt]
    · simp
  have htable : m.step ⟨.brTable (List.range size) size :: .close :: code, locals,
      [BitVec.ofNat 32 n], regionLabels (size + 1) (.close :: code) ++ [loop], host⟩ =
      .next ⟨behindClose n (.close :: code), locals, [],
        regionLabels (size - n) (behindClose n (.close :: code)) ++ [loop], host⟩ := by
    simp only [Machine.step, Machine.execute, Machine.State.pop, hselect,
      branch_region (Nat.lt_succ_of_le hn), Nat.succ_sub_succ_eq_sub]
  exact ((henter.tail hblock).tail (hload _ _)).tail htable

/-- At first the selector is zero and the loop leads to the first instruction. -/
theorem reaches_first (htable : Dispatched l size table) (hv : Holds l.slots slots locals)
    (hzero : slots .resumeSelector = 0) (code : List Op) (host : σ) :
    Reaches m.step ⟨(loopLabel size table code).code, locals, [], [], host⟩
      ⟨code, locals, [], regionLabels size code ++ [loopLabel size table code], host⟩ := by
  cases htable with
  | none =>
      exact reaches_regions 0 [] code locals host
  | @table _ i _ hx =>
      have hget : locals[i]? = some (slots .resumeSelector) := hv _ _ hx
      rw [hzero] at hget
      exact reaches_selected (Nat.zero_le size) (by decide) hget rfl

/-- Later on the selector leads to any entry of the schedule. -/
theorem reaches_resume {t : Nat} (htable : Dispatched l size table)
    (hv : Holds l.slots slots locals) (ht : t < size) (hword : t + 1 < UInt32.size)
    (hslot : slots .resumeSelector = BitVec.ofNat 32 (t + 1)) (code : List Op) (host : σ) :
    Reaches m.step ⟨(loopLabel size table code).code, locals, [], [], host⟩
      ⟨behindClose t code, locals, [],
        regionLabels (size - (t + 1)) (behindClose t code) ++ [loopLabel size table code],
        host⟩ := by
  cases htable with
  | none =>
      cases ht
  | @table _ i _ hx =>
      have hget : locals[i]? = some (slots .resumeSelector) := hv _ _ hx
      rw [hslot] at hget
      exact reaches_selected ht hword hget rfl

end Head

/-! ## Between two instructions -/

/-- A body with its schedule, the table at the head of its loop and the code inside of it. -/
structure Laid (l : Linkage) (body : MethodBody) (schedule : Schedule) (table code : List Op) :
    Prop where
  analyzed : Schedule.analyze body = .ok schedule
  dispatched : Dispatched l schedule.size table
  lowered : LoweredFrom l { schedule } body.instructions code

section Runs

variable {p : Source σ} {l : Linkage} {schedule : Schedule} {table code tail : List Op}
  {params : List ValueKind}

/-- The machine stands where the body stands, right before the operators of the next instruction.
Stack and host state are the same, and the locals hold the variables of the body. -/
inductive Matches (p : Source σ) (l : Linkage) (schedule : Schedule) (loop : Machine.Label)
    (tail : List Op) : Source.State σ → Machine.State σ → Prop
  | intro {c : Cursor} {i : Instruction} {is : List Instruction} {ops rest : List Op}
      {s : Source.State σ} {slots : Slot → Word} {locals : List Word} :
      s.code = i :: is → Site l p.body c i is ops rest → c.schedule = schedule →
      Agrees s slots → Holds l.slots slots locals →
      Matches p l schedule loop tail s
        ⟨ops ++ (rest ++ tail), locals, s.stack,
          regionLabels c.openRegions (rest ++ tail) ++ [loop], s.host⟩

/-- Behind the operators of an instruction, the machine gets to those of the next one. -/
theorem reaches_next {c : Cursor} {i : Instruction} {is : List Instruction} {code : List Op}
    {s : Source.State σ} {slots : Slot → Word} (hs : s.code = i :: is) (hstands : c.Stands (i :: is))
    (hsuffix : i :: is <:+ p.body.instructions) (hlowered : LoweredFrom l c (i :: is) code)
    (hschedule : c.schedule = schedule) (ha : Agrees s slots) (hv : Holds l.slots slots locals)
    (tail : List Op) :
    ∃ t, Reaches m.step
        ⟨code ++ tail, locals, s.stack, regionLabels c.openRegions (code ++ tail) ++ [loop], s.host⟩
        t ∧
      Matches p l schedule loop tail s t := by
  rcases hlowered.site hstands hsuffix with ⟨ops, rest, rfl, hsite⟩
  refine ⟨_, ?_, .intro hs hsite hschedule ha hv⟩
  have hlabels : ∀ n, regionLabels n (ops ++ (rest ++ tail)) = regionLabels n (rest ++ tail) :=
    fun n => regionLabels_append hsite.isBracket n (rest ++ tail)
  rcases hstands.advance.2 with ⟨_, hclosing, hget⟩ | ⟨_, hclosing⟩
  · -- the instruction is a target: its region ends here
    rcases List.getElem?_eq_some_iff.1 hget with ⟨hlt, _⟩
    have hopen : c.openRegions = (c.advance i.offset).openRegions + 1 := by
      have hlt' : c.next < c.schedule.size := hlt
      simp only [Cursor.openRegions, Cursor.advance, hclosing]
      omega
    refine .one ?_
    simp [hclosing, hopen, regionLabels_close, hlabels, Machine.step, Machine.execute]
  · have hstay : c.advance i.offset = c := by simp [Cursor.advance, hclosing]
    simp only [hclosing, hstay, hlabels, List.replicate_zero, List.nil_append, List.append_assoc]
    exact .refl

theorem codeAt_eq {i : Instruction} {is : List Instruction}
    (hascending : (offsets p.body.instructions).Pairwise (· < ·))
    (hsuffix : i :: is <:+ p.body.instructions) : p.codeAt i.offset = i :: is := by
  rcases hsuffix with ⟨before, hbody⟩
  rw [← hbody, offsets, List.map_append, List.pairwise_append] at hascending
  have hbefore : ∀ j ∈ before, (j.offset != i.offset) = true := by
    intro j hj
    have hlt := hascending.2.2 j.offset (List.mem_map_of_mem hj) i.offset (by simp)
    simpa using UInt32.ne_of_lt hlt
  rw [Source.codeAt, ← hbody, List.dropWhile_append_of_pos hbefore]
  simp

theorem codeAt_target {target : UInt32} (h : Schedule.analyze p.body = .ok schedule)
    (ht : target ∈ schedule.targets) :
    ∃ j js, p.codeAt target = j :: js ∧ j.offset = target := by
  rcases Schedule.analyze_ok h with ⟨hascending, _, hmem⟩
  rcases List.mem_map.1 (hmem target ht) with ⟨j, hj, rfl⟩
  rcases List.append_of_mem hj with ⟨before, js, hbody⟩
  have hsuffix : j :: js <:+ p.body.instructions := ⟨before, hbody.symm⟩
  exact ⟨j, js, codeAt_eq hascending hsuffix, rfl⟩

/-- The way out of an open region leads to where the body goes on. -/
theorem matches_landing {c : Cursor} {is : List Instruction} {code : List Op} {d : Nat}
    {target : UInt32} {s : Source.State σ} {slots : Slot → Word}
    (hascending : (offsets p.body.instructions).Pairwise (· < ·))
    (hstands : c.Stands is) (hsuffix : is <:+ p.body.instructions)
    (hlowered : LoweredFrom l c is code) (hschedule : c.schedule = schedule)
    (hd : d < c.openRegions) (htarget : schedule.targets[c.next + d]? = some target)
    (hs : s.code = p.codeAt target) (hstack : s.stack = []) (ha : Agrees s slots)
    (hv : Holds l.slots slots locals) :
    Matches p l schedule loop tail s
      ⟨behindClose d (code ++ tail), locals, [],
        regionLabels (c.openRegions - (d + 1)) (behindClose d (code ++ tail)) ++ [loop],
        s.host⟩ := by
  rcases hlowered.landing hstands hsuffix hd tail with
    ⟨c', j, js, ops, rest, hcode, hsame, hnext, hget, hsite⟩
  have hoffset : j.offset = target := by
    rw [hschedule, htarget] at hget
    exact (Option.some.inj hget).symm
  have hopen : c.openRegions - (d + 1) = c'.openRegions := by
    simp only [Cursor.openRegions, hsame, hnext]
    omega
  have hs' : s.code = j :: js := by rw [hs, ← hoffset, codeAt_eq hascending hsite.suffix]
  have hm : Matches p l schedule loop tail s _ :=
    .intro hs' hsite (hsame.trans hschedule) ha hv
  rw [hstack] at hm
  rwa [hcode, hopen, List.append_assoc, regionLabels_append hsite.isBracket]

/-! ## Steps -/

/-- Jumps lead to entries of the schedule. -/
theorem Emit.Linked.target_mem {c : Cursor} {target : UInt32} {conditional : Bool} {ops : List Op}
    (h : (Emit.branch target conditional).Linked l c ops) : target ∈ c.schedule.targets := by
  cases h with
  | forward hreach =>
      rcases Cursor.reach_cases hreach with ⟨t, ht, _⟩
      exact List.mem_of_getElem? ht
  | backward hreach _ =>
      rcases Cursor.reach_cases hreach with ⟨t, ht, _⟩
      exact List.mem_of_getElem? ht

/-- A linkage, a machine and an engine that fit a body. -/
structure Fits (p : Source σ) (m : Machine σ) (l : Linkage) (params : List ValueKind) : Prop where
  assembly : l.assembly = p.assembly
  headerSize : l.headerSize = p.headerSize
  hasResult : m.hasResult = p.hasResult
  placed : l.slots.WellPlaced params
  realises : Realises m.engine p l.tables
  /-- The arguments of constructors are counted in sixteen bits. -/
  counted {r : MethodRef} : p.Performs (.construct r) → r.params.length < UInt16.size

section Step

variable {c : Cursor} {i : Instruction} {is : List Instruction} {ops rest : List Op}
  {s s' : Source.State σ} {slots : Slot → Word} {o : Outcome σ}

/-- At a site, the machine follows the step of the body. -/
theorem simulates_step (hf : Fits p m l params) (hs : s.code = i :: is)
    (hsite : Site l p.body c i is ops rest) (ha : Agrees s slots) :
    ∃ es, LinkedAll l c es ops ∧
      Simulates p m l c es slots { s with code := is } (p.step s) := by
  rcases hsite.linked with ⟨es, hselect, hlinked⟩
  rw [hf.assembly, hf.headerSize] at hselect
  rcases select_ok hselect with ⟨e, heffect, rfl⟩
  refine ⟨_, hlinked, ?_⟩
  have hstep : p.step s = p.perform { s with code := is } e := by
    simp only [Source.step, hs, heffect]
  have hp : p.Performs e := ⟨i, hsite.suffix.subset (by simp), heffect⟩
  have ha' : Agrees { s with code := is } slots := ⟨ha.args, ha.locals⟩
  rw [hstep]
  exact simulates_perform hf.placed hf.realises hf.assembly hf.hasResult hp
    (fun r hr => hf.counted (hr ▸ hp)) ha'

/-- A jump that is taken, forwards: out of regions that are open. -/
theorem matches_forward {target : UInt32} {conditional : Bool} {label : Nat} {stack : List Word}
    (hlaid : Laid l p.body schedule table code) (hsite : Site l p.body c i is ops rest)
    (hschedule : c.schedule = schedule) (hreach : c.reach target = .ok (.forward label))
    (htaken : Taken conditional stack s.stack) (hstack : s.stack = [])
    (hs : s.code = p.codeAt target) (ha : Agrees s slots) (hv : Holds l.slots slots locals)
    (later : List Op) :
    ∃ t, Reaches m.step
        ⟨jump conditional label :: later, locals, stack,
          regionLabels c.openRegions (rest ++ tail) ++ [loop], s.host⟩ t ∧
      Matches p l schedule loop tail s t := by
  have hascending := (Schedule.analyze_ok hlaid.analyzed).1
  have hsuffix : is <:+ p.body.instructions := (List.suffix_cons i is).trans hsite.suffix
  rcases Cursor.reach_cases hreach with ⟨t, ht, ⟨hle, hr⟩ | ⟨_, hr⟩⟩
  · cases hr
    rw [hschedule] at ht
    have htarget : schedule.targets[c.next + (t - c.next)]? = some target := by
      rwa [Nat.add_sub_cancel' hle]
    have hd : t - c.next < c.openRegions := by
      have hlt : t < schedule.size := (List.getElem?_eq_some_iff.1 ht).1
      simp only [Cursor.openRegions, hschedule]
      omega
    refine ⟨_, .one ((step_jump htaken _ later locals _).trans
      (branch_region hd (rest ++ tail) later)), ?_⟩
    exact matches_landing hascending hsite.stands hsuffix hsite.lowered hschedule hd htarget hs
      hstack ha hv
  · cases hr

/-- A jump that is taken, backwards: round the loop and from its head to the target. -/
theorem matches_backward {target : UInt32} {conditional : Bool} {resume label selector : Nat}
    {stack : List Word} (hf : Fits p m l params) (hlaid : Laid l p.body schedule table code)
    (hschedule : c.schedule = schedule) (hreach : c.reach target = .ok (.backward resume label))
    (hfits : resume < UInt32.size) (hslot : l.slots.find? .resumeSelector = some ⟨selector, .i32⟩)
    (htaken : Taken conditional stack s.stack) (hstack : s.stack = [])
    (hs : s.code = p.codeAt target) (ha : Agrees s slots) (hv : Holds l.slots slots locals)
    (later : List Op) :
    ∃ t, Reaches m.step
        ⟨.const (Int32.ofNat resume) :: .localSet selector :: jump conditional label :: later, locals,
          stack, regionLabels c.openRegions (rest ++ tail) ++
            [loopLabel schedule.size table (code ++ tail)], s.host⟩ t ∧
      Matches p l schedule (loopLabel schedule.size table (code ++ tail)) tail s t := by
  rcases Cursor.reach_cases hreach with ⟨t, ht, ⟨_, hr⟩ | ⟨_, hr⟩⟩
  · cases hr
  · cases hr
    rw [hschedule] at ht
    have hsize : t < schedule.size := (List.getElem?_eq_some_iff.1 ht).1
    have htarget : schedule.targets[0 + t]? = some target := by rwa [Nat.zero_add]
    rcases reaches_selector (m := m) c hf.placed hslot hv (t + 1)
      (jump conditional c.openRegions :: later) stack
      (regionLabels c.openRegions (rest ++ tail) ++
        [loopLabel schedule.size table (code ++ tail)]) s.host with ⟨locals', hv', hstore⟩
    have hround := (step_jump htaken c.openRegions later locals' _).trans
      (branch_loop (m := m) c.openRegions (rest ++ tail) later
        (loopLabel schedule.size table (code ++ tail)) s.host)
    have hresume := reaches_resume (m := m) hlaid.dispatched hv' hsize hfits
      (Function.update_self _ _ _) (code ++ tail) s.host
    refine ⟨_, hstore.trans (.head hround hresume), ?_⟩
    exact matches_landing (Schedule.analyze_ok hlaid.analyzed).1
      (Cursor.stands_start hlaid.analyzed) List.suffix_rfl hlaid.lowered rfl hsize htarget hs hstack
      (ha.scratch (by simp) (by simp)) hv'

/-- A jump that is taken, from the site of an instruction to the site of another. -/
theorem matches_jump {target : UInt32} {conditional : Bool} {jumpOps : List Op} {stack : List Word}
    (hf : Fits p m l params) (hlaid : Laid l p.body schedule table code)
    (hsite : Site l p.body c i is ops rest) (hschedule : c.schedule = schedule)
    (hother : target ≠ i.offset) (hjump : (Emit.branch target conditional).Linked l c jumpOps)
    (htaken : Taken conditional stack s.stack) (hstack : s.stack = [])
    (hs : s.code = p.codeAt target) (ha : Agrees s slots) (hv : Holds l.slots slots locals)
    (later : List Op) :
    ∃ t, Reaches m.step
        ⟨jumpOps ++ later, locals, stack, regionLabels c.openRegions (rest ++ tail) ++
          [loopLabel schedule.size table (code ++ tail)], s.host⟩ t ∧
      Matches p l schedule (loopLabel schedule.size table (code ++ tail)) tail s t := by
  cases hjump with
  | forward hreach =>
      exact matches_forward hlaid hsite hschedule hreach htaken hstack hs ha hv later
  | @backward _ _ resume label selector hreach hslot =>
      have hfits : resume < UInt32.size := by
        have htargets : c.schedule.targets.Pairwise (· < ·) :=
          hschedule ▸ (Schedule.analyze_ok hlaid.analyzed).2.1
        rcases Cursor.resume_lt htargets hsite.past hreach with hfits | hself
        · exact hfits
        · exact absurd hself hother
      exact matches_backward hf hlaid hschedule hreach hfits hslot htaken hstack hs ha hv later

/-- The machine keeps up with a step of a run that ends. -/
theorem matches_step {t : Machine.State σ} (hf : Fits p m l params)
    (hlaid : Laid l p.body schedule table code) (hempty : p.ArrivesEmpty schedule s)
    (hm : Matches p l schedule (loopLabel schedule.size table (code ++ tail)) tail s t)
    (hstep : p.step s = .next s') (hends : Ends p.step s' o) :
    ∃ t', Reaches m.step t t' ∧
      Matches p l schedule (loopLabel schedule.size table (code ++ tail)) tail s' t' := by
  have hempty' : ∀ j js, s'.code = j :: js → j.offset ∈ schedule.targets → s'.stack = [] :=
    fun j js => hempty s' j js (.one hstep)
  cases hm with
  | @intro c i is ops rest s slots locals hs hsite hschedule ha hv =>
      rcases simulates_step hf hs hsite ha with ⟨es, hlinked, hsim⟩
      rw [hstep] at hsim
      cases hsim with
      | @falls slots' hcode ha' hrun =>
          rcases hrun (rest ++ tail) _ hlinked hv with ⟨locals', hv', hreach⟩
          cases is with
          | nil =>
              -- the run has left the body, and does not end
              have hcode' : s'.code = [] := hcode
              rcases hends.cases_head with hdone | ⟨_, hnext, _⟩
              · simp [Source.step, hcode'] at hdone
              · simp [Source.step, hcode'] at hnext
          | cons j js =>
              have hsuffix := (List.suffix_cons i (j :: js)).trans hsite.suffix
              rcases reaches_next (m := m) hcode hsite.stands hsuffix hsite.lowered hschedule ha' hv'
                tail with ⟨t', hnext, hm'⟩
              exact ⟨t', hreach.trans hnext, hm'⟩
      | @jumps target conditional es₁ es₂ slots' stack' hes hcode ha' htaken hrun hself =>
          rw [hes] at hlinked
          rcases hlinked.of_append with ⟨first, others, rfl, hfirst, hothers⟩
          cases hothers with
          | @cons _ _ jumpOps later hjump _ =>
              have htarget : target ∈ schedule.targets := hschedule ▸ hjump.target_mem
              have hstack : s'.stack = [] := by
                rcases codeAt_target (p := p) hlaid.analyzed htarget with ⟨j, js, hat, hoffset⟩
                exact hempty' j js (hcode.trans hat) (hoffset ▸ htarget)
              by_cases hother : target = i.offset
              · -- a jump to itself: the machine may as well stay where it is
                have hs' : s' = s := by
                  have hnil : s.stack = [] := hempty s i is .refl hs (hother ▸ htarget)
                  have hat := codeAt_eq (Schedule.analyze_ok hlaid.analyzed).1 hsite.suffix
                  rw [hself hnil, hother, hat, ← hs]
                subst hs'
                exact ⟨_, .refl, .intro hs hsite hschedule ha hv⟩
              · rcases hrun (jumpOps ++ (later ++ (rest ++ tail))) _ hfirst hv with
                  ⟨locals', hv', hreach⟩
                rcases matches_jump hf hlaid hsite hschedule hother hjump htaken hstack hcode ha' hv'
                  (later ++ (rest ++ tail)) with ⟨t', hjumped, hm'⟩
                refine ⟨t', ?_, hm'⟩
                simp only [List.append_assoc] at hreach ⊢
                exact hreach.trans hjumped

/-- The machine ends where the body ends. -/
theorem matches_done {t : Machine.State σ} (hf : Fits p m l params)
    (hm : Matches p l schedule loop tail s t) (hstep : p.step s = .done o) : Ends m.step t o := by
  cases hm with
  | @intro c i is ops rest _ slots locals hs hsite hschedule ha hv =>
      rcases simulates_step hf hs hsite ha with ⟨es, hlinked, hsim⟩
      rw [hstep] at hsim
      exact hsim (rest ++ tail) _ hlinked hv

end Step

/-! ## Whole runs -/

/-- The slots at the start: arguments where they belong, and zero everywhere else. -/
def initialSlots (args : List Word) : Slot → Word
  | .arg n => args.getD n.toNat 0
  | _ => 0

theorem agrees_start (p : Source σ) (args : List Word) (host : σ) :
    Agrees (p.start args host) (initialSlots args) where
  args n x hx := by
    have hx' : args[n.toNat]? = some x := hx
    simp [initialSlots, List.getD, hx']
  locals _ := rfl

theorem holds_start {slots : SlotTable} {args : List Word} (hw : slots.WellPlaced params)
    (hparams : params.length ≤ UInt16.size) (hargs : args.length = params.length) :
    Holds slots (initialSlots args) (args ++ List.replicate slots.locals.length 0) := by
  intro x place hx
  have hindex := hw.index_lt hx
  cases hscratch : x.isScratch with
  | true =>
      have hle : args.length ≤ place.index := hargs ▸ hw.scratch hx hscratch
      have hzero : initialSlots args x = 0 := by
        cases x with
        | arg n =>
            cases hscratch
        | _ =>
            rfl
      rw [List.getElem?_append_right hle, hzero, List.getElem?_replicate, if_pos (by omega)]
  | false =>
      rcases Slot.exists_arg hscratch with ⟨n, rfl⟩
      have hlt : place.index < args.length := hargs ▸ (hw.arg hx).1
      have hn : place.index = n.toNat := hw.index_arg hparams hx
      rw [List.getElem?_append_left hlt, hn, initialSlots]
      simp [hn ▸ hlt]

/-- From the start of the operators to the first instruction. -/
theorem matches_start {args : List Word} {slots : Slot → Word}
    (hlaid : Laid l p.body schedule table code) (hne : p.body.instructions ≠ [])
    (ha : Agrees (p.start args host) slots) (hv : Holds l.slots slots locals)
    (hzero : slots .resumeSelector = 0) (tail : List Op) :
    ∃ t, Reaches m.step
        ⟨(loopLabel schedule.size table (code ++ tail)).code, locals, [], [], host⟩ t ∧
      Matches p l schedule (loopLabel schedule.size table (code ++ tail)) tail
        (p.start args host) t := by
  rcases List.exists_cons_of_ne_nil hne with ⟨i, is, hbody⟩
  have hstands := Cursor.stands_start hlaid.analyzed
  have hlowered := hlaid.lowered
  rw [hbody] at hstands hlowered
  have hfirst := reaches_first (m := m) hlaid.dispatched hv hzero (code ++ tail) host
  have hsuffix : i :: is <:+ p.body.instructions := hbody ▸ List.suffix_rfl
  have hcode : (p.start args host).code = i :: is := hbody
  rcases reaches_next (m := m) (p := p) hcode hstands hsuffix hlowered rfl ha hv tail with
    ⟨t, hreach, hm⟩
  exact ⟨t, hfirst.trans hreach, hm⟩

end Runs

/-- If lowering a body succeeds, its operators do what the body does. Take any run of the body from
any arguments, under any host, that finds its stack empty whenever it arrives at an offset of the
schedule. If it ends, by returning or by a trap, then the run of the operators from the same
arguments, with all other locals zero and on an engine that realises the host, ends in the same
way, with the same value and in the same state of the host. -/
theorem lowerBody_preserves (p : Source σ) (engine : Engine σ) {params : List ValueKind}
    {before after : BuildState} {slots : SlotTable} {ops : List Op}
    (hlower : Linker.exec (lowerBody p.assembly p.headerSize p.hasResult p.body)
      (SlotTable.ofParams params) before = (.ok (ops, slots), after))
    (hparams : params.length ≤ UInt16.size)
    (hcounted : ∀ r, p.Performs (.construct r) → r.params.length < UInt16.size)
    (hrealises : Realises engine p after.tables) {args : List Word}
    (hargs : args.length = params.length) (host : σ)
    (hempty : ∀ schedule, Schedule.analyze p.body = .ok schedule →
      p.ArrivesEmpty schedule (p.start args host))
    {o : Outcome σ} (hends : Ends p.step (p.start args host) o) :
    Ends (Machine.step ⟨engine, p.hasResult⟩)
      (Machine.start ops args slots.locals.length host) o := by
  have hlowers := lowerBody_ok hlower
  have hw := (SlotTable.wellPlaced_ofParams params).grows hlowers.slots
  have hf : Fits p ⟨engine, p.hasResult⟩ ⟨p.assembly, p.headerSize, slots, after.tables⟩ params :=
    ⟨rfl, rfl, rfl, hw, hrealises, fun {r} => hcounted r⟩
  cases hlowers.related with
  | empty hnil =>
      have hcode : (p.start args host).code = [] := hnil
      rcases hends.cases_head with hdone | ⟨_, hnext, _⟩
      · simp [Source.step, hcode] at hdone
      · simp [Source.step, hcode] at hnext
  | @code schedule table code hne hanalyzed hdispatched hlowered =>
      have hlaid : Laid _ p.body schedule table code := ⟨hanalyzed, hdispatched, hlowered⟩
      rcases matches_start (m := ⟨engine, p.hasResult⟩) hlaid hne (agrees_start p args host)
        (holds_start hw hparams hargs) rfl (.close :: epilogue p.hasResult) with ⟨t, hreach, hm⟩
      have hstart : Machine.start (.loop :: List.replicate schedule.size .block ++ table ++ code ++
          [.close] ++ epilogue p.hasResult) args slots.locals.length host =
          ⟨(loopLabel schedule.size table (code ++ .close :: epilogue p.hasResult)).code,
            args ++ List.replicate slots.locals.length 0, [], [], host⟩ := by
        simp [Machine.start, loopLabel]
      rw [hstart]
      refine Ends.of_reaches hreach ?_
      refine Ends.simulate
        (R := fun s t => Matches p ⟨p.assembly, p.headerSize, slots, after.tables⟩ schedule
          (loopLabel schedule.size table (code ++ .close :: epilogue p.hasResult))
          (.close :: epilogue p.hasResult) s t ∧ p.ArrivesEmpty schedule s)
        ?_ ?_ ⟨hm, hempty schedule hanalyzed⟩ hends
      · rintro s s' t ⟨hm, hempty⟩ hstep hends'
        rcases matches_step hf hlaid hempty hm hstep hends' with ⟨t', hreach', hm'⟩
        exact ⟨t', hreach', hm', fun u j js hu => hempty u j js (.head hstep hu)⟩
      · rintro s t ⟨hm, _⟩ hstep
        exact matches_done hf hm hstep

/-! ## A countdown

A body that jumps both ways and calls a method of its own assembly until its argument is zero. -/

namespace Countdown

def counter : TypeName := ⟨none, "Lib", "Counter"⟩

def lower : MethodDef :=
  { name := "Lower", result := .int32, params := [⟨none, .int32⟩], isStatic := true }

def source : Source Nat where
  assembly := ⟨"Lib", [{ name := counter, methods := [lower] }]⟩
  headerSize := 8
  hasResult := true
  body :=
    { instructions :=
        [⟨0, .ldarg0, .empty⟩, ⟨1, .brfalse, .target 19⟩, ⟨6, .ldarg0, .empty⟩,
         ⟨7, .call, .method (lower.ref counter)⟩, ⟨12, .starg, .arg 0⟩, ⟨16, .brS, .target 0⟩,
         ⟨19, .ldcI4_7, .empty⟩, ⟨20, .ret, .empty⟩] }
  -- every call lowers its first argument by one, and the host counts the calls
  host :=
    { call := fun _ args calls => some (some (args.headD 0 - 1), calls + 1)
      allocate := fun type calls => some (type - 1, calls + 1)
      handle := fun _ _ => 0
      load := fun _ _ => none
      store := fun _ _ _ => none }

def engine : Engine Nat where
  arity _ := 1
  call _ args calls := some (some (args.headD 0 - 1), calls + 1)
  global _ _ := 0
  load _ _ := none
  store _ _ _ := none

def ops : List Op :=
  [.loop, .block, .block,
   .block, .localGet 1, .brTable [0, 1] 2, .close,
   .close, .localGet 0, .eqz, .brIf 0,
   .localGet 0, .call 3, .localSet 0, .const 1, .localSet 1, .br 1,
   .close, .const 7, .ret,
   .close, .unreachable, .close]

theorem performs_call {r : MethodRef} (h : source.Performs (.call r)) : r = lower.ref counter := by
  rcases h with ⟨i, hi, he⟩
  simp only [source, List.mem_cons, List.not_mem_nil, or_false] at hi
  rcases hi with rfl | rfl | rfl | rfl | rfl | rfl | rfl | rfl <;> cases he
  rfl

theorem not_performs_construct (r : MethodRef) : ¬ source.Performs (.construct r) := by
  rintro ⟨i, hi, he⟩
  simp only [source, List.mem_cons, List.not_mem_nil, or_false] at hi
  rcases hi with rfl | rfl | rfl | rfl | rfl | rfl | rfl | rfl <;> cases he

theorem realises (tables : Tables) : Realises engine source tables where
  load := rfl
  store := rfl
  handle _ := rfl
  allocator := rfl
  allocate _ _ := rfl
  call hp _ _ := by
    cases performs_call hp
    exact ⟨rfl, rfl⟩
  construct hp _ _ := absurd hp (not_performs_construct _)

/-- The build in which the body is lowered. -/
def lowered : Except CompileError (List Op × SlotTable) × BuildState :=
  Linker.exec (lowerBody source.assembly source.headerSize source.hasResult source.body)
    (SlotTable.ofParams [.i32]) { tables := Tables.ofBridge {} false }

theorem preserves :
    source.outcome? ⟨[0, 19]⟩ 20 (source.start [2] 0) = some (.returned (some 7) 2) ∧
      Ends (Machine.step ⟨engine, true⟩) (Machine.start ops [2] 1 0) (.returned (some 7) 2) := by
  have hrun : source.outcome? ⟨[0, 19]⟩ 20 (source.start [2] 0) = some (.returned (some 7) 2) := rfl
  rcases Source.ends_of_outcome? hrun with ⟨hends, hempty⟩
  have hlower : Linker.exec
      (lowerBody source.assembly source.headerSize source.hasResult source.body)
      (SlotTable.ofParams [.i32]) { tables := Tables.ofBridge {} false } =
      (.ok (ops, ((SlotTable.ofParams [.i32]).allocate .resumeSelector .i32).2), lowered.2) := rfl
  refine ⟨hrun, lowerBody_preserves source engine hlower (by decide) ?_ (realises _) rfl 0 ?_ hends⟩
  · exact fun r hr => absurd hr (not_performs_construct r)
  · intro schedule h
    cases h
    exact hempty

end Countdown

end CilCompiler
