import CilCompiler.Proofs.Regions

/-!
# Where branches land

A compiled body is one nest of regions: a loop, one block for each branch target, and the block of
the dispatch. Labels count these regions from the inside, so a label means another region at every
place of the body. Here the regions are told apart by the positions at which they are opened.

* `openers` are the positions of the regions that are open behind some operators.
* `visits` follows the walk over a body whose instructions have any operators without brackets.
* `Visit.Sound` is what the walk keeps: the regions that are open behind a visit are those of the
  targets ahead of it, and the loop.
* `Visit.LeadsTo` says how a jump at one visit gets to another.
* `analyze_lands` says that every jump leads to the instruction at its target.
-/

namespace CilCompiler

open Wasm

/-! ## Open regions -/

/-- The regions that are open behind the operator at `position`, if `opened` are those before it. -/
def Wasm.Op.openers (position : Nat) (opened : List Nat) : Op → List Nat
  | .block | .loop => position :: opened
  | .close => opened.tail
  | _ => opened

def openersFrom (position : Nat) (opened : List Nat) : List Op → List Nat
  | [] => opened
  | op :: ops => openersFrom (position + 1) (op.openers position opened) ops

/-- The regions that are open behind some operators, the innermost first. Each of them is given by
the position of the operator that opened it. -/
def openers (ops : List Op) : List Nat :=
  openersFrom 0 [] ops

/-- The positions from `n` down to the first. -/
def downFrom : Nat → List Nat
  | 0 => [0]
  | n + 1 => (n + 1) :: downFrom n

/-- Behind `front`, the label `label` means a block, and the last operator of `target` is the end of
that block. -/
def LeavesTo (front : List Op) (label : Nat) (target : List Op) : Prop :=
  ∃ position before, (openers front)[label]? = some position ∧ front[position]? = some .block ∧
    target = before ++ [.close] ∧ (openers before).head? = some position

section Openers

variable {front ops : List Op}

theorem openersFrom_append (position : Nat) (opened : List Nat) (front ops : List Op) :
    openersFrom position opened (front ++ ops) =
      openersFrom (position + front.length) (openersFrom position opened front) ops := by
  induction front generalizing position opened with
  | nil =>
      rfl
  | cons op front ih =>
      simp only [List.cons_append, openersFrom, ih, List.length_cons]
      congr 1
      omega

theorem openers_snoc (front : List Op) (op : Op) :
    openers (front ++ [op]) = op.openers front.length (openers front) := by
  simp [openers, openersFrom_append, openersFrom]

theorem openers_append_plain (h : ∀ op ∈ ops, op.isBracket = false) :
    openers (front ++ ops) = openers front := by
  induction ops generalizing front with
  | nil =>
      rw [List.append_nil]
  | cons op ops ih =>
      have hop : op.openers front.length (openers front) = openers front := by
        have hplain := h op (by simp)
        cases op with
        | block =>
            cases hplain
        | loop =>
            cases hplain
        | close =>
            cases hplain
        | _ =>
            rfl
      rw [List.append_cons, ih fun o ho => h o (by simp [ho]), openers_snoc, hop]

theorem openers_close (front : List Op) : openers (front ++ [.close]) = (openers front).tail :=
  openers_snoc front .close

theorem openers_blocks (size : Nat) :
    openers (.loop :: List.replicate size .block) = downFrom size := by
  induction size with
  | zero =>
      rfl
  | succ size ih =>
      -- the innermost block is the last one
      have hblock : openers (Op.loop :: List.replicate size .block ++ [.block]) =
          (Op.loop :: List.replicate size .block).length :: openers _ :=
        openers_snoc _ .block
      rw [List.replicate_succ', ← List.cons_append, hblock, ih]
      simp [downFrom]

theorem getElem?_downFrom {n d : Nat} (h : d ≤ n) : (downFrom n)[d]? = some (n - d) := by
  induction n generalizing d with
  | zero =>
      cases Nat.le_zero.1 h
      rfl
  | succ n ih =>
      cases d with
      | zero =>
          rfl
      | succ d =>
          simp [downFrom, ih (Nat.le_of_succ_le_succ h)]

theorem head?_downFrom (n : Nat) : (downFrom n).head? = some n := by
  cases n <;> rfl

end Openers

/-! ## Frames -/

/-- The operators up to the dispatch of a body. -/
def dispatchFront (size selector : Nat) : List Op :=
  .loop :: List.replicate size .block ++ [.block, .localGet selector]

/-- The operators before the first instruction of a body with `size` targets. -/
def opening (size selector : Nat) : List Op :=
  if size = 0 then [.loop]
  else dispatchFront size selector ++ [.brTable (List.range size) size, .close]

/-- The operators of instructions with the ends of the regions between them. -/
def written (c : Cursor) : List (Instruction × List Op) → List Op
  | [] => List.replicate c.openRegions .close
  | (i, ops) :: rest =>
    List.replicate (c.closing i.offset) .close ++ ops ++ written (c.advance i.offset) rest

/-- The place of an instruction in the code of a body. -/
structure Visit where
  instruction : Instruction
  /-- The operators of the instruction. -/
  ops : List Op
  /-- All operators of the body before them. -/
  front : List Op
  /-- The number of regions that close right before them. -/
  closed : Nat
  cursor : Cursor

/-- The places of the instructions from a cursor on, if `front` are the operators before them. -/
def visits (c : Cursor) (front : List Op) : List (Instruction × List Op) → List Visit
  | [] => []
  | (i, ops) :: rest =>
    { instruction := i
      ops
      front := front ++ List.replicate (c.closing i.offset) .close
      closed := c.closing i.offset
      cursor := c.advance i.offset } ::
    visits (c.advance i.offset) (front ++ List.replicate (c.closing i.offset) .close ++ ops) rest

section Visits

variable {c : Cursor} {s : Schedule} {front : List Op} {coded : List (Instruction × List Op)}
  {selector : Nat}

theorem visits_instructions : (visits c front coded).map (·.instruction) = coded.map Prod.fst := by
  induction coded generalizing c front with
  | nil =>
      rfl
  | cons x rest ih =>
      simp [visits, ih]

theorem visits_front_isPrefix {v : Visit} (hv : v ∈ visits c front coded) :
    front <+: v.front ∧ v.front ++ v.ops <+: front ++ written c coded := by
  induction coded generalizing c front with
  | nil =>
      cases hv
  | cons x rest ih =>
      rcases List.mem_cons.1 hv with rfl | hv
      · refine ⟨List.prefix_append _ _, ?_⟩
        simp [written]
      · rcases ih hv with ⟨hfront, hwritten⟩
        refine ⟨?_, by simpa [written] using hwritten⟩
        exact (List.append_assoc _ _ _ ▸ List.prefix_append _ _ : front <+: _).trans hfront

/-- What holds of every visit of the walk over a body with the schedule `s`. -/
structure Visit.Sound (s : Schedule) (v : Visit) : Prop where
  schedule : v.cursor.schedule = s
  /-- No target behind the cursor lies behind the instruction, and every one ahead does. -/
  past : ∀ t ∈ s.targets.take v.cursor.next, t ≤ v.instruction.offset
  ahead : ∀ t ∈ s.targets.drop v.cursor.next, v.instruction.offset < t
  closed : v.closed = if v.instruction.offset ∈ s.targets then 1 else 0
  inside : ∀ n, openers (v.front ++ v.ops.take n) = downFrom v.cursor.openRegions
  /-- A target stands right behind the end of its own block. -/
  arrival : v.instruction.offset ∈ s.targets → ∃ t before,
    s.targets[t]? = some v.instruction.offset ∧ v.front = before ++ [.close] ∧
      openers before = downFrom (s.size - t)

theorem openRegions_of_target {q : UInt32} (h : c.schedule.targets[c.next]? = some q)
    (hclosing : c.closing q = 1) : c.openRegions = (c.advance q).openRegions + 1 := by
  have hlt : c.next < c.schedule.targets.length := (List.getElem?_eq_some_iff.1 h).1
  simp only [Cursor.openRegions, Cursor.advance, hclosing, Schedule.size]
  omega

/-- The first visit of a walk is sound. -/
theorem sound_visit {i : Instruction} {is : List Instruction} {ops : List Op}
    (hstands : c.Stands (i :: is)) (hopen : openers front = downFrom c.openRegions)
    (hplain : ∀ op ∈ ops, op.isBracket = false) :
    Visit.Sound c.schedule
      { instruction := i
        ops
        front := front ++ List.replicate (c.closing i.offset) .close
        closed := c.closing i.offset
        cursor := c.advance i.offset } := by
  rcases hstands.advance with ⟨hstands', hstep⟩
  -- at a target the innermost region ends, and elsewhere the cursor stays
  have hinside : openers (front ++ List.replicate (c.closing i.offset) .close) =
      downFrom (c.advance i.offset).openRegions := by
    rcases hstep with ⟨-, hclosing, hget⟩ | ⟨-, hclosing⟩
    · rw [hclosing, List.replicate_one, openers_close, hopen,
        openRegions_of_target hget hclosing]
      rfl
    · have hstay : c.advance i.offset = c := by simp [Cursor.advance, hclosing]
      rw [hclosing, List.replicate_zero, List.append_nil, hstay, hopen]
  refine
    { schedule := rfl
      past := hstands.le_offset
      ahead := ?_
      closed := ?_
      inside := ?_
      arrival := ?_ }
  · intro t ht
    exact (List.pairwise_cons.1 hstands.ascending).1 t (hstands'.ahead.subset ht)
  · rcases hstep with ⟨hmem, hclosing, -⟩ | ⟨hmem, hclosing⟩ <;> simp [hmem, hclosing]
  · -- the operators of the instruction open and close nothing
    intro n
    have htake : ∀ op ∈ ops.take n, op.isBracket = false :=
      fun op hop => hplain op (List.mem_of_mem_take hop)
    simp only [openers_append_plain htake, hinside]
  · intro hmem
    rcases hstep with ⟨-, hclosing, hget⟩ | ⟨hnot, -⟩
    · exact ⟨c.next, front, hget, by simp [hclosing], hopen⟩
    · exact absurd hmem hnot

theorem sound_of_mem_visits (hstands : c.Stands (coded.map Prod.fst))
    (hopen : openers front = downFrom c.openRegions)
    (hplain : ∀ x ∈ coded, ∀ op ∈ x.2, op.isBracket = false) {v : Visit}
    (hv : v ∈ visits c front coded) : v.Sound c.schedule := by
  -- the regions that are open before an instruction are given by the cursor alone
  induction coded generalizing c front with
  | nil =>
      cases hv
  | cons x rest ih =>
      have hfirst : Visit.Sound c.schedule ⟨x.1, x.2,
          front ++ List.replicate (c.closing x.1.offset) .close, _, _⟩ :=
        sound_visit hstands hopen (hplain x (by simp))
      rcases List.mem_cons.1 hv with rfl | hv
      · exact hfirst
      · have hopen' : openers (front ++ List.replicate (c.closing x.1.offset) .close ++ x.2) =
            downFrom (c.advance x.1.offset).openRegions := by
          simpa using hfirst.inside x.2.length
        have hplain' : ∀ y ∈ rest, ∀ op ∈ y.2, op.isBracket = false :=
          fun y hy => hplain y (by simp [hy])
        exact ih (c := c.advance x.1.offset) hstands.advance.1 hopen' hplain' hv

/-! ## The front of a body -/

theorem openers_dispatchFront (size selector : Nat) :
    openers (dispatchFront size selector) = (size + 1) :: downFrom size := by
  have hplain : ∀ op ∈ [Op.localGet selector], op.isBracket = false := by simp [Op.isBracket]
  have hblock : openers (.loop :: List.replicate size .block ++ [.block]) =
      (size + 1) :: downFrom size := by
    rw [openers_snoc, openers_blocks]
    simp [Op.openers]
  have hfront : dispatchFront size selector =
      .loop :: List.replicate size .block ++ [.block] ++ [.localGet selector] := by
    simp [dispatchFront]
  rw [hfront, openers_append_plain hplain, hblock]

theorem openers_opening (size selector : Nat) :
    openers (opening size selector) = downFrom size := by
  by_cases hsize : size = 0
  · subst hsize
    rfl
  · have hplain : ∀ op ∈ [Op.brTable (List.range size) size], op.isBracket = false := by
      simp [Op.isBracket]
    have hopening : opening size selector =
        dispatchFront size selector ++ [.brTable (List.range size) size] ++ [.close] := by
      simp [opening, hsize]
    rw [hopening, openers_close, openers_append_plain hplain, openers_dispatchFront]
    rfl

/-- The blocks of a body stand right behind its loop, and the one of the dispatch behind them. -/
theorem getElem?_dispatchFront {size position : Nat}
    (hfront : dispatchFront size selector <+: front) (hpos : 0 < position)
    (hle : position ≤ size + 1) : front[position]? = some .block := by
  rcases hfront with ⟨rest, rfl⟩
  obtain ⟨n, rfl⟩ := Nat.exists_eq_succ_of_ne_zero (Nat.ne_of_gt hpos)
  have hblocks : dispatchFront size selector ++ rest =
      .loop :: (List.replicate (size + 1) .block ++ (.localGet selector :: rest)) := by
    simp [dispatchFront, List.replicate_succ']
  have hn : n < size + 1 := hle
  rw [hblocks, List.getElem?_cons_succ, List.getElem?_append_left (by simpa using hn)]
  simp [hn]

theorem dispatchFront_isPrefix {size : Nat} (hsize : size ≠ 0) :
    dispatchFront size selector <+: opening size selector := by
  simp [opening, hsize]

end Visits

/-! ## Landing -/

/-- The label that the table of the dispatch holds for an index. -/
def dispatchLabel (size index : Nat) : Nat :=
  (List.range size)[index]?.getD size

/-- How a jump at the instruction of `v` gets to that of `w`, wherever among the operators of `v` it
stands. -/
inductive Visit.LeadsTo (s : Schedule) (selector : Nat) (v w : Visit) : Prop
  /-- The jump leaves the block that ends right before `w`. -/
  | forward {label : Nat} : v.instruction.offset < w.instruction.offset →
      v.cursor.reach w.instruction.offset = .ok (.forward label) →
      (∀ n, LeavesTo (v.front ++ v.ops.take n) label w.front) → LeadsTo s selector v w
  /-- The jump enters the loop again, and from there the dispatch leaves that block. -/
  | backward {resume label : Nat} : w.instruction.offset ≤ v.instruction.offset →
      v.cursor.reach w.instruction.offset = .ok (.backward resume label) →
      (∀ n, (openers (v.front ++ v.ops.take n))[label]? = some 0 ∧
        (v.front ++ v.ops.take n)[0]? = some .loop) →
      LeavesTo (dispatchFront s.size selector) (dispatchLabel s.size resume) w.front →
      LeadsTo s selector v w

/-- The places of the instructions of a body. -/
abbrev places (s : Schedule) (selector : Nat) (coded : List (Instruction × List Op)) : List Visit :=
  visits { schedule := s } (opening s.size selector) coded

/-- In a body with the schedule `s` all jumps lead to where they point. The instructions come with
their operators. -/
structure Lands (s : Schedule) (selector : Nat) (coded : List (Instruction × List Op)) : Prop where
  order : (places s selector coded).map (·.instruction) = coded.map Prod.fst
  inCode : ∀ v ∈ places s selector coded,
    v.front ++ v.ops <+: opening s.size selector ++ written { schedule := s } coded
  /-- One region closes at each target, and none elsewhere. -/
  closed : ∀ v ∈ places s selector coded,
    v.closed = if v.instruction.offset ∈ s.targets then 1 else 0
  /-- A jump from any instruction to any target leads to the instruction there. -/
  branch : ∀ v ∈ places s selector coded, ∀ q ∈ s.targets,
    ∃ w ∈ places s selector coded, w.instruction.offset = q ∧ v.LeadsTo s selector w
  /-- For the index zero the dispatch leaves its own block, behind which the first instruction
  stands. -/
  start : s.targets ≠ [] →
    (openers (dispatchFront s.size selector))[dispatchLabel s.size 0]? = some (s.size + 1) ∧
      LeavesTo (dispatchFront s.size selector) (dispatchLabel s.size 0)
        (opening s.size selector) ∧
      ∃ v, (places s selector coded).head? = some v ∧
        v.front = opening s.size selector ++ List.replicate v.closed .close

section Landing

variable {s : Schedule} {v w : Visit} {t selector : Nat} {q : UInt32}

theorem dispatchLabel_eq {size index : Nat} (h : index ≤ size) :
    dispatchLabel size index = index := by
  rcases Nat.lt_or_eq_of_le h with hlt | rfl
  · simp [dispatchLabel, hlt]
  · simp [dispatchLabel]

theorem position_eq (hascending : s.targets.Pairwise (· < ·)) (hq : s.targets[t]? = some q) :
    s.position q = .ok t := by
  rcases List.getElem?_eq_some_iff.1 hq with ⟨hlt, rfl⟩
  have hfirst : s.targets.idxOf? s.targets[t] = some t := by
    refine List.idxOf?_eq_some_iff.2 ⟨hlt, rfl, fun j hj => ?_⟩
    exact UInt32.ne_of_lt (List.pairwise_iff_getElem.1 hascending j t _ hlt hj)
  rw [Schedule.position, hfirst]

/-- The way to a target leads forward if the target lies behind the instruction, and backwards
otherwise. -/
theorem Visit.Sound.reach_eq (hv : v.Sound s) (hascending : s.targets.Pairwise (· < ·))
    (hq : s.targets[t]? = some q) :
    (v.instruction.offset < q ∧ v.cursor.next ≤ t ∧
        v.cursor.reach q = .ok (.forward (t - v.cursor.next))) ∨
      (q ≤ v.instruction.offset ∧ t < v.cursor.next ∧
        v.cursor.reach q = .ok (.backward (t + 1) v.cursor.openRegions)) := by
  have hposition : v.cursor.schedule.position q = .ok t := by
    rw [hv.schedule]
    exact position_eq hascending hq
  by_cases hle : v.cursor.next ≤ t
  · have hmem : q ∈ s.targets.drop v.cursor.next :=
      List.mem_of_getElem? (i := t - v.cursor.next) (by simp [Nat.add_sub_cancel' hle, hq])
    exact .inl ⟨hv.ahead q hmem, hle, by simp [Cursor.reach, hposition, hle]⟩
  · have hlt : t < v.cursor.next := Nat.not_le.1 hle
    have hmem : q ∈ s.targets.take v.cursor.next :=
      List.mem_of_getElem? (i := t) (by simp [hlt, hq])
    exact .inr ⟨hv.past q hmem, hlt, by simp [Cursor.reach, hposition, hle]⟩

/-- Every visit leads to every visit at a target. -/
theorem Visit.Sound.leadsTo (hv : v.Sound s) (hw : w.Sound s)
    (hascending : s.targets.Pairwise (· < ·)) (hmem : w.instruction.offset ∈ s.targets)
    (hfront : dispatchFront s.size selector <+: v.front) : v.LeadsTo s selector w := by
  rcases hw.arrival hmem with ⟨t, before, hget, hbefore, hopen⟩
  have ht : t < s.size := (List.getElem?_eq_some_iff.1 hget).1
  -- the block of the target is the one that was opened at this position
  have hblock : ∀ front, dispatchFront s.size selector <+: front →
      front[s.size - t]? = some .block :=
    fun front hopens => getElem?_dispatchFront hopens (Nat.sub_pos_of_lt ht) (by omega)
  have hhead : (openers before).head? = some (s.size - t) := by rw [hopen, head?_downFrom]
  have hopenRegions : v.cursor.openRegions = s.size - v.cursor.next := by
    rw [Cursor.openRegions, hv.schedule]
  have hinside : ∀ n, dispatchFront s.size selector <+: v.front ++ v.ops.take n :=
    fun n => hfront.trans (List.prefix_append _ _)
  rcases hv.reach_eq hascending hget with ⟨hlt, hle, hreach⟩ | ⟨hle, hlt, hreach⟩
  · -- label `d` of `downFrom n` is the position `n - d`
    refine .forward hlt hreach fun n => ?_
    refine ⟨s.size - t, before, ?_, hblock _ (hinside n), hbefore, hhead⟩
    rw [hv.inside, hopenRegions, getElem?_downFrom (by omega)]
    congr 1
    omega
  · refine .backward hle hreach (fun n => ⟨?_, ?_⟩) ?_
    · rw [hv.inside, getElem?_downFrom (Nat.le_refl _), Nat.sub_self]
    · rcases hinside n with ⟨rest, hrest⟩
      rw [← hrest]
      rfl
    · -- at the dispatch its own block comes first, so the block of entry `t` has the label `t + 1`
      refine ⟨s.size - t, before, ?_, hblock _ (List.prefix_refl _), hbefore, hhead⟩
      rw [openers_dispatchFront, dispatchLabel_eq ht, List.getElem?_cons_succ,
        getElem?_downFrom (Nat.le_of_lt ht)]

/-- For the index zero the dispatch leaves its own block. -/
theorem leavesTo_opening (hsize : s.size ≠ 0) :
    (openers (dispatchFront s.size selector))[dispatchLabel s.size 0]? = some (s.size + 1) ∧
      LeavesTo (dispatchFront s.size selector) (dispatchLabel s.size 0)
        (opening s.size selector) := by
  have hlabel : (openers (dispatchFront s.size selector))[dispatchLabel s.size 0]? =
      some (s.size + 1) := by
    rw [dispatchLabel_eq (Nat.zero_le _), openers_dispatchFront]
    rfl
  have hblock : (dispatchFront s.size selector)[s.size + 1]? = some .block :=
    getElem?_dispatchFront (List.prefix_refl _) (Nat.succ_pos _) (Nat.le_refl _)
  have hplain : ∀ op ∈ [Op.brTable (List.range s.size) s.size], op.isBracket = false := by
    simp [Op.isBracket]
  refine ⟨hlabel, s.size + 1, dispatchFront s.size selector ++
    [.brTable (List.range s.size) s.size], hlabel, hblock, ?_, ?_⟩
  · simp [opening, hsize]
  · rw [openers_append_plain hplain, openers_dispatchFront]
    rfl

variable {body : MethodBody} {coded : List (Instruction × List Op)}

theorem lands_of_analyze (h : Schedule.analyze body = .ok s)
    (hcoded : coded.map Prod.fst = body.instructions)
    (hplain : ∀ x ∈ coded, ∀ op ∈ x.2, op.isBracket = false) : Lands s selector coded := by
  rcases Schedule.analyze_ok h with ⟨-, hascending, htargets⟩
  have hstands : Cursor.Stands { schedule := s } (coded.map Prod.fst) :=
    hcoded ▸ Cursor.stands_start h
  have hsound : ∀ v ∈ places s selector coded, v.Sound s :=
    fun v hv => sound_of_mem_visits hstands (openers_opening s.size selector) hplain hv
  have horder : (places s selector coded).map (·.instruction) = coded.map Prod.fst :=
    visits_instructions
  refine
    { order := horder
      inCode := fun v hv => (visits_front_isPrefix hv).2
      closed := fun v hv => (hsound v hv).closed
      branch := ?_
      start := ?_ }
  · intro v hv q hq
    -- every target is the offset of an instruction, and every instruction is visited
    have hvisited : q ∈ (places s selector coded).map (·.instruction.offset) := by
      have hoffset := htargets q hq
      rw [← hcoded, ← horder] at hoffset
      simpa [offsets, Function.comp_def] using hoffset
    rcases List.mem_map.1 hvisited with ⟨w, hw, rfl⟩
    have hsize : s.size ≠ 0 := Nat.ne_of_gt (List.length_pos_of_mem hq)
    have hfront : dispatchFront s.size selector <+: v.front :=
      (dispatchFront_isPrefix hsize).trans (visits_front_isPrefix hv).1
    exact ⟨w, hw, rfl, (hsound v hv).leadsTo (hsound w hw) hascending hq hfront⟩
  · intro hne
    have hsize : s.size ≠ 0 := fun hzero => hne (List.length_eq_zero_iff.1 hzero)
    rcases leavesTo_opening hsize with ⟨hlabel, hleaves⟩
    refine ⟨hlabel, hleaves, ?_⟩
    cases coded with
    | nil =>
        -- a target is the offset of some instruction
        rcases List.exists_mem_of_ne_nil _ hne with ⟨q, hq⟩
        have hoffset := htargets q hq
        rw [← hcoded] at hoffset
        cases hoffset
    | cons x rest =>
        exact ⟨_, rfl, rfl⟩

end Landing

/-! ## Lowered bodies -/

/-- Moves over all of some instructions. -/
def Cursor.past (c : Cursor) (is : List Instruction) : Cursor :=
  is.foldl (fun c i => c.advance i.offset) c

section Lowered

variable {l : Linkage} {c : Cursor} {s : Schedule} {is : List Instruction} {body : MethodBody}
  {code : List Op} {hasResult : Bool}

theorem Cursor.Stands.openRegions_past (h : c.Stands is) : (c.past is).openRegions = 0 := by
  induction is generalizing c with
  | nil =>
      exact h.openRegions_nil
  | cons i is ih =>
      exact ih h.advance.1

/-- Lowered instructions are written with operators of their own, each of them at its cursor. -/
theorem LoweredFrom.coded (h : LoweredFrom l c is code) :
    ∃ coded, coded.map Prod.fst = is ∧ (∀ x ∈ coded, ∀ op ∈ x.2, op.isBracket = false) ∧
      code = written c coded ∧ ∀ front, ∀ v ∈ visits c front coded,
        ∃ es, select l.assembly l.headerSize v.instruction = .ok es ∧
          LinkedAll l v.cursor es v.ops := by
  induction h with
  | nil c =>
      exact ⟨[], rfl, by simp, rfl, fun _ _ hv => nomatch hv⟩
  | @cons c i is es ops rest hselect hlinked _ ih =>
      rcases ih with ⟨coded, hcoded, hplain, hrest, hvisits⟩
      refine ⟨(i, ops) :: coded, by simp [hcoded], ?_, by simp [written, hrest], ?_⟩
      · exact List.forall_mem_cons.2 ⟨hlinked.isBracket (isSimple_of_select hselect), hplain⟩
      · intro front v hv
        rcases List.mem_cons.1 hv with rfl | hv
        · exact ⟨es, hselect, hlinked⟩
        · exact hvisits _ v hv

/-- A lowered body opens its regions, dispatches, and then holds its instructions. -/
theorem BodyLowered.coded (h : BodyLowered l hasResult body code) (hne : body.instructions ≠ [])
    (hs : Schedule.analyze body = .ok s) :
    ∃ selector coded, coded.map Prod.fst = body.instructions ∧
      (∀ x ∈ coded, ∀ op ∈ x.2, op.isBracket = false) ∧
      code = opening s.size selector ++ written { schedule := s } coded ++ [.close] ++
        epilogue hasResult ∧
      (s.targets ≠ [] → l.slots.find? .resumeSelector = some ⟨selector, .i32⟩) ∧
      ∀ v ∈ places s selector coded,
        ∃ es, select l.assembly l.headerSize v.instruction = .ok es ∧
          LinkedAll l v.cursor es v.ops := by
  cases h with
  | empty hnil =>
      exact absurd hnil hne
  | @code s' table code _ hs' htable hcode =>
      cases hs.symm.trans hs'
      rcases hcode.coded with ⟨coded, hcoded, hplain, rfl, hvisits⟩
      -- without targets there is no dispatch, and then any selector will do
      generalize hsize : s.size = size at htable
      cases htable with
      | none =>
          have htargets : s.targets = [] := List.length_eq_zero_iff.1 hsize
          refine ⟨0, coded, hcoded, hplain, ?_, fun hne => absurd htargets hne, hvisits _⟩
          simp [opening]
      | @table _ selector hsome hslot =>
          refine ⟨selector, coded, hcoded, hplain, ?_, fun _ => hslot, hvisits _⟩
          simp [opening, dispatchFront, hsome]

end Lowered

/-- Branches land where they point. In a body with a schedule, one region closes at each target and
none elsewhere, so that none is open at the end. Whatever operators the instructions have, the way
to a target behind an instruction is the label of the block that ends right before that target, and
the way to any other target is the label of the loop, together with an index for which the dispatch
leaves that block. Lowering a body writes it in just this form, with these ways as its jumps. -/
theorem analyze_lands {body : MethodBody} {s : Schedule} (h : Schedule.analyze body = .ok s) :
    (Cursor.past { schedule := s } body.instructions).openRegions = 0 ∧
      (∀ selector coded, coded.map Prod.fst = body.instructions →
        (∀ x ∈ coded, ∀ op ∈ x.2, op.isBracket = false) → Lands s selector coded) ∧
      ∀ a headerSize hasResult slots state code slots' state', body.instructions ≠ [] →
        Linker.exec (lowerBody a headerSize hasResult body) slots state =
          (.ok (code, slots'), state') →
        ∃ selector coded, Lands s selector coded ∧
          coded.map Prod.fst = body.instructions ∧
          code = opening s.size selector ++ written { schedule := s } coded ++ [.close] ++
            epilogue hasResult ∧
          (s.targets ≠ [] → slots'.find? .resumeSelector = some ⟨selector, .i32⟩) ∧
          ∀ v ∈ places s selector coded, ∃ es, select a headerSize v.instruction = .ok es ∧
            LinkedAll ⟨a, headerSize, slots', state'.tables⟩ v.cursor es v.ops := by
  refine ⟨(Cursor.stands_start h).openRegions_past, fun _ _ => lands_of_analyze h, ?_⟩
  intro a headerSize hasResult slots state code slots' state' hne hexec
  rcases (lowerBody_ok hexec).related.coded hne h with
    ⟨selector, coded, hcoded, hplain, hcode, hselector, hlinked⟩
  exact ⟨selector, coded, lands_of_analyze h hcoded hplain, hcoded, hcode, hselector, hlinked⟩

/-! ## A loop with an exit -/

namespace Pendulum

/-- Goes back to its second instruction until its argument is zero. -/
def body : MethodBody where
  instructions := [⟨0, .nop, .empty⟩, ⟨1, .ldarg0, .empty⟩, ⟨2, .brfalse, .target 12⟩,
    ⟨7, .br, .target 1⟩, ⟨12, .ret, .empty⟩]

def schedule : Schedule := ⟨[1, 12]⟩

def coded : List (Instruction × List Op) :=
  [(⟨0, .nop, .empty⟩, []), (⟨1, .ldarg0, .empty⟩, [.localGet 0]),
    (⟨2, .brfalse, .target 12⟩, [.eqz, .brIf 0]),
    (⟨7, .br, .target 1⟩, [.const 1, .localSet 1, .br 1]), (⟨12, .ret, .empty⟩, [.ret])]

def start : BuildState where
  tables := { memory := ⟨"env", "memory", 1⟩ }

/-- Its exit leads forward, and its other jump through the dispatch back to the second
instruction. -/
theorem swings :
    Schedule.analyze body = .ok schedule ∧
      (Cursor.past { schedule } body.instructions).openRegions = 0 ∧ Lands schedule 1 coded ∧
      ∃ code slots state, Linker.exec (lowerBody ⟨"Lib", []⟩ 8 false body)
          (SlotTable.ofParams [.i32]) start = (.ok (code, slots), state) ∧
        ∃ selector coded, Lands schedule selector coded ∧
          code = opening schedule.size selector ++ written { schedule } coded ++ [.close] ++
            epilogue false := by
  have hanalyze : Schedule.analyze body = .ok schedule := by decide
  have hexec : ∃ code slots state, Linker.exec (lowerBody ⟨"Lib", []⟩ 8 false body)
      (SlotTable.ofParams [.i32]) start = (.ok (code, slots), state) :=
    ⟨_, _, _, rfl⟩
  rcases analyze_lands hanalyze with ⟨hclosed, hlands, hlowered⟩
  rcases hexec with ⟨code, slots, state, hexec⟩
  rcases hlowered _ _ _ _ _ _ _ _ (by decide) hexec with ⟨selector, coded', hlands', -, hcode, -⟩
  exact ⟨hanalyze, hclosed, hlands 1 coded rfl (by decide), code, slots, state, hexec, selector,
    coded', hlands', hcode⟩

end Pendulum

end CilCompiler
