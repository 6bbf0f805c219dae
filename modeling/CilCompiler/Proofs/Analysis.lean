import CilCompiler.Proofs.Acceptable
import CilCompiler.Proofs.Growth

/-!
# Schedule analysis

The analysis of a body is exact: it accepts the bodies that can be structured and no others, and the
schedule lists the places that the body jumps to and no others.

* `MethodBody.Structurable` is the condition on a body, `Schedule.Covers` the one on its schedule.
* `Schedule.bisect` searches an ascending row by halving it. `Schedule.bisect_eq_some_iff` says that
  it finds what is there, which it need not do in a row of another order.
* `analyze_exact` says that the analysis succeeds on the bodies that can be structured, with the one
  schedule that covers the body, and that offsets and targets may be looked up by halving.
-/

namespace CilCompiler

/-! ## Bodies and their schedules -/

/-- The body can be structured. -/
structure MethodBody.Structurable (body : MethodBody) : Prop where
  regions : body.regions = []
  ascending : (offsets body.instructions).Pairwise (· < ·)
  /-- A jump carries one target, unless it is one that leaves a protected region. -/
  jump : ∀ i ∈ body.instructions, i.opcode.operandKind = .target → i.opcode ≠ .leave →
    i.opcode ≠ .leaveS → ∃ t, i.operand = .target t
  switch : ∀ i ∈ body.instructions, i.opcode = .switch → ∃ ts, i.operand = .targets ts
  landing : ∀ i ∈ body.instructions, ∀ t, i.JumpsTo t → t ∈ offsets body.instructions

/-- The schedule lists the places that the body jumps to, and knows where each of them stands. -/
structure Schedule.Covers (s : Schedule) (body : MethodBody) : Prop where
  ascending : s.targets.Pairwise (· < ·)
  mem_iff : ∀ t, t ∈ s.targets ↔ ∃ i ∈ body.instructions, i.JumpsTo t
  found_iff : ∀ q, (∃ n, s.position q = .ok n) ↔ ∃ i ∈ body.instructions, i.JumpsTo q
  position_iff : ∀ q n, s.position q = .ok n ↔ s.targets[n]? = some q

theorem Opcode.isBranch_iff {opcode : Opcode} :
    opcode.isBranch ↔ opcode.operandKind = .target ∧ opcode ≠ .leave ∧ opcode ≠ .leaveS := by
  simp [Opcode.isBranch, and_assoc]

namespace Schedule

variable {body : MethodBody} {s : Schedule} {i : Instruction} {key : UInt32} {n : Nat}
  {xs : List UInt32}

/-! ## Acceptance -/

/-- An instruction has targets, perhaps none, unless it should carry some and does not. -/
theorem targetsOf_ok_iff :
    (∃ ts, targetsOf i = .ok ts) ↔
      (i.opcode.isBranch → ∃ t, i.operand = .target t) ∧
        (i.opcode = .switch → ∃ ts, i.operand = .targets ts) := by
  rcases i with ⟨offset, opcode, operand⟩
  unfold targetsOf
  by_cases hbranch : opcode.isBranch
  · -- no opcode is a jump and a switch at once
    have hne : opcode ≠ .switch := by
      rintro rfl
      exact absurd hbranch (by decide)
    cases operand <;> simp [hbranch, hne]
  · by_cases hswitch : opcode = .switch
    · subst hswitch
      cases operand <;> simp [hbranch]
    · simp [hbranch, hswitch]

theorem analyze_ok_iff_structurable : (∃ s, analyze body = .ok s) ↔ body.Structurable := by
  rw [analyze_ok_iff]
  constructor
  · rintro ⟨hregions, hascending, hcarry, hlanding⟩
    refine ⟨hregions, hascending, ?_, ?_, hlanding⟩
    · intro i hi hkind hleave hleaveS
      have hbranch : i.opcode.isBranch := Opcode.isBranch_iff.2 ⟨hkind, hleave, hleaveS⟩
      exact (targetsOf_ok_iff.1 (hcarry i hi)).1 hbranch
    · intro i hi
      exact (targetsOf_ok_iff.1 (hcarry i hi)).2
  · intro h
    refine ⟨h.regions, h.ascending, ?_, h.landing⟩
    intro i hi
    refine targetsOf_ok_iff.2 ⟨?_, h.switch i hi⟩
    intro hbranch
    rcases Opcode.isBranch_iff.1 hbranch with ⟨hkind, hleave, hleaveS⟩
    exact h.jump i hi hkind hleave hleaveS

/-! ## Positions -/

theorem position_ok_iff_idxOf? : s.position key = .ok n ↔ s.targets.idxOf? key = some n := by
  unfold position
  cases s.targets.idxOf? key <;> simp

theorem nodup_of_ascending (h : xs.Pairwise (· < ·)) : xs.Nodup :=
  h.imp fun hlt heq => UInt32.ne_of_lt hlt heq

theorem covers_of_analyze (h : analyze body = .ok s) : s.Covers body := by
  have hascending : s.targets.Pairwise (· < ·) := (analyze_ok h).2.1
  have hposition : ∀ q n, s.position q = .ok n ↔ s.targets[n]? = some q := by
    intro q n
    rw [position_ok_iff_idxOf?, idxOf?_eq_some_iff_of_nodup (nodup_of_ascending hascending)]
  refine ⟨hascending, fun t => mem_targets h, ?_, hposition⟩
  intro q
  simp only [hposition]
  rw [← mem_targets h, List.mem_iff_getElem?]

/-- No two schedules cover one body. -/
theorem Covers.unique {s' : Schedule} (h : s.Covers body) (h' : s'.Covers body) : s = s' := by
  have hmem : ∀ t, t ∈ s.targets ↔ t ∈ s'.targets := by
    intro t
    rw [h.mem_iff, h'.mem_iff]
  have hperm : s.targets.Perm s'.targets := (List.perm_ext_iff_of_nodup
    (nodup_of_ascending h.ascending) (nodup_of_ascending h'.ascending)).2 hmem
  have hsame : s.targets = s'.targets := by
    refine hperm.eq_of_pairwise ?_ h.ascending h'.ascending
    intro t t' _ _ hlt hlt'
    exact absurd hlt' (UInt32.lt_asymm hlt)
  cases s
  cases s'
  exact congrArg Schedule.mk hsame

/-! ## Searching by halves -/

/-- The place of a key in an ascending row. The row is halved until the key stands in the middle. -/
def bisect (key : UInt32) (xs : List UInt32) : Option Nat :=
  match h : xs.drop (xs.length / 2) with
  | [] => none
  | middle :: right =>
    if key < middle then bisect key (xs.take (xs.length / 2))
    else if key = middle then some (xs.length / 2)
    else (bisect key right).map (xs.length / 2 + 1 + ·)
termination_by xs.length
decreasing_by
  all_goals
    have hlength := congrArg List.length h
    simp only [List.length_drop, List.length_cons, List.length_take] at hlength ⊢
    omega

section Halves

variable {left right : List UInt32} {middle : UInt32}

/-- A key below the middle stands in the left half. -/
theorem getElem?_left_iff (h : (left ++ middle :: right).Pairwise (· < ·)) (hlt : key < middle) :
    (left ++ middle :: right)[n]? = some key ↔ left[n]? = some key := by
  constructor
  · intro hget
    by_cases hn : n < left.length
    · rwa [List.getElem?_append_left hn] at hget
    · -- from the middle on everything is above the key
      rw [List.getElem?_append_right (Nat.not_lt.1 hn)] at hget
      rcases List.mem_cons.1 (List.mem_of_getElem? hget) with heq | hmem
      · exact absurd hlt (heq ▸ UInt32.lt_irrefl key)
      · have habove := (List.pairwise_cons.1 (List.pairwise_append.1 h).2.1).1 key hmem
        exact absurd hlt (UInt32.lt_asymm habove)
  · intro hget
    rcases List.getElem?_eq_some_iff.1 hget with ⟨hn, -⟩
    rwa [List.getElem?_append_left hn]

/-- A key above the middle stands in the right half. -/
theorem getElem?_right_iff (h : (left ++ middle :: right).Pairwise (· < ·)) (hlt : middle < key) :
    (left ++ middle :: right)[n]? = some key ↔
      ∃ k, right[k]? = some key ∧ left.length + 1 + k = n := by
  constructor
  · intro hget
    have hbelow : ∀ x ∈ left, x < middle :=
      fun x hx => (List.pairwise_append.1 h).2.2 x hx middle (by simp)
    by_cases hn : n < left.length
    · -- up to the middle everything is below the key
      rw [List.getElem?_append_left hn] at hget
      have hless := hbelow key (List.mem_of_getElem? hget)
      exact absurd hlt (UInt32.lt_asymm hless)
    · rw [List.getElem?_append_right (Nat.not_lt.1 hn)] at hget
      cases hk : n - left.length with
      | zero =>
          rw [hk] at hget
          cases hget
          exact absurd hlt (UInt32.lt_irrefl key)
      | succ k =>
          rw [hk, List.getElem?_cons_succ] at hget
          exact ⟨k, hget, by omega⟩
  · rintro ⟨k, hget, rfl⟩
    rw [List.getElem?_append_right (by omega)]
    have hk : left.length + 1 + k - left.length = k + 1 := by omega
    rw [hk, List.getElem?_cons_succ, hget]

end Halves

/-- The middle of a row parts it into two halves. -/
theorem eq_append_of_drop {xs right : List UInt32} {middle : UInt32} {half : Nat}
    (h : xs.drop half = middle :: right) :
    xs = xs.take half ++ middle :: right ∧ (xs.take half).length = half := by
  have hlength := congrArg List.length h
  rw [List.length_drop, List.length_cons] at hlength
  refine ⟨?_, ?_⟩
  · rw [← h, List.take_append_drop]
  · rw [List.length_take]
    omega

/-- The search by halves finds a key where it stands in an ascending row. -/
theorem bisect_eq_some_iff (h : xs.Pairwise (· < ·)) :
    bisect key xs = some n ↔ xs[n]? = some key := by
  fun_induction bisect key xs generalizing n with
  | case1 xs hdrop =>
      -- only the empty row has no middle
      have hnil : xs = [] := by
        have hlength := congrArg List.length hdrop
        rw [List.length_drop, List.length_nil] at hlength
        exact List.length_eq_zero_iff.1 (by omega)
      simp [hnil]
  | case2 xs middle right hdrop hlt ih =>
      rcases eq_append_of_drop hdrop with ⟨hsplit, -⟩
      have hascending := hsplit ▸ h
      rw [ih (List.pairwise_append.1 hascending).1, ← getElem?_left_iff hascending hlt, ← hsplit]
  | case3 xs right hdrop hlt =>
      have hfirst : (xs.drop (xs.length / 2))[0]? = some key := by simp [hdrop]
      have hget : xs[xs.length / 2]? = some key := by simpa using hfirst
      have hplace : ∀ m, xs.idxOf? key = some m ↔ xs[m]? = some key :=
        fun _ => idxOf?_eq_some_iff_of_nodup (nodup_of_ascending h)
      rw [← hplace, (hplace _).2 hget]
  | case4 xs middle right hdrop hlt hne ih =>
      rcases eq_append_of_drop hdrop with ⟨hsplit, hlength⟩
      have hascending := hsplit ▸ h
      have habove : middle < key := UInt32.lt_of_le_of_ne (UInt32.not_lt.1 hlt) (Ne.symm hne)
      have hright := (List.pairwise_cons.1 (List.pairwise_append.1 hascending).2.1).2
      have hplaces := getElem?_right_iff (n := n) hascending habove
      rw [← hsplit, hlength] at hplaces
      rw [hplaces, Option.map_eq_some_iff]
      simp only [ih hright]

/-- In a row that does not ascend the search may miss what is there. -/
example : bisect 2 [2, 1] = none := by
  cbv

/-! ## Exactness -/

theorem isSome_bisect (h : xs.Pairwise (· < ·)) : (bisect key xs).isSome ↔ key ∈ xs := by
  rw [Option.isSome_iff_exists, List.mem_iff_getElem?]
  simp only [bisect_eq_some_iff h]

/-- The analysis is exact. It succeeds on the bodies that can be structured and on no others, and
its schedule is the only one that covers the body. When it looks for a target among the offsets,
these are known to ascend, and so are the targets of its schedule: both can be searched by
halves. -/
theorem analyze_exact (body : MethodBody) :
    ((∃ s, analyze body = .ok s) ↔ body.Structurable) ∧
      (∀ s, analyze body = .ok s ↔ body.Structurable ∧ s.Covers body) ∧
      (firstDescent? body.instructions = none → ∀ t,
        body.instructions.any (·.offset == t) = (bisect t (offsets body.instructions)).isSome) ∧
      ∀ s, analyze body = .ok s → ∀ q, (s.position q).toOption = bisect q s.targets := by
  refine ⟨analyze_ok_iff_structurable, ?_, ?_, ?_⟩
  · intro s
    constructor
    · intro h
      exact ⟨analyze_ok_iff_structurable.1 ⟨s, h⟩, covers_of_analyze h⟩
    · rintro ⟨hbody, hcovers⟩
      rcases analyze_ok_iff_structurable.2 hbody with ⟨s', hs'⟩
      rw [hs', hcovers.unique (covers_of_analyze hs')]
  · intro hnone t
    have hascending := firstDescent?_eq_none_iff.1 hnone
    rw [Bool.eq_iff_iff, isSome_bisect hascending]
    simp
  · intro s h q
    have hcovers := covers_of_analyze h
    refine Option.ext fun n => ?_
    rw [bisect_eq_some_iff hcovers.ascending, ← hcovers.position_iff]
    cases s.position q <;> simp [Except.toOption]

end Schedule

/-! ## A crossing -/

namespace Crossing

/-- Names one of its two targets three times, and the later one first. -/
def body : MethodBody where
  instructions := [⟨0, .switch, .targets [6, 4, 6]⟩, ⟨2, .brS, .target 4⟩, ⟨4, .leave, .empty⟩,
    ⟨6, .ret, .empty⟩]

theorem structurable_and_covered :
    body.Structurable ∧ Schedule.Covers ⟨[4, 6]⟩ body ∧
      (Schedule.position ⟨[4, 6]⟩ 6).toOption = Schedule.bisect 6 [4, 6] ∧
      body.instructions.any (·.offset == 4) =
        (Schedule.bisect 4 (offsets body.instructions)).isSome := by
  have hanalyze : Schedule.analyze body = .ok ⟨[4, 6]⟩ := by decide
  rcases Schedule.analyze_exact body with ⟨-, hcovered, hoffsets, htargets⟩
  rcases (hcovered ⟨[4, 6]⟩).1 hanalyze with ⟨hbody, hcovers⟩
  exact ⟨hbody, hcovers, htargets _ hanalyze 6, hoffsets (by decide) 4⟩

end Crossing

end CilCompiler
