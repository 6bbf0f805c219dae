import Mathlib.Data.List.Induction
import CilCompiler.Proofs.Landing
import CilCompiler.Wasm.Render

/-!
# Nesting of regions

Which regions are open at an operator, for any list of operators. Some regions may never end, and
some ends may have no region to close.

* `Balanced` code closes the regions that it opens, and no others. An end belongs to an opener if
  balanced code stands between them, which is what `Innermost` and `Closes` say.
* `OpenAt` says that a region is open at an operator, and `openCount` counts those that are.
* `openAt_iff` says that these are the regions which `openers` follows.
* `lt_of_stray` says that no region outlasts an end that closes none.
-/

namespace CilCompiler.Wasm

/-- The operators that open a region. -/
def Op.opensRegion : Op → Bool
  | .block | .loop => true
  | _ => false

/-- Code that closes every region that it opens, and no other. -/
inductive Balanced : List Op → Prop
  | nil : Balanced []
  | plain {op : Op} {rest : List Op} (hop : op.isBracket = false) (hrest : Balanced rest) :
      Balanced (op :: rest)
  | region {op : Op} {inner rest : List Op} (hop : op.opensRegion = true)
      (hinner : Balanced inner) (hrest : Balanced rest) :
      Balanced (op :: (inner ++ .close :: rest))

/-- The operator at `j` opens the innermost region that is open behind `code`. -/
def Innermost (code : List Op) (j : Nat) : Prop :=
  ∃ front op inner, code = front ++ op :: inner ∧ front.length = j ∧ op.opensRegion = true ∧
    Balanced inner

/-- The operator at `k` ends the region that the one at `j` opens. -/
def Closes (ops : List Op) (j k : Nat) : Prop :=
  ops[k]? = some .close ∧ Innermost (ops.take k) j

/-- The region that the operator at `j` opens is open at the one at `i`. The operator that ends a
region stands behind it, as the one that opens it stands before it. -/
structure OpenAt (ops : List Op) (j i : Nat) : Prop where
  before : j < i
  opens : ops[j]?.any Op.opensRegion = true
  stays : ∀ k ≤ i, ¬Closes ops j k

/-! ## Openers -/

section Openers

variable {front ops inner : List Op} {op : Op} {j k n : Nat}

theorem Op.opens_or_closes_or_plain (op : Op) :
    op.opensRegion = true ∨ op = .close ∨ op.isBracket = false := by
  cases op with
  | block | loop =>
      exact .inl rfl
  | close =>
      exact .inr (.inl rfl)
  | _ =>
      exact .inr (.inr rfl)

theorem openers_opener (h : op.opensRegion = true) (front : List Op) :
    openers (front ++ [op]) = front.length :: openers front := by
  rw [openers_snoc]
  cases op with
  | block | loop =>
      rfl
  | _ =>
      cases h

theorem openers_plain (h : op.isBracket = false) (front : List Op) :
    openers (front ++ [op]) = openers front :=
  openers_append_plain (by simpa using h)

/-- Later operators open regions at higher positions. -/
theorem openers_descending (code : List Op) :
    (code.length :: openers code).Pairwise (· > ·) := by
  induction code using List.reverseRecOn with
  | nil =>
      exact List.pairwise_singleton _ _
  | append_singleton front op ih =>
      obtain ⟨hlt, hpairwise⟩ := List.pairwise_cons.1 ih
      have hle : ∀ j ∈ front.length :: openers front, j < front.length + 1 := by
        intro j hj
        rcases List.mem_cons.1 hj with rfl | hj
        · omega
        · have := hlt j hj
          omega
      rw [List.length_append, List.length_singleton, List.pairwise_cons]
      rcases op.opens_or_closes_or_plain with hop | rfl | hop
      · rw [openers_opener hop]
        exact ⟨hle, ih⟩
      · rw [openers_close]
        exact ⟨fun j hj => hle j (List.mem_cons_of_mem _ (List.mem_of_mem_tail hj)),
          hpairwise.tail⟩
      · rw [openers_plain hop]
        exact ⟨fun j hj => hle j (List.mem_cons_of_mem _ hj), hpairwise⟩

theorem nodup_openers (code : List Op) : (openers code).Nodup :=
  (List.pairwise_cons.1 (openers_descending code)).2.imp fun h => Nat.ne_of_gt h

theorem lt_length_of_mem_openers {code : List Op} (h : j ∈ openers code) : j < code.length :=
  (List.pairwise_cons.1 (openers_descending code)).1 j h

theorem mem_tail_openers_iff {code : List Op} :
    j ∈ (openers code).tail ↔ j ∈ openers code ∧ (openers code).head? ≠ some j := by
  have hnodup := nodup_openers code
  cases hopeners : openers code with
  | nil =>
      simp
  | cons innermost outer =>
      have hne : j ∈ outer → innermost ≠ j := by
        rintro hj rfl
        exact (List.nodup_cons.1 (hopeners ▸ hnodup)).1 hj
      simp only [List.tail_cons, List.mem_cons, List.head?_cons, ne_eq, Option.some.injEq]
      grind

/-! ## Balanced code -/

theorem Balanced.append {rest : List Op} (hinner : Balanced inner) (hrest : Balanced rest) :
    Balanced (inner ++ rest) := by
  induction hinner with
  | nil =>
      exact hrest
  | plain hop _ ih =>
      exact ih.plain hop
  | region hop hinner _ _ ih =>
      simpa using hinner.region hop ih

theorem openers_append_balanced (h : Balanced inner) (front : List Op) :
    openers (front ++ inner) = openers front := by
  induction h generalizing front with
  | nil =>
      rw [List.append_nil]
  | plain hop _ ih =>
      rw [List.append_cons, ih, openers_plain hop]
  | @region op inner rest hop _ _ ihinner ihrest =>
      have hcut : front ++ op :: (inner ++ .close :: rest) =
          front ++ [op] ++ inner ++ [.close] ++ rest := by simp
      -- the end takes off what the opener has put on
      rw [hcut, ihrest, openers_close, ihinner, openers_opener hop, List.tail_cons]

theorem openers_region (hop : op.opensRegion = true) (hinner : Balanced inner)
    (front : List Op) : openers (front ++ op :: inner) = front.length :: openers front := by
  rw [List.append_cons, openers_append_balanced hinner, openers_opener hop]

theorem Innermost.append {code rest : List Op} (h : Innermost code j) (hrest : Balanced rest) :
    Innermost (code ++ rest) j := by
  obtain ⟨front, op, inner, rfl, hfront, hop, hinner⟩ := h
  exact ⟨front, op, inner ++ rest, by simp, hfront, hop, hinner.append hrest⟩

theorem innermost_of_head? {code : List Op} (h : (openers code).head? = some j) :
    Innermost code j := by
  -- behind an end, the innermost region is the one around the region that ended: it was the
  -- innermost before that region was opened, which may be long before
  induction hn : code.length using Nat.strong_induction_on generalizing code j with
  | _ n ih =>
      subst hn
      rcases List.eq_nil_or_concat code with rfl | ⟨before, op, rfl⟩
      · cases h
      · rw [List.concat_eq_append] at h ih ⊢
        have hbefore : before.length < (before ++ [op]).length := by simp
        rcases op.opens_or_closes_or_plain with hop | rfl | hop
        · rw [openers_opener hop] at h
          cases h
          exact ⟨before, op, [], rfl, rfl, hop, .nil⟩
        · rw [openers_close] at h
          cases hopeners : openers before with
          | nil =>
              rw [hopeners] at h
              cases h
          | cons ended outer =>
              have hended : Innermost before ended := ih _ hbefore (by rw [hopeners]; rfl) rfl
              obtain ⟨around, opener, inner, rfl, rfl, hopener, hinner⟩ := hended
              have haround : Innermost around j := by
                have hlt : around.length < (around ++ opener :: inner ++ [Op.close]).length := by
                  simp only [List.length_append, List.length_cons]
                  omega
                rw [openers_region hopener hinner, List.tail_cons] at h
                exact ih _ hlt h rfl
              simpa using haround.append (hinner.region hopener .nil)
        · rw [openers_plain hop] at h
          exact (ih _ hbefore h rfl).append (Balanced.nil.plain hop)

theorem head?_openers_iff {code : List Op} :
    (openers code).head? = some j ↔ Innermost code j := by
  refine ⟨innermost_of_head?, ?_⟩
  rintro ⟨front, op, inner, rfl, rfl, hop, hinner⟩
  rw [openers_region hop hinner, List.head?_cons]

/-- An end closes the innermost region that is open before it. -/
theorem closes_iff :
    Closes ops j k ↔ ops[k]? = some .close ∧ (openers (ops.take k)).head? = some j :=
  and_congr_right fun _ => head?_openers_iff.symm

theorem Closes.lt (h : Closes ops j k) : j < k := by
  have hlt := lt_length_of_mem_openers (List.mem_of_mem_head? (closes_iff.1 h).2)
  rw [List.length_take] at hlt
  omega

/-! ## Open regions -/

/-- The regions that are open behind an operator are those that it opens, and those that were open
before it and that it does not close. -/
theorem mem_openers_take_succ :
    j ∈ openers (ops.take (n + 1)) ↔
      j = n ∧ ops[n]?.any Op.opensRegion = true ∨
        j ∈ openers (ops.take n) ∧ ¬Closes ops j n := by
  rw [closes_iff, List.take_add_one]
  cases hget : ops[n]? with
  | none =>
      simp
  | some op =>
      have hlength : (ops.take n).length = n :=
        List.length_take_of_le (List.getElem?_eq_some_iff.1 hget).1.le
      rw [Option.toList_some]
      rcases op.opens_or_closes_or_plain with hop | rfl | hop
      · have hclose : op ≠ .close := by
          rintro rfl
          cases hop
        rw [openers_opener hop, hlength]
        simp [hop, hclose]
      · have hopens : Op.close.opensRegion = false := rfl
        rw [openers_close, mem_tail_openers_iff]
        simp [hopens]
      · have hclose : op ≠ .close := by
          rintro rfl
          cases hop
        have hopens : op.opensRegion = false := by
          cases op with
          | block | loop =>
              cases hop
          | _ =>
              rfl
        rw [openers_plain hop]
        simp [hopens, hclose]

/-- The regions that `openers` follows are those that were opened and have not ended. -/
theorem mem_openers_take_iff :
    j ∈ openers (ops.take n) ↔
      j < n ∧ ops[j]?.any Op.opensRegion = true ∧ ∀ k < n, ¬Closes ops j k := by
  induction n with
  | zero =>
      simp [openers, openersFrom]
  | succ n ih =>
      have hclosed : (∀ k < n + 1, ¬Closes ops j k) ↔
          (∀ k < n, ¬Closes ops j k) ∧ ¬Closes ops j n := Nat.forall_lt_succ_right
      rw [mem_openers_take_succ, ih, hclosed]
      constructor
      · rintro (⟨rfl, hopens⟩ | ⟨⟨hlt, hopens, hstays⟩, hn⟩)
        · -- no region ends before it is opened
          refine ⟨Nat.lt_succ_self j, hopens, ?_, ?_⟩
          · intro k hk h
            exact Nat.lt_asymm hk h.lt
          · intro h
            exact Nat.lt_irrefl j h.lt
        · exact ⟨Nat.lt_succ_of_lt hlt, hopens, hstays, hn⟩
      · rintro ⟨hlt, hopens, hstays, hn⟩
        rcases Nat.lt_succ_iff_lt_or_eq.1 hlt with hlt | rfl
        · exact .inr ⟨⟨hlt, hopens, hstays⟩, hn⟩
        · exact .inl ⟨rfl, hopens⟩

theorem openAt_iff {i : Nat} : OpenAt ops j i ↔ j ∈ openers (ops.take i) ∧ ¬Closes ops j i := by
  rw [mem_openers_take_iff]
  constructor
  · rintro ⟨hbefore, hopens, hstays⟩
    exact ⟨⟨hbefore, hopens, fun k hk => hstays k hk.le⟩, hstays i le_rfl⟩
  · rintro ⟨⟨hbefore, hopens, hstays⟩, hi⟩
    refine ⟨hbefore, hopens, fun k hk => ?_⟩
    rcases Nat.lt_or_eq_of_le hk with hlt | rfl
    · exact hstays k hlt
    · exact hi

instance : Decidable (Closes ops j k) := decidable_of_iff _ closes_iff.symm

instance {i : Nat} : Decidable (OpenAt ops j i) := decidable_of_iff _ openAt_iff.symm

/-- The number of regions that are open at the operator at `i`. -/
def openCount (ops : List Op) (i : Nat) : Nat :=
  (List.range i).countP fun j => OpenAt ops j i

theorem openCount_eq_length {i : Nat} {opened : List Nat} (hnodup : opened.Nodup)
    (hmem : ∀ j, OpenAt ops j i ↔ j ∈ opened) : openCount ops i = opened.length := by
  have hperm : ((List.range i).filter fun j => OpenAt ops j i).Perm opened := by
    rw [List.perm_ext_iff_of_nodup (List.nodup_range.filter _) hnodup]
    intro j
    rw [List.mem_filter, decide_eq_true_eq, List.mem_range, hmem j]
    exact and_iff_right_of_imp fun h => ((hmem j).2 h).before
  rw [openCount, List.countP_eq_length_filter, hperm.length_eq]

/-- An operator stands inside the regions that are open before it. If it ends one of them, it stands
outside of that one. -/
theorem openCount_eq {i : Nat} (h : ops[i]? = some op) :
    openCount ops i = op.depthBefore (openers (ops.take i)).length := by
  have hnodup := nodup_openers (ops.take i)
  by_cases hclose : op = .close
  · subst hclose
    have hdepth : Op.close.depthBefore (openers (ops.take i)).length =
        (openers (ops.take i)).tail.length := List.length_tail.symm
    rw [hdepth]
    refine openCount_eq_length (hnodup.sublist (List.tail_sublist _)) fun j => ?_
    rw [openAt_iff, closes_iff, mem_tail_openers_iff]
    simp [h]
  · have hdepth : op.depthBefore (openers (ops.take i)).length = (openers (ops.take i)).length := by
      cases op with
      | close =>
          contradiction
      | _ =>
          rfl
    rw [hdepth]
    refine openCount_eq_length hnodup fun j => ?_
    rw [openAt_iff, closes_iff]
    simp [h, hclose]

/-- Whatever is open at or behind an end that closes no region was opened behind it. -/
theorem lt_of_stray {i : Nat} (hclose : ops[k]? = some .close) (hstray : ∀ j, ¬Closes ops j k)
    (hi : k ≤ i) (h : OpenAt ops j i) : k < j := by
  have hnone : openers (ops.take k) = [] := by
    rw [← List.head?_eq_none_iff, Option.eq_none_iff_forall_ne_some]
    intro j hhead
    exact hstray j (closes_iff.2 ⟨hclose, hhead⟩)
  by_contra hle
  rcases Nat.lt_or_eq_of_le (Nat.le_of_not_lt hle) with hlt | rfl
  · have hmem : j ∈ openers (ops.take k) := mem_openers_take_iff.2
      ⟨hlt, h.opens, fun m hm => h.stays m (by omega)⟩
    rw [hnone] at hmem
    cases hmem
  · have hopens := h.opens
    rw [hclose] at hopens
    cases hopens

theorem openCount_of_stray (hclose : ops[k]? = some .close) (hstray : ∀ j, ¬Closes ops j k) :
    openCount ops k = 0 ∧ openCount ops (k + 1) = 0 := by
  have hnone {i : Nat} (hle : k ≤ i) (hi : i ≤ k + 1) : openCount ops i = 0 := by
    refine openCount_eq_length List.nodup_nil fun j => iff_of_false ?_ List.not_mem_nil
    intro h
    have hlt := h.before
    have hbehind := lt_of_stray hclose hstray hle h
    omega
  exact ⟨hnone le_rfl (Nat.le_succ k), hnone (Nat.le_succ k) le_rfl⟩

end Openers

end CilCompiler.Wasm
