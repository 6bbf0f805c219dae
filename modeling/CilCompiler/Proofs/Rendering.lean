import Mathlib
import CilCompiler.Proofs.Nesting

/-!
# Rendered bodies show the code

The text of an operator is a mnemonic and numbers with blanks between them, and a rendered body has
one such text on a line, behind its indentation. So the text of a body can be cut into the texts of
its operators, and each of these can be cut into the parts that make up the operator.

* `Op.text_eq_words` cuts a text into words, and `Op.ofParts` puts an operator together from them.
* `Op.text_injective` says that no two operators have the same text.
* `splitOn_render` gives the lines of a rendered body.
* `render_faithful` says that the text of a body stands for its operators, and how it is indented.
-/

namespace CilCompiler.Wasm

/-! ## The parts of a text -/

namespace Op

/-- The first word of a text. -/
def mnemonic : Op → String
  | .block => "block"
  | .loop => "loop"
  | .close => "end"
  | .br _ => "br"
  | .brIf _ => "br_if"
  | .brTable _ _ => "br_table"
  | .ret => "return"
  | .unreachable => "unreachable"
  | .drop => "drop"
  | .call _ => "call"
  | .localGet _ => "local.get"
  | .localSet _ => "local.set"
  | .globalGet _ => "global.get"
  | .const _ => "i32.const"
  | .load _ => "i32.load"
  | .store _ => "i32.store"
  | .eqz => "i32.eqz"
  | .extend8 => "i32.extend8_s"
  | .extend16 => "i32.extend16_s"
  | .bin op => op.text

/-- The immediates of an operator in the order in which they are written. The last number of a table
is the one that is taken otherwise. -/
def numbers : Op → List Int
  | .block | .loop | .close | .ret | .unreachable | .drop => []
  | .br n | .brIf n | .call n | .localGet n | .localSet n | .globalGet n => [(n : Int)]
  | .brTable labels otherwise => (labels ++ [otherwise]).map Int.ofNat
  | .const value => [value.toInt]
  | .load offset | .store offset => [(offset.toNat : Int)]
  | .eqz | .extend8 | .extend16 | .bin _ => []

/-- A number as it is written behind a mnemonic. -/
def numberWord (mnemonic : String) (n : Int) : String :=
  if mnemonic = "i32.load" ∨ mnemonic = "i32.store" then "offset=" ++ toString n else toString n

/-- The words of a text. -/
def words (op : Op) : List String :=
  op.mnemonic :: op.numbers.map (numberWord op.mnemonic)

/-- The operator with a mnemonic and numbers. -/
def ofParts : String → List Int → Option Op
  | "block", [] => some .block
  | "loop", [] => some .loop
  | "end", [] => some .close
  | "br", [n] => some (.br n.toNat)
  | "br_if", [n] => some (.brIf n.toNat)
  | "br_table", ns => ns.getLast?.map fun n => .brTable (ns.dropLast.map Int.toNat) n.toNat
  | "return", [] => some .ret
  | "unreachable", [] => some .unreachable
  | "drop", [] => some .drop
  | "call", [n] => some (.call n.toNat)
  | "local.get", [n] => some (.localGet n.toNat)
  | "local.set", [n] => some (.localSet n.toNat)
  | "global.get", [n] => some (.globalGet n.toNat)
  | "i32.const", [n] => some (.const (.ofInt n))
  | "i32.load", [n] => some (.load (.ofNat n.toNat))
  | "i32.store", [n] => some (.store (.ofNat n.toNat))
  | "i32.eqz", [] => some .eqz
  | "i32.extend8_s", [] => some .extend8
  | "i32.extend16_s", [] => some .extend16
  | mnemonic, [] => (BinOp.all.find? fun op => op.text = mnemonic).map .bin
  | _, _ => none

/-- Mnemonic and numbers say which operator it is. -/
theorem ofParts_parts (op : Op) : ofParts op.mnemonic op.numbers = some op := by
  cases op with
  | brTable labels otherwise =>
      have hread (ns : List Int) : ofParts "br_table" ns =
          ns.getLast?.map fun n => .brTable (ns.dropLast.map Int.toNat) n.toNat := rfl
      change ofParts "br_table" ((labels ++ [otherwise]).map Int.ofNat) = _
      simp [hread, Function.comp_def]
  | const value =>
      change some (Op.const (.ofInt value.toInt)) = _
      rw [Int32.ofInt_toInt]
  | load offset =>
      change some (Op.load (.ofNat offset.toNat)) = _
      rw [UInt32.ofNat_toNat]
  | store offset =>
      change some (Op.store (.ofNat offset.toNat)) = _
      rw [UInt32.ofNat_toNat]
  | bin op =>
      cases op <;> rfl
  | _ =>
      rfl

/-- A text is made of its words with blanks between them. -/
theorem text_eq_words (op : Op) : op.text = " ".intercalate op.words := by
  cases op with
  | brTable labels otherwise =>
      have hwords : (brTable labels otherwise).words =
          "br_table" :: (labels ++ [otherwise]).map toString :=
        congrArg (List.cons "br_table") List.map_map
      -- at least one number stands behind the mnemonic
      obtain ⟨n, ns, hne⟩ : ∃ n ns, labels ++ [otherwise] = n :: ns :=
        List.exists_cons_of_ne_nil (by simp)
      rw [hwords, hne, List.map_cons, String.intercalate_cons_cons, ← List.map_cons, ← hne]
      rfl
  | _ =>
      rfl

end Op

/-! ## Words -/

/-- Whether there is no blank and no line end in a text. -/
def Solid (text : String) : Prop :=
  ' ' ∉ text.toList ∧ '\n' ∉ text.toList

instance (text : String) : Decidable (Solid text) :=
  inferInstanceAs (Decidable (_ ∧ _))

theorem Solid.append {s t : String} (hs : Solid s) (ht : Solid t) : Solid (s ++ t) := by
  simp only [Solid, String.toList_append, List.mem_append, not_or]
  exact ⟨⟨hs.1, ht.1⟩, hs.2, ht.2⟩

theorem solid_toString (n : Int) : Solid (toString n) := by
  have hdigits (n : Nat) : Solid (toString n) := by
    have hdigit : ∀ c ∈ (toString n).toList, c.isDigit = true := by
      intro c hc
      rw [Nat.toString_eq_repr, Nat.toList_repr] at hc
      exact Nat.isDigit_of_mem_toDigits (by decide) (by decide) hc
    exact ⟨fun h => absurd (hdigit _ h) (by decide), fun h => absurd (hdigit _ h) (by decide)⟩
  cases n with
  | ofNat n =>
      exact hdigits n
  | negSucc n =>
      exact Solid.append (by decide) (hdigits (n + 1))

theorem notMem_intercalate {c sep : Char} {words : List (List Char)} (hsep : c ≠ sep)
    (h : ∀ word ∈ words, c ∉ word) : c ∉ [sep].intercalate words := by
  induction words with
  | nil =>
      simp
  | cons word words ih =>
      have hword : c ∉ word := h word List.mem_cons_self
      have hrest := ih fun word hmem => h word (List.mem_cons_of_mem _ hmem)
      cases words with
      | nil =>
          simpa using hword
      | cons next words =>
          simp [List.intercalate_cons_cons, hword, hsep, hrest]

namespace Op

theorem solid_mnemonic (op : Op) : op.mnemonic ≠ "" ∧ Solid op.mnemonic := by
  cases op with
  | bin op =>
      cases op <;> decide
  | _ =>
      dsimp only [mnemonic]
      decide

theorem solid_of_mem_words {op : Op} {word : String} (h : word ∈ op.words) : Solid word := by
  rcases List.mem_cons.1 h with rfl | h
  · exact op.solid_mnemonic.2
  · obtain ⟨n, -, rfl⟩ := List.mem_map.1 h
    unfold numberWord
    split
    · exact Solid.append (by decide) (solid_toString n)
    · exact solid_toString n

theorem toList_text (op : Op) : op.text.toList = [' '].intercalate (op.words.map String.toList) := by
  rw [text_eq_words, String.toList_intercalate]
  rfl

theorem splitOn_text (op : Op) : op.text.toList.splitOn ' ' = op.words.map String.toList := by
  rw [toList_text]
  refine List.splitOn_intercalate ' ' ?_ (List.cons_ne_nil _ _)
  intro word hword
  obtain ⟨word, hmem, rfl⟩ := List.mem_map.1 hword
  exact (solid_of_mem_words hmem).1

theorem numberWord_injective (mnemonic : String) : Function.Injective (numberWord mnemonic) := by
  intro m n h
  unfold numberWord at h
  split at h
  · exact Int.repr_injective (String.append_right_inj _ |>.1 h)
  · exact Int.repr_injective h

/-- No two operators have the same text. -/
theorem text_injective : Function.Injective text := by
  intro op op' h
  -- no word has a blank in it, so a text is cut at its blanks into the words it was made of
  have hwords : op.words = op'.words := by
    have hsplit := congrArg (fun t : String => t.toList.splitOn ' ') h
    simp only [splitOn_text] at hsplit
    exact List.map_injective_iff.2 (fun _ _ => String.toList_injective) hsplit
  obtain ⟨hmnemonic, hnumbers⟩ := List.cons.inj hwords
  -- the mnemonic says how the numbers are written
  rw [hmnemonic] at hnumbers
  have hparts : op.numbers = op'.numbers :=
    List.map_injective_iff.2 (numberWord_injective _) hnumbers
  have hread : some op = some op' := by
    rw [← ofParts_parts op, ← ofParts_parts op', hmnemonic, hparts]
  exact Option.some.inj hread

theorem head?_text_ne_blank (op : Op) : op.text.toList.head? ≠ some ' ' := by
  have hmnemonic := op.solid_mnemonic
  rw [toList_text, words, List.map_cons]
  cases hchars : op.mnemonic.toList with
  | nil =>
      exact absurd (String.toList_eq_nil_iff.1 hchars) hmnemonic.1
  | cons c cs =>
      have hc : c ≠ ' ' := by
        rintro rfl
        exact hmnemonic.2.1 (hchars ▸ List.mem_cons_self)
      cases op.numbers with
      | nil | cons n ns =>
          simpa [List.intercalate_cons_cons] using hc

theorem newline_notMem_text (op : Op) : '\n' ∉ op.text.toList := by
  rw [toList_text]
  refine notMem_intercalate (by decide) fun word hword => ?_
  obtain ⟨word, hmem, rfl⟩ := List.mem_map.1 hword
  exact (solid_of_mem_words hmem).2

end Op

/-! ## Lines -/

theorem splitOn_flatMap_newline {lines : List (List Char)} (h : ∀ line ∈ lines, '\n' ∉ line) :
    (lines.flatMap (· ++ ['\n'])).splitOn '\n' = lines ++ [[]] := by
  induction lines with
  | nil =>
      rfl
  | cons line lines ih =>
      have hline : ∀ c ∈ line, (c == '\n') = false := by
        intro c hc
        rw [beq_eq_false_iff_ne]
        rintro rfl
        exact h line List.mem_cons_self hc
      have hrest := ih fun line hmem => h line (List.mem_cons_of_mem _ hmem)
      rw [List.splitOn_eq_splitOnP] at hrest ⊢
      rw [List.flatMap_cons, List.append_assoc, List.singleton_append,
        List.splitOnP_append_cons_of_forall_mem hline '\n' rfl, hrest, List.cons_append]

/-- The line of an operator at `depth`, without its end. -/
def Op.indented (op : Op) (depth : Nat) : List Char :=
  List.replicate (2 * depth) ' ' ++ op.text.toList

namespace Op

theorem toList_line (op : Op) (depth : Nat) :
    (op.line depth).toList = op.indented depth ++ ['\n'] := by
  simp [line, indented]

theorem newline_notMem_indented (op : Op) (depth : Nat) : '\n' ∉ op.indented depth := by
  simp [indented, op.newline_notMem_text]

theorem takeWhile_indented (op : Op) (depth : Nat) :
    (op.indented depth).takeWhile (· == ' ') = List.replicate (2 * depth) ' ' := by
  have htext : op.text.toList.takeWhile (· == ' ') = [] := by
    have hhead := op.head?_text_ne_blank
    revert hhead
    cases op.text.toList <;> simp
  rw [indented, List.takeWhile_append_of_pos (by simp), htext, List.append_nil]

theorem dropWhile_indented (op : Op) (depth : Nat) :
    (op.indented depth).dropWhile (· == ' ') = op.text.toList := by
  have hparts : (op.indented depth).takeWhile (· == ' ') ++
      (op.indented depth).dropWhile (· == ' ') = op.indented depth :=
    List.takeWhile_append_dropWhile
  rw [takeWhile_indented] at hparts
  exact List.append_cancel_left hparts

end Op

/-! ## Rendered bodies -/

theorem length_openers_snoc (front : List Op) (op : Op) :
    (openers (front ++ [op])).length = op.depthAfter (op.depthBefore (openers front).length) := by
  rw [openers_snoc]
  cases op with
  | block | loop =>
      exact List.length_cons
  | close =>
      exact List.length_tail
  | _ =>
      rfl

/-- The lines that are written behind those of the operators `front`. -/
theorem renderLines_eq (front ops : List Op) :
    renderLines (openers front).length ops =
      ops.mapIdx fun i op => op.line (openCount (front ++ ops) (front.length + i)) := by
  -- the induction is on the operators that are left, and the depth is always the number of regions
  -- that those before them leave open
  induction ops generalizing front with
  | nil =>
      rfl
  | cons op ops ih =>
      have hcount : openCount (front ++ op :: ops) front.length =
          op.depthBefore (openers front).length := by
        have hget : (front ++ op :: ops)[front.length]? = some op := by simp
        rw [openCount_eq hget, List.take_left]
      have hrest := ih (front ++ [op])
      rw [length_openers_snoc] at hrest
      rw [renderLines, List.mapIdx_cons, hrest, Nat.add_zero, hcount]
      simp [Nat.add_assoc, Nat.add_comm 1]

/-- The lines of a rendered body, and nothing behind the end of the last one. -/
theorem splitOn_render (ops : List Op) :
    (render ops).toList.splitOn '\n' =
      (ops.mapIdx fun i op => op.indented (openCount ops i)) ++ [[]] := by
  have hlines : renderLines 0 ops = ops.mapIdx fun i op => op.line (openCount ops i) := by
    have hlines := renderLines_eq [] ops
    simp only [List.nil_append, List.length_nil, Nat.zero_add] at hlines
    exact hlines
  have hends : (renderLines 0 ops).map String.toList =
      (ops.mapIdx fun i op => op.indented (openCount ops i)).map (· ++ ['\n']) := by
    rw [hlines]
    exact List.ext_getElem? fun i => by simp [Function.comp_def, Op.toList_line]
  rw [render, String.toList_join, List.flatMap_def, hends, ← List.flatMap_def]
  refine splitOn_flatMap_newline fun line hline => ?_
  obtain ⟨i, hi, rfl⟩ := List.mem_mapIdx.1 hline
  exact Op.newline_notMem_indented _ _

theorem render_injective : Function.Injective render := by
  intro ops ops' h
  have hlines := splitOn_render ops
  rw [h, splitOn_render, List.append_left_inj] at hlines
  have hinjective : Function.Injective fun op : Op => op.text.toList :=
    fun _ _ h => Op.text_injective (String.toList_injective h)
  refine List.ext_getElem? fun i => Option.map_injective hinjective ?_
  -- the operators at `i` have the same text, since it is what stands behind the indentation
  have hline := congrArg (fun lines => lines[i]?.map (·.dropWhile (· == ' '))) hlines
  simpa [Function.comp_def, Op.dropWhile_indented] using hline.symm

/-- No two operator lists have the same text, balanced or not. The text has one line for each
operator, which is the operator's own text behind two blanks for every region that is open there. At
an end that closes no region none is open, and none is open behind it. -/
theorem render_faithful :
    Function.Injective render ∧
      ∀ ops : List Op, ∃ lines : List (List Char),
        (render ops).toList.splitOn '\n' = lines ++ [[]] ∧ lines.length = ops.length ∧
          (∀ i op line, ops[i]? = some op → lines[i]? = some line →
            line.takeWhile (· == ' ') = List.replicate (2 * openCount ops i) ' ' ∧
              line.dropWhile (· == ' ') = op.text.toList) ∧
          ∀ k, ops[k]? = some .close → (∀ j, ¬Closes ops j k) →
            openCount ops k = 0 ∧ openCount ops (k + 1) = 0 := by
  refine ⟨render_injective, fun ops => ⟨_, splitOn_render ops, List.length_mapIdx, ?_, ?_⟩⟩
  · intro i op line hop hline
    rw [List.getElem?_mapIdx, hop] at hline
    cases hline
    exact ⟨op.takeWhile_indented _, op.dropWhile_indented _⟩
  · intro k hclose hstray
    exact openCount_of_stray hclose hstray

namespace Unbalanced

/-- An end that closes nothing, a region inside a loop, and a loop that does not end. -/
def ops : List Op :=
  [.close, .loop, .block, .brTable [] 7, .close, .const (-7), .close, .loop]

/-- The first end stands alone, and leaving it out changes the text. -/
theorem stands_outside :
    render ops = "end\nloop\n  block\n    br_table 7\n  end\n  i32.const -7\nend\nloop\n" ∧
      (List.range 8).map (openCount ops) = [0, 0, 1, 2, 1, 1, 0, 0] ∧
      ops[0]? = some .close ∧ (∀ j, ¬Closes ops j 0) ∧
      (openCount ops 0 = 0 ∧ openCount ops 1 = 0) ∧ render ops ≠ render ops.tail := by
  have hstray : ∀ j, ¬Closes ops j 0 := fun j h => Nat.not_lt_zero j h.lt
  obtain ⟨-, -, -, -, hend⟩ := render_faithful.2 ops
  exact ⟨by decide +kernel, by decide, rfl, hstray, hend 0 rfl hstray,
    render_faithful.1.ne (by decide)⟩

end Unbalanced

end CilCompiler.Wasm
