import CilCompiler.Command.Files

/-!
# File systems

What the command needs to know of a file system, which may be any: where a path leads, what stands
there, and what making a directory or writing a file changes.

* `Path.IsAncestor` is a directory that a path goes through. `Path.isAncestor_of_mem_ancestors` says
  that the directories that are made for a path are among them.
* `FileSystem` joins the operations with their laws. An operation may fail for any reason.
* `FileTree.system` is the file system of trees.
-/

namespace CilCompiler.Command

open Wasm (Bytes)

/-! ## Ancestors of paths -/

namespace Path

theorem split_eq_splitOn (cs : List Char) : split cs = cs.splitOn '/' := by
  induction cs with
  | nil =>
      rfl
  | cons c cs ih =>
      rw [List.splitOn_cons_eq_if_modifyHead, split, ih]
      by_cases hc : c = '/'
      · simp [hc]
      · have hne := List.splitOn_ne_nil '/' cs
        cases hsplit : cs.splitOn '/' with
        | nil =>
            exact absurd hsplit hne
        | cons part rest =>
            simp [hc]

theorem toList_parts (path : String) :
    (parts path).map String.toList = path.toList.splitOn '/' := by
  simp [parts, split_eq_splitOn, Function.comp_def]

theorem ofParts_parts (path : String) : ofParts (parts path) = path := by
  rw [← String.toList_inj, ofParts, String.toList_intercalate, toList_parts]
  exact List.intercalate_splitOn '/'

theorem slash_not_mem_splitOn {cs part : List Char} (h : part ∈ cs.splitOn '/') : '/' ∉ part := by
  induction cs generalizing part with
  | nil =>
      simp_all
  | cons c cs ih =>
      rw [List.splitOn_cons_eq_if_modifyHead] at h
      by_cases hc : c = '/'
      · rw [hc, beq_self_eq_true, if_pos rfl] at h
        rcases List.mem_cons.1 h with rfl | h
        · exact List.not_mem_nil
        · exact ih h
      · rw [beq_false_of_ne hc, if_neg Bool.false_ne_true] at h
        cases hsplit : cs.splitOn '/' with
        | nil =>
            rw [hsplit] at h
            cases h
        | cons first rest =>
            rw [hsplit] at h ih
            rcases List.mem_cons.1 h with rfl | h
            · exact List.not_mem_cons_of_ne_of_not_mem (Ne.symm hc) (ih List.mem_cons_self)
            · exact ih (List.mem_cons_of_mem _ h)

theorem parts_ofParts {ps : List String} (hne : ps ≠ []) (h : ∀ p ∈ ps, '/' ∉ p.toList) :
    parts (ofParts ps) = ps := by
  have hsplit : (parts (ofParts ps)).map String.toList = ps.map String.toList := by
    rw [toList_parts, ofParts, String.toList_intercalate]
    refine List.splitOn_intercalate '/' ?_ (by simpa using hne)
    intro l hl
    rcases List.mem_map.1 hl with ⟨p, hp, rfl⟩
    exact h p hp
  exact (List.map_inj_right fun _ _ => String.toList_injective).1 hsplit

/-- `directory` is an ancestor of `path`: behind it and a slash, the path goes on to something. -/
def IsAncestor (directory path : String) : Prop :=
  ∃ rest, path = directory ++ "/" ++ rest ∧ ∃ part ∈ parts rest, isVoid part = false

theorem isPrefix_trimEnd (ps : List String) : trimEnd ps <+: ps := by
  cases ps with
  | nil =>
      exact List.prefix_rfl
  | cons first rest =>
      have hsuffix : rest.reverse.dropWhile isVoid <:+ rest.reverse := List.dropWhile_suffix _
      refine List.cons_prefix_cons.2 ⟨rfl, ?_⟩
      simpa using List.reverse_prefix.2 hsuffix

/-- What is left of a path with at least two parts ends with a part that names something. -/
theorem trimEnd_getLast {ps : List String} (h : (trimEnd ps).dropLast ≠ []) :
    ∃ part, trimEnd ps = (trimEnd ps).dropLast ++ [part] ∧ isVoid part = false := by
  cases ps with
  | nil =>
      exact absurd rfl h
  | cons first rest =>
      cases hkept : rest.reverse.dropWhile isVoid with
      | nil =>
          rw [trimEnd, hkept] at h
          exact absurd rfl h
      | cons part kept =>
          have hpart : isVoid part = false := by
            have hhead := List.head?_dropWhile_not isVoid rest.reverse
            rw [hkept] at hhead
            simpa using hhead
          refine ⟨part, ?_, hpart⟩
          rw [trimEnd, hkept, List.reverse_cons, ← List.cons_append, List.dropLast_concat]

theorem ofParts_append {ps qs : List String} (hps : ps ≠ []) (hqs : qs ≠ []) :
    ofParts (ps ++ qs) = ofParts ps ++ "/" ++ ofParts qs :=
  String.intercalate_append_of_ne_nil hps hqs

theorem slash_not_mem_parts {path part : String} (h : part ∈ parts path) : '/' ∉ part.toList :=
  slash_not_mem_splitOn (toList_parts path ▸ List.mem_map_of_mem h)

theorem mem_ancestors {directory above : String} (h : above ∈ ancestors directory) :
    ∃ qs, qs ≠ [] ∧ qs <+: parts directory ∧ above = ofParts qs := by
  rcases List.mem_map.1 h with ⟨qs, hqs, rfl⟩
  rcases List.mem_map.1 (List.mem_filter.1 hqs).1 with ⟨i, hi, rfl⟩
  have hlt : i < (parts directory).length := by simpa using hi
  refine ⟨_, ?_, List.take_prefix _ _, rfl⟩
  intro hnil
  have hlength := congrArg List.length hnil
  rw [List.length_take, List.length_nil] at hlength
  omega

/-- The directories that are made for a path are ancestors of it. -/
theorem isAncestor_of_mem_ancestors {path above : String} (hparent : parent path ≠ "")
    (h : above ∈ ancestors (parent path)) : IsAncestor above path := by
  have hnonempty : trimEnd (trimEnd (parts path)).dropLast ≠ [] := by
    intro hnil
    exact hparent (by rw [parent, hnil]; rfl)
  have hdropped : (trimEnd (parts path)).dropLast ≠ [] := by
    intro hnil
    exact hnonempty (by rw [hnil]; rfl)
  -- the part that is left out names something, and the parent consists of parts before it
  rcases trimEnd_getLast hdropped with ⟨part, hlast, hpart⟩
  rcases isPrefix_trimEnd (parts path) with ⟨void, hvoid⟩
  have hbefore := isPrefix_trimEnd (trimEnd (parts path)).dropLast
  have hwithin : trimEnd (trimEnd (parts path)).dropLast <+: parts path :=
    (hbefore.trans <| List.dropLast_prefix _).trans ⟨void, hvoid⟩
  rcases mem_ancestors h with ⟨qs, hqs, hstart, rfl⟩
  rw [parent, parts_ofParts hnonempty fun p hp => slash_not_mem_parts (hwithin.subset hp)]
    at hstart
  rcases hstart.trans hbefore with ⟨more, hmore⟩
  have hparts : parts path = qs ++ (more ++ part :: void) := by
    rw [← hvoid, hlast, ← hmore]
    simp
  have hrest : parts (ofParts (more ++ part :: void)) = more ++ part :: void :=
    parts_ofParts (by simp) fun p hp =>
      slash_not_mem_parts (hparts ▸ List.mem_append_right qs hp)
  refine ⟨ofParts (more ++ part :: void), ?_, part, by simp [hrest], hpart⟩
  rw [← ofParts_append hqs (by simp), ← hparts, ofParts_parts]

end Path

/-! ## File systems -/

/-- How the states of a file system are looked at: what stands at a place, and which place a path
leads to. -/
structure View (σ : Type) where
  entry? : σ → Location → Option Entry
  locate : σ → String → Except FileFault Location

/-- In `s'` the entry stands at the place, and all else is as in `s`. Paths lead where they led. -/
structure View.Puts {σ : Type} (v : View σ) (s : σ) (place : Location) (e : Entry) (s' : σ) :
    Prop where
  entry (l : Location) : v.entry? s' l = if l = place then some e else v.entry? s l
  locate {path : String} {l : Location} : v.locate s path = .ok l → v.locate s' path = .ok l

/-- A file system: the operations on its states, with what they may do. Operations may fail for any
reason. -/
structure FileSystem (σ : Type) extends View σ where
  files : Files (StateM σ)
  read_keeps (path : String) (s : σ) : (files.read path s).2 = s
  isDirectory_keeps (path : String) (s : σ) : (files.isDirectory path s).2 = s
  /-- A directory is made where nothing stood. -/
  createDirectory_ok {path : String} {s s' : σ} :
    files.createDirectory path s = (.ok (), s') → ∃ place, locate s path = .ok place ∧
      entry? s place = none ∧ toView.Puts s place .directory s'
  createDirectory_error {path : String} {s s' : σ} {fault : FileFault} :
    files.createDirectory path s = (.error fault, s') → s' = s
  /-- A file is written where no directory stands. -/
  write_ok {path : String} {bytes : Bytes} {s s' : σ} :
    files.write path bytes s = (.ok (), s') → ∃ place, locate s path = .ok place ∧
      entry? s place ≠ some .directory ∧ toView.Puts s place (.file bytes) s'

/-! ## File trees -/

namespace FileTree

variable {t : FileTree} {place : Location} {e : Entry}

theorem lookup_replace (xs : List (Location × Entry)) (place : Location) (e : Entry)
    (l : Location) :
    (xs.map fun x => if x.1 = place then (place, e) else x).lookup l =
      if l = place ∧ (xs.lookup place).isSome then some e else xs.lookup l := by
  induction xs with
  | nil =>
      simp
  | cons x xs ih =>
      rcases x with ⟨k, old⟩
      rw [List.map_cons]
      by_cases hk : k = place
      · by_cases hl : l = place
        · simp [hk, hl]
        · have hbeq : (l == place) = false := beq_false_of_ne hl
          simp [hk, hl, List.lookup_cons, hbeq, ih]
      · have hbeq : (place == k) = false := beq_false_of_ne (Ne.symm hk)
        by_cases hl : l = k
        · simp [hk, hl]
        · have hbeq' : (l == k) = false := beq_false_of_ne hl
          have hhere : List.lookup place ((k, old) :: xs) = List.lookup place xs := by
            rw [List.lookup_cons, hbeq]
          rw [if_neg hk, List.lookup_cons, hbeq', ih, hhere, List.lookup_cons, hbeq']

theorem lookup_put (t : FileTree) (place : Location) (e : Entry) (l : Location) :
    (t.put place e).entries.lookup l = if l = place then some e else t.entries.lookup l := by
  unfold put
  split
  · next hsome =>
      rw [lookup_replace]
      simp [hsome]
  · next hnone =>
      have hplace : t.entries.lookup place = none := Option.not_isSome_iff_eq_none.1 hnone
      rw [List.lookup_append]
      by_cases hl : l = place
      · simp [hl, hplace]
      · have hbeq : (l == place) = false := beq_false_of_ne hl
        simp [hl, List.lookup_cons, hbeq]

theorem entry?_put (hplace : place ≠ []) (l : Location) :
    FileTree.entry? (t.put place e) l = if l = place then some e else t.entry? l := by
  unfold entry?
  rw [lookup_put]
  by_cases hl : l = []
  · simp [hl, hplace.symm]
  · simp [hl]

/-- One part of a path is followed in a directory, and then the others. -/
theorem walk_cons (t : FileTree) (here : Location) (part : String) (rest : List String)
    (h : t.entry? here = some .directory) :
    t.walk here (part :: rest) =
      if Path.isVoid part then t.walk here rest
      else if part = ".." then t.walk here.dropLast rest
      else if longestName < part.utf8ByteSize then .error .nameTooLong
      else t.walk (here ++ [part]) rest := by
  rw [walk, h]

theorem directory_of_walk {here l : Location} {part : String} {rest : List String}
    (h : t.walk here (part :: rest) = .ok l) : t.entry? here = some .directory := by
  unfold walk at h
  cases hhere : t.entry? here with
  | none =>
      rw [hhere] at h
      cases h
  | some found =>
      cases found with
      | file bytes =>
          rw [hhere] at h
          cases h
      | directory =>
          rfl

/-- A path leads where it led as long as no directory is lost. -/
theorem walk_of_entry? {t t' : FileTree}
    (h : ∀ l, t.entry? l = some .directory → t'.entry? l = some .directory) {here l : Location}
    {ps : List String} (hwalk : t.walk here ps = .ok l) : t'.walk here ps = .ok l := by
  induction ps generalizing here with
  | nil =>
      exact hwalk
  | cons part rest ih =>
      have hhere := directory_of_walk hwalk
      rw [walk_cons t here part rest hhere] at hwalk
      rw [walk_cons t' here part rest (h here hhere)]
      by_cases hvoid : Path.isVoid part
      · rw [if_pos hvoid] at hwalk ⊢
        exact ih hwalk
      · rw [if_neg hvoid] at hwalk ⊢
        by_cases hup : part = ".."
        · rw [if_pos hup] at hwalk ⊢
          exact ih hwalk
        · rw [if_neg hup] at hwalk ⊢
          by_cases hlong : longestName < part.utf8ByteSize
          · rw [if_pos hlong] at hwalk
            cases hwalk
          · rw [if_neg hlong] at hwalk ⊢
            exact ih hwalk

theorem locate_ok {path : String} {l : Location} (h : t.locate path = .ok l) :
    ¬path.toList.contains '\x00' ∧ ¬longestPath < path.utf8ByteSize ∧
      t.walk (if Path.isAbsolute path then [] else t.home) (Path.parts path) = .ok l := by
  unfold locate at h
  by_cases hzero : path.toList.contains '\x00'
  · rw [if_pos hzero] at h
    cases h
  · rw [if_neg hzero] at h
    by_cases hlong : longestPath < path.utf8ByteSize
    · rw [if_pos hlong] at h
      cases h
    · rw [if_neg hlong] at h
      exact ⟨hzero, hlong, h⟩

theorem puts_put (hold : t.entry? place ≠ some .directory) :
    (View.mk entry? locate).Puts t place e (t.put place e) := by
  have hplace : place ≠ [] := by
    rintro rfl
    exact hold rfl
  refine ⟨entry?_put hplace, ?_⟩
  intro path l hlocate
  have hkept : ∀ l, t.entry? l = some .directory →
      FileTree.entry? (t.put place e) l = some .directory := by
    intro l hl
    have hne : l ≠ place := by
      rintro rfl
      exact hold hl
    rw [entry?_put hplace, if_neg hne, hl]
  have hhome : (t.put place e).home = t.home := by
    unfold put
    split <;> rfl
  rcases locate_ok hlocate with ⟨hzero, hlong, hwalk⟩
  change (t.put place e).locate path = .ok l
  unfold locate
  rw [if_neg hzero, if_neg hlong, hhome]
  exact walk_of_entry? hkept hwalk

theorem createDirectory_inv {t t' : FileTree} {path : String}
    (h : t.createDirectory path = .ok t') :
    ∃ place, t.locate path = .ok place ∧ t.entry? place = none ∧ t' = t.put place .directory := by
  unfold createDirectory at h
  cases hplace : t.locate path with
  | error fault =>
      rw [hplace] at h
      cases h
  | ok place =>
      rw [hplace] at h
      refine ⟨place, rfl, ?_⟩
      cases hentry : t.entry? place with
      | some found =>
          simp only [bind, Except.bind, hentry] at h
          cases h
      | none =>
          simp only [bind, Except.bind, hentry] at h
          exact ⟨rfl, (Except.ok.inj h).symm⟩

theorem write_inv {t t' : FileTree} {path : String} {bytes : Bytes}
    (h : t.write path bytes = .ok t') :
    ∃ place, t.locate path = .ok place ∧ t.entry? place ≠ some .directory ∧
      t' = t.put place (.file bytes) := by
  unfold write at h
  cases hplace : t.locate path with
  | error fault =>
      rw [hplace] at h
      cases h
  | ok place =>
      rw [hplace] at h
      refine ⟨place, rfl, ?_⟩
      simp only [bind, Except.bind] at h
      split at h
      · cases h
      · next hentry =>
          exact ⟨hentry, (Except.ok.inj h).symm⟩

theorem keep_ok {outcome : Except FileFault FileTree} {t t' : FileTree}
    (h : keep outcome t = (.ok (), t')) : outcome = .ok t' := by
  cases outcome with
  | error fault =>
      cases h
  | ok next =>
      cases h
      rfl

theorem keep_error {outcome : Except FileFault FileTree} {t t' : FileTree} {fault : FileFault}
    (h : keep outcome t = (.error fault, t')) : t' = t := by
  cases outcome with
  | error fault =>
      cases h
      rfl
  | ok next =>
      cases h

/-- File trees are a file system. -/
def system : FileSystem FileTree where
  entry? := entry?
  locate := locate
  files := files
  read_keeps _ _ := rfl
  isDirectory_keeps _ _ := rfl
  createDirectory_ok h := by
    rcases createDirectory_inv (keep_ok h) with ⟨place, hplace, hentry, rfl⟩
    exact ⟨place, hplace, hentry, puts_put (by simp [hentry])⟩
  createDirectory_error h := keep_error h
  write_ok h := by
    rcases write_inv (keep_ok h) with ⟨place, hplace, hentry, rfl⟩
    exact ⟨place, hplace, hentry, puts_put hentry⟩

end FileTree

end CilCompiler.Command
