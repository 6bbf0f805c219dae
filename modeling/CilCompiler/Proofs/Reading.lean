import CilCompiler.Proofs.Printer

/-!
# Reading tokens back

`Reads r ts x next` says that a reader takes `x` from the tokens `ts` and stops behind them, provided
that `next` holds of the tokens that follow: a type, say, must not be followed by a pair of brackets.

* `Reads.bind` runs one reader behind the other, `Loops.items` a loop over a list of items.
* `reads_inParens` reads a list between parentheses.
* `reads_typeSig`, `reads_methodRef` and `reads_fieldRef` read printed types and references back.
-/

namespace CilCompiler.Listing

variable {α β σ ι : Type}

/-! ## A calculus of readers -/

/-- `r` takes `x` from the tokens `ts`, on whatever lines they stand, if `next` holds of the tokens
behind them. -/
def Reads (r : Reader α) (ts : List Token) (x : α) (next : List Token → Prop) : Prop :=
  ∀ front rest : List Located, front.map (·.token) = ts → next (rest.map (·.token)) →
    r (front ++ rest) = .ok (x, rest)

/-- What follows does not matter. -/
def Anything (_ : List Token) : Prop := True

/-- What follows starts with the token `t`. -/
def StartsWith (t : Token) (rest : List Token) : Prop :=
  rest.head? = some t

theorem run_bind {r : Reader α} {f : α → Reader β} {x : α} {ts rest : List Located}
    (h : r ts = .ok (x, rest)) : (r >>= f) ts = f x rest := by
  change StateT.bind r f ts = f x rest
  unfold StateT.bind
  rw [h]
  rfl

namespace Reads

variable {r : Reader α} {f : α → Reader β} {ts us : List Token} {t : Token} {x : α} {y : β}
  {next after : List Token → Prop}

theorem weaken (h : Reads r ts x after) (hnext : ∀ rest, next rest → after rest) :
    Reads r ts x next := by
  intro front rest hfront hrest
  exact h front rest hfront (hnext _ hrest)

theorem or (h : Reads r ts x next) (h' : Reads r ts x after) :
    Reads r ts x (fun rest => next rest ∨ after rest) := by
  intro front rest hfront hrest
  rcases hrest with hrest | hrest
  · exact h front rest hfront hrest
  · exact h' front rest hfront hrest

theorem of_anything (h : Reads r ts x Anything) : Reads r ts x next :=
  h.weaken fun _ _ => trivial

theorem pure : Reads (pure x) [] x next := by
  intro front rest hfront _
  cases List.map_eq_nil_iff.1 hfront
  rfl

/-- What the second reader takes has to be something that the first one stops at. -/
theorem bind (h : Reads r ts x after) (hf : Reads (f x) us y next)
    (hnext : ∀ rest, next rest → after (us ++ rest)) : Reads (r >>= f) (ts ++ us) y next := by
  intro front rest hfront hrest
  obtain ⟨front, middle, rfl, hts, hus⟩ := List.map_eq_append_iff.1 hfront
  have hbehind : after ((middle ++ rest).map (·.token)) := by
    rw [List.map_append, hus]
    exact hnext _ hrest
  rw [List.append_assoc, run_bind (h front (middle ++ rest) hts hbehind)]
  exact hf middle rest hus hrest

/-- A reader of one token, and then another reader. -/
theorem cons (h : Reads r [t] x Anything) (hf : Reads (f x) us y next) :
    Reads (r >>= f) (t :: us) y next :=
  h.bind hf fun _ _ => trivial

/-- A reader that takes nothing here, and then another reader. -/
theorem none (h : Reads r [] x after) (hf : Reads (f x) us y next)
    (hnext : ∀ rest, next rest → after (us ++ rest)) : Reads (r >>= f) us y next :=
  h.bind hf hnext

theorem pure_bind (hf : Reads (f x) us y next) : Reads (Pure.pure x >>= f) us y next :=
  (pure : Reads _ [] x Anything).none hf fun _ _ => trivial

/-- A reader, and then one that takes nothing. -/
theorem last (h : Reads r ts x after) (hf : Reads (f x) [] y next)
    (hnext : ∀ rest, next rest → after rest) : Reads (r >>= f) ts y next := by
  have := h.bind hf hnext
  rwa [List.append_nil] at this

theorem map {g : α → β} (h : Reads r ts x next) : Reads (do return g (← r)) ts (g x) next :=
  h.last pure fun _ hrest => hrest

theorem fmap {g : α → β} (h : Reads r ts x next) : Reads (g <$> r) ts (g x) next := by
  rw [map_eq_pure_bind]
  exact h.map

theorem result {x' : α} (h : Reads r ts x next) (hx : x = x') : Reads r ts x' next :=
  hx ▸ h

/-- Looking at the first token of what is to be read. -/
theorem peek {f : Token → Reader β} (h : Reads (f t) (t :: us) y next) :
    Reads (Listing.peek >>= f) (t :: us) y next := by
  intro front rest hfront hrest
  obtain ⟨u, front, rfl, rfl, -⟩ := List.map_eq_cons_iff.1 hfront
  exact h (u :: front) rest hfront hrest

/-- Looking at the token behind what has been read. -/
theorem peek_next {f : Token → Reader β} (h : Reads (f t) [] y next)
    (hnext : ∀ rest, next rest → StartsWith t rest) :
    Reads (Listing.peek >>= f) [] y next := by
  intro front rest hfront hrest
  cases List.map_eq_nil_iff.1 hfront
  cases rest with
  | nil => cases hnext _ hrest
  | cons u rest =>
    cases hnext _ hrest
    exact h [] (u :: rest) rfl hrest

/-- The line is known only when reading gets there. -/
theorem line {f : Nat → Reader β} (h : ∀ n, Reads (f n) ts y next) :
    Reads (Listing.line >>= f) ts y next := by
  intro front rest hfront hrest
  exact h _ front rest hfront hrest

end Reads

/-! ### Single tokens -/

theorem reads_take (t : Token) (ht : t ≠ .endOfInput) : Reads take [t] t Anything := by
  intro front rest hfront _
  obtain ⟨u, front, rfl, rfl, hnil⟩ := List.map_eq_cons_iff.1 hfront
  cases List.map_eq_nil_iff.1 hnil
  simp [take, current, advance, ht]

theorem reads_accept {t : Token} (ht : t ≠ .endOfInput) : Reads (accept t) [t] true Anything := by
  intro front rest hfront _
  obtain ⟨u, front, rfl, rfl, hnil⟩ := List.map_eq_cons_iff.1 hfront
  cases List.map_eq_nil_iff.1 hnil
  simp [accept, current, advance, ht]

theorem reads_accept_other {t : Token} (ht : t ≠ .endOfInput) :
    Reads (accept t) [] false (fun rest => rest.head? ≠ some t) := by
  intro front rest hfront hrest
  cases List.map_eq_nil_iff.1 hfront
  have hcurrent : current rest ≠ t := by
    cases rest with
    | nil => exact Ne.symm ht
    | cons u rest => exact fun h => hrest (congrArg some h)
  simp [accept, hcurrent]

theorem reads_acceptPunct (c : Char) : Reads (acceptPunct c) [.punct c] true Anything :=
  reads_accept nofun

theorem reads_acceptWord (word : String) : Reads (acceptWord word) [.ident word] true Anything :=
  reads_accept nofun

theorem reads_acceptPunct_other (c : Char) :
    Reads (acceptPunct c) [] false (fun rest => rest.head? ≠ some (.punct c)) :=
  reads_accept_other nofun

theorem reads_acceptWord_other (word : String) :
    Reads (acceptWord word) [] false (fun rest => rest.head? ≠ some (.ident word)) :=
  reads_accept_other nofun

theorem reads_expect {what : Expected} {t : Token} (ht : t ≠ .endOfInput) :
    Reads (expect what t) [t] () Anything := by
  unfold expect
  refine (reads_accept ht).cons ?_
  exact Reads.pure

theorem reads_expectPunct (c : Char) : Reads (expectPunct c) [.punct c] () Anything :=
  reads_expect nofun

theorem reads_expectWord (word : String) : Reads (expectWord word) [.ident word] () Anything :=
  reads_expect nofun

theorem reads_expectName (text : String) : Reads expectName [.ident text] text Anything := by
  unfold expectName
  refine Reads.peek ?_
  exact (reads_take (.ident text) nofun).cons Reads.pure

theorem reads_expectInt (value : Int64) : Reads expectInt [.int value] value Anything := by
  unfold expectInt
  refine Reads.peek ?_
  exact (reads_take (.int value) nofun).cons Reads.pure

/-! ### Labels -/

theorem hexValue?_digitChar : ∀ d < 16, Text.hexValue? (Nat.digitChar d) = some d := by
  decide

theorem readHexFrom?_append (acc : Nat) (cs ds : List Char) :
    Text.readHexFrom? acc (cs ++ ds) =
      (Text.readHexFrom? acc cs).bind fun n => Text.readHexFrom? n ds := by
  induction cs generalizing acc with
  | nil => rfl
  | cons c cs ih =>
    simp only [List.cons_append, Text.readHexFrom?]
    split
    · exact ih _
    · rfl

theorem readHexFrom?_toDigits (n : Nat) :
    Text.readHexFrom? 0 (Nat.toDigits 16 n) = some n := by
  induction n using Nat.strongRecOn with
  | ind n ih =>
    rw [Nat.toDigits_eq_if (by decide)]
    split
    · next hn => simp [Text.readHexFrom?, hexValue?_digitChar n hn]
    · next hn =>
      have hdigit := hexValue?_digitChar (n % 16) (Nat.mod_lt _ (by decide))
      rw [readHexFrom?_append, ih (n / 16) (by omega)]
      simp [Text.readHexFrom?, hdigit, Nat.div_add_mod]

theorem readHexFrom?_replicate (count : Nat) (ds : List Char) :
    Text.readHexFrom? 0 (List.replicate count '0' ++ ds) = Text.readHexFrom? 0 ds := by
  induction count with
  | zero => rfl
  | succ count ih =>
    rw [List.replicate_succ, List.cons_append]
    exact ih

theorem readWord32?_of_readHexFrom? {ds : List Char} {n : Nat} (hne : ds ≠ [])
    (h : Text.readHexFrom? 0 ds = some n) (hn : n < UInt32.size) :
    Text.readWord32? ds = some n.toUInt32 := by
  cases ds with
  | nil => exact absurd rfl hne
  | cons d ds =>
    -- A plus sign is no digit, so none is taken off.
    have hplus : d ≠ '+' := by
      rintro rfl
      cases h
    have hread : Text.readHex? (d :: ds) = some n := h
    unfold Text.readWord32?
    split
    · next hd =>
      cases hd
      exact absurd rfl hplus
    · simp only [hread, if_pos hn]

theorem readLabel?_label (offset : UInt32) :
    Text.readLabel? (Text.label offset) = some offset := by
  have hread : Text.readHexFrom? 0 (Text.hexDigits 4 offset.toNat) = some offset.toNat := by
    unfold Text.hexDigits
    rw [readHexFrom?_replicate, readHexFrom?_toDigits]
  have hne : Text.hexDigits 4 offset.toNat ≠ [] := by
    simp [Text.hexDigits, Nat.toDigits_ne_nil]
  unfold Text.readLabel?
  rw [label_toList]
  have hword := readWord32?_of_readHexFrom? hne hread offset.toNat_lt
  simpa using hword

theorem reads_label (offset : UInt32) :
    Reads label [.ident (Text.label offset)] offset Anything := by
  unfold label
  refine (reads_expectName _).cons ?_
  rw [readLabel?_label]
  exact Reads.pure

/-! ### Loops -/

/-- A loop that stands at `state` takes `y` from the tokens `ts`. -/
def Loops (step : σ → Reader (Round σ β)) (state : σ) (ts : List Token) (y : β)
    (next : List Token → Prop) : Prop :=
  ∀ stalled, Reads (Parser.iterate stalled step state) ts y next

namespace Loops

variable {step : σ → Reader (Round σ β)} {state state' : σ} {ts us : List Token} {y : β}
  {next after : List Token → Prop}

theorem reads (h : Loops step state ts y next) : Reads (loop step state) ts y next := by
  intro front rest hfront hrest
  exact h _ front rest hfront hrest

theorem done (h : Reads (step state) ts (.done y) next) : Loops step state ts y next := by
  intro stalled front rest hfront hrest
  rw [Parser.iterate_eq, h front rest hfront hrest]

/-- A round that goes on has to take at least one token. -/
theorem more (h : Reads (step state) ts (.more state') after) (hne : ts ≠ [])
    (hloop : Loops step state' us y next) (hnext : ∀ rest, next rest → after (us ++ rest)) :
    Loops step state (ts ++ us) y next := by
  intro stalled front rest hfront hrest
  obtain ⟨front, middle, rfl, hts, hus⟩ := List.map_eq_append_iff.1 hfront
  have hbehind : after ((middle ++ rest).map (·.token)) := by
    rw [List.map_append, hus]
    exact hnext _ hrest
  -- The loop goes on because the round has made its input shorter.
  have hshorter : (middle ++ rest).length < (front ++ (middle ++ rest)).length := by
    have hfront : front ≠ [] := by
      rintro rfl
      exact hne hts.symm
    have := List.length_pos_iff.2 hfront
    simp only [List.length_append]
    omega
  rw [List.append_assoc, Parser.iterate_eq, h front (middle ++ rest) hts hbehind]
  simp only [if_pos hshorter]
  exact hloop stalled middle rest hus hrest

/-- A loop that takes one item a round. Its state is a function of the items that it has seen, and
every item starts with a token that the item before it stops at. -/
theorem items (state : List ι → σ) (seen : List ι) {pieces : ι → List Piece} {xs : List ι}
    (h : ∀ seen, ∀ x ∈ xs,
      Reads (step (state seen)) (tokens (pieces x)) (.more (state (seen ++ [x]))) after)
    (hstart : ∀ x ∈ xs, ∃ t us, tokens (pieces x) = t :: us ∧ ∀ rest, after (t :: rest))
    (hloop : Loops step (state (seen ++ xs)) us y next)
    (hnext : ∀ rest, next rest → after (us ++ rest)) :
    Loops step (state seen) (tokens (xs.flatMap pieces) ++ us) y next := by
  induction xs generalizing seen with
  | nil => simpa using hloop
  | cons x xs ih =>
    have hrest : Loops step (state (seen ++ [x])) (tokens (xs.flatMap pieces) ++ us) y next := by
      refine ih (seen ++ [x]) (fun seen z hz => h seen z (.tail _ hz))
        (fun z hz => hstart z (.tail _ hz)) ?_
      rwa [List.append_assoc]
    obtain ⟨t, ts, hts, -⟩ := hstart x (.head _)
    rw [List.flatMap_cons, tokens_append, List.append_assoc]
    refine more (h seen x (.head _)) (by simp [hts]) hrest ?_
    intro rest hr
    -- Behind this item stands the next one, or what stands behind the whole loop.
    cases xs with
    | nil => exact hnext rest hr
    | cons z xs =>
      obtain ⟨u, us', hus, hafter⟩ := hstart z (.tail _ (.head _))
      rw [List.flatMap_cons, tokens_append, hus]
      exact hafter _

end Loops

/-! ### Lists -/

/-- The pieces start with a word or a name. -/
def StartsWithWord (ps : List Piece) : Prop :=
  ∃ word rest, tokens ps = .ident word :: rest

/-- One round of a list with commas. -/
def commaRound (item : Reader α) (seen : List α) : Reader (Round (List α) (List α)) := do
  let x ← item
  if ← acceptPunct ',' then return .more (x :: seen)
  else return .done (x :: seen).reverse

/-- What follows ends an item of a list: a comma, or the parenthesis that closes the list. -/
def EndsItem (rest : List Token) : Prop :=
  StartsWith (.punct ',') rest ∨ StartsWith (.punct ')') rest

section Lists

variable {item : Reader α} {pieces : ι → List Piece} {value : ι → α}

/-- The round that takes an item with a comma behind it. -/
theorem reads_commaRound_more {x : ι} (h : Reads item (tokens (pieces x)) (value x) EndsItem)
    (seen : List α) :
    Reads (commaRound item seen) (tokens (pieces x) ++ [.punct ',']) (.more (value x :: seen))
      Anything := by
  refine h.bind ?_ fun _ _ => .inl rfl
  exact (reads_acceptPunct ',').cons Reads.pure

/-- The round that takes the last item. -/
theorem reads_commaRound_done {x : ι} (h : Reads item (tokens (pieces x)) (value x) EndsItem)
    (seen : List α) :
    Reads (commaRound item seen) (tokens (pieces x)) (.done (value x :: seen).reverse)
      (StartsWith (.punct ')')) := by
  refine h.last ?_ fun _ hrest => .inr hrest
  refine (reads_acceptPunct_other ',').last Reads.pure ?_
  intro rest hrest
  rw [hrest]
  nofun

theorem loops_commaRound {x : ι} {xs : List ι}
    (h : ∀ z ∈ x :: xs, Reads item (tokens (pieces z)) (value z) EndsItem) (seen : List α) :
    Loops (commaRound item) seen
      (tokens (List.intercalate [.punct ','] ((x :: xs).map pieces)))
      (seen.reverse ++ (x :: xs).map value) (StartsWith (.punct ')')) := by
  induction xs generalizing x seen with
  | nil =>
    have := Loops.done (reads_commaRound_done (h x (.head _)) seen)
    simpa using this
  | cons y ys ih =>
    have hrest := ih (x := y) (fun z hz => h z (.tail _ hz)) (value x :: seen)
    have hround := reads_commaRound_more (h x (.head _)) seen
    have := Loops.more hround (by simp) hrest fun _ _ => trivial
    rw [List.map_cons, List.map_cons, List.intercalate_cons_cons]
    simpa using this

theorem startsWithWord_commas {x : ι} (xs : List ι) (h : StartsWithWord (pieces x)) :
    StartsWithWord (List.intercalate [.punct ','] ((x :: xs).map pieces)) := by
  obtain ⟨word, rest, hrest⟩ := h
  cases xs with
  | nil => exact ⟨word, rest, by simpa using hrest⟩
  | cons y ys =>
    rw [List.map_cons, List.map_cons, List.intercalate_cons_cons]
    exact ⟨word, _, by rw [List.append_assoc, tokens_append, hrest, List.cons_append]⟩

theorem reads_inParens {xs : List ι}
    (h : ∀ x ∈ xs, Reads item (tokens (pieces x)) (value x) EndsItem)
    (hstart : ∀ x ∈ xs, StartsWithWord (pieces x)) :
    Reads (inParens item) (tokens (parens (xs.map pieces))) (xs.map value) Anything := by
  have htokens : tokens (parens (xs.map pieces)) = .punct '(' ::
      (tokens (List.intercalate [.punct ','] (xs.map pieces)) ++ [.punct ')']) := by
    simp [parens]
  rw [htokens]
  unfold inParens
  refine (reads_expectPunct '(').cons ?_
  cases xs with
  | nil =>
    refine Reads.peek (t := .punct ')') ?_
    refine Reads.pure_bind ?_
    exact (reads_expectPunct ')').cons Reads.pure
  | cons x xs =>
    -- The first item starts with a word, so the list is not taken for an empty one.
    have hloop := (loops_commaRound h []).reads
    obtain ⟨word, us, hus⟩ := startsWithWord_commas xs (hstart x (.head _))
    rw [hus] at hloop ⊢
    refine Reads.peek ?_
    refine hloop.bind ?_ fun _ _ => rfl
    exact (reads_expectPunct ')').cons Reads.pure

/-- A list in parentheses whose items are read back as they are. -/
theorem reads_list {item : Reader ι} {xs : List ι}
    (h : ∀ x ∈ xs, Reads item (tokens (pieces x)) x EndsItem)
    (hstart : ∀ x ∈ xs, StartsWithWord (pieces x)) :
    Reads (inParens item) (tokens (parens (xs.map pieces))) xs Anything := by
  have hitem : ∀ x ∈ xs, Reads item (tokens (pieces x)) (id x) EndsItem := h
  have := reads_inParens hitem hstart
  rwa [List.map_id] at this

end Lists

/-! ## Types -/

/-- What follows a type is no pair of brackets. -/
def NoBrackets (rest : List Token) : Prop :=
  rest.take 2 ≠ [.punct '[', .punct ']']

theorem splitLast_eq_none {mark : Char} {cs : List Char} (h : mark ∉ cs) :
    TypeName.splitLast mark cs = none := by
  induction cs with
  | nil => rfl
  | cons c cs ih =>
    simp only [List.mem_cons, not_or] at h
    simp [TypeName.splitLast, ih h.2, Ne.symm h.1]

theorem splitLast_append {mark : Char} {cs : List Char} (front : List Char) (h : mark ∉ cs) :
    TypeName.splitLast mark (front ++ mark :: cs) = some (front, cs) := by
  induction front with
  | nil => simp [TypeName.splitLast, splitLast_eq_none h]
  | cons c front ih => simp [TypeName.splitLast, ih]

/-- Cutting a full name at its last dot gives its parts back. -/
theorem ofDotted_fullName {t : TypeName} (h : t.Printable) :
    TypeName.ofDotted t.assembly t.fullName = t := by
  obtain ⟨-, -, -, hdot⟩ := h
  obtain ⟨assembly, qualifier, name⟩ := t
  simp only [TypeName.fullName]
  split
  · next hqualifier =>
    cases hqualifier
    simp [TypeName.ofDotted, splitLast_eq_none hdot]
  · have hsplit : TypeName.splitLast '.' (qualifier ++ "." ++ name).toList =
        some (qualifier.toList, name.toList) := by
      have := splitLast_append qualifier.toList hdot
      simpa using this
    simp only [TypeName.ofDotted, hsplit, String.ofList_toList]

theorem reads_typeName {t : TypeName} (h : t.Printable) :
    Reads typeName (tokens t.pieces) t Anything := by
  have hname := ofDotted_fullName h
  unfold typeName TypeName.pieces
  split
  · next assembly hassembly =>
    refine (reads_acceptPunct '[').cons ?_
    refine (reads_expectName assembly).cons ?_
    refine (reads_expectPunct ']').cons ?_
    rw [hassembly] at hname
    have := (reads_expectName t.fullName).map (g := TypeName.ofDotted (some assembly))
    rwa [hname] at this
  · next hassembly =>
    refine (reads_acceptPunct_other '[').none ?_ fun rest _ => nofun
    rw [hassembly] at hname
    have := (reads_expectName t.fullName).map (g := TypeName.ofDotted none)
    rwa [hname] at this

/-- The array type of so many dimensions over `sig`. -/
def arrayOf (sig : TypeSig) : Nat → TypeSig
  | 0 => sig
  | depth + 1 => arrayOf (.array sig) depth

/-- So many pairs of brackets. -/
def suffix (depth : Nat) : List Token :=
  tokens (List.replicate depth .brackets)

theorem arraySuffix_of_noBrackets (sig : TypeSig) {rest : List Located}
    (h : NoBrackets (rest.map (·.token))) : arraySuffix sig rest = (sig, rest) := by
  unfold arraySuffix
  split
  · next t u rest =>
    have hpair : ¬(t.token = .punct '[' ∧ u.token = .punct ']') := by
      rintro ⟨ht, hu⟩
      exact h (by simp [ht, hu])
    rw [if_neg hpair]
  · rfl

theorem reads_arraySuffix (sig : TypeSig) (depth : Nat) :
    Reads (modifyGet (arraySuffix sig)) (suffix depth) (arrayOf sig depth) NoBrackets := by
  intro front rest hfront hrest
  change Except.ok (arraySuffix sig (front ++ rest)) = _
  induction depth generalizing sig front with
  | zero =>
    cases List.map_eq_nil_iff.1 hfront
    rw [List.nil_append, arraySuffix_of_noBrackets sig hrest]
    rfl
  | succ depth ih =>
    -- Two tokens make one more dimension.
    obtain ⟨t, front, rfl, ht, hfront⟩ := List.map_eq_cons_iff.1 hfront
    obtain ⟨u, front, rfl, hu, hfront⟩ := List.map_eq_cons_iff.1 hfront
    rw [List.cons_append, List.cons_append, arraySuffix, if_pos ⟨ht, hu⟩]
    exact ih (.array sig) front hfront

/-- The words with which a printed type starts. -/
def typeWords : List String :=
  ["void", "bool", "char", "int8", "uint8", "int16", "uint16", "int32", "uint32", "int64", "uint64",
   "float32", "float64", "native", "string", "object", "class", "valuetype"]

theorem startsWith_typeWord (s : TypeSig) :
    ∃ word ∈ typeWords, ∃ rest, tokens s.pieces = .ident word :: rest := by
  induction s with
  | array element ih =>
    obtain ⟨word, hword, rest, hrest⟩ := ih
    exact ⟨word, hword, _, by rw [TypeSig.pieces, tokens_append, hrest, List.cons_append]⟩
  | _ => exact ⟨_, by decide, _, rfl⟩

theorem reads_typeAfter_keyword {word : String} {s : TypeSig} (h : keywordType? word = some s) :
    Reads (typeAfter word) [] s Anything := by
  unfold typeAfter
  rw [h]
  exact Reads.pure

/-- A type that is no array, and the brackets behind it. -/
theorem reads_typeSig_base {word : String} {us : List Token} {s : TypeSig}
    (h : Reads (typeAfter word) us s Anything) (depth : Nat) :
    Reads typeSig (.ident word :: (us ++ suffix depth)) (arrayOf s depth) NoBrackets := by
  unfold typeSig
  refine Reads.peek ?_
  refine (reads_take (.ident word) nofun).cons ?_
  exact h.bind (reads_arraySuffix s depth) fun _ _ => trivial

/-- The induction is on the type; the brackets of an array are handed on to its elements. -/
theorem reads_typeSig_suffix {s : TypeSig} (h : s.Printable) (depth : Nat) :
    Reads typeSig (tokens s.pieces ++ suffix depth) (arrayOf s depth) NoBrackets := by
  induction s generalizing depth with
  | array element ih =>
    have := ih h (depth + 1)
    rw [TypeSig.pieces, tokens_append, List.append_assoc]
    exact this
  | nativeInt =>
    refine reads_typeSig_base ?_ depth
    refine (reads_acceptWord_other "unsigned").none ?_ fun _ _ => by simp
    exact (reads_expectWord "int").cons Reads.pure
  | nativeUInt =>
    refine reads_typeSig_base ?_ depth
    refine (reads_acceptWord "unsigned").cons ?_
    exact (reads_expectWord "int").cons Reads.pure
  | classType name | valueType name =>
    refine reads_typeSig_base ?_ depth
    exact (reads_typeName (h name (.head _))).map
  | _ => exact reads_typeSig_base (reads_typeAfter_keyword rfl) depth

theorem reads_typeSig {s : TypeSig} (h : s.Printable) :
    Reads typeSig (tokens s.pieces) s NoBrackets := by
  have := reads_typeSig_suffix h 0
  rwa [suffix, List.replicate_zero, tokens_nil, List.append_nil] at this

theorem startsWithWord_typeSig (s : TypeSig) : StartsWithWord s.pieces := by
  obtain ⟨word, -, rest, hrest⟩ := startsWith_typeWord s
  exact ⟨word, rest, hrest⟩

/-! ## References -/

theorem noBrackets_of_startsWith {t : Token} {rest : List Token} (h : StartsWith t rest)
    (ht : t ≠ .punct '[') : NoBrackets rest := by
  intro htake
  obtain ⟨us, rfl⟩ := List.head?_eq_some_iff.1 h
  exact ht (List.cons.inj htake).1

theorem noBrackets_of_endsItem {rest : List Token} (h : EndsItem rest) : NoBrackets rest := by
  rcases h with h | h
  · exact noBrackets_of_startsWith h nofun
  · exact noBrackets_of_startsWith h nofun

/-- The assembly before a type name is not taken for the brackets of an array. -/
theorem noBrackets_typeName (t : TypeName) (rest : List Token) :
    NoBrackets (tokens t.pieces ++ rest) := by
  unfold TypeName.pieces
  split
  · simp [NoBrackets]
  · simp [NoBrackets]

theorem reads_typeSigs {sigs : List TypeSig} (h : ∀ s ∈ sigs, s.Printable) :
    Reads (inParens typeSig) (tokens (parens (sigs.map TypeSig.pieces))) sigs Anything := by
  refine reads_list ?_ fun s _ => startsWithWord_typeSig s
  intro s hs
  exact (reads_typeSig (h s hs)).weaken fun _ => noBrackets_of_endsItem

theorem reads_doubleColon (refs : RefClass) :
    Reads (doubleColon refs) [.doubleColon] () Anything := by
  unfold doubleColon
  exact (reads_take .doubleColon nofun).cons Reads.pure

theorem reads_fieldRef {r : FieldRef} (h : r.Printable) :
    Reads fieldRef (tokens r.pieces) r Anything := by
  obtain ⟨hdeclaring, -, htype⟩ := h
  unfold fieldRef FieldRef.pieces
  rw [tokens_append, tokens_append, List.append_assoc]
  refine (reads_typeSig htype).bind ?_ fun rest _ => ?_
  · refine (reads_typeName hdeclaring).bind ?_ fun _ _ => trivial
    refine (reads_doubleColon .field).cons ?_
    exact (reads_expectName r.name).map
  · rw [List.append_assoc]
    exact noBrackets_typeName _ _

/-- A word that is there or not, where nothing else could start with it. -/
theorem reads_flag {word : String} (holds : Bool) :
    Reads (acceptWord word) (tokens ((chosen [(holds, word)]).map .word)) holds
      (fun rest => rest.head? ≠ some (.ident word)) := by
  cases holds with
  | false => exact reads_acceptWord_other word
  | true => exact (reads_acceptWord word).of_anything

/-- No type starts with a word that is not among `typeWords`. -/
theorem typeSig_not_startsWith {word : String} (h : word ∉ typeWords) (s : TypeSig)
    (rest : List Token) : (tokens s.pieces ++ rest).head? ≠ some (.ident word) := by
  obtain ⟨first, hfirst, us, hus⟩ := startsWith_typeWord s
  rw [hus]
  rintro hhead
  cases hhead
  exact h hfirst

theorem head?_typeSig_ne_punct (s : TypeSig) (rest : List Token) {c : Char} :
    (tokens s.pieces ++ rest).head? ≠ some (.punct c) := by
  obtain ⟨word, us, hus⟩ := startsWithWord_typeSig s
  rw [hus]
  nofun

theorem reads_methodRef {r : MethodRef} (h : r.Printable) :
    Reads methodRef (tokens r.pieces) r Anything := by
  obtain ⟨hdeclaring, -, hresult, hparams⟩ := h
  have htokens : tokens r.pieces = tokens ((chosen [(r.hasThis, "instance")]).map .word) ++
      (tokens r.result.pieces ++ (tokens r.declaring.pieces ++ (.doubleColon :: .ident r.name ::
        tokens (parens (r.params.map TypeSig.pieces))))) := by
    simp [MethodRef.pieces]
  rw [htokens]
  unfold methodRef
  refine (reads_flag r.hasThis).bind ?_ fun rest _ => ?_
  · refine (reads_typeSig hresult).bind ?_ fun rest _ => ?_
    · refine (reads_typeName hdeclaring).bind ?_ fun _ _ => trivial
      refine (reads_doubleColon .method).cons ?_
      refine (reads_expectName r.name).cons ?_
      exact (reads_typeSigs hparams).map
    · -- Behind the result stands the declaring type, perhaps with its assembly in brackets.
      rw [List.append_assoc]
      exact noBrackets_typeName _ _
  · -- Without a receiver the result comes first, and no type starts with the receiver's word.
    rw [List.append_assoc]
    exact typeSig_not_startsWith (by decide) _ _

end CilCompiler.Listing
