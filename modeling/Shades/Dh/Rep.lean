import Shades.DigitTree
import Shades.Moved
import Shades.Dh.Code

/-!
# Shades.Dh.Rep

What a dynamic hash in memory means.  `DhAt words S t p` says that the pointer
`p` is the tree `t`, kept in cells of the region `S`.  The digits of a key are
its pairs of bits, the highest first.  When a commit moves the cells, a hash that
is reached is found again with its data moved.
-/

namespace Shades

open DigitTree Dh

/-! ## digits -/

theorem slot_lt (key bitsCompared : Nat) : slot key bitsCompared < internalNodeSize := by
  unfold slot offset internalNodeSize
  rw [lshift32_eq, Nat.shiftRight_eq_div_pow]
  omega

/-- The digits of a key. -/
def digit (level key : Nat) : Fin internalNodeSize := ⟨slot key (offset * level), slot_lt _ _⟩

/-- The two bits of a level. -/
theorem slot_eq {level : Nat} (key : Nat) (hlevel : level ≤ 15) :
    slot key (offset * level) = key / 2 ^ (30 - 2 * level) % 4 := by
  have hword : (2 : Nat) ^ 32 = 2 ^ (30 - 2 * level) * 4 * 2 ^ (2 * level) := by
    rw [show (4 : Nat) = 2 ^ 2 from rfl, ← pow_add, ← pow_add]
    congr 1
    omega
  have htop : (2 : Nat) ^ 30 = 2 ^ (30 - 2 * level) * 2 ^ (2 * level) := by
    rw [← pow_add]
    congr 1
    omega
  unfold slot offset
  rw [lshift32_eq, Nat.shiftRight_eq_div_pow, hword, Nat.mul_mod_mul_right, htop,
    Nat.mul_div_mul_right _ _ (Nat.two_pow_pos _), Nat.mod_mul_right_div_self]

/-- Keys with the same first digits have the same first bits. -/
theorem div_eq_of_digits {key key' n : Nat} (hkey : key < 2 ^ 32) (hkey' : key' < 2 ^ 32)
    (hn : n ≤ 16) (h : ∀ j < n, digit j key = digit j key') :
    key / 2 ^ (32 - 2 * n) = key' / 2 ^ (32 - 2 * n) := by
  induction n with
  | zero => rw [Nat.div_eq_of_lt hkey, Nat.div_eq_of_lt hkey']
  | succ j ih =>
    have hdigit := congrArg Fin.val (h j (Nat.lt_succ_self j))
    unfold digit at hdigit
    dsimp only at hdigit
    rw [slot_eq key (by omega), slot_eq key' (by omega)] at hdigit
    have hih := ih (by omega) fun i hi => h i (Nat.lt_succ_of_lt hi)
    rw [show 32 - 2 * j = 30 - 2 * j + 2 by omega, pow_add, ← Nat.div_div_eq_div_mul,
      ← Nat.div_div_eq_div_mul] at hih
    rw [show 32 - 2 * (j + 1) = 30 - 2 * j by omega]
    omega

/-- A key is known by its digits. -/
theorem eq_of_digits {key key' : Nat} (hkey : key < 2 ^ 32) (hkey' : key' < 2 ^ 32)
    (h : ∀ j < 16, digit j key = digit j key') : key = key' := by
  simpa using div_eq_of_digits hkey hkey' (Nat.le_refl 16) h

/-- The keys are ordered like their digits. -/
theorem lt_of_digit_lt (key key' level : Nat) (hkey : key < 2 ^ 32) (hkey' : key' < 2 ^ 32)
    (h : ∀ j < level, digit j key = digit j key') (hlt : digit level key < digit level key') :
    key < key' := by
  by_cases hlevel : level ≤ 15
  · have hpfx := div_eq_of_digits hkey hkey' (Nat.le_succ_of_le hlevel) h
    have hdigit : slot key (offset * level) < slot key' (offset * level) := hlt
    rw [slot_eq key hlevel, slot_eq key' hlevel] at hdigit
    rw [show 32 - 2 * level = 30 - 2 * level + 2 by omega, pow_add, ← Nat.div_div_eq_div_mul,
      ← Nat.div_div_eq_div_mul] at hpfx
    refine Nat.lt_of_div_lt_div (c := 2 ^ (30 - 2 * level)) ?_
    omega
  · have heq := eq_of_digits hkey hkey' fun j hj => h j (by omega)
    rw [heq] at hlt
    exact absurd hlt (lt_irrefl _)

/-! ## the loops over a leaf -/

variable {words words' : Nat → Nat} {S S' : Nat → Prop} {p q key n i j : Nat}

@[simp] theorem length_entriesFrom : (entriesFrom words p n i).length = n := by
  induction n generalizing i with
  | zero => rfl
  | succ n ih => simp [entriesFrom, ih]

theorem entriesFrom_congr (h : ∀ j, i ≤ j → j < i + 2 * n → words' (q + j) = words (p + j)) :
    entriesFrom words' q n i = entriesFrom words p n i := by
  induction n generalizing i with
  | zero => rfl
  | succ n ih =>
    have hkey := h i (Nat.le_refl i) (by omega)
    have hdata := h (i + 1) (by omega) (by omega)
    rw [entriesFrom, entriesFrom, hkey, Nat.add_assoc, Nat.add_assoc, hdata,
      ih fun j hj hj' => h j (by omega) (by omega)]

/-- The key is not there. -/
theorem keyLoop_none (h : keyLoop words p key n i = none) :
    key ∉ (entriesFrom words p n i).map Prod.fst := by
  induction n generalizing i with
  | zero => simp [entriesFrom]
  | succ n ih =>
    unfold keyLoop at h
    split at h
    · cases h
    · next hne =>
      simp only [entriesFrom, List.map_cons, List.mem_cons, not_or]
      exact ⟨fun heq => hne heq.symm, ih h⟩

/-- The first entry with the key. -/
theorem keyLoop_some (h : keyLoop words p key n i = some j) :
    ∃ before after, entriesFrom words p n i = before ++ (key, words (p + j + 1)) :: after ∧
      key ∉ before.map Prod.fst ∧ j = i + 2 * before.length := by
  induction n generalizing i with
  | zero => cases h
  | succ n ih =>
    unfold keyLoop at h
    split at h
    · next heq =>
      obtain rfl := Option.some.inj h
      exact ⟨[], entriesFrom words p n (i + 2), by rw [entriesFrom, heq]; rfl, by simp, rfl⟩
    · next hne =>
      obtain ⟨before, after, heq, hnot, hj⟩ := ih h
      refine ⟨(words (p + i), words (p + i + 1)) :: before, after, ?_, ?_, ?_⟩
      · rw [entriesFrom, heq, List.cons_append]
      · simp only [List.map_cons, List.mem_cons, not_or]
        exact ⟨fun heq => hne heq.symm, hnot⟩
      · rw [List.length_cons]
        omega

/-! ## trees in memory -/

/-- A leaf with its entries. -/
structure LeafCell (words : Nat → Nat) (S : Nat → Prop) (p : Nat) (entries : List (Nat × Nat)) :
    Prop where
  ne_null : p ≠ nullPtr
  header : words p = CellType.leaf.header ||| entries.length
  length_lt : entries.length < 2 ^ 24
  cell : ∀ i < 2 * entries.length + 1, S (p + i)
  entries_eq : entriesFrom words p entries.length 1 = entries.map fun e => (e.1, ptrToWord e.2)
  keys : ∀ e ∈ entries, e.1 < 2 ^ 32

/-- A tree. -/
def DhAt (words : Nat → Nat) (S : Nat → Prop) : Trie internalNodeSize Nat Nat → Nat → Prop
  | .nil, p => p = nullPtr
  | .leaf entries, p => LeafCell words S p entries
  | .node sons, p =>
    p ≠ nullPtr ∧ (∀ i < internalNodeSize + 1, S (p + i)) ∧
      cellType (words p) = CellType.internal.code ∧
      ∀ i : Fin internalNodeSize, ∃ q, words (p + (i + 1)) = ptrToWord q ∧ DhAt words S (sons i) q

variable {entries : List (Nat × Nat)} {t t' : Trie internalNodeSize Nat Nat}
variable {sons : Fin internalNodeSize → Trie internalNodeSize Nat Nat}

theorem LeafCell.frame (h : LeafCell words S p entries) (hagree : AgreeOn S words words')
    (hS : ∀ a, S a → S' a) : LeafCell words' S' p entries where
  ne_null := h.ne_null
  header := (hagree _ (h.cell 0 (by omega))).trans h.header
  length_lt := h.length_lt
  cell i hi := hS _ (h.cell i hi)
  entries_eq := (entriesFrom_congr fun j _ hj => hagree _ (h.cell j (by omega))).trans h.entries_eq
  keys := h.keys

theorem LeafCell.numberOfKeys_eq (h : LeafCell words S p entries) :
    numberOfKeys words p = entries.length := by
  rw [numberOfKeys, h.header, header_or_and _ h.length_lt]

theorem LeafCell.cellType_eq (h : LeafCell words S p entries) :
    cellType (words p) = CellType.leaf.code := by
  rw [h.header, cellType_header_or _ h.length_lt]

theorem DhAt.frame (h : DhAt words S t p) (hagree : AgreeOn S words words')
    (hS : ∀ a, S a → S' a) : DhAt words' S' t p := by
  induction t generalizing p with
  | nil => exact h
  | leaf entries => exact LeafCell.frame h hagree hS
  | node sons ih =>
    obtain ⟨hp, hcell, htype, hsons⟩ := h
    refine ⟨hp, fun i hi => hS _ (hcell i hi), ?_, fun i => ?_⟩
    · rw [← htype]
      exact congrArg cellType (hagree _ (hcell 0 (by decide)))
    · obtain ⟨q, hword, hq⟩ := hsons i
      exact ⟨q, (hagree _ (hcell (i + 1) (by omega))).trans hword, ih i hq⟩

/-- Only the empty tree is `NULL_PTR`. -/
theorem DhAt.eq_nullPtr_iff (h : DhAt words S t p) : p = nullPtr ↔ t = .nil := by
  cases t with
  | nil => exact ⟨fun _ => rfl, fun _ => h⟩
  | leaf entries => exact ⟨fun heq => absurd heq (LeafCell.ne_null h), nofun⟩
  | node sons => exact ⟨fun heq => absurd heq h.1, nofun⟩

/-- The keys are words. -/
theorem DhAt.allKeys (h : DhAt words S t p) : AllKeys (· < 2 ^ 32) t := by
  induction t generalizing p with
  | nil => trivial
  | leaf entries => exact LeafCell.keys h
  | node sons ih =>
    obtain ⟨-, -, -, hsons⟩ := h
    intro i
    obtain ⟨q, -, hq⟩ := hsons i
    exact ih i hq

/-- Different trees are not at the same address. -/
theorem DhAt.unique (h : DhAt words S t p) (h' : DhAt words S' t' p) : t = t' := by
  induction t generalizing p t' with
  | nil => exact (h'.eq_nullPtr_iff.mp h).symm
  | leaf entries =>
    have hleaf : LeafCell words S p entries := h
    cases t' with
    | nil => exact absurd h' hleaf.ne_null
    | leaf entries' =>
      have hleaf' : LeafCell words S' p entries' := h'
      have hinj : Function.Injective fun e : Nat × Nat => (e.1, ptrToWord e.2) := by
        rintro ⟨key, x⟩ ⟨key', x'⟩ heq
        obtain ⟨rfl, hx⟩ := Prod.mk.inj heq
        exact congrArg (Prod.mk key) (ptrToWord_inj.mp hx)
      have hlen : entries.length = entries'.length :=
        hleaf.numberOfKeys_eq.symm.trans hleaf'.numberOfKeys_eq
      have hmap := hleaf.entries_eq
      rw [hlen, hleaf'.entries_eq] at hmap
      rw [hinj.list_map hmap]
    | node sons =>
      have htype := h'.2.2.1
      rw [hleaf.cellType_eq] at htype
      exact absurd htype (by decide)
  | node sons ih =>
    obtain ⟨hp, -, htype, hsons⟩ := h
    cases t' with
    | nil => exact absurd h' hp
    | leaf entries =>
      have hleaf : LeafCell words S' p entries := h'
      rw [hleaf.cellType_eq] at htype
      exact absurd htype (by decide)
    | node sons' =>
      congr 1
      funext i
      obtain ⟨q, hword, hq⟩ := hsons i
      obtain ⟨q', hword', hq'⟩ := h'.2.2.2 i
      have heq : q = q' := ptrToWord_inj.mp (hword.symm.trans hword')
      exact ih i hq (heq ▸ hq')

/-- What the loop finds in a leaf. -/
theorem LeafCell.keyLoop_cases (h : LeafCell words S p entries) (key : Nat) :
    (keyLoop words p key entries.length 1 = none ∧ key ∉ entries.map Prod.fst) ∨
    ∃ before data after, entries = before ++ (key, data) :: after ∧
      key ∉ before.map Prod.fst ∧
      keyLoop words p key entries.length 1 = some (1 + 2 * before.length) ∧
      words (p + (1 + 2 * before.length) + 1) = ptrToWord data := by
  have hfst : (entriesFrom words p entries.length 1).map Prod.fst = entries.map Prod.fst := by
    rw [h.entries_eq, List.map_map]
    rfl
  cases hloop : keyLoop words p key entries.length 1 with
  | none =>
    have hnone := keyLoop_none hloop
    rw [hfst] at hnone
    exact .inl ⟨rfl, hnone⟩
  | some j =>
    obtain ⟨before, after, heq, hnot, rfl⟩ := keyLoop_some hloop
    rw [h.entries_eq, List.map_eq_append_iff] at heq
    obtain ⟨before', rest, rfl, rfl, hrest⟩ := heq
    obtain ⟨e, after', rfl, hentry, -⟩ := List.map_eq_cons_iff.mp hrest
    obtain ⟨k, data⟩ := e
    obtain ⟨rfl, hdata⟩ := Prod.mk.inj hentry
    rw [List.map_map] at hnot
    refine .inr ⟨before', data, after', rfl, hnot, ?_, ?_⟩
    · rw [List.length_map]
    · rw [hdata, List.length_map]

/-! ## searching -/

/-- The loop of `dh_find` finds what the tree has. -/
theorem findLoop_spec {room depth level n : Nat} {path : Nat → Fin internalNodeSize}
    (h : DhAt words S t p) (ht : Valid digit room depth path level t) (hlevel : level ≤ depth)
    (hn : depth < n + level) (key : Nat) :
    findLoop words key n p (offset * level) = some ((lookup digit level t key).getD nullPtr) := by
  induction t generalizing p path level n with
  | nil =>
    obtain ⟨n, rfl⟩ : ∃ k, n = k + 1 := ⟨n - 1, by omega⟩
    have hnull : p = nullPtr := h
    rw [findLoop, if_pos hnull]
    rfl
  | leaf entries =>
    obtain ⟨n, rfl⟩ : ∃ k, n = k + 1 := ⟨n - 1, by omega⟩
    have h' : LeafCell words S p entries := h
    rw [findLoop, if_neg h'.ne_null, if_pos h'.cellType_eq, h'.numberOfKeys_eq, lookup]
    rcases h'.keyLoop_cases key with ⟨hloop, hnot⟩ | ⟨before, data, after, rfl, hnot, hloop, hdata⟩
    · rw [hloop, lookup_eq_none.mpr hnot]
      rfl
    · rw [hloop]
      dsimp only
      rw [hdata, wordToPtr_ptrToWord, List.lookup_append, lookup_eq_none.mpr hnot]
      simp
  | node sons ih =>
    obtain ⟨n, rfl⟩ : ∃ k, n = k + 1 := ⟨n - 1, by omega⟩
    obtain ⟨hp, -, htype, hsons⟩ := h
    obtain ⟨hnode, hvalid⟩ := ht
    obtain ⟨q, hword, hq⟩ := hsons (digit level key)
    have hleaf : ¬ cellType (words p) = CellType.leaf.code := by
      rw [htype]
      decide
    have hslot : words (p + (slot key (offset * level) + 1)) = ptrToWord q := hword
    rw [findLoop, if_neg hp, if_neg hleaf, assert_true htype, hslot, wordToPtr_ptrToWord, lookup]
    exact ih _ hq (hvalid _) hnode (by omega)

/-! ## commits -/

/-- Where a pointer leads after the cells were moved. -/
def movedTo (place : Nat → Nat) (p : Nat) : Nat := if p = nullPtr then nullPtr else place p

section moved

variable {place : Nat → Nat} {roots : WordType → Nat → Prop}

theorem movedWord_ptr (p : Nat) :
    movedWord place .ptr (ptrToWord p) = ptrToWord (movedTo place p) := by
  unfold movedTo
  split
  · next hp =>
    rw [hp]
    exact movedWord_nullWord
  · next hp => exact movedWord_ptrToWord rfl hp

theorem cellDecls_internal (h : cellType (words p) = CellType.internal.code) :
    cellDecls words p = declare .ptr 1 internalNodeSize := by
  simp only [cellDecls, cellTypeOf_eq_some.mpr h]

theorem LeafCell.cellDecls_eq (h : LeafCell words S p entries) : cellDecls words p =
    (List.range entries.length).flatMap fun i =>
      [.field .word (2 * i + 1), .field .ptr (2 * i + 2)] := by
  simp only [cellDecls, cellTypeOf_eq_some.mpr h.cellType_eq]
  rw [← h.numberOfKeys_eq]
  rfl

/-- The entries of a leaf whose data were moved. -/
theorem entriesFrom_moved
    (hkey : ∀ j < n, words' (q + (i + 2 * j)) = words (p + (i + 2 * j)))
    (hdata : ∀ j < n, words' (q + (i + 2 * j + 1)) =
      movedWord place .ptr (words (p + (i + 2 * j + 1)))) :
    entriesFrom words' q n i =
      (entriesFrom words p n i).map fun e => (e.1, movedWord place .ptr e.2) := by
  induction n generalizing i with
  | zero => rfl
  | succ n ih =>
    rw [entriesFrom, entriesFrom, List.map_cons,
      ih (fun j hj => by
        rw [show i + 2 + 2 * j = i + 2 * (j + 1) by omega]
        exact hkey (j + 1) (by omega)) (fun j hj => by
        rw [show i + 2 + 2 * j = i + 2 * (j + 1) by omega]
        exact hdata (j + 1) (by omega))]
    have hfirst := hkey 0 (Nat.succ_pos n)
    have hsecond := hdata 0 (Nat.succ_pos n)
    rw [Nat.mul_zero, Nat.add_zero] at hfirst hsecond
    rw [hfirst, Nat.add_assoc, hsecond, Nat.add_assoc]

/-- A leaf that is reached. -/
theorem LeafCell.moved (h : LeafCell words S p entries)
    (hmoved : Moved place roots words words' S') (hx : Reached words roots .ptr (ptrToWord p)) :
    LeafCell words' S' (place p) (entries.map fun e => (e.1, movedTo place e.2)) := by
  have hcell : CellReached words roots p := by
    refine ⟨⟨.ptr, _, hx, pointsTo_ptrToWord rfl p⟩, h.ne_null, ?_⟩
    rw [h.cellType_eq]
    decide
  obtain ⟨hheader, h0⟩ := hmoved.header p hcell
  have hfield : ∀ j < entries.length, ∀ d ∈ [Decl.field .word (2 * j + 1),
      .field .ptr (2 * j + 2)], d ∈ cellDecls words p := by
    intro j hj d hd
    rw [h.cellDecls_eq]
    exact List.mem_flatMap.mpr ⟨j, List.mem_range.mpr hj, hd⟩
  have hkey (j : Nat) (hj : j < entries.length) :=
    hmoved.field p .word (2 * j + 1) hcell (hfield j hj _ (by simp))
  have hdata (j : Nat) (hj : j < entries.length) :=
    hmoved.field p .ptr (2 * j + 2) hcell (hfield j hj _ (by simp))
  refine ⟨hmoved.ne_null p hcell, ?_, by rw [List.length_map]; exact h.length_lt,
    fun i hi => ?_, ?_, fun e he => ?_⟩
  · rw [hheader, h.header, List.length_map]
  · rw [List.length_map] at hi
    rcases Nat.eq_zero_or_pos i with rfl | hpos
    · exact h0
    · rcases Nat.even_or_odd' i with ⟨j, rfl | rfl⟩
      · have hword := (hdata (j - 1) (by omega)).2
        rwa [show 2 * (j - 1) + 2 = 2 * j by omega] at hword
      · exact (hkey j (by omega)).2
  · have hentries : entriesFrom words' (place p) entries.length 1 =
        (entriesFrom words p entries.length 1).map fun e => (e.1, movedWord place .ptr e.2) := by
      refine entriesFrom_moved (fun j hj => ?_) fun j hj => ?_
      · rw [Nat.add_comm 1]
        exact (hkey j hj).1
      · rw [show 1 + 2 * j + 1 = 2 * j + 2 by omega]
        exact (hdata j hj).1
    rw [List.length_map, hentries, h.entries_eq, List.map_map, List.map_map]
    refine List.map_congr_left fun e _ => ?_
    simp [movedWord_ptr]
  · obtain ⟨e', he', rfl⟩ := List.mem_map.mp he
    exact h.keys e' he'

/-- A tree that is reached. -/
theorem DhAt.moved (h : DhAt words S t p) (hmoved : Moved place roots words words' S')
    (hx : Reached words roots .ptr (ptrToWord p)) :
    DhAt words' S' (t.map (movedTo place)) (movedTo place p) := by
  induction t generalizing p with
  | nil =>
    have hnull : p = nullPtr := h
    rw [hnull]
    rfl
  | leaf entries =>
    have hleaf : LeafCell words S p entries := h
    rw [movedTo, if_neg hleaf.ne_null]
    exact hleaf.moved hmoved hx
  | node sons ih =>
    obtain ⟨hp, hcells, htype, hsons⟩ := h
    have hcont : cellType (words p) ≠ CellType.cont.code := by
      rw [htype]
      decide
    have hcell : CellReached words roots p :=
      ⟨⟨.ptr, _, hx, pointsTo_ptrToWord rfl p⟩, hp, hcont⟩
    obtain ⟨hheader, h0⟩ := hmoved.header p hcell
    have hmem : ∀ i < internalNodeSize, Decl.field .ptr (i + 1) ∈ cellDecls words p := by
      intro i hi
      rw [cellDecls_internal htype]
      exact mem_declare.mpr ⟨rfl, by omega⟩
    rw [movedTo, if_neg hp]
    refine ⟨hmoved.ne_null p hcell, fun i hi => ?_, by rw [hheader]; exact htype, fun i => ?_⟩
    · rcases Nat.eq_zero_or_pos i with rfl | hpos
      · exact h0
      · have hword := (hmoved.field p .ptr (i - 1 + 1) hcell (hmem (i - 1) (by omega))).2
        rwa [Nat.sub_add_cancel hpos] at hword
    · obtain ⟨q, hword, hq⟩ := hsons i
      have hreach : Reached words roots .ptr (ptrToWord q) :=
        hword ▸ hx.field (pointsTo_ptrToWord rfl p) hp hcont (hmem i i.isLt)
      refine ⟨movedTo place q, ?_, ih i hq hreach⟩
      rw [(hmoved.field p .ptr _ hcell (hmem i i.isLt)).1, hword, movedWord_ptr]

end moved

end Shades
