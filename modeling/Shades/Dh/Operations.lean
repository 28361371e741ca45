import Shades.Dh.Insert

/-!
# Shades.Dh.Operations

The loop of `dh_insert` ends: a leaf is full with one key more than it has room
for, and so many keys differ in the bits of the levels above the last ones.
-/

namespace Shades

open DigitTree Dh

/-- The number of levels with nodes. -/
def dhDepth : Nat := 14

/-- The words that `dh_insert` takes at most below a level: the nodes, and the
leaves of a full leaf and one more key. -/
def dhWords (level : Nat) : Nat :=
  (internalNodeSize + 1) * (dhDepth - level) + (2 * (maxKeysInLeaf + 1) + internalNodeSize)

/-- The words of the nodes and leaves for a full leaf with the keys `keys`, when `n`
levels of nodes are left. -/
def dhSplitWords (key : Nat) (keys : List Nat) : Nat → Nat → Nat
  | 0, level => internalNodeSize + 1 + leafWords (offset * level) (key :: keys) internalNodeSize 0
  | n + 1, level =>
    internalNodeSize + 1 +
      if ∀ k ∈ keys, digit level k = digit level key then dhSplitWords key keys n (level + 1)
      else leafWords (offset * level) (key :: keys) internalNodeSize 0

/-- The words of the cells that `dh_insert` makes at a level and below it. -/
def dhInsertWords (key : Nat) : Nat → Trie internalNodeSize Nat Nat → Nat
  | _, .nil => 3
  | level, .leaf entries =>
    if key ∈ entries.map Prod.fst then 2 * entries.length + 1
    else if entries.length < maxKeysInLeaf then 2 * entries.length + 3
    else dhSplitWords key (entries.map Prod.fst) (dhDepth - level) level
  | level, .node sons =>
    internalNodeSize + 1 + dhInsertWords key (level + 1) (sons (digit level key))

/-- What is stored for a key: the given data in a leaf with room, and otherwise
what the update function makes of them in the memory `m`. -/
def dhStored (f : Option UpdateFunction) (level : Nat) (t : Trie internalNodeSize Nat Nat)
    (key data : Nat) (m : Memory) : Nat × Memory :=
  if hasRoom digit maxKeysInLeaf key level t then (data, m)
  else UpdateFunction.call f ((lookup digit level t key).getD nullPtr) data m

variable {words : Nat → Nat} {S : Nat → Prop} {m : Memory} {st s st' : Inserting}
variable {p q key data n level : Nat} {path : Nat → Fin internalNodeSize} {changed : Bool}
variable {entries : List (Nat × Nat)} {t t' : Trie internalNodeSize Nat Nat}
variable {sons : Fin internalNodeSize → Trie internalNodeSize Nat Nat} {f : Option UpdateFunction}

/-- A cell is made after the update function was called. -/
theorem Wrote.of_extends (hext : st.m.Extends m) (h : Wrote { st with m := m } q s) :
    Wrote st q s where
  allocationPtr_le := Nat.le_trans h.allocationPtr_le hext.allocationPtr_le
  firstGenerationEnd_eq := h.firstGenerationEnd_eq.trans hext.firstGenerationEnd_eq
  firstGenerationStart_eq := h.firstGenerationStart_eq.trans hext.firstGenerationStart_eq
  words a ha := (h.words a ⟨hext.live ha.1, ha.2⟩).trans (hext.agree a ha.1)
  read := h.read
  newRoot := h.newRoot

/-- What the loop of `dh_insert` comes to: the key has its data already, or the
tree with the key is put into `*pp`.  The update function is called in the memory
`M`. -/
structure InsertResult (S : Nat → Prop) (path : Nat → Fin internalNodeSize) (level : Nat)
    (t : Trie internalNodeSize Nat Nat) (key : Nat) (f : Option UpdateFunction) (data : Nat)
    (st : Inserting) (changed : Bool) (s : Inserting) : Prop where
  later : Later st s.m
  le_allocationPtr :
    st.m.allocationPtr ≤ s.m.allocationPtr + (dhWords level + UpdateFunction.cost f)
  result : ∃ M x, Later st M ∧ dhStored f level t key data M = x ∧ M.Extends x.2 ∧
    ((changed = false ∧ lookup digit level t key = some x.1) ∨
    (changed = true ∧ lookup digit level t key ≠ some x.1 ∧ ∃ q, Wrote st q s ∧
      DhAt s.m.words (fun a => S a ∨ FreshWords st s a)
        (insertAt digit maxKeysInLeaf dhDepth key x.1 level t) q ∧
      Inserted digit maxKeysInLeaf dhDepth path level t key x.1
        (insertAt digit maxKeysInLeaf dhDepth key x.1 level t) ∧
      st.m.allocationPtr + x.2.allocationPtr =
        s.m.allocationPtr + dhInsertWords key level t + M.allocationPtr))

/-- The last round puts a tree into `*pp`. -/
theorem InsertResult.done {M : Memory} {x : Nat × Memory} (hM : Later st M)
    (hx : dhStored f level t key data M = x) (hext : M.Extends x.2)
    (hnew : lookup digit level t key ≠ some x.1)
    (hwrote : Wrote st q s)
    (hq : DhAt s.m.words (FreshWords st s)
      (insertAt digit maxKeysInLeaf dhDepth key x.1 level t) q)
    (hptr : st.m.allocationPtr + x.2.allocationPtr =
      s.m.allocationPtr + dhInsertWords key level t + M.allocationPtr)
    (hcost : M.allocationPtr ≤ x.2.allocationPtr + UpdateFunction.cost f)
    (hwords : dhInsertWords key level t ≤ dhWords level)
    (hinserted : Inserted digit maxKeysInLeaf dhDepth path level t key x.1
      (insertAt digit maxKeysInLeaf dhDepth key x.1 level t)) :
    InsertResult S path level t key f data st true s where
  later := hwrote.toLater
  le_allocationPtr := by omega
  result := ⟨M, x, hM, hx, hext, .inr ⟨rfl, hnew, q, hwrote,
    hq.frame (fun _ _ => rfl) fun _ ha => .inr ha, hinserted, hptr⟩⟩

theorem dhWords_succ (hlevel : level < dhDepth) :
    dhWords level = dhWords (level + 1) + (internalNodeSize + 1) := by
  unfold dhWords internalNodeSize
  unfold dhDepth at *
  omega

/-- The rest of the insertion goes on in the son of a new node. -/
theorem InsertResult.node {t₀ : Trie internalNodeSize Nat Nat} {i : Fin internalNodeSize}
    {path' : Nat → Fin internalNodeSize} (hnew : NewDhNode st p i s) (hopen : st.Open)
    (hS : ∀ a, S a → st.m.Live a) (hlevel : level < dhDepth)
    (hsons : ∀ j ≠ i, ∃ q', s.m.words (p + (j + 1)) = ptrToWord q' ∧
      DhAt s.m.words S (sons j) q')
    (hlookup : lookup digit (level + 1) t₀ key = lookup digit level t key)
    (hroom : hasRoom digit maxKeysInLeaf key (level + 1) t₀ =
      hasRoom digit maxKeysInLeaf key level t)
    (htree : ∀ x, insertAt digit maxKeysInLeaf dhDepth key x level t =
      .node (Function.update sons i (insertAt digit maxKeysInLeaf dhDepth key x (level + 1) t₀)))
    (hwords : dhInsertWords key level t =
      internalNodeSize + 1 + dhInsertWords key (level + 1) t₀)
    (hinserted : ∀ x t', Inserted digit maxKeysInLeaf dhDepth path' (level + 1) t₀ key x t' →
      Inserted digit maxKeysInLeaf dhDepth path level t key x
        (.node (Function.update sons i t')))
    (hrest : InsertResult S path' (level + 1) t₀ key f data s changed st') :
    InsertResult S path level t key f data st changed st' := by
  have hptr := hnew.allocationPtr_eq
  have hptr' := hnew.allocationPtr_eq'
  have hsucc := dhWords_succ hlevel
  obtain ⟨hlater, hle', M, x, hM, hx, hext, hresult⟩ := hrest
  refine ⟨hnew.later hlater, by omega, M, x, hnew.later hM, ?_, hext, ?_⟩
  · rw [← hx, dhStored, dhStored, hlookup, hroom]
  rcases hresult with ⟨rfl, hlookup'⟩ | ⟨rfl, hne, q, hwrote, hq, ht', hptr''⟩
  · exact .inl ⟨rfl, hlookup.symm.trans hlookup'⟩
  · rw [htree]
    exact .inr ⟨rfl, hlookup ▸ hne, p, hnew.wrote hopen hwrote, hnew.dhAt hwrote hS hsons hq,
      hinserted _ _ ht', by omega⟩

/-- A full leaf is above the last level of nodes. -/
theorem level_lt (hleaf : LeafAt digit maxKeysInLeaf path level entries)
    (hfull : entries.length = maxKeysInLeaf) (hkeys : ∀ e ∈ entries, e.1 < 2 ^ 32)
    (hkey : key < 2 ^ 32) (hpath : ∀ j < level, digit j key = path j)
    (hnot : key ∉ entries.map Prod.fst) : level < dhDepth := by
  by_contra hlevel
  have hword : ∀ e ∈ (key, 0) :: entries, e.1 < 2 ^ 32 := List.forall_mem_cons.mpr ⟨hkey, hkeys⟩
  have hnodup : (((key, 0) :: entries).map Prod.fst).Nodup := by
    rw [List.map_cons, List.nodup_cons]
    exact ⟨hnot, hleaf.nodup⟩
  have hcount : ((key, 0) :: entries).length ≤ internalNodeSize ^ (16 - level) :=
    length_le_pow hnodup (List.forall_mem_cons.mpr ⟨hpath, hleaf.digits⟩)
      fun e he e' he' => eq_of_digits (hword e he) (hword e' he')
  have hpow : internalNodeSize ^ (16 - level) ≤ 4 ^ 2 := by
    unfold dhDepth at hlevel
    exact Nat.pow_le_pow_right (by decide) (by omega)
  rw [List.length_cons, hfull] at hcount
  unfold maxKeysInLeaf at hcount
  omega

/-- The node of the new leaves. -/
theorem distribute_spec (data : Nat) (hnode : OpenNode st q s) (hopen : st.Open)
    (hext : s.m.Extends m) (hbits : st.bitsCompared = offset * level)
    (hS : ∀ a, S a → st.m.Live a) (hleaf : LeafCell s.m.words S st.p entries)
    (hlt : entries.length + 1 < 2 ^ 24) (hkey : key < 2 ^ 32)
    (hcan : m.canAllocate
      (leafWords (offset * level) (key :: entries.map Prod.fst) internalNodeSize 0)) :
    ∃ m', leafLoop s.p q key data s.bitsCompared internalNodeSize 0 m = m' ∧
      Wrote st q { s with m := m' } ∧
      DhAt m'.words (FreshWords st { s with m := m' })
        (distribute digit level ((key, data) :: entries)) q ∧
      m.allocationPtr = m'.allocationPtr +
        leafWords (offset * level) (key :: entries.map Prod.fst) internalNodeSize 0 := by
  have hbits' : s.bitsCompared = offset * level := hnode.bitsCompared.trans hbits
  have hq := hnode.allocationPtr_eq
  have hptr := hnode.allocationPtr_eq'
  have hlow := hnode.end_le
  have hend := hnode.firstGenerationEnd_eq
  have hpos := st.m.firstGenerationEnd_pos
  have hsize : internalNodeSize = 4 := rfl
  have hdown := hext.allocationPtr_le
  -- the words that were live before the node was made
  have hlive : ∀ a, st.m.Live a → s.m.Live a ∧ ∀ j < internalNodeSize, a ≠ q + (j + 1) := by
    intro a ha
    unfold Memory.Live at ha ⊢
    refine ⟨by omega, fun j hj => by omega⟩
  have hleaf' : LeafCell m.words S st.p entries := hleaf.frame
    (fun a ha => hext.agree a (hlive a (hS a ha)).1) fun _ ha => ha
  rw [← hbits'] at hcan ⊢
  obtain ⟨m', hloop, hsons, hkeep, hend', hstart', hle'⟩ := leafLoop_spec (Nat.zero_add _)
    (fun a ha => ⟨hext.live (hlive a (hS a ha)).1, (hlive a (hS a ha)).2⟩)
    (by omega : m.allocationPtr ≤ q) hleaf' hlt hkey hcan
  have hout : ∀ a, st.m.Live a → m'.words a = s.m.words a := fun a ha =>
    (hkeep a (hext.live (hlive a ha).1) fun j _ => (hlive a ha).2 j).trans
      (hext.agree a (hlive a ha).1)
  refine ⟨m', by rw [hnode.p]; exact hloop, ⟨hnode.later (by dsimp only; omega)
    (hend'.trans hext.firstGenerationEnd_eq) (hstart'.trans hext.firstGenerationStart_eq) hout,
    hnode.read_of hopen rfl hout, hnode.newRoot⟩,
    ⟨by unfold nullPtr; omega, fun i hi => ⟨by dsimp only; omega, by omega⟩,
    ?_, fun j => ?_⟩, hle'⟩
  · rw [hkeep q (.inr (by omega)) fun j _ hj => by omega, hext.agree q (.inr (by omega))]
    exact hnode.type
  · obtain ⟨r, hword, hr⟩ := hsons j (Nat.zero_le _) j.isLt
    rw [hbits', filter_slot] at hr
    exact ⟨r, hword, hr.frame (fun _ _ => rfl) fun a ha => ⟨ha.1, by omega⟩⟩

/-! ## the rounds -/

/-- A round at a leaf without the key. -/
theorem insertRoundWith_absent (f : Option UpdateFunction) (data : Nat)
    (hleaf : LeafCell st.m.words S st.p entries)
    (hloop : keyLoop st.m.words st.p key entries.length 1 = none) :
    insertRoundWith f st key data =
      if entries.length < maxKeysInLeaf then some (.done (addKey st key data))
      else (do
        assert (2 * entries.length + 1 = 2 * maxKeysInLeaf + 1)
        some (replaceLeafWith f st key data)) := by
  have hinternal : ¬ cellType (st.m.words st.p) = CellType.internal.code := by
    rw [hleaf.cellType_eq]
    decide
  rw [insertRoundWith, if_neg hleaf.ne_null, if_neg hinternal, if_pos hleaf.cellType_eq]
  simp only [hleaf.numberOfKeys_eq, hloop]

/-- A round at a leaf with the key in the word `i`. -/
theorem insertRoundWith_present {i x : Nat} (data : Nat)
    (hleaf : LeafCell st.m.words S st.p entries)
    (hloop : keyLoop st.m.words st.p key entries.length 1 = some i)
    (hcall : UpdateFunction.call f (wordToPtr (st.m.words (st.p + i + 1))) data st.m = (x, m)) :
    insertRoundWith f st key data =
      if m.words (st.p + i + 1) = ptrToWord x then some (.nilpotent { st with m := m })
      else some (.done (update { st with m := m } i x)) := by
  have hinternal : ¬ cellType (st.m.words st.p) = CellType.internal.code := by
    rw [hleaf.cellType_eq]
    decide
  rw [insertRoundWith, if_neg hleaf.ne_null, if_neg hinternal, if_pos hleaf.cellType_eq]
  simp only [hleaf.numberOfKeys_eq, hloop, hcall]

/-- The call of the update function. -/
theorem exists_call (f : Option UpdateFunction) (old data : Nat) {k : Nat}
    (hcan : m.canAllocate (k + UpdateFunction.cost f)) :
    ∃ x m', UpdateFunction.call f old data m = (x, m') ∧ m.Extends m' ∧
      m.allocationPtr ≤ m'.allocationPtr + UpdateFunction.cost f ∧ m'.canAllocate k := by
  have hext := UpdateFunction.extends_call (f := f) old data
    (Memory.canAllocate_mono hcan (Nat.le_add_left _ _))
  have hcost := UpdateFunction.allocationPtr_call f old data m
  refine ⟨(UpdateFunction.call f old data m).1, (UpdateFunction.call f old data m).2, rfl, hext,
    hcost, ?_⟩
  have hend := hext.firstGenerationEnd_eq
  unfold Memory.canAllocate at hcan ⊢
  omega

/-- A round that ends with a new cell. -/
theorem insertLoopWith_done (h : insertRoundWith f st key data = some (.done s)) :
    insertLoopWith f key data (n + 1) st = some (true, s) := by
  rw [insertLoopWith, h]
  rfl

theorem insertLoopWith_next (h : insertRoundWith f st key data = some (.next s)) :
    insertLoopWith f key data (n + 1) st = insertLoopWith f key data n s := by
  rw [insertLoopWith, h]
  rfl

/-- The loop at an empty slot. -/
theorem insertLoopWith_nil (data : Nat) (hopen : st.Open) (hp : st.p = nullPtr)
    (hkey : key < 2 ^ 32) (hpath : ∀ j < level, digit j key = path j)
    (hcan : st.m.canAllocate (dhWords level + UpdateFunction.cost f)) :
    ∃ changed s, insertLoopWith f key data (n + 1) st = some (changed, s) ∧
      InsertResult S path level .nil key f data st changed s := by
  have hwords : 2 * (maxKeysInLeaf + 1) + internalNodeSize ≤ dhWords level := Nat.le_add_left _ _
  have hfull : 2 * (maxKeysInLeaf + 1) + internalNodeSize = 70 := rfl
  have hnil : dhInsertWords key level .nil = 3 := rfl
  obtain ⟨x, m, hcall, hext, hcost, hcan'⟩ := exists_call f nullPtr data hcan
  have hopen' : Inserting.Open { st with m := m } := fun a ha =>
    Nat.le_trans hext.allocationPtr_le (hopen a ha)
  obtain ⟨q, hwrote, hleaf, hptr⟩ := emptySlot_spec x hopen' hkey
    (Memory.canAllocate_mono hcan' (by omega))
  dsimp only at hptr
  have hq : DhAt _ (FreshWords st (emptySlot { st with m := m } key x)) (.leaf [(key, x)]) q :=
    hleaf.frame (fun _ _ => rfl) fun a ha =>
      ⟨ha.1, Nat.lt_of_lt_of_le ha.2 hext.allocationPtr_le⟩
  refine ⟨true, emptySlot { st with m := m } key x, insertLoopWith_done ?_,
    .done (x := (x, m)) (.refl st) hcall hext nofun (hwrote.of_extends hext) hq
      (by dsimp only; omega) hcost (by omega) (.single (by decide) hpath)⟩
  rw [insertRoundWith, if_pos hp, hcall]

/-- The loop at a leaf that has the key. -/
theorem insertLoopWith_present {before after : List (Nat × Nat)} {old : Nat} (data : Nat)
    (hopen : st.Open) (hS : ∀ a, S a → st.m.Live a)
    (hleaf : LeafCell st.m.words S st.p (before ++ (key, old) :: after))
    (hleafAt : LeafAt digit maxKeysInLeaf path level (before ++ (key, old) :: after))
    (hnot : key ∉ before.map Prod.fst)
    (hloop : keyLoop st.m.words st.p key (before ++ (key, old) :: after).length 1 =
      some (1 + 2 * before.length))
    (hword : st.m.words (st.p + (1 + 2 * before.length) + 1) = ptrToWord old)
    (hcan : st.m.canAllocate (dhWords level + UpdateFunction.cost f)) :
    ∃ changed s, insertLoopWith f key data (n + 1) st = some (changed, s) ∧
      InsertResult S path level (.leaf (before ++ (key, old) :: after)) key f data st changed
        s := by
  have hwords : 2 * (maxKeysInLeaf + 1) + internalNodeSize ≤ dhWords level := Nat.le_add_left _ _
  have hfull : 2 * (maxKeysInLeaf + 1) + internalNodeSize = 70 := rfl
  have hlength : (before ++ (key, old) :: after).length ≤ 32 := hleafAt.length_le
  obtain ⟨x, m, hcall, hext, hcost, hcan'⟩ := exists_call f old data hcan
  have hmem : key ∈ (before ++ (key, old) :: after).map Prod.fst := by simp
  have hlookup : lookup digit level (.leaf (before ++ (key, old) :: after)) key = some old := by
    rw [lookup, List.lookup_append, lookup_eq_none.mpr hnot]
    simp
  have hstored : dhStored f level (.leaf (before ++ (key, old) :: after)) key data st.m =
      (x, m) := by
    have hno : hasRoom digit maxKeysInLeaf key level (.leaf (before ++ (key, old) :: after)) =
        false := by simp [hasRoom]
    rw [dhStored, hno, hlookup]
    exact hcall
  have hlive : ∀ a, S a → m.words a = st.m.words a := fun a ha => hext.agree a (hS a ha)
  have hcell : S (st.p + (1 + 2 * before.length) + 1) := by
    refine hleaf.cell (1 + 2 * before.length + 1) ?_
    rw [List.length_append, List.length_cons]
    omega
  rw [← wordToPtr_ptrToWord old, ← hword] at hcall
  have hround := insertRoundWith_present data hleaf hloop hcall
  rw [hword, wordToPtr_ptrToWord] at hcall
  rw [hlive _ hcell, hword] at hround
  by_cases hsame : old = x
  · subst hsame
    rw [if_pos rfl] at hround
    refine ⟨false, { st with m := m }, ?_, (Later.refl st).extends hext,
      by dsimp only; omega, st.m, (old, m), .refl st, hstored, hext, .inl ⟨rfl, hlookup⟩⟩
    rw [insertLoopWith, hround]
    rfl
  · rw [if_neg fun heq => hsame (ptrToWord_inj.mp heq)] at hround
    have hopen' : Inserting.Open { st with m := m } := fun a ha =>
      Nat.le_trans hext.allocationPtr_le (hopen a ha)
    obtain ⟨q, hwrote, hleaf', hptr⟩ := dhUpdate_spec x hopen'
      (fun a ha => hext.live (hS a ha)) (hleaf.frame hlive fun _ ha => ha)
      (Memory.canAllocate_mono hcan' (by omega))
    dsimp only at hptr
    have htree : insertAt digit maxKeysInLeaf dhDepth key x level
        (.leaf (before ++ (key, old) :: after)) = .leaf (before ++ (key, x) :: after) := by
      rw [insertAt, if_pos hmem, replaceValue_eq hleafAt.nodup]
    have htake : dhInsertWords key level (.leaf (before ++ (key, old) :: after)) =
        2 * (before ++ (key, old) :: after).length + 1 := if_pos hmem
    have hq : DhAt _ (FreshWords st (update { st with m := m } (1 + 2 * before.length) x))
        (.leaf (before ++ (key, x) :: after)) q :=
      hleaf'.frame (fun _ _ => rfl) fun a ha =>
        ⟨ha.1, Nat.lt_of_lt_of_le ha.2 hext.allocationPtr_le⟩
    exact ⟨true, _, insertLoopWith_done hround,
      .done (x := (x, m)) (.refl st) hstored hext
        (fun heq => hsame (Option.some.inj (hlookup.symm.trans heq))) (hwrote.of_extends hext)
        (htree ▸ hq) (by dsimp only; omega) hcost (by omega) (htree ▸ .replace hleafAt)⟩

/-- The loop at a leaf with room for the key. -/
theorem insertLoopWith_room (data : Nat) (hopen : st.Open)
    (hS : ∀ a, S a → st.m.Live a) (hleaf : LeafCell st.m.words S st.p entries)
    (hleafAt : LeafAt digit maxKeysInLeaf path level entries)
    (hnot : key ∉ entries.map Prod.fst)
    (hloop : keyLoop st.m.words st.p key entries.length 1 = none)
    (hlt : entries.length < maxKeysInLeaf) (hkey : key < 2 ^ 32)
    (hpath : ∀ j < level, digit j key = path j)
    (hcan : st.m.canAllocate (dhWords level + UpdateFunction.cost f)) :
    ∃ changed s, insertLoopWith f key data (n + 1) st = some (changed, s) ∧
      InsertResult S path level (.leaf entries) key f data st changed s := by
  have hwords : 2 * (maxKeysInLeaf + 1) + internalNodeSize ≤ dhWords level := Nat.le_add_left _ _
  have hfull : 2 * (maxKeysInLeaf + 1) + internalNodeSize = 70 := rfl
  have hlength : entries.length < 32 := hlt
  obtain ⟨q, hwrote, hleaf', hptr⟩ := addKey_spec data hopen hkey hS hleaf (by omega)
    (Memory.canAllocate_mono hcan (by omega))
  have htree : insertAt digit maxKeysInLeaf dhDepth key data level (.leaf entries) =
      .leaf (entries ++ [(key, data)]) := by
    rw [insertAt, if_neg hnot, if_pos hlt]
  have htake : dhInsertWords key level (.leaf entries) = 2 * entries.length + 3 := by
    rw [dhInsertWords, if_neg hnot, if_pos hlt]
  have hstored : dhStored f level (.leaf entries) key data st.m = (data, st.m) :=
    if_pos (by simpa [hasRoom, hlt] using hnot)
  have hq : DhAt _ _ (.leaf (entries ++ [(key, data)])) q := hleaf'
  refine ⟨true, addKey st key data, insertLoopWith_done ?_,
    .done (.refl st) hstored (.refl _) (by simp [lookup, lookup_eq_none.mpr hnot]) hwrote
      (htree ▸ hq) (by dsimp only; omega) (Nat.le_add_right _ _) (by omega)
      (htree ▸ .snoc hleafAt hlt hnot hpath)⟩
  rw [insertRoundWith_absent f data hleaf hloop, if_pos hlt]

/-- A round at a full leaf makes a node.  The leaf goes below it if all keys agree in the
digit, and new leaves do otherwise. -/
theorem insertRoundWith_full (f : Option UpdateFunction) (data : Nat) (hopen : st.Open)
    (hS : ∀ a, S a → st.Kept a) (hleaf : LeafCell st.m.words S st.p entries)
    (hleafAt : LeafAt digit maxKeysInLeaf path level entries)
    (hloop : keyLoop st.m.words st.p key entries.length 1 = none)
    (hlen : entries.length = maxKeysInLeaf) (hbits : st.bitsCompared = offset * level)
    (hcan : st.m.canAllocate (internalNodeSize + 1)) :
    ∃ q s, OpenNode st q s ∧ LeafCell s.m.words S st.p entries ∧
      ((∀ e ∈ entries, digit level e.1 = digit level key) →
        insertRoundWith f st key data = some (.next (overflow s q key))) ∧
      ((¬ ∀ e ∈ entries, digit level e.1 = digit level key) → ∀ x m,
        UpdateFunction.call f nullPtr data s.m = (x, m) → insertRoundWith f st key data =
          some (.done { s with
            m := leafLoop s.p q key x s.bitsCompared internalNodeSize 0 m })) := by
  obtain ⟨q, m, s, halloc, hs, hnode⟩ := openNode_spec hopen hcan
  have hleaf' : LeafCell s.m.words S st.p entries := hleaf.frame
    (fun a ha => hnode.words a (hS a ha)) fun _ ha => ha
  have hreplace : insertRoundWith f st key data = some (replaceLeafWith f st key data) := by
    rw [insertRoundWith_absent f data hleaf hloop, if_neg (by omega), assert_true (by rw [hlen])]
    rfl
  have hover := newOverflow_eq_true key (hnode.p ▸ hleaf') hleafAt.nonempty s.bitsCompared
  have hdigits : (∀ e ∈ entries, slot e.1 s.bitsCompared = slot key s.bitsCompared) ↔
      ∀ e ∈ entries, digit level e.1 = digit level key := by
    rw [hnode.bitsCompared, hbits]
    simp [digit, Fin.ext_iff]
  rw [hdigits] at hover
  rw [replaceLeafWith, halloc] at hreplace
  simp only [← hs] at hreplace
  refine ⟨q, s, hnode, hleaf', fun hsame => ?_, fun hsame x m₁ hcall => ?_⟩
  · rw [hreplace, if_pos (hover.mpr hsame)]
  · rw [hreplace, if_neg (mt hover.mp hsame), hcall]

/-- The loop at a full leaf, if the keys do not agree in the digit. -/
theorem insertLoopWith_split (data : Nat) (hopen : st.Open) (hS : ∀ a, S a → st.Kept a)
    (hleaf : LeafCell st.m.words S st.p entries)
    (hleafAt : LeafAt digit maxKeysInLeaf path level entries)
    (hnot : key ∉ entries.map Prod.fst)
    (hloop : keyLoop st.m.words st.p key entries.length 1 = none)
    (hlen : entries.length = maxKeysInLeaf) (hnode : level < dhDepth) (hkey : key < 2 ^ 32)
    (hpath : ∀ j < level, digit j key = path j) (hbits : st.bitsCompared = offset * level)
    (hsame : ¬ ∀ e ∈ entries, digit level e.1 = digit level key)
    (hcan : st.m.canAllocate (dhWords level + UpdateFunction.cost f)) :
    ∃ changed s, insertLoopWith f key data (n + 1) st = some (changed, s) ∧
      InsertResult S path level (.leaf entries) key f data st changed s := by
  have hsize : internalNodeSize = 4 := rfl
  have hmax : maxKeysInLeaf = 32 := rfl
  have hbelow : 2 * (maxKeysInLeaf + 1) + internalNodeSize ≤ dhWords (level + 1) :=
    Nat.le_add_left _ _
  have hsucc := dhWords_succ hnode
  have hS' : ∀ a, S a → st.m.Live a := fun a ha => (hS a ha).1
  obtain ⟨k, hk⟩ : ∃ k, dhDepth - level = k + 1 := ⟨dhDepth - level - 1, by omega⟩
  obtain ⟨q, s, hopenNode, hleaf', -, hround⟩ := insertRoundWith_full f data hopen hS hleaf hleafAt
    hloop hlen hbits (Memory.canAllocate_mono hcan (by omega))
  have hptr := hopenNode.allocationPtr_eq
  have hptr' := hopenNode.allocationPtr_eq'
  have hleaves := leafWords_eq (offset * level) (key :: entries.map Prod.fst)
  have hused := usedSons_le (offset * level) (key :: entries.map Prod.fst)
  rw [List.length_cons, List.length_map, hlen] at hleaves
  have hcan' : s.m.canAllocate (dhWords (level + 1) + UpdateFunction.cost f) := by
    unfold Memory.canAllocate at hcan ⊢
    rw [hopenNode.firstGenerationEnd_eq]
    omega
  obtain ⟨x, m, hcall, hext, hcost, hcan''⟩ := exists_call f nullPtr data hcan'
  obtain ⟨m', hleaves', hwrote, hq, hptr''⟩ := distribute_spec x hopenNode hopen hext hbits hS'
    hleaf' (by omega) hkey (Memory.canAllocate_mono hcan'' (by omega))
  have hsplit : insertAt digit maxKeysInLeaf dhDepth key x level (.leaf entries) =
      distribute digit level ((key, x) :: entries) := by
    rw [insertAt, if_neg hnot, if_neg (by omega), hk, splitLeaf, if_neg hsame]
  have htake : dhInsertWords key level (.leaf entries) = internalNodeSize + 1 +
      leafWords (offset * level) (key :: entries.map Prod.fst) internalNodeSize 0 := by
    rw [dhInsertWords, if_neg hnot, if_neg (by omega), hk, dhSplitWords,
      if_neg (mt List.forall_mem_map.mp hsame)]
  have hlookup : lookup digit level (.leaf entries) key = none := lookup_eq_none.mpr hnot
  have hstored : dhStored f level (.leaf entries) key data s.m = (x, m) := by
    have hno : hasRoom digit maxKeysInLeaf key level (.leaf entries) = false := by
      simp [hasRoom, hlen]
    rw [dhStored, hno, hlookup]
    exact hcall
  have hdone := hround hsame x m hcall
  rw [hleaves'] at hdone
  exact ⟨true, _, insertLoopWith_done hdone, .done (x := (x, m)) hopenNode.toLater hstored hext
    (by simp [hlookup]) hwrote (hsplit ▸ hq) (by dsimp only; omega) hcost
    (by omega) (hsplit ▸ .distribute hleafAt hnode hnot hpath (by simpa using hsame))⟩

/-- The loop of `dh_insert` ends, at the level `14` at the latest. -/
theorem dhInsertLoop_spec (data : Nat) (hopen : st.Open)
    (hS : ∀ a, S a → st.Kept a) (hp : DhAt st.m.words S t st.p)
    (ht : Valid digit maxKeysInLeaf dhDepth path level t) (hlevel : level ≤ dhDepth)
    (hbits : st.bitsCompared = offset * level) (hkey : key < 2 ^ 32)
    (hpath : ∀ j < level, digit j key = path j) (hn : dhDepth < n + level)
    (hcan : st.m.canAllocate (dhWords level + UpdateFunction.cost f)) :
    ∃ changed s, insertLoopWith f key data n st = some (changed, s) ∧
      InsertResult S path level t key f data st changed s := by
  induction n generalizing st t path level with
  | zero => omega
  | succ n ih =>
    have hwords : 2 * (maxKeysInLeaf + 1) + internalNodeSize ≤ dhWords level :=
      Nat.le_add_left _ _
    have hfull : 2 * (maxKeysInLeaf + 1) + internalNodeSize = 70 := rfl
    have hsize : internalNodeSize = 4 := rfl
    have hS' : ∀ a, S a → st.m.Live a := fun a ha => (hS a ha).1
    have hpath' := digits_update hpath (rfl : digit level key = digit level key)
    -- the room below a new node
    have hroom : ∀ {q s}, level < dhDepth → NewDhNode st q (digit level key) s →
        s.m.canAllocate (dhWords (level + 1) + UpdateFunction.cost f) := by
      intro q s hlt hnew
      have hptr := hnew.allocationPtr_eq
      have hptr' := hnew.allocationPtr_eq'
      have hsucc := dhWords_succ hlt
      unfold Memory.canAllocate at hcan ⊢
      rw [hnew.firstGenerationEnd_eq]
      omega
    have hcan₅ : st.m.canAllocate (internalNodeSize + 1) :=
      Memory.canAllocate_mono hcan (by omega)
    cases t with
    | nil => exact insertLoopWith_nil data hopen hp hkey hpath hcan
    | node sons =>
      obtain ⟨hnode, hvalid⟩ := ht
      obtain ⟨q, hnew, hbits', hsons, hson⟩ := descend_spec key hopen hS'
        (fun a ha => (hS a ha).2) hp hbits hcan₅
      obtain ⟨hnull, -, htype, -⟩ := hp
      obtain ⟨changed, s, hrun, hres⟩ := ih hnew.open (fun a ha => hnew.kept (hS' a ha)) hson
        (hvalid _) hnode hbits' hpath' (by omega) (hroom hnode hnew)
      refine ⟨changed, s, ?_, .node hnew hopen hS' hnode (fun j _ => hsons j) rfl rfl
        (fun _ => rfl) rfl (fun x t' ht' => .node ⟨hnode, hvalid⟩ ht') hres⟩
      rw [insertLoopWith_next (s := descend st key), hrun]
      rw [insertRoundWith, if_neg hnull, if_pos htype]
    | leaf entries =>
      have hleaf : LeafCell st.m.words S st.p entries := hp
      have hleafAt : LeafAt digit maxKeysInLeaf path level entries := ht
      rcases hleaf.keyLoop_cases key with ⟨hloop, hnot⟩ |
        ⟨before, old, after, rfl, hnot, hloop, hword⟩
      · by_cases hlt : entries.length < maxKeysInLeaf
        · exact insertLoopWith_room data hopen hS' hleaf hleafAt hnot hloop hlt hkey hpath hcan
        -- the leaf is full
        have hlen : entries.length = maxKeysInLeaf :=
          Nat.le_antisymm hleafAt.length_le (not_lt.mp hlt)
        have hnode := level_lt hleafAt hlen hleaf.keys hkey hpath hnot
        by_cases hsame : ∀ e ∈ entries, digit level e.1 = digit level key
        · obtain ⟨q, s₁, hopenNode, hleaf₁, hround, -⟩ :=
            insertRoundWith_full f data hopen hS hleaf hleafAt hloop hlen hbits hcan₅
          obtain ⟨hnew, hbits', hp', hnull⟩ := overflow_spec key hopenNode hopen hbits
          have hson : DhAt (overflow s₁ q key).m.words S (.leaf entries)
              (overflow s₁ q key).p := by
            rw [hp']
            exact hleaf.frame (fun a ha => hnew.words a (hS a ha)) fun _ ha => ha
          obtain ⟨changed, s, hrun, hres⟩ := ih hnew.open (fun a ha => hnew.kept (hS' a ha)) hson
            (hleafAt.son hsame) hnode hbits' hpath' (by omega) (hroom hnode hnew)
          have hsons : ∀ j : Fin internalNodeSize, j ≠ digit level key →
              ∃ q', (overflow s₁ q key).m.words (q + (j + 1)) = ptrToWord q' ∧
                DhAt (overflow s₁ q key).m.words S ((fun _ => Trie.nil) j) q' :=
            fun j hj => ⟨nullPtr, hnull j hj, rfl⟩
          have hdepth : dhDepth - level = dhDepth - (level + 1) + 1 := by omega
          have hlookup : ∀ l, lookup digit l (.leaf entries) key = none := fun l =>
            lookup_eq_none.mpr hnot
          refine ⟨changed, s, ?_, .node hnew hopen hS' hnode hsons
            ((hlookup _).trans (hlookup _).symm)
            (by simp [hasRoom, hlt]) (fun x => ?_) ?_
            (fun x t' ht' => .push hnode hsame ht') hres⟩
          · rw [insertLoopWith_next (hround hsame), hrun]
          · rw [insertAt, insertAt, if_neg hnot, if_neg hlt, if_neg hnot, if_neg hlt, hdepth,
              splitLeaf, if_pos hsame]
          · rw [dhInsertWords, dhInsertWords, if_neg hnot, if_neg hlt, if_neg hnot, if_neg hlt,
              hdepth, dhSplitWords, if_pos (List.forall_mem_map.mpr hsame)]
        · exact insertLoopWith_split data hopen hS hleaf hleafAt hnot hloop hlen hnode hkey hpath
            hbits hsame hcan
      · exact insertLoopWith_present data hopen hS' hleaf hleafAt hnot hloop hword hcan

/-! ## the operations -/

/-- Above the root no digits are used. -/
def noDigits (_ : Nat) : Fin internalNodeSize := ⟨0, by decide⟩

/-- A tree in the live words: each of its cells is in a page or in the first
generation. -/
def HashAt (m : Memory) (t : Trie internalNodeSize Nat Nat) (p : Nat) : Prop :=
  DhAt m.words m.Live t p ∧
    Valid digit maxKeysInLeaf dhDepth noDigits 0 t

variable {m' : Memory}

theorem HashAt.frame (h : HashAt m t p) (hext : m.Extends m') : HashAt m' t p :=
  ⟨h.1.frame hext.agree fun _ ha => hext.live ha, h.2⟩

/-- `dh_find`. -/
theorem dhFind_spec (h : HashAt m t p) (key : Nat) :
    dhFind m.words p key = some ((lookup digit 0 t key).getD nullPtr) :=
  findLoop_spec h.1 h.2 (Nat.zero_le _) (by decide) key

/-- `dh_insert`.  The update function is called in the memory `M`, if it is called. -/
theorem dhInsertWith_spec (h : HashAt m t p) (hkey : key < 2 ^ 32) (data : Nat)
    (hcan : m.canAllocate (dhWords 0 + UpdateFunction.cost f)) :
    ∃ q m' M x, dhInsertWith m p key f data = some (q, m') ∧ m.Extends m' ∧ m.Extends M ∧
      dhStored f 0 t key data M = x ∧ M.Extends x.2 ∧
      m.allocationPtr ≤ m'.allocationPtr + (dhWords 0 + UpdateFunction.cost f) ∧
      ((lookup digit 0 t key = some x.1 ∧ HashAt m' t q ∧ m'.allocationPtr = m.allocationPtr) ∨
      (lookup digit 0 t key ≠ some x.1 ∧
        HashAt m' (insertAt digit maxKeysInLeaf dhDepth key x.1 0 t) q ∧
        Inserted digit maxKeysInLeaf dhDepth noDigits 0 t key x.1
          (insertAt digit maxKeysInLeaf dhDepth key x.1 0 t) ∧
        m.allocationPtr + x.2.allocationPtr =
          m'.allocationPtr + dhInsertWords key 0 t + M.allocationPtr)) := by
  obtain ⟨changed, s, hrun, hlater, hle, M, x, hM, hx, hext, hresult⟩ :=
    dhInsertLoop_spec data (n := rounds)
      (show Inserting.Open ⟨m, nullWord, none, p, 0⟩ from fun a ha => by cases ha)
      (fun a ha => ⟨ha, fun heq => by cases heq⟩) h.1 h.2
      (Nat.zero_le _) rfl hkey (fun j hj => by omega) (by decide) hcan
  have hextends : ∀ {m'}, Later ⟨m, nullWord, none, p, 0⟩ m' → m.Extends m' := fun h =>
    ⟨h.allocationPtr_le, h.firstGenerationEnd_eq, h.firstGenerationStart_eq,
      fun a ha => h.words a ⟨ha, fun heq => by cases heq⟩⟩
  rcases hresult with ⟨rfl, hlookup⟩ | ⟨rfl, hne, q, hwrote, hq, hinserted, hptr⟩
  · have hback : m.Extends (s.m.restoreAllocationPoint m.allocationPtr) :=
      ⟨Nat.le_refl _, hlater.firstGenerationEnd_eq, hlater.firstGenerationStart_eq,
        (hextends hlater).agree⟩
    exact ⟨p, _, M, x, by simp [dhInsertWith, hrun], hback, hextends hM, hx, hext,
      Nat.le_add_right _ _, .inl ⟨hlookup, h.frame hback, rfl⟩⟩
  · have hroot : s.newRoot = ptrToWord q := hwrote.read
    refine ⟨q, s.m, M, x, by simp [dhInsertWith, hrun, hroot], hextends hlater, hextends hM, hx,
      hext, hle, .inr ⟨hne, ⟨?_, hinserted.valid⟩, hinserted, hptr⟩⟩
    exact hq.frame (fun _ _ => rfl) fun a ha => ha.elim (hextends hlater).live fun ha => .inr ha.1

end Shades
