import Shades.Dh.Rep

/-!
# Shades.Dh.Insert

A round of `dh_insert` puts a new cell into `*pp`.  It writes to no other live
word, so what the other pointers stand for stays the same: the words of the pages
and of the allocated cells but for `*pp` are *kept*.
-/

namespace Shades

open DigitTree Dh

variable {words words' : Nat → Nat} {S : Nat → Prop} {m m' : Memory} {st st' s : Inserting}
variable {p q key data i j n level : Nat} {path : Nat → Fin internalNodeSize}
variable {entries before after : List (Nat × Nat)} {t t' : Trie internalNodeSize Nat Nat}

/-! ## entries that are written -/

theorem entriesFrom_succ : entriesFrom words p (n + 1) i =
    entriesFrom words p n i ++ [(words (p + (i + 2 * n)), words (p + (i + 2 * n) + 1))] := by
  induction n generalizing i with
  | zero => rfl
  | succ n ih =>
    rw [entriesFrom, ih, entriesFrom, List.cons_append,
      show i + 2 + 2 * n = i + 2 * (n + 1) by omega]

/-- One word of data differs. -/
theorem entriesFrom_replace {es es' : List (Nat × Nat)} {w w' : Nat}
    (h : entriesFrom words p n i = es ++ (key, w) :: es')
    (heq : ∀ j, i ≤ j → j < i + 2 * n → j ≠ i + 2 * es.length + 1 →
      words' (q + j) = words (p + j)) (hw : words' (q + (i + 2 * es.length + 1)) = w') :
    entriesFrom words' q n i = es ++ (key, w') :: es' := by
  induction es generalizing n i with
  | nil =>
    cases n with
    | zero => cases h
    | succ n =>
      obtain ⟨hhead, htail⟩ := List.cons.inj h
      rw [entriesFrom, heq i (Nat.le_refl i) (by omega) (by simp), Nat.add_assoc]
      rw [show q + (i + 1) = q + (i + 2 * ([] : List (Nat × Nat)).length + 1) from rfl, hw]
      rw [entriesFrom_congr fun j hj hj' => heq j (by omega) (by omega) (by simp; omega), htail,
        (Prod.mk.inj hhead).1]
      rfl
  | cons e es ih =>
    cases n with
    | zero => cases h
    | succ n =>
      obtain ⟨rfl, htail⟩ := List.cons.inj h
      rw [List.length_cons] at heq hw
      rw [entriesFrom, heq i (Nat.le_refl i) (by omega) (by omega), Nat.add_assoc,
        heq (i + 1) (by omega) (by omega) (by omega),
        ih htail (fun j hj hj' hne => heq j (by omega) (by omega) (by omega))
          (by rwa [show i + 2 + 2 * es.length + 1 = i + 2 * (es.length + 1) + 1 by omega])]
      rfl

/-- The entries that a cell was filled with. -/
theorem entriesFrom_fillCell (q i : Nat) (es : List (Nat × Nat)) (m : Memory) :
    entriesFrom (fillCell q i (flatten es) m).words q es.length i = es := by
  induction es generalizing i m with
  | nil => rfl
  | cons e es ih =>
    have hflat : flatten (e :: es) = e.1 :: e.2 :: flatten es := rfl
    rw [hflat, List.length_cons, entriesFrom]
    unfold fillCell
    unfold fillCell
    rw [ih, fillCell_words_of_lt _ _ (by omega), fillCell_words_of_lt _ _ (by omega)]
    simp [Nat.add_assoc]

theorem length_flatten (es : List (Nat × Nat)) : (flatten es).length = 2 * es.length := by
  induction es with
  | nil => rfl
  | cons e es ih =>
    have hflat : flatten (e :: es) = e.1 :: e.2 :: flatten es := rfl
    rw [hflat, List.length_cons, List.length_cons, List.length_cons, ih]
    omega

/-! ## what an insertion writes -/

/-- The word `*pp`. -/
def Dh.Inserting.read (s : Inserting) : Option Nat → Nat
  | none => s.newRoot
  | some a => s.m.words a

/-- The words that no round writes to. -/
def Dh.Inserting.Kept (s : Inserting) (a : Nat) : Prop := s.m.Live a ∧ s.pp ≠ some a

/-- A later memory of an insertion. -/
structure Later (st : Inserting) (m : Memory) : Prop where
  allocationPtr_le : m.allocationPtr ≤ st.m.allocationPtr
  firstGenerationEnd_eq : m.firstGenerationEnd = st.m.firstGenerationEnd
  firstGenerationStart_eq : m.firstGenerationStart = st.m.firstGenerationStart
  words : ∀ a, st.Kept a → m.words a = st.m.words a

theorem Later.refl (st : Inserting) : Later st st.m := ⟨Nat.le_refl _, rfl, rfl, fun _ _ => rfl⟩

theorem Later.extends (h : Later st m) (hext : m.Extends m') : Later st m' where
  allocationPtr_le := Nat.le_trans hext.allocationPtr_le h.allocationPtr_le
  firstGenerationEnd_eq := hext.firstGenerationEnd_eq.trans h.firstGenerationEnd_eq
  firstGenerationStart_eq := hext.firstGenerationStart_eq.trans h.firstGenerationStart_eq
  words a ha := by
    have hlive : m.Live a := ha.1.imp (fun hlt => h.firstGenerationEnd_eq ▸ hlt)
      (Nat.le_trans h.allocationPtr_le)
    rw [hext.agree a hlive, h.words a ha]

/-- A cell was put into `*pp`, and everything else is as it was. -/
structure Wrote (st : Inserting) (q : Nat) (s : Inserting) : Prop extends Later st s.m where
  read : s.read st.pp = ptrToWord q
  newRoot : st.pp ≠ none → s.newRoot = st.newRoot

/-- The words that were allocated. -/
def FreshWords (st s : Inserting) (a : Nat) : Prop :=
  s.m.allocationPtr ≤ a ∧ a < st.m.allocationPtr

/-- The address of `*pp` is not in the free part of the memory. -/
def Dh.Inserting.Open (st : Inserting) : Prop := ∀ a, st.pp = some a → st.m.allocationPtr ≤ a

@[simp] theorem link_pp (s : Inserting) (x : Nat) : (s.link x).pp = s.pp := by
  unfold Inserting.link
  split <;> rfl

@[simp] theorem link_p (s : Inserting) (x : Nat) : (s.link x).p = s.p := by
  unfold Inserting.link
  split <;> rfl

@[simp] theorem link_bitsCompared (s : Inserting) (x : Nat) :
    (s.link x).bitsCompared = s.bitsCompared := by
  unfold Inserting.link
  split <;> rfl

@[simp] theorem link_allocationPtr (s : Inserting) (x : Nat) :
    (s.link x).m.allocationPtr = s.m.allocationPtr := by
  unfold Inserting.link
  split <;> rfl

@[simp] theorem link_firstGenerationEnd (s : Inserting) (x : Nat) :
    (s.link x).m.firstGenerationEnd = s.m.firstGenerationEnd := by
  unfold Inserting.link
  split <;> rfl

@[simp] theorem link_firstGenerationStart (s : Inserting) (x : Nat) :
    (s.link x).m.firstGenerationStart = s.m.firstGenerationStart := by
  unfold Inserting.link
  split <;> rfl

theorem link_words {x a : Nat} (ha : s.pp ≠ some a) : (s.link x).m.words a = s.m.words a := by
  unfold Inserting.link
  split
  · rfl
  · next b hb =>
    rw [Memory.set_words, if_neg]
    rintro rfl
    exact ha hb

theorem link_read (x : Nat) : (s.link x).read s.pp = x := by
  unfold Inserting.link
  split
  · next hb =>
    rw [hb]
    rfl
  · next b hb =>
    rw [hb]
    simp [Inserting.read]

theorem link_newRoot (x : Nat) (h : s.pp ≠ none) : (s.link x).newRoot = s.newRoot := by
  unfold Inserting.link
  split
  · next hb => exact absurd hb h
  · rfl

/-- A new cell: it lies in the first generation, and its first word has the type. -/
theorem newCell_spec (type : CellType) (hn : 0 < n) (hcan : m.canAllocate n) :
    ∃ q m', m.allocate n type = (q, m') ∧ q + n = m.allocationPtr ∧ m'.allocationPtr = q ∧
      m.firstGenerationEnd ≤ q ∧ m'.words q = type.header ∧ m.Allocates m' := by
  have hall := Memory.allocates_allocate type hn hcan
  unfold Memory.canAllocate at hcan
  refine ⟨m.allocationPtr - n, (m.allocate n type).2, rfl, by omega, rfl, by omega, ?_, hall⟩
  rw [Memory.allocate_words, if_pos rfl]

/-- A new cell `q` is written, and then put into `*pp`. -/
theorem wrote_link (hall : st.m.Allocates m) (hm : m.allocationPtr = q)
    (hlow : st.m.firstGenerationEnd ≤ q) :
    Wrote st q ({ st with m := m }.link (ptrToWord q)) where
  allocationPtr_le := by
    rw [link_allocationPtr]
    exact hall.allocationPtr_le
  firstGenerationEnd_eq := by
    rw [link_firstGenerationEnd]
    exact hall.firstGenerationEnd_eq
  firstGenerationStart_eq := by
    rw [link_firstGenerationStart]
    exact hall.firstGenerationStart_eq
  words a ha := by
    have hext := hall.extends (by rw [hall.firstGenerationEnd_eq, hm]; exact hlow)
    exact (link_words (s := { st with m := m }) ha.2).trans (hext.agree a ha.1)
  read := link_read (s := { st with m := m }) _
  newRoot h := link_newRoot (s := { st with m := m }) _ h

/-! ## a new leaf -/

/-- The cell of a new leaf, which is put into `*pp`. -/
theorem wrote_leaf (entries : List (Nat × Nat)) (hopen : st.Open) (hall : st.m.Allocates m)
    (hm : m.allocationPtr = q) (hq : q + (2 * entries.length + 1) = st.m.allocationPtr)
    (hlow : st.m.firstGenerationEnd ≤ q)
    (hheader : m.words q = CellType.leaf.header ||| entries.length)
    (hlt : entries.length < 2 ^ 24)
    (hentries : entriesFrom m.words q entries.length 1 =
      entries.map fun e => (e.1, ptrToWord e.2)) (hkeys : ∀ e ∈ entries, e.1 < 2 ^ 32) :
    Wrote st q ({ st with m := m }.link (ptrToWord q)) ∧
      LeafCell ({ st with m := m }.link (ptrToWord q)).m.words
        (FreshWords st ({ st with m := m }.link (ptrToWord q))) q entries := by
  have hpos := st.m.firstGenerationEnd_pos
  have hcell : ∀ i < 2 * entries.length + 1, st.pp ≠ some (q + i) := by
    intro i hi heq
    have hle := hopen _ heq
    omega
  have hread : ∀ i < 2 * entries.length + 1,
      ({ st with m := m }.link (ptrToWord q)).m.words (q + i) = m.words (q + i) :=
    fun i hi => link_words (s := { st with m := m }) (hcell i hi)
  refine ⟨wrote_link hall hm hlow, ⟨by unfold nullPtr; omega,
    (hread 0 (by omega)).trans hheader, hlt, fun i hi => ⟨?_, ?_⟩, ?_, hkeys⟩⟩
  · rw [link_allocationPtr]
    dsimp only
    omega
  · omega
  · rw [← hentries]
    exact entriesFrom_congr fun j _ hj => hread j (by omega)

/-- A leaf of one key. -/
theorem emptySlot_spec (data : Nat) (hopen : st.Open) (hkey : key < 2 ^ 32)
    (hcan : st.m.canAllocate 3) :
    ∃ q, Wrote st q (emptySlot st key data) ∧
      LeafCell (emptySlot st key data).m.words (FreshWords st (emptySlot st key data)) q
        [(key, data)] ∧
      st.m.allocationPtr = (emptySlot st key data).m.allocationPtr + 3 := by
  obtain ⟨q, m₁, halloc, hq, hptr₁, hlow, hhead, hall₁⟩ := newCell_spec .leaf (by decide) hcan
  obtain ⟨m, hm⟩ : ∃ m, m = fillCell q 1 [key, ptrToWord data]
      (m₁.set q (CellType.leaf.header ||| 0x1)) := ⟨_, rfl⟩
  have heq : emptySlot st key data = { st with m := m }.link (ptrToWord q) := by
    unfold emptySlot
    simp only [halloc, hhead, hm]
  have hptr : m.allocationPtr = q := by
    rw [hm, fillCell_allocationPtr, Memory.set_allocationPtr, hptr₁]
  have hall : st.m.Allocates m := by
    rw [hm]
    exact (hall₁.set ⟨by omega, by omega⟩ _).fillCell _
      (by rw [Memory.set_allocationPtr]; omega) (by simp; omega)
  have hheader : m.words q = CellType.leaf.header ||| 1 := by
    rw [hm, fillCell_words_of_lt _ _ (by omega), Memory.set_words, if_pos rfl]
  have hentries : entriesFrom m.words q 1 1 = [(key, ptrToWord data)] := by
    rw [hm]
    exact entriesFrom_fillCell q 1 [(key, ptrToWord data)] _
  obtain ⟨hwrote, hleaf⟩ := wrote_leaf [(key, data)] hopen hall hptr hq hlow hheader (by simp)
    hentries (by simpa using hkey)
  rw [heq]
  refine ⟨q, hwrote, hleaf, ?_⟩
  rw [link_allocationPtr, hptr, hq]

/-- There is room for the new key. -/
theorem addKey_spec (data : Nat) (hopen : st.Open) (hkey : key < 2 ^ 32)
    (hS : ∀ a, S a → st.m.Live a)
    (hleaf : LeafCell st.m.words S st.p entries) (hlt : entries.length + 1 < 2 ^ 24)
    (hcan : st.m.canAllocate (2 * entries.length + 3)) :
    ∃ q, Wrote st q (addKey st key data) ∧
      LeafCell (addKey st key data).m.words (FreshWords st (addKey st key data)) q
        (entries ++ [(key, data)]) ∧
      st.m.allocationPtr = (addKey st key data).m.allocationPtr + (2 * entries.length + 3) := by
  have hn := hleaf.numberOfKeys_eq
  obtain ⟨n, hlen⟩ : ∃ n, n = entries.length := ⟨_, rfl⟩
  rw [← hlen] at hn hlt hcan ⊢
  obtain ⟨q, m₀, halloc, hq, hptr₀, hlow, hhead, hall₀⟩ :=
    newCell_spec .leaf (Nat.succ_pos _) hcan
  obtain ⟨m₁, hm₁⟩ : ∃ m₁, m₁ = m₀.set q (CellType.leaf.header ||| (n + 1)) := ⟨_, rfl⟩
  obtain ⟨m, hm⟩ : ∃ m, m = fillCell q (2 * n + 1) [key, ptrToWord data]
      (fillCell q 1 (slice m₁.words (st.p + 1) (2 * n)) m₁) := ⟨_, rfl⟩
  have heq : addKey st key data = { st with m := m }.link (ptrToWord q) := by
    unfold addKey
    simp only [hn, halloc, hhead, hm, hm₁]
  have hptr₁ : m₁.allocationPtr = q := by rw [hm₁, Memory.set_allocationPtr, hptr₀]
  have hptr : m.allocationPtr = q := by
    rw [hm, fillCell_allocationPtr, fillCell_allocationPtr, hptr₁]
  have hall₁ : st.m.Allocates m₁ := hm₁ ▸ hall₀.set ⟨by omega, by omega⟩ _
  have hall : st.m.Allocates m := by
    rw [hm]
    exact (hall₁.fillCell _ (by omega) (by rw [length_slice]; omega)).fillCell _
      (by rw [fillCell_allocationPtr]; omega) (by simp; omega)
  have hext₁ := hall₁.extends (by rw [hall₁.firstGenerationEnd_eq, hptr₁]; exact hlow)
  -- the words of the old leaf
  have hcopy : ∀ j, 1 ≤ j → j < 1 + 2 * n → m.words (q + j) = st.m.words (st.p + j) := by
    intro j hj hj'
    have hp := hS _ (hleaf.cell j (by omega))
    rw [hm, fillCell_words_of_lt _ _ (by omega)]
    have hget : (slice m₁.words (st.p + 1) (2 * n))[j - 1]? = some (m₁.words (st.p + j)) := by
      rw [slice_getElem? (by omega), show st.p + 1 + (j - 1) = st.p + j by omega]
    have hword := fillCell_words (q := q) (i := 1) m₁ hget
    rw [show q + (1 + (j - 1)) = q + j by omega] at hword
    rw [hword, hext₁.agree _ hp]
  have hheader : m.words q = CellType.leaf.header ||| (entries ++ [(key, data)]).length := by
    rw [hm, fillCell_words_of_lt _ _ (by omega), fillCell_words_of_lt _ _ (by omega), hm₁,
      Memory.set_words, if_pos rfl, List.length_append, ← hlen]
    rfl
  have hentries : entriesFrom m.words q (entries ++ [(key, data)]).length 1 =
      (entries ++ [(key, data)]).map fun e => (e.1, ptrToWord e.2) := by
    have hold : entriesFrom m.words q n 1 = entriesFrom st.m.words st.p n 1 :=
      entriesFrom_congr hcopy
    rw [List.length_append, ← hlen, List.length_singleton, entriesFrom_succ, hold, hlen,
      hleaf.entries_eq, ← hlen, List.map_append, hm]
    simp [fillCell, show 1 + 2 * n = 2 * n + 1 by omega, Nat.add_assoc]
  have hkeys : ∀ e ∈ entries ++ [(key, data)], e.1 < 2 ^ 32 := by
    intro e he
    rcases List.mem_append.mp he with he | he
    · exact hleaf.keys e he
    · obtain rfl := List.mem_singleton.mp he
      exact hkey
  obtain ⟨hwrote, hleaf'⟩ := wrote_leaf (entries ++ [(key, data)]) hopen hall hptr
    (by simp; omega) hlow hheader (by simp; omega) hentries hkeys
  rw [heq]
  refine ⟨q, hwrote, hleaf', ?_⟩
  rw [link_allocationPtr, hptr, hq]

/-- The data of a key are replaced. -/
theorem dhUpdate_spec {old : Nat} (data : Nat) (hopen : st.Open)
    (hS : ∀ a, S a → st.m.Live a)
    (hleaf : LeafCell st.m.words S st.p (before ++ (key, old) :: after))
    (hcan : st.m.canAllocate (2 * (before ++ (key, old) :: after).length + 1)) :
    ∃ q, Wrote st q (update st (1 + 2 * before.length) data) ∧
      LeafCell (update st (1 + 2 * before.length) data).m.words
        (FreshWords st (update st (1 + 2 * before.length) data)) q
        (before ++ (key, data) :: after) ∧
      st.m.allocationPtr = (update st (1 + 2 * before.length) data).m.allocationPtr +
        (2 * (before ++ (key, old) :: after).length + 1) := by
  have hn := hleaf.numberOfKeys_eq
  obtain ⟨n, hlen⟩ : ∃ n, n = (before ++ (key, old) :: after).length := ⟨_, rfl⟩
  have hlen' : (before ++ (key, data) :: after).length = n := by
    rw [hlen]
    simp
  have hbefore : before.length < n := by
    rw [hlen]
    simp
  have hlt := hleaf.length_lt
  have hcells := hleaf.cell
  have hentries₀ := hleaf.entries_eq
  have hheader₀ := hleaf.header
  rw [← hlen] at hn hcan hlt hcells hentries₀ hheader₀ ⊢
  obtain ⟨q, m₁, halloc, hq, hptr₁, hlow, -, hall₁⟩ :=
    newCell_spec .leaf (Nat.succ_pos _) hcan
  obtain ⟨m, hm⟩ : ∃ m, m = (fillCell q 0 (slice m₁.words st.p (2 * n + 1)) m₁).set
      (q + (1 + 2 * before.length) + 1) (ptrToWord data) := ⟨_, rfl⟩
  have heq : update st (1 + 2 * before.length) data =
      { st with m := m }.link (ptrToWord q) := by
    unfold update
    simp only [hn, halloc, hm]
  have hptr : m.allocationPtr = q := by
    rw [hm, Memory.set_allocationPtr, fillCell_allocationPtr, hptr₁]
  have hall : st.m.Allocates m := by
    rw [hm]
    exact (hall₁.fillCell _ (by omega) (by rw [length_slice]; omega)).set
      ⟨by rw [fillCell_allocationPtr]; omega, by omega⟩ _
  have hext₁ := hall₁.extends (by rw [hall₁.firstGenerationEnd_eq, hptr₁]; exact hlow)
  have hcopy : ∀ j, j < 2 * n + 1 → j ≠ 1 + 2 * before.length + 1 →
      m.words (q + j) = st.m.words (st.p + j) := by
    intro j hj hne
    have hword := fillCell_words (q := q) (i := 0) m₁
      (show (slice m₁.words st.p (2 * n + 1))[j]? = some (m₁.words (st.p + j)) from
        slice_getElem? hj)
    rw [Nat.zero_add] at hword
    rw [hm, Memory.set_words, if_neg (by omega), hword, hext₁.agree _ (hS _ (hcells j hj))]
  have hheader : m.words q = CellType.leaf.header ||| (before ++ (key, data) :: after).length := by
    rw [hlen', ← hheader₀]
    exact hcopy 0 (by omega) (by omega)
  have hentries : entriesFrom m.words q (before ++ (key, data) :: after).length 1 =
      (before ++ (key, data) :: after).map fun e => (e.1, ptrToWord e.2) := by
    rw [List.map_append, List.map_cons] at hentries₀ ⊢
    rw [hlen']
    refine entriesFrom_replace hentries₀ (fun j hj hj' hne => hcopy j (by omega) ?_) ?_
    · rwa [List.length_map] at hne
    · rw [List.length_map, hm, Memory.set_words, if_pos (by omega)]
  have hkeys : ∀ e ∈ before ++ (key, data) :: after, e.1 < 2 ^ 32 := by
    intro e he
    have hmem : e.1 ∈ (before ++ (key, old) :: after).map Prod.fst := by
      have hmem' := List.mem_map_of_mem (f := Prod.fst) he
      simpa using hmem'
    obtain ⟨e', he', hfst'⟩ := List.mem_map.mp hmem
    rw [← hfst']
    exact hleaf.keys e' he'
  obtain ⟨hwrote, hleaf'⟩ := wrote_leaf (before ++ (key, data) :: after) hopen hall hptr
    (by rw [hlen', hq]) hlow hheader (by rwa [hlen']) hentries hkeys
  rw [heq]
  refine ⟨q, hwrote, hleaf', ?_⟩
  rw [link_allocationPtr, hptr, hq]

/-! ## a new node -/

/-- The cell `newP` of a node was put into `*pp`, and now `*pp` is the word of
its son `i`. -/
structure NewDhNode (st : Inserting) (newP i : Nat) (s : Inserting) : Prop
    extends Wrote st newP s where
  allocationPtr_eq : newP + (internalNodeSize + 1) = st.m.allocationPtr
  allocationPtr_eq' : s.m.allocationPtr = newP
  end_le : st.m.firstGenerationEnd ≤ newP
  pp : s.pp = some (newP + (i + 1))
  slot_lt : i < internalNodeSize
  type : cellType (s.m.words newP) = CellType.internal.code

theorem NewDhNode.open (hnew : NewDhNode st p i s) : s.Open := by
  intro a ha
  rw [hnew.pp] at ha
  have hptr := hnew.allocationPtr_eq'
  obtain rfl := Option.some.inj ha
  omega

theorem NewDhNode.kept (hnew : NewDhNode st p i s) {a : Nat} (ha : st.m.Live a) : s.Kept a := by
  have hptr := hnew.allocationPtr_eq
  have hptr' := hnew.allocationPtr_eq'
  have hlow := hnew.end_le
  have hend := hnew.firstGenerationEnd_eq
  have hslot := hnew.slot_lt
  unfold Memory.Live at ha
  refine ⟨by unfold Memory.Live; omega, ?_⟩
  rw [hnew.pp]
  intro heq
  have heq' := Option.some.inj heq
  omega

theorem NewDhNode.later (hnew : NewDhNode st p i s) (h : Later s m) : Later st m where
  allocationPtr_le := Nat.le_trans h.allocationPtr_le hnew.allocationPtr_le
  firstGenerationEnd_eq := h.firstGenerationEnd_eq.trans hnew.firstGenerationEnd_eq
  firstGenerationStart_eq := h.firstGenerationStart_eq.trans hnew.firstGenerationStart_eq
  words a ha := (h.words a (hnew.kept ha.1)).trans (hnew.words a ha)

/-- What is put into the son is put into the tree. -/
theorem NewDhNode.wrote (hnew : NewDhNode st p i s) (hopen : st.Open) (hwrote : Wrote s q st') :
    Wrote st p st' where
  toLater := hnew.later hwrote.toLater
  read := by
    have hread := hnew.read
    cases hpp : st.pp with
    | none =>
      rw [hpp] at hread
      exact (hwrote.newRoot (by rw [hnew.pp]; exact fun h => by cases h)).trans hread
    | some a =>
      rw [hpp] at hread
      exact (hwrote.words a (hnew.kept (.inr (hopen a hpp)))).trans hread
  newRoot h := by
    rw [hwrote.newRoot (by rw [hnew.pp]; exact fun h => by cases h), hnew.newRoot h]

variable {sons : Fin internalNodeSize → Trie internalNodeSize Nat Nat}

/-- The new node with the other sons and what was put into the son `i`. -/
theorem NewDhNode.dhAt {i : Fin internalNodeSize} (hnew : NewDhNode st p i s)
    (hwrote : Wrote s q st') (hS : ∀ a, S a → st.m.Live a)
    (hsons : ∀ j ≠ i, ∃ q', s.m.words (p + (j + 1)) = ptrToWord q' ∧
      DhAt s.m.words S (sons j) q')
    (hq : DhAt st'.m.words (fun a => S a ∨ FreshWords s st' a) t' q) :
    DhAt st'.m.words (fun a => S a ∨ FreshWords st st' a)
      (.node (Function.update sons i t')) p := by
  have hptr := hnew.allocationPtr_eq
  have hptr' := hnew.allocationPtr_eq'
  have hle := hwrote.allocationPtr_le
  have hlow := hnew.end_le
  have hpos := st.m.firstGenerationEnd_pos
  have hslot := hnew.slot_lt
  have hread := hwrote.read
  rw [hnew.pp] at hread
  have hkept : ∀ j < internalNodeSize + 1, j ≠ i + 1 →
      st'.m.words (p + j) = s.m.words (p + j) := by
    intro j hj hne
    refine hwrote.words _ ⟨.inr (by omega), ?_⟩
    rw [hnew.pp]
    intro heq
    have heq' := Option.some.inj heq
    omega
  refine ⟨by unfold nullPtr; omega, fun j hj => .inr ⟨by omega, by omega⟩, ?_, fun j => ?_⟩
  · rw [← hnew.type]
    exact congrArg cellType (hkept 0 (by omega) (by omega))
  · by_cases hj : j = i
    · subst hj
      refine ⟨q, hread, ?_⟩
      rw [Function.update_self]
      exact hq.frame (fun _ _ => rfl) fun a ha => ha.imp_right fun ⟨hlow, hhigh⟩ =>
        ⟨hlow, by omega⟩
    · obtain ⟨q', hword, hq'⟩ := hsons j hj
      have hne : (j : Nat) + 1 ≠ i + 1 := fun heq => hj (Fin.ext (Nat.succ.inj heq))
      refine ⟨q', (hkept _ (by omega) hne).trans hword, ?_⟩
      rw [Function.update_of_ne hj]
      exact hq'.frame (fun a ha => hwrote.words a (hnew.kept (hS a ha))) fun a ha => .inl ha

/-- A node on the way. -/
theorem descend_spec (key : Nat) (hopen : st.Open) (hS : ∀ a, S a → st.m.Live a)
    (hkept : ∀ a, S a → st.pp ≠ some a) (hnode : DhAt st.m.words S (.node sons) st.p)
    (hbits : st.bitsCompared = offset * level) (hcan : st.m.canAllocate (internalNodeSize + 1)) :
    ∃ q, NewDhNode st q (digit level key) (descend st key) ∧
      (descend st key).bitsCompared = offset * (level + 1) ∧
      (∀ j : Fin internalNodeSize, ∃ q', (descend st key).m.words (q + (j + 1)) = ptrToWord q' ∧
        DhAt (descend st key).m.words S (sons j) q') ∧
      DhAt (descend st key).m.words S (sons (digit level key)) (descend st key).p := by
  obtain ⟨q, m₁, halloc, hq, hptr₀, hlow, hhead, hall₁⟩ :=
    newCell_spec .internal (Nat.succ_pos _) hcan
  obtain ⟨m, hm⟩ : ∃ m, m = fillCell q 1 (slice m₁.words (st.p + 1) internalNodeSize) m₁ := ⟨_, rfl⟩
  obtain ⟨st₁, hst₁⟩ : ∃ st₁, st₁ = { st with m := m }.link (ptrToWord q) := ⟨_, rfl⟩
  have heq : descend st key = { st₁ with
      pp := some (q + (slot key (offset * level) + 1)),
      p := wordToPtr (st₁.m.words (q + (slot key (offset * level) + 1))),
      bitsCompared := st₁.bitsCompared + offset } := by
    unfold descend
    simp only [halloc, ← hm, ← hst₁]
    rw [hst₁, link_bitsCompared, hbits]
  obtain ⟨-, hcell, -, hsons⟩ := hnode
  have hptr : m.allocationPtr = q := by rw [hm, fillCell_allocationPtr, hptr₀]
  have hall : st.m.Allocates m := by
    rw [hm]
    exact hall₁.fillCell _ (by omega) (by rw [length_slice]; omega)
  have hext₁ := hall₁.extends (by rw [hall₁.firstGenerationEnd_eq, hptr₀]; exact hlow)
  have hwrote : Wrote st q st₁ := hst₁ ▸ wrote_link hall hptr hlow
  have hread : ∀ j < internalNodeSize + 1, st₁.m.words (q + j) = m.words (q + j) := by
    intro j hj
    rw [hst₁]
    refine link_words (s := { st with m := m }) fun heq => ?_
    have hle := hopen _ heq
    omega
  have hcopy : ∀ j < internalNodeSize, st₁.m.words (q + (j + 1)) = st.m.words (st.p + (j + 1)) := by
    intro j hj
    have hword := fillCell_words (q := q) (i := 1) m₁
      (show (slice m₁.words (st.p + 1) internalNodeSize)[j]? = some (m₁.words (st.p + 1 + j)) from
        slice_getElem? hj)
    rw [← hm, Nat.add_comm 1 j] at hword
    rw [hread _ (by omega), hword, Nat.add_assoc, Nat.add_comm 1 j,
      hext₁.agree _ (hS _ (hcell _ (by omega)))]
  have hagree : AgreeOn S st.m.words st₁.m.words := fun a ha =>
    hwrote.words a ⟨hS a ha, hkept a ha⟩
  have htype : cellType (st₁.m.words q) = CellType.internal.code := by
    have hhead' := hread 0 (by omega)
    rw [Nat.add_zero] at hhead'
    rw [hhead', hm, fillCell_words_of_lt _ _ (by omega), hhead]
    decide
  have hson : ∀ j : Fin internalNodeSize, ∃ q', st₁.m.words (q + (j + 1)) = ptrToWord q' ∧
      DhAt st₁.m.words S (sons j) q' := by
    intro j
    obtain ⟨q', hword, hq'⟩ := hsons j
    exact ⟨q', (hcopy j j.isLt).trans hword, hq'.frame hagree fun _ ha => ha⟩
  have hptr₁ : st₁.m.allocationPtr = q := by rw [hst₁, link_allocationPtr, hptr]
  rw [heq]
  refine ⟨q, ⟨⟨⟨hwrote.allocationPtr_le, hwrote.firstGenerationEnd_eq,
    hwrote.firstGenerationStart_eq, hwrote.words⟩, hwrote.read, hwrote.newRoot⟩, hq, hptr₁, hlow,
    rfl, (digit level key).isLt, htype⟩, ?_, hson, ?_⟩
  · dsimp only
    rw [hst₁, link_bitsCompared]
    dsimp only
    rw [hbits]
    rfl
  · obtain ⟨q', hword, hq'⟩ := hson (digit level key)
    have hslot : st₁.m.words (q + (slot key (offset * level) + 1)) = ptrToWord q' := hword
    dsimp only
    rw [hslot, wordToPtr_ptrToWord]
    exact hq'

/-! ## a full leaf -/

/-- The cell of a new node was put into `*pp`, and is not filled yet. -/
structure OpenNode (st : Inserting) (q : Nat) (s : Inserting) : Prop extends Wrote st q s where
  allocationPtr_eq : q + (internalNodeSize + 1) = st.m.allocationPtr
  allocationPtr_eq' : s.m.allocationPtr = q
  end_le : st.m.firstGenerationEnd ≤ q
  type : cellType (s.m.words q) = CellType.internal.code
  pp : s.pp = st.pp
  p : s.p = st.p
  bitsCompared : s.bitsCompared = st.bitsCompared

theorem openNode_spec (hopen : st.Open) (hcan : st.m.canAllocate (internalNodeSize + 1)) :
    ∃ q m s, st.m.allocate (internalNodeSize + 1) .internal = (q, m) ∧
      s = { st with m := m }.link (ptrToWord q) ∧ OpenNode st q s := by
  obtain ⟨q, m, halloc, hq, hptr, hlow, hhead, hall⟩ :=
    newCell_spec .internal (Nat.succ_pos _) hcan
  refine ⟨q, m, _, halloc, rfl, wrote_link hall hptr hlow, hq, by rw [link_allocationPtr, hptr],
    hlow, ?_, link_pp _ _, link_p _ _, link_bitsCompared _ _⟩
  rw [link_words (s := { st with m := m }) fun heq => ?_, hhead]
  · decide
  · have hle := hopen _ heq
    omega

/-- All keys from the word `i` on branch like the key before them. -/
theorem sameSlots_eq_true (bitsCompared : Nat) : sameSlots words p bitsCompared n i = true ↔
    ∀ e ∈ entriesFrom words p n i,
      slot e.1 bitsCompared = slot (words (p + i - 2)) bitsCompared := by
  induction n generalizing i with
  | zero => simp [sameSlots, entriesFrom]
  | succ n ih =>
    rw [sameSlots, decide_eq_true_iff, ih, entriesFrom, List.forall_mem_cons,
      show p + (i + 2) - 2 = p + i by omega]
    constructor
    · rintro ⟨heq, h⟩
      exact ⟨heq.symm, fun e he => (h e he).trans heq.symm⟩
    · rintro ⟨heq, h⟩
      exact ⟨heq.symm, fun e he => (h e he).trans heq.symm⟩

/-- All keys branch to the son of the new key. -/
theorem newOverflow_eq_true (key : Nat) (hleaf : LeafCell words S p entries) (hne : entries ≠ [])
    (bitsCompared : Nat) : newOverflow words p key bitsCompared = true ↔
      ∀ e ∈ entries, slot e.1 bitsCompared = slot key bitsCompared := by
  obtain ⟨e, rest, rfl⟩ := List.exists_cons_of_ne_nil hne
  have hentries := hleaf.entries_eq
  rw [List.length_cons, entriesFrom, List.map_cons] at hentries
  obtain ⟨hhead, htail⟩ := List.cons.inj hentries
  have hfirst : words (p + 1) = e.1 := (Prod.mk.inj hhead).1
  rw [newOverflow, decide_eq_true_iff, hleaf.numberOfKeys_eq, sameSlots_eq_true, List.length_cons,
    Nat.add_sub_cancel, htail, show p + 3 - 2 = p + 1 by omega, hfirst, List.forall_mem_cons,
    List.forall_mem_map]
  constructor
  · rintro ⟨heq, h⟩
    exact ⟨heq.symm, fun e' he' => (h e' he').trans heq.symm⟩
  · rintro ⟨heq, h⟩
    exact ⟨heq.symm, fun e' he' => (h e' he').trans heq.symm⟩

/-- The words of a new node are written. -/
theorem OpenNode.later (hnode : OpenNode st q s) {m : Memory}
    (hptr : m.allocationPtr ≤ s.m.allocationPtr)
    (hend : m.firstGenerationEnd = s.m.firstGenerationEnd)
    (hstart : m.firstGenerationStart = s.m.firstGenerationStart)
    (hout : ∀ a, st.m.Live a → m.words a = s.m.words a) : Later st m where
  allocationPtr_le := Nat.le_trans hptr hnode.allocationPtr_le
  firstGenerationEnd_eq := hend.trans hnode.firstGenerationEnd_eq
  firstGenerationStart_eq := hstart.trans hnode.firstGenerationStart_eq
  words a ha := (hout a ha.1).trans (hnode.words a ha)

/-- They are not those of `*pp`. -/
theorem OpenNode.read_of (hnode : OpenNode st q s) (hopen : st.Open) {s' : Inserting}
    (hroot : s'.newRoot = s.newRoot) (hout : ∀ a, st.m.Live a → s'.m.words a = s.m.words a) :
    s'.read st.pp = ptrToWord q := by
  have hread := hnode.read
  cases hpp : st.pp with
  | none =>
    rw [hpp] at hread
    exact hroot.trans hread
  | some a =>
    rw [hpp] at hread
    exact (hout a (.inr (hopen a hpp))).trans hread

/-- The new node has one son, which is `*pp` now. -/
theorem overflow_spec (key : Nat) (hnode : OpenNode st q s) (hopen : st.Open)
    (hbits : st.bitsCompared = offset * level) :
    NewDhNode st q (digit level key) (overflow s q key) ∧
      (overflow s q key).bitsCompared = offset * (level + 1) ∧ (overflow s q key).p = st.p ∧
      ∀ j : Fin internalNodeSize, j ≠ digit level key →
        (overflow s q key).m.words (q + (j + 1)) = ptrToWord nullPtr := by
  have hbits' : s.bitsCompared = offset * level := hnode.bitsCompared.trans hbits
  have hq := hnode.allocationPtr_eq
  have hptr := hnode.allocationPtr_eq'
  have hlow := hnode.end_le
  have hlt := slot_lt key s.bitsCompared
  have hsize : internalNodeSize = 4 := rfl
  have hword : ∀ a, a ≠ q + (slot key s.bitsCompared + 1) → (overflow s q key).m.words a =
      (fillCell q 1 (List.replicate internalNodeSize nullWord) s.m).words a := fun a ha =>
    if_neg ha
  have hout : ∀ a, a ≤ q ∨ st.m.allocationPtr ≤ a → (overflow s q key).m.words a = s.m.words a := by
    intro a ha
    rw [hword a (by omega)]
    rcases ha with ha | ha
    · exact fillCell_words_of_lt _ _ (by omega)
    · exact fillCell_words_of_ge _ _ (by rw [List.length_replicate]; omega)
  have hlive : ∀ a, st.m.Live a → (overflow s q key).m.words a = s.m.words a := fun a ha =>
    hout a (ha.imp_left fun h => by omega)
  have hptr' : (overflow s q key).m.allocationPtr = s.m.allocationPtr :=
    fillCell_allocationPtr _ _ _ _
  refine ⟨⟨⟨hnode.later (Nat.le_of_eq hptr') (fillCell_firstGenerationEnd _ _ _ _)
    (fillCell_firstGenerationStart _ _ _ _) hlive, hnode.read_of hopen rfl hlive, hnode.newRoot⟩,
    hq, hptr'.trans hptr, hlow, ?_, (digit level key).isLt, ?_⟩, ?_, hnode.p, fun j hj => ?_⟩
  · unfold overflow digit
    rw [hbits']
  · rw [hout q (.inl (Nat.le_refl q))]
    exact hnode.type
  · unfold overflow
    rw [hbits']
    rfl
  · have hne : (j : Nat) ≠ slot key s.bitsCompared := by
      rw [hbits']
      exact fun heq => hj (Fin.ext heq)
    rw [hword _ (by omega), Nat.add_comm (j : Nat) 1]
    refine fillCell_words _ ?_
    rw [List.getElem?_replicate, if_pos j.isLt]
    rfl

/-- The entries that branch to a son. -/
theorem filter_slot (es : List (Nat × Nat)) (i : Fin internalNodeSize) :
    (es.filter fun e => slot e.1 (offset * level) = i) =
      es.filter fun e => digit level e.1 = i := by
  refine List.filter_congr fun e _ => ?_
  simp [digit, Fin.ext_iff]

theorem LeafCell.entriesFrom_eq (h : LeafCell words S p entries) :
    entriesFrom words p (numberOfKeys words p) 1 = entries.map fun e => (e.1, ptrToWord e.2) := by
  rw [h.numberOfKeys_eq, h.entries_eq]

/-- The number of the entries that branch to a son. -/
theorem items_eq (entries : List (Nat × Nat)) (key data i bitsCompared : Nat) :
     ((if slot key bitsCompared = i then 1 else 0) +
    (entries.map fun e => (e.1, ptrToWord e.2)).countP fun e => slot e.1 bitsCompared = i) =
      (((key, data) :: entries).filter fun e => slot e.1 bitsCompared = i).length := by
  rw [List.countP_map, ← List.countP_eq_length_filter, List.countP_cons, Nat.add_comm]
  congr 1
  simp

/-- The words of the entries that branch to a son. -/
theorem selected_eq (entries : List (Nat × Nat)) (key data i bitsCompared : Nat) :
    (if slot key bitsCompared = i then [(key, ptrToWord data)] else []) ++
      (entries.map fun e => (e.1, ptrToWord e.2)).filter (fun e => slot e.1 bitsCompared = i) =
      (((key, data) :: entries).filter fun e => slot e.1 bitsCompared = i).map
        fun e => (e.1, ptrToWord e.2) := by
  rw [List.filter_map, List.filter_cons]
  by_cases h : slot key bitsCompared = i
  · simp [h, Function.comp_def]
  · simp [h, Function.comp_def]

/-- The words of a leaf of `n` keys, when there are any. -/
def leafCellWords (n : Nat) : Nat := if n = 0 then 0 else 2 * n + 1

/-- One of the new leaves. -/
theorem newLeaf_spec {bitsCompared : Nat}
    (hS : ∀ a, S a → m.Live a ∧ a ≠ q + (i + 1)) (hq : m.allocationPtr ≤ q)
    (hleaf : LeafCell m.words S p entries) (hlt : entries.length + 1 < 2 ^ 24) (hkey : key < 2 ^ 32)
    (hcan : m.canAllocate (leafCellWords
      (((key, data) :: entries).filter fun e => slot e.1 bitsCompared = i).length)) :
    ∃ r m', newLeaf p q key data bitsCompared i m = m' ∧
      m'.words (q + (i + 1)) = ptrToWord r ∧
      DhAt m'.words (fun a => m'.allocationPtr ≤ a ∧ a < m.allocationPtr)
        (leafOf (((key, data) :: entries).filter fun e => slot e.1 bitsCompared = i)) r ∧
      (∀ a, m.Live a → a ≠ q + (i + 1) → m'.words a = m.words a) ∧
      m'.firstGenerationEnd = m.firstGenerationEnd ∧
      m'.firstGenerationStart = m.firstGenerationStart ∧
      m.allocationPtr = m'.allocationPtr + leafCellWords
        (((key, data) :: entries).filter fun e => slot e.1 bitsCompared = i).length := by
  have hitems := items_eq entries key data i bitsCompared
  have hselected := selected_eq entries key data i bitsCompared
  have hsub : ∀ e ∈ ((key, data) :: entries).filter fun e => slot e.1 bitsCompared = i,
      e.1 < 2 ^ 32 := by
    intro e he
    rcases List.mem_cons.mp (List.mem_filter.mp he).1 with rfl | he
    · exact hkey
    · exact hleaf.keys e he
  have hle := List.length_filter_le (fun e => slot e.1 bitsCompared = i) ((key, data) :: entries)
  rw [List.length_cons] at hle
  generalize ((key, data) :: entries).filter (fun e => slot e.1 bitsCompared = i) = es at *
  rw [← hleaf.entriesFrom_eq] at hitems
  by_cases hzero : es.length = 0
  · obtain rfl := List.length_eq_zero_iff.mp hzero
    refine ⟨nullPtr, m.set (q + (i + 1)) nullWord, ?_, by simp [nullPtr, ptrToWord, nullWord], rfl,
      fun a _ ha => ?_, rfl, rfl, rfl⟩
    · simp only [newLeaf, hitems, List.length_nil, if_true]
    rw [Memory.set_words, if_neg ha]
  · rw [leafCellWords, if_neg hzero] at hcan
    obtain ⟨r, m₀, halloc, hr, hptr₀, hlow, hhead, hall₀⟩ :=
      newCell_spec .leaf (Nat.succ_pos _) hcan
    have hpos := m.firstGenerationEnd_pos
    obtain ⟨m₁, hm₁⟩ : ∃ m₁, m₁ = m₀.set r (CellType.leaf.header ||| es.length) := ⟨_, rfl⟩
    have hptr₁ : m₁.allocationPtr = r := by rw [hm₁, Memory.set_allocationPtr, hptr₀]
    have hall₁ : m.Allocates m₁ := hm₁ ▸ hall₀.set ⟨by omega, by omega⟩ _
    have hext₁ := hall₁.extends (by rw [hall₁.firstGenerationEnd_eq, hptr₁]; exact hlow)
    have hleaf₁ : LeafCell m₁.words S p entries :=
      hleaf.frame (fun a ha => hext₁.agree a (hS a ha).1) fun _ ha => ha
    obtain ⟨m₂, hm₂⟩ : ∃ m₂, m₂ = fillCell r 1
        (flatten (es.map fun e => (e.1, ptrToWord e.2))) m₁ := ⟨_, rfl⟩
    have hlength : (flatten (es.map fun e => (e.1, ptrToWord e.2))).length = 2 * es.length := by
      rw [length_flatten, List.length_map]
    have hptr : m₂.allocationPtr = r := by rw [hm₂, fillCell_allocationPtr, hptr₁]
    have hall : m.Allocates m₂ := by
      rw [hm₂]
      exact hall₁.fillCell _ (by omega) (by rw [hlength]; omega)
    have hext := hall.extends (by rw [hall.firstGenerationEnd_eq, hptr]; exact hlow)
    have hset : ∀ a, a ≠ q + (i + 1) →
        (m₂.set (q + (i + 1)) (ptrToWord r)).words a = m₂.words a := fun a ha => by
      rw [Memory.set_words, if_neg ha]
    refine ⟨r, m₂.set (q + (i + 1)) (ptrToWord r), ?_, by rw [Memory.set_words, if_pos rfl], ?_,
      fun a ha hne => (hset a hne).trans (hext.agree a ha), hext.firstGenerationEnd_eq,
      hext.firstGenerationStart_eq, ?_⟩
    · simp only [newLeaf, hitems, if_neg hzero, halloc, hhead, ← hm₁, hleaf₁.entriesFrom_eq,
        hselected, ← hm₂]
    · have hleaf' : LeafCell (m₂.set (q + (i + 1)) (ptrToWord r)).words
          (fun a => (m₂.set (q + (i + 1)) (ptrToWord r)).allocationPtr ≤ a ∧
            a < m.allocationPtr) r es := by
        refine ⟨by unfold nullPtr; omega, ?_, by omega, fun j hj => ⟨?_, by omega⟩, ?_, hsub⟩
        · rw [hset r (by omega), hm₂, fillCell_words_of_lt _ _ (by omega), hm₁, Memory.set_words,
            if_pos rfl]
        · rw [Memory.set_allocationPtr, hptr]
          omega
        · have hcopy : entriesFrom (m₂.set (q + (i + 1)) (ptrToWord r)).words r es.length 1 =
              entriesFrom m₂.words r es.length 1 :=
            entriesFrom_congr fun j _ hj => hset _ (by omega)
          rw [hcopy, hm₂]
          have hfill := entriesFrom_fillCell r 1 (es.map fun e => (e.1, ptrToWord e.2)) m₁
          rwa [List.length_map] at hfill
      cases es with
      | nil => exact absurd rfl hzero
      | cons e es => exact hleaf'
    · rw [Memory.set_allocationPtr, hptr, leafCellWords, if_neg hzero, hr]

/-- The words of the leaves from the son `i` on. -/
def leafWords (bitsCompared : Nat) (keys : List Nat) : Nat → Nat → Nat
  | 0, _ => 0
  | n + 1, i => leafCellWords (keys.countP fun key => slot key bitsCompared = i) +
      leafWords bitsCompared keys n (i + 1)

/-- The sons that some of the keys go to. -/
def usedSons (bitsCompared : Nat) (keys : List Nat) : Nat :=
  (List.range internalNodeSize).countP fun i => keys.any fun key => slot key bitsCompared = i

/-- Each key is in one leaf. -/
theorem countP_slots (bitsCompared : Nat) (keys : List Nat) :
    (keys.countP fun key => slot key bitsCompared = 0) +
      (keys.countP fun key => slot key bitsCompared = 1) +
      (keys.countP fun key => slot key bitsCompared = 2) +
      (keys.countP fun key => slot key bitsCompared = 3) = keys.length := by
  induction keys with
  | nil => rfl
  | cons key keys ih =>
    have hlt := slot_lt key bitsCompared
    have hsize : internalNodeSize = 4 := rfl
    simp only [List.countP_cons, List.length_cons, decide_eq_true_eq]
    rcases (by omega : slot key bitsCompared = 0 ∨ slot key bitsCompared = 1 ∨
      slot key bitsCompared = 2 ∨ slot key bitsCompared = 3) with h | h | h | h <;>
    · simp only [h]
      simp
      omega

/-- Two words for each key, and one for each leaf. -/
theorem leafWords_eq (bitsCompared : Nat) (keys : List Nat) :
    leafWords bitsCompared keys internalNodeSize 0 =
      2 * keys.length + usedSons bitsCompared keys := by
  have hone : ∀ i, leafCellWords (keys.countP fun key => slot key bitsCompared = i) =
      2 * (keys.countP fun key => slot key bitsCompared = i) +
        if (keys.any fun key => slot key bitsCompared = i) = true then 1 else 0 := by
    intro i
    unfold leafCellWords
    by_cases hany : (keys.any fun key => slot key bitsCompared = i) = true
    · have hne : (keys.countP fun key => slot key bitsCompared = i) ≠ 0 :=
        Nat.pos_iff_ne_zero.mp (List.countP_pos_iff.mpr (List.any_eq_true.mp hany))
      rw [if_neg hne, if_pos hany]
    · have hzero : (keys.countP fun key => slot key bitsCompared = i) = 0 :=
        List.countP_eq_zero.mpr fun key hkey hslot =>
          hany (List.any_eq_true.mpr ⟨key, hkey, hslot⟩)
      rw [if_neg hany, if_pos hzero, hzero]
  have hused : usedSons bitsCompared keys =
      (if (keys.any fun key => slot key bitsCompared = 0) = true then 1 else 0) +
      (if (keys.any fun key => slot key bitsCompared = 1) = true then 1 else 0) +
      (if (keys.any fun key => slot key bitsCompared = 2) = true then 1 else 0) +
      (if (keys.any fun key => slot key bitsCompared = 3) = true then 1 else 0) := by
    have hrange : List.range internalNodeSize = [0, 1, 2, 3] := rfl
    simp only [usedSons, hrange, List.countP_cons, List.countP_nil]
    omega
  have hsum := countP_slots bitsCompared keys
  rw [hused]
  simp only [internalNodeSize, leafWords, hone, Nat.zero_add, Nat.reduceAdd]
  omega

theorem usedSons_le (bitsCompared : Nat) (keys : List Nat) :
    usedSons bitsCompared keys ≤ internalNodeSize :=
  List.countP_le_length.trans (Nat.le_of_eq List.length_range)

/-- The sons from `i` on are the new leaves. -/
theorem leafLoop_spec {bitsCompared : Nat} (hn : i + n = internalNodeSize)
    (hS : ∀ a, S a → m.Live a ∧ ∀ j < internalNodeSize, a ≠ q + (j + 1))
    (hq : m.allocationPtr ≤ q) (hleaf : LeafCell m.words S p entries)
    (hlt : entries.length + 1 < 2 ^ 24) (hkey : key < 2 ^ 32)
    (hcan : m.canAllocate (leafWords bitsCompared (key :: entries.map Prod.fst) n i)) :
    ∃ m', leafLoop p q key data bitsCompared n i m = m' ∧
      (∀ j, i ≤ j → j < internalNodeSize → ∃ r, m'.words (q + (j + 1)) = ptrToWord r ∧
        DhAt m'.words (fun a => m'.allocationPtr ≤ a ∧ a < m.allocationPtr)
          (leafOf (((key, data) :: entries).filter fun e => slot e.1 bitsCompared = j)) r) ∧
      (∀ a, m.Live a → (∀ j, i ≤ j → j < internalNodeSize → a ≠ q + (j + 1)) →
        m'.words a = m.words a) ∧
      m'.firstGenerationEnd = m.firstGenerationEnd ∧
      m'.firstGenerationStart = m.firstGenerationStart ∧
      m.allocationPtr = m'.allocationPtr +
        leafWords bitsCompared (key :: entries.map Prod.fst) n i := by
  induction n generalizing i m with
  | zero => exact ⟨m, rfl, fun j hj hj' => by omega, fun _ _ _ => rfl, rfl, rfl, rfl⟩
  | succ n ih =>
    have hcount : ((key :: entries.map Prod.fst).countP fun k => slot k bitsCompared = i) =
        (((key, data) :: entries).filter fun e => slot e.1 bitsCompared = i).length := by
      rw [← List.countP_eq_length_filter, List.countP_cons, List.countP_cons, List.countP_map]
      rfl
    rw [leafWords, hcount] at hcan ⊢
    obtain ⟨r, m₁, hrun, hword, htree, hwords, hend, hstart, hptr⟩ :=
      newLeaf_spec (fun a ha => ⟨(hS a ha).1, (hS a ha).2 i (by omega)⟩) hq hleaf
        hlt hkey (Memory.canAllocate_mono hcan (Nat.le_add_right _ _))
    -- what was live stays live
    have hlive : ∀ a, m.Live a → m₁.Live a := fun a ha =>
      ha.imp (fun h => hend ▸ h) fun h => by omega
    have hcan₁ : m₁.canAllocate
        (leafWords bitsCompared (key :: entries.map Prod.fst) n (i + 1)) := by
      unfold Memory.canAllocate at hcan ⊢
      omega
    have hleaf₁ : LeafCell m₁.words S p entries := hleaf.frame
      (fun a ha => hwords a (hS a ha).1 ((hS a ha).2 i (by omega))) fun _ ha => ha
    obtain ⟨m', hloop, hsons, hwords', hend', hstart', hptr'⟩ :=
      ih (i := i + 1) (m := m₁) (by omega) (fun a ha => ⟨hlive a (hS a ha).1, (hS a ha).2⟩)
        (by omega) hleaf₁ hcan₁
    refine ⟨m', by rw [leafLoop, hrun, hloop], fun j hj hj' => ?_, fun a ha hne => ?_,
      hend'.trans hend, hstart'.trans hstart, by omega⟩
    · rcases Nat.eq_or_lt_of_le hj with rfl | hlt
      · refine ⟨r, (hwords' _ (.inr (by omega)) fun j hj _ => by omega).trans hword,
          htree.frame (fun a ha => hwords' a (.inr ha.1) fun j hj _ => by omega) fun a ha =>
            ⟨by omega, ha.2⟩⟩
      · obtain ⟨r', hword', htree'⟩ := hsons j hlt hj'
        exact ⟨r', hword', htree'.frame (fun _ _ => rfl) fun a ha => ⟨ha.1, by omega⟩⟩
    · rw [hwords' a (hlive a ha) fun j hj hj' => hne j (by omega) hj',
        hwords a ha (hne i (Nat.le_refl i) (by omega))]

end Shades
