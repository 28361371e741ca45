import Mathlib.Logic.Function.Basic
import Shades.Triev2.Find

/-!
# Shades.Triev2.Insert

`triev2_insert` adds a key to the map of a trie and leaves the old trie as it
was.

The loop goes down the old trie and grows the new one from the root: after
every turn the new trie is complete but for one slot, where the trie for the
rest of the key is to be put.  `Grown s s'` says this of two states of the
loop; it holds of one turn, and two stretches of the loop compose.
-/

namespace Shades

/-! ## copying fields -/

@[simp] theorem copyFields_allocationPtr (m : Memory) (newP p i : Nat)
    (fields : List (Option Nat)) :
    (copyFields m newP p i fields).allocationPtr = m.allocationPtr := by
  induction fields generalizing m i with
  | nil => rfl
  | cons x fields ih => cases x <;> simp [copyFields, ih]

@[simp] theorem copyFields_firstGenerationEnd (m : Memory) (newP p i : Nat)
    (fields : List (Option Nat)) :
    (copyFields m newP p i fields).firstGenerationEnd = m.firstGenerationEnd := by
  induction fields generalizing m i with
  | nil => rfl
  | cons x fields ih => cases x <;> simp [copyFields, ih]

@[simp] theorem copyFields_firstGenerationStart (m : Memory) (newP p i : Nat)
    (fields : List (Option Nat)) :
    (copyFields m newP p i fields).firstGenerationStart = m.firstGenerationStart := by
  induction fields generalizing m i with
  | nil => rfl
  | cons x fields ih => cases x <;> simp [copyFields, ih]

/-- Only the fields of the new cell are written. -/
theorem copyFields_outside {m : Memory} {newP p i a : Nat} {fields : List (Option Nat)}
    (ha : a < newP + 1 + i ∨ newP + 1 + i + fields.length ≤ a) :
    (copyFields m newP p i fields).words a = m.words a := by
  induction fields generalizing m i with
  | nil => rfl
  | cons x fields ih =>
    have hrest : a < newP + 1 + (i + 1) ∨ newP + 1 + (i + 1) + fields.length ≤ a := by
      simp only [List.length_cons] at ha
      omega
    cases x with
    | none => exact ih hrest
    | some j =>
      rw [copyFields, ih hrest, Memory.set_words, if_neg]
      simp only [List.length_cons] at ha
      omega

/-- A field with a source receives the word of the source, which lies outside
the new cell. -/
theorem copyFields_field {m : Memory} (newP p i : Nat) {x j : Nat}
    {fields : List (Option Nat)}
    (hx : fields[x]? = some (some j))
    (hsource : p + j < newP + 1 + i ∨ newP + 1 + i + fields.length ≤ p + j) :
    (copyFields m newP p i fields).words (newP + 1 + i + x) = m.words (p + j) := by
  induction fields generalizing m i x with
  | nil => simp at hx
  | cons y fields ih =>
    simp only [List.length_cons] at hsource
    have hrest : p + j < newP + 1 + (i + 1) ∨ newP + 1 + (i + 1) + fields.length ≤ p + j := by
      omega
    cases x with
    | zero =>
      obtain rfl : y = some j := by simpa using hx
      rw [copyFields, copyFields_outside (by omega)]
      simp
    | succ x =>
      have hx' : fields[x]? = some (some j) := by simpa using hx
      rw [show newP + 1 + i + (x + 1) = newP + 1 + (i + 1) + x by omega]
      cases y with
      | none => exact ih _ hx' hrest
      | some l =>
        rw [copyFields, ih _ hx' hrest, Memory.set_words, if_neg (by omega)]

/-- Copying all the fields of a cell of `cs` words. -/
theorem copyFields_all {m : Memory} {newP p cs x : Nat} (hx0 : x ≠ 0) (hx : x < cs)
    (hsource : p + x < newP + 1 ∨ newP + cs ≤ p + x) :
    (copyFields m newP p 0 ((List.range (cs - 1)).map fun i => some (i + 1))).words (newP + x) =
      m.words (p + x) := by
  have hfield : ((List.range (cs - 1)).map fun i => some (i + 1))[x - 1]? = some (some x) := by
    rw [List.getElem?_map, List.getElem?_range (by omega)]
    simp only [Option.map_some]
    congr 2
    omega
  have h := copyFields_field (m := m) newP p 0 hfield
    (by rw [List.length_map, List.length_range]; omega)
  rwa [show newP + 1 + 0 + (x - 1) = newP + x by omega] at h

/-- Copying into a fresh cell. -/
theorem allocates_copyFields {m m' : Memory} {newP p i : Nat} {fields : List (Option Nat)}
    (h : m.Allocates m') (hlow : m'.allocationPtr ≤ newP + 1 + i)
    (hhigh : newP + 1 + i + fields.length ≤ m.allocationPtr) :
    m.Allocates (copyFields m' newP p i fields) where
  allocationPtr_le := by simpa using h.allocationPtr_le
  firstGenerationEnd_eq := by simpa using h.firstGenerationEnd_eq
  firstGenerationStart_eq := by simpa using h.firstGenerationStart_eq
  agree := by
    intro a ha
    rw [copyFields_allocationPtr] at ha
    rw [copyFields_outside (by omega), h.agree a ha]

/-- A fresh copy of a live cell with another first word. -/
theorem copyCell_spec {M M' : Memory} {p cs newP header : Nat} {type : CellType} (hcs : 0 < cs)
    (hcan : M.canAllocate cs) (hlive : ∀ i < cs, M.Live (p + i))
    (hnewP : newP = M.allocationPtr - cs)
    (hM' : M' = copyFields ((M.allocate cs type).2.set newP header) newP p 0
      ((List.range (cs - 1)).map fun i => some (i + 1))) :
    M.Allocates M' ∧ M'.allocationPtr = newP ∧ newP + cs = M.allocationPtr ∧
      M'.words newP = header ∧
      ∀ x < cs, x ≠ 0 → M'.words (newP + x) = M.words (p + x) := by
  have halloc := Memory.allocates_allocate type hcs hcan
  unfold Memory.canAllocate at hcan
  have hsum : newP + cs = M.allocationPtr := by omega
  refine ⟨?_, by simp [hM', hnewP], hsum, ?_, fun x hx hx0 => ?_⟩
  · rw [hM']
    refine allocates_copyFields (halloc.set ?_ _) ?_ ?_ <;> simp <;> omega
  · rw [hM', copyFields_outside (by omega), Memory.set_words, if_pos rfl]
  · have hsource := hlive x hx
    unfold Memory.Live at hsource
    rw [hM', copyFields_all hx0 hx (by omega), Memory.set_words, if_neg (by omega),
      Memory.allocate_words, if_neg (by omega)]

/-! ## growing a trie -/

/-- The word in the slot `pp`. -/
def InsertState.slotWord (s : InsertState) (pp : Option Nat) : Nat :=
  match pp with
  | none => s.newRoot
  | some a => s.memory.words a

/-- The loop is about to insert key `k`, of `n` digits, in the trie with the
map `f` that is kept in the region `S` of the old memory. -/
structure Ready (enc : Nat → Nat) (words : Nat → Nat) (S : Nat → Prop) (n k : Nat) (f : Nat → Nat)
    (s : InsertState) : Prop where
  pos : 0 < n
  le : n ≤ 16
  key_lt : k < 4 ^ n
  key : s.key = alignKey k n
  keyLength : s.keyLength = ((2 * n : Nat) : Int)
  trie : MaybeCodedTrieAt enc words S n (ptrToWord s.p) f
  absent : s.p = 0 → s.oldData = 0
  agree : AgreeOn S words s.memory.words
  live : ∀ a, S a → s.memory.Live a
  slot : ∀ a, s.pp = some a → ¬ S a ∧ s.memory.allocationPtr ≤ a

/-- Between `s` and `s'` only fresh cells and the slot of `s` were written. -/
structure InsertFrame (s s' : InsertState) : Prop where
  allocationPtr_le : s'.memory.allocationPtr ≤ s.memory.allocationPtr
  firstGenerationEnd_eq : s'.memory.firstGenerationEnd = s.memory.firstGenerationEnd
  firstGenerationStart_eq : s'.memory.firstGenerationStart = s.memory.firstGenerationStart
  agree : ∀ a, a < s'.memory.allocationPtr ∨ s.memory.allocationPtr ≤ a → s.pp ≠ some a →
    s'.memory.words a = s.memory.words a
  newRoot : s.pp ≠ none → s'.newRoot = s.newRoot

theorem assign_memory_words (s : InsertState) (x a : Nat) :
    (s.assign x).memory.words a = if s.pp = some a then x else s.memory.words a := by
  unfold InsertState.assign
  cases s.pp with
  | none => simp
  | some b => simp [eq_comm]

@[simp] theorem assign_allocationPtr (s : InsertState) (x : Nat) :
    (s.assign x).memory.allocationPtr = s.memory.allocationPtr := by
  unfold InsertState.assign
  cases s.pp <;> rfl

@[simp] theorem assign_firstGenerationEnd (s : InsertState) (x : Nat) :
    (s.assign x).memory.firstGenerationEnd = s.memory.firstGenerationEnd := by
  unfold InsertState.assign
  cases s.pp <;> rfl

@[simp] theorem assign_firstGenerationStart (s : InsertState) (x : Nat) :
    (s.assign x).memory.firstGenerationStart = s.memory.firstGenerationStart := by
  unfold InsertState.assign
  cases s.pp <;> rfl

@[simp] theorem assign_key (s : InsertState) (x : Nat) : (s.assign x).key = s.key := by
  unfold InsertState.assign
  cases s.pp <;> rfl

@[simp] theorem assign_keyLength (s : InsertState) (x : Nat) :
    (s.assign x).keyLength = s.keyLength := by
  unfold InsertState.assign
  cases s.pp <;> rfl

@[simp] theorem assign_oldData (s : InsertState) (x : Nat) :
    (s.assign x).oldData = s.oldData := by
  unfold InsertState.assign
  cases s.pp <;> rfl

theorem assign_newRoot {s : InsertState} (x : Nat) (h : s.pp ≠ none) :
    (s.assign x).newRoot = s.newRoot := by
  unfold InsertState.assign
  cases hpp : s.pp with
  | none => exact absurd hpp h
  | some _ => rfl

/-- The slot is filled by the assignment. -/
theorem assign_slotWord (s : InsertState) (x : Nat) : (s.assign x).slotWord s.pp = x := by
  unfold InsertState.assign InsertState.slotWord
  cases s.pp <;> simp

/-- The state after a turn of the loop that ended with the fresh cells of `M`,
the cell `newP` in the slot and `b` as the next slot, with `m` digits of `k`
left. -/
def InsertState.turn (s : InsertState) (M : Memory) (m k oldData newP b : Nat) : InsertState :=
  { ({ s with memory := M } : InsertState).assign (ptrToWord newP) with
    key := alignKey (k % 4 ^ m) m
    keyLength := ((2 * m : Nat) : Int)
    oldData := oldData
    pp := some b }

section turn

variable {s : InsertState} {M : Memory} {m k oldData newP b : Nat}

theorem turn_words (a : Nat) : (s.turn M m k oldData newP b).memory.words a =
    if s.pp = some a then ptrToWord newP else M.words a :=
  assign_memory_words { s with memory := M } (ptrToWord newP) a

theorem turn_allocationPtr :
    (s.turn M m k oldData newP b).memory.allocationPtr = M.allocationPtr :=
  assign_allocationPtr { s with memory := M } (ptrToWord newP)

/-- A turn keeps what it should if its cells are fresh. -/
theorem insertFrame_turn (h : s.memory.Allocates M) :
    InsertFrame s (s.turn M m k oldData newP b) where
  allocationPtr_le := by
    rw [turn_allocationPtr]
    exact h.allocationPtr_le
  firstGenerationEnd_eq :=
    (assign_firstGenerationEnd { s with memory := M } (ptrToWord newP)).trans
      h.firstGenerationEnd_eq
  firstGenerationStart_eq :=
    (assign_firstGenerationStart { s with memory := M } (ptrToWord newP)).trans
      h.firstGenerationStart_eq
  agree := by
    intro a ha hne
    rw [turn_allocationPtr] at ha
    rw [turn_words, if_neg hne, h.agree a ha]
  newRoot := fun hne => assign_newRoot (s := { s with memory := M }) (ptrToWord newP) hne

end turn

/-- Any memory and region in which the old trie and the cells made between `s`
and `s'` are found, the word `b` apart. -/
structure Filled (words : Nat → Nat) (S : Nat → Prop) (s s' : InsertState) (b : Nat)
    (words' : Nat → Nat) (T : Nat → Prop) : Prop where
  agree : AgreeOn S words words'
  mono : ∀ a, S a → T a
  region : ∀ a, s'.memory.allocationPtr ≤ a → a < s.memory.allocationPtr → T a
  word : ∀ a, s'.memory.allocationPtr ≤ a → a < s.memory.allocationPtr → a ≠ b →
    words' a = s'.memory.words a

/-- Going from `s` to `s'` a trie was grown in fresh cells that is complete
but for the slot of `s'`, where the trie for the `n'` last digits of `k` goes.
The trie that was at the place of that slot has the map `f'`. -/
structure Grown (enc : Nat → Nat) (words : Nat → Nat) (S : Nat → Prop) (n k : Nat) (f : Nat → Nat)
    (s s' : InsertState) (n' : Nat) (f' : Nat → Nat) (newP b : Nat) : Prop
    extends InsertFrame s s' where
  lt : n' < n
  key : s'.key = alignKey (k % 4 ^ n') n'
  keyLength : s'.keyLength = ((2 * n' : Nat) : Int)
  oldData : MaybeCodedTrieAt enc words S n' s'.oldData f'
  map_eq : f' (k % 4 ^ n') = f k
  filled : s'.slotWord s.pp = ptrToWord newP
  pp : s'.pp = some b
  fresh : s'.memory.allocationPtr ≤ b ∧ b < s.memory.allocationPtr
  rebuild : ∀ (words' : Nat → Nat) (T : Nat → Prop) (x : Nat), Filled words S s s' b words' T →
    CodedTrieAt enc words' T n' (words' b) (Function.update f' (k % 4 ^ n') x) →
    CodedTrieAt enc words' T n (ptrToWord newP) (Function.update f k x)

section grown

variable {enc : Nat → Nat} {words : Nat → Nat} {S : Nat → Prop} {n k : Nat} {f : Nat → Nat}

/-- Two stretches of the loop compose. -/
theorem Grown.trans {s s₁ s₂ : InsertState} {n₁ n₂ newP₁ newP₂ b₁ b₂ p : Nat}
    {f₁ f₂ : Nat → Nat} (hslot : ∀ a, s.pp = some a → s.memory.allocationPtr ≤ a)
    (h₁ : Grown enc words S n k f s s₁ n₁ f₁ newP₁ b₁)
    (h₂ : Grown enc words S n₁ (k % 4 ^ n₁) f₁ { s₁ with p := p } s₂ n₂ f₂ newP₂ b₂) :
    Grown enc words S n k f s s₂ n₂ f₂ newP₁ b₂ := by
  have hmod : k % 4 ^ n₁ % 4 ^ n₂ = k % 4 ^ n₂ :=
    Nat.mod_mod_of_dvd _ (pow_dvd_pow 4 (Nat.le_of_lt h₂.lt))
  have hap₁ := h₁.allocationPtr_le
  have hap₂ := h₂.allocationPtr_le
  have hfresh₁ := h₁.fresh
  have hfresh₂ := h₂.fresh
  simp only at hap₂ hfresh₂
  have hpp : s₁.pp ≠ none := by simp [h₁.pp]
  -- words above the second stretch are those of the first, the slot apart
  have hagree : ∀ a, s₁.memory.allocationPtr ≤ a → a ≠ b₁ →
      s₂.memory.words a = s₁.memory.words a := fun a ha hne =>
    h₂.agree a (Or.inr ha) (by simpa [h₁.pp] using fun h => hne h.symm)
  refine
    { lt := Nat.lt_trans h₂.lt h₁.lt
      key := hmod ▸ h₂.key
      keyLength := h₂.keyLength
      oldData := h₂.oldData
      map_eq := hmod ▸ h₂.map_eq.trans h₁.map_eq
      allocationPtr_le := Nat.le_trans hap₂ hap₁
      firstGenerationEnd_eq := h₂.firstGenerationEnd_eq.trans h₁.firstGenerationEnd_eq
      firstGenerationStart_eq := h₂.firstGenerationStart_eq.trans h₁.firstGenerationStart_eq
      agree := ?_
      newRoot := fun hne => (h₂.newRoot hpp).trans (h₁.newRoot hne)
      filled := ?_
      pp := h₂.pp
      fresh := ⟨hfresh₂.1, by omega⟩
      rebuild := ?_ }
  · intro a ha hne
    rcases ha with ha | ha
    · rw [h₂.agree a (Or.inl ha) (by simp [h₁.pp]; omega)]
      exact h₁.agree a (Or.inl (by omega)) hne
    · rw [hagree a (by omega) (by omega)]
      exact h₁.agree a (Or.inr ha) hne
  · have hfilled := h₁.filled
    cases hs : s.pp with
    | none =>
      rw [hs] at hfilled
      exact (h₂.newRoot hpp).trans hfilled
    | some a =>
      rw [hs] at hfilled
      have ha := hslot a hs
      exact (hagree a (by omega) (by omega)).trans hfilled
  · intro words' T x hT htrie
    have hlower := h₂.rebuild words' T x
      { agree := hT.agree
        mono := hT.mono
        region := fun a ha hlt => hT.region a ha (Nat.lt_of_lt_of_le hlt hap₁)
        word := fun a ha hlt => hT.word a ha (Nat.lt_of_lt_of_le hlt hap₁) }
      (hmod.symm ▸ htrie)
    refine h₁.rebuild words' T x
      { agree := hT.agree
        mono := hT.mono
        region := fun a ha hlt => hT.region a (by omega) hlt
        word := fun a ha hlt hne =>
          (hT.word a (by omega) hlt (by omega)).trans (hagree a ha hne) } ?_
    have hfilled := h₂.filled
    rw [h₁.pp] at hfilled
    rw [hT.word b₁ (by omega) (by omega) (by omega)]
    rw [show s₂.memory.words b₁ = ptrToWord newP₂ from hfilled]
    exact hlower

/-- The map of a node after the child for the next digit of `k` received the
key. -/
theorem nodeMap_update {t pre m N x : Nat} (kids : Nat → Nat → Nat) (f' : Nat → Nat)
    (hpre : k / 4 ^ (m + 1) = pre) (hoff : offset t (k / 4 ^ m % 4) ≠ 0)
    (hf : ∀ κ < N, f κ = nodeMap t pre m (Function.update kids (k / 4 ^ m % 4) f') κ) :
    ∀ κ < N, Function.update f k x κ =
      nodeMap t pre m
        (Function.update kids (k / 4 ^ m % 4) (Function.update f' (k % 4 ^ m) x)) κ := by
  intro κ hκ
  by_cases hk : κ = k
  · subst hk
    rw [nodeMap_child hpre hoff]
    simp
  · rw [Function.update_of_ne hk, hf κ hκ]
    unfold nodeMap
    by_cases hin : κ / 4 ^ (m + 1) = pre ∧ offset t (κ / 4 ^ m % 4) ≠ 0
    · rw [if_pos hin, if_pos hin]
      by_cases hdigit : κ / 4 ^ m % 4 = k / 4 ^ m % 4
      · have hrest : κ % 4 ^ m ≠ k % 4 ^ m := fun hrest =>
          hk (key_ext (hin.1.trans hpre.symm) hdigit hrest)
        rw [hdigit]
        simp [hrest]
      · simp [hdigit]
    · rw [if_neg hin, if_neg hin]

/-- A turn of the loop that made the node `newP` with the slot for the next
digit of `k`. -/
theorem Grown.of_node (pre : Nat) (kids : Nat → Nat → Nat) (f' : Nat → Nat) {s : InsertState}
    {M : Memory} {newP t j m oldData : Nat} (h : Ready enc words S n k f s) (hn : n = j + 1 + m)
    (hj : j ≤ 10) (ht : t < 15) (hpre : k / 4 ^ (m + 1) = pre)
    (hoff : offset t (k / 4 ^ m % 4) ≠ 0) (hM : s.memory.Allocates M)
    (hcell : M.allocationPtr ≤ newP ∧ newP + cellSize t ≤ s.memory.allocationPtr)
    (hne : newP ≠ 0) (hheader : M.words newP = trieHeader t j pre)
    (hold : MaybeCodedTrieAt enc words S m oldData f')
    (hf : ∀ κ < 4 ^ n, f κ = nodeMap t pre m (Function.update kids (k / 4 ^ m % 4) f') κ)
    (hkids : ∀ words' T, AgreeOn S words words' → (∀ a, S a → T a) →
      (∀ a, M.allocationPtr ≤ a → a < s.memory.allocationPtr → T a) →
      (∀ a, M.allocationPtr ≤ a → a < s.memory.allocationPtr →
        a ≠ newP + offset t (k / 4 ^ m % 4) → words' a = M.words a) →
      ∀ e < 4, offset t e ≠ 0 → e ≠ k / 4 ^ m % 4 →
        CodedTrieAt enc words' T m (words' (newP + offset t e)) (kids e)) :
    Grown enc words S n k f s (s.turn M m k oldData newP (newP + offset t (k / 4 ^ m % 4))) m f'
      newP (newP + offset t (k / 4 ^ m % 4)) := by
  have hd : k / 4 ^ m % 4 < 4 := Nat.mod_lt _ (by decide)
  have hoffset := offset_lt_cellSize t ht _ hd
  refine
    { toInsertFrame := insertFrame_turn hM
      lt := by omega
      key := rfl
      keyLength := rfl
      oldData := hold
      map_eq := ?_
      filled := assign_slotWord { s with memory := M } (ptrToWord newP)
      pp := rfl
      fresh := by
        rw [turn_allocationPtr]
        omega
      rebuild := ?_ }
  · rw [hf k h.key_lt, nodeMap_child hpre hoff]
    simp
  · intro words' T x hT htrie
    have hpos : 0 < offset t (k / 4 ^ m % 4) := Nat.pos_of_ne_zero hoff
    have hsize := two_le_cellSize t ht
    have hregion := hT.region
    rw [turn_allocationPtr] at hregion
    -- the slot that was filled lies above the fresh cells
    have hword : ∀ a, M.allocationPtr ≤ a → a < s.memory.allocationPtr →
        a ≠ newP + offset t (k / 4 ^ m % 4) → words' a = M.words a := by
      intro a hlow hhigh hslot
      rw [hT.word a (turn_allocationPtr.symm ▸ hlow) hhigh hslot, turn_words, if_neg]
      intro hpp
      have := (h.slot a hpp).2
      omega
    subst hn
    refine .node (t := t) (j := j)
      { ne_zero := hne
        index_lt := ht
        prefix_le := hj
        prefix_lt := ?_
        header := by rw [hword newP hcell.1 (by omega) (by omega), hheader]
        region := fun i hi => hregion _ (by omega) (by omega) } (fun e he heoff => ?_)
      (nodeMap_update kids f' hpre hoff hf)
    · rw [← hpre]
      refine Nat.div_lt_of_lt_mul ?_
      rw [← pow_add, show m + 1 + j = j + 1 + m by omega]
      exact h.key_lt
    · by_cases hed : e = k / 4 ^ m % 4
      · subst hed
        simpa using htrie
      · simpa [hed] using hkids words' T hT.agree hT.mono hregion hword e he heoff hed

end grown

/-! ## the branches of the loop -/

section branches

variable {enc : Nat → Nat} {words : Nat → Nat} {S : Nat → Prop} {n k : Nat} {f : Nat → Nat} {s : InsertState}

/-- The branch for an empty trie, whatever the number of digits: the node has
a prefix of `j` digits and `m` digits are left. -/
theorem insertEmpty_eq (h : Ready enc words S n k f s) {j m : Nat} (hn : n = j + 1 + m)
    (hj : j = min (n - 1) 10) :
    insertEmpty s =
      { ({ s with
          memory := (s.memory.allocate 2 (uniCellType (k / 4 ^ m % 4))).2.set
            (s.memory.allocationPtr - 2)
            (trieHeader (uniCellType (k / 4 ^ m % 4)).trieIndex j (k / 4 ^ (m + 1)))
          key := alignKey (k % 4 ^ (m + 1)) (m + 1)
          keyLength := ((2 * (m + 1) : Nat) : Int) } :
            InsertState).assign (ptrToWord (s.memory.allocationPtr - 2)) with
        pp := some (s.memory.allocationPtr - 2 + 1) } := by
  have hdigit := (alignKey_step (n := m) (k := k) (by have := h.le; omega)).1
  have hcode := (uniCellType_spec _ (Nat.mod_lt (k / 4 ^ m) (by decide : 4 > 0))).1
  unfold insertEmpty
  by_cases hlen : n = 1
  · obtain rfl : j = 0 := by omega
    obtain rfl : m = 0 := by omega
    have hk : k < 4 ^ (0 + 1) := by simpa [hlen] using h.key_lt
    have hkey : s.key = alignKey (k % 4 ^ (0 + 1)) (0 + 1) := by
      rw [h.key, Nat.mod_eq_of_lt hk, hlen]
    have hheader : (uniCellType (k / 4 ^ 0 % 4)).header =
        trieHeader (uniCellType (k / 4 ^ 0 % 4)).trieIndex 0 (k / 4 ^ (0 + 1)) := by
      rw [Nat.div_eq_of_lt hk, CellType.header_eq, hcode, trieHeader]
      omega
    have hshort : ¬ 2 < s.keyLength := by
      rw [h.keyLength]
      omega
    rw [if_neg hshort, hkey, hdigit, ← hheader, Memory.set_self (by simp), h.keyLength, hlen]
    rfl
  · have hlong : 2 < s.keyLength := by
      rw [h.keyLength]
      omega
    have hlength : (if s.keyLength < 22 then (s.keyLength - 2).toNat else 20) = 2 * j := by
      rw [h.keyLength]
      split <;> omega
    have hpre : s.key >>> (32 - 2 * j) = k / 4 ^ (m + 1) := by
      rw [h.key, alignKey_shiftRight k h.le (by omega), show n - j = m + 1 by omega]
    have hkey : lshift32 s.key (2 * j) = alignKey (k % 4 ^ (m + 1)) (m + 1) := by
      rw [h.key, lshift32_alignKey k h.le (by omega), show n - j = m + 1 by omega]
    have hlt : k / 4 ^ (m + 1) < 4 ^ j := by
      refine Nat.div_lt_of_lt_mul ?_
      rw [← pow_add, show m + 1 + j = n by omega]
      exact h.key_lt
    have hrest : s.keyLength - ((2 * j : Nat) : Int) = ((2 * (m + 1) : Nat) : Int) := by
      rw [h.keyLength, hn]
      push_cast
      ring
    have hheader := header_or_prefix (show j ≤ 10 by omega) hlt hcode
    rw [if_pos hlong]
    simp only [hlength, hpre, hkey, hdigit, hrest, Memory.allocate_fst, Memory.allocate_words,
      if_true, hheader]

/-- A turn of the loop on an empty trie. -/
theorem insertStep_empty (h : Ready enc words S n k f s) (hp : s.p = 0)
    (hcan : s.memory.canAllocate 2) :
    ∃ n' f' newP b, Grown enc words S n k f s (insertStep s) n' f' newP b ∧
      (insertStep s).oldData = 0 ∧
      s.memory.allocationPtr = (insertStep s).memory.allocationPtr + 2 := by
  have hpos := h.pos
  have hle := h.le
  have hend := s.memory.firstGenerationEnd_pos
  have hcan' := hcan
  unfold Memory.canAllocate at hcan'
  obtain ⟨j, hj⟩ : ∃ j, j = min (n - 1) 10 := ⟨_, rfl⟩
  obtain ⟨m, hn⟩ : ∃ m, n = j + 1 + m := ⟨n - 1 - j, by omega⟩
  have hd : k / 4 ^ m % 4 < 4 := Nat.mod_lt _ (by decide)
  obtain ⟨hcode, hindex, hsize, hoffset⟩ := uniCellType_spec _ hd
  obtain ⟨-, hshift⟩ := alignKey_step (n := m) (k := k) (by omega)
  have hslot : offset (uniCellType (k / 4 ^ m % 4)).trieIndex (k / 4 ^ m % 4) = 1 := by
    rw [hoffset _ hd, if_pos rfl]
  obtain ⟨M, hM⟩ : ∃ M, M = (s.memory.allocate 2 (uniCellType (k / 4 ^ m % 4))).2.set
      (s.memory.allocationPtr - 2)
      (trieHeader (uniCellType (k / 4 ^ m % 4)).trieIndex j (k / 4 ^ (m + 1))) := ⟨_, rfl⟩
  have hstep : insertStep s = s.turn M m k 0 (s.memory.allocationPtr - 2)
      (s.memory.allocationPtr - 2 +
        offset (uniCellType (k / 4 ^ m % 4)).trieIndex (k / 4 ^ m % 4)) := by
    unfold insertStep nullPtr
    simp only [if_pos hp]
    rw [insertEmpty_eq h hn hj, ← hM, hslot]
    unfold InsertState.turn InsertState.assign
    cases s.pp <;> simp [hshift, h.absent hp] <;> omega
  have hempty : ∀ κ < 4 ^ n, f κ = 0 := by
    rcases h.trie with ⟨-, hf⟩ | htrie
    · exact hf
    · exact absurd (by simp [hp]) (htrie.node_ne_zero (Nat.pos_iff_ne_zero.mp h.pos))
  have hallocates : s.memory.Allocates M := by
    rw [hM]
    exact (Memory.allocates_allocate _ (by decide) hcan).set (by simp; omega) _
  have hap : M.allocationPtr = s.memory.allocationPtr - 2 := by simp [hM]
  rw [hstep]
  refine ⟨m, fun _ => 0, _, _, Grown.of_node _ (fun _ _ => 0) _ h hn (by omega) hindex rfl
    (by omega) hallocates (by omega) (by omega) (by simp [hM]) (Or.inl ⟨rfl, fun _ _ => rfl⟩)
    ?_ ?_, rfl, by rw [turn_allocationPtr]; omega⟩
  · intro κ hκ
    rw [hempty κ hκ, nodeMap]
    split
    · by_cases hdigit : κ / 4 ^ m % 4 = k / 4 ^ m % 4
      · simp [hdigit]
      · simp [hdigit]
    · rfl
  · intro words' T _ _ _ _ e he heoff hed
    exact absurd (by rw [hoffset e he, if_neg hed]) heoff

/-- A turn on a node starts with the bits of its prefix. -/
theorem insertStep_of_node (h : Ready enc words S n k f s) {t j pre : Nat}
    (hp : NodeAt words S s.p t j pre) :
    insertStep s =
      { insertDescend s (j * 2 ^ 20 + pre) with
        key := lshift32 (insertDescend s (j * 2 ^ 20 + pre)).key 2
        keyLength := (insertDescend s (j * 2 ^ 20 + pre)).keyLength - 2 } := by
  have hsize := two_le_cellSize t hp.index_lt
  have hfull : s.memory.words s.p &&& fullPrefixMask = j * 2 ^ 20 + pre := by
    rw [h.agree s.p (hp.region 0 (by omega)), hp.fullPrefix]
  unfold insertStep nullPtr
  simp only [if_neg hp.ne_zero, hfull]

/-- A node whose prefix agrees with the key comes to the switch with the digits
after the prefix. -/
theorem insertDescend_agree (h : Ready enc words S n k f s) {t j pre m : Nat}
    (hp : NodeAt words S s.p t j pre) (hn : n = j + 1 + m) (hpre : k / 4 ^ (m + 1) = pre) :
    insertDescend s (j * 2 ^ 20 + pre) =
      insertNode { s with
        key := alignKey (k % 4 ^ (m + 1)) (m + 1)
        keyLength := ((2 * (m + 1) : Nat) : Int) } (j * 2 ^ 20 + pre) := by
  have hlen := prefixLength_fullPrefix hp.prefix_le hp.prefix_lt
  have hnodePrefix := nodePrefix_fullPrefix hp.prefix_le hp.prefix_lt
  have hkeyPrefix : s.key >>> (32 - 2 * j) = pre := by
    rw [h.key, alignKey_shiftRight k h.le (by omega), show n - j = m + 1 by omega, hpre]
  have hkey : lshift32 s.key (2 * j) = alignKey (k % 4 ^ (m + 1)) (m + 1) := by
    rw [h.key, lshift32_alignKey k h.le (by omega), show n - j = m + 1 by omega]
  have hrest : s.keyLength - ((2 * j : Nat) : Int) = ((2 * (m + 1) : Nat) : Int) := by
    rw [h.keyLength, hn]
    push_cast
    ring
  unfold insertDescend
  simp only [hlen, hnodePrefix, hkeyPrefix, hkey, hrest]
  by_cases hj : j = 0
  · have hpre0 : pre = 0 := by
      have := hp.prefix_lt
      rw [hj] at this
      omega
    have hk0 : s.key = alignKey (k % 4 ^ (m + 1)) (m + 1) := by
      rw [← hkey, hj, lshift32, Nat.mul_zero, Nat.shiftLeft_zero, Nat.mod_eq_of_lt]
      rw [h.key, alignKey]
      calc
        k * 4 ^ (16 - n) < 4 ^ n * 4 ^ (16 - n) :=
          Nat.mul_lt_mul_of_pos_right h.key_lt (Nat.pow_pos (by decide))
        _ = 2 ^ 32 := by
          rw [← pow_add, show n + (16 - n) = 16 by have := h.le; omega]
          rfl
    have hlen0 : s.keyLength = ((2 * (m + 1) : Nat) : Int) := by
      rw [← hrest, hj]
      simp
    subst hj hpre0
    simp [← hk0, ← hlen0]
  · rw [if_pos (by omega)]
    simp

/-- The digit of the slot goes to the trie that was there; the other children
keep their places in the map. -/
theorem insertCase_map {t pre m N : Nat} {kids : Nat → Nat → Nat} {d : Nat} (ht : t < 15)
    (hd : d < 4) (hf : ∀ κ < N, f κ = nodeMap t pre m kids κ) :
    ∀ κ < N, f κ = nodeMap (insertCase t d).type.trieIndex pre m
      (Function.update kids d fun κ => if offset t d = 0 then 0 else kids d κ) κ := by
  intro κ hκ
  have he := Nat.mod_lt (κ / 4 ^ m) (show 4 > 0 by decide)
  obtain ⟨hslot, hslot0, -⟩ := insertCase_slot t ht d hd
  rw [hf κ hκ]
  unfold nodeMap
  by_cases hpre : κ / 4 ^ (m + 1) = pre
  · by_cases hdigit : κ / 4 ^ m % 4 = d
    · simp only [hdigit, hpre, true_and, Function.update_self, ← hslot, if_pos hslot0]
      by_cases hoff : offset t d = 0 <;> simp [hoff]
    · have habsent := insertCase_absent t ht d hd _ he
      have hpresent := insertCase_present t ht d hd _ he
      simp only [Function.update_of_ne hdigit]
      by_cases hoff : offset t (κ / 4 ^ m % 4) = 0
      · rw [if_neg (by simp [hoff]), if_neg]
        exact fun h => h.2 ((habsent.resolve_left hdigit).resolve_left (by simp [hoff]))
      · rw [if_pos ⟨hpre, hoff⟩]
        exact (if_pos ⟨hpre, (hpresent.resolve_left hdigit).resolve_left hoff⟩).symm
  · simp [hpre]

/-- A turn of the loop on a node whose prefix agrees with the key. -/
theorem insertStep_node (h : Ready enc words S n k f s) {t j pre m : Nat} {kids : Nat → Nat → Nat}
    (hp : NodeAt words S s.p t j pre)
    (hkids : ∀ d < 4, offset t d ≠ 0 → CodedTrieAt enc words S m (words (s.p + offset t d)) (kids d))
    (hf : ∀ k < 4 ^ n, f k = nodeMap t pre m kids k) (hn : n = j + 1 + m)
    (hpre : k / 4 ^ (m + 1) = pre) (hcan : s.memory.canAllocate 5) :
    ∃ n' f' newP b, Grown enc words S n k f s (insertStep s) n' f' newP b ∧
      s.memory.allocationPtr ≤ (insertStep s).memory.allocationPtr + 5 := by
  have hle := h.le
  have hend := s.memory.firstGenerationEnd_pos
  unfold Memory.canAllocate at hcan
  have ht := hp.index_lt
  obtain ⟨d, hdeq⟩ : ∃ d, k / 4 ^ m % 4 = d := ⟨_, rfl⟩
  have hd : d < 4 := hdeq ▸ Nat.mod_lt _ (by decide)
  obtain ⟨hdigit, hshift⟩ := alignKey_step (n := m) (k := k) (by omega)
  rw [hdeq] at hdigit
  obtain ⟨hcode, hindex, hsize⟩ := insertCase_type t ht d hd
  obtain ⟨hslot, hslot0, -⟩ := insertCase_slot t ht d hd
  have hold := insertCase_old t ht d hd
  have habsent := insertCase_absent t ht d hd
  have hcopied := insertCase_copied t ht d hd
  have hmap := insertCase_map (d := d) ht hd hf
  have hchild := maybeTrieAt_child (p := s.p) hd hkids
  generalize hc : insertCase t d = c at hcode hindex hsize hslot hslot0 hold habsent hcopied hmap
  have hcells := two_le_cellSize _ hindex
  obtain ⟨newP, hnewP⟩ : ∃ newP, newP = s.memory.allocationPtr - (c.fields.length + 1) := ⟨_, rfl⟩
  have hap : newP + cellSize c.type.trieIndex = s.memory.allocationPtr := by omega
  obtain ⟨M, hM⟩ : ∃ M, M = (copyFields (s.memory.allocate (c.fields.length + 1) c.type).2 newP
      s.p 0 c.fields).set newP (trieHeader c.type.trieIndex j pre) := ⟨_, rfl⟩
  have hsource : ∀ i < cellSize t, s.memory.words (s.p + i) = words (s.p + i) := fun i hi =>
    h.agree _ (hp.region i hi)
  have hstep : insertStep s = s.turn M m k (if offset t d = 0 then 0 else words (s.p + offset t d))
      newP (newP + offset c.type.trieIndex d) := by
    have hheader := header_or_fullPrefix hp.prefix_le hp.prefix_lt hcode
    have hindexp : trieIndex (s.memory.words s.p) = t := by
      have hsize := two_le_cellSize t ht
      rw [h.agree s.p (hp.region 0 (by omega)), hp.trieIndex]
    rw [insertStep_of_node h hp, insertDescend_agree h hp hn hpre]
    unfold insertNode
    have hword : (copyFields (s.memory.allocate (c.fields.length + 1) c.type).2 newP s.p 0
        c.fields).words newP = c.type.header := by
      rw [copyFields_outside (by omega), Memory.allocate_words, if_pos hnewP]
    have hdata : (c.old.map fun i => s.memory.words (s.p + i)).getD nullWord =
        if offset t d = 0 then 0 else words (s.p + offset t d) := by
      rw [hold]
      by_cases hoff : offset t d = 0
      · simp [hoff, nullWord]
      · simp [hoff, hsource _ (offset_lt_cellSize t ht d hd)]
    simp only [hindexp, hdigit, hc, Memory.allocate_fst, ← hnewP, hslot, hword, hheader, ← hM,
      hdata]
    unfold InsertState.turn InsertState.assign
    cases s.pp <;> simp [hshift] <;> ring
  have hallocates : s.memory.Allocates M := by
    have halloc := Memory.allocates_allocate (m := s.memory) c.type
      (show 0 < c.fields.length + 1 by omega) (by unfold Memory.canAllocate; omega)
    rw [hM]
    refine (allocates_copyFields halloc ?_ ?_).set ?_ _ <;> simp <;> omega
  have hapM : M.allocationPtr = newP := by simp [hM, hnewP]
  have hother : ∀ a, a < newP ∨ s.memory.allocationPtr ≤ a → M.words a = s.memory.words a :=
    fun a ha => hallocates.agree a (hapM ▸ ha)
  rw [hstep]
  refine ⟨m, _, newP, _, hdeq ▸ Grown.of_node pre kids _ h hn hp.prefix_le hindex hpre
    (by rw [hdeq]; omega) hallocates (by omega) (by omega) (by simp [hM]) hchild
    (hdeq ▸ hmap) ?_, by rw [turn_allocationPtr]; omega⟩
  intro words' T hagree hST _ hword e he heoff hed
  rw [hdeq] at hed hword
  have hoff : offset t e ≠ 0 := fun h0 =>
    heoff (((habsent e he).resolve_left hed).resolve_left (by simp [h0]))
  have hfield := ((hcopied e he).resolve_left hed).resolve_left hoff
  have hplace := offset_lt_cellSize _ hindex e he
  have hpos := Nat.pos_of_ne_zero heoff
  have hne : offset c.type.trieIndex e ≠ offset c.type.trieIndex d := fun heq =>
    hed (offset_injective _ hindex e he d hd heoff heq)
  have hlive := h.live _ (hp.region _ (offset_lt_cellSize t ht e he))
  unfold Memory.Live at hlive
  have hcopy : M.words (newP + offset c.type.trieIndex e) = words (s.p + offset t e) := by
    have hc := copyFields_field (m := (s.memory.allocate (c.fields.length + 1) c.type).2)
      newP s.p 0 hfield (by omega)
    rw [show newP + 1 + 0 + (offset c.type.trieIndex e - 1) = newP + offset c.type.trieIndex e
      by omega] at hc
    rw [hM, Memory.set_words, if_neg (by omega), hc, Memory.allocate_words, if_neg (by omega),
      hsource _ (offset_lt_cellSize t ht e he)]
  rw [hword _ (by omega) (by omega) (by omega), hcopy]
  exact (hkids e he hoff).frame hagree hST

/-- The map of a node as the map of a node with a shorter prefix above a node
with the rest of the prefix. -/
theorem nodeMap_split {t pre m i κ : Nat} {kids : Nat → Nat → Nat} :
    nodeMap t pre m kids κ =
      if κ / 4 ^ (m + 1 + i + 1) = pre / 4 ^ (i + 1) ∧ κ / 4 ^ (m + 1 + i) % 4 = pre / 4 ^ i % 4
      then nodeMap t (pre % 4 ^ i) m kids (κ % 4 ^ (m + 1 + i)) else 0 := by
  have hquot : ∀ l, κ / 4 ^ (m + 1) / 4 ^ l = κ / 4 ^ (m + 1 + l) := fun l => by
    rw [Nat.div_div_eq_div_mul, ← pow_add]
  have hrest : κ % 4 ^ (m + 1 + i) / 4 ^ (m + 1) = κ / 4 ^ (m + 1) % 4 ^ i := by
    rw [pow_add, Nat.mod_mul_right_div_self]
  have hdigit : κ % 4 ^ (m + 1 + i) / 4 ^ m % 4 = κ / 4 ^ m % 4 := by
    rw [show m + 1 + i = m + (1 + i) by omega, pow_add, Nat.mod_mul_right_div_self,
      Nat.mod_mod_of_dvd _ (dvd_pow_self 4 (by omega))]
  have hlow : κ % 4 ^ (m + 1 + i) % 4 ^ m = κ % 4 ^ m :=
    Nat.mod_mod_of_dvd _ (pow_dvd_pow 4 (by omega))
  unfold nodeMap
  rw [hrest, hdigit, hlow]
  by_cases hpre : κ / 4 ^ (m + 1) = pre
  · rw [if_pos (c := _ ∧ _ % 4 = _)]
    · simp only [hpre, true_and]
    · rw [← hpre, hquot, hquot]
      exact ⟨rfl, rfl⟩
  · rw [if_neg (fun h => hpre h.1)]
    split
    · next hup =>
      refine (if_neg fun h => hpre ?_).symm
      rw [show m + 1 + i + 1 = m + 1 + (i + 1) by omega, ← hquot (i + 1), ← hquot i] at hup
      exact key_ext hup.1 hup.2 h.1
    · rfl

/-- The map of the split node: one child is the old node, the place of the
other is still empty. -/
theorem split_map {t pre m i N digit oldDigit : Nat} {kids : Nat → Nat → Nat}
    (hold : oldDigit = pre / 4 ^ i % 4) (hdigit : digit < 4) (hne : digit ≠ oldDigit)
    (hf : ∀ κ < N, f κ = nodeMap t pre m kids κ) :
    ∀ κ < N, f κ = nodeMap (biCellType digit oldDigit).trieIndex (pre / 4 ^ (i + 1)) (m + 1 + i)
      (Function.update (fun _ => nodeMap t (pre % 4 ^ i) m kids) digit fun _ => 0) κ := by
  intro κ hκ
  have hlt : oldDigit < 4 := hold ▸ Nat.mod_lt _ (by decide)
  obtain ⟨hoff, hoffOld, hother⟩ := (biCellType_offset digit hdigit oldDigit hlt).resolve_left hne
  rw [hf κ hκ, nodeMap_split (i := i), ← hold]
  unfold nodeMap
  by_cases hup : κ / 4 ^ (m + 1 + i + 1) = pre / 4 ^ (i + 1)
  · simp only [hup, true_and]
    by_cases hd : κ / 4 ^ (m + 1 + i) % 4 = oldDigit
    · simp [hd, hoffOld, Ne.symm hne]
    · rw [if_neg hd]
      rcases hother _ (Nat.mod_lt (κ / 4 ^ (m + 1 + i)) (by decide)) with h | h | h
      · simp [h]
      · exact absurd h hd
      · rw [if_neg (by simp [h])]
  · simp [hup]

/-- A node whose prefix disagrees with the key comes to the label `split`. -/
theorem insertDescend_disagree (h : Ready enc words S n k f s) {t j pre m : Nat}
    (hp : NodeAt words S s.p t j pre) (hn : n = j + 1 + m) (hpre : k / 4 ^ (m + 1) ≠ pre) :
    insertDescend s (j * 2 ^ 20 + pre) = insertSplit s (2 * j) pre (k / 4 ^ (m + 1)) := by
  have hlen := prefixLength_fullPrefix hp.prefix_le hp.prefix_lt
  have hnodePrefix := nodePrefix_fullPrefix hp.prefix_le hp.prefix_lt
  have hkeyPrefix : s.key >>> (32 - 2 * j) = k / 4 ^ (m + 1) := by
    rw [h.key, alignKey_shiftRight k h.le (by omega), show n - j = m + 1 by omega]
  have hj : j ≠ 0 := by
    intro hj0
    have hlt := hp.prefix_lt
    have hk := h.key_lt
    rw [hj0] at hlt
    rw [hn, hj0, show 0 + 1 + m = m + 1 by omega] at hk
    rw [Nat.div_eq_of_lt hk] at hpre
    omega
  unfold insertDescend
  simp only [hlen, hnodePrefix, hkeyPrefix]
  rw [if_pos (by omega), if_pos (Ne.symm hpre)]

/-- The numbers computed at the label `split`. -/
theorem insertSplit_eq (h : Ready enc words S n k f s) {t j pre m i keyPrefix : Nat}
    (hp : NodeAt words S s.p t j pre) (hn : n = j + 1 + m) (hi : i < j)
    (hbit : highestBit (pre ^^^ keyPrefix) &&& 0xFFFFFFFE = 2 * i)
    (hup : pre / 4 ^ (i + 1) = k / 4 ^ (m + 1 + i + 1)) {ct : CellType} {oldP newP : Nat}
    (hct : biCellType (k / 4 ^ (m + 1 + i) % 4) (pre / 4 ^ i % 4) = ct)
    (hcode : ct.code = CellType.trie1234.code + ct.trieIndex)
    (holdP : oldP = s.memory.allocationPtr - cellSize t) (hnewP : newP = oldP - 3) {M₁ M : Memory}
    (hM₁ : M₁ = copyFields
      ((s.memory.allocate (cellSize t) (trieCellType t)).2.set oldP
        (trieHeader t i (pre % 4 ^ i))) oldP s.p 0
      ((List.range (cellSize t - 1)).map fun i => some (i + 1)))
    (hM : M = ((M₁.allocate 3 ct).2.set newP
      (trieHeader ct.trieIndex (j - 1 - i) (pre / 4 ^ (i + 1)))).set
      (newP + offset ct.trieIndex (pre / 4 ^ i % 4)) (ptrToWord oldP)) :
    insertSplit s (2 * j) pre keyPrefix =
      { ({ s with
          memory := M
          key := alignKey (k % 4 ^ (m + 1 + i + 1)) (m + 1 + i + 1)
          keyLength := ((2 * (m + 1 + i + 1) : Nat) : Int)
          oldData := nullWord } : InsertState).assign (ptrToWord newP) with
        pp := some (newP + offset ct.trieIndex (k / 4 ^ (m + 1 + i) % 4)) } := by
  have hsize := two_le_cellSize t hp.index_lt
  have hjle := hp.prefix_le
  have hle := h.le
  have hindex : trieIndex (s.memory.words s.p) = t := by
    rw [h.agree s.p (hp.region 0 (by omega)), hp.trieIndex]
  have hlow : pre &&& (2 ^ (2 * i) - 1) = pre % 4 ^ i := by rw [and_mask, two_pow_double]
  have hdigit : (pre >>> (2 * i)) &&& 0x3 = pre / 4 ^ i % 4 := by
    rw [show 0x3 = 2 ^ 2 - 1 by decide, and_mask, Nat.shiftRight_eq_div_pow, two_pow_double,
      show (2 : Nat) ^ 2 = 4 by decide]
  have hrest : 2 * j - (2 + 2 * i) = 2 * (j - 1 - i) := by omega
  have hkey : lshift32 s.key (2 * (j - 1 - i)) =
      alignKey (k % 4 ^ (m + 1 + i + 1)) (m + 1 + i + 1) := by
    rw [h.key, lshift32_alignKey k h.le (by omega),
      show n - (j - 1 - i) = m + 1 + i + 1 by omega]
  have hkeyPrefix : s.key >>> (32 - 2 * (j - 1 - i)) = pre / 4 ^ (i + 1) := by
    rw [h.key, alignKey_shiftRight k h.le (by omega),
      show n - (j - 1 - i) = m + 1 + i + 1 by omega, hup]
  have hkeyDigit := (alignKey_step (n := m + 1 + i) (k := k) (by omega)).1
  have hheaderOld : (trieCellType t).header ||| (((2 * i) <<< 19) ||| (pre % 4 ^ i)) =
      trieHeader t i (pre % 4 ^ i) :=
    header_or_prefix (by omega) (Nat.mod_lt _ (Nat.pow_pos (by decide)))
      (trieCellType_code t hp.index_lt)
  have hlt : pre / 4 ^ (i + 1) < 4 ^ (j - 1 - i) := by
    refine Nat.div_lt_of_lt_mul ?_
    rw [← pow_add, show i + 1 + (j - 1 - i) = j by omega]
    exact hp.prefix_lt
  have hheader := header_or_prefix (show j - 1 - i ≤ 10 by omega) hlt hcode
  have hwordOld : (s.memory.allocate (cellSize t) (trieCellType t)).2.words oldP =
      (trieCellType t).header := by
    rw [Memory.allocate_words, if_pos holdP]
  have hap : M₁.allocationPtr = oldP := by simp [hM₁, holdP]
  have hword : (M₁.allocate 3 ct).2.words newP = ct.header := by
    rw [Memory.allocate_words, if_pos (by rw [hap, hnewP])]
  have hkeyLength : s.keyLength - ((2 * (j - 1 - i) : Nat) : Int) =
      ((2 * (m + 1 + i + 1) : Nat) : Int) := by
    rw [h.keyLength]
    omega
  unfold insertSplit
  simp only [hindex, hbit, hlow, hdigit, hrest, hkey, hkeyDigit, hkeyPrefix, hct,
    Memory.allocate_fst, ← holdP, hwordOld, hheaderOld, ← hM₁, hap, ← hnewP, hword, hheader]
  by_cases hj0 : 0 < 2 * (j - 1 - i)
  · simp only [if_pos hj0, ← hM, hkeyDigit, hkeyLength]
  · have hj0' : j - 1 - i = 0 := by omega
    have hkey0 : s.key = alignKey (k % 4 ^ (m + 1 + i + 1)) (m + 1 + i + 1) := by
      rw [h.key, show n = m + 1 + i + 1 by omega, Nat.mod_eq_of_lt]
      rw [show m + 1 + i + 1 = n by omega]
      exact h.key_lt
    have hkeyLength0 : s.keyLength = ((2 * (m + 1 + i + 1) : Nat) : Int) := by
      rw [h.keyLength, show n = m + 1 + i + 1 by omega]
    have hpre0 : pre / 4 ^ (i + 1) = 0 := by
      rw [hj0', pow_zero] at hlt
      exact Nat.lt_one_iff.mp hlt
    have hM0 : M = (M₁.allocate 3 ct).2.set (newP + offset ct.trieIndex (pre / 4 ^ i % 4))
        (ptrToWord oldP) := by
      have hheader0 : (M₁.allocate 3 ct).2.words newP = trieHeader ct.trieIndex 0 0 := by
        rw [hword, CellType.header_eq, hcode, trieHeader]
        omega
      rw [hM, hj0', hpre0, Memory.set_self hheader0]
    simp only [if_neg hj0, ← hM0, hkey0, hkeyLength0, hkeyDigit]

/-- The cell of the new node with two children: its header and the link to the first one. -/
theorem branchCell_spec {M M' : Memory} {newP header i w : Nat} {type : CellType}
    (hcan : M.canAllocate 3) (hpos : 0 < i) (hi : i < 3) (hnewP : newP = M.allocationPtr - 3)
    (hM' : M' = ((M.allocate 3 type).2.set newP header).set (newP + i) w) :
    M.Allocates M' ∧ M'.allocationPtr = newP ∧ newP + 3 = M.allocationPtr ∧
      M'.words newP = header ∧ M'.words (newP + i) = w ∧
      ∀ a, M.allocationPtr ≤ a → M'.words a = M.words a := by
  have halloc := Memory.allocates_allocate type (by decide : 0 < 3) hcan
  unfold Memory.canAllocate at hcan
  have hsum : newP + 3 = M.allocationPtr := by omega
  refine ⟨?_, by simp [hM', hnewP], hsum, ?_, by simp [hM'], fun a ha => ?_⟩
  · rw [hM']
    refine (halloc.set ?_ _).set ?_ _ <;> simp <;> omega
  · rw [hM', Memory.set_words, if_neg (by omega), Memory.set_words, if_pos rfl]
  · rw [hM', Memory.set_words, if_neg (by omega), Memory.set_words, if_neg (by omega),
      Memory.allocate_words, if_neg (by omega)]

/-- A turn of the loop on a node whose prefix disagrees with the key. -/
theorem insertStep_split (h : Ready enc words S n k f s) {t j pre m : Nat} {kids : Nat → Nat → Nat}
    (hp : NodeAt words S s.p t j pre)
    (hkids : ∀ d < 4, offset t d ≠ 0 → CodedTrieAt enc words S m (words (s.p + offset t d)) (kids d))
    (hf : ∀ k < 4 ^ n, f k = nodeMap t pre m kids k) (hn : n = j + 1 + m)
    (hpre : k / 4 ^ (m + 1) ≠ pre) (hcan : s.memory.canAllocate 8) :
    ∃ n' f' newP b, Grown enc words S n k f s (insertStep s) n' f' newP b ∧
      (insertStep s).oldData = 0 ∧
      s.memory.allocationPtr ≤ (insertStep s).memory.allocationPtr + 8 := by
  have hle := h.le
  have ht := hp.index_lt
  have hj := hp.prefix_le
  have hkeyPre : k / 4 ^ (m + 1) < 4 ^ j := by
    refine Nat.div_lt_of_lt_mul ?_
    rw [← pow_add, show m + 1 + j = n by omega]
    exact h.key_lt
  obtain ⟨i, hi, hbit, hup, hdiff⟩ :=
    highestBit_xor hp.prefix_lt hkeyPre (by omega) (Ne.symm hpre)
  obtain ⟨oldDigit, hold⟩ : ∃ e, e = pre / 4 ^ i % 4 := ⟨_, rfl⟩
  obtain ⟨digit, hdigit⟩ : ∃ d, k / 4 ^ (m + 1 + i) % 4 = d := ⟨_, rfl⟩
  have hd : digit < 4 := hdigit ▸ Nat.mod_lt _ (by decide)
  have he : oldDigit < 4 := hold ▸ Nat.mod_lt _ (by decide)
  have hne : digit ≠ oldDigit := by
    rw [Nat.div_div_eq_div_mul, ← pow_add, hdigit, ← hold] at hdiff
    exact Ne.symm hdiff
  have hcode := (biCellType_code digit hd oldDigit he).resolve_left hne
  have hoffset := (biCellType_offset digit hd oldDigit he).resolve_left hne
  have hmap := split_map hold hd hne hf
  generalize hct : biCellType digit oldDigit = ct at hcode hoffset hmap
  obtain ⟨hcode, hindex, hsize⟩ := hcode
  obtain ⟨hoff, hoffOld, hother⟩ := hoffset
  have hcells := two_le_cellSize t ht
  have hroom : 8 < s.memory.allocationPtr := by
    have hend := s.memory.firstGenerationEnd_pos
    unfold Memory.canAllocate at hcan
    omega
  have hplace := offset_lt_cellSize _ hindex _ hd
  have hplaceOld := offset_lt_cellSize _ hindex _ he
  obtain ⟨oldP, holdP⟩ : ∃ oldP, oldP = s.memory.allocationPtr - cellSize t := ⟨_, rfl⟩
  obtain ⟨newP, hnewP⟩ : ∃ newP, newP = oldP - 3 := ⟨_, rfl⟩
  obtain ⟨M₁, hM₁⟩ : ∃ M₁, M₁ = copyFields
      ((s.memory.allocate (cellSize t) (trieCellType t)).2.set oldP
        (trieHeader t i (pre % 4 ^ i))) oldP s.p 0
      ((List.range (cellSize t - 1)).map fun i => some (i + 1)) := ⟨_, rfl⟩
  obtain ⟨M, hM⟩ : ∃ M, M = ((M₁.allocate 3 ct).2.set newP
      (trieHeader ct.trieIndex (j - 1 - i) (pre / 4 ^ (i + 1)))).set
      (newP + offset ct.trieIndex oldDigit) (ptrToWord oldP) := ⟨_, rfl⟩
  have hstep : insertStep s = s.turn M (m + 1 + i) k 0 newP
      (newP + offset ct.trieIndex digit) := by
    have hup' : pre / 4 ^ (i + 1) = k / 4 ^ (m + 1 + i + 1) := by
      rw [hup, Nat.div_div_eq_div_mul, ← pow_add, ← Nat.add_assoc]
    have hshift := (alignKey_step (n := m + 1 + i) (k := k) (by omega)).2
    rw [insertStep_of_node h hp, insertDescend_disagree h hp hn hpre]
    have hM' := hM
    rw [hold] at hM'
    rw [insertSplit_eq h hp hn hi hbit hup' (by rw [hdigit, ← hold, hct]) hcode holdP hnewP hM₁
      hM', hdigit]
    unfold InsertState.turn InsertState.assign
    cases s.pp <;> simp [hshift, nullWord] <;> ring
  -- the copy of the old node, and the new node
  obtain ⟨hfree, hap, hsum, hheader, hcopies⟩ := copyCell_spec (by omega)
    (Memory.canAllocate_mono hcan (by omega)) (fun x hx => h.live _ (hp.region x hx)) holdP hM₁
  obtain ⟨hbranch, hapM, hsumM, hheaderM, hlink, hupper⟩ := branchCell_spec
    (by
      have hend₁ := hfree.firstGenerationEnd_eq
      unfold Memory.canAllocate at hcan ⊢
      omega)
    (Nat.pos_of_ne_zero hoffOld) (hsize ▸ hplaceOld) (hap ▸ hnewP) hM
  rw [hap] at hsumM hupper
  have hallocates : s.memory.Allocates M := hfree.trans hbranch
  have hoffNe : offset ct.trieIndex digit ≠ offset ct.trieIndex oldDigit := fun heq =>
    hne (offset_injective _ hindex _ hd _ he hoff heq)
  rw [hstep]
  refine ⟨m + 1 + i, _, newP, _, hdigit ▸ Grown.of_node (pre / 4 ^ (i + 1))
    (fun _ => nodeMap t (pre % 4 ^ i) m kids) (fun _ => 0) (j := j - 1 - i) h (by omega) (by omega)
    hindex ?_ (by rw [hdigit]; exact hoff)
    hallocates (by omega) (by omega) hheaderM (Or.inl ⟨rfl, fun _ _ => rfl⟩) (hdigit ▸ hmap) ?_,
    rfl, by rw [turn_allocationPtr]; omega⟩
  · rw [hup, Nat.div_div_eq_div_mul, ← pow_add, ← Nat.add_assoc]
  intro words' T hagree hST hregion hword e' he' heoff hed
  rw [hdigit] at hed hword
  obtain rfl : e' = oldDigit :=
    ((hother e' he').resolve_left hed).resolve_right heoff
  rw [hword _ (by omega) (by omega) (by omega), hlink,
    show m + 1 + i = i + 1 + m by omega]
  refine .node
    { ne_zero := by omega
      index_lt := ht
      prefix_le := by omega
      prefix_lt := Nat.mod_lt _ (Nat.pow_pos (by decide))
      header := ?_
      region := fun x hx => hregion _ (by omega) (by omega) }
    (fun c hc hcoff => ?_) (fun _ _ => rfl)
  · rw [hword oldP (by omega) (by omega) (by omega), hupper oldP (Nat.le_refl _), hheader]
  · have hcplace := offset_lt_cellSize t ht c hc
    rw [hword _ (by omega) (by omega) (by omega), hupper _ (Nat.le_add_right _ _),
      hcopies _ hcplace hcoff, h.agree _ (hp.region _ hcplace)]
    exact (hkids c hc hcoff).frame hagree hST

/-- The words a turn of the loop may allocate. -/
def stepCost (p oldData : Nat) : Nat := if p = 0 then 2 else if oldData = 0 then 8 else 5

/-- One turn of the loop. -/
theorem insertStep_spec (h : Ready enc words S n k f s)
    (hcan : s.memory.canAllocate (if s.p = 0 then 2 else 8)) :
    ∃ n' f' newP b, Grown enc words S n k f s (insertStep s) n' f' newP b ∧
      (s.p = 0 → (insertStep s).oldData = 0) ∧
      s.memory.allocationPtr ≤
        (insertStep s).memory.allocationPtr + stepCost s.p (insertStep s).oldData := by
  by_cases hp : s.p = 0
  · rw [if_pos hp] at hcan
    obtain ⟨n', f', newP, b, hgrown, hold, hcost⟩ := insertStep_empty h hp hcan
    exact ⟨n', f', newP, b, hgrown, fun _ => hold, by rw [stepCost, if_pos hp, hcost]⟩
  · rw [if_neg hp] at hcan
    have htrie : CodedTrieAt enc words S n (ptrToWord s.p) f := by
      rcases h.trie with ⟨h0, -⟩ | htrie
      · exact absurd ((ptrToWord_eq_zero _).mp h0) hp
      · exact htrie
    obtain ⟨p, t, j, pre, m, kids, hw, hn, hnode, hkids, hf⟩ :=
      htrie.inv (Nat.pos_iff_ne_zero.mp h.pos)
    obtain rfl : p = s.p := by
      unfold ptrToWord at hw
      omega
    by_cases hpre : k / 4 ^ (m + 1) = pre
    · have hcan5 : s.memory.canAllocate 5 := by
        unfold Memory.canAllocate at hcan ⊢
        omega
      obtain ⟨n', f', newP, b, hgrown, hcost⟩ := insertStep_node h hnode hkids hf hn hpre hcan5
      refine ⟨n', f', newP, b, hgrown, fun h0 => absurd h0 hp, ?_⟩
      rw [stepCost, if_neg hp]
      split <;> omega
    · obtain ⟨n', f', newP, b, hgrown, hold, hcost⟩ :=
        insertStep_split h hnode hkids hf hn hpre hcan
      refine ⟨n', f', newP, b, hgrown, fun _ => hold, ?_⟩
      rw [stepCost, if_neg hp, if_pos hold]
      exact hcost

/-- The next turn starts where the last one ended. -/
theorem Grown.ready {s' : InsertState} {n' newP b : Nat} {f' : Nat → Nat}
    (h : Ready enc words S n k f s) (hgrown : Grown enc words S n k f s s' n' f' newP b)
    (hfit : s'.memory.firstGenerationEnd ≤ s'.memory.allocationPtr) (hn' : n' ≠ 0) :
    Ready enc words S n' (k % 4 ^ n') f' { s' with p := wordToPtr s'.oldData } := by
  have hend := hgrown.firstGenerationEnd_eq
  have hap := hgrown.allocationPtr_le
  have hfresh := hgrown.fresh
  have hle := h.le
  have hlt := hgrown.lt
  have hword : ptrToWord (wordToPtr s'.oldData) = s'.oldData := by
    rcases hgrown.oldData with ⟨h0, -⟩ | htrie
    · simp [h0, wordToPtr, ptrToWord]
    · obtain ⟨p, -, -, -, -, -, hw, -⟩ := htrie.inv hn'
      rw [hw, wordToPtr_ptrToWord]
  exact
    { pos := Nat.pos_of_ne_zero hn'
      le := by omega
      key_lt := Nat.mod_lt _ (Nat.pow_pos (by decide))
      key := hgrown.key
      keyLength := hgrown.keyLength
      trie := by
        rw [hword]
        exact hgrown.oldData
      absent := by
        intro h0
        have h0' : wordToPtr s'.oldData = 0 := h0
        rw [h0'] at hword
        exact hword.symm
      agree := by
        intro a ha
        have hlive := h.live a ha
        unfold Memory.Live at hlive
        rw [hgrown.agree a (by omega) (fun hpp => (h.slot a hpp).1 ha)]
        exact h.agree a ha
      live := by
        intro a ha
        have hlive := h.live a ha
        unfold Memory.Live at hlive ⊢
        simp only
        omega
      slot := by
        intro a ha
        obtain rfl : b = a := by
          have hpp : s'.pp = some a := ha
          rw [hgrown.pp] at hpp
          exact Option.some.inj hpp
        refine ⟨fun hS => ?_, hfresh.1⟩
        have hlive := h.live b hS
        unfold Memory.Live at hlive
        omega }

/-- The words the loop may allocate for `n` digits. -/
def loopCost (p n : Nat) : Nat := if p = 0 then 2 * n else 5 * n + 5

/-- The bound covers a turn and the rest of the loop. -/
theorem stepCost_add_loopCost {p oldData m : Nat} (hlt : m < n)
    (hempty : p = 0 → oldData = 0) :
    stepCost p oldData + loopCost (wordToPtr oldData) m ≤ loopCost p n := by
  unfold stepCost loopCost
  by_cases hp : p = 0
  · simp only [hp, hempty hp, wordToPtr, if_true]
    omega
  · rw [if_neg hp, if_neg hp]
    by_cases hold : oldData = 0
    · simp only [hold, wordToPtr, if_true]
      omega
    · rw [if_neg hold]
      split <;> omega

end branches

/-- And so it covers a turn. -/
theorem canAllocate_turn {m : Memory} {p n : Nat} (hn : 0 < n)
    (h : m.canAllocate (loopCost p n)) : m.canAllocate (if p = 0 then 2 else 8) := by
  refine Memory.canAllocate_mono h ?_
  unfold loopCost
  split <;> omega

theorem loopCost_le (p : Nat) {n : Nat} (hn : n ≤ 16) : loopCost p n ≤ 85 := by
  unfold loopCost
  split <;> omega

/-- The loop of `triev2_insert`: it ends, within its allocation bound, with a
new trie that is complete but for the data. -/
theorem insertLoop_spec {enc : Nat → Nat} {words : Nat → Nat} {S : Nat → Prop} {n : Nat} :
    ∀ (fuel : Nat) {k : Nat} {f : Nat → Nat} {s : InsertState}, Ready enc words S n k f s → n ≤ fuel →
      s.memory.canAllocate (loopCost s.p n) →
      ∃ s' f' newP b, insertLoop fuel s = some s' ∧ Grown enc words S n k f s s' 0 f' newP b ∧
        s.memory.allocationPtr ≤ s'.memory.allocationPtr + loopCost s.p n := by
  induction n using Nat.strong_induction_on with
  | _ n ih =>
    intro fuel k f s h hfuel hcan
    have hpos := h.pos
    obtain ⟨fuel, rfl⟩ : ∃ x, fuel = x + 1 := ⟨fuel - 1, by omega⟩
    obtain ⟨n', f', newP, b, hgrown, hempty, hcost⟩ :=
      insertStep_spec h (canAllocate_turn hpos hcan)
    have hlt := hgrown.lt
    have hend := hgrown.firstGenerationEnd_eq
    have hsum := stepCost_add_loopCost hlt hempty
    unfold Memory.canAllocate at hcan
    by_cases hn' : n' = 0
    · subst hn'
      refine ⟨_, f', newP, b, ?_, hgrown, by omega⟩
      rw [insertLoop]
      simp [hgrown.keyLength]
    · have hready := hgrown.ready h (by omega) hn'
      obtain ⟨s', f'', newP', b', hloop, hgrown', hcost'⟩ :=
        ih n' hlt fuel hready (by omega) (by unfold Memory.canAllocate; simp only; omega)
      refine ⟨s', f'', newP, b', ?_, hgrown.trans (fun a ha => (h.slot a ha).2) hgrown', ?_⟩
      · rw [insertLoop, if_pos]
        · exact hloop
        · rw [hgrown.keyLength]
          omega
      · simp only at hcost'
        omega

/-! ## the operation -/

/-- `TRIEV2_MAX_ALLOCATION`. -/
def triev2MaxAllocation : Nat := (16 + 1) * 5

/-- The loop starts with the whole key and the whole trie. -/
theorem ready_insertStart {enc : Nat → Nat} {S : Nat → Prop} {m : Memory} {n root : Nat}
    (key : Nat) {g : Nat → Nat} (hn : n ≠ 0) (hn16 : n ≤ 16) (hS : ∀ a, S a → m.Live a)
    (hroot : CodedRootAt enc m.words S n root g) :
    Ready enc m.words S n (key % 4 ^ n) g (insertStart m root key (2 * n)) where
  pos := Nat.pos_of_ne_zero hn
  le := hn16
  key_lt := Nat.mod_lt _ (Nat.pow_pos (by decide))
  key := by rw [insertStart, lshift32_key key hn16]
  keyLength := rfl
  trie := hroot
  absent := fun _ => rfl
  agree := fun _ _ => rfl
  live := hS
  slot := fun _ ha => by cases ha

/-- The word that `triev2_insert` stores for a key with the data `oldData`: the
new data if the key is absent, else what the update function makes of both when
it is called after the loop. -/
def InsertValue (m : Memory) (root key keyLength : Nat) (f : Option UpdateFunction)
    (data oldData x : Nat) : Prop :=
  if oldData = 0 then x = data
  else ∃ s, insertLoop 16 (insertStart m root key keyLength) = some s ∧
    x = (UpdateFunction.call f oldData data s.memory).1

/-- The loop of `triev2_insert` finds the data of the key. -/
theorem insertLoop_oldData {m : Memory} {n root : Nat} (key : Nat) {g : Nat → Nat} (hn : n ≠ 0)
    (hn16 : n ≤ 16) (hroot : RootAt m.words m.Live n root g)
    (hcan : m.canAllocate triev2MaxAllocation) :
    ∃ s, insertLoop 16 (insertStart m root key (2 * n)) = some s ∧
      s.oldData = g (key % 4 ^ n) := by
  have hcost : loopCost root n ≤ triev2MaxAllocation := loopCost_le root hn16
  obtain ⟨s, f', newP, b, hloop, hgrown, -⟩ :=
    insertLoop_spec 16 (ready_insertStart key hn hn16 (fun _ ha => ha) hroot) hn16
      (Memory.canAllocate_mono hcan hcost)
  refine ⟨s, hloop, ?_⟩
  rw [← MaybeTrieAt.data_eq hgrown.oldData, ← hgrown.map_eq, pow_zero, Nat.mod_one]

section finish

variable {enc : Nat → Nat} {S : Nat → Prop} {m : Memory} {n root key k keyLength : Nat}
  {g f' : Nat → Nat} {s : InsertState} {newP b : Nat}

/-- The loop has allocated and filled cells. -/
theorem Grown.extends (hgrown : Grown enc m.words S n k g (insertStart m root key keyLength) s 0 f'
    newP b) (hfit : m.firstGenerationEnd ≤ s.memory.allocationPtr) : m.Extends s.memory where
  allocationPtr_le := hgrown.allocationPtr_le
  firstGenerationEnd_eq := hgrown.firstGenerationEnd_eq
  firstGenerationStart_eq := hgrown.firstGenerationStart_eq
  agree := by
    intro a ha
    refine hgrown.agree a ?_ (by simp [insertStart])
    unfold Memory.Live at ha
    simp only [insertStart]
    omega

/-- The slot receives a word in a memory that still holds what the loop made. -/
theorem Grown.store {M : Memory} {x : Nat} (hS : ∀ a, S a → m.Live a)
    (hgrown : Grown enc m.words S n k g (insertStart m root key keyLength) s 0 f' newP b)
    (hfit : m.firstGenerationEnd ≤ s.memory.allocationPtr) (hM : s.memory.Extends M)
    (hx : enc x ≠ 0) :
    m.Extends (M.set b x) ∧
      CodedRootAt enc (M.set b x).words (Memory.grow S m M) n newP (Function.update g k (enc x)) := by
  have hend := hM.firstGenerationEnd_eq
  have hap := hM.allocationPtr_le
  have hstart := hgrown.firstGenerationEnd_eq
  have hfresh := hgrown.fresh
  simp only [insertStart] at hstart hfresh
  have hkeep : m.Extends (M.set b x) := by
    refine Memory.Extends.set ((hgrown.extends hfit).trans hM) ?_ x
    unfold Memory.Live
    omega
  refine ⟨hkeep, Or.inr (hgrown.rebuild _ _ _ ⟨hkeep.agree.mono hS, fun a ha => .inl ha,
    fun a ha hlt => .inr ⟨Nat.le_trans hap ha, hlt⟩, fun a ha _ hne => ?_⟩ (.data ?_ ?_))⟩
  · rw [Memory.set_words, if_neg hne]
    exact hM.agree a (Or.inr ha)
  · rw [Memory.set_words, if_pos rfl]
    exact hx
  · rw [Memory.set_words, if_pos rfl, pow_zero, Nat.mod_one, Function.update_self]

end finish

/-- `triev2_insert` yields a trie for the updated map, within its allocation
bound, and leaves every live word alone.  Where nothing changes it returns the
same root. -/
theorem triev2Insert_spec {m : Memory} {n root : Nat} (key : Nat) {data : Nat}
    {f : Option UpdateFunction}
    {g : Nat → Nat} (hn : n ≠ 0) (hn16 : n ≤ 16) (hroot : RootAt m.words m.Live n root g)
    (hcan : m.canAllocate (triev2MaxAllocation + UpdateFunction.cost f)) (hdata : data ≠ 0)
    (hf : ∀ u ∈ f, ∀ x m, (u.apply x data m).1 ≠ 0) :
    ∃ root' m' x, triev2Insert m root key (2 * n) f data = some (root', m') ∧
      m.Extends m' ∧
      m.allocationPtr ≤ m'.allocationPtr + (triev2MaxAllocation + UpdateFunction.cost f) ∧
      InsertValue m root key (2 * n) f data (g (key % 4 ^ n)) x ∧
      RootAt m'.words m'.Live n root' (Function.update g (key % 4 ^ n) x) ∧
      (x = g (key % 4 ^ n) → root' = root) := by
  have hready := ready_insertStart key hn hn16 (fun _ ha => ha) hroot
  obtain ⟨k, hk⟩ : ∃ k, k = key % 4 ^ n := ⟨_, rfl⟩
  rw [← hk] at hready
  have hcost : loopCost root n ≤ triev2MaxAllocation := loopCost_le root hn16
  unfold Memory.canAllocate at hcan
  obtain ⟨s, f', newP, b, hloop, hgrown, hused⟩ :=
    insertLoop_spec 16 hready hn16 (by unfold Memory.canAllocate; simp only [insertStart]; omega)
  simp only [insertStart] at hused
  have hend := hgrown.firstGenerationEnd_eq
  have hfresh := hgrown.fresh
  have hap := hgrown.allocationPtr_le
  simp only [insertStart] at hend hfresh hap
  have hnewRoot : s.newRoot = ptrToWord newP := hgrown.filled
  have hold : s.oldData = g k := by
    rw [← MaybeTrieAt.data_eq hgrown.oldData, ← hgrown.map_eq, pow_zero, Nat.mod_one]
  have hext := hgrown.extends (by omega)
  rw [← hk]
  have hstore : ∀ M x, s.memory.Extends M → x ≠ 0 → m.Extends (M.set b x) ∧
      RootAt (M.set b x).words (M.set b x).Live n newP (Function.update g k x) := by
    intro M x hM hx
    obtain ⟨hkeep, hmap⟩ := hgrown.store (fun _ ha => ha) (by omega) hM hx
    exact ⟨hkeep, hmap.frame (fun _ _ => rfl) fun _ => (hext.trans hM).grow_live fun _ ha => ha⟩
  unfold triev2Insert
  rw [hloop, Option.map_some, insertFinish, hold, nullWord]
  by_cases habsent : g k = 0
  · obtain ⟨hkeep, hmap⟩ := hstore s.memory data (Memory.Extends.refl _) hdata
    have hassign : s.assign data = { s with memory := s.memory.set b data } := by
      unfold InsertState.assign
      rw [hgrown.pp]
    rw [if_neg (not_not.mpr habsent), hassign]
    refine ⟨newP, s.memory.set b data, data, ?_, hkeep, ?_,
      by rw [InsertValue, if_pos habsent], hmap,
      fun h => absurd (h.trans habsent) hdata⟩
    · simp only [hnewRoot, wordToPtr_ptrToWord]
    · rw [Memory.set_allocationPtr]
      omega
  · rw [if_pos habsent]
    have hcall := UpdateFunction.extends_call (f := f) (m := s.memory) (g k) data
      (by unfold Memory.canAllocate; omega)
    have hused' := UpdateFunction.allocationPtr_call f (g k) data s.memory
    have hx0 : (UpdateFunction.call f (g k) data s.memory).1 ≠ 0 := by
      cases f with
      | none => exact hdata
      | some u => exact hf u rfl _ _
    generalize hxM : UpdateFunction.call f (g k) data s.memory = xM at hcall hused' hx0
    obtain ⟨x, M⟩ := xM
    have hvalue : InsertValue m root key (2 * n) f data (g k) x := by
      rw [InsertValue, if_neg habsent]
      exact ⟨s, hloop, by rw [hxM]⟩
    simp only at hcall hused' hx0 ⊢
    have hapM := hcall.allocationPtr_le
    by_cases hsame : g k = x
    · -- nothing changes: the fresh cells are given back
      have hkeep : m.Extends (M.restoreAllocationPoint m.allocationPtr) :=
        { allocationPtr_le := Nat.le_refl _
          firstGenerationEnd_eq := hcall.firstGenerationEnd_eq.trans hend
          firstGenerationStart_eq :=
            hcall.firstGenerationStart_eq.trans hgrown.firstGenerationStart_eq
          agree := (hext.trans hcall).agree }
      rw [if_pos hsame]
      refine ⟨root, _, x, rfl, hkeep, Nat.le_add_right _ _, hvalue, ?_, fun _ => rfl⟩
      rw [← hsame, Function.update_eq_self]
      exact hroot.frame hkeep.agree fun a ha => hkeep.live ha
    · obtain ⟨hkeep, hmap⟩ := hstore M x hcall hx0
      have hassign : { s with memory := M }.assign x = { s with memory := M.set b x } := by
        unfold InsertState.assign
        rw [hgrown.pp]
      rw [hold] at hassign
      rw [if_neg hsame, hassign]
      refine ⟨newP, M.set b x, x, ?_, hkeep, ?_, hvalue, hmap, fun h => absurd h.symm hsame⟩
      · simp only [hnewRoot, wordToPtr_ptrToWord]
      · rw [Memory.set_allocationPtr]
        omega

/-- `triev2_insert` without an update function, for any data that have a code.
The trie lies where it lay before and in fresh cells. -/
theorem triev2Insert_coded {enc : Nat → Nat} {S : Nat → Prop} {m : Memory} {n root l : Nat}
    (key : Nat) {data : Nat} {g : Nat → Nat} (hn : n ≠ 0) (hn16 : n ≤ 16)
    (hS : ∀ a, S a → m.Live a) (hroot : CodedRootAt enc m.words S n root g)
    (hcan : m.canAllocate (triev2MaxAllocation + l)) (hdata : enc data ≠ 0) :
    ∃ root' m', triev2Insert m root key (2 * n) none data = some (root', m') ∧ m.Extends m' ∧
      m'.canAllocate l ∧
      CodedRootAt enc m'.words (Memory.grow S m m') n root'
        (Function.update g (key % 4 ^ n) (enc data)) := by
  have hcost := loopCost_le root hn16
  unfold Memory.canAllocate triev2MaxAllocation at hcan
  obtain ⟨s, f', newP, b, hloop, hgrown, hused⟩ :=
    insertLoop_spec 16 (ready_insertStart key hn hn16 hS hroot) hn16
      (by unfold Memory.canAllocate; simp only [insertStart]; omega)
  simp only [insertStart] at hused
  have hstart := hgrown.firstGenerationEnd_eq
  simp only [insertStart] at hstart
  have hext := hgrown.extends (by omega)
  have hend := hext.firstGenerationEnd_eq
  have hnewRoot : s.newRoot = ptrToWord newP := hgrown.filled
  have hold : Reads enc (g (key % 4 ^ n)) s.oldData := by
    rw [← hgrown.map_eq, pow_zero, Nat.mod_one]
    exact hgrown.oldData.reads
  obtain ⟨hkeep, hmap⟩ := hgrown.store hS (by omega) (Memory.Extends.refl _) hdata
  have hfits : s.memory.canAllocate l := by
    unfold Memory.canAllocate
    omega
  have hfinish : insertFinish root m.allocationPtr none data s =
      if s.oldData ≠ nullWord ∧ s.oldData = data then
        (root, s.memory.restoreAllocationPoint m.allocationPtr)
      else (newP, s.memory.set b data) := by
    have hassign : s.assign data = { s with memory := s.memory.set b data } := by
      unfold InsertState.assign
      rw [hgrown.pp]
    have hstored : (wordToPtr (s.assign data).newRoot, (s.assign data).memory) =
        (newP, s.memory.set b data) := by
      rw [hassign, hnewRoot, wordToPtr_ptrToWord]
    unfold insertFinish
    simp only [UpdateFunction.call]
    by_cases hnull : s.oldData = nullWord
    · rw [if_neg (not_not.mpr hnull), if_neg fun h => h.1 hnull]
      exact hstored
    · by_cases hsame : s.oldData = data
      · rw [if_pos hnull, if_pos ⟨hnull, hsame⟩]
        exact if_pos hsame
      · rw [if_pos hnull, if_neg fun h => hsame h.2]
        exact (if_neg hsame).trans hstored
  refine ⟨(insertFinish root m.allocationPtr none data s).1,
    (insertFinish root m.allocationPtr none data s).2, by rw [triev2Insert, hloop]; rfl, ?_⟩
  rw [hfinish]
  by_cases hsame : s.oldData ≠ nullWord ∧ s.oldData = data
  · -- nothing changes: the fresh cells are given back
    have hpresent : g (key % 4 ^ n) = enc data := by
      unfold Reads at hold
      split_ifs at hold
      · exact absurd hold hsame.1
      · rw [← hold, hsame.2]
    have hgiven : m.Extends (s.memory.restoreAllocationPoint m.allocationPtr) :=
      { allocationPtr_le := Nat.le_refl _
        firstGenerationEnd_eq := hend
        firstGenerationStart_eq := hext.firstGenerationStart_eq
        agree := hext.agree }
    rw [if_pos hsame]
    refine ⟨hgiven, ?_, ?_⟩
    · unfold Memory.canAllocate
      simp only [Memory.restoreAllocationPoint]
      omega
    · rw [← hpresent, Function.update_eq_self]
      exact hroot.frame (hext.agree.mono hS) fun _ ha => .inl ha
  · rw [if_neg hsame]
    exact ⟨hkeep, hfits, hmap⟩

end Shades
