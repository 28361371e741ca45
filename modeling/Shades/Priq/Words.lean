import Shades.MeldPrice
import Shades.Priq.Versions

/-!
# Shades.Priq.Words

The words that a call takes.  `PRIQ_MAX_ALLOCATION` has room for insertions and
merges of queues of less than `2 ^ 32` items, but not for all deletions: these
copy the trees before the least one and its sons, and meld the copies, which
copies them once more.
-/

namespace Shades

open BinomialHeap BinomialHeap.Heap Memory

/-! ## what a deletion takes -/

section price

variable {κ : Type} [LinearOrder κ] (rank : Nat → κ)

/-- Two words for the tree of the least item for each of its sons and of the trees before
it, and the links of trees of heights that only one of the lists has. -/
def deleteCells (before : Heap Nat) (h : Nat) (sons after : Heap Nat) : Nat :=
  2 * (h + before.length) + extraLinks rank (min 1 after.length) (sons.reverseOnto .nil) before

variable {rank} {H before sons after : Heap Nat} {h x : Nat}

/-- A deletion from a queue of more than one tree. -/
theorem deleteWords_eq (hmin : LeastTree rank H before h x sons after) (hroots : H.Roots 0)
    (hne : before.append after ≠ .nil) :
    deleteWords rank before sons after = 4 * deleteCells rank before h sons after := by
  obtain ⟨hbefore, hbelow, -, hsons, hafter⟩ := (hmin.eq ▸ hroots).split
  have hp : (sons.reverseOnto .nil).Consecutive h 0 := hsons.consecutive rfl
  have hlength : (sons.reverseOnto .nil).length = h := by
    rw [length_reverseOnto, hsons.length_eq, Heap.length, add_zero]
  have hmeld : (meld rank (sons.reverseOnto .nil) (before.append after)).1 =
      4 * (h + before.length +
        extraLinks rank (min 1 after.length) (sons.reverseOnto .nil) before) := by
    change Melding.price rank ⟨.nil, sons.reverseOnto .nil, before.append after⟩ = _
    cases before with
    | nil =>
      rw [Heap.append, price_consecutive_below hp hafter hne, hlength]
      cases sons.reverseOnto .nil <;> simp [extraLinks]
    | tree k y t r =>
      rw [price_extraLinks hp hbefore hbelow tree_ne_nil hafter, hlength]
  unfold deleteWords deleteCells
  rw [hmeld, hsons.length_eq]
  omega

/-- A deletion from a queue of one tree. -/
theorem deleteWords_single (hsons : sons.Sons h) : deleteWords rank .nil sons .nil = 4 * h := by
  have hroots : (sons.reverseOnto .nil).Roots 0 := hsons.reverseOnto (q := .nil) trivial
  simp [deleteWords, meld_nil_right hroots, hsons.length_eq]

/-- The words of a deletion from a queue of less than `2 ^ 32` items. -/
theorem deleteWords_cases (hmin : LeastTree rank H before h x sons after) (hroots : H.Roots 0)
    (hcard : H.items.card < 2 ^ 32) :
    deleteWords rank before sons after = 4 * deleteCells rank before h sons after ∨
      deleteWords rank before sons after ≤ 124 ∧ deleteCells rank before h sons after ≤ 62 := by
  by_cases hnil : before.append after = .nil
  · right
    obtain rfl : before = .nil := by
      cases before with
      | nil => rfl
      | tree k y t r => cases hnil
    obtain rfl : after = .nil := hnil
    have hlt := hmin.height_lt hroots hcard
    obtain ⟨-, -, -, hsons, -⟩ := (hmin.eq ▸ hroots).split
    have hcells : deleteCells rank .nil h sons .nil = 2 * h := by
      unfold deleteCells
      cases sons.reverseOnto .nil <;> simp [extraLinks]
    rw [deleteWords_single hsons, hcells]
    omega
  · exact .inl (deleteWords_eq hmin hroots hnil)

/-- `PRIQ_MAX_ALLOCATION` suffices for a deletion if and only if this takes not more
than `97` cells. -/
theorem deleteWords_le_iff (hmin : LeastTree rank H before h x sons after) (hroots : H.Roots 0)
    (hcard : H.items.card < 2 ^ 32) :
    deleteWords rank before sons after ≤ priqMaxAllocation ↔
      deleteCells rank before h sons after ≤ 97 := by
  have hwords := deleteWords_cases hmin hroots hcard
  unfold priqMaxAllocation
  omega

/-- No deletion takes more than `624` words. -/
theorem deleteWords_le (hmin : LeastTree rank H before h x sons after) (hroots : H.Roots 0)
    (hcard : H.items.card < 2 ^ 32) : deleteWords rank before sons after ≤ 624 := by
  obtain ⟨hbefore, hbelow, -, hsons, -⟩ := (hmin.eq ▸ hroots).split
  have hwords := deleteWords_cases hmin hroots hcard
  have hlt := hmin.height_lt hroots hcard
  have hlength := hbefore.length_le hbelow (Nat.zero_le h)
  have hlinks := @extraLinks_le _ _ _ rank (sons.reverseOnto .nil) before (min 1 after.length)
  rw [length_reverseOnto, hsons.length_eq, Heap.length] at hlinks
  unfold deleteCells at hwords
  omega

end price

/-! ## the calls -/

section calls

variable {κ : Type} [LinearOrder κ] (rank : Nat → κ)

/-- A deletion that takes not more than `97` cells; all other calls. -/
def FitsReserve (m : Memory) : PriqCall → Prop
  | .delete v => ∀ H before h x sons after, HeapAt m.words m.Live H v.root →
      LeastTree rank H before h x sons after → deleteCells rank before h sons after ≤ 97
  | _ => True

variable {rank} {m : Memory} {c : PriqCall} {v : PriqVersion} {H : Heap Nat}

/-- The heights fit if the queues have less than `2 ^ 32` items. -/
theorem PriqCall.heightsFit (hcard : ∀ v ∈ c.versions, v.value.card < 2 ^ 32) :
    c.HeightsFit := by
  have hpow : 2 ^ 33 ≤ 2 ^ 2 ^ 24 := Nat.pow_le_pow_right (by decide) (by decide)
  cases c with
  | insert v data =>
    have hv := hcard v List.mem_cons_self
    exact Nat.lt_of_lt_of_le (by omega : v.value.card + 1 < 2 ^ 33) hpow
  | delete v => trivial
  | merge v w =>
    have hv := hcard v List.mem_cons_self
    have hw := hcard w (List.mem_cons_of_mem _ List.mem_cons_self)
    exact Nat.lt_of_lt_of_le (by omega : v.value.card + w.value.card < 2 ^ 33) hpow

/-- The words of a call on queues of less than `2 ^ 32` items. -/
theorem PriqCall.Takes.words {words : Nat} (h : c.Takes rank m words)
    (hv : ∀ v ∈ c.versions, PriqHolds rank m v)
    (hcard : ∀ v ∈ c.versions, v.value.card < 2 ^ 32) :
    words ≤ 624 ∧ (words ≤ priqMaxAllocation ↔ FitsReserve rank m c) := by
  cases h with
  | @insert v data H hH =>
    obtain ⟨hroots, -, hitems⟩ := (hv v List.mem_cons_self).heap hH
    have hlt := hcard v List.mem_cons_self
    have hprice : (meld rank H (single data)).1 ≤ 8 * 33 := meld_le hroots (single_roots data) (by
      rw [hitems, single_items, Multiset.card_singleton]
      omega)
    have hwords : insertWords rank H data ≤ 268 := by
      unfold insertWords
      omega
    exact ⟨Nat.le_trans hwords (by decide), iff_of_true (Nat.le_trans hwords (by decide)) trivial⟩
  | nothing hempty =>
    refine ⟨Nat.zero_le _, iff_of_true (Nat.zero_le _) ?_⟩
    intro H before h x sons after hH hmin
    have hnil := hmin.eq
    rw [hH.unique hempty] at hnil
    cases before <;> cases hnil
  | @delete v H before sons after h x hH hmin =>
    obtain ⟨hroots, -, hitems⟩ := (hv v List.mem_cons_self).heap hH
    have hlt := hcard v List.mem_cons_self
    rw [← hitems] at hlt
    refine ⟨deleteWords_le hmin hroots hlt, (deleteWords_le_iff hmin hroots hlt).trans ⟨?_, ?_⟩⟩
    · intro hcells H' before' h' x' sons' after' hH' hmin'
      obtain rfl := hH'.unique hH
      obtain ⟨rfl, rfl, rfl, rfl, rfl⟩ := hmin'.unique hmin
      exact hcells
    · exact fun hall => hall H before h x sons after hH hmin
  | @merge v w H K hH hK =>
    obtain ⟨hroots, -, hitems⟩ := (hv v List.mem_cons_self).heap hH
    obtain ⟨hroots', -, hitems'⟩ := (hv w (List.mem_cons_of_mem _ List.mem_cons_self)).heap hK
    have hlt := hcard v List.mem_cons_self
    have hlt' := hcard w (List.mem_cons_of_mem _ List.mem_cons_self)
    have hprice : (meld rank H K).1 ≤ 8 * 33 := meld_le hroots hroots' (by
      rw [hitems, hitems']
      omega)
    exact ⟨Nat.le_trans hprice (by decide), iff_of_true (Nat.le_trans hprice (by decide)) trivial⟩

/-- The words that a call takes, for any queues of less than `2 ^ 32` items: they are
in the words that the callers reserve, except for some deletions. -/
theorem priq_call_words (hv : ∀ v ∈ c.versions, PriqHolds rank m v)
    (hcard : ∀ v ∈ c.versions, v.value.card < 2 ^ 32) :
    ∃ words ≤ 624, (words ≤ priqMaxAllocation ↔ FitsReserve rank m c) ∧
      (m.canAllocate words → ∃ q m', c.run (rankCmp rank) m = some (q, m') ∧ m.Extends m' ∧
        m.allocationPtr = m'.allocationPtr + words ∧
        PriqHolds rank m' ⟨q, c.value (rankCmp rank) m⟩) := by
  obtain ⟨words, htakes, hreturns⟩ := PriqCall.takes hv (PriqCall.heightsFit hcard)
  obtain ⟨hle, hiff⟩ := htakes.words hv hcard
  exact ⟨words, hle, hiff, hreturns⟩

end calls

/-! ## a deletion that takes more words -/

/-- A history with a queue of `n` trees of the heights `0, …, n - 1` of the item `8`. -/
theorem exists_trees {m : Memory} (n : Nat) (hn : n ≤ 25)
    (hcan : m.canAllocate (priqMaxAllocation + 400 * n)) :
    ∃ (h : PriqHistory) (v : PriqVersion) (H : Heap Nat) (words : Nat),
      PriqRun (rankCmp id) (PriqFits id) m h ∧ PriqLater ⟨m, [⟨nullPtr, 0⟩]⟩ h words ∧
      words ≤ 400 * n ∧ v ∈ h.versions ∧ HeapAt h.store.words h.store.Live H v.root ∧
      H.length = n ∧ H.Below n ∧ (∀ y ∈ H.roots, y = 8) := by
  induction n with
  | zero =>
    refine ⟨⟨m, [⟨nullPtr, 0⟩]⟩, ⟨nullPtr, 0⟩, .nil, 0, .refl, ⟨fun _ hv => hv, .refl m, rfl⟩,
      Nat.le_refl _, List.mem_cons_self, rfl, rfl, trivial, nofun⟩
  | succ n ih =>
    obtain ⟨h, v, H, words, hrun, hl, hwords, hv, hH, hlength, hbelow, hall⟩ := ih (by omega)
      (canAllocate_mono hcan (by omega))
    have hcan₁ : h.store.canAllocate (priqMaxAllocation + 4 * n + (8 * n + 4)) :=
      hl.canAllocate (canAllocate_mono hcan (by omega))
    obtain ⟨h', z, sons, hrun', hl', hz, htree, hcard⟩ := hrun.growTree
      (hl.versions _ List.mem_cons_self) 8 (show n < 2 ^ 24 by omega)
      (canAllocate_mono hcan₁ (by omega))
    obtain ⟨hroots, -, hitems⟩ := (hrun.holds v hv).heap hH
    have hmeld : meld (id : Nat → Nat) H (.tree n 8 sons .nil) =
        (4 * n, H.append (.tree n 8 sons .nil)) := by
      rw [meld_higher hroots hbelow, hlength]
    have hfits : v.value.card + z.value.card < 2 ^ 2 ^ 24 := by
      have hle := hroots.card_le hbelow (Nat.zero_le n)
      have hlt : v.value.card + z.value.card < 2 ^ (n + 1) := by
        rw [← hitems, hcard, pow_succ]
        omega
      exact Nat.lt_of_lt_of_le hlt (Nat.pow_le_pow_right (by decide) (by omega))
    obtain ⟨h'', z', hrun'', hl'', hz', hheap, -⟩ := hrun'.merge (hl'.versions v hv) hz
      (hl'.heap hH) htree hfits (by
        rw [hmeld]
        exact hl'.canAllocate hcan₁)
    rw [hmeld] at hl'' hheap
    refine ⟨h'', z', _, _, hrun'', (hl.trans hl').trans hl'', by omega, hz', hheap, ?_, ?_, ?_⟩
    · rw [length_append, hlength]
      rfl
    · exact hbelow.snoc
    · intro y hy
      rw [roots_append, List.mem_append] at hy
      rcases hy with hy | hy
      · exact hall y hy
      · exact List.mem_singleton.mp hy

/-- A history with a queue of four trees, and room for any deletion. -/
theorem exists_four_trees : ∃ (h : PriqHistory) (v : PriqVersion) (H : Heap Nat),
    PriqRun (rankCmp id) (PriqFits id) hugeMemory h ∧ v ∈ h.versions ∧ v.value.card < 2 ^ 32 ∧
      HeapAt h.store.words h.store.Live H v.root ∧ H.length = 4 ∧ h.store.canAllocate 624 := by
  have hhuge : hugeMemory.canAllocate 10000 := by decide
  obtain ⟨h, v, H, words, hrun, hl, hwords, hv, hH, hlength, hbelow, -⟩ :=
    exists_trees 4 (by decide) (canAllocate_mono hhuge (by decide))
  obtain ⟨hroots, -, hitems⟩ := (hrun.holds v hv).heap hH
  have hcard : v.value.card < 2 ^ 32 := by
    have hle := hroots.card_le hbelow (Nat.zero_le 4)
    rw [← hitems]
    omega
  exact ⟨h, v, H, hrun, hv, hcard, hH, hlength,
    hl.canAllocate (canAllocate_mono hhuge (by omega))⟩

/-- A deletion from a queue of four trees. -/
theorem priq_call_words_trees : ∃ (h : PriqHistory) (v : PriqVersion) (H : Heap Nat)
    (words q : Nat) (m' : Memory), PriqRun (rankCmp id) (PriqFits id) hugeMemory h ∧
    v ∈ h.versions ∧ HeapAt h.store.words h.store.Live H v.root ∧ H.length = 4 ∧
    words ≤ 624 ∧ (words ≤ priqMaxAllocation ↔ FitsReserve id h.store (.delete v)) ∧
    (PriqCall.delete v).run (rankCmp id) h.store = some (q, m') ∧
    h.store.allocationPtr = m'.allocationPtr + words := by
  obtain ⟨h, v, H, hrun, hv, hcard, hH, hlength, hcan⟩ := exists_four_trees
  have hversion : ∀ w ∈ (PriqCall.delete v).versions, w = v := fun w hw => List.mem_singleton.mp hw
  obtain ⟨words, hle, hiff, hreturns⟩ := priq_call_words (c := .delete v)
    (fun w hw => hversion w hw ▸ hrun.holds v hv) (fun w hw => hversion w hw ▸ hcard)
  obtain ⟨q, m', hdelete, -, hptr, -⟩ := hreturns (canAllocate_mono hcan hle)
  exact ⟨h, v, H, words, q, m', hrun, hv, hH, hlength, hle, hiff, hdelete, hptr⟩

/-- A history with a queue of 26 trees, the highest of which has the least item. -/
theorem exists_least_last : ∃ (h : PriqHistory) (v : PriqVersion) (H sons : Heap Nat),
    PriqRun (rankCmp id) (PriqFits id) hugeMemory h ∧ v ∈ h.versions ∧ v.value.card < 2 ^ 32 ∧
      HeapAt h.store.words h.store.Live (H.append (.tree 25 7 sons .nil)) v.root ∧
      H.length = 25 ∧ (∀ y ∈ H.roots, y = 8) ∧ h.store.canAllocate 624 := by
  have hhuge : hugeMemory.canAllocate 100000 := by decide
  obtain ⟨h, v, H, words, hrun, hl, hwords, hv, hH, hlength, hbelow, hall⟩ :=
    exists_trees 25 (Nat.le_refl _) (canAllocate_mono hhuge (by decide))
  have hcan : h.store.canAllocate 50000 :=
    hl.canAllocate (canAllocate_mono hhuge (by omega))
  obtain ⟨h', z, sons, hrun', hl', hz, htree, hcard⟩ := hrun.growTree
    (hl.versions _ List.mem_cons_self) 7 (show 25 < 2 ^ 24 by decide)
    (canAllocate_mono hcan (by decide))
  have hcan' : h'.store.canAllocate 40000 := hl'.canAllocate (canAllocate_mono hcan (by decide))
  obtain ⟨hroots, -, hitems⟩ := (hrun.holds v hv).heap hH
  have hmeld : meld (id : Nat → Nat) H (.tree 25 7 sons .nil) =
      (100, H.append (.tree 25 7 sons .nil)) := by
    rw [meld_higher hroots hbelow, hlength]
  have hlt : v.value.card + z.value.card < 2 ^ 32 := by
    have hle := hroots.card_le hbelow (Nat.zero_le 25)
    rw [← hitems, hcard]
    omega
  have hfits : v.value.card + z.value.card < 2 ^ 2 ^ 24 :=
    Nat.lt_of_lt_of_le hlt (Nat.pow_le_pow_right (by decide) (by decide))
  have hroom : priqMaxAllocation + (meld (id : Nat → Nat) H (.tree 25 7 sons .nil)).1 ≤ 40000 := by
    rw [hmeld]
    exact (by decide : priqMaxAllocation + 100 ≤ 40000)
  obtain ⟨h'', w, hrun'', hl'', hw, hheap, hvalue⟩ := hrun'.merge (hl'.versions v hv) hz
    (hl'.heap hH) htree hfits (canAllocate_mono hcan' hroom)
  rw [hmeld] at hl'' hheap
  have hcard' : w.value.card < 2 ^ 32 := by
    rw [hvalue, Multiset.card_add]
    exact hlt
  exact ⟨h'', w, H, sons, hrun'', hw, hcard', hheap, hlength, hall,
    hl''.canAllocate (canAllocate_mono hcan' (by decide : 624 + 100 ≤ 40000))⟩

/-- The claim fails: a deletion from a queue of 26 trees takes more words. -/
theorem priq_delete_takes_more : ¬ ∀ (m : Memory) (h : PriqHistory),
    PriqRun (rankCmp (id : Nat → Nat)) (PriqFits id) m h →
      ∀ v ∈ h.versions, v.value.card < 2 ^ 32 → ∀ q m',
        (PriqCall.delete v).run (rankCmp id) h.store = some (q, m') →
          h.store.allocationPtr ≤ m'.allocationPtr + priqMaxAllocation := by
  intro hclaim
  obtain ⟨h, v, H, sons, hrun, hv, hcard, hheap, hlength, hall, hcan⟩ := exists_least_last
  obtain ⟨hroots, -, hitems⟩ := (hrun.holds v hv).heap hheap
  have hmin : LeastTree id (H.append (.tree 25 7 sons .nil)) H 25 7 sons .nil :=
    ⟨rfl, fun y hy => by rw [hall y hy]; decide, nofun⟩
  have hne : H ≠ .nil := by
    rintro rfl
    cases hlength
  have hwords : 400 ≤ deleteWords (id : Nat → Nat) H sons .nil := by
    rw [deleteWords_eq hmin hroots (by rwa [append_nil]), deleteCells, hlength]
    omega
  have hroom := deleteWords_le hmin hroots (by rwa [hitems])
  obtain ⟨before, k, x, sons', after, hmin', -, hdelete⟩ := priqDelete_spec id hheap
    append_tree_ne_nil hroots
  obtain ⟨rfl, rfl, rfl, rfl, rfl⟩ := hmin'.unique hmin
  obtain ⟨q, m', hdeleted, -, hptr, -⟩ := hdelete (canAllocate_mono hcan hroom)
  have hle := hclaim _ h hrun v hv hcard q m' hdeleted
  unfold priqMaxAllocation at hle
  omega

end Shades
