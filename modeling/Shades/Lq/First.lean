import Shades.Lq.Versions

/-!
# Shades.Lq.First

`lq_get_first`.  It walks down to the rightmost item of the first tree of the
tail and never looks at the head.  That item is the oldest one of its tree, but
the older items of the queue are in the head and in the other trees of the tail.
-/

namespace Shades

open Memory Lq SkewForest

namespace Lq

/-- The loop of `lq_get_first`, which goes down by one level in each round. -/
def rightmost (words : Nat → Nat) : Nat → Nat → Option Nat
  | 0, _ => none
  | rounds + 1, p =>
    if IsType words p .lqItem10 then rightmost words rounds (wordToPtr (words (p + 2)))
    else if IsType words p .lqItem11 then rightmost words rounds (wordToPtr (words (p + 3)))
    else some (wordToPtr (words (p + 1)))

end Lq

/-- `lq_get_first`. -/
def lqGetFirst (words : Nat → Nat) (queue : Nat) : Option Nat := do
  assert (queue ≠ nullPtr)
  assert (words (queue + 2) ≠ nullWord)
  let p := wordToPtr (words (queue + 2))
  assert (IsType words p .lqItem00 ∨ IsType words p .lqItem01 ∨ IsType words p .lqItem10 ∨
    IsType words p .lqItem11)
  rightmost words (height words p + 1) p

variable {words : Nat → Nat} {S : Nat → Prop} {p b s h x rounds : Nat} {m : Memory}
variable {t : SkewTree Nat} {ts : List (SkewTree Nat)} {Q : SkewQueue Nat}

/-! ## the walk -/

theorem ItemCell.isType (hcell : ItemCell words S p b s h x) :
    IsType words p .lqItem00 ∨ IsType words p .lqItem01 ∨ IsType words p .lqItem10 ∨
      IsType words p .lqItem11 := by
  simp only [hcell.isType_iff, itemType]
  split <;> split <;> simp

/-- The walk ends at the oldest item of the tree. -/
theorem LqTreeAt.rightmost (ht : LqTreeAt words S t b p) (hperfect : t.Perfect)
    (hrounds : t.height < rounds) : rightmost words rounds p = t.items.getLast? := by
  induction t generalizing b p rounds with
  | single x =>
    obtain ⟨rounds, rfl⟩ := Nat.exists_eq_add_one_of_ne_zero (Nat.ne_zero_of_lt hrounds)
    have hcell : ItemCell words S p b nullPtr 0 x := ht
    have hnot10 : ¬ IsType words p .lqItem10 := by
      rw [hcell.isType_iff, itemType, if_pos rfl]
      split <;> simp
    have hnot11 : ¬ IsType words p .lqItem11 := by
      rw [hcell.isType_iff, itemType, if_pos rfl]
      split <;> simp
    rw [Lq.rightmost, if_neg hnot10, if_neg hnot11, hcell.item, wordToPtr_ptrToWord]
    rfl
  | node x newer older _ ih =>
    obtain ⟨rounds, rfl⟩ := Nat.exists_eq_add_one_of_ne_zero (Nat.ne_zero_of_lt hrounds)
    obtain ⟨s, n, hcell, holder, hnewer⟩ := ht
    obtain ⟨heq, -, hperfect⟩ := hperfect
    have hs := holder.ne_null
    rw [SkewTree.height_node] at hrounds
    have hlast : (SkewTree.node x newer older).items.getLast? = older.items.getLast? := by
      rw [SkewTree.items_node, List.getLast?_cons, List.getLast?_append_of_ne_nil _
        older.items_ne_nil, List.getLast?_eq_some_getLast older.items_ne_nil]
      rfl
    rw [hlast, ← ih holder hperfect (by omega : older.height < rounds)]
    by_cases hb : b = nullPtr
    · subst hb
      have htype : IsType words p .lqItem10 := by
        rw [hcell.isType_iff, itemType, if_neg hs, if_pos rfl]
      rw [Lq.rightmost, if_pos htype, hcell.son hs, wordToPtr_ptrToWord]
    · have htype : IsType words p .lqItem11 := by
        rw [hcell.isType_iff, itemType, if_neg hs, if_neg hb]
      have hnot : ¬ IsType words p .lqItem10 := by
        rw [hcell.isType_iff, itemType, if_neg hs, if_neg hb]
        simp
      rw [Lq.rightmost, if_neg hnot, if_pos htype, hcell.son_of_brother hb hs, wordToPtr_ptrToWord]

/-- The result is the oldest item of the first tree of the tail; when the tail is
empty an assertion is violated. -/
theorem lqGetFirst_spec (hQ : LqAt words S Q p) (hperfect : ∀ t ∈ Q.tail, t.Perfect) :
    lqGetFirst words p = Q.tail.head?.bind fun t => t.items.getLast? := by
  rcases hQ with ⟨rfl, -, htail⟩ | ⟨a, b, hQ⟩
  · rw [htail]
    rfl
  · unfold lqGetFirst
    rw [assert_true hQ.ne_null, hQ.tail_word, wordToPtr_ptrToWord]
    have htail := hQ.tail
    cases hts : Q.tail with
    | nil =>
      rw [hts] at htail
      obtain rfl : b = nullPtr := htail
      rfl
    | cons t ts =>
      rw [hts] at htail hperfect
      obtain ⟨b', ht, -⟩ := htail
      obtain ⟨s, x, hcell⟩ := ht.root
      have hword : ptrToWord b ≠ nullWord := mt ptrToWord_eq_nullWord.mp ht.ne_null
      rw [assert_true hword]
      dsimp only [bind, Option.bind]
      rw [assert_true hcell.isType, hcell.height_eq]
      exact ht.rightmost (hperfect t List.mem_cons_self) (Nat.lt_succ_self _)

/-! ## which item it returns -/

/-- The oldest item of the first tree of the tail is the oldest one of the queue:
no other item is older than this tree, or the item at its place is the same. -/
def FirstTreeHoldsOldest (Q : SkewQueue Nat) : Prop :=
  ∃ t ts, Q.tail = t :: ts ∧
    Q.contents[Q.contents.length - t.items.length]? = Q.contents.head?

/-- The items of the first tree of the tail are the newest ones. -/
theorem getElem?_contents (hts : Q.tail = t :: ts) :
    Q.contents[Q.contents.length - t.items.length]? = t.items.getLast? := by
  have hcontents : Q.contents =
      (headItems Q.head ++ (ts.flatMap SkewTree.items).reverse) ++ t.items.reverse := by
    simp [SkewQueue.contents, hts]
  rw [hcontents, List.length_append, List.length_reverse, Nat.add_sub_cancel,
    List.getElem?_append_right (Nat.le_refl _), Nat.sub_self, ← List.head?_eq_getElem?,
    List.head?_reverse]

theorem lqGetFirst_eq_iff (hQ : LqAt words S Q p) (hperfect : ∀ t ∈ Q.tail, t.Perfect)
    (hne : Q.contents ≠ []) :
    lqGetFirst words p = Q.contents.head? ↔ FirstTreeHoldsOldest Q := by
  rw [lqGetFirst_spec hQ hperfect]
  constructor
  · intro heq
    cases hts : Q.tail with
    | nil =>
      rw [hts] at heq
      exact absurd (List.head?_eq_none_iff.mp heq.symm) hne
    | cons t ts =>
      rw [hts] at heq
      exact ⟨t, ts, hts, (getElem?_contents hts).trans heq⟩
  · rintro ⟨t, ts, hts, heq⟩
    rw [hts, ← heq, getElem?_contents hts]
    rfl

/-- When no item is in the queue twice, the queue is a single tree in the tail. -/
theorem firstTreeHoldsOldest_iff (hnodup : Q.contents.Nodup) :
    FirstTreeHoldsOldest Q ↔ Q.head = [] ∧ Q.tail.length = 1 := by
  constructor
  · rintro ⟨t, ts, hts, heq⟩
    have hpos : 0 < t.items.length := List.length_pos_iff.mpr t.items_ne_nil
    have hle : t.items.length ≤ Q.contents.length :=
      SkewQueue.length_items_le (.inr (hts ▸ List.mem_cons_self))
    rw [List.head?_eq_getElem?] at heq
    have hzero : Q.contents.length - t.items.length = 0 :=
      (List.getElem?_inj (by omega) hnodup).mp heq
    have hlen : Q.contents.length =
        (headItems Q.head).length + ((ts.flatMap SkewTree.items).length + t.items.length) := by
      simp [SkewQueue.contents, hts]
    have hhead : headItems Q.head = [] := List.length_eq_zero_iff.mp (by omega)
    have hrest : ts.flatMap SkewTree.items = [] := List.length_eq_zero_iff.mp (by omega)
    rw [headItems, List.flatMap_eq_nil_iff] at hhead
    rw [List.flatMap_eq_nil_iff] at hrest
    have hts' : ts = [] := List.eq_nil_iff_forall_not_mem.mpr fun u hu =>
      u.items_ne_nil (hrest u hu)
    refine ⟨List.eq_nil_iff_forall_not_mem.mpr fun u hu => ?_, by rw [hts, hts']; rfl⟩
    exact u.items_ne_nil (List.reverse_eq_nil_iff.mp (hhead u hu))
  · rintro ⟨hhead, hone⟩
    obtain ⟨t, ht⟩ := List.length_eq_one_iff.mp hone
    have hcontents : Q.contents = t.items.reverse := by simp [SkewQueue.contents, hhead, ht]
    refine ⟨t, [], ht, ?_⟩
    rw [hcontents, List.length_reverse, Nat.sub_self, List.head?_eq_getElem?]

/-! ## in a history -/

/-- In every history of insertions and removals `lq_get_first` returns the oldest
item of a version, the one that `lq_remove_first` takes away, exactly when the
oldest item of the first tree of the tail is the oldest one; with distinct items
this means that the head is empty and the tail has one tree only. -/
theorem lq_get_first_oldest {h : Persistent.History Memory Nat (List Nat)}
    (hmem : m.allocationPtr ≤ addressSpace) (hrun : LqRun m h) :
    ∀ v ∈ h.versions, v.value ≠ [] →
      ∃ Q, LqAt h.store.words h.store.Live Q v.root ∧ Q.Ordered ∧ Q.contents = v.value ∧
        (lqGetFirst h.store.words v.root = v.value.head? ↔ FirstTreeHoldsOldest Q) ∧
        (v.value.Nodup → (FirstTreeHoldsOldest Q ↔ Q.head = [] ∧ Q.tail.length = 1)) := by
  intro v hv hne
  obtain ⟨-, Q, hQ, hord, hcontents⟩ := lq_preserved.run hrun (LqHolds.empty hmem) v hv
  rw [← hcontents] at hne ⊢
  exact ⟨Q, hQ, hord, rfl, lqGetFirst_eq_iff hQ hord.tail hne, firstTreeHoldsOldest_iff⟩

/-- The items `7` and `8` are inserted in the empty queue. -/
theorem lqRun_insert_two : ∃ m q m' q', lqInsertLast (roomyMemory []) nullPtr 7 = some (q, m) ∧
    lqInsertLast m q 8 = some (q', m') ∧
    LqRun (roomyMemory []) ⟨m', [⟨q', [7, 8]⟩, ⟨q, [7]⟩, ⟨nullPtr, []⟩]⟩ := by
  have hempty : LqHolds (roomyMemory []) ⟨nullPtr, []⟩ :=
    LqHolds.empty (by decide) _ List.mem_cons_self
  have hcan : (roomyMemory []).canAllocate lqInsertMaxAllocation := by decide
  obtain ⟨q, m, hfirst, hext, hptr, hholds⟩ := hempty.insertLast hcan 7
  have hcan' : m.canAllocate lqInsertMaxAllocation := by
    have hend := hext.firstGenerationEnd_eq
    simp only [roomyMemory] at hend hptr
    unfold canAllocate
    rw [hend]
    simp only [lqInsertMaxAllocation] at hptr ⊢
    omega
  obtain ⟨q', m', hsecond, -⟩ := hholds.insertLast hcan' 8
  have hrun : LqRun (roomyMemory []) ⟨m, [⟨q, [7]⟩, ⟨nullPtr, []⟩]⟩ :=
    .single (.call List.mem_cons_self (.insertLast hcan hfirst))
  exact ⟨m, q, m', q', hfirst, hsecond,
    hrun.tail (.call List.mem_cons_self (.insertLast hcan' hsecond))⟩

theorem lq_get_first_oldest_two : ∃ h v, v ∈ Persistent.History.versions h ∧
    LqRun (roomyMemory []) h ∧ v.value = [7, 8] ∧ ∃ Q, Q.contents = v.value ∧
      (FirstTreeHoldsOldest Q ↔ Q.head = [] ∧ Q.tail.length = 1) := by
  obtain ⟨m, q, m', q', -, -, hrun⟩ := lqRun_insert_two
  obtain ⟨Q, -, -, hcontents, -, hshape⟩ :=
    lq_get_first_oldest (by decide) hrun ⟨q', [7, 8]⟩ List.mem_cons_self (by simp)
  exact ⟨_, _, List.mem_cons_self, hrun, rfl, Q, hcontents, hshape (show [7, 8].Nodup by decide)⟩

/-- The queue of one item violates an assertion: its tail is empty.  In the queue
of two items the newer one is returned. -/
theorem lqGetFirst_newer : ∃ h v w, v ∈ Persistent.History.versions h ∧ w ∈ h.versions ∧
    LqRun (roomyMemory []) h ∧ v.value = [7] ∧ w.value = [7, 8] ∧
    lqGetFirst h.store.words v.root = none ∧ lqGetFirst h.store.words w.root = some 8 := by
  obtain ⟨m, q, m', q', hfirst, hsecond, hrun⟩ := lqRun_insert_two
  have hone : ((lqInsertLast (roomyMemory []) nullPtr 7).bind fun r =>
      (lqInsertLast r.2 r.1 8).bind fun r' => lqGetFirst r'.2.words r.1) = none := rfl
  have htwo : ((lqInsertLast (roomyMemory []) nullPtr 7).bind fun r =>
      (lqInsertLast r.2 r.1 8).bind fun r' => lqGetFirst r'.2.words r'.1) = some 8 := rfl
  rw [hfirst, Option.bind_some, hsecond, Option.bind_some] at hone htwo
  exact ⟨_, ⟨q, [7]⟩, ⟨q', [7, 8]⟩, by simp, List.mem_cons_self, hrun, rfl, rfl, hone, htwo⟩

end Shades
