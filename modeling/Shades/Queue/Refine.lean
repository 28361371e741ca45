import Shades.Queue.Code

/-!
# Shades.Queue.Refine

A queue in memory stands for a state of the real-time queue, and the two
operations of `queue.c` compute those on the states.  `Building` says how far
the making of a new cell has got: nothing that was live before was touched, and
`used` words were allocated.
-/

namespace Shades

open RealTimeQueue Memory

/-! ## queues in memory -/

structure PlainAt (words : Nat → Nat) (S : Nat → Prop) (q : Nat) (xs ys : List Nat) :
    Prop where
  type : cellType (words q) = CellType.queue.code
  head : ListAt words S (words (q + 1)) xs
  tail : ListAt words S (words (q + 2)) ys
  headCount : words (q + 3) = xs.length
  tailCount : words (q + 4) = ys.length

structure TransferAt (words : Nat → Nat) (S : Nat → Prop) (q : Nat) (t : Transfer Nat) :
    Prop where
  type : cellType (words q) = CellType.queueRev.code
  head : ListAt words S (words (q + 1)) t.head
  tail : ListAt words S (words (q + 2)) t.tail
  headCount : words (q + 3) = t.head.length
  tailCount : words (q + 4) = t.tail.length
  front : ListAt words S (words (q + 5)) t.front
  rfront : ListAt words S (words (q + 6)) t.rfront
  back : ListAt words S (words (q + 7)) t.back
  rback : ListAt words S (words (q + 8)) t.rback
  moved : words (q + 9) = t.moved
  size : words (q + 10) = t.size

/-- A queue in cells of the region `S`. -/
def QueueAt (words : Nat → Nat) (S : Nat → Prop) (q : Nat) : State Nat → Prop
  | .empty => q = nullPtr
  | .plain head tail => q ≠ nullPtr ∧ (∀ i < 5, S (q + i)) ∧ PlainAt words S q head tail
  | .transfer t => q ≠ nullPtr ∧ (∀ i < 11, S (q + i)) ∧ TransferAt words S q t

section frame

variable {words words' : Nat → Nat} {S S' : Nat → Prop} {q : Nat}

theorem PlainAt.frame {xs ys : List Nat} (h : PlainAt words S q xs ys)
    (hcell : ∀ i < 5, words' (q + i) = words (q + i)) (hagree : AgreeOn S words words')
    (hS : ∀ a, S a → S' a) : PlainAt words' S' q xs ys where
  type := by
    have := hcell 0 (by decide)
    rw [Nat.add_zero] at this
    rw [this, h.type]
  head := hcell 1 (by decide) ▸ h.head.frame hagree hS
  tail := hcell 2 (by decide) ▸ h.tail.frame hagree hS
  headCount := by rw [hcell 3 (by decide), h.headCount]
  tailCount := by rw [hcell 4 (by decide), h.tailCount]

theorem TransferAt.frame {t : Transfer Nat} (h : TransferAt words S q t)
    (hcell : ∀ i < 11, words' (q + i) = words (q + i)) (hagree : AgreeOn S words words')
    (hS : ∀ a, S a → S' a) : TransferAt words' S' q t where
  type := by
    have := hcell 0 (by decide)
    rw [Nat.add_zero] at this
    rw [this, h.type]
  head := hcell 1 (by decide) ▸ h.head.frame hagree hS
  tail := hcell 2 (by decide) ▸ h.tail.frame hagree hS
  headCount := by rw [hcell 3 (by decide), h.headCount]
  tailCount := by rw [hcell 4 (by decide), h.tailCount]
  front := hcell 5 (by decide) ▸ h.front.frame hagree hS
  rfront := hcell 6 (by decide) ▸ h.rfront.frame hagree hS
  back := hcell 7 (by decide) ▸ h.back.frame hagree hS
  rback := hcell 8 (by decide) ▸ h.rback.frame hagree hS
  moved := by rw [hcell 9 (by decide), h.moved]
  size := by rw [hcell 10 (by decide), h.size]

theorem QueueAt.frame {s : State Nat} (h : QueueAt words S q s) (hagree : AgreeOn S words words')
    (hS : ∀ a, S a → S' a) : QueueAt words' S' q s := by
  cases s with
  | empty => exact h
  | plain head tail =>
    obtain ⟨hne, hcell, hat⟩ := h
    exact ⟨hne, fun i hi => hS _ (hcell i hi), hat.frame (fun i hi => hagree _ (hcell i hi)) hagree hS⟩
  | transfer t =>
    obtain ⟨hne, hcell, hat⟩ := h
    exact ⟨hne, fun i hi => hS _ (hcell i hi), hat.frame (fun i hi => hagree _ (hcell i hi)) hagree hS⟩

/-- Only the empty queue is `NULL_PTR`. -/
theorem QueueAt.eq_nullPtr_iff {s : State Nat} (h : QueueAt words S q s) :
    q = nullPtr ↔ s = .empty := by
  cases s with
  | empty => exact ⟨fun _ => rfl, fun _ => h⟩
  | plain head tail => exact ⟨fun hq => absurd hq h.1, fun hs => by cases hs⟩
  | transfer t => exact ⟨fun hq => absurd hq h.1, fun hs => by cases hs⟩

/-- The head of a queue that is not empty, with its number of items. -/
theorem QueueAt.head {s : State Nat} (h : QueueAt words S q s) (hs : s ≠ .empty) :
    ListAt words S (words (q + 1)) s.head ∧ words (q + 3) = s.head.length := by
  cases s with
  | empty => exact absurd rfl hs
  | plain head tail => exact ⟨h.2.2.head, h.2.2.headCount⟩
  | transfer t => exact ⟨h.2.2.head, h.2.2.headCount⟩

/-- The tail of a queue that is not empty, with its number of items. -/
theorem QueueAt.tail {s : State Nat} (h : QueueAt words S q s) (hs : s ≠ .empty) :
    ListAt words S (words (q + 2)) s.tail ∧ words (q + 4) = s.tail.length := by
  cases s with
  | empty => exact absurd rfl hs
  | plain head tail => exact ⟨h.2.2.tail, h.2.2.tailCount⟩
  | transfer t => exact ⟨h.2.2.tail, h.2.2.tailCount⟩

end frame

/-! ## cells under construction -/

/-- In `m`, reached from `m₀`, the new cell at `q` is being filled. -/
structure Building (m₀ : Memory) (q n : Nat) (type : CellType) (used : Nat) (m : Memory) :
    Prop where
  grows : m₀.Extends m
  cell_eq : q + n = m₀.allocationPtr
  used_eq : m.allocationPtr + used = m₀.allocationPtr
  le_used : n ≤ used
  fits : m₀.canAllocate used
  pos : 0 < n
  type_eq : cellType (m.words q) = type.code

namespace Building

variable {m₀ m m' : Memory} {q n used : Nat} {type : CellType}

/-- The cell is allocated. -/
theorem start (halloc : m₀.allocate n type = (q, m)) (hn : 0 < n) (hcan : m₀.canAllocate n) :
    Building m₀ q n type n m := by
  obtain ⟨rfl, rfl⟩ : (m₀.allocate n type).1 = q ∧ (m₀.allocate n type).2 = m := by simp [halloc]
  have hfit := hcan
  unfold canAllocate at hcan
  have hextends : m₀.Extends (m₀.allocate n type).2 :=
    (allocates_allocate type hn hfit).extends (by simp; omega)
  refine ⟨hextends, ?_, ?_, Nat.le_refl _, hfit, hn, ?_⟩
  · rw [allocate_fst]
    omega
  · rw [allocate_allocationPtr]
    omega
  · rw [allocate_fst, allocate_words, if_pos rfl]
    cases type <;> rfl

section

variable (h : Building m₀ q n type used m)

include h

theorem low : m.allocationPtr ≤ q := by
  have := h.cell_eq
  have := h.used_eq
  have := h.le_used
  omega

theorem ne_nullPtr : q ≠ nullPtr := by
  have hend := m₀.firstGenerationEnd_pos
  have hfits := h.fits
  have := h.cell_eq
  have := h.le_used
  unfold canAllocate at hfits
  unfold nullPtr
  omega

/-- There is room for whatever fitted into the old memory. -/
theorem canAllocate {k : Nat} (hk : m₀.canAllocate (used + k)) : m.canAllocate k := by
  have hend := h.grows.firstGenerationEnd_eq
  have := h.used_eq
  unfold Memory.canAllocate at hk ⊢
  omega

/-- What was live before is live and no part of the cell. -/
theorem outside {a : Nat} (ha : m₀.Live a) : m.Outside q n a := by
  have hfits := h.fits
  have := h.cell_eq
  have := h.le_used
  unfold Memory.canAllocate at hfits
  refine ⟨h.grows.live ha, ?_⟩
  rcases ha with ha | ha
  · exact .inl (by omega)
  · exact .inr (by omega)

/-- A list of the old memory. -/
theorem list {w : Nat} {xs : List Nat} (hw : ListAt m₀.words m₀.Live w xs) :
    ListAt m.words (m.Outside q n) w xs :=
  hw.frame h.grows.agree fun _ => h.outside

theorem live (i : Nat) : m.Live (q + i) := .inr (Nat.le_trans h.low (Nat.le_add_right _ _))

/-- The cell goes on while the memory is only filled. -/
theorem fills {k : Nat} (hfill : Fills q n m m') (hk : m'.allocationPtr + k = m.allocationPtr)
    (hfits : m₀.canAllocate (used + k)) (htype : m'.words q = m.words q) :
    Building m₀ q n type (used + k) m' where
  grows :=
    { allocationPtr_le := Nat.le_trans hfill.allocationPtr_le h.grows.allocationPtr_le
      firstGenerationEnd_eq := hfill.firstGenerationEnd_eq.trans h.grows.firstGenerationEnd_eq
      firstGenerationStart_eq :=
        hfill.firstGenerationStart_eq.trans h.grows.firstGenerationStart_eq
      agree := h.grows.agree.trans (hfill.agree.mono fun _ ha => h.outside ha) }
  cell_eq := h.cell_eq
  used_eq := by
    have := h.used_eq
    omega
  le_used := Nat.le_trans h.le_used (Nat.le_add_right _ _)
  fits := hfits
  pos := h.pos
  type_eq := by rw [htype, h.type_eq]

/-- A word of the cell is written. -/
theorem set {i : Nat} (hi : 0 < i ∧ i < n) (x : Nat) :
    Building m₀ q n type used (m.set (q + i) x) := by
  refine h.fills (k := 0) (fills_set hi.2 x) rfl h.fits ?_
  rw [set_words, if_neg (by omega)]

/-- A list cell is allocated. -/
theorem wcons {d w x : Nat} {xs : List Nat} (hwcons : wcons m x d = (w, m'))
    (hd : ListAt m.words (m.Outside q n) d xs) (hfits : m₀.canAllocate (used + 3)) :
    Building m₀ q n type (used + 3) m' ∧ Consed q n m m' ∧
      ListAt m'.words (m'.Outside q n) w (x :: xs) := by
  obtain ⟨hconsed, hlist⟩ := wcons_spec hd (h.canAllocate hfits) h.low x
  rw [hwcons] at hconsed hlist
  exact ⟨h.fills hconsed.fills hconsed.allocationPtr_eq hfits (hconsed.cell 0 h.pos), hconsed, hlist⟩

/-- The cell is filled with words. -/
theorem fillCell {i : Nat} (xs : List Nat) (hi : 0 < i) (hn : i + xs.length ≤ n) :
    Building m₀ q n type used (fillCell q i xs m) := by
  induction xs generalizing i m with
  | nil => exact h
  | cons x xs ih =>
    rw [List.length_cons] at hn
    exact ih (h.set ⟨hi, by omega⟩ x) (by omega) (by omega)

end

end Building

/-- Filling a cell writes to the cell. -/
theorem fills_fillCell {q n i : Nat} (xs : List Nat) (hn : i + xs.length ≤ n) (m : Memory) :
    Fills q n m (fillCell q i xs m) := by
  induction xs generalizing i m with
  | nil => exact .refl q n m
  | cons x xs ih =>
    rw [List.length_cons] at hn
    exact (fills_set (by omega) x).trans (ih (by omega) _)

/-! ## moving items -/

section moves

variable {m₀ m : Memory} {q used : Nat} {type : CellType}

/-- An item moves from one list of the cell to another one. -/
theorem moveItem_spec {n i j x : Nat} {xs ys : List Nat} (h : Building m₀ q n type used m)
    (hi : 0 < i ∧ i < n) (hj : 0 < j ∧ j < n) (hij : i ≠ j)
    (hfrom : ListAt m.words (m.Outside q n) (m.words (q + i)) (x :: xs))
    (hto : ListAt m.words (m.Outside q n) (m.words (q + j)) ys)
    (hfits : m₀.canAllocate (used + 3)) :
    ∃ m', moveItem i j q m = some m' ∧ Building m₀ q n type (used + 3) m' ∧ Fills q n m m' ∧
      ListAt m'.words (m'.Outside q n) (m'.words (q + i)) xs ∧
      ListAt m'.words (m'.Outside q n) (m'.words (q + j)) (x :: ys) ∧
      ∀ k < n, k ≠ i → k ≠ j → m'.words (q + k) = m.words (q + k) := by
  obtain ⟨w, m₁, hwcons⟩ : ∃ w m₁, wcons m x (m.words (q + j)) = (w, m₁) := ⟨_, _, rfl⟩
  obtain ⟨hb, hconsed, hlist⟩ := h.wcons hwcons hto hfits
  have hset := fills_set (m := m₁) (q := q) hj.2 w
  have hcell : (m₁.set (q + j) w).words (q + i) = m.words (q + i) := by
    rw [set_words, if_neg (by omega), hconsed.cell i hi.2]
  have hfrom' := (hfrom.fills hconsed.fills).fills hset
  rw [← hcell] at hfrom'
  obtain ⟨d, hd, hrest⟩ := hfrom'.wcdr_eq
  have hset' := fills_set (m := m₁.set (q + j) w) (q := q) hi.2 d
  refine ⟨(m₁.set (q + j) w).set (q + i) d, ?_, (hb.set hj w).set hi d,
    (hconsed.fills.trans hset).trans hset', ?_, ?_, fun k hk hki hkj => ?_⟩
  · simp only [moveItem, hfrom.wcar_eq, Option.bind_eq_bind, Option.bind_some, hwcons, hd]
  · have hrest' := hrest.fills hset'
    rwa [set_words, if_pos rfl]
  · have hlist' := (hlist.fills hset).fills hset'
    rwa [set_words, if_neg (by omega), set_words, if_pos rfl]
  · rw [set_words, if_neg (by omega), set_words, if_neg (by omega), hconsed.cell k hk]

variable {t : Transfer Nat}

/-- The transfer in the new cell. -/
structure TransferBuilding (m₀ : Memory) (q used : Nat) (t : Transfer Nat) (m : Memory) :
    Prop where
  building : Building m₀ q 11 .queueRev used m
  transfer : TransferAt m.words (m.Outside q 11) q t

/-- A list of the cell that a move does not concern. -/
theorem list_of_cell {i n : Nat} {m' : Memory} {xs : List Nat}
    (h : ListAt m.words (m.Outside q n) (m.words (q + i)) xs) (hfill : Fills q n m m')
    (hcell : m'.words (q + i) = m.words (q + i)) :
    ListAt m'.words (m'.Outside q n) (m'.words (q + i)) xs := by
  rw [hcell]
  exact h.fills hfill

/-- `moveItem 5 6` reverses an item of the old head. -/
theorem moveFront_spec (h : TransferBuilding m₀ q used t m) (hfront : t.front ≠ [])
    (hfits : m₀.canAllocate (used + 3)) :
    ∃ m', moveItem 5 6 q m = some m' ∧
      TransferBuilding m₀ q (used + 3) (t.reverseFront 1) m' := by
  obtain ⟨hb, ht⟩ := h
  obtain ⟨x, xs, hcons⟩ := List.exists_cons_of_ne_nil hfront
  have hfrom := ht.front
  rw [hcons] at hfrom
  obtain ⟨m', hrun, hb', hfill, hxs, hys, hcell⟩ :=
    moveItem_spec hb (by decide) (by decide) (by decide) hfrom ht.rfront hfits
  refine ⟨m', hrun, hb', ?_⟩
  exact
    { type := hb'.type_eq
      head := list_of_cell ht.head hfill (hcell 1 (by decide) (by decide) (by decide))
      tail := list_of_cell ht.tail hfill (hcell 2 (by decide) (by decide) (by decide))
      headCount := (hcell 3 (by decide) (by decide) (by decide)).trans ht.headCount
      tailCount := (hcell 4 (by decide) (by decide) (by decide)).trans ht.tailCount
      front := by simpa [Transfer.reverseFront, hcons] using hxs
      rfront := by simpa [Transfer.reverseFront, hcons] using hys
      back := list_of_cell ht.back hfill (hcell 7 (by decide) (by decide) (by decide))
      rback := list_of_cell ht.rback hfill (hcell 8 (by decide) (by decide) (by decide))
      moved := (hcell 9 (by decide) (by decide) (by decide)).trans ht.moved
      size := (hcell 10 (by decide) (by decide) (by decide)).trans ht.size }

/-- `moveItem 7 8` reverses an item of the old tail. -/
theorem moveBack_spec (h : TransferBuilding m₀ q used t m) (hback : t.back ≠ [])
    (hfits : m₀.canAllocate (used + 3)) :
    ∃ m', moveItem 7 8 q m = some m' ∧
      TransferBuilding m₀ q (used + 3) (t.reverseBack 1) m' := by
  obtain ⟨hb, ht⟩ := h
  obtain ⟨x, xs, hcons⟩ := List.exists_cons_of_ne_nil hback
  have hfrom := ht.back
  rw [hcons] at hfrom
  obtain ⟨m', hrun, hb', hfill, hxs, hys, hcell⟩ :=
    moveItem_spec hb (by decide) (by decide) (by decide) hfrom ht.rback hfits
  refine ⟨m', hrun, hb', ?_⟩
  exact
    { type := hb'.type_eq
      head := list_of_cell ht.head hfill (hcell 1 (by decide) (by decide) (by decide))
      tail := list_of_cell ht.tail hfill (hcell 2 (by decide) (by decide) (by decide))
      headCount := (hcell 3 (by decide) (by decide) (by decide)).trans ht.headCount
      tailCount := (hcell 4 (by decide) (by decide) (by decide)).trans ht.tailCount
      front := list_of_cell ht.front hfill (hcell 5 (by decide) (by decide) (by decide))
      rfront := list_of_cell ht.rfront hfill (hcell 6 (by decide) (by decide) (by decide))
      back := by simpa [Transfer.reverseBack, hcons] using hxs
      rback := by simpa [Transfer.reverseBack, hcons] using hys
      moved := (hcell 9 (by decide) (by decide) (by decide)).trans ht.moved
      size := (hcell 10 (by decide) (by decide) (by decide)).trans ht.size }

/-- An item of the reversed head is moved. -/
theorem restoreItem_spec (h : TransferBuilding m₀ q used t m) (hrfront : t.rfront ≠ [])
    (hfits : m₀.canAllocate (used + 3)) :
    ∃ m', restoreItem q m = some m' ∧ TransferBuilding m₀ q (used + 3) (t.restore 1) m' := by
  obtain ⟨hb, ht⟩ := h
  obtain ⟨x, xs, hcons⟩ := List.exists_cons_of_ne_nil hrfront
  have hfrom := ht.rfront
  rw [hcons] at hfrom
  obtain ⟨m', hrun, hb', hfill, hxs, hys, hcell⟩ :=
    moveItem_spec hb (by decide) (by decide) (by decide) hfrom ht.rback hfits
  have hcount : m'.words (q + 9) = t.moved :=
    (hcell 9 (by decide) (by decide) (by decide)).trans ht.moved
  have hset := fills_set (m := m') (q := q) (show 9 < 11 by decide) (m'.words (q + 9) + 1)
  have hfill' := hfill.trans hset
  have hkeep : ∀ k < 11, k ≠ 6 → k ≠ 8 → k ≠ 9 →
      (m'.set (q + 9) (m'.words (q + 9) + 1)).words (q + k) = m.words (q + k) := by
    intro k hk h6 h8 h9
    rw [set_words, if_neg (by omega), hcell k hk h6 h8]
  have hsame : ∀ k, k ≠ 9 →
      (m'.set (q + 9) (m'.words (q + 9) + 1)).words (q + k) = m'.words (q + k) := by
    intro k hk
    rw [set_words, if_neg (by omega)]
  refine ⟨m'.set (q + 9) (m'.words (q + 9) + 1), by simp [restoreItem, hrun],
    hb'.set (by decide) _, ?_⟩
  exact
    { type := (hb'.set (i := 9) (by decide) _).type_eq
      head := list_of_cell ht.head hfill' (hkeep 1 (by decide) (by decide) (by decide) (by decide))
      tail := list_of_cell ht.tail hfill' (hkeep 2 (by decide) (by decide) (by decide) (by decide))
      headCount := (hkeep 3 (by decide) (by decide) (by decide) (by decide)).trans ht.headCount
      tailCount := (hkeep 4 (by decide) (by decide) (by decide) (by decide)).trans ht.tailCount
      front := list_of_cell ht.front hfill' (hkeep 5 (by decide) (by decide) (by decide) (by decide))
      rfront := by
        have := list_of_cell hxs hset (hsame 6 (by decide))
        simpa [Transfer.restore, hcons] using this
      back := list_of_cell ht.back hfill' (hkeep 7 (by decide) (by decide) (by decide) (by decide))
      rback := by
        have := list_of_cell hys hset (hsame 8 (by decide))
        simpa [Transfer.restore, hcons] using this
      moved := by rw [set_words, if_pos rfl, hcount]; rfl
      size := (hkeep 10 (by decide) (by decide) (by decide) (by decide)).trans ht.size }

/-- The loop that starts a transfer. -/
theorem reverseLoop_spec {n : Nat} (h : TransferBuilding m₀ q used t m) (hfront : n ≤ t.front.length)
    (hback : n ≤ t.back.length) (hfits : m₀.canAllocate (used + 6 * n)) :
    ∃ m', reverseLoop q n m = some m' ∧
      TransferBuilding m₀ q (used + 6 * n) (t.reverse n) m' := by
  induction n generalizing t m used with
  | zero => exact ⟨m, rfl, h⟩
  | succ n ih =>
    unfold canAllocate at hfits
    obtain ⟨m₁, hrun₁, h₁⟩ := moveFront_spec h (List.ne_nil_of_length_pos (by omega))
      (by unfold canAllocate; omega)
    obtain ⟨m₂, hrun₂, h₂⟩ := moveBack_spec h₁
      (List.ne_nil_of_length_pos (show 0 < t.back.length by omega)) (by unfold canAllocate; omega)
    have hlen : ((t.reverseFront 1).reverseBack 1).front.length = t.front.length - 1 ∧
        ((t.reverseFront 1).reverseBack 1).back.length = t.back.length - 1 := by
      simp [Transfer.reverseFront, Transfer.reverseBack]
    obtain ⟨m₃, hrun₃, h₃⟩ := ih h₂ (by omega) (by omega) (by unfold canAllocate; omega)
    refine ⟨m₃, by simp [reverseLoop, hrun₁, hrun₂, hrun₃], ?_⟩
    have hsum : (t.reverse 1).reverse n = t.reverse (n + 1) := by
      rw [Transfer.reverse_reverse, Nat.add_comm]
    rw [show used + 3 + 3 + 6 * n = used + 6 * (n + 1) by omega] at h₃
    rw [← hsum]
    exact h₃

/-- The loop of the second phase. -/
theorem restoreLoop_spec {n : Nat} (h : TransferBuilding m₀ q used t m)
    (hrfront : t.head.length ≤ t.moved + t.rfront.length) (hfits : m₀.canAllocate (used + 3 * n)) :
    ∃ m' used', restoreLoop q n m = some m' ∧ used' ≤ used + 3 * n ∧
      TransferBuilding m₀ q used' (t.restore (min n (t.head.length - t.moved))) m' := by
  induction n generalizing t m used with
  | zero => exact ⟨m, used, rfl, Nat.le_refl _, by rwa [Nat.zero_min]⟩
  | succ n ih =>
    unfold canAllocate at hfits
    unfold restoreLoop
    rw [h.transfer.moved, h.transfer.headCount]
    by_cases hlt : t.moved < t.head.length
    · obtain ⟨m₁, hrun₁, h₁⟩ := restoreItem_spec h (List.ne_nil_of_length_pos (by omega))
        (by unfold canAllocate; omega)
      have hlen : (t.restore 1).rfront.length = t.rfront.length - 1 ∧
          (t.restore 1).moved = t.moved + 1 ∧ (t.restore 1).head = t.head := by
        simp [Transfer.restore]
      obtain ⟨m₂, used', hrun₂, hused, h₂⟩ := ih h₁ (by rw [hlen.2.2]; omega)
        (by unfold canAllocate; omega)
      refine ⟨m₂, used', by simp [if_pos hlt, hrun₁, hrun₂], by omega, ?_⟩
      rw [Transfer.restore_restore, hlen.2.1, hlen.2.2] at h₂
      rwa [show min (n + 1) (t.head.length - t.moved) =
        1 + min n (t.head.length - (t.moved + 1)) by omega]
    · refine ⟨m, used, by rw [if_neg hlt], by omega, ?_⟩
      rwa [show min (n + 1) (t.head.length - t.moved) = 0 by omega]

end moves

/-! ## finished cells -/

/-- A call has the queue `s` as its result, made of new cells of at most
`QUEUE_MAX_ALLOCATION` words. -/
def Returns (m : Memory) (s : State Nat) (r : Option (Nat × Memory)) : Prop :=
  ∃ q m', r = some (q, m') ∧ m.Extends m' ∧
    m.allocationPtr ≤ m'.allocationPtr + queueMaxAllocation ∧ QueueAt m'.words m'.Live q s

section finish

variable {m₀ m : Memory} {q used s : Nat} {t : Transfer Nat}

/-- A cell of type `CELL_queue` is filled. -/
theorem queueAt_plain {w w' : Nat} {xs ys : List Nat} (h : Building m₀ q 5 .queue used m)
    (hxs : ListAt m.words (m.Outside q 5) w xs) (hys : ListAt m.words (m.Outside q 5) w' ys) :
    QueueAt (fillCell q 1 [w, w', xs.length, ys.length] m).words
      (fillCell q 1 [w, w', xs.length, ys.length] m).Live q (.plain xs ys) := by
  have hb := h.fillCell (i := 1) [w, w', xs.length, ys.length] (by decide) (Nat.le_refl 5)
  have hfill := fills_fillCell (q := q) (i := 1) [w, w', xs.length, ys.length] (Nat.le_refl 5) m
  have hword : ∀ j x, [w, w', xs.length, ys.length][j]? = some x →
      (fillCell q 1 [w, w', xs.length, ys.length] m).words (q + (1 + j)) = x :=
    fun j x hj => fillCell_words m hj
  refine ⟨hb.ne_nullPtr, fun i _ => hb.live i, ?_⟩
  exact
    { type := hb.type_eq
      head := by
        rw [hword 0 w rfl]
        exact (hxs.fills hfill).frame (fun _ _ => rfl) fun _ ha => ha.1
      tail := by
        rw [hword 1 w' rfl]
        exact (hys.fills hfill).frame (fun _ _ => rfl) fun _ ha => ha.1
      headCount := hword 2 _ rfl
      tailCount := hword 3 _ rfl }

theorem returns_plain {w w' : Nat} {xs ys : List Nat} (h : Building m₀ q 5 .queue used m)
    (hused : used ≤ queueMaxAllocation)
    (hxs : ListAt m.words (m.Outside q 5) w xs) (hys : ListAt m.words (m.Outside q 5) w' ys) :
    Returns m₀ (.plain xs ys) (some (q, fillCell q 1 [w, w', xs.length, ys.length] m)) := by
  have hb := h.fillCell (i := 1) [w, w', xs.length, ys.length] (by decide) (Nat.le_refl 5)
  have hptr := hb.used_eq
  exact ⟨q, _, rfl, hb.grows, by omega, queueAt_plain h hxs hys⟩

/-- A cell of type `CELL_queue_rev` is filled. -/
theorem transferBuilding_fillCell {wHead wTail wFront wRfront wBack wRback : Nat}
    (h : Building m₀ q 11 .queueRev used m)
    (hhead : ListAt m.words (m.Outside q 11) wHead t.head)
    (htail : ListAt m.words (m.Outside q 11) wTail t.tail)
    (hfront : ListAt m.words (m.Outside q 11) wFront t.front)
    (hrfront : ListAt m.words (m.Outside q 11) wRfront t.rfront)
    (hback : ListAt m.words (m.Outside q 11) wBack t.back)
    (hrback : ListAt m.words (m.Outside q 11) wRback t.rback) :
    TransferBuilding m₀ q used t (fillCell q 1 [wHead, wTail, t.head.length, t.tail.length, wFront,
      wRfront, wBack, wRback, t.moved, t.size] m) := by
  generalize hws : [wHead, wTail, t.head.length, t.tail.length, wFront, wRfront, wBack, wRback,
    t.moved, t.size] = ws
  have hlen : ws.length = 10 := by rw [← hws]; rfl
  have hb := h.fillCell (i := 1) ws (by decide) (by omega)
  have hfill := fills_fillCell (q := q) (i := 1) (n := 11) ws (by omega) m
  have hword : ∀ j x, ws[j]? = some x → (fillCell q 1 ws m).words (q + (1 + j)) = x :=
    fun j x hj => fillCell_words m hj
  have hlist : ∀ j w xs, ws[j]? = some w → ListAt m.words (m.Outside q 11) w xs →
      ListAt (fillCell q 1 ws m).words ((fillCell q 1 ws m).Outside q 11)
        ((fillCell q 1 ws m).words (q + (1 + j))) xs := by
    intro j w xs hj hxs
    rw [hword j w hj]
    exact hxs.fills hfill
  subst hws
  exact ⟨hb,
    { type := hb.type_eq
      head := hlist 0 _ _ rfl hhead
      tail := hlist 1 _ _ rfl htail
      headCount := hword 2 _ rfl
      tailCount := hword 3 _ rfl
      front := hlist 4 _ _ rfl hfront
      rfront := hlist 5 _ _ rfl hrfront
      back := hlist 6 _ _ rfl hback
      rback := hlist 7 _ _ rfl hrback
      moved := hword 8 _ rfl
      size := hword 9 _ rfl }⟩

theorem returns_transfer (h : TransferBuilding m₀ q used t m) (hused : used ≤ queueMaxAllocation) :
    Returns m₀ (.transfer t) (some (q, m)) := by
  obtain ⟨hb, ht⟩ := h
  have hptr := hb.used_eq
  exact ⟨q, m, rfl, hb.grows, by omega, hb.ne_nullPtr, fun i _ => hb.live i,
    ht.frame (fun _ _ => rfl) (fun _ _ => rfl) fun _ ha => ha.1⟩

/-- What is moved in the second phase. -/
theorem restoreItems_spec (h : TransferBuilding m₀ q used t m)
    (hrfront : t.head.length ≤ t.moved + t.rfront.length) (hfits : m₀.canAllocate (used + 9)) :
    ∃ m' used', restoreItems q t.moved m = some m' ∧ used' ≤ used + 9 ∧
      TransferBuilding m₀ q used' (t.restore t.steps) m' := by
  unfold canAllocate at hfits
  unfold restoreItems Transfer.steps
  rw [h.transfer.headCount]
  by_cases hodd : t.moved = 0 ∧ t.head.length % 2 = 1
  · obtain ⟨m₁, hrun₁, h₁⟩ := restoreItem_spec h (List.ne_nil_of_length_pos (by omega))
      (by unfold canAllocate; omega)
    have hlen : (t.restore 1).rfront.length = t.rfront.length - 1 ∧
        (t.restore 1).moved = 1 ∧ (t.restore 1).head = t.head := by
      simp [Transfer.restore, hodd.1]
    obtain ⟨m₂, used₂, hrun₂, hused₂, h₂⟩ := restoreLoop_spec (n := 2) h₁
      (by rw [hlen.2.2]; omega) (by unfold canAllocate; omega)
    rw [Transfer.restore_restore, hlen.2.1, hlen.2.2] at h₂
    rw [if_pos (show t.moved = 0 ∧ t.head.length % 2 ≠ 0 by omega), if_pos hodd, hrun₁]
    exact ⟨m₂, used₂, hrun₂, by omega, h₂⟩
  · obtain ⟨m₂, used₂, hrun₂, hused₂, h₂⟩ := restoreLoop_spec (n := 2) h (by omega)
      (by unfold canAllocate; omega)
    rw [if_neg (show ¬ (t.moved = 0 ∧ t.head.length % 2 ≠ 0) by omega), if_neg hodd]
    exact ⟨m₂, used₂, hrun₂, by omega, h₂⟩

/-- A transfer whose items are all moved becomes a plain queue. -/
theorem completeTransfer_spec (h : TransferBuilding m₀ q used t m) (hrun : t.Running s)
    (hfront : t.front = []) (hused : used + 5 ≤ queueMaxAllocation)
    (hfits : m₀.canAllocate (used + 5)) :
    Returns m₀ (if t.head.length = t.moved then .plain t.rback t.tail else .transfer t)
      (some (completeTransfer q m)) := by
  obtain ⟨hb, ht⟩ := h
  unfold completeTransfer
  rw [ht.headCount, ht.moved]
  by_cases hdone : t.head.length = t.moved
  · have hlen : t.rback.length = t.head.length + t.size + 1 := by
      have hwindow := hrun.length_window
      rw [hrun.complete hfront hdone, List.length_append, List.length_drop, hwindow]
      omega
    obtain ⟨p, m₁, halloc⟩ : ∃ p m₁, m.allocate wordsInQueueHeader .queue = (p, m₁) := ⟨_, _, rfl⟩
    have hb' := Building.start halloc (by decide) (hb.canAllocate hfits)
    have hword : ∀ i, m₁.words (q + i) = m.words (q + i) :=
      fun i => hb'.grows.agree _ (hb.live i)
    have hlive : ∀ {w xs}, ListAt m.words (m.Outside q 11) w xs → ListAt m.words m.Live w xs :=
      fun hw => hw.frame (fun _ _ => rfl) fun _ ha => ha.1
    have hat := queueAt_plain hb' (hb'.list (hlive ht.rback)) (hb'.list (hlive ht.tail))
    have hb'' := hb'.fillCell (i := 1) [m.words (q + 8), m.words (q + 2), t.rback.length,
      t.tail.length] (by decide) (Nat.le_refl 5)
    have hptr := hb.used_eq
    have hptr' := hb''.used_eq
    unfold wordsInQueueHeader at hptr'
    rw [if_pos hdone, if_pos hdone, halloc]
    simp only [hword, ht.headCount, ht.size, ht.tailCount, ← hlen]
    exact ⟨p, _, rfl, hb.grows.trans hb''.grows, by omega, hat⟩
  · have hptr := hb.used_eq
    rw [if_neg hdone, if_neg hdone]
    exact returns_transfer ⟨hb, ht⟩ (by omega)

/-- The common end of the operations on a queue in a transfer. -/
theorem proceedTransfer_spec (h : TransferBuilding m₀ q used t m) (hrun : t.Running 2)
    (hused : used + 14 ≤ queueMaxAllocation) (hfits : m₀.canAllocate queueMaxAllocation) :
    Returns m₀ t.advance (proceedTransfer q t.moved m) := by
  have hprogress := hrun.progress
  have hhead := hrun.head_le
  have hback := hrun.front_eq
  have hfits' : ∀ k, k ≤ queueMaxAllocation → m₀.canAllocate k := by
    unfold canAllocate at hfits ⊢
    intro k hk
    omega
  unfold proceedTransfer Transfer.advance
  by_cases hfront : t.front = []
  · have hnull := h.transfer.front.eq_nullWord_iff.mpr hfront
    have hbacknil : t.back = [] := List.eq_nil_of_length_eq_zero (by rw [← hback, hfront]; rfl)
    have hnull' := h.transfer.back.eq_nullWord_iff.mpr hbacknil
    rw [hfront, List.length_nil] at hprogress
    obtain ⟨m₂, used₂, hmoves, hused₂, h₂⟩ := restoreItems_spec h (by omega)
      (hfits' _ (by omega))
    have hrun₂ := hrun.restore (s := 2) hfront (by omega)
    rw [if_pos hnull, if_pos hfront]
    simp only [assert_true hnull', hmoves, Option.bind_eq_bind, Option.bind_some]
    exact completeTransfer_spec h₂ hrun₂ hfront (by omega) (hfits' _ (by omega))
  · have hpos := List.length_pos_of_ne_nil hfront
    have heven := hrun.even
    have hnull : m.words (q + 5) ≠ nullWord :=
      fun hnull => hfront (h.transfer.front.eq_nullWord_iff.mp hnull)
    obtain ⟨m₁, hrun₁, h₁⟩ := moveFront_spec h hfront (hfits' _ (by omega))
    obtain ⟨m₂, hrun₂, h₂⟩ := moveFront_spec h₁
      (List.ne_nil_of_length_pos (by simp [Transfer.reverseFront]; omega)) (hfits' _ (by omega))
    rw [Transfer.reverseFront_reverseFront] at h₂
    obtain ⟨m₃, hrun₃, h₃⟩ := moveBack_spec h₂
      (List.ne_nil_of_length_pos (by simp [Transfer.reverseFront]; omega)) (hfits' _ (by omega))
    obtain ⟨m₄, hrun₄, h₄⟩ := moveBack_spec h₃
      (List.ne_nil_of_length_pos (by simp [Transfer.reverseFront, Transfer.reverseBack]; omega))
      (hfits' _ (by omega))
    rw [Transfer.reverseBack_reverseBack] at h₄
    rw [if_neg hnull, if_neg hfront]
    simp only [hrun₁, hrun₂, hrun₃, hrun₄, Option.bind_eq_bind, Option.bind_some]
    exact returns_transfer h₄ (by omega)

end finish

end Shades
