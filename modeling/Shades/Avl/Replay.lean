import Shades.Avl.ByteCode
import Shades.Avl.Versions

/-!
# Shades.Avl.Replay

A history in memory is the path to a leaf, whose nodes are the old ones.
Replaying it rebuilds all nodes of the path, so it makes the same tree as the
direct operations do, which stop at the first rotation of an insertion.

A deletion that rotates at the root is the exception: there `avl_delete`
returns the old root and `avl_bc_delete` the new one.
-/

namespace Shades

open Memory AvlTree

variable {κ : Type} {rank : Nat → κ}

/-! ## histories in memory -/

/-- The words of a cell of a history. -/
structure HistoryCellAt (words : Nat → Nat) (q way node next : Nat) : Prop where
  ne_null : q ≠ nullPtr
  header : words q = CellType.history.header + way
  node : words (q + 1) = ptrToWord node
  next : words (q + 2) = ptrToWord next

/-- A node that was passed; the subtree that was entered may be anything. -/
structure OldFrame (rank : Nat → κ) (words : Nat → Nat) (S : Nat → Prop) (p : Nat)
    (f : Frame κ Nat) : Prop where
  cell : ∀ i < 4, S (p + i)
  router : rank (wordToPtr (words (p + 1))) = f.router
  sibling : ∃ ps, words (p + if f.goLeft then 3 else 2) = ptrToWord ps ∧
    AvlAt rank words S ps f.sibling

/-- The lowest node comes first. -/
inductive HistoryAt (rank : Nat → κ) (words : Nat → Nat) (S : Nat → Prop) :
    Nat → List (Frame κ Nat) → Prop
  | nil : HistoryAt rank words S nullPtr []
  | cons {q p next : Nat} {f : Frame κ Nat} {fs : List (Frame κ Nat)}
      (hcell : HistoryCellAt words q (if f.goLeft then 2 else 3) p next)
      (hS : ∀ i < 3, S (q + i)) (hframe : OldFrame rank words S p f)
      (hrest : HistoryAt rank words S next fs) : HistoryAt rank words S q (f :: fs)

section history

variable {words words' : Nat → Nat} {S S' : Nat → Prop} {m m' : Memory} {q p way node next : Nat}
variable {f : Frame κ Nat} {fs : List (Frame κ Nat)}

theorem HistoryCellAt.congr (h : HistoryCellAt words q way node next)
    (hw : ∀ i < 3, words' (q + i) = words (q + i)) : HistoryCellAt words' q way node next where
  ne_null := h.ne_null
  header := (hw 0 (by decide)).trans h.header
  node := (hw 1 (by decide)).trans h.node
  next := (hw 2 (by decide)).trans h.next

theorem OldFrame.frame (h : OldFrame rank words S p f) (hagree : AgreeOn S words words')
    (hS : ∀ a, S a → S' a) : OldFrame rank words' S' p f where
  cell := fun i hi => hS _ (h.cell i hi)
  router := by rw [hagree _ (h.cell 1 (by decide)), h.router]
  sibling := by
    obtain ⟨ps, hps, ht⟩ := h.sibling
    refine ⟨ps, ?_, ht.frame hagree hS⟩
    rw [hagree _ (h.cell _ (by split <;> decide)), hps]

theorem HistoryAt.frame (h : HistoryAt rank words S q fs) (hagree : AgreeOn S words words')
    (hS : ∀ a, S a → S' a) : HistoryAt rank words' S' q fs := by
  induction h with
  | nil => exact .nil
  | cons hcell hq hframe _ ih =>
    exact .cons (hcell.congr fun i hi => hagree _ (hq i hi)) (fun i hi => hS _ (hq i hi))
      (hframe.frame hagree hS) ih

theorem HistoryAt.extends (h : HistoryAt rank m.words m.Live q fs) (hext : m.Extends m') :
    HistoryAt rank m'.words m'.Live q fs := h.frame hext.agree fun _ => hext.live

theorem AvlAt.extends {t : AvlTree κ Nat} (h : AvlAt rank m.words m.Live p t)
    (hext : m.Extends m') : AvlAt rank m'.words m'.Live p t :=
  h.frame hext.agree fun _ => hext.live

/-- The way of a cell is read off from its lowest bits. -/
theorem HistoryCellAt.way_eq (h : HistoryCellAt words q way node next) (hway : way < 16) :
    words q &&& 0xF = way := by
  rw [h.header, show 0xF = 2 ^ 4 - 1 by decide, and_mask, CellType.header_eq]
  omega

/-- A new cell of a history. -/
theorem avlBcDelve_spec (way : Nat) (hcan : m.canAllocate 3) (hway : way < 16)
    (history node : Nat) :
    ∃ q m', avlBcDelve way m history node = (q, m') ∧ m.Extends m' ∧
      m'.allocationPtr + 3 = m.allocationPtr ∧ (∀ i < 3, m'.Live (q + i)) ∧
      HistoryCellAt m'.words q way node history := by
  have hend := m.firstGenerationEnd_pos
  obtain ⟨q, hq⟩ : ∃ q, q = m.allocationPtr - 3 := ⟨_, rfl⟩
  obtain ⟨m', hm'⟩ : ∃ m', m' = (((m.allocate 3 .history).2.set (q + 1) (ptrToWord node)).set q
    (CellType.history.header ||| way)).set (q + 2) (ptrToWord history) := ⟨_, rfl⟩
  have hfun : avlBcDelve way m history node = (q, m') := by
    have hheader : ((m.allocate 3 .history).2.set (q + 1) (ptrToWord node)).words q =
        CellType.history.header := by
      rw [set_words, if_neg (by omega), allocate_words, if_pos hq]
    rw [hm', ← hheader, hq]
    rfl
  have hptr : m'.allocationPtr = q := by
    rw [hm', hq]
    rfl
  have hall : m.Allocates m' := by
    unfold Memory.canAllocate at hcan
    rw [hm']
    refine (((allocates_allocate .history (by decide) hcan).set ?_ _).set ?_ _).set ?_ _
    all_goals
      simp only [set_allocationPtr, allocate_allocationPtr]
      omega
  have hfge := hall.firstGenerationEnd_eq
  unfold Memory.canAllocate at hcan
  refine ⟨q, m', hfun, hall.extends (by omega), by omega, fun i hi => .inr (by omega), ?_, ?_, ?_,
    ?_⟩
  · show q ≠ 0
    omega
  · rw [← header_or_add (c := .history) (Nat.lt_trans hway (by decide))]
    simp [hm']
  · simp [hm']
  · simp [hm']

end history

/-! ## building histories -/

section build

variable [LinearOrder κ] {m : Memory} {p history key : Nat} {t : AvlTree κ Nat}
variable {fs : List (Frame κ Nat)}

/-- The history that is built is the path to the leaf where the key belongs. -/
theorem buildHistoryLoop_spec {n : Nat} (key : Nat) (ht : AvlAt rank m.words m.Live p t)
    (hhist : HistoryAt rank m.words m.Live history fs) (havl : t.Avl) (hn : t.height ≤ n)
    (hcan : m.canAllocate (3 * t.height)) :
    ∃ pl history' m', buildHistoryLoop (rankCmp rank) key n m history p =
        some (.leaf pl history', m') ∧ m.Extends m' ∧
      m.allocationPtr ≤ m'.allocationPtr + 3 * t.height ∧
      HistoryAt rank m'.words m'.Live history' (descend (rank key) t fs).1 ∧
      AvlAt rank m'.words m'.Live pl
        (.leaf (descend (rank key) t fs).2.1 (descend (rank key) t fs).2.2) := by
  induction t generalizing m p history fs n with
  | leaf k d =>
    obtain ⟨kw, -, hleaf, -⟩ := ht.leaf_inv
    obtain ⟨hint, htype⟩ := hleaf.not_internal
    refine ⟨p, history, m, ?_, .refl m, Nat.le_add_right _ _, hhist, ht⟩
    unfold buildHistoryLoop
    rw [if_neg (by simp [hint]), assert_true htype]
    rfl
  | node h k l r ihl ihr =>
    obtain ⟨rfl, -, -, hl, hr⟩ := havl
    have hheight := heightOf_le l r
    rw [height_node] at hn hcan ⊢
    obtain ⟨n, rfl⟩ : ∃ j, n = j + 1 := ⟨n - 1, by omega⟩
    have hcan' := hcan
    unfold Memory.canAllocate at hcan'
    cases ht with
    | @node _ _ keyw pl pr _ _ hnode hS htl htr =>
      unfold buildHistoryLoop
      rw [if_pos hnode.internal]
      simp only [hnode.key]
      rcases rankCmp_cases rank key (wordToPtr keyw) with ⟨hle, hcmp⟩ | ⟨hgt, hcmp⟩
      · obtain ⟨q, m₁, hdelve, hext, hptr, hlive, hcell⟩ := avlBcDelve_spec (m := m) 2
          (canAllocate_mono hcan (by omega)) (by decide) history p
        have hframe : OldFrame rank m.words m.Live p
            ⟨heightOf l r, rank (wordToPtr keyw), true, r⟩ :=
          ⟨hS, congrArg _ (congrArg _ hnode.key), pr, hnode.right, htr⟩
        have hend := hext.firstGenerationEnd_eq
        have hson := hext.agree _ (hS 2 (by decide))
        obtain ⟨pl', history', m', hrun, hext', hptr', hhist', hleaf⟩ := ihl (htl.extends hext)
          (.cons hcell hlive (hframe.frame hext.agree fun _ => hext.live) (hhist.extends hext)) hl
          (n := n) (by omega) (by unfold Memory.canAllocate; omega)
        refine ⟨pl', history', m', ?_, hext.trans hext', by omega, ?_, ?_⟩
        · rcases hcmp with hcmp | hcmp
          all_goals
            rw [hcmp]
            simp only [avlBcDelveLeft, hdelve, hson, hnode.left, wordToPtr_ptrToWord]
            exact hrun
        all_goals
          unfold descend
          rw [if_pos hle]
          assumption
      · obtain ⟨q, m₁, hdelve, hext, hptr, hlive, hcell⟩ := avlBcDelve_spec (m := m) 3
          (canAllocate_mono hcan (by omega)) (by decide) history p
        have hframe : OldFrame rank m.words m.Live p
            ⟨heightOf l r, rank (wordToPtr keyw), false, l⟩ :=
          ⟨hS, congrArg _ (congrArg _ hnode.key), pl, hnode.left, htl⟩
        have hend := hext.firstGenerationEnd_eq
        have hson := hext.agree _ (hS 3 (by decide))
        obtain ⟨pl', history', m', hrun, hext', hptr', hhist', hleaf⟩ := ihr (htr.extends hext)
          (.cons hcell hlive (hframe.frame hext.agree fun _ => hext.live) (hhist.extends hext)) hr
          (n := n) (by omega) (by unfold Memory.canAllocate; omega)
        refine ⟨pl', history', m', ?_, hext.trans hext', by omega, ?_, ?_⟩
        · rw [hcmp]
          simp only [avlBcDelveRight, hdelve, hson, hnode.right, wordToPtr_ptrToWord]
          exact hrun
        all_goals
          unfold descend
          rw [if_neg hgt]
          assumption

end build

/-! ## one node of the history -/

section node

variable {m : Memory} {q p history px : Nat} {f : Frame κ Nat} {fs : List (Frame κ Nat)}
variable {o x : AvlTree κ Nat}

/-- A copy of a node is a new internal node. -/
theorem newPathItem_eq {ix : Nat} (hix : ix = 2 ∨ ix = 3) (hcan : m.canAllocate 4)
    (hp : ∀ i < 4, m.Live (p + i)) (px : Nat) :
    newPathItem m p ix px = newAvlInternal m (m.words (p + 1))
      (if ix = 2 then ptrToWord px else m.words (p + 2))
      (if ix = 2 then m.words (p + 3) else ptrToWord px) := by
  have hfar : ∀ i < 4, ∀ j < 4, p + i ≠ m.allocationPtr - 4 + j := by
    intro i hi j hj
    have hlive := hp i hi
    unfold Memory.canAllocate at hcan
    unfold Memory.Live at hlive
    omega
  have hold : ∀ i < 4, (m.allocate 4 .avlInternal).2.words (p + i) = m.words (p + i) :=
    fun i hi => if_neg (hfar i hi 0 (by decide))
  have hfield : ∀ {ma : Memory} {w i j : Nat}, i < 4 → j < 4 →
      (ma.set (m.allocationPtr - 4 + j) w).words (p + i) = ma.words (p + i) :=
    fun hi hj => if_neg (hfar _ hi _ hj)
  have hone := hold 1 (by decide)
  unfold newPathItem newAvlInternal
  simp only [allocate_fst]
  rcases hix with rfl | rfl
  · have hthree := hold 3 (by decide)
    simp only [hone, hthree, hfield (i := 3) (j := 2) (by decide) (by decide),
      hfield (i := 3) (j := 1) (by decide) (by decide), if_true, Nat.reduceAdd, Nat.reduceMod]
  · have htwo := hold 2 (by decide)
    have hne : m.allocationPtr - 4 + 3 ≠ m.allocationPtr - 4 + 2 := by omega
    simp only [hone, htwo, hfield (i := 2) (j := 3) (by decide) (by decide),
      hfield (i := 2) (j := 1) (by decide) (by decide), Nat.reduceAdd, Nat.reduceMod,
      set_comm hne, Nat.reduceEqDiff, if_false]

/-- A new internal node that may be rotated next. -/
theorem newAvlInternal_topNode {pl pr : Nat} {l r : AvlTree κ Nat} (key : Nat)
    (hcan : m.canAllocate 4) (hh : heightOf l r < 2 ^ 24) (hl : AvlAt rank m.words m.Live pl l)
    (hr : AvlAt rank m.words m.Live pr r) :
    ∃ q m', newAvlInternal m key (ptrToWord pl) (ptrToWord pr) = (q, m') ∧ m.Extends m' ∧
      m'.allocationPtr + 4 = m.allocationPtr ∧
      TopNode rank m.Live m m' q (heightOf l r) key pl pr l r := by
  have hw : Working m.Live m m := by
    refine .start ?_ fun a ha => ha
    unfold Memory.canAllocate at hcan
    omega
  obtain ⟨q, m', hnew, hq, hwrites, hnode⟩ := newAvlInternal_node key (c := 0) hw hcan hh
    (hw.tree hl) (hw.tree hr)
  have hptr := hwrites.allocationPtr_eq
  exact ⟨q, m', hnew, hwrites.working.grows, hptr, hwrites.working, hnode, by omega, by omega,
    hwrites.working.tree hl, hwrites.working.tree hr⟩

/-- The copy of the node at the head of a history, with its new son. -/
theorem newPathItem_spec (hhist : HistoryAt rank m.words m.Live history (f :: fs))
    (hx : AvlAt rank m.words m.Live px x) (hcan : m.canAllocate 4)
    (hh : heightOf x f.sibling < 2 ^ 24) :
    ∃ q m' h key pl pr, newPathItem m (wordToPtr (m.words (history + 1)))
        (m.words history &&& 0xF) px = (q, m') ∧
      m.Extends m' ∧ m'.allocationPtr + 4 = m.allocationPtr ∧ rank (wordToPtr key) = f.router ∧
      h = heightOf x f.sibling ∧
      if f.goLeft then TopNode rank m.Live m m' q h key pl pr x f.sibling
      else TopNode rank m.Live m m' q h key pl pr f.sibling x := by
  cases hhist with
  | @cons _ p next _ _ hcell hq hframe hrest =>
    obtain ⟨hS, hrouter, ps, hps, hsib⟩ := hframe
    have hway := hcell.way_eq (by split <;> decide)
    rw [hcell.node, wordToPtr_ptrToWord, hway]
    cases hleft : f.goLeft with
    | true =>
      rw [hleft, if_pos rfl] at hps
      rw [if_pos rfl, newPathItem_eq (.inl rfl) hcan hS, if_pos rfl, if_pos rfl, hps]
      obtain ⟨q, m', hnew, hext, hptr, htop⟩ := newAvlInternal_topNode
        (m.words (p + 1)) hcan hh hx hsib
      exact ⟨q, m', _, _, px, ps, hnew, hext, hptr, hrouter, rfl, htop⟩
    | false =>
      rw [hleft, if_neg (by decide)] at hps
      have hcomm : heightOf f.sibling x = heightOf x f.sibling := by
        rw [heightOf_eq, heightOf_eq, Nat.max_comm]
      rw [if_neg (by decide), newPathItem_eq (.inr rfl) hcan hS, if_neg (by decide),
        if_neg (by decide), hps]
      obtain ⟨q, m', hnew, hext, hptr, htop⟩ := newAvlInternal_topNode
        (m.words (p + 1)) hcan (hcomm ▸ hh) hsib hx
      exact ⟨q, m', _, _, ps, px, hnew, hext, hptr, hrouter, hcomm, htop⟩

variable {h key pl pr : Nat} {l r : AvlTree κ Nat} {m₀ : Memory} {S : Nat → Prop}

/-- The rotations of `avl_bc_insert`; at most 8 words are allocated, and none
if the subtrees are balanced. -/
theorem TopNode.rotateAfterInsert (ht : TopNode rank S m₀ m p h key pl pr l r)
    (hh' : h = heightOf l r) (hl : l.Avl) (hr : r.Avl)
    (hh : (balanceInsert (rank (wordToPtr key)) l r).height < 2 ^ 24)
    (hcases : l.height ≤ r.height + 1 ∧ r.height ≤ l.height + 1 ∨
      (l.height = r.height + 2 ∧ l.balance ≠ 0 ∨ r.height = l.height + 2 ∧ r.balance ≠ 0) ∧
        m.canAllocate 8) :
    ∃ q m' n, Shades.rotateAfterInsert m p = some (q, m') ∧ Writes S m₀ m n p (p + 4) m' ∧
      AvlAt rank m'.words (Below S m' (p + 4)) q (balanceInsert (rank (wordToPtr key)) l r) ∧
      n ≤ 8 ∧ (l.height ≤ r.height + 1 ∧ r.height ≤ l.height + 1 → n = 0) := by
  unfold Shades.rotateAfterInsert
  rw [ht.balance_eq]
  rcases hcases with ⟨hlr, hrl⟩ | ⟨⟨hrot, hne⟩ | ⟨hrot, hne⟩, hcan⟩
  · rw [if_neg (by omega), if_neg (by omega), balanceInsert_eq_branch hlr hrl]
    have htree := ht.tree
    rw [hh'] at htree
    exact ⟨p, m, 0, rfl, .refl ht.working _ _, htree, by decide, fun _ => rfl⟩
  · obtain ⟨n, hn, q, m', hrun, hwrites, htree, -⟩ := ht.insertRight hcan hl hrot hne hh
    rw [if_pos (by omega)]
    exact ⟨q, m', n, hrun, hwrites, htree, hn, fun h => by omega⟩
  · obtain ⟨n, hn, q, m', hrun, hwrites, htree, -⟩ := ht.insertLeft hcan hr hrot hne hh
    rw [if_neg (by omega), if_pos (by omega)]
    exact ⟨q, m', n, hrun, hwrites, htree, hn, fun h => by omega⟩

/-- The rotations of `avl_bc_delete`. -/
theorem TopNode.rotateAfterDelete (ht : TopNode rank S m₀ m p h key pl pr l r)
    (hh' : h = heightOf l r) (hl : l.Avl) (hr : r.Avl) (hcan : m.canAllocate 8)
    (hh : (balanceDelete (rank (wordToPtr key)) l r).height < 2 ^ 24)
    (hlr : l.height ≤ r.height + 2) (hrl : r.height ≤ l.height + 2) :
    ∃ q m' n, Shades.rotateAfterDelete m p = some (q, m') ∧ Writes S m₀ m n p (p + 4) m' ∧
      AvlAt rank m'.words (Below S m' (p + 4)) q (balanceDelete (rank (wordToPtr key)) l r) ∧
      n ≤ 8 := by
  unfold Shades.rotateAfterDelete
  rw [ht.balance_eq]
  by_cases hleft : l.height = r.height + 2
  · obtain ⟨n, hn, q, m', hrun, hwrites, htree, -⟩ := ht.deleteRight hcan hl hleft hh
    rw [if_pos (by omega)]
    exact ⟨q, m', n, hrun, hwrites, htree, hn⟩
  · by_cases hright : r.height = l.height + 2
    · obtain ⟨n, hn, q, m', hrun, hwrites, htree, -⟩ := ht.deleteLeft hcan hr hright hh
      rw [if_neg (by omega), if_pos (by omega)]
      exact ⟨q, m', n, hrun, hwrites, htree, hn⟩
    · rw [if_neg (by omega), if_neg (by omega), balanceDelete_eq_branch (by omega) (by omega)]
      have htree := ht.tree
      rw [hh'] at htree
      exact ⟨p, m, 0, rfl, .refl ht.working _ _, htree, by decide⟩

end node

/-! ## replaying histories -/

section replay

variable {m : Memory} {history px : Nat} {f : Frame κ Nat} {fs : List (Frame κ Nat)}
variable {o x : AvlTree κ Nat}

theorem HistoryAt.ne_null (h : HistoryAt rank m.words m.Live history (f :: fs)) :
    history ≠ nullPtr := by
  cases h with
  | cons hcell => exact hcell.ne_null

theorem HistoryAt.eq_null (h : HistoryAt rank m.words m.Live history []) : history = nullPtr := by
  cases h
  rfl

/-- The history before the last node. -/
theorem HistoryAt.tail (h : HistoryAt rank m.words m.Live history (f :: fs)) :
    HistoryAt rank m.words m.Live (wordToPtr (m.words (history + 2))) fs := by
  cases h with
  | cons hcell _ _ hrest =>
    rw [hcell.next, wordToPtr_ptrToWord]
    exact hrest

theorem HistoryAt.next_eq {m' : Memory} (h : HistoryAt rank m.words m.Live history (f :: fs))
    (hext : m.Extends m') : m'.words (history + 2) = m.words (history + 2) := by
  cases h with
  | cons _ hq => exact hext.agree _ (hq 2 (by decide))

/-- One round of the loop of `avl_bc_insert`.  A rotation needs 8 words, and
after it, or if the height has not changed, there are no more of them. -/
theorem HistoryAt.insertStep {k r : Nat}
    (hhist : HistoryAt rank m.words m.Live history (f :: fs))
    (hx : AvlAt rank m.words m.Live px x) (hcan : m.canAllocate (4 + r + k))
    (hins : AfterInsert o x) (hplug : (f.plug o).Avl) (hh : (f.plug o).height + 1 < 2 ^ 24)
    (hr : 8 ≤ r ∨ x.height = o.height) :
    ∃ q₁ m₁ q m' r', newPathItem m (wordToPtr (m.words (history + 1)))
        (m.words history &&& 0xF) px = (q₁, m₁) ∧
      rotateAfterInsert m₁ q₁ = some (q, m') ∧ m.Extends m₁ ∧ m.Extends m' ∧
      AvlAt rank m'.words m'.Live q (f.rebuild balanceInsert x) ∧ m'.canAllocate (r' + k) ∧
      m.allocationPtr + r' ≤ m'.allocationPtr + 4 + r ∧
      (8 ≤ r' ∨ (f.rebuild balanceInsert x).height = (f.plug o).height) := by
  obtain ⟨hheight, -, -, -, hsib⟩ := Frame.avl_plug hplug
  have hheights := hins.heights hplug
  have hbound : (f.rebuild balanceInsert x).height < 2 ^ 24 := by
    have hheight := (hins.rebuild hplug).height
    omega
  have hgrow := hins.height
  rw [heightOf_eq] at hheight
  obtain ⟨q₁, m₁, h, key, pl, pr, hitem, hext₁, hptr₁, hrouter, hh', htop⟩ := newPathItem_spec hhist
    hx (canAllocate_mono hcan (by omega)) (by rw [heightOf_eq]; omega)
  have hend₁ := hext₁.firstGenerationEnd_eq
  unfold Memory.canAllocate at hcan
  have hroom : x.height = f.sibling.height + 2 → m₁.canAllocate 8 := by
    intro hrot
    have hle := (Frame.avl_plug hplug).2.1
    unfold Memory.canAllocate
    omega
  have hrotate : ∃ q m' n, rotateAfterInsert m₁ q₁ = some (q, m') ∧
      Writes m.Live m m₁ n q₁ (q₁ + 4) m' ∧
      AvlAt rank m'.words (Below m.Live m' (q₁ + 4)) q (f.rebuild balanceInsert x) ∧ n ≤ 8 ∧
      (x.height ≤ f.sibling.height + 1 ∧ f.sibling.height ≤ x.height + 1 → n = 0) := by
    unfold Frame.rebuild at hbound ⊢
    rw [← hrouter] at hbound ⊢
    cases hleft : f.goLeft with
    | true =>
      rw [hleft, if_pos rfl] at hbound htop
      exact htop.rotateAfterInsert hh' hins.avl hsib hbound (hheights.imp_right fun hrot =>
        ⟨.inl ⟨hrot.1, hrot.2.1⟩, hroom hrot.1⟩)
    | false =>
      rw [hleft, if_neg (by decide)] at hbound htop
      obtain ⟨q, m', n, hrun, hwrites, htree, hn, hzero⟩ := htop.rotateAfterInsert
        (by rw [hh', heightOf_eq, heightOf_eq, Nat.max_comm]) hsib hins.avl hbound
        (hheights.imp And.symm fun hrot => ⟨.inr ⟨hrot.1, hrot.2.1⟩, hroom hrot.1⟩)
      exact ⟨q, m', n, hrun, hwrites, htree, hn, fun hle => hzero hle.symm⟩
  obtain ⟨q, m', n, hrun, hwrites, htree, hn, hzero⟩ := hrotate
  have hptr := hwrites.allocationPtr_eq
  have hext := hwrites.working.grows
  have hend := hext.firstGenerationEnd_eq
  have htree' : AvlAt rank m'.words m'.Live q (f.rebuild balanceInsert x) :=
    htree.mono fun a ha => ha.elim hext.live fun ha => .inr ha.1
  rcases hheights with hle | ⟨hrot, -, -⟩
  · have hn := hzero hle
    refine ⟨q₁, m₁, q, m', r, hitem, hrun, hext₁, hext, htree', ?_, by omega, hr.imp_right ?_⟩
    · unfold Memory.canAllocate
      omega
    · intro hsame
      rw [(Frame.rebuild_eq_plug hplug hsame).1]
      exact (Frame.avl_plug_of_height hplug hsame hins.avl).2
  · have hle := (Frame.avl_plug hplug).2.1
    refine ⟨q₁, m₁, q, m', 0, hitem, hrun, hext₁, hext, htree', ?_, by omega,
      .inr (hins.rotated_height hplug hrot)⟩
    unfold Memory.canAllocate
    omega

/-- The loop of `avl_bc_insert` rebuilds the nodes of the path. -/
theorem avlBcInsertLoop_spec {n r : Nat} (hhist : HistoryAt rank m.words m.Live history fs)
    (hx : AvlAt rank m.words m.Live px x) (hn : fs.length ≤ n)
    (hcan : m.canAllocate (4 * fs.length + r)) (hins : AfterInsert o x) (havl : (plugAll fs o).Avl)
    (hh : (plugAll fs o).height + 1 < 2 ^ 24) (hr : 8 ≤ r ∨ x.height = o.height) :
    ∃ q m', avlBcInsertLoop n m history px = some (q, m') ∧ m.Extends m' ∧
      AvlAt rank m'.words m'.Live q (rebuildAll balanceInsert fs x) := by
  induction fs generalizing n r m history px o x with
  | nil =>
    refine ⟨px, m, ?_, .refl m, hx⟩
    unfold avlBcInsertLoop
    rw [if_pos hhist.eq_null]
  | cons f fs ih =>
    rw [List.length_cons] at hn hcan
    obtain ⟨n, rfl⟩ : ∃ j, n = j + 1 := ⟨n - 1, by omega⟩
    have hplug := avl_of_plugAll fs havl
    have hle := height_le_plugAll fs havl
    obtain ⟨q₁, m₁, q, m₂, r', hitem, hrun, hext₁, hext, htree, hcan', -, hr'⟩ :=
      hhist.insertStep (k := 4 * fs.length) hx (canAllocate_mono hcan (by omega)) hins hplug
        (Nat.lt_of_le_of_lt (Nat.succ_le_succ hle) hh) hr
    obtain ⟨q', m', hloop, hext', htree'⟩ := ih (hhist.tail.extends hext) htree
      (Nat.le_of_succ_le_succ hn) (canAllocate_mono hcan' (by omega)) (hins.rebuild hplug) havl hh
      hr'
    refine ⟨q', m', ?_, hext.trans hext', htree'⟩
    unfold avlBcInsertLoop
    rw [if_neg hhist.ne_null]
    simp only [hitem, hhist.next_eq hext₁, hrun, Option.bind_eq_bind, Option.bind_some]
    exact hloop

/-- One round of the loop of `avl_bc_delete`. -/
theorem HistoryAt.deleteStep {k : Nat} (hhist : HistoryAt rank m.words m.Live history (f :: fs))
    (hx : AvlAt rank m.words m.Live px x) (hcan : m.canAllocate (12 + k))
    (hdel : AfterDelete o x) (hplug : (f.plug o).Avl) (hh : (f.plug o).height < 2 ^ 24) :
    ∃ q₁ m₁ q m', newPathItem m (wordToPtr (m.words (history + 1)))
        (m.words history &&& 0xF) px = (q₁, m₁) ∧
      rotateAfterDelete m₁ q₁ = some (q, m') ∧ m.Extends m₁ ∧ m.Extends m' ∧
      AvlAt rank m'.words m'.Live q (f.rebuild balanceDelete x) ∧ m'.canAllocate k := by
  obtain ⟨hheight, hle, hge, -, hsib⟩ := Frame.avl_plug hplug
  have hbound : (f.rebuild balanceDelete x).height < 2 ^ 24 := by
    have hheight := (hdel.rebuild hplug).height
    omega
  have hshrink := hdel.height
  rw [heightOf_eq] at hheight
  obtain ⟨q₁, m₁, h, key, pl, pr, hitem, hext₁, hptr₁, hrouter, hh', htop⟩ := newPathItem_spec hhist
    hx (canAllocate_mono hcan (by omega)) (by rw [heightOf_eq]; omega)
  have hend₁ := hext₁.firstGenerationEnd_eq
  unfold Memory.canAllocate at hcan
  have hroom : m₁.canAllocate 8 := by
    unfold Memory.canAllocate
    omega
  have hrotate : ∃ q m' n, rotateAfterDelete m₁ q₁ = some (q, m') ∧
      Writes m.Live m m₁ n q₁ (q₁ + 4) m' ∧
      AvlAt rank m'.words (Below m.Live m' (q₁ + 4)) q (f.rebuild balanceDelete x) ∧ n ≤ 8 := by
    unfold Frame.rebuild at hbound ⊢
    rw [← hrouter] at hbound ⊢
    cases hleft : f.goLeft with
    | true =>
      rw [hleft, if_pos rfl] at hbound htop
      exact htop.rotateAfterDelete hh' hdel.avl hsib hroom hbound (by omega) (by omega)
    | false =>
      rw [hleft, if_neg (by decide)] at hbound htop
      exact htop.rotateAfterDelete (by rw [hh', heightOf_eq, heightOf_eq, Nat.max_comm]) hsib
        hdel.avl hroom hbound (by omega) (by omega)
  obtain ⟨q, m', n, hrun, hwrites, htree, hn⟩ := hrotate
  have hptr := hwrites.allocationPtr_eq
  have hext := hwrites.working.grows
  have hend := hext.firstGenerationEnd_eq
  refine ⟨q₁, m₁, q, m', hitem, hrun, hext₁, hext, ?_, ?_⟩
  · exact htree.mono fun a ha => ha.elim hext.live fun ha => .inr ha.1
  · unfold Memory.canAllocate
    omega

/-- The loop of `avl_bc_delete` rebuilds the nodes of the path. -/
theorem avlBcDeleteLoop_spec {n : Nat} (hhist : HistoryAt rank m.words m.Live history (f :: fs))
    (hx : AvlAt rank m.words m.Live px x) (hn : fs.length ≤ n)
    (hcan : m.canAllocate (12 * (fs.length + 1))) (hdel : AfterDelete o x)
    (havl : (plugAll (f :: fs) o).Avl) (hh : (plugAll (f :: fs) o).height < 2 ^ 24) :
    ∃ q₁ m₁ q m', newPathItem m (wordToPtr (m.words (history + 1)))
        (m.words history &&& 0xF) px = (q₁, m₁) ∧
      avlBcDeleteLoop n m₁ (wordToPtr (m₁.words (history + 2))) q₁ = some (q, m') ∧
      m.Extends m' ∧ AvlAt rank m'.words m'.Live q (rebuildAll balanceDelete (f :: fs) x) := by
  induction fs generalizing f n m history px o x with
  | nil =>
    obtain ⟨q₁, m₁, q, m', hitem, hrun, hext₁, hext, htree, -⟩ := hhist.deleteStep (k := 0) hx
      hcan hdel havl hh
    refine ⟨q₁, m₁, q, m', hitem, ?_, hext, htree⟩
    unfold avlBcDeleteLoop
    simp only [hrun, Option.bind_eq_bind, Option.bind_some]
    rw [hhist.next_eq hext₁, if_pos hhist.tail.eq_null]
  | cons f' fs ih =>
    rw [List.length_cons] at hn hcan
    obtain ⟨n, rfl⟩ : ∃ j, n = j + 1 := ⟨n - 1, by omega⟩
    have hplug := avl_of_plugAll (f' :: fs) havl
    have hle := height_le_plugAll (f' :: fs) havl
    obtain ⟨q₁, m₁, q₂, m₂, hitem, hrun, hext₁, hext, htree, hcan'⟩ :=
      hhist.deleteStep (k := 12 * (fs.length + 1)) hx (canAllocate_mono hcan (by omega)) hdel hplug
        (Nat.lt_of_le_of_lt hle hh)
    have htail := hhist.tail.extends hext
    obtain ⟨q₃, m₃, q, m', hitem', hloop, hext', htree'⟩ := ih htail htree
      (Nat.le_of_succ_le_succ hn) hcan' (hdel.rebuild hplug) havl hh
    refine ⟨q₁, m₁, q, m', hitem, ?_, hext.trans hext', htree'⟩
    unfold avlBcDeleteLoop
    simp only [hrun, Option.bind_eq_bind, Option.bind_some]
    rw [hhist.next_eq hext₁, if_neg htail.ne_null]
    simp only [hitem']
    exact hloop

end replay

/-! ## the same trees -/

section same

variable {m : Memory}

/-- Two roots in two memories are both `NULL_PTR` or have the same tree. -/
def SameTree (rank : Nat → κ) (m : Memory) (p : Nat) (m' : Memory) (p' : Nat) : Prop :=
  p = nullPtr ∧ p' = nullPtr ∨
    ∃ t, AvlAt rank m.words m.Live p t ∧ AvlAt rank m'.words m'.Live p' t

/-- The trees at two roots are the same if they stand for the same tree. -/
theorem sameTree_iff {m' : Memory} {p p' : Nat} {x y : Option (AvlTree κ Nat)}
    (hx : AvlOrNull rank m.words m.Live p x) (hy : AvlOrNull rank m'.words m'.Live p' y) :
    SameTree rank m p m' p' ↔ x = y := by
  cases x with
  | none =>
    obtain rfl : p = nullPtr := hx
    cases y with
    | none => exact ⟨fun _ => rfl, fun _ => .inl ⟨rfl, hy⟩⟩
    | some t' =>
      have ht' : AvlAt rank m'.words m'.Live p' t' := hy
      refine ⟨fun h => ?_, fun h => by cases h⟩
      rcases h with ⟨-, hnull⟩ | ⟨t, ht, -⟩
      · exact absurd hnull ht'.ne_null
      · exact absurd rfl ht.ne_null
  | some t =>
    have ht : AvlAt rank m.words m.Live p t := hx
    cases y with
    | none =>
      obtain rfl : p' = nullPtr := hy
      refine ⟨fun h => ?_, fun h => by cases h⟩
      rcases h with ⟨hnull, -⟩ | ⟨t, -, ht'⟩
      · exact absurd hnull ht.ne_null
      · exact absurd rfl ht'.ne_null
    | some t' =>
      have ht' : AvlAt rank m'.words m'.Live p' t' := hy
      rw [Option.some.injEq]
      constructor
      · rintro (⟨hnull, -⟩ | ⟨t'', h, h'⟩)
        · exact absurd hnull ht.ne_null
        · rw [ht.unique h, ht'.unique h']
      · rintro rfl
        exact .inr ⟨t, ht, ht'⟩

/-- Both operations return the same tree. -/
def SameResult (rank : Nat → κ) (x y : Option (Nat × Memory)) : Prop :=
  ∃ p m p' m', x = some (p, m) ∧ y = some (p', m') ∧ SameTree rank m p m' p'

theorem sameResult_iff {m₁ m₂ : Memory} {p q : Nat} {x y : Option (Nat × Memory)}
    (hx : x = some (p, m₁)) (hy : y = some (q, m₂)) :
    SameResult rank x y ↔ SameTree rank m₁ p m₂ q := by
  constructor
  · rintro ⟨p', m₁', q', m₂', hx', hy', h⟩
    rw [hx] at hx'
    rw [hy] at hy'
    obtain ⟨rfl, rfl⟩ := Prod.mk.inj (Option.some.inj hx')
    obtain ⟨rfl, rfl⟩ := Prod.mk.inj (Option.some.inj hy')
    exact h
  · exact fun h => ⟨p, m₁, q, m₂, hx, hy, h⟩

theorem AvlOrNull.mono {words : Nat → Nat} {S T : Nat → Prop} {p : Nat}
    {x : Option (AvlTree κ Nat)} (h : AvlOrNull rank words S p x) (hS : ∀ a, S a → T a) :
    AvlOrNull rank words T p x := by
  cases x with
  | none => exact h
  | some t => exact AvlAt.mono h hS

end same

/-! ## both passes -/

section passes

variable [LinearOrder κ] {m : Memory} {root key data history pl next way n : Nat}
variable {t : AvlTree κ Nat} {fs : List (Frame κ Nat)} {k' : κ} {d' : Nat}

/-- The way that is recorded for the leaf. -/
def leafWay (k k' : κ) : Nat := if k = k' then 0 else if k < k' then 2 else 3

theorem leafWay_lt (k k' : κ) : leafWay k k' < 16 := by
  unfold leafWay
  split_ifs <;> decide

theorem leafWay_eq_zero {k k' : κ} : leafWay k k' = 0 ↔ k = k' := by
  unfold leafWay
  split_ifs with heq hlt <;> simp [heq]

/-- The way stands for the result of the comparison. -/
theorem leafWay_cmp {kw : Nat} (hne : rank key ≠ rank (wordToPtr kw)) :
    (if leafWay (rank key) (rank (wordToPtr kw)) = 2 then CmpResult.less else .greater) =
      rankCmp rank key (wordToPtr kw) := by
  unfold leafWay rankCmp
  rw [if_neg hne, if_neg hne]
  split_ifs <;> simp_all

/-- `avl_bc_insert` with a history that ends in a leaf. -/
theorem avlBcInsert_spec
    (hcell : HistoryCellAt m.words history (leafWay (rank key) k') pl next)
    (hq : ∀ i < 3, m.Live (history + i)) (hhist : HistoryAt rank m.words m.Live next fs)
    (hleaf : AvlAt rank m.words m.Live pl (.leaf k' d'))
    (hn : fs.length ≤ n) (hlen : fs.length ≤ 48) (hcan : m.canAllocate avlMaxAllocationInInsert)
    (havl : (plugAll fs (.leaf k' d')).Avl)
    (hh : (plugAll fs (.leaf k' d')).height + 1 < 2 ^ 24) (data : Nat) :
    ∃ q m', avlBcInsert n m history key data = some (q, m') ∧ m.Extends m' ∧
      AvlAt rank m'.words m'.Live q
        (rebuildAll balanceInsert fs (insertLeaf (rank key) data k' d')) := by
  have hw : Working m.Live m m := by
    refine .start ?_ fun a ha => ha
    unfold Memory.canAllocate at hcan
    omega
  obtain ⟨item, m₁, hnew, hwrites, hitem⟩ := newAvlLeaf_spec rank hw
    (canAllocate_mono hcan (by decide)) (Nat.le_refl _) (ptrToWord key) data
  rw [wordToPtr_ptrToWord] at hitem
  have hext₁ := hwrites.working.grows
  have hcell₁ := hcell.congr fun i hi => hext₁.agree _ (hq i hi)
  have hcan₁ : m₁.canAllocate (4 + (4 * fs.length + 8)) :=
    hwrites.canAllocate hw (canAllocate_mono hcan (by unfold avlMaxAllocationInInsert; omega))
  obtain ⟨kw, rfl, hwords, hS⟩ := hleaf.leaf_inv
  have hinserted := inserted_insertLeaf (rank key) data (rank (wordToPtr kw)) d'
  have hroot : ∃ newPath m₂, (if leafWay (rank key) (rank (wordToPtr kw)) = 0 then (item, m₁)
        else newFather m₁ (if leafWay (rank key) (rank (wordToPtr kw)) = 2 then .less else .greater)
          key pl item) = (newPath, m₂) ∧
      m.Extends m₂ ∧ m₂.canAllocate (4 * fs.length + 8) ∧ m₂.words (history + 2) = ptrToWord next ∧
      AvlAt rank m₂.words m₂.Live newPath
        (insertLeaf (rank key) data (rank (wordToPtr kw)) d') := by
    by_cases heq : rank key = rank (wordToPtr kw)
    · refine ⟨item, m₁, if_pos (leafWay_eq_zero.mpr heq), hext₁, canAllocate_mono hcan₁ (by omega),
        hcell₁.next, ?_⟩
      rw [insertLeaf, if_pos heq]
      exact hitem.mono fun a ha => hwrites.working.live ha
    · rw [if_neg (mt leafWay_eq_zero.mp heq), leafWay_cmp heq]
      obtain ⟨q, m₂, hfather, hwrites', htree⟩ := newFather_spec (c := m.allocationPtr)
        hwrites.working (canAllocate_mono hcan₁ (by omega))
        (by have := hwrites.allocationPtr_eq; omega) (hwrites.working.tree hleaf) hitem heq
      rw [hext₁.agree _ (hS 1 (by decide)), hwords.key] at hfather
      have hext₂ := hwrites'.working.grows
      refine ⟨q, m₂, hfather, hext₂, hwrites'.canAllocate hwrites.working hcan₁, ?_, ?_⟩
      · rw [hext₂.agree _ (hq 2 (by decide)), hcell.next]
      · exact htree.mono fun a ha => hwrites'.working.live ha
  obtain ⟨newPath, m₂, hpath, hext₂, hcan₂, hnext, hx⟩ := hroot
  obtain ⟨q, m', hloop, hext', htree⟩ := avlBcInsertLoop_spec (hhist.extends hext₂) hx hn hcan₂
    hinserted havl hh (.inl (Nat.le_refl _))
  refine ⟨q, m', ?_, hext₂.trans hext', htree⟩
  unfold avlBcInsert
  simp only [hnew]
  rw [if_neg hcell.ne_null, hcell₁.node, wordToPtr_ptrToWord, hcell₁.way_eq (leafWay_lt _ _)]
  simp only [hpath, hnext, wordToPtr_ptrToWord]
  exact hloop

/-- Building a history and replaying it inserts a key. -/
theorem bcInsert_spec (ht : AvlAt rank m.words m.Live root t) (havl : t.Avl)
    (hheight : t.height ≤ 47) (hn : t.height ≤ n)
    (hcan : m.canAllocate (avlMaxAllocationInInsert + 48 * avlBcDelveMaxAllocation))
    (key data : Nat) :
    ∃ q m', bcInsert n m root key (rankCmp rank) data = some (q, m') ∧ m.Extends m' ∧
      AvlAt rank m'.words m'.Live q (insert (rank key) data t) := by
  obtain ⟨pl, history, m₁, hrun, hext₁, hptr₁, hhist, hleaf⟩ := buildHistoryLoop_spec key
    (n := n) ht .nil havl hn (canAllocate_mono hcan (by unfold avlBcDelveMaxAllocation; omega))
  have hinsert := rebuildAll_insertLeaf (rank key) data t []
  rw [rebuildAll] at hinsert
  have hplug := plugAll_descend (rank key) t []
  rw [AvlTree.plugAll] at hplug
  have hlen := havl.length_descend_le (rank key) []
  obtain ⟨fs, k', d', hd⟩ : ∃ fs k' d', descend (rank key) t [] = (fs, k', d') := ⟨_, _, _, rfl⟩
  rw [hd] at hhist hleaf hinsert hplug hlen
  simp only [List.length_nil, Nat.zero_add] at hhist hleaf hinsert hplug hlen
  rw [← hinsert]
  have hend₁ := hext₁.firstGenerationEnd_eq
  unfold Memory.canAllocate avlMaxAllocationInInsert avlBcDelveMaxAllocation at hcan
  obtain ⟨q, m₂, hdelve, hext₂, hptr₂, hlive, hcell⟩ := avlBcDelve_spec
    (m := m₁) _ (by unfold Memory.canAllocate; omega) (leafWay_lt (rank key) k') history pl
  have hend₂ := hext₂.firstGenerationEnd_eq
  have hbuild : buildHistoryForInsert n m root key (rankCmp rank) = some (q, true, m₂) := by
    obtain ⟨kw, rfl, hwords, -⟩ := hleaf.leaf_inv
    unfold buildHistoryForInsert
    rw [if_neg ht.ne_null, hrun]
    simp only [Option.bind_eq_bind, Option.bind_some, hwords.key]
    unfold leafWay at hdelve
    unfold rankCmp avlBcDelveEqual avlBcDelveLeft avlBcDelveRight
    by_cases heq : rank key = rank (wordToPtr kw)
    · rw [if_pos heq] at hdelve
      rw [if_neg (heq ▸ lt_irrefl _), if_pos heq]
      simp only [hdelve]
    · by_cases hlt : rank key < rank (wordToPtr kw)
      · rw [if_neg heq, if_pos hlt] at hdelve
        rw [if_pos hlt]
        simp only [hdelve]
      · rw [if_neg heq, if_neg hlt] at hdelve
        rw [if_neg hlt, if_neg heq]
        simp only [hdelve]
  obtain ⟨q', m', hbc, hext', htree⟩ := avlBcInsert_spec hcell hlive (hhist.extends hext₂)
    (hleaf.extends hext₂) (Nat.le_trans hlen hn) (by omega)
    (by unfold Memory.canAllocate avlMaxAllocationInInsert; omega) (hplug ▸ havl)
    (by rw [hplug]; omega) data
  refine ⟨q', m', ?_, hext₁.trans (hext₂.trans hext'), htree⟩
  unfold bcInsert
  rw [hbuild]
  exact hbc

theorem bcInsert_empty (rank : Nat → κ) (hcan : m.canAllocate avlMaxAllocationInInsert)
    (n key data : Nat) :
    ∃ q m', bcInsert n m nullPtr key (rankCmp rank) data = some (q, m') ∧ m.Extends m' ∧
      AvlAt rank m'.words m'.Live q (.leaf (rank key) data) := by
  have hw : Working m.Live m m := by
    refine .start ?_ fun a ha => ha
    unfold Memory.canAllocate at hcan
    omega
  obtain ⟨q, m', hnew, hwrites, htree⟩ := newAvlLeaf_spec rank hw
    (canAllocate_mono hcan (by decide)) (Nat.le_refl _) (ptrToWord key) data
  rw [wordToPtr_ptrToWord] at htree
  refine ⟨q, m', ?_, hwrites.working.grows, htree.mono fun a ha => hwrites.working.live ha⟩
  unfold bcInsert buildHistoryForInsert avlBcInsert
  simp only [if_true, Option.bind_eq_bind, Option.bind_some, hnew]

/-- Building a history for a key that is not there. -/
theorem bcDelete_absent (ht : AvlAt rank m.words m.Live root t) (havl : t.Avl) (hord : t.Ordered)
    (hn : t.height ≤ n) (hcan : m.canAllocate (3 * t.height)) (hkey : ¬ ∃ d, t.Has (rank key) d) :
    ∃ m', bcDelete n m root key (rankCmp rank) = some (root, m') ∧ m.Extends m' ∧
      AvlAt rank m'.words m'.Live root t := by
  obtain ⟨pl, history, m₁, hrun, hext₁, -, -, hleaf⟩ := buildHistoryLoop_spec key
    (n := n) ht .nil havl hn hcan
  obtain ⟨kw, hk', hwords, -⟩ := hleaf.leaf_inv
  rw [hord.descend_eq (rank key) [], ← hk'] at hkey
  refine ⟨m₁, ?_, hext₁, ht.extends hext₁⟩
  unfold bcDelete buildHistoryForDelete
  rw [if_neg ht.ne_null, hrun]
  simp only [Option.bind_eq_bind, Option.bind_some, hwords.key, ne_eq, rankCmp_eq_equal,
    if_pos hkey]
  rfl

/-- Building a history and replaying it deletes a key. -/
theorem bcDelete_present (ht : AvlAt rank m.words m.Live root t) (havl : t.Avl) (hord : t.Ordered)
    (hheight : t.height ≤ 47) (hn : t.height ≤ n)
    (hcan : m.canAllocate (avlMaxAllocationInDelete + 48 * avlBcDelveMaxAllocation))
    (hkey : ∃ d, t.Has (rank key) d) :
    ∃ q m', bcDelete n m root key (rankCmp rank) = some (q, m') ∧ m.Extends m' ∧
      AvlOrNull rank m'.words m'.Live q (delete (rank key) t) := by
  obtain ⟨pl, history, m₁, hrun, hext₁, hptr₁, hhist, hleaf⟩ := buildHistoryLoop_spec key
    (n := n) ht .nil havl hn (canAllocate_mono hcan (by unfold avlBcDelveMaxAllocation; omega))
  have hdelete := withoutLeaf_descend [] ((hord.descend_eq (rank key) []).mp hkey)
  have hplug := plugAll_descend (rank key) t []
  rw [AvlTree.plugAll] at hplug
  have hlen := havl.length_descend_le (rank key) []
  obtain ⟨kw, hk', hwords, -⟩ := hleaf.leaf_inv
  rw [hord.descend_eq (rank key) [], ← hk'] at hkey
  obtain ⟨fs, k', d', hd⟩ : ∃ fs k' d', descend (rank key) t [] = (fs, k', d') := ⟨_, _, _, rfl⟩
  rw [hd] at hhist hdelete hplug hlen
  simp only [List.length_nil, Nat.zero_add, withoutLeaf, rebuildAll] at hhist hdelete hplug hlen
  have hsome : (delete (rank key) t).elim none (fun t => some t) = delete (rank key) t := by
    cases delete (rank key) t <;> rfl
  rw [hsome] at hdelete
  rw [← hdelete]
  have hend₁ := hext₁.firstGenerationEnd_eq
  unfold Memory.canAllocate avlMaxAllocationInDelete avlBcDelveMaxAllocation at hcan
  have hbuild : bcDelete n m root key (rankCmp rank) = avlBcDelete n m₁ history := by
    unfold bcDelete buildHistoryForDelete
    rw [if_neg ht.ne_null, hrun]
    simp only [Option.bind_eq_bind, Option.bind_some, hwords.key, ne_eq, rankCmp_eq_equal,
      if_neg (not_not.mpr hkey), if_true]
  rw [hbuild]
  unfold avlBcDelete
  cases fs with
  | nil =>
    rw [if_pos hhist.eq_null]
    exact ⟨nullPtr, m₁, rfl, hext₁, rfl⟩
  | cons f fs =>
    have hsibling : ∃ ps, wordToPtr (m₁.words (wordToPtr (m₁.words (history + 1)) +
        (((m₁.words history &&& 0xF) + 1) % 2 + 2))) = ps ∧
        AvlAt rank m₁.words m₁.Live ps f.sibling := by
      cases hhist with
      | cons hcell hq hframe hrest =>
        obtain ⟨-, -, ps, hps, hsib⟩ := hframe
        refine ⟨ps, ?_, hsib⟩
        rw [hcell.way_eq (by split <;> decide), hcell.node, wordToPtr_ptrToWord]
        split at hps
        · next hleft => rw [if_pos hleft, hps, wordToPtr_ptrToWord]
        · next hright => rw [if_neg hright, hps, wordToPtr_ptrToWord]
    obtain ⟨ps, hps, hsib⟩ := hsibling
    rw [if_neg hhist.ne_null]
    simp only [hps]
    cases fs with
    | nil =>
      rw [if_pos hhist.tail.eq_null]
      exact ⟨ps, m₁, rfl, hext₁, hsib⟩
    | cons f' fs =>
      rw [List.length_cons, List.length_cons] at hlen
      have havl' : (AvlTree.plugAll (f' :: fs) (f.plug (.leaf k' d'))).Avl := hplug ▸ havl
      have hfplug := Frame.avl_plug (avl_of_plugAll (f' :: fs) havl')
      have hdel : AfterDelete (f.plug (.leaf k' d')) f.sibling := by
        refine ⟨hfplug.2.2.2.2, .inr ?_⟩
        rw [hfplug.1, heightOf_eq, height_leaf, Nat.max_eq_right (Nat.zero_le _)]
      have hheight' : (AvlTree.plugAll (f' :: fs) (f.plug (.leaf k' d'))).height = t.height :=
        congrArg AvlTree.height hplug
      obtain ⟨q₁, m₂, q, m', hitem, hloop, hext', htree⟩ := avlBcDeleteLoop_spec (n := n) hhist.tail
        hsib (by omega) (by unfold Memory.canAllocate; omega) hdel havl' (by rw [hheight']; omega)
      rw [if_neg hhist.tail.ne_null]
      simp only [hitem]
      exact ⟨q, m', hloop, hext₁.trans hext', htree⟩

/-- An insertion makes the same tree in both ways. -/
theorem AvlRoot.sameResult_insert (h : AvlRoot rank m root) (hn : 48 ≤ n)
    (hcan : m.canAllocate (avlMaxAllocationInInsert + 48 * avlBcDelveMaxAllocation))
    (key data : Nat) :
    SameResult rank (avlInsert m root key (rankCmp rank) none data)
      (bcInsert n m root key (rankCmp rank) data) := by
  rcases h.tree with rfl | ⟨t, ht, havl, hord⟩
  · obtain ⟨p, m₁, hrun, hext, -, htree⟩ := avlInsert_empty rank (S := m.Live)
      (canAllocate_mono hcan (Nat.le_add_right _ _)) (fun a ha => ha) key data
    obtain ⟨q, m₂, hrun', hext', htree'⟩ := bcInsert_empty rank
      (canAllocate_mono hcan (Nat.le_add_right _ _)) n key data
    refine ⟨p, m₁, q, m₂, hrun, hrun', .inr ⟨_, htree.mono fun a ha => ?_, htree'⟩⟩
    exact ha.elim hext.live fun ha => .inr ha.1
  · have hheight := ht.height_le havl hord fun a ha => ha.2
    have hlive := ht.mono (T := m.Live) fun a ha => ha.1
    obtain ⟨p, m₁, hrun, hext, -, htree⟩ := avlInsert_spec hlive (fun a ha => ha) havl (by omega)
      (canAllocate_mono hcan (Nat.le_add_right _ _)) key data
    obtain ⟨q, m₂, hrun', hext', htree'⟩ := bcInsert_spec hlive havl (by omega) (n := n) (by omega)
      hcan key data
    refine ⟨p, m₁, q, m₂, hrun, hrun', .inr ⟨_, htree.mono fun a ha => ?_, htree'⟩⟩
    exact ha.elim hext.live fun ha => .inr ha.1

/-- A deletion makes the same tree in both ways unless it rotates at the
root. -/
theorem AvlRoot.sameResult_delete (h : AvlRoot rank m root) (hn : 48 ≤ n)
    (hcan : m.canAllocate (avlMaxAllocationInDelete + 48 * avlBcDelveMaxAllocation))
    (key data : Nat) :
    SameResult rank (avlDelete m root key (rankCmp rank) none data)
      (bcDelete n m root key (rankCmp rank)) ↔ ¬ RotatesAtRoot rank m root key := by
  rcases h.tree with rfl | ⟨t, ht, havl, hord⟩
  · have hbc : bcDelete n m nullPtr key (rankCmp rank) = some (nullPtr, m) := by
      simp [bcDelete, buildHistoryForDelete, avlBcDelete]
    rw [sameResult_iff (avlDelete_empty m key (rankCmp rank) data) hbc]
    exact ⟨fun _ ⟨t, ht, _⟩ => absurd rfl ht.ne_null, fun _ => .inl ⟨rfl, rfl⟩⟩
  · have hheight := ht.height_le havl hord fun a ha => ha.2
    have hlive := ht.mono (T := m.Live) fun a ha => ha.1
    have hrotates : RotatesAtRoot rank m root key ↔ RootRotates (rank key) t :=
      ⟨fun ⟨t', ht', hrot⟩ => ht.unique ht' ▸ hrot, fun hrot => ⟨t, hlive, hrot⟩⟩
    rw [hrotates]
    by_cases hkey : ∃ d, t.Has (rank key) d
    · obtain ⟨p, m₁, hrun, hext, -, htree⟩ := avlDelete_present hlive (fun a ha => ha) havl hord
        (by omega) (canAllocate_mono hcan (Nat.le_add_right _ _)) key hkey data
      obtain ⟨q, m₂, hrun', hext', htree'⟩ := bcDelete_present hlive havl hord (by omega) (n := n)
        (by omega) hcan hkey
      have htree₁ := htree.mono (T := m₁.Live) fun a ha =>
        ha.elim hext.live fun ha => .inr ha.1
      rw [sameResult_iff hrun hrun', sameTree_iff htree₁ htree', havl.deleteBelow_eq_iff hord hkey]
    · obtain ⟨m₁, hrun, hext, -, htree⟩ := avlDelete_absent hlive (fun a ha => ha) havl hord
        (by omega) (canAllocate_mono hcan (Nat.le_add_right _ _)) key hkey data
      obtain ⟨m₂, hrun', hext', htree'⟩ := bcDelete_absent hlive havl hord (n := n) (by omega)
        (canAllocate_mono hcan (by unfold avlBcDelveMaxAllocation; omega)) hkey
      rw [sameResult_iff hrun hrun']
      refine ⟨fun _ hrot => hkey hrot.has, fun _ => .inr ⟨t, htree.mono fun a ha => ?_, htree'⟩⟩
      exact ha.elim hext.live fun ha => .inr ha.1

/-- Building a history and replaying it makes the same tree as `avl_insert`
does, and the same as `avl_delete` unless the deletion rotates at the root. -/
theorem bc_sameResult (h : AvlRoot rank m root) (hn : 48 ≤ n)
    (hcan : m.canAllocate (avlMaxAllocationInDelete + 48 * avlBcDelveMaxAllocation))
    (key data : Nat) :
    SameResult rank (avlInsert m root key (rankCmp rank) none data)
      (bcInsert n m root key (rankCmp rank) data) ∧
    (SameResult rank (avlDelete m root key (rankCmp rank) none data)
      (bcDelete n m root key (rankCmp rank)) ↔ ¬ RotatesAtRoot rank m root key) :=
  ⟨h.sameResult_insert hn (canAllocate_mono hcan (by decide)) key data,
    h.sameResult_delete hn hcan key data⟩

end passes

/-- The keys from `1` to `5` are inserted, and `3` is deleted. -/
theorem bc_sameResult_three : ∃ p m, oneToFive = some (p, m) ∧
    SameResult id (avlDelete m p 3 (rankCmp id) none 0) (bcDelete 48 m p 3 (rankCmp id)) := by
  obtain ⟨p, m, hrun, hcan, haddr, ht, hinv⟩ := oneToFive_spec
  have hnot : ¬ RotatesAtRoot id m p 3 := by
    rintro ⟨t, ht', hrot⟩
    rw [← ht.unique ht'] at hrot
    exact absurd hrot.2.2.1 (by decide)
  exact ⟨p, m, hrun, (bc_sameResult ⟨haddr, .inr ⟨_, ht, hinv⟩⟩ (Nat.le_refl _)
    (canAllocate_mono hcan (by decide)) 3 0).2.mpr hnot⟩

/-- The keys from `1` to `5` are inserted; then the deletion of `1` makes
different trees. -/
theorem bcDelete_differs_at_one : ∃ p m, oneToFive = some (p, m) ∧
    ¬ SameResult id (avlDelete m p 1 (rankCmp id) none 0) (bcDelete 48 m p 1 (rankCmp id)) := by
  obtain ⟨p, m, hrun, hcan, haddr, ht, havl, hord⟩ := oneToFive_spec
  have hkey : ∃ d, fiveTree.Has (id 1) d := ⟨11, hord.find_eq.mp (by decide)⟩
  have hlive := ht.mono (T := m.Live) fun a ha => ha.1
  obtain ⟨q, m₁, hdel, hext, -, htree⟩ := avlDelete_present hlive (fun a ha => ha) havl hord
    (by decide) (canAllocate_mono hcan (by decide)) 1 hkey 0
  obtain ⟨q', m₂, hdel', hext', htree'⟩ := bcDelete_present hlive havl hord (by decide) (n := 48)
    (by decide) (canAllocate_mono hcan (by decide)) hkey
  have htree₁ := htree.mono (T := m₁.Live) fun a ha => ha.elim hext.live fun ha => .inr ha.1
  refine ⟨p, m, hrun, ?_⟩
  rw [sameResult_iff hdel hdel', sameTree_iff htree₁ htree']
  decide

end Shades
