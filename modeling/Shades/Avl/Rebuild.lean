import Shades.Avl.Route

/-!
# Shades.Avl.Rebuild

The way up.  Each node of the path receives its new son and is balanced; the
operations on trees say what becomes of it.  An insertion is done with the
first rotation, and a deletion that rotates at the root returns the old root.
-/

namespace Shades

open Memory AvlTree

variable {κ : Type} {rank : Nat → κ} {S : Nat → Prop} {m₀ m : Memory}

/-! ## one node -/

section node

variable {p h key pl pr : Nat} {l r : AvlTree κ Nat}

theorem TopNode.balance_eq (ht : TopNode rank S m₀ m p h key pl pr l r) :
    avlBalance m.words p = (r.height : Int) - l.height := ht.node.balance_eq ht.left ht.right

/-- The balance of the left son is that of the left subtree. -/
theorem TopNode.balance_left (ht : TopNode rank S m₀ m p h key pl pr l r) (hpos : 0 < l.height) :
    avlBalance m.words (wordToPtr (m.words (p + 2))) = l.balance := by
  rw [ht.node.left, wordToPtr_ptrToWord, ht.left.balance_eq hpos]

theorem TopNode.balance_right (ht : TopNode rank S m₀ m p h key pl pr l r) (hpos : 0 < r.height) :
    avlBalance m.words (wordToPtr (m.words (p + 3))) = r.balance := by
  rw [ht.node.right, wordToPtr_ptrToWord, ht.right.balance_eq hpos]

/-- A node that need not be rotated. -/
theorem TopNode.update (ht : TopNode rank S m₀ m p h key pl pr l r) (hh : heightOf l r < 2 ^ 24) :
    Writes S m₀ m 0 p (p + 4) (updateHeight m p) ∧
      AvlAt rank (updateHeight m p).words (Below S (updateHeight m p) (p + 4)) p
        (.branch (rank (wordToPtr key)) l r) :=
  updateHeight_spec ht.working ht.node ht.low ht.top hh ht.left ht.right

/-- The left subtree is too high after an insertion into it. -/
theorem TopNode.insertRight (ht : TopNode rank S m₀ m p h key pl pr l r)
    (hcan : m.canAllocate 8) (hl : l.Avl) (hrot : l.height = r.height + 2) (hne : l.balance ≠ 0)
    (hh : (balanceInsert (rank (wordToPtr key)) l r).height < 2 ^ 24) :
    ∃ n ≤ 8, Rotated rank S m₀ m p n false (balanceInsert (rank (wordToPtr key)) l r)
      (if avlBalance m.words (wordToPtr (m.words (p + 2))) = -1 then simpleRotateRight m p
       else if avlBalance m.words (wordToPtr (m.words (p + 2))) = 1 then doubleRotateRight m p
       else some (p, m)) := by
  rw [ht.balance_left (by omega)]
  unfold balanceInsert at hh ⊢
  rw [if_pos (by omega)] at hh ⊢
  obtain ⟨k₁, a, b, rfl, hab, hba, ha, hb⟩ := hl.exists_node (by omega)
  by_cases hbal : (AvlTree.branch k₁ a b).balance = -1
  · rw [if_pos hbal] at hh ⊢
    rw [if_pos hbal]
    exact ⟨4, by decide, simpleRotateRight_spec ht (canAllocate_mono hcan (by decide)) hh⟩
  · rw [if_neg hbal] at hh ⊢
    rw [balance_branch] at hbal hne
    have hbal' : (AvlTree.branch k₁ a b).balance = 1 := by
      rw [balance_branch]
      omega
    rw [if_pos hbal'] at hh ⊢
    rw [if_neg (by omega), if_pos hbal']
    obtain ⟨k₂, c, d, rfl, hcd, hdc, hc, hd⟩ := hb.exists_node (by omega)
    exact ⟨8, by decide, doubleRotateRight_spec ht hcan hh⟩

/-- The right subtree is too high after an insertion into it. -/
theorem TopNode.insertLeft (ht : TopNode rank S m₀ m p h key pl pr l r)
    (hcan : m.canAllocate 8) (hr : r.Avl) (hrot : r.height = l.height + 2) (hne : r.balance ≠ 0)
    (hh : (balanceInsert (rank (wordToPtr key)) l r).height < 2 ^ 24) :
    ∃ n ≤ 8, Rotated rank S m₀ m p n true (balanceInsert (rank (wordToPtr key)) l r)
      (if avlBalance m.words (wordToPtr (m.words (p + 3))) = 1 then simpleRotateLeft m p
       else if avlBalance m.words (wordToPtr (m.words (p + 3))) = -1 then doubleRotateLeft m p
       else some (p, m)) := by
  rw [ht.balance_right (by omega)]
  unfold balanceInsert at hh ⊢
  rw [if_neg (by omega), if_pos (by omega)] at hh ⊢
  obtain ⟨k₁, a, b, rfl, hab, hba, ha, hb⟩ := hr.exists_node (by omega)
  by_cases hbal : (AvlTree.branch k₁ a b).balance = 1
  · rw [if_pos hbal] at hh ⊢
    rw [if_pos hbal]
    exact ⟨4, by decide, simpleRotateLeft_spec ht (canAllocate_mono hcan (by decide)) hh⟩
  · rw [if_neg hbal] at hh ⊢
    rw [balance_branch] at hbal hne
    have hbal' : (AvlTree.branch k₁ a b).balance = -1 := by
      rw [balance_branch]
      omega
    rw [if_pos hbal'] at hh ⊢
    rw [if_neg (by omega), if_pos hbal']
    obtain ⟨k₂, c, d, rfl, hcd, hdc, hc, hd⟩ := ha.exists_node (by omega)
    exact ⟨8, by decide, doubleRotateLeft_spec ht hcan hh⟩

/-- The left subtree is too high after a deletion from the right one. -/
theorem TopNode.deleteRight (ht : TopNode rank S m₀ m p h key pl pr l r)
    (hcan : m.canAllocate 8) (hl : l.Avl) (hrot : l.height = r.height + 2)
    (hh : (balanceDelete (rank (wordToPtr key)) l r).height < 2 ^ 24) :
    ∃ n ≤ 8, Rotated rank S m₀ m p n false (balanceDelete (rank (wordToPtr key)) l r)
      (if avlBalance m.words (wordToPtr (m.words (p + 2))) = 1 then doubleRotateRight m p
       else simpleRotateRight m p) := by
  rw [ht.balance_left (by omega)]
  unfold balanceDelete at hh ⊢
  rw [if_pos (by omega)] at hh ⊢
  obtain ⟨k₁, a, b, rfl, hab, hba, ha, hb⟩ := hl.exists_node (by omega)
  by_cases hbal : (AvlTree.branch k₁ a b).balance = 1
  · rw [if_pos hbal] at hh ⊢
    rw [if_pos hbal]
    rw [balance_branch] at hbal
    obtain ⟨k₂, c, d, rfl, hcd, hdc, hc, hd⟩ := hb.exists_node (by omega)
    exact ⟨8, by decide, doubleRotateRight_spec ht hcan hh⟩
  · rw [if_neg hbal] at hh ⊢
    rw [if_neg hbal]
    exact ⟨4, by decide, simpleRotateRight_spec ht (canAllocate_mono hcan (by decide)) hh⟩

/-- The right subtree is too high after a deletion from the left one. -/
theorem TopNode.deleteLeft (ht : TopNode rank S m₀ m p h key pl pr l r)
    (hcan : m.canAllocate 8) (hr : r.Avl) (hrot : r.height = l.height + 2)
    (hh : (balanceDelete (rank (wordToPtr key)) l r).height < 2 ^ 24) :
    ∃ n ≤ 8, Rotated rank S m₀ m p n true (balanceDelete (rank (wordToPtr key)) l r)
      (if avlBalance m.words (wordToPtr (m.words (p + 3))) = -1 then doubleRotateLeft m p
       else simpleRotateLeft m p) := by
  rw [ht.balance_right (by omega)]
  unfold balanceDelete at hh ⊢
  rw [if_neg (by omega), if_pos (by omega)] at hh ⊢
  obtain ⟨k₁, a, b, rfl, hab, hba, ha, hb⟩ := hr.exists_node (by omega)
  by_cases hbal : (AvlTree.branch k₁ a b).balance = -1
  · rw [if_pos hbal] at hh ⊢
    rw [if_pos hbal]
    rw [balance_branch] at hbal
    obtain ⟨k₂, c, d, rfl, hcd, hdc, hc, hd⟩ := ha.exists_node (by omega)
    exact ⟨8, by decide, doubleRotateLeft_spec ht hcan hh⟩
  · rw [if_neg hbal] at hh ⊢
    rw [if_neg hbal]
    exact ⟨4, by decide, simpleRotateLeft_spec ht (canAllocate_mono hcan (by decide)) hh⟩

end node

/-! ## the way up of an insertion -/

section insert

variable {first c p : Nat} {e : AvlPathEntry} {f : Frame κ Nat} {path : List AvlPathEntry}
variable {fs : List (Frame κ Nat)} {o x : AvlTree κ Nat}

/-- One level of `avl_insert`: the loop goes on with the next node, or the
rotated subtree is chained and the loop ends. -/
inductive InsertStep (rank : Nat → κ) (S : Nat → Prop) (m₀ m : Memory) (first : Nat)
    (e : AvlPathEntry) (path : List AvlPathEntry) (t : AvlTree κ Nat) (height : Nat) : Prop
  | goOn (m' : Memory) (hrun : avlInsertUp first (e :: path) m = avlInsertUp first path m')
      (hwrites : Writes S m₀ m 0 e.node (e.node + 4) m')
      (ht : AvlAt rank m'.words (Below S m' (e.node + 4)) e.node t)
  | done (q n : Nat) (m' : Memory) (hn : n ≤ 8)
      (hrun : avlInsertUp first (e :: path) m = some (finishInsert path q m'))
      (hwrites : Writes S m₀ m n e.node (e.node + 4) m')
      (ht : AvlAt rank m'.words (Below S m' (e.node + 4)) q t) (hheight : t.height = height)

theorem TopNode.insertStep {h key pl pr : Nat} {l r : AvlTree κ Nat}
    (ht : TopNode rank S m₀ m e.node h key pl pr l r) (hcan : m.canAllocate 8) (hl : l.Avl)
    (hr : r.Avl) (hh : (balanceInsert (rank (wordToPtr key)) l r).height < 2 ^ 24)
    {height : Nat} (hcases : l.height ≤ r.height + 1 ∧ r.height ≤ l.height + 1 ∨
      (l.height = r.height + 2 ∧ l.balance ≠ 0 ∨ r.height = l.height + 2 ∧ r.balance ≠ 0) ∧
        max l.height r.height = height)
    (first : Nat) (path : List AvlPathEntry) :
    InsertStep rank S m₀ m first e path (balanceInsert (rank (wordToPtr key)) l r) height := by
  rcases hcases with ⟨hlr, hrl⟩ | ⟨hrot, rfl⟩
  · rw [balanceInsert_eq_branch hlr hrl] at hh ⊢
    obtain ⟨hwrites, htree⟩ := ht.update hh
    refine .goOn _ ?_ hwrites htree
    conv_lhs => unfold avlInsertUp
    simp only [ht.balance_eq]
    rw [if_neg (by omega), if_neg (by omega)]
  · have hheight := (avl_balanceInsert (k := rank (wordToPtr key)) hl hr hrot).2
    rcases hrot with ⟨hrot, hne⟩ | ⟨hrot, hne⟩
    · obtain ⟨n, hn, q, m', hrun, hwrites, htree, -⟩ := ht.insertRight hcan hl hrot hne hh
      refine .done q n m' hn ?_ hwrites htree hheight
      unfold avlInsertUp
      simp only [ht.balance_eq]
      rw [if_pos (by omega)]
      split_ifs at hrun ⊢
      all_goals
        rw [hrun]
        rfl
    · obtain ⟨n, hn, q, m', hrun, hwrites, htree, -⟩ := ht.insertLeft hcan hr hrot hne hh
      refine .done q n m' hn ?_ hwrites htree hheight
      unfold avlInsertUp
      simp only [ht.balance_eq]
      rw [if_neg (by omega), if_pos (by omega)]
      split_ifs at hrun ⊢
      all_goals
        rw [hrun]
        rfl

/-- One level of `avl_insert`, on either side. -/
theorem FrameAt.insertStep (hframe : FrameAt rank S m₀ m e f) (hw : Working S m₀ m)
    (hlow : m.allocationPtr ≤ e.node) (htop : e.node + 4 ≤ m₀.allocationPtr)
    (hchain : m.words (e.node + e.son) = ptrToWord p)
    (hx : AvlAt rank m.words (Below S m e.node) p x) (hcan : m.canAllocate 8)
    (hins : AfterInsert o x) (hplug : (f.plug o).Avl) (hh : (f.plug o).height + 1 < 2 ^ 24)
    (first : Nat) (path : List AvlPathEntry) :
    InsertStep rank S m₀ m first e path (f.rebuild balanceInsert x) (f.plug o).height := by
  obtain ⟨key, ps, hrouter, hnode⟩ := hframe.topNode hw hlow htop hchain hx
  have hheights := hins.heights hplug
  have hbound : (f.rebuild balanceInsert x).height < 2 ^ 24 := by
    have hheight := (hins.rebuild hplug).height
    omega
  have hsib := (Frame.avl_plug hplug).2.2.2.2
  unfold Frame.rebuild at hbound ⊢
  rw [← hrouter] at hbound ⊢
  split at hnode
  · next hleft =>
    rw [if_pos hleft] at hbound ⊢
    refine hnode.insertStep hcan hins.avl hsib hbound (hheights.imp_right fun hrot => ?_) first path
    exact ⟨.inl ⟨hrot.1, hrot.2.1⟩, hrot.2.2⟩
  · next hright =>
    rw [if_neg hright] at hbound ⊢
    refine hnode.insertStep hcan hsib hins.avl hbound (hheights.imp And.symm fun hrot => ?_) first
      path
    exact ⟨.inr ⟨hrot.1, hrot.2.1⟩, by rw [Nat.max_comm, hrot.2.2]⟩

/-- The way up of `avl_insert` rebuilds the nodes of the path.  What was allocated between
the path and the new nodes is kept. -/
theorem avlInsertUp_spec (hpath : PathAt rank S m₀ m path fs) (hw : Working S m₀ m)
    (hc : c + 4 * path.length = m₀.allocationPtr) (hlow : m.allocationPtr ≤ c)
    (hchain : Chained m path p) (hx : AvlAt rank m.words (Below S m c) p x)
    (hcan : m.canAllocate 8) (hins : AfterInsert o x) (havl : (plugAll fs o).Avl)
    (hh : (plugAll fs o).height + 1 < 2 ^ 24) :
    ∃ q m', avlInsertUp (firstNode path p) path m = some (q, m') ∧ Working S m₀ m' ∧
      m.allocationPtr ≤ m'.allocationPtr + 8 ∧
      AvlAt rank m'.words (Below S m' m₀.allocationPtr) q (rebuildAll balanceInsert fs x) ∧
      ∀ a, m.allocationPtr ≤ a → a < c → m'.words a = m.words a := by
  induction path generalizing fs m c p o x with
  | nil =>
    cases hpath
    obtain rfl : c = m₀.allocationPtr := hc
    exact ⟨p, m, rfl, hw, by omega, hx, fun _ _ _ => rfl⟩
  | cons e path ih =>
    cases hpath with
    | @cons _ f _ fs hframe hnode hchain' hpath =>
      rw [List.length_cons] at hc
      obtain rfl : c = e.node := by omega
      rw [firstNode_cons]
      rw [chained_cons] at hchain
      have hplug := avl_of_plugAll fs havl
      have hle := height_le_plugAll fs havl
      have hc' : e.node + 4 + 4 * path.length = m₀.allocationPtr := by omega
      cases hframe.insertStep hw hlow (by omega) hchain hx hcan hins hplug
        (Nat.lt_of_le_of_lt (Nat.succ_le_succ hle) hh) (firstNode path e.node) path with
      | goOn m' hrun hwrites htree =>
        have hptr := hwrites.allocationPtr_eq
        have habove := hwrites.above hc' (by omega) (Nat.le_refl _)
        obtain ⟨q, m'', hrun', hw', hptr', htree', hkept⟩ := ih (hpath.congr habove)
          hwrites.working hc' (by omega) (hchain'.congr hpath habove) htree
          (hwrites.canAllocate hw (by simpa using hcan))
          (hins.rebuild hplug) havl hh
        refine ⟨q, m'', hrun.trans hrun', hw', by omega, htree', fun a ha ha' => ?_⟩
        rw [hkept a (by omega) (by omega), hwrites.agree a ha (.inl ha')]
      | done q n m' hn hrun hwrites htree hheight =>
        have hptr := hwrites.allocationPtr_eq
        have habove := hwrites.above hc' (by omega) (Nat.le_refl _)
        obtain ⟨hchained, hpath', hchain''⟩ := chainSon_spec hwrites.working (hpath.congr habove)
          hc' (by omega) q
        have hptr' := hchained.allocationPtr_eq
        have hplugged := hpath'.plugAll hchained.working hc' (by omega) hchain''
          (hchained.tree hwrites.working (Nat.le_refl _) (Nat.le_refl _) htree)
        refine ⟨firstNode path q, _, hrun, hchained.working, by omega, ?_, fun a ha ha' => ?_⟩
        · have havl' : (AvlTree.plugAll fs (f.plug o)).Avl := havl
          have hsame := (rebuildAll_eq_plugAll havl' hheight (hins.rebuild hplug).avl).1
          rw [rebuildAll, hsame]
          exact hplugged
        · rw [hchained.agree a (by omega) (.inl (by omega)), hwrites.agree a ha (.inl ha')]

end insert

/-! ## the way up of a deletion -/

section delete

variable {first c p : Nat} {e : AvlPathEntry} {f : Frame κ Nat} {path : List AvlPathEntry}
variable {fs : List (Frame κ Nat)} {o x : AvlTree κ Nat}

/-- One level of `avl_delete`: either the node stays the root of the subtree,
or the subtree is rotated and chained, and the node has become a son. -/
inductive DeleteStep (rank : Nat → κ) (S : Nat → Prop) (m₀ m : Memory) (first : Nat)
    (e : AvlPathEntry) (path : List AvlPathEntry) (goLeft : Bool) (t : AvlTree κ Nat)
    (rotates : Prop) : Prop
  | stays (m' : Memory) (hrun : avlDeleteUp first (e :: path) m = avlDeleteUp first path m')
      (hwrites : Writes S m₀ m 0 e.node (e.node + 4) m')
      (ht : AvlAt rank m'.words (Below S m' (e.node + 4)) e.node t) (hrot : ¬ rotates)
  | rotated (q n : Nat) (m' : Memory) (hn : n ≤ 8)
      (hrun : avlDeleteUp first (e :: path) m = avlDeleteUp first path (chainSon path q m'))
      (hwrites : Writes S m₀ m n e.node (e.node + 4) m')
      (ht : AvlAt rank m'.words (Below S m' (e.node + 4)) q t)
      (hold : AvlAt rank m'.words (Below S m' (e.node + 4)) e.node (demoted t goLeft))
      (hrot : rotates)

theorem TopNode.deleteStep {h key pl pr : Nat} {l r : AvlTree κ Nat}
    (ht : TopNode rank S m₀ m e.node h key pl pr l r) (hcan : m.canAllocate 8) (hl : l.Avl)
    (hr : r.Avl) (hh : (balanceDelete (rank (wordToPtr key)) l r).height < 2 ^ 24)
    {goLeft : Bool} {rotates : Prop}
    (hcases : (l.height ≤ r.height + 1 ∧ r.height ≤ l.height + 1) ∧ ¬ rotates ∨
      rotates ∧
        (l.height = r.height + 2 ∧ goLeft = false ∨ r.height = l.height + 2 ∧ goLeft = true))
    (first : Nat) (path : List AvlPathEntry) :
    DeleteStep rank S m₀ m first e path goLeft (balanceDelete (rank (wordToPtr key)) l r)
      rotates := by
  rcases hcases with ⟨⟨hlr, hrl⟩, hrot⟩ | ⟨hrotates, hrot⟩
  · rw [balanceDelete_eq_branch hlr hrl] at hh ⊢
    obtain ⟨hwrites, htree⟩ := ht.update hh
    refine .stays _ ?_ hwrites htree hrot
    conv_lhs => unfold avlDeleteUp
    simp only [ht.balance_eq]
    rw [if_neg (by omega), if_neg (by omega)]
  · rcases hrot with ⟨hrot, rfl⟩ | ⟨hrot, rfl⟩
    · obtain ⟨n, hn, q, m', hrun, hwrites, htree, hold⟩ := ht.deleteRight hcan hl hrot hh
      refine .rotated q n m' hn ?_ hwrites htree hold hrotates
      conv_lhs => unfold avlDeleteUp
      simp only [ht.balance_eq]
      rw [if_pos (by omega)]
      split_ifs at hrun ⊢
      all_goals
        rw [hrun]
        rfl
    · obtain ⟨n, hn, q, m', hrun, hwrites, htree, hold⟩ := ht.deleteLeft hcan hr hrot hh
      refine .rotated q n m' hn ?_ hwrites htree hold hrotates
      conv_lhs => unfold avlDeleteUp
      simp only [ht.balance_eq]
      rw [if_neg (by omega), if_pos (by omega)]
      split_ifs at hrun ⊢
      all_goals
        rw [hrun]
        rfl

/-- One level of `avl_delete`, on either side. -/
theorem FrameAt.deleteStep (hframe : FrameAt rank S m₀ m e f) (hw : Working S m₀ m)
    (hlow : m.allocationPtr ≤ e.node) (htop : e.node + 4 ≤ m₀.allocationPtr)
    (hchain : m.words (e.node + e.son) = ptrToWord p)
    (hx : AvlAt rank m.words (Below S m e.node) p x) (hcan : m.canAllocate 8)
    (hdel : AfterDelete o x) (hplug : (f.plug o).Avl) (hh : (f.plug o).height < 2 ^ 24)
    (first : Nat) (path : List AvlPathEntry) :
    DeleteStep rank S m₀ m first e path f.goLeft (f.rebuild balanceDelete x) (f.Rotates x) := by
  obtain ⟨key, ps, hrouter, hnode⟩ := hframe.topNode hw hlow htop hchain hx
  have hheights := hdel.heights hplug
  have hbound : (f.rebuild balanceDelete x).height < 2 ^ 24 := by
    have hheight := (hdel.rebuild hplug).height
    omega
  have hsib := (Frame.avl_plug hplug).2.2.2.2
  unfold Frame.rebuild at hbound ⊢
  rw [← hrouter] at hbound ⊢
  split at hnode
  · next hleft =>
    rw [if_pos hleft] at hbound ⊢
    exact hnode.deleteStep hcan hdel.avl hsib hbound
      (hheights.imp_right fun hrot => ⟨hrot, .inr ⟨hrot, hleft⟩⟩) first path
  · next hright =>
    rw [if_neg hright] at hbound ⊢
    refine hnode.deleteStep hcan hsib hdel.avl hbound (hheights.imp (And.imp_left And.symm)
      fun hrot => ⟨hrot, .inl ⟨hrot, by simpa using hright⟩⟩) first path

theorem firstNode_of_ne_nil (hpath : path ≠ []) (p q : Nat) :
    firstNode path p = firstNode path q := by
  cases path with
  | nil => exact absurd rfl hpath
  | cons e path => rw [firstNode_cons, firstNode_cons]

/-- The result of the way up of `avl_delete`. -/
def Rebuilt (rank : Nat → κ) (S : Nat → Prop) (m₀ m : Memory) (n : Nat) (t : AvlTree κ Nat)
    (result : Option (Nat × Memory)) : Prop :=
  ∃ q m', result = some (q, m') ∧ Working S m₀ m' ∧ m.allocationPtr ≤ m'.allocationPtr + n ∧
    AvlAt rank m'.words (Below S m' m₀.allocationPtr) q t

/-- The way up of `avl_delete` rebuilds the nodes of the path, but it returns
the old root. -/
theorem avlDeleteUp_spec (hpath : PathAt rank S m₀ m path fs) (hw : Working S m₀ m)
    (hc : c + 4 * path.length = m₀.allocationPtr) (hlow : m.allocationPtr ≤ c)
    (hchain : Chained m path p) (hx : AvlAt rank m.words (Below S m c) p x)
    (hcan : m.canAllocate (8 * path.length)) (hdel : AfterDelete o x) (havl : (plugAll fs o).Avl)
    (hh : (plugAll fs o).height < 2 ^ 24) :
    Rebuilt rank S m₀ m (8 * path.length) (rebuildBelow fs x)
      (avlDeleteUp (firstNode path p) path m) := by
  induction path generalizing fs m c p o x with
  | nil =>
    cases hpath
    obtain rfl : c = m₀.allocationPtr := hc
    exact ⟨p, m, rfl, hw, by omega, hx⟩
  | cons e path ih =>
    cases hpath with
    | @cons _ f _ fs hframe hnode hchain' hpath =>
      rw [List.length_cons] at hc hcan ⊢
      obtain rfl : c = e.node := by omega
      rw [firstNode_cons]
      rw [chained_cons] at hchain
      have hplug := avl_of_plugAll fs havl
      have hle := height_le_plugAll fs havl
      have hc' : e.node + 4 + 4 * path.length = m₀.allocationPtr := by omega
      cases hframe.deleteStep hw hlow (by omega) hchain hx (canAllocate_mono hcan (by omega)) hdel
        hplug (Nat.lt_of_le_of_lt hle hh) (firstNode path e.node) path with
      | stays m' hrun hwrites htree hrot =>
        have hptr := hwrites.allocationPtr_eq
        have habove := hwrites.above hc' (by omega) (Nat.le_refl _)
        obtain ⟨q, m'', hrun', hw', hptr', htree'⟩ := ih (hpath.congr habove) hwrites.working hc'
          (by omega) (hchain'.congr hpath habove) htree
          (hwrites.canAllocate hw (canAllocate_mono hcan (by omega))) (hdel.rebuild hplug) havl hh
        refine ⟨q, m'', hrun.trans hrun', hw', by omega, ?_⟩
        cases fs with
        | nil =>
          unfold rebuildBelow
          rw [if_neg hrot]
          exact htree'
        | cons f' fs => exact htree'
      | rotated q n m' hn hrun hwrites htree hold hrot =>
        have hptr := hwrites.allocationPtr_eq
        have habove := hwrites.above hc' (by omega) (Nat.le_refl _)
        cases hpath with
        | nil =>
          refine ⟨e.node, m', hrun, hwrites.working, by omega, ?_⟩
          unfold rebuildBelow
          rw [if_pos hrot]
          exact hold.below_mono (by omega)
        | @cons e' f' path fs hframe' hnode' hchain'' hpath' =>
          obtain ⟨hchained, hpath'', hchain''⟩ := chainSon_spec hwrites.working
            ((PathAt.cons hframe' hnode' hchain'' hpath').congr habove) hc' (by omega) q
          have hptr' := hchained.allocationPtr_eq
          have hcan' : (chainSon (e' :: path) q m').canAllocate (8 * (e' :: path).length) :=
            hchained.canAllocate hwrites.working (hwrites.canAllocate hw
              (canAllocate_mono hcan (by omega)))
          obtain ⟨q', m'', hrun', hw', hptr', htree'⟩ := ih hpath'' hchained.working hc'
            (by omega) hchain''
            (hchained.tree hwrites.working (Nat.le_refl _) (Nat.le_refl _) htree) hcan'
            (hdel.rebuild hplug) havl hh
          rw [firstNode_of_ne_nil (List.cons_ne_nil _ _) q e.node] at hrun'
          exact ⟨q', m'', hrun.trans hrun', hw', by omega, htree'⟩

end delete

end Shades
