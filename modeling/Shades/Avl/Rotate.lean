import Shades.Avl.Rep

/-!
# Shades.Avl.Rotate

The rotations.  The node `p` of the path gets other sons and its height is
brought up to date; a new root is allocated below it.  The sons of `p` lie
below `p` or in the old trees, and the new tree lies below the end of `p`.
-/

namespace Shades

open Memory

section rotate

variable {κ : Type} {rank : Nat → κ} {S : Nat → Prop} {m₀ m : Memory}
variable {p h key pl pr : Nat} {l r : AvlTree κ Nat}

/-- A node of the path with its two subtrees. -/
structure TopNode (rank : Nat → κ) (S : Nat → Prop) (m₀ m : Memory) (p h key pl pr : Nat)
    (l r : AvlTree κ Nat) : Prop where
  working : Working S m₀ m
  node : AvlNodeAt m.words p h key pl pr
  low : m.allocationPtr ≤ p
  top : p + 4 ≤ m₀.allocationPtr
  left : AvlAt rank m.words (Below S m p) pl l
  right : AvlAt rank m.words (Below S m p) pr r

/-- The node after its left son has been replaced. -/
theorem TopNode.replaceLeft {b : AvlTree κ Nat} {pb : Nat}
    (ht : TopNode rank S m₀ m p h key pl pr l r) (hh : AvlTree.heightOf b r < 2 ^ 24)
    (hb : AvlAt rank m.words (Below S m p) pb b) :
    ∃ m', m' = updateHeight (m.set (p + 2) (ptrToWord pb)) p ∧ Writes S m₀ m 0 p (p + 4) m' ∧
      AvlAt rank m'.words (Below S m' (p + 4)) p (.branch (rank (wordToPtr key)) b r) := by
  have htop := ht.top
  have hset : Writes S m₀ m 0 p (p + 4) (m.set (p + 2) (ptrToWord pb)) :=
    (Writes.refl ht.working p (p + 4)).set (by omega) (by omega) (Nat.le_add_right_of_le ht.low)
      (by omega) _
  have hnode : AvlNodeAt (m.set (p + 2) (ptrToWord pb)).words p h key pb pr := by
    refine ⟨ht.node.ne_null, ht.node.height_lt, ?_, ?_, ?_, ?_⟩
    · rw [set_words, if_neg (by omega), ht.node.header]
    · rw [set_words, if_neg (by omega), ht.node.key]
    · rw [set_words, if_pos rfl]
    · rw [set_words, if_neg (by omega), ht.node.right]
  obtain ⟨hupdate, htree⟩ := updateHeight_spec hset.working hnode ht.low htop hh
    (hset.tree ht.working (Nat.le_refl _) (Nat.le_refl _) hb)
    (hset.tree ht.working (Nat.le_refl _) (Nat.le_refl _) ht.right)
  exact ⟨_, rfl, hset.trans hupdate, htree⟩

/-- The node after its right son has been replaced. -/
theorem TopNode.replaceRight {b : AvlTree κ Nat} {pb : Nat}
    (ht : TopNode rank S m₀ m p h key pl pr l r) (hh : AvlTree.heightOf l b < 2 ^ 24)
    (hb : AvlAt rank m.words (Below S m p) pb b) :
    ∃ m', m' = updateHeight (m.set (p + 3) (ptrToWord pb)) p ∧ Writes S m₀ m 0 p (p + 4) m' ∧
      AvlAt rank m'.words (Below S m' (p + 4)) p (.branch (rank (wordToPtr key)) l b) := by
  have htop := ht.top
  have hset : Writes S m₀ m 0 p (p + 4) (m.set (p + 3) (ptrToWord pb)) :=
    (Writes.refl ht.working p (p + 4)).set (by omega) (by omega) (Nat.le_add_right_of_le ht.low)
      (by omega) _
  have hnode : AvlNodeAt (m.set (p + 3) (ptrToWord pb)).words p h key pl pb := by
    refine ⟨ht.node.ne_null, ht.node.height_lt, ?_, ?_, ?_, ?_⟩
    · rw [set_words, if_neg (by omega), ht.node.header]
    · rw [set_words, if_neg (by omega), ht.node.key]
    · rw [set_words, if_neg (by omega), ht.node.left]
    · rw [set_words, if_pos rfl]
  obtain ⟨hupdate, htree⟩ := updateHeight_spec hset.working hnode ht.low htop hh
    (hset.tree ht.working (Nat.le_refl _) (Nat.le_refl _) ht.left)
    (hset.tree ht.working (Nat.le_refl _) (Nat.le_refl _) hb)
  exact ⟨_, rfl, hset.trans hupdate, htree⟩

/-- What a rotation returns.  The old root `p` has become a son of the new
one. -/
def Rotated (rank : Nat → κ) (S : Nat → Prop) (m₀ m : Memory) (p n : Nat) (goLeft : Bool)
    (t : AvlTree κ Nat) (result : Option (Nat × Memory)) : Prop :=
  ∃ q m', result = some (q, m') ∧ Writes S m₀ m n p (p + 4) m' ∧
    AvlAt rank m'.words (Below S m' (p + 4)) q t ∧
    AvlAt rank m'.words (Below S m' (p + 4)) p (AvlTree.demoted t goLeft)

theorem simpleRotateRight_spec {h₁ : Nat} {k₁ : κ} {a b : AvlTree κ Nat}
    (ht : TopNode rank S m₀ m p h key pl pr (.node h₁ k₁ a b) r) (hcan : m.canAllocate 4)
    (hh : (AvlTree.rotateRight (rank (wordToPtr key)) (.node h₁ k₁ a b) r).height < 2 ^ 24) :
    Rotated rank S m₀ m p 4 false (.rotateRight (rank (wordToPtr key)) (.node h₁ k₁ a b) r)
      (simpleRotateRight m p) := by
  have hlow := ht.low
  have hleft := ht.left
  have hlt := AvlTree.heightOf_le a (.branch (rank (wordToPtr key)) b r)
  rw [AvlTree.rotateRight, AvlTree.height_branch] at hh
  rw [AvlTree.height_branch] at hlt
  unfold simpleRotateRight
  rw [ht.node.left, wordToPtr_ptrToWord]
  cases hleft with
  | @node _ _ key₁ pa pb _ _ hq hcell ha hb =>
    simp only [assert_true hq.ne_null, Option.bind_eq_bind, Option.bind_some]
    obtain ⟨m₁, hm₁, hwrites, htree⟩ := ht.replaceLeft (by omega) hb
    have hq₁ := hq.congr fun i hi => hwrites.below ht.working (Nat.le_refl _) _ (hcell i hi)
    have hptr := hwrites.allocationPtr_eq
    rw [hq.right, ← hm₁, hq₁.key, hq₁.left]
    obtain ⟨q, m₂, hnew, hwrites₂, htree₂⟩ := newAvlInternal_spec _ hwrites.working
      (hwrites.canAllocate ht.working hcan) (c := p + 4) (by omega) hh
      (hwrites.tree ht.working (Nat.le_refl _) (by omega) ha) htree
    exact ⟨q, m₂, congrArg some hnew, hwrites.trans (hwrites₂.mono (by omega) (by omega)), htree₂,
      hwrites₂.tree hwrites.working (Nat.le_refl _) (Nat.le_refl _) htree⟩

theorem simpleRotateLeft_spec {h₂ : Nat} {k₂ : κ} {b c : AvlTree κ Nat}
    (ht : TopNode rank S m₀ m p h key pl pr l (.node h₂ k₂ b c)) (hcan : m.canAllocate 4)
    (hh : (AvlTree.rotateLeft (rank (wordToPtr key)) l (.node h₂ k₂ b c)).height < 2 ^ 24) :
    Rotated rank S m₀ m p 4 true (.rotateLeft (rank (wordToPtr key)) l (.node h₂ k₂ b c))
      (simpleRotateLeft m p) := by
  have hlow := ht.low
  have hright := ht.right
  have hlt := AvlTree.heightOf_le (.branch (rank (wordToPtr key)) l b) c
  rw [AvlTree.rotateLeft, AvlTree.height_branch] at hh
  rw [AvlTree.height_branch] at hlt
  unfold simpleRotateLeft
  rw [ht.node.right, wordToPtr_ptrToWord]
  cases hright with
  | @node _ _ key₂ pb pc _ _ hq hcell hb hc =>
    simp only [assert_true hq.ne_null, Option.bind_eq_bind, Option.bind_some]
    obtain ⟨m₁, hm₁, hwrites, htree⟩ := ht.replaceRight (by omega) hb
    have hq₁ := hq.congr fun i hi => hwrites.below ht.working (Nat.le_refl _) _ (hcell i hi)
    have hptr := hwrites.allocationPtr_eq
    rw [hq.left, ← hm₁, hq₁.key, hq₁.right]
    obtain ⟨q, m₂, hnew, hwrites₂, htree₂⟩ := newAvlInternal_spec _ hwrites.working
      (hwrites.canAllocate ht.working hcan) (c := p + 4) (by omega) hh htree
      (hwrites.tree ht.working (Nat.le_refl _) (by omega) hc)
    exact ⟨q, m₂, congrArg some hnew, hwrites.trans (hwrites₂.mono (by omega) (by omega)), htree₂,
      hwrites₂.tree hwrites.working (Nat.le_refl _) (Nat.le_refl _) htree⟩

theorem doubleRotateRight_spec {h₁ h₂ : Nat} {k₁ k₂ : κ} {a b c : AvlTree κ Nat}
    (ht : TopNode rank S m₀ m p h key pl pr (.node h₁ k₁ a (.node h₂ k₂ b c)) r)
    (hcan : m.canAllocate 8)
    (hh : (AvlTree.doubleRotateRight (rank (wordToPtr key)) (.node h₁ k₁ a (.node h₂ k₂ b c))
      r).height < 2 ^ 24) :
    Rotated rank S m₀ m p 8 false
      (.doubleRotateRight (rank (wordToPtr key)) (.node h₁ k₁ a (.node h₂ k₂ b c)) r)
      (doubleRotateRight m p) := by
  have hlow := ht.low
  have hleft := ht.left
  have hlt := AvlTree.heightOf_le (.branch k₁ a b) (.branch (rank (wordToPtr key)) c r)
  rw [AvlTree.doubleRotateRight, AvlTree.height_branch] at hh
  rw [AvlTree.height_branch, AvlTree.height_branch] at hlt
  unfold doubleRotateRight
  rw [ht.node.left, wordToPtr_ptrToWord]
  cases hleft with
  | @node _ _ key₁ pa pd _ _ hq hcellq ha hd =>
    simp only [assert_true hq.ne_null, Option.bind_eq_bind, Option.bind_some]
    rw [hq.right, wordToPtr_ptrToWord]
    cases hd with
    | @node _ _ key₂ pb pc _ _ hr hcellr hb hc =>
      simp only [assert_true hr.ne_null, Option.bind_some]
      obtain ⟨m₁, hm₁, hwrites, htree⟩ := ht.replaceLeft (by omega) hc
      have hq₁ := hq.congr fun i hi => hwrites.below ht.working (Nat.le_refl _) _ (hcellq i hi)
      have hr₁ := hr.congr fun i hi => hwrites.below ht.working (Nat.le_refl _) _ (hcellr i hi)
      have hptr := hwrites.allocationPtr_eq
      rw [hr.right, ← hm₁, hq₁.key, hq₁.left, hr₁.left]
      obtain ⟨q, m₂, hnew, hwrites₂, htree₂⟩ := newAvlInternal_spec key₁
        hwrites.working (hwrites.canAllocate ht.working (k := 4) (canAllocate_mono hcan (by omega)))
        (c := p + 4) (by omega) (by omega)
        (hwrites.tree ht.working (Nat.le_refl _) (by omega) ha)
        (hwrites.tree ht.working (Nat.le_refl _) (by omega) hb)
      have hwrites' := hwrites.trans (hwrites₂.mono (by omega) (by omega))
      have hr₂ := hr.congr fun i hi => hwrites'.below ht.working (Nat.le_refl _) _ (hcellr i hi)
      have hptr₂ := hwrites₂.allocationPtr_eq
      rw [hnew]
      simp only [hr₂.key]
      obtain ⟨q', m₃, hnew', hwrites₃, htree₃⟩ := newAvlInternal_spec key₂
        hwrites₂.working (hwrites'.canAllocate ht.working hcan) (c := p + 4) (by omega) hh htree₂
        (hwrites₂.tree hwrites.working (Nat.le_refl _) (Nat.le_refl _) htree)
      exact ⟨q', m₃, congrArg some hnew', hwrites'.trans (hwrites₃.mono (by omega) (by omega)),
        htree₃, hwrites₃.tree hwrites₂.working (Nat.le_refl _) (Nat.le_refl _)
          (hwrites₂.tree hwrites.working (Nat.le_refl _) (Nat.le_refl _) htree)⟩

theorem doubleRotateLeft_spec {h₂ h₃ : Nat} {k₂ k₃ : κ} {b c d : AvlTree κ Nat}
    (ht : TopNode rank S m₀ m p h key pl pr l (.node h₃ k₃ (.node h₂ k₂ b c) d))
    (hcan : m.canAllocate 8)
    (hh : (AvlTree.doubleRotateLeft (rank (wordToPtr key)) l
      (.node h₃ k₃ (.node h₂ k₂ b c) d)).height < 2 ^ 24) :
    Rotated rank S m₀ m p 8 true
      (.doubleRotateLeft (rank (wordToPtr key)) l (.node h₃ k₃ (.node h₂ k₂ b c) d))
      (doubleRotateLeft m p) := by
  have hlow := ht.low
  have hright := ht.right
  have hlt := AvlTree.heightOf_le (.branch (rank (wordToPtr key)) l b) (.branch k₃ c d)
  rw [AvlTree.doubleRotateLeft, AvlTree.height_branch] at hh
  rw [AvlTree.height_branch, AvlTree.height_branch] at hlt
  unfold doubleRotateLeft
  rw [ht.node.right, wordToPtr_ptrToWord]
  cases hright with
  | @node _ _ key₃ pa pd _ _ hq hcellq ha hd =>
    simp only [assert_true hq.ne_null, Option.bind_eq_bind, Option.bind_some]
    rw [hq.left, wordToPtr_ptrToWord]
    cases ha with
    | @node _ _ key₂ pb pc _ _ hr hcellr hb hc =>
      simp only [assert_true hr.ne_null, Option.bind_some]
      obtain ⟨m₁, hm₁, hwrites, htree⟩ := ht.replaceRight (by omega) hb
      have hq₁ := hq.congr fun i hi => hwrites.below ht.working (Nat.le_refl _) _ (hcellq i hi)
      have hr₁ := hr.congr fun i hi => hwrites.below ht.working (Nat.le_refl _) _ (hcellr i hi)
      have hptr := hwrites.allocationPtr_eq
      rw [hr.left, ← hm₁, hq₁.key, hr₁.right, hq₁.right]
      obtain ⟨q, m₂, hnew, hwrites₂, htree₂⟩ := newAvlInternal_spec key₃
        hwrites.working (hwrites.canAllocate ht.working (k := 4) (canAllocate_mono hcan (by omega)))
        (c := p + 4) (by omega) (by omega)
        (hwrites.tree ht.working (Nat.le_refl _) (by omega) hc)
        (hwrites.tree ht.working (Nat.le_refl _) (by omega) hd)
      have hwrites' := hwrites.trans (hwrites₂.mono (by omega) (by omega))
      have hr₂ := hr.congr fun i hi => hwrites'.below ht.working (Nat.le_refl _) _ (hcellr i hi)
      have hptr₂ := hwrites₂.allocationPtr_eq
      rw [hnew]
      simp only [hr₂.key]
      obtain ⟨q', m₃, hnew', hwrites₃, htree₃⟩ := newAvlInternal_spec key₂
        hwrites₂.working (hwrites'.canAllocate ht.working hcan) (c := p + 4) (by omega) hh
        (hwrites₂.tree hwrites.working (Nat.le_refl _) (Nat.le_refl _) htree) htree₂
      exact ⟨q', m₃, congrArg some hnew', hwrites'.trans (hwrites₃.mono (by omega) (by omega)),
        htree₃, hwrites₃.tree hwrites₂.working (Nat.le_refl _) (Nat.le_refl _)
          (hwrites₂.tree hwrites.working (Nat.le_refl _) (Nat.le_refl _) htree)⟩

end rotate

end Shades
