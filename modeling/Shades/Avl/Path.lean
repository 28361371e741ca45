import Shades.Avl.Tree

/-!
# Shades.Avl.Path

The way from a leaf up to the root, as the list of the nodes that were passed
with their other subtrees, the lowest one first.  The operations on trees are
the same as rebuilding the nodes of the path from the bottom up.

`RootRotates` is the condition under which a deletion rotates at the root: the
subtree that the key is in is lower than the other one and gets lower.
-/

namespace AvlTree

variable {κ δ : Type}

/-- A node that was passed, without the subtree that was entered. -/
structure Frame (κ δ : Type) where
  height : Nat
  router : κ
  goLeft : Bool
  sibling : AvlTree κ δ

namespace Frame

/-- A subtree is put into the node, which keeps its height. -/
def plug (f : Frame κ δ) (x : AvlTree κ δ) : AvlTree κ δ :=
  if f.goLeft then .node f.height f.router x f.sibling
  else .node f.height f.router f.sibling x

/-- A subtree is put into the node, which is then balanced. -/
def rebuild (balance : κ → AvlTree κ δ → AvlTree κ δ → AvlTree κ δ) (f : Frame κ δ)
    (x : AvlTree κ δ) : AvlTree κ δ :=
  if f.goLeft then balance f.router x f.sibling else balance f.router f.sibling x

end Frame

@[simp] def plugAll : List (Frame κ δ) → AvlTree κ δ → AvlTree κ δ
  | [], x => x
  | f :: fs, x => plugAll fs (f.plug x)

@[simp] def rebuildAll (balance : κ → AvlTree κ δ → AvlTree κ δ → AvlTree κ δ) :
    List (Frame κ δ) → AvlTree κ δ → AvlTree κ δ
  | [], x => x
  | f :: fs, x => rebuildAll balance fs (f.rebuild balance x)

/-- What is left of a node that has been rotated away from the root. -/
def demoted (t : AvlTree κ δ) (goLeft : Bool) : AvlTree κ δ :=
  match t, goLeft with
  | .leaf k d, _ => .leaf k d
  | .node _ _ l _, true => l
  | .node _ _ _ r, false => r

/-- The subtrees of the node differ by two. -/
def Frame.Rotates (f : Frame κ δ) (x : AvlTree κ δ) : Prop :=
  f.sibling.height = x.height + 2

instance (f : Frame κ δ) (x : AvlTree κ δ) : Decidable (f.Rotates x) :=
  inferInstanceAs (Decidable (_ = _))

/-- The nodes of a path are balanced after a deletion, but a rotation at the
root only leaves the old root, which has become a son of the new one. -/
@[simp] def rebuildBelow : List (Frame κ δ) → AvlTree κ δ → AvlTree κ δ
  | [], x => x
  | [f], x =>
    if f.Rotates x then demoted (f.rebuild balanceDelete x) f.goLeft
    else f.rebuild balanceDelete x
  | f :: fs, x => rebuildBelow fs (f.rebuild balanceDelete x)

section descend

variable [LinearOrder κ]

/-- The way down to the leaf where a key belongs. -/
@[simp] def descend (k : κ) : AvlTree κ δ → List (Frame κ δ) → List (Frame κ δ) × κ × δ
  | .leaf k' d', fs => (fs, k', d')
  | .node h k' l r, fs =>
    if k ≤ k' then descend k l (⟨h, k', true, r⟩ :: fs)
    else descend k r (⟨h, k', false, l⟩ :: fs)

/-- A deletion makes the tree lower. -/
@[simp] def Shrinks (k : κ) : AvlTree κ δ → Prop
  | .leaf _ _ => True
  | .node _ k' l r =>
    if k ≤ k' then
      l.height = 0 ∨
        Shrinks k l ∧ (r.height < l.height ∨ l.height < r.height ∧ r.balance ≠ 0)
    else
      r.height = 0 ∨
        Shrinks k r ∧ (l.height < r.height ∨ r.height < l.height ∧ l.balance ≠ 0)

/-- A deletion of the key `k` rotates at the root. -/
def RootRotates (k : κ) : AvlTree κ δ → Prop
  | .leaf _ _ => False
  | .node h k' l r =>
    (∃ d, (node h k' l r).Has k d) ∧
      if k ≤ k' then 0 < l.height ∧ l.height < r.height ∧ Shrinks k l
      else 0 < r.height ∧ r.height < l.height ∧ Shrinks k r

end descend

/-! ## rebuilding -/

section rebuild

variable {f : Frame κ δ} {fs : List (Frame κ δ)} {o x : AvlTree κ δ}

/-- The subtrees of a tree with the right heights have the right heights. -/
theorem avl_of_plugAll (fs : List (Frame κ δ)) (h : (plugAll fs x).Avl) : x.Avl := by
  induction fs generalizing x with
  | nil => exact h
  | cons f fs ih =>
    have hplug := ih h
    unfold Frame.plug at hplug
    split at hplug
    · exact hplug.2.2.2.1
    · exact hplug.2.2.2.2

/-- A subtree is not higher than the tree. -/
theorem height_le_plugAll (fs : List (Frame κ δ)) (h : (plugAll fs x).Avl) :
    x.height ≤ (plugAll fs x).height := by
  induction fs generalizing x with
  | nil => exact Nat.le_refl _
  | cons f fs ih =>
    have hplug := avl_of_plugAll fs h
    have hle := ih h
    have hlt : x.height < (f.plug x).height := by
      unfold Frame.plug at hplug ⊢
      split at hplug
      · next hleft =>
        rw [if_pos hleft, height_node, hplug.1]
        exact (heightOf_le _ _).1
      · next hright =>
        rw [if_neg hright, height_node, hplug.1]
        exact (heightOf_le _ _).2.1
    unfold plugAll
    omega

/-- The node that a frame was taken from. -/
theorem Frame.avl_plug (h : (f.plug o).Avl) :
    (f.plug o).height = heightOf o f.sibling ∧ o.height ≤ f.sibling.height + 1 ∧
      f.sibling.height ≤ o.height + 1 ∧ o.Avl ∧ f.sibling.Avl := by
  unfold Frame.plug at h ⊢
  split at h
  · next hleft =>
    rw [if_pos hleft]
    exact h
  · next hright =>
    obtain ⟨hh, hlr, hrl, hl, hr⟩ := h
    rw [if_neg hright]
    refine ⟨?_, hrl, hlr, hr, hl⟩
    rw [height_node, hh, heightOf_eq, heightOf_eq, Nat.max_comm]

/-- A node in which the height of a subtree has not changed. -/
theorem Frame.rebuild_eq_plug (h : (f.plug o).Avl) (hx : x.height = o.height) :
    f.rebuild balanceInsert x = f.plug x ∧ f.rebuild balanceDelete x = f.plug x := by
  obtain ⟨hh, hle, hge, -, -⟩ := Frame.avl_plug h
  unfold Frame.plug at h hh ⊢
  unfold Frame.rebuild
  split
  · next hleft =>
    rw [if_pos hleft] at hh
    rw [balanceInsert_eq_branch (by omega) (by omega),
      balanceDelete_eq_branch (by omega) (by omega)]
    rw [height_node] at hh
    simp only [branch, hh, heightOf_eq, hx, and_self]
  · next hright =>
    rw [if_neg hright] at hh
    rw [balanceInsert_eq_branch (by omega) (by omega),
      balanceDelete_eq_branch (by omega) (by omega)]
    rw [height_node] at hh
    simp only [branch, hh, heightOf_eq, hx, Nat.max_comm, and_self]

theorem Frame.avl_plug_of_height (h : (f.plug o).Avl) (hx : x.height = o.height) (hxavl : x.Avl) :
    (f.plug x).Avl ∧ (f.plug x).height = (f.plug o).height := by
  unfold Frame.plug at h ⊢
  split at h
  · next hleft =>
    obtain ⟨hh, hlr, hrl, hl, hr⟩ := h
    rw [if_pos hleft, if_pos hleft]
    exact ⟨⟨by rw [hh, heightOf_eq, heightOf_eq, hx], by omega, by omega, hxavl, hr⟩, rfl⟩
  · next hright =>
    obtain ⟨hh, hlr, hrl, hl, hr⟩ := h
    rw [if_neg hright, if_neg hright]
    exact ⟨⟨by rw [hh, heightOf_eq, heightOf_eq, hx], by omega, by omega, hl, hxavl⟩, rfl⟩

/-- Above a subtree whose height has not changed nothing has to be done. -/
theorem rebuildAll_eq_plugAll (h : (plugAll fs o).Avl) (hx : x.height = o.height) (hxavl : x.Avl) :
    rebuildAll balanceInsert fs x = plugAll fs x ∧
      rebuildAll balanceDelete fs x = plugAll fs x := by
  induction fs generalizing o x with
  | nil => exact ⟨rfl, rfl⟩
  | cons f fs ih =>
    have hplug := avl_of_plugAll fs h
    obtain ⟨hins, hdel⟩ := Frame.rebuild_eq_plug hplug hx
    obtain ⟨havl, hheight⟩ := Frame.avl_plug_of_height hplug hx hxavl
    obtain ⟨hins', hdel'⟩ := ih (x := f.plug x) h hheight havl
    simp only [rebuildAll, plugAll, hins, hdel, hins', hdel', and_self]

/-- One level up after an insertion. -/
theorem AfterInsert.rebuild (h : AfterInsert o x) (hplug : (f.plug o).Avl) :
    AfterInsert (f.plug o) (f.rebuild balanceInsert x) := by
  unfold Frame.plug at hplug ⊢
  unfold Frame.rebuild
  split at hplug
  · next hleft =>
    obtain ⟨hh, hlr, hrl, hl, hr⟩ := hplug
    rw [if_pos hleft, if_pos hleft, hh]
    exact h.left hr hlr hrl f.router
  · next hright =>
    obtain ⟨hh, hlr, hrl, hl, hr⟩ := hplug
    rw [if_neg hright, if_neg hright, hh]
    exact h.right hl hlr hrl f.router

/-- A subtree and its sibling after an insertion into the subtree. -/
theorem AfterInsert.heights (h : AfterInsert o x) (hplug : (f.plug o).Avl) :
    x.height ≤ f.sibling.height + 1 ∧ f.sibling.height ≤ x.height + 1 ∨
      x.height = f.sibling.height + 2 ∧ x.balance ≠ 0 ∧
        max x.height f.sibling.height = (f.plug o).height := by
  obtain ⟨hh, hle, hge, -, -⟩ := Frame.avl_plug hplug
  have hheight := h.height
  rw [heightOf_eq] at hh
  by_cases hrot : x.height = f.sibling.height + 2
  · exact .inr ⟨hrot, h.leans (by omega) (by omega), by omega⟩
  · exact .inl ⟨by omega, by omega⟩

/-- A rotation after an insertion makes the subtree as high as it was. -/
theorem AfterInsert.rotated_height (h : AfterInsert o x) (hplug : (f.plug o).Avl)
    (hrot : x.height = f.sibling.height + 2) :
    (f.rebuild balanceInsert x).height = (f.plug o).height := by
  have hsib := (Frame.avl_plug hplug).2.2.2.2
  have hheights := h.heights hplug
  obtain ⟨-, hne, hmax⟩ := hheights.resolve_left (by omega)
  rw [← hmax]
  unfold Frame.rebuild
  split
  · exact (avl_balanceInsert h.avl hsib (.inl ⟨hrot, hne⟩)).2
  · rw [Nat.max_comm]
    exact (avl_balanceInsert hsib h.avl (.inr ⟨hrot, hne⟩)).2

/-- A subtree and its sibling after a deletion from the subtree. -/
theorem AfterDelete.heights (h : AfterDelete o x) (hplug : (f.plug o).Avl) :
    (x.height ≤ f.sibling.height + 1 ∧ f.sibling.height ≤ x.height + 1) ∧ ¬ f.Rotates x ∨
      f.Rotates x := by
  obtain ⟨hh, hle, hge, -, -⟩ := Frame.avl_plug hplug
  have hheight := h.height
  unfold Frame.Rotates
  omega

/-- One level up after a deletion. -/
theorem AfterDelete.rebuild (h : AfterDelete o x) (hplug : (f.plug o).Avl) :
    AfterDelete (f.plug o) (f.rebuild balanceDelete x) := by
  unfold Frame.plug at hplug ⊢
  unfold Frame.rebuild
  split at hplug
  · next hleft =>
    obtain ⟨hh, hlr, hrl, hl, hr⟩ := hplug
    rw [if_pos hleft, if_pos hleft, hh]
    exact h.left hr hlr hrl f.router
  · next hright =>
    obtain ⟨hh, hlr, hrl, hl, hr⟩ := hplug
    rw [if_neg hright, if_neg hright, hh]
    exact h.right hl hlr hrl f.router

end rebuild

/-! ## the operations as rebuilding -/

section operations

variable [LinearOrder κ]

theorem plugAll_descend (k : κ) (t : AvlTree κ δ) (fs : List (Frame κ δ)) :
    plugAll (descend k t fs).1 (.leaf (descend k t fs).2.1 (descend k t fs).2.2) =
      plugAll fs t := by
  induction t generalizing fs with
  | leaf => rfl
  | node h k' l r ihl ihr =>
    unfold descend
    split
    · rw [ihl]
      rfl
    · rw [ihr]
      rfl

/-- A path is not longer than the tree is high. -/
theorem Avl.length_descend_le {t : AvlTree κ δ} (h : t.Avl) (k : κ) (fs : List (Frame κ δ)) :
    (descend k t fs).1.length ≤ fs.length + t.height := by
  induction t generalizing fs with
  | leaf => exact Nat.le_add_right _ _
  | node hh k' l r ihl ihr =>
    obtain ⟨rfl, -, -, hl, hr⟩ := h
    have hheight := heightOf_le l r
    rw [height_node]
    unfold descend
    split
    · have hle := ihl hl (⟨heightOf l r, k', true, r⟩ :: fs)
      rw [List.length_cons] at hle
      omega
    · have hle := ihr hr (⟨heightOf l r, k', false, l⟩ :: fs)
      rw [List.length_cons] at hle
      omega

theorem rebuildAll_insertLeaf (k : κ) (d : δ) (t : AvlTree κ δ) (fs : List (Frame κ δ)) :
    rebuildAll balanceInsert (descend k t fs).1
        (insertLeaf k d (descend k t fs).2.1 (descend k t fs).2.2) =
      rebuildAll balanceInsert fs (insert k d t) := by
  induction t generalizing fs with
  | leaf => rfl
  | node h k' l r ihl ihr =>
    unfold descend insert
    split
    · rw [ihl]
      rfl
    · rw [ihr]
      rfl

/-- The tree without the leaf at the lower end of a path. -/
def withoutLeaf : List (Frame κ δ) → Option (AvlTree κ δ)
  | [] => none
  | f :: fs => some (rebuildAll balanceDelete fs f.sibling)

theorem withoutLeaf_descend {k : κ} {t : AvlTree κ δ} (fs : List (Frame κ δ))
    (hk : k = (descend k t fs).2.1) :
    withoutLeaf (descend k t fs).1 =
      (delete k t).elim (withoutLeaf fs) fun t => some (rebuildAll balanceDelete fs t) := by
  induction t generalizing fs with
  | leaf k' d' =>
    obtain rfl : k = k' := hk
    simp [descend, delete]
  | node h k' l r ihl ihr =>
    unfold descend at hk ⊢
    unfold delete
    split
    · next hle =>
      rw [if_pos hle] at hk
      rw [ihl _ hk]
      cases delete k l <;> rfl
    · next hle =>
      rw [if_neg hle] at hk
      rw [ihr _ hk]
      cases delete k r <;> rfl

/-- A search ends at the leaf with the key if there is one. -/
theorem Ordered.descend_eq {t : AvlTree κ δ} (h : t.Ordered) (k : κ) (fs : List (Frame κ δ)) :
    (∃ d, t.Has k d) ↔ k = (descend k t fs).2.1 := by
  induction t generalizing fs with
  | leaf k' d' => exact ⟨fun ⟨_, hk, _⟩ => hk, fun hk => ⟨d', hk, rfl⟩⟩
  | node hh k' l r ihl ihr =>
    unfold descend
    split
    · next hle =>
      rw [← ihl h.2.2.1]
      exact exists_congr fun d => or_iff_left (h.not_has_right hle)
    · next hle =>
      rw [← ihr h.2.2.2]
      exact exists_congr fun d => or_iff_right (h.not_has_left hle)

theorem find_eq_descend (k : κ) (t : AvlTree κ δ) (fs : List (Frame κ δ)) :
    find k t = if k = (descend k t fs).2.1 then some (descend k t fs).2.2 else none := by
  induction t generalizing fs with
  | leaf k' d' => rfl
  | node hh k' l r ihl ihr =>
    unfold descend find
    split
    · exact ihl _
    · exact ihr _

/-- The tree without the leaf at the lower end of a path, if a rotation at the
root only leaves the old root. -/
def withoutLeafBelow : List (Frame κ δ) → Option (AvlTree κ δ)
  | [] => none
  | f :: fs => some (rebuildBelow fs f.sibling)

/-- Deletion, with a rotation at the root that only leaves the old root. -/
def deleteBelow (k : κ) (t : AvlTree κ δ) : Option (AvlTree κ δ) :=
  withoutLeafBelow (descend k t []).1

theorem withoutLeafBelow_descend {k : κ} {t : AvlTree κ δ} {f : Frame κ δ}
    {fs : List (Frame κ δ)} (hk : k = (descend k t (f :: fs)).2.1) :
    withoutLeafBelow (descend k t (f :: fs)).1 =
      (delete k t).elim (withoutLeafBelow (f :: fs)) fun t => some (rebuildBelow (f :: fs) t) := by
  induction t generalizing f fs with
  | leaf k' d' =>
    obtain rfl : k = k' := hk
    simp [descend, delete]
  | node h k' l r ihl ihr =>
    unfold descend at hk ⊢
    unfold delete
    split
    · next hle =>
      rw [if_pos hle] at hk
      rw [ihl hk]
      cases delete k l <;> rfl
    · next hle =>
      rw [if_neg hle] at hk
      rw [ihr hk]
      cases delete k r <;> rfl

end operations

/-! ## rotations at the root -/

section sons

/-- The height after a rotation: it stays only if the higher son was
balanced. -/
theorem height_balanceDelete_left {k' : κ} {l r : AvlTree κ δ} (hr : r.Avl)
    (h : r.height = l.height + 2) :
    (balanceDelete k' l r).height = if r.balance = 0 then r.height + 1 else r.height := by
  obtain ⟨k₁, a, b, rfl, hab, hba, ha, hb⟩ := hr.exists_node (by omega)
  unfold balanceDelete
  rw [if_neg (by omega), if_pos (by omega)]
  rw [height_branch, heightOf_eq] at h
  by_cases hbal : (branch k₁ a b).balance = -1
  · rw [if_pos hbal, if_neg (by omega)]
    rw [balance_branch] at hbal
    obtain ⟨k₂, c, d, rfl, hcd, hdc, hc, hd⟩ := ha.exists_node (by omega)
    simp only [doubleRotateLeft_branch, height_branch, heightOf_eq] at *
    omega
  · rw [if_neg hbal]
    rw [balance_branch] at hbal ⊢
    simp only [rotateLeft_branch, height_branch, heightOf_eq] at *
    split <;> omega

theorem height_balanceDelete_right {k' : κ} {l r : AvlTree κ δ} (hl : l.Avl)
    (h : l.height = r.height + 2) :
    (balanceDelete k' l r).height = if l.balance = 0 then l.height + 1 else l.height := by
  obtain ⟨k₁, a, b, rfl, hab, hba, ha, hb⟩ := hl.exists_node (by omega)
  unfold balanceDelete
  rw [if_pos (by omega)]
  rw [height_branch, heightOf_eq] at h
  by_cases hbal : (branch k₁ a b).balance = 1
  · rw [if_pos hbal, if_neg (by omega)]
    rw [balance_branch] at hbal
    obtain ⟨k₂, c, d, rfl, hcd, hdc, hc, hd⟩ := hb.exists_node (by omega)
    simp only [doubleRotateRight_branch, height_branch, heightOf_eq] at *
    omega
  · rw [if_neg hbal]
    rw [balance_branch] at hbal ⊢
    simp only [rotateRight_branch, height_branch, heightOf_eq] at *
    split <;> omega

/-- A balanced node is an internal node. -/
theorem exists_balanceDelete (k' : κ) (l r : AvlTree κ δ) :
    ∃ k a b, balanceDelete k' l r = branch k a b := by
  unfold balanceDelete
  split_ifs
  all_goals
    first
    | exact ⟨_, _, _, rfl⟩
    | skip
  · cases l with
    | leaf => exact ⟨_, _, _, rfl⟩
    | node _ _ _ b => cases b <;> exact ⟨_, _, _, rfl⟩
  · cases l <;> exact ⟨_, _, _, rfl⟩
  · cases r with
    | leaf => exact ⟨_, _, _, rfl⟩
    | node _ _ a _ => cases a <;> exact ⟨_, _, _, rfl⟩
  · cases r <;> exact ⟨_, _, _, rfl⟩

/-- The number of items is positive. -/
theorem size_pos (t : AvlTree κ δ) : 0 < t.size := by
  cases t with
  | leaf => exact Nat.one_pos
  | node _ _ l r => exact Nat.add_pos_left (size_pos l) _

/-- A son is not the whole tree. -/
theorem demoted_ne {goLeft : Bool} (k' : κ) (l r : AvlTree κ δ) :
    demoted (balanceDelete k' l r) goLeft ≠ balanceDelete k' l r := by
  obtain ⟨k, a, b, heq⟩ := exists_balanceDelete k' l r
  have ha := size_pos a
  have hb := size_pos b
  rw [heq]
  intro h
  have hsize := congrArg size h
  cases goLeft with
  | true =>
    simp only [demoted, branch, size] at hsize
    omega
  | false =>
    simp only [demoted, branch, size] at hsize
    omega

theorem avl_demoted {t : AvlTree κ δ} (h : t.Avl) (goLeft : Bool) : (demoted t goLeft).Avl := by
  cases t with
  | leaf => exact trivial
  | node =>
    cases goLeft with
    | true => exact h.2.2.2.1
    | false => exact h.2.2.2.2

end sons

section root

variable [LinearOrder κ] {k : κ} {t t' : AvlTree κ δ}

theorem rootRotates_node {hh : Nat} {k' : κ} {l r : AvlTree κ δ} :
    RootRotates k (node hh k' l r) ↔ (∃ d, (node hh k' l r).Has k d) ∧
      if k ≤ k' then 0 < l.height ∧ l.height < r.height ∧ Shrinks k l
      else 0 < r.height ∧ r.height < l.height ∧ Shrinks k r := Iff.rfl

theorem Ordered.has_left {hh : Nat} {k' : κ} {l r : AvlTree κ δ}
    (h : (node hh k' l r).Ordered) (hle : k ≤ k') (hk : ∃ d, (node hh k' l r).Has k d) :
    ∃ d, l.Has k d := by
  obtain ⟨d, hd⟩ := hk
  exact ⟨d, hd.resolve_right (h.not_has_right hle)⟩

theorem Ordered.has_right {hh : Nat} {k' : κ} {l r : AvlTree κ δ}
    (h : (node hh k' l r).Ordered) (hle : ¬ k ≤ k') (hk : ∃ d, (node hh k' l r).Has k d) :
    ∃ d, r.Has k d := by
  obtain ⟨d, hd⟩ := hk
  exact ⟨d, hd.resolve_left (h.not_has_left hle)⟩

/-- `Shrinks` is the condition for a deletion to make a tree lower. -/
theorem Avl.shrinks_iff (h : t.Avl) (hord : t.Ordered) (hk : ∃ d, t.Has k d)
    (hdel : delete k t = some t') : t'.height + 1 = t.height ↔ Shrinks k t := by
  induction t generalizing t' with
  | leaf k' d' =>
    obtain ⟨d, rfl, -⟩ := hk
    simp [delete] at hdel
  | node hh k' l r ihl ihr =>
    obtain ⟨rfl, hlr, hrl, hl, hr⟩ := h
    unfold delete at hdel
    unfold Shrinks
    rw [height_node, heightOf_eq]
    split at hdel
    · next hle =>
      rw [if_pos hle]
      obtain rfl := Option.some.inj hdel
      cases hl' : delete k l with
      | none =>
        obtain ⟨d, rfl⟩ := delete_eq_none hl'
        simp only [Option.elim_none, height_leaf, true_or, iff_true] at *
        omega
      | some l' =>
        have hshrinks := ihl hl hord.2.2.1 (hord.has_left hle hk) hl'
        have hheight := (hl.deleted hl').height
        have hpos : 0 < l.height := by
          cases l with
          | leaf k₁ d₁ =>
            obtain ⟨d, rfl, -⟩ := hord.has_left hle hk
            simp [delete] at hl'
          | node hh' k₁ a b =>
            rw [height_node, hl.1, heightOf_eq]
            omega
        rw [Option.elim_some, ← hshrinks]
        by_cases hrot : r.height = l'.height + 2
        · rw [height_balanceDelete_left hr hrot]
          split <;> omega
        · rw [balanceDelete_eq_branch (by omega) (by omega), height_branch, heightOf_eq]
          omega
    · next hle =>
      rw [if_neg hle]
      obtain rfl := Option.some.inj hdel
      cases hr' : delete k r with
      | none =>
        obtain ⟨d, rfl⟩ := delete_eq_none hr'
        simp only [Option.elim_none, height_leaf, true_or, iff_true] at *
        omega
      | some r' =>
        have hshrinks := ihr hr hord.2.2.2 (hord.has_right hle hk) hr'
        have hheight := (hr.deleted hr').height
        have hpos : 0 < r.height := by
          cases r with
          | leaf k₁ d₁ =>
            obtain ⟨d, rfl, -⟩ := hord.has_right hle hk
            simp [delete] at hr'
          | node hh' k₁ a b =>
            rw [height_node, hr.1, heightOf_eq]
            omega
        rw [Option.elim_some, ← hshrinks]
        by_cases hrot : l.height = r'.height + 2
        · rw [height_balanceDelete_right hl hrot]
          split <;> omega
        · rw [balanceDelete_eq_branch (by omega) (by omega), height_branch, heightOf_eq]
          omega

theorem ordered_demoted {t : AvlTree κ δ} (h : t.Ordered) (goLeft : Bool) :
    (demoted t goLeft).Ordered := by
  cases t with
  | leaf => exact trivial
  | node =>
    cases goLeft with
    | true => exact h.2.2.1
    | false => exact h.2.2.2

/-- A deletion that does not rotate at the root is right, and the others are
not. -/
theorem Avl.deleteBelow_eq_iff (h : t.Avl) (hord : t.Ordered) (hk : ∃ d, t.Has k d) :
    deleteBelow k t = delete k t ↔ ¬ RootRotates k t := by
  cases t with
  | leaf k' d' =>
    obtain ⟨d, rfl, -⟩ := hk
    simp [deleteBelow, descend, withoutLeafBelow, delete, RootRotates]
  | node hh k' l r =>
    have hleaf := (hord.descend_eq k []).mp hk
    have hkey := hk
    obtain ⟨rfl, hlr, hrl, hl, hr⟩ := h
    unfold deleteBelow
    rw [rootRotates_node, and_iff_right hkey]
    unfold descend at hleaf ⊢
    unfold delete
    split at hleaf
    · next hle =>
      rw [if_pos hle, if_pos hle, if_pos hle, withoutLeafBelow_descend hleaf]
      cases hl' : delete k l with
      | none =>
        obtain ⟨d, rfl⟩ := delete_eq_none hl'
        simp [withoutLeafBelow, rebuildBelow]
      | some l' =>
        have hshrinks := hl.shrinks_iff hord.2.2.1 (hord.has_left hle hk) hl'
        have hheight := (hl.deleted hl').height
        simp only [Option.elim_some, rebuildBelow, Frame.Rotates, Frame.rebuild, if_true]
        rw [← hshrinks]
        split
        · next hrot =>
          simp only [Option.some.injEq, demoted_ne, false_iff, not_not]
          omega
        · next hrot =>
          simp only [true_iff]
          omega
    · next hle =>
      rw [if_neg hle, if_neg hle, if_neg hle, withoutLeafBelow_descend hleaf]
      cases hr' : delete k r with
      | none =>
        obtain ⟨d, rfl⟩ := delete_eq_none hr'
        simp [withoutLeafBelow, rebuildBelow]
      | some r' =>
        have hshrinks := hr.shrinks_iff hord.2.2.2 (hord.has_right hle hk) hr'
        have hheight := (hr.deleted hr').height
        simp only [Option.elim_some, rebuildBelow, Frame.Rotates, Frame.rebuild,
          Bool.false_eq_true, if_false]
        rw [← hshrinks]
        split
        · next hrot =>
          simp only [Option.some.injEq, demoted_ne, false_iff, not_not]
          omega
        · next hrot =>
          simp only [true_iff]
          omega

/-- In any case the result is the right tree or a son of it. -/
theorem Ordered.deleteBelow_cases (h : t.Ordered) (hk : ∃ d, t.Has k d)
    (hdel : deleteBelow k t = some t') :
    ∃ t'', delete k t = some t'' ∧ (t' = t'' ∨ ∃ goLeft, t' = demoted t'' goLeft) := by
  cases t with
  | leaf k' d' =>
    obtain ⟨d, rfl, -⟩ := hk
    simp [deleteBelow, descend, withoutLeafBelow] at hdel
  | node hh k' l r =>
    have hleaf := (h.descend_eq k []).mp hk
    unfold deleteBelow at hdel
    unfold descend at hleaf hdel
    unfold delete
    split at hleaf
    · next hle =>
      rw [if_pos hle, withoutLeafBelow_descend hleaf] at hdel
      rw [if_pos hle]
      refine ⟨_, rfl, ?_⟩
      cases hl' : delete k l with
      | none =>
        rw [hl'] at hdel
        exact .inl (Option.some.inj hdel).symm
      | some l' =>
        rw [hl'] at hdel
        simp only [Option.elim_some, rebuildBelow, Frame.rebuild, if_true] at hdel ⊢
        split at hdel
        · exact .inr ⟨true, (Option.some.inj hdel).symm⟩
        · exact .inl (Option.some.inj hdel).symm
    · next hle =>
      rw [if_neg hle, withoutLeafBelow_descend hleaf] at hdel
      rw [if_neg hle]
      refine ⟨_, rfl, ?_⟩
      cases hr' : delete k r with
      | none =>
        rw [hr'] at hdel
        exact .inl (Option.some.inj hdel).symm
      | some r' =>
        rw [hr'] at hdel
        simp only [Option.elim_some, rebuildBelow, Frame.rebuild, Bool.false_eq_true,
          if_false] at hdel ⊢
        split at hdel
        · exact .inr ⟨false, (Option.some.inj hdel).symm⟩
        · exact .inl (Option.some.inj hdel).symm

theorem RootRotates.has (h : RootRotates k t) : ∃ d, t.Has k d := by
  cases t with
  | leaf => exact h.elim
  | node => exact h.1

theorem descend_ne_nil (k : κ) (t : AvlTree κ δ) {fs : List (Frame κ δ)} (hfs : fs ≠ []) :
    (descend k t fs).1 ≠ [] := by
  induction t generalizing fs with
  | leaf => exact hfs
  | node hh k' l r ihl ihr =>
    unfold descend
    split
    · exact ihl (List.cons_ne_nil _ _)
    · exact ihr (List.cons_ne_nil _ _)

/-- Something is left of an internal node. -/
theorem exists_deleteBelow (k : κ) (hh : Nat) (k' : κ) (l r : AvlTree κ δ) :
    ∃ t', deleteBelow k (node hh k' l r) = some t' := by
  have hne : (descend k (node hh k' l r) []).1 ≠ [] := by
    unfold descend
    split
    · exact descend_ne_nil k l (List.cons_ne_nil _ _)
    · exact descend_ne_nil k r (List.cons_ne_nil _ _)
  obtain ⟨f, fs, hfs⟩ := List.exists_cons_of_ne_nil hne
  exact ⟨_, by rw [deleteBelow, hfs, withoutLeafBelow]⟩

/-- A son does not have the keys of the other one. -/
theorem Ordered.demoted_loses (h : t.Ordered) {goLeft : Bool} (hne : demoted t goLeft ≠ t) :
    ∃ k₁ d₁, t.Has k₁ d₁ ∧ ∀ d, ¬ (demoted t goLeft).Has k₁ d := by
  cases t with
  | leaf => exact absurd rfl hne
  | node hh k' l r =>
    cases goLeft with
    | true =>
      obtain ⟨k₁, d₁, hk₁⟩ := r.exists_has
      exact ⟨k₁, d₁, .inr hk₁, fun d => h.not_has_left (not_le.mpr (h.2.1 k₁ d₁ hk₁))⟩
    | false =>
      obtain ⟨k₁, d₁, hk₁⟩ := l.exists_has
      exact ⟨k₁, d₁, .inl hk₁, fun d => h.not_has_right (h.1 k₁ d₁ hk₁)⟩

/-- A deletion that rotates at the root loses another key. -/
theorem RootRotates.loses (hrot : RootRotates k t) (h : t.Avl) (hord : t.Ordered) :
    ∃ t' k₁ d₁, deleteBelow k t = some t' ∧ k₁ ≠ k ∧ t.Has k₁ d₁ ∧ ∀ d, ¬ t'.Has k₁ d := by
  cases t with
  | leaf => exact hrot.elim
  | node hh k' l r =>
    have hk := hrot.1
    obtain ⟨t', hbelow⟩ := exists_deleteBelow k hh k' l r
    obtain ⟨t'', hdel, heq⟩ := hord.deleteBelow_cases hk hbelow
    obtain ⟨hord'', hhas⟩ := hord.deleted hdel
    have hne : t' ≠ t'' := fun heq =>
      (h.deleteBelow_eq_iff hord hk).mp (by rw [hbelow, hdel, heq]) hrot
    obtain ⟨goLeft, rfl⟩ := heq.resolve_left hne
    obtain ⟨k₁, d₁, hk₁, hlost⟩ := hord''.demoted_loses hne
    exact ⟨_, k₁, d₁, hbelow, ((hhas k₁ d₁).mp hk₁).1, ((hhas k₁ d₁).mp hk₁).2, hlost⟩

/-- The result has the invariants. -/
theorem Avl.deleteBelow_inv (h : t.Avl) (hord : t.Ordered) (hk : ∃ d, t.Has k d)
    (hdel : deleteBelow k t = some t') : t'.Avl ∧ t'.Ordered := by
  obtain ⟨t'', hdel', rfl | ⟨goLeft, rfl⟩⟩ := hord.deleteBelow_cases hk hdel
  · exact ⟨(h.deleted hdel').avl, (hord.deleted hdel').1⟩
  · exact ⟨avl_demoted (h.deleted hdel').avl _, ordered_demoted (hord.deleted hdel').1 _⟩

end root

end AvlTree
