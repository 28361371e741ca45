import Mathlib.Data.Nat.Fib.Basic
import Mathlib.Logic.Function.Basic
import Mathlib.Order.Basic
import Mathlib.Order.Defs.LinearOrder

/-!
# Shades.Avl.Tree

Leaf-oriented AVL trees over any linearly ordered type of keys.  The items are
in the leaves; an internal node has a height and a router, and the keys in its
left subtree are at most the router while those in the right one are greater.

Insertion and deletion are written as recursions.  `Avl` says that the heights
are those of the subtrees and that siblings differ by at most one, `Ordered`
that the routers separate the keys.
-/

inductive AvlTree (κ δ : Type) where
  | leaf (key : κ) (data : δ)
  | node (height : Nat) (router : κ) (left right : AvlTree κ δ)
  deriving DecidableEq, Repr

namespace AvlTree

variable {κ δ : Type}

/-! ## rotations -/

/-- The height that is stored in a tree; a leaf has height `0`. -/
def height : AvlTree κ δ → Nat
  | .leaf _ _ => 0
  | .node h _ _ _ => h

/-- The height of a node with two given subtrees. -/
def heightOf (l r : AvlTree κ δ) : Nat :=
  if r.height < l.height then l.height + 1 else r.height + 1

/-- A node with the right height. -/
def branch (k : κ) (l r : AvlTree κ δ) : AvlTree κ δ := .node (heightOf l r) k l r

/-- The height of the right subtree minus that of the left one. -/
def balance : AvlTree κ δ → Int
  | .leaf _ _ => 0
  | .node _ _ l r => r.height - l.height

def rotateRight (k : κ) : AvlTree κ δ → AvlTree κ δ → AvlTree κ δ
  | .node _ k₁ a b, c => branch k₁ a (branch k b c)
  | l, c => branch k l c

def rotateLeft (k : κ) (a : AvlTree κ δ) : AvlTree κ δ → AvlTree κ δ
  | .node _ k₂ b c => branch k₂ (branch k a b) c
  | r => branch k a r

def doubleRotateRight (k : κ) : AvlTree κ δ → AvlTree κ δ → AvlTree κ δ
  | .node _ k₁ a (.node _ k₂ b c), d => branch k₂ (branch k₁ a b) (branch k c d)
  | l, d => branch k l d

def doubleRotateLeft (k : κ) (a : AvlTree κ δ) : AvlTree κ δ → AvlTree κ δ
  | .node _ k₃ (.node _ k₂ b c) d => branch k₂ (branch k a b) (branch k₃ c d)
  | r => branch k a r

/-! ## the operations -/

/-- A node whose subtrees may differ by two after an insertion. -/
def balanceInsert (k : κ) (l r : AvlTree κ δ) : AvlTree κ δ :=
  if (r.height : Int) - l.height < -1 then
    if l.balance = -1 then rotateRight k l r
    else if l.balance = 1 then doubleRotateRight k l r
    else branch k l r
  else if 1 < (r.height : Int) - l.height then
    if r.balance = 1 then rotateLeft k l r
    else if r.balance = -1 then doubleRotateLeft k l r
    else branch k l r
  else branch k l r

/-- A node whose subtrees may differ by two after a deletion. -/
def balanceDelete (k : κ) (l r : AvlTree κ δ) : AvlTree κ δ :=
  if (r.height : Int) - l.height < -1 then
    if l.balance = 1 then doubleRotateRight k l r else rotateRight k l r
  else if 1 < (r.height : Int) - l.height then
    if r.balance = -1 then doubleRotateLeft k l r else rotateLeft k l r
  else branch k l r

section operations

variable [LinearOrder κ]

/-- The data of a key. -/
def find (k : κ) : AvlTree κ δ → Option δ
  | .leaf k' d => if k = k' then some d else none
  | .node _ k' l r => if k ≤ k' then find k l else find k r

/-- The leaf that is put in the place of another leaf. -/
def insertLeaf (k : κ) (d : δ) (k' : κ) (d' : δ) : AvlTree κ δ :=
  if k = k' then .leaf k d
  else if k < k' then branch k (.leaf k d) (.leaf k' d')
  else branch k' (.leaf k' d') (.leaf k d)

def insert (k : κ) (d : δ) : AvlTree κ δ → AvlTree κ δ
  | .leaf k' d' => insertLeaf k d k' d'
  | .node _ k' l r =>
    if k ≤ k' then balanceInsert k' (insert k d l) r else balanceInsert k' l (insert k d r)

/-- Deletion; nothing is left of a leaf. -/
def delete (k : κ) : AvlTree κ δ → Option (AvlTree κ δ)
  | .leaf k' d => if k = k' then none else some (.leaf k' d)
  | .node _ k' l r =>
    if k ≤ k' then some ((delete k l).elim r fun l => balanceDelete k' l r)
    else some ((delete k r).elim l fun r => balanceDelete k' l r)

end operations

/-! ## the invariants -/

/-- The stored heights are right and the subtrees balanced. -/
def Avl : AvlTree κ δ → Prop
  | .leaf _ _ => True
  | .node h _ l r =>
    h = heightOf l r ∧ l.height ≤ r.height + 1 ∧ r.height ≤ l.height + 1 ∧ l.Avl ∧ r.Avl

/-- The item with the key `k` and the data `d` is in a leaf. -/
def Has (k : κ) (d : δ) : AvlTree κ δ → Prop
  | .leaf k' d' => k = k' ∧ d = d'
  | .node _ _ l r => l.Has k d ∨ r.Has k d

/-- The routers separate the keys. -/
def Ordered [LinearOrder κ] : AvlTree κ δ → Prop
  | .leaf _ _ => True
  | .node _ k' l r =>
    (∀ k d, l.Has k d → k ≤ k') ∧ (∀ k d, r.Has k d → k' < k) ∧ l.Ordered ∧ r.Ordered

@[simp] theorem height_leaf (k : κ) (d : δ) : (leaf k d).height = 0 := rfl

@[simp] theorem height_node (h : Nat) (k : κ) (l r : AvlTree κ δ) : (node h k l r).height = h := rfl

@[simp] theorem height_branch (k : κ) (l r : AvlTree κ δ) :
    (branch k l r).height = heightOf l r := rfl

@[simp] theorem has_branch (k' : κ) (l r : AvlTree κ δ) (k : κ) (d : δ) :
    (branch k' l r).Has k d ↔ l.Has k d ∨ r.Has k d := Iff.rfl

@[simp] theorem balance_branch (k : κ) (l r : AvlTree κ δ) :
    (branch k l r).balance = r.height - l.height := rfl

@[simp] theorem rotateRight_branch (k k₁ : κ) (a b c : AvlTree κ δ) :
    rotateRight k (branch k₁ a b) c = branch k₁ a (branch k b c) := rfl

@[simp] theorem rotateLeft_branch (k k₂ : κ) (a b c : AvlTree κ δ) :
    rotateLeft k a (branch k₂ b c) = branch k₂ (branch k a b) c := rfl

@[simp] theorem doubleRotateRight_branch (k k₁ k₂ : κ) (a b c d : AvlTree κ δ) :
    doubleRotateRight k (branch k₁ a (branch k₂ b c)) d =
      branch k₂ (branch k₁ a b) (branch k c d) := rfl

@[simp] theorem doubleRotateLeft_branch (k k₂ k₃ : κ) (a b c d : AvlTree κ δ) :
    doubleRotateLeft k a (branch k₃ (branch k₂ b c) d) =
      branch k₂ (branch k a b) (branch k₃ c d) := rfl

theorem avl_branch {k : κ} {l r : AvlTree κ δ} :
    (branch k l r).Avl ↔ l.height ≤ r.height + 1 ∧ r.height ≤ l.height + 1 ∧ l.Avl ∧ r.Avl :=
  ⟨fun h => h.2, fun h => ⟨rfl, h⟩⟩

theorem heightOf_le (l r : AvlTree κ δ) :
    l.height < heightOf l r ∧ r.height < heightOf l r ∧
      (heightOf l r = l.height + 1 ∨ heightOf l r = r.height + 1) := by
  unfold heightOf
  split <;> omega

theorem heightOf_eq (l r : AvlTree κ δ) : heightOf l r = max l.height r.height + 1 := by
  unfold heightOf
  split <;> omega

/-- A tree of height `0` is a leaf. -/
theorem Avl.exists_node {t : AvlTree κ δ} (h : t.Avl) (hpos : 0 < t.height) :
    ∃ k l r, t = branch k l r ∧ l.height ≤ r.height + 1 ∧ r.height ≤ l.height + 1 ∧ l.Avl ∧
      r.Avl := by
  cases t with
  | leaf k d => cases hpos
  | node hh k l r =>
    obtain ⟨rfl, h⟩ := h
    exact ⟨k, l, r, rfl, h⟩

/-! ## balance -/

section balance

variable {k : κ} {l r : AvlTree κ δ}

/-- After a deletion on one side the subtrees differ by two at most; then the
node is repaired, and is as high as before or one lower. -/
theorem avl_balanceDelete (hl : l.Avl) (hr : r.Avl) (hlr : l.height ≤ r.height + 2)
    (hrl : r.height ≤ l.height + 2) :
    (balanceDelete k l r).Avl ∧
      (balanceDelete k l r).height ≤ max l.height r.height + 1 ∧
      max l.height r.height ≤ (balanceDelete k l r).height := by
  unfold balanceDelete
  by_cases hleft : (r.height : Int) - l.height < -1
  · obtain ⟨k₁, a, b, rfl, hab, hba, ha, hb⟩ := hl.exists_node (by omega)
    have hh := heightOf_le a b
    rw [if_pos hleft]
    rw [height_branch] at hleft hlr
    by_cases hbal : (branch k₁ a b).balance = 1
    · rw [if_pos hbal]
      rw [balance_branch] at hbal
      obtain ⟨k₂, c, d, rfl, hcd, hdc, hc, hd⟩ := hb.exists_node (by omega)
      simp only [doubleRotateRight_branch, avl_branch, height_branch, heightOf_eq] at *
      and_intros <;> first | assumption | omega
    · rw [if_neg hbal]
      rw [balance_branch] at hbal
      simp only [rotateRight_branch, avl_branch, height_branch, heightOf_eq] at *
      and_intros <;> first | assumption | omega
  · by_cases hright : 1 < (r.height : Int) - l.height
    · obtain ⟨k₁, a, b, rfl, hab, hba, ha, hb⟩ := hr.exists_node (by omega)
      have hh := heightOf_le a b
      rw [if_neg hleft, if_pos hright]
      rw [height_branch] at hleft hright hrl
      by_cases hbal : (branch k₁ a b).balance = -1
      · rw [if_pos hbal]
        rw [balance_branch] at hbal
        obtain ⟨k₂, c, d, rfl, hcd, hdc, hc, hd⟩ := ha.exists_node (by omega)
        simp only [doubleRotateLeft_branch, avl_branch, height_branch, heightOf_eq] at *
        and_intros <;> first | assumption | omega
      · rw [if_neg hbal]
        rw [balance_branch] at hbal
        simp only [rotateLeft_branch, avl_branch, height_branch, heightOf_eq] at *
        and_intros <;> first | assumption | omega
    · rw [if_neg hleft, if_neg hright, avl_branch, height_branch]
      have hh := heightOf_le l r
      refine ⟨⟨by omega, by omega, hl, hr⟩, ?_, ?_⟩ <;> omega

theorem balanceInsert_eq_branch (hlr : l.height ≤ r.height + 1) (hrl : r.height ≤ l.height + 1) :
    balanceInsert k l r = branch k l r := by
  unfold balanceInsert
  rw [if_neg (by omega), if_neg (by omega)]

theorem balanceDelete_eq_branch (hlr : l.height ≤ r.height + 1) (hrl : r.height ≤ l.height + 1) :
    balanceDelete k l r = branch k l r := by
  unfold balanceDelete
  rw [if_neg (by omega), if_neg (by omega)]

/-- A subtree that has become too high by an insertion is not itself balanced;
the rotation makes the node as high as it was before. -/
theorem avl_balanceInsert (hl : l.Avl) (hr : r.Avl)
    (h : l.height = r.height + 2 ∧ l.balance ≠ 0 ∨ r.height = l.height + 2 ∧ r.balance ≠ 0) :
    (balanceInsert k l r).Avl ∧ (balanceInsert k l r).height = max l.height r.height := by
  unfold balanceInsert
  rcases h with ⟨hh, hne⟩ | ⟨hh, hne⟩
  · obtain ⟨k₁, a, b, rfl, hab, hba, ha, hb⟩ := hl.exists_node (by omega)
    rw [if_pos (by omega)]
    rw [balance_branch] at hne
    rw [height_branch] at hh
    by_cases hbal : (branch k₁ a b).balance = -1
    · rw [if_pos hbal]
      rw [balance_branch] at hbal
      simp only [rotateRight_branch, avl_branch, height_branch, heightOf_eq] at *
      and_intros <;> first | assumption | omega
    · rw [if_neg hbal]
      rw [balance_branch] at hbal
      obtain ⟨k₂, c, d, rfl, hcd, hdc, hc, hd⟩ := hb.exists_node (by omega)
      rw [if_pos (by rw [balance_branch]; omega)]
      simp only [doubleRotateRight_branch, avl_branch, height_branch, heightOf_eq] at *
      and_intros <;> first | assumption | omega
  · obtain ⟨k₁, a, b, rfl, hab, hba, ha, hb⟩ := hr.exists_node (by omega)
    rw [if_neg (by omega), if_pos (by omega)]
    rw [balance_branch] at hne
    rw [height_branch] at hh
    by_cases hbal : (branch k₁ a b).balance = 1
    · rw [if_pos hbal]
      rw [balance_branch] at hbal
      simp only [rotateLeft_branch, avl_branch, height_branch, heightOf_eq] at *
      and_intros <;> first | assumption | omega
    · rw [if_neg hbal]
      rw [balance_branch] at hbal
      obtain ⟨k₂, c, d, rfl, hcd, hdc, hc, hd⟩ := ha.exists_node (by omega)
      rw [if_pos (by rw [balance_branch]; omega)]
      simp only [doubleRotateLeft_branch, avl_branch, height_branch, heightOf_eq] at *
      and_intros <;> first | assumption | omega

/-- What an insertion does to the height of a subtree: it stays, or it grows by
one, and then the subtree leans to one side unless it was a leaf. -/
structure AfterInsert (t t' : AvlTree κ δ) : Prop where
  avl : t'.Avl
  height : t'.height = t.height ∨ t'.height = t.height + 1
  leans : t'.height = t.height + 1 → 2 ≤ t'.height → t'.balance ≠ 0

/-- One level up from an insertion on the left. -/
theorem AfterInsert.left {l l' r : AvlTree κ δ} (h : AfterInsert l l') (hr : r.Avl)
    (hlr : l.height ≤ r.height + 1) (hrl : r.height ≤ l.height + 1) (k : κ) :
    AfterInsert (branch k l r) (balanceInsert k l' r) := by
  have hh := h.height
  by_cases hrot : l'.height = r.height + 2
  · obtain ⟨havl, hheight⟩ := avl_balanceInsert (k := k) h.avl hr
      (.inl ⟨hrot, h.leans (by omega) (by omega)⟩)
    have hsum := heightOf_le l r
    have hsame : heightOf l r = l.height + 1 := by
      unfold heightOf
      rw [if_pos (by omega)]
    exact ⟨havl, .inl (by rw [hheight, height_branch]; omega), fun hgrow => by
      rw [hheight, height_branch] at hgrow
      omega⟩
  · rw [balanceInsert_eq_branch (by omega) (by omega)]
    refine ⟨avl_branch.mpr ⟨by omega, by omega, h.avl, hr⟩, ?_, ?_⟩
    all_goals
      simp only [height_branch, balance_branch, heightOf_eq]
      omega

/-- One level up from an insertion on the right. -/
theorem AfterInsert.right {l r r' : AvlTree κ δ} (h : AfterInsert r r') (hl : l.Avl)
    (hlr : l.height ≤ r.height + 1) (hrl : r.height ≤ l.height + 1) (k : κ) :
    AfterInsert (branch k l r) (balanceInsert k l r') := by
  have hh := h.height
  by_cases hrot : r'.height = l.height + 2
  · obtain ⟨havl, hheight⟩ := avl_balanceInsert (k := k) hl h.avl
      (.inr ⟨hrot, h.leans (by omega) (by omega)⟩)
    have hsame : heightOf l r = r.height + 1 := by
      unfold heightOf
      rw [if_neg (by omega)]
    exact ⟨havl, .inl (by rw [hheight, height_branch]; omega), fun hgrow => by
      rw [hheight, height_branch] at hgrow
      omega⟩
  · rw [balanceInsert_eq_branch (by omega) (by omega)]
    refine ⟨avl_branch.mpr ⟨by omega, by omega, hl, h.avl⟩, ?_, ?_⟩
    all_goals
      simp only [height_branch, balance_branch, heightOf_eq]
      omega

/-- What a deletion does to the height of a subtree. -/
structure AfterDelete (t t' : AvlTree κ δ) : Prop where
  avl : t'.Avl
  height : t'.height = t.height ∨ t'.height + 1 = t.height

theorem AfterDelete.left {l l' r : AvlTree κ δ} (h : AfterDelete l l') (hr : r.Avl)
    (hlr : l.height ≤ r.height + 1) (hrl : r.height ≤ l.height + 1) (k : κ) :
    AfterDelete (branch k l r) (balanceDelete k l' r) := by
  have hh := h.height
  obtain ⟨havl, hle, hge⟩ := avl_balanceDelete (k := k) h.avl hr (by omega) (by omega)
  refine ⟨havl, ?_⟩
  rw [height_branch]
  have hsum := heightOf_le l r
  by_cases hbal : r.height ≤ l'.height + 1
  · have hmk := balanceDelete_eq_branch (k := k) (l := l') (r := r) (by omega) hbal
    have hsum' := heightOf_le l' r
    rw [hmk, height_branch]
    rw [heightOf_eq, heightOf_eq]
    omega
  · omega

theorem AfterDelete.right {l r r' : AvlTree κ δ} (h : AfterDelete r r') (hl : l.Avl)
    (hlr : l.height ≤ r.height + 1) (hrl : r.height ≤ l.height + 1) (k : κ) :
    AfterDelete (branch k l r) (balanceDelete k l r') := by
  have hh := h.height
  obtain ⟨havl, hle, hge⟩ := avl_balanceDelete (k := k) hl h.avl (by omega) (by omega)
  refine ⟨havl, ?_⟩
  rw [height_branch]
  have hsum := heightOf_le l r
  by_cases hbal : l.height ≤ r'.height + 1
  · have hmk := balanceDelete_eq_branch (k := k) (l := l) (r := r') hbal (by omega)
    rw [hmk, height_branch]
    rw [heightOf_eq, heightOf_eq]
    omega
  · omega

end balance

/-! ## the operations keep the balance -/

section operations

variable [LinearOrder κ] {k : κ} {t : AvlTree κ δ}

theorem inserted_insertLeaf (k : κ) (d : δ) (k' : κ) (d' : δ) :
    AfterInsert (.leaf k' d') (insertLeaf k d k' d') := by
  unfold insertLeaf
  split
  · exact ⟨trivial, .inl rfl, fun h => absurd h (by simp [AvlTree.height])⟩
  · split
    all_goals
      refine ⟨avl_branch.mpr ⟨by simp, by simp, trivial, trivial⟩, ?_, ?_⟩
      all_goals simp [heightOf]

theorem Avl.inserted (h : t.Avl) (k : κ) (d : δ) : AfterInsert t (insert k d t) := by
  induction t with
  | leaf k' d' => exact inserted_insertLeaf k d k' d'
  | node hh k' l r ihl ihr =>
    obtain ⟨rfl, hlr, hrl, hl, hr⟩ := h
    unfold insert
    split
    · exact (ihl hl).left hr hlr hrl k'
    · exact (ihr hr).right hl hlr hrl k'

theorem delete_eq_none {k : κ} {t : AvlTree κ δ} (h : delete k t = none) :
    ∃ d, t = .leaf k d := by
  cases t with
  | leaf k' d =>
    unfold delete at h
    split at h
    · next heq => exact ⟨d, by rw [heq]⟩
    · cases h
  | node hh k' l r =>
    unfold delete at h
    split at h <;> cases h

theorem Avl.deleted (h : t.Avl) {t' : AvlTree κ δ} (hdel : delete k t = some t') :
    AfterDelete t t' := by
  induction t generalizing t' with
  | leaf k' d' =>
    unfold delete at hdel
    split at hdel
    · cases hdel
    · cases hdel
      exact ⟨h, .inl rfl⟩
  | node hh k' l r ihl ihr =>
    obtain ⟨rfl, hlr, hrl, hl, hr⟩ := h
    have hsum := heightOf_le l r
    unfold delete at hdel
    split at hdel
    · obtain rfl := Option.some.inj hdel
      cases hl' : delete k l with
      | none =>
        obtain ⟨d, rfl⟩ := delete_eq_none hl'
        refine ⟨hr, ?_⟩
        simp only [Option.elim_none, height, heightOf_eq] at *
        omega
      | some l' => exact (ihl hl hl').left hr hlr hrl k'
    · obtain rfl := Option.some.inj hdel
      cases hr' : delete k r with
      | none =>
        obtain ⟨d, rfl⟩ := delete_eq_none hr'
        refine ⟨hl, ?_⟩
        simp only [Option.elim_none, height, heightOf_eq] at *
        omega
      | some r' => exact (ihr hr hr').right hl hlr hrl k'

end operations

/-! ## the operations keep the order -/

section order

variable {k k' : κ} {d : δ} {l r t : AvlTree κ δ}

theorem has_rotateRight : (rotateRight k' l r).Has k d ↔ l.Has k d ∨ r.Has k d := by
  cases l with
  | leaf => exact Iff.rfl
  | node => simp [rotateRight, Has, or_assoc]

theorem has_rotateLeft : (rotateLeft k' l r).Has k d ↔ l.Has k d ∨ r.Has k d := by
  cases r with
  | leaf => exact Iff.rfl
  | node => simp [rotateLeft, Has, or_assoc]

theorem has_doubleRotateRight : (doubleRotateRight k' l r).Has k d ↔ l.Has k d ∨ r.Has k d := by
  cases l with
  | leaf => exact Iff.rfl
  | node hh k₁ a b => cases b <;> simp [doubleRotateRight, Has, or_assoc]

theorem has_doubleRotateLeft : (doubleRotateLeft k' l r).Has k d ↔ l.Has k d ∨ r.Has k d := by
  cases r with
  | leaf => exact Iff.rfl
  | node hh k₁ a b => cases a <;> simp [doubleRotateLeft, Has, or_assoc]

@[simp] theorem has_balanceInsert : (balanceInsert k' l r).Has k d ↔ l.Has k d ∨ r.Has k d := by
  unfold balanceInsert
  split_ifs
  all_goals
    first
    | exact has_branch _ _ _ _ _
    | exact has_rotateRight
    | exact has_doubleRotateRight
    | exact has_rotateLeft
    | exact has_doubleRotateLeft

@[simp] theorem has_balanceDelete : (balanceDelete k' l r).Has k d ↔ l.Has k d ∨ r.Has k d := by
  unfold balanceDelete
  split_ifs
  all_goals
    first
    | exact has_branch _ _ _ _ _
    | exact has_rotateRight
    | exact has_doubleRotateRight
    | exact has_rotateLeft
    | exact has_doubleRotateLeft

/-- A tree is not empty. -/
theorem exists_has (t : AvlTree κ δ) : ∃ k d, t.Has k d := by
  induction t with
  | leaf k d => exact ⟨k, d, rfl, rfl⟩
  | node _ _ _ _ ihl _ =>
    obtain ⟨k, d, h⟩ := ihl
    exact ⟨k, d, .inl h⟩

variable [LinearOrder κ]

theorem ordered_branch : (branch k' l r).Ordered ↔
    (∀ k d, l.Has k d → k ≤ k') ∧ (∀ k d, r.Has k d → k' < k) ∧ l.Ordered ∧ r.Ordered := Iff.rfl

theorem ordered_rotateRight (h : (branch k' l r).Ordered) : (rotateRight k' l r).Ordered := by
  cases l with
  | leaf => exact h
  | node hh k₁ a b =>
    obtain ⟨x, y, hx⟩ := b.exists_has
    simp only [rotateRight, ordered_branch, Ordered, has_branch, Has] at h ⊢
    grind

theorem ordered_rotateLeft (h : (branch k' l r).Ordered) : (rotateLeft k' l r).Ordered := by
  cases r with
  | leaf => exact h
  | node hh k₁ a b =>
    obtain ⟨x, y, hx⟩ := a.exists_has
    simp only [rotateLeft, ordered_branch, Ordered, has_branch, Has] at h ⊢
    grind

theorem ordered_doubleRotateRight (h : (branch k' l r).Ordered) :
    (doubleRotateRight k' l r).Ordered := by
  cases l with
  | leaf => exact h
  | node hh k₁ a b =>
    cases b with
    | leaf => exact h
    | node hh' k₂ b c =>
      obtain ⟨x, y, hx⟩ := b.exists_has
      obtain ⟨x', y', hx'⟩ := c.exists_has
      simp only [doubleRotateRight, ordered_branch, Ordered, has_branch, Has] at h ⊢
      grind

theorem ordered_doubleRotateLeft (h : (branch k' l r).Ordered) :
    (doubleRotateLeft k' l r).Ordered := by
  cases r with
  | leaf => exact h
  | node hh k₁ a b =>
    cases a with
    | leaf => exact h
    | node hh' k₂ a c =>
      obtain ⟨x, y, hx⟩ := a.exists_has
      obtain ⟨x', y', hx'⟩ := c.exists_has
      simp only [doubleRotateLeft, ordered_branch, Ordered, has_branch, Has] at h ⊢
      grind

theorem ordered_balanceInsert (h : (branch k' l r).Ordered) : (balanceInsert k' l r).Ordered := by
  unfold balanceInsert
  split_ifs
  all_goals
    first
    | exact h
    | exact ordered_rotateRight h
    | exact ordered_doubleRotateRight h
    | exact ordered_rotateLeft h
    | exact ordered_doubleRotateLeft h

theorem ordered_balanceDelete (h : (branch k' l r).Ordered) : (balanceDelete k' l r).Ordered := by
  unfold balanceDelete
  split_ifs
  all_goals
    first
    | exact h
    | exact ordered_rotateRight h
    | exact ordered_doubleRotateRight h
    | exact ordered_rotateLeft h
    | exact ordered_doubleRotateLeft h

/-- The keys on the other side of a router. -/
theorem Ordered.not_has_right {hh : Nat} (h : (node hh k' l r).Ordered) (hk : k ≤ k') :
    ¬ r.Has k d := fun hd => absurd (h.2.1 k d hd) (not_lt.mpr hk)

theorem Ordered.not_has_left {hh : Nat} (h : (node hh k' l r).Ordered) (hk : ¬ k ≤ k') :
    ¬ l.Has k d := fun hd => hk (h.1 k d hd)

/-- A search finds the item of a key. -/
theorem Ordered.find_eq (h : t.Ordered) : find k t = some d ↔ t.Has k d := by
  induction t with
  | leaf k' d' =>
    unfold find Has
    split
    · next heq => simp [heq, eq_comm]
    · next hne => simp [hne]
  | node hh k' l r ihl ihr =>
    unfold find Has
    split
    · next hk => rw [ihl h.2.2.1, or_iff_left (h.not_has_right hk)]
    · next hk => rw [ihr h.2.2.2, or_iff_right (h.not_has_left hk)]

theorem has_insertLeaf {x : κ} {y : δ} (k : κ) (d : δ) (k' : κ) (d' : δ) :
    (insertLeaf k d k' d').Has x y ↔ x = k ∧ y = d ∨ x ≠ k ∧ x = k' ∧ y = d' := by
  unfold insertLeaf
  split_ifs
  all_goals
    simp only [has_branch, Has]
    grind

theorem ordered_insertLeaf (k : κ) (d : δ) (k' : κ) (d' : δ) : (insertLeaf k d k' d').Ordered := by
  unfold insertLeaf
  split_ifs
  · trivial
  all_goals
    simp only [ordered_branch, Ordered, Has]
    grind

/-- An insertion replaces the item of its key. -/
theorem Ordered.has_insert (h : t.Ordered) {x : κ} {y : δ} (k : κ) (d : δ) :
    (insert k d t).Has x y ↔ x = k ∧ y = d ∨ x ≠ k ∧ t.Has x y := by
  induction t with
  | leaf k' d' => exact has_insertLeaf k d k' d'
  | node hh k' l r ihl ihr =>
    unfold insert
    split
    · next hk =>
      have hr : x = k → ¬ r.Has x y := fun hx => h.not_has_right (hx ▸ hk)
      rw [has_balanceInsert, ihl h.2.2.1]
      simp only [Has]
      grind
    · next hk =>
      have hl : x = k → ¬ l.Has x y := fun hx => h.not_has_left (hx ▸ hk)
      rw [has_balanceInsert, ihr h.2.2.2]
      simp only [Has]
      grind

theorem Ordered.insert (h : t.Ordered) (k : κ) (d : δ) : (insert k d t).Ordered := by
  induction t with
  | leaf k' d' => exact ordered_insertLeaf k d k' d'
  | node hh k' l r ihl ihr =>
    obtain ⟨hleft, hright, hl, hr⟩ := h
    unfold AvlTree.insert
    split
    · next hk =>
      refine ordered_balanceInsert ⟨fun x y hx => ?_, hright, ihl hl, hr⟩
      rcases (hl.has_insert k d).mp hx with ⟨rfl, -⟩ | ⟨-, hx⟩
      · exact hk
      · exact hleft x y hx
    · next hk =>
      refine ordered_balanceInsert ⟨hleft, fun x y hx => ?_, hl, ihr hr⟩
      rcases (hr.has_insert k d).mp hx with ⟨rfl, -⟩ | ⟨-, hx⟩
      · exact not_le.mp hk
      · exact hright x y hx

/-- A deletion removes the item of its key. -/
theorem Ordered.deleted (h : t.Ordered) {t' : AvlTree κ δ} (hdel : delete k t = some t') :
    t'.Ordered ∧ ∀ x y, t'.Has x y ↔ x ≠ k ∧ t.Has x y := by
  induction t generalizing t' with
  | leaf k' d' =>
    unfold delete at hdel
    split at hdel
    · cases hdel
    · next hne =>
      cases hdel
      refine ⟨trivial, fun x y => ?_⟩
      simp only [Has]
      grind
  | node hh k' l r ihl ihr =>
    have hord := h
    obtain ⟨hleft, hright, hl, hr⟩ := h
    unfold delete at hdel
    split at hdel
    · next hk =>
      have hnot : ∀ x y, x = k → ¬ r.Has x y := fun x y hx => hord.not_has_right (hx ▸ hk)
      obtain rfl := Option.some.inj hdel
      cases hl' : delete k l with
      | none =>
        obtain ⟨d, rfl⟩ := delete_eq_none hl'
        refine ⟨hr, fun x y => ?_⟩
        simp only [Option.elim_none, Has]
        grind
      | some l' =>
        obtain ⟨hord', hhas⟩ := ihl hl hl'
        refine ⟨ordered_balanceDelete ⟨fun x y hx => hleft x y ((hhas x y).mp hx).2, hright, hord',
          hr⟩, fun x y => ?_⟩
        rw [Option.elim_some, has_balanceDelete, hhas]
        simp only [Has]
        grind
    · next hk =>
      have hnot : ∀ x y, x = k → ¬ l.Has x y := fun x y hx => hord.not_has_left (hx ▸ hk)
      obtain rfl := Option.some.inj hdel
      cases hr' : delete k r with
      | none =>
        obtain ⟨d, rfl⟩ := delete_eq_none hr'
        refine ⟨hl, fun x y => ?_⟩
        simp only [Option.elim_none, Has]
        grind
      | some r' =>
        obtain ⟨hord', hhas⟩ := ihr hr hr'
        refine ⟨ordered_balanceDelete ⟨hleft, fun x y hx => hright x y ((hhas x y).mp hx).2, hl,
          hord'⟩, fun x y => ?_⟩
        rw [Option.elim_some, has_balanceDelete, hhas]
        simp only [Has]
        grind

/-- What a search finds after an insertion. -/
theorem Ordered.find_insert (h : t.Ordered) (k : κ) (d : δ) :
    (fun x => find x (AvlTree.insert k d t)) = Function.update (fun x => find x t) k (some d) := by
  funext x
  refine Option.ext fun y => ?_
  rw [(h.insert k d).find_eq, h.has_insert]
  by_cases hx : x = k
  · rw [hx, Function.update_self]
    simp [eq_comm]
  · rw [Function.update_of_ne hx, h.find_eq]
    simp [hx]

/-- What a search finds after a deletion. -/
theorem Ordered.find_deleted (h : t.Ordered) {t' : AvlTree κ δ} (hdel : delete k t = some t') :
    (fun x => find x t') = Function.update (fun x => find x t) k none := by
  obtain ⟨hord, hhas⟩ := h.deleted hdel
  funext x
  refine Option.ext fun y => ?_
  rw [hord.find_eq, hhas]
  by_cases hx : x = k
  · rw [hx, Function.update_self]
    simp
  · rw [Function.update_of_ne hx, h.find_eq]
    simp [hx]

/-- Deleting the only item. -/
theorem find_deleted_last (hdel : delete k t = none) :
    Function.update (fun x => find x t) k none = fun _ => none := by
  obtain ⟨d, rfl⟩ := delete_eq_none hdel
  funext x
  by_cases hx : x = k
  · rw [hx, Function.update_self]
  · rw [Function.update_of_ne hx]
    exact if_neg hx

end order

/-! ## the height -/

/-- The number of items. -/
def size : AvlTree κ δ → Nat
  | .leaf _ _ => 1
  | .node _ _ l r => l.size + r.size

/-- A tree of height `h` has at least as many items as the Fibonacci number of
`h + 2`. -/
theorem Avl.fib_le_size {t : AvlTree κ δ} (h : t.Avl) : Nat.fib (t.height + 2) ≤ t.size := by
  induction t with
  | leaf => exact Nat.le_refl 1
  | node hh k l r ihl ihr =>
    obtain ⟨rfl, hlr, hrl, hl, hr⟩ := h
    have hl' := ihl hl
    have hr' := ihr hr
    rw [size, height, heightOf_eq]
    rcases Nat.le_total l.height r.height with hle | hle
    · have hmono := Nat.fib_mono (show r.height + 1 ≤ l.height + 2 by omega)
      have hsum : Nat.fib (r.height + 1 + 2) = Nat.fib (r.height + 1) + Nat.fib (r.height + 2) :=
        Nat.fib_add_two
      rw [Nat.max_eq_right hle]
      omega
    · have hmono := Nat.fib_mono (show l.height + 1 ≤ r.height + 2 by omega)
      have hsum : Nat.fib (l.height + 1 + 2) = Nat.fib (l.height + 1) + Nat.fib (l.height + 2) :=
        Nat.fib_add_two
      rw [Nat.max_eq_left hle]
      omega

end AvlTree
