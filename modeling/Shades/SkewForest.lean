import Mathlib.Data.List.Basic
import Shades.Bits

/-!
# Shades.SkewForest

Queues as forests of perfect trees.  The heights of the trees in the tail are
those of a skew binary number: they increase, only the first two may be equal.
So an item is added at the end in constant time: when the first two trees have
equal heights the new item becomes their root.

The items of a tree are taken from the newest to the oldest: the root is newer
than the items below it, and one son is newer than the other one.  The head of
the queue is a list of trees in the reverse order, so the oldest item is in its
first tree, and that tree is dismantled to take it out.
-/

namespace SkewForest

variable {α : Type}

/-- A tree with its item and its two sons. -/
inductive SkewTree (α : Type) where
  | single (item : α)
  | node (item : α) (newer older : SkewTree α)
deriving DecidableEq, Repr

namespace SkewTree

/-- The length of the paths, all alike in a perfect tree. -/
def height : SkewTree α → Nat
  | single _ => 0
  | node _ newer _ => newer.height + 1

/-- The items, the newest first. -/
def items : SkewTree α → List α
  | single x => [x]
  | node x newer older => x :: (newer.items ++ older.items)

def Perfect : SkewTree α → Prop
  | single _ => True
  | node _ newer older => newer.height = older.height ∧ newer.Perfect ∧ older.Perfect

@[simp] theorem height_single (x : α) : (single x).height = 0 := rfl

@[simp] theorem height_node (x : α) (l r : SkewTree α) : (node x l r).height = l.height + 1 := rfl

@[simp] theorem items_single (x : α) : (single x).items = [x] := rfl

@[simp] theorem items_node (x : α) (l r : SkewTree α) :
    (node x l r).items = x :: (l.items ++ r.items) := rfl

@[simp] theorem perfect_single (x : α) : (single x).Perfect := trivial

@[simp] theorem perfect_node {x : α} {l r : SkewTree α} :
    (node x l r).Perfect ↔ l.height = r.height ∧ l.Perfect ∧ r.Perfect := Iff.rfl

theorem items_ne_nil (t : SkewTree α) : t.items ≠ [] := by
  cases t <;> simp

/-- A perfect tree is full. -/
theorem Perfect.length_items {t : SkewTree α} (ht : t.Perfect) :
    t.items.length + 1 = 2 ^ (t.height + 1) := by
  induction t with
  | single x => simp
  | node x l r ihl ihr =>
    obtain ⟨heq, hl, hr⟩ := ht
    have hlen := ihl hl
    have hlen' := ihr hr
    rw [← heq] at hlen'
    rw [items_node, List.length_cons, List.length_append, height_node, pow_succ]
    omega

/-- A tree of few items is low. -/
theorem Perfect.height_lt {t : SkewTree α} (ht : t.Perfect) {k : Nat}
    (hk : t.items.length + 1 < 2 ^ (k + 1)) : t.height < k := by
  rw [ht.length_items] at hk
  have hlt := (Nat.pow_lt_pow_iff_right (by decide : 1 < 2)).mp hk
  omega

end SkewTree

open SkewTree

/-! ## the tail -/

/-- The heights of the trees: the first two may be equal. -/
def Skew : List (SkewTree α) → Prop
  | [] => True
  | t :: ts => (∀ u ∈ ts, t.height ≤ u.height) ∧ ts.Pairwise fun u v => u.height < v.height

/-- A new item in front of the tail. -/
def insertTail (x : α) : List (SkewTree α) → List (SkewTree α)
  | t :: u :: rest =>
    if t.height = u.height then node x t u :: rest else single x :: t :: u :: rest
  | ts => single x :: ts

variable {x : α} {t u : SkewTree α} {ts rest head : List (SkewTree α)}

theorem items_insertTail : (insertTail x ts).flatMap items = x :: ts.flatMap items := by
  unfold insertTail
  split
  · split
    · simp
    · rfl
  · rfl

theorem insertTail_ne_nil (x : α) (ts : List (SkewTree α)) : insertTail x ts ≠ [] := by
  unfold insertTail
  split
  · split <;> simp
  · simp

theorem Skew.insertTail (h : Skew ts) (x : α) : Skew (insertTail x ts) := by
  unfold SkewForest.insertTail
  split
  · next t u rest =>
    obtain ⟨hle, hpair⟩ := h
    obtain ⟨hlt, hrest⟩ := List.pairwise_cons.mp hpair
    split
    · next heq =>
      refine ⟨fun v hv => ?_, hrest⟩
      rw [height_node, heq]
      exact hlt v hv
    · next hne =>
      refine ⟨fun v _ => Nat.zero_le _, List.pairwise_cons.mpr ⟨fun v hv => ?_, hpair⟩⟩
      have hfirst := hle u List.mem_cons_self
      rcases List.mem_cons.mp hv with rfl | hv
      · omega
      · have hsecond := hlt v hv
        omega
  · next hshort =>
    cases ts with
    | nil => exact ⟨by simp, List.Pairwise.nil⟩
    | cons t rest =>
      cases rest with
      | nil => exact ⟨fun v _ => Nat.zero_le _, List.pairwise_singleton _ _⟩
      | cons u rest => exact absurd rfl (hshort t u rest)

theorem perfect_insertTail (h : ∀ t ∈ ts, t.Perfect) (x : α) :
    ∀ t ∈ insertTail x ts, t.Perfect := by
  unfold insertTail
  split
  · next t u rest =>
    obtain ⟨ht, hrest⟩ := List.forall_mem_cons.mp h
    obtain ⟨hu, hrest⟩ := List.forall_mem_cons.mp hrest
    split
    · next heq => exact List.forall_mem_cons.mpr ⟨⟨heq, ht, hu⟩, hrest⟩
    · exact List.forall_mem_cons.mpr ⟨trivial, h⟩
  · exact List.forall_mem_cons.mpr ⟨trivial, h⟩

/-- There are few trees when the heights are bounded. -/
theorem length_le_of_pairwise {k : Nat} (low : Nat) (h : ts.Pairwise fun u v => u.height < v.height)
    (hlow : ∀ u ∈ ts, low ≤ u.height) (hk : ∀ u ∈ ts, u.height < k) (hle : low ≤ k) :
    ts.length + low ≤ k := by
  induction ts generalizing low with
  | nil => simpa
  | cons t ts ih =>
    obtain ⟨hlt, hpair⟩ := List.pairwise_cons.mp h
    have hfirst := hlow t List.mem_cons_self
    have hheight := hk t List.mem_cons_self
    have hrest := ih (low + 1) hpair
      (fun u hu => Nat.lt_of_le_of_lt hfirst (hlt u hu))
      (fun u hu => hk u (List.mem_cons_of_mem _ hu)) (by omega)
    rw [List.length_cons]
    omega

theorem Skew.length_le {k : Nat} (h : Skew ts) (hk : ∀ u ∈ ts, u.height < k) :
    ts.length ≤ k + 1 := by
  cases ts with
  | nil => simp
  | cons t ts =>
    have hrest := length_le_of_pairwise 0 h.2 (fun _ _ => Nat.zero_le _)
      (fun u hu => hk u (List.mem_cons_of_mem _ hu)) (Nat.zero_le k)
    rw [List.length_cons]
    omega

/-! ## the head -/

/-- The first tree of the head without its oldest item: its other items are
trees in front of the head. -/
def removeOldest : SkewTree α → List (SkewTree α) → List (SkewTree α)
  | single _, head => head
  | node x newer older, head => removeOldest older (newer :: single x :: head)

/-- The items of the head, the oldest first. -/
def headItems (head : List (SkewTree α)) : List α := head.flatMap fun t => t.items.reverse

@[simp] theorem headItems_nil : headItems ([] : List (SkewTree α)) = [] := rfl

@[simp] theorem headItems_cons : headItems (t :: head) = t.items.reverse ++ headItems head := rfl

theorem headItems_append (head head' : List (SkewTree α)) :
    headItems (head ++ head') = headItems head ++ headItems head' := List.flatMap_append

theorem headItems_reverse (ts : List (SkewTree α)) :
    headItems ts.reverse = (ts.flatMap items).reverse := by
  induction ts with
  | nil => rfl
  | cons t ts ih => simp [headItems_append, ih]

/-- The oldest item is gone, and the others keep their order. -/
theorem headItems_removeOldest (t : SkewTree α) (head : List (SkewTree α)) :
    headItems (removeOldest t head) = (headItems (t :: head)).tail := by
  induction t generalizing head with
  | single x => simp [removeOldest]
  | node x newer older _ ih =>
    have hne : older.items.reverse ≠ [] := by simp [older.items_ne_nil]
    simp [removeOldest, ih, List.tail_append_of_ne_nil hne]

theorem removeOldest_ne_nil (t : SkewTree α) (h : head ≠ []) : removeOldest t head ≠ [] := by
  induction t generalizing head with
  | single x => exact h
  | node x newer older _ ih => exact ih (by simp)

theorem perfect_removeOldest (ht : t.Perfect) (h : ∀ u ∈ head, u.Perfect) :
    ∀ u ∈ removeOldest t head, u.Perfect := by
  induction t generalizing head with
  | single x => exact h
  | node x newer older _ ih =>
    obtain ⟨-, hnewer, holder⟩ := ht
    exact ih holder (List.forall_mem_cons.mpr ⟨hnewer, List.forall_mem_cons.mpr ⟨trivial, h⟩⟩)

/-! ## queues -/

/-- A queue: the oldest item is in the first tree of the head, and the newest
item is the root of the first tree of the tail. -/
structure SkewQueue (α : Type) where
  head : List (SkewTree α)
  tail : List (SkewTree α)

namespace SkewQueue

variable (q : SkewQueue α)

/-- The items, the oldest first. -/
def contents : List α := headItems q.head ++ (q.tail.flatMap items).reverse

/-- The trees are perfect, and the heights in the tail are skew. -/
structure Ordered : Prop where
  head : ∀ t ∈ q.head, t.Perfect
  tail : ∀ t ∈ q.tail, t.Perfect
  skew : Skew q.tail

/-- A new item at the end.  The first item of a queue is its head. -/
def insertLast (x : α) : SkewQueue α :=
  if q.head = [] ∧ q.tail = [] then ⟨[single x], []⟩ else ⟨q.head, insertTail x q.tail⟩

/-- The queue without the oldest item.  When the head is empty the trees of the
tail move to the head. -/
def removeFirst : SkewQueue α :=
  match q.head with
  | t :: head => ⟨removeOldest t head, q.tail⟩
  | [] =>
    match q.tail.reverse with
    | [] => ⟨[], []⟩
    | t :: head => ⟨removeOldest t head, []⟩

variable {q}

theorem contents_insertLast (x : α) : (q.insertLast x).contents = q.contents ++ [x] := by
  unfold insertLast
  split
  · next h => simp [contents, h.1, h.2]
  · simp [contents, items_insertTail]

theorem contents_removeFirst : q.removeFirst.contents = q.contents.tail := by
  unfold removeFirst
  split
  · next t head hhead =>
    have hne : headItems (t :: head) ≠ [] := by simp [t.items_ne_nil]
    simp only [contents, headItems_removeOldest, hhead, List.tail_append_of_ne_nil hne]
  · next hhead =>
    split
    · next htail => simp [contents, hhead, List.reverse_eq_nil_iff.mp htail]
    · next t head htail =>
      simp only [contents, headItems_removeOldest, hhead, ← headItems_reverse, htail]
      simp

theorem Ordered.insertLast (h : q.Ordered) (x : α) : (q.insertLast x).Ordered := by
  unfold SkewQueue.insertLast
  split
  · exact ⟨by simp, by simp, trivial⟩
  · exact ⟨h.head, perfect_insertTail h.tail x, h.skew.insertTail x⟩

theorem Ordered.removeFirst (h : q.Ordered) : q.removeFirst.Ordered := by
  unfold SkewQueue.removeFirst
  split
  · next t head hhead =>
    obtain ⟨ht, hrest⟩ := List.forall_mem_cons.mp (hhead ▸ h.head)
    exact ⟨perfect_removeOldest ht hrest, h.tail, h.skew⟩
  · split
    · exact ⟨by simp, by simp, trivial⟩
    · next t head htail =>
      have hperfect : ∀ u ∈ t :: head, u.Perfect := fun u hu =>
        h.tail u (List.mem_reverse.mp (htail ▸ hu))
      obtain ⟨ht, hrest⟩ := List.forall_mem_cons.mp hperfect
      exact ⟨perfect_removeOldest ht hrest, by simp, trivial⟩

/-- The trees of a queue have no more items than the queue. -/
theorem length_items_le (ht : t ∈ q.head ∨ t ∈ q.tail) :
    t.items.length ≤ q.contents.length := by
  rcases ht with ht | ht
  · have hle := List.Sublist.length_le
      (List.sublist_flatten_of_mem (List.mem_map_of_mem (f := fun t => t.items.reverse) ht))
    simp only [contents, headItems, List.length_append]
    rw [List.length_reverse] at hle
    exact Nat.le_trans hle (Nat.le_add_right _ _)
  · have hle := List.Sublist.length_le
      (List.sublist_flatten_of_mem (List.mem_map_of_mem (f := items) ht))
    simp only [contents, List.length_append, List.length_reverse]
    exact Nat.le_trans hle (Nat.le_add_left _ _)

/-- The trees of a queue of few items are low. -/
theorem Ordered.height_lt (h : q.Ordered) {k : Nat} (hk : q.contents.length + 1 < 2 ^ (k + 1))
    (ht : t ∈ q.head ∨ t ∈ q.tail) : t.height < k := by
  have hle := length_items_le ht
  exact (ht.elim (h.head t) (h.tail t)).height_lt (by omega)

end SkewQueue

end SkewForest
