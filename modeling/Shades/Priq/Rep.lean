import Shades.BinomialHeap
import Shades.OpenCells
import Shades.Priq.Code

/-!
# Shades.Priq.Rep

What a priority queue in memory means.  `HeapAt words S p q` says that the
pointer `q` is the list of the trees `p`, kept in cells of the region `S`.

While queues are merged two cells may be open: the first tree of `pq_1`, if it
is a new one, and the last tree of the new queue, whose next tree is not known
yet.
-/

namespace Shades

open Memory BinomialHeap BinomialHeap.Heap Priq

/-! ## trees in memory -/

/-- The words of a tree but for the last one. -/
structure TreeCell (words : Nat → Nat) (p h x s : Nat) : Prop where
  header : words p = CellType.priqItem.header ||| h
  height_lt : h < 2 ^ 24
  item : words (p + 1) = ptrToWord x
  son : words (p + 2) = ptrToWord s

/-- A list of trees. -/
def HeapAt (words : Nat → Nat) (S : Nat → Prop) : Heap Nat → Nat → Prop
  | .nil, p => p = nullPtr
  | .tree h x sons next, p =>
    p ≠ nullPtr ∧ (∀ i < 4, S (p + i)) ∧ ∃ s n, TreeCell words p h x s ∧
      words (p + 3) = ptrToWord n ∧ HeapAt words S sons s ∧ HeapAt words S next n

variable {words words' : Nat → Nat} {S S' : Nat → Prop} {p q h x s n : Nat} {H sons rest : Heap Nat}

theorem TreeCell.congr (hcell : TreeCell words p h x s)
    (heq : ∀ i < 3, words' (p + i) = words (p + i)) : TreeCell words' p h x s where
  header := (heq 0 (by decide)).trans hcell.header
  height_lt := hcell.height_lt
  item := (heq 1 (by decide)).trans hcell.item
  son := (heq 2 (by decide)).trans hcell.son

theorem TreeCell.height_eq (hcell : TreeCell words p h x s) : height words p = h := by
  rw [height, hcell.header, header_or_and _ hcell.height_lt]

theorem TreeCell.cellType_eq (hcell : TreeCell words p h x s) :
    cellType (words p) = CellType.priqItem.code := by
  rw [hcell.header, cellType_header_or _ hcell.height_lt]

theorem TreeCell.item_eq (hcell : TreeCell words p h x s) : Priq.item words p = x := by
  rw [Priq.item, hcell.item, wordToPtr_ptrToWord]

theorem TreeCell.son_eq (hcell : TreeCell words p h x s) : Priq.son words p = s := by
  rw [Priq.son, hcell.son, wordToPtr_ptrToWord]

namespace HeapAt

theorem frame (hH : HeapAt words S H p) (hagree : AgreeOn S words words')
    (hS : ∀ a, S a → S' a) : HeapAt words' S' H p := by
  induction H generalizing p with
  | nil => exact hH
  | tree h x sons next ihsons ihnext =>
    obtain ⟨hp, hcell, s, n, htree, hnext, hs, hn⟩ := hH
    exact ⟨hp, fun i hi => hS _ (hcell i hi), s, n,
      htree.congr fun i hi => hagree _ (hcell i (by omega)),
      (hagree _ (hcell 3 (by decide))).trans hnext, ihsons hs, ihnext hn⟩

theorem keeps {m m' : Memory} {cells cells' : List (Nat × Nat)}
    (hH : HeapAt m.words (m.Closed cells) H p) (hk : Keeps m cells m' cells') :
    HeapAt m'.words (m'.Closed cells') H p :=
  hH.frame hk.agree hk.closed

/-- Only the empty list is `NULL_PTR`. -/
theorem eq_nullPtr_iff (hH : HeapAt words S H p) : p = nullPtr ↔ H = .nil := by
  cases H with
  | nil => exact ⟨fun _ => rfl, fun _ => hH⟩
  | tree h x sons next => exact ⟨fun heq => absurd heq hH.1, fun heq => by cases heq⟩

/-- The first tree. -/
theorem tree (hH : HeapAt words S (.tree h x sons rest) p) :
    p ≠ nullPtr ∧ (∀ i < 4, S (p + i)) ∧ ∃ s, TreeCell words p h x s ∧
      HeapAt words S sons s ∧ HeapAt words S rest (next words p) := by
  obtain ⟨hp, hcell, s, n, htree, hnext, hs, hn⟩ := hH
  refine ⟨hp, hcell, s, htree, hs, ?_⟩
  rwa [Priq.next, hnext, wordToPtr_ptrToWord]

theorem next_word (hH : HeapAt words S (.tree h x sons rest) p) :
    words (p + 3) = ptrToWord (next words p) := by
  obtain ⟨hp, hcell, s, n, htree, hnext, hs, hn⟩ := hH
  rw [Priq.next, hnext, wordToPtr_ptrToWord]

/-- A tree in front of a list. -/
theorem cons (hp : p ≠ nullPtr) (hS : ∀ i < 4, S (p + i)) (hcell : TreeCell words p h x s)
    (hnext : words (p + 3) = ptrToWord n) (hsons : HeapAt words S sons s)
    (hrest : HeapAt words S rest n) : HeapAt words S (.tree h x sons rest) p :=
  ⟨hp, hS, s, n, hcell, hnext, hsons, hrest⟩

/-- All heights fit in the cells. -/
theorem below (hH : HeapAt words S H p) : H.Below (2 ^ 24) := by
  induction H generalizing p with
  | nil => trivial
  | tree h x sons next _ ih =>
    obtain ⟨-, -, s, htree, -, hn⟩ := hH.tree
    exact ⟨htree.height_lt, ih hn⟩

end HeapAt

/-! ## open cells -/

/-- The queue `pq_1`: it is complete and its heights increase, or its first tree
is open. -/
inductive FirstAt (words : Nat → Nat) (S : Nat → Prop) :
    List (Nat × Nat) → Heap Nat → Nat → Prop
  | complete {p : Nat} {H : Heap Nat} (hH : HeapAt words S H p) (hroots : H.Roots 0) :
      FirstAt words S [] H p
  | new {p h x s n : Nat} {sons rest : Heap Nat} (hp : p ≠ nullPtr)
      (hcell : TreeCell words p h x s) (hnext : words (p + 3) = ptrToWord n)
      (hsons : HeapAt words S sons s) (hrest : HeapAt words S rest n) :
      FirstAt words S [(p, 4)] (.tree h x sons rest) p

/-- The first tree of `pq_1`. -/
theorem FirstAt.tree {c : List (Nat × Nat)} (hF : FirstAt words S c (.tree h x sons rest) p) :
    p ≠ nullPtr ∧ words (p + 3) = ptrToWord (Priq.next words p) ∧ ∃ s, TreeCell words p h x s ∧
      HeapAt words S sons s ∧ HeapAt words S rest (Priq.next words p) := by
  cases hF with
  | complete hH _ =>
    obtain ⟨hp, -, s, hcell, hs, hrest⟩ := hH.tree
    exact ⟨hp, hH.next_word, s, hcell, hs, hrest⟩
  | new hp hcell hnext hsons hrest =>
    have heq : Priq.next words p = wordToPtr (words (p + 3)) := rfl
    rw [hnext, wordToPtr_ptrToWord] at heq
    exact ⟨hp, by rw [heq, hnext], _, hcell, hsons, by rwa [heq]⟩

theorem FirstAt.eq_nullPtr_iff {c : List (Nat × Nat)} (hF : FirstAt words S c H p) :
    p = nullPtr ↔ H = .nil := by
  cases hF with
  | complete hH _ => exact hH.eq_nullPtr_iff
  | new hp _ _ _ _ => exact ⟨fun heq => absurd heq hp, fun heq => by cases heq⟩

/-- The new queue from `p` to `last`; the last tree is open. -/
inductive QueueTo (words : Nat → Nat) (S : Nat → Prop) (last : Nat) : Heap Nat → Nat → Prop
  | last {h x s : Nat} {sons : Heap Nat} (hlast : last ≠ nullPtr)
      (hcell : TreeCell words last h x s) (hsons : HeapAt words S sons s) :
      QueueTo words S last (.tree h x sons .nil) last
  | cons {p h x s n : Nat} {sons rest : Heap Nat} (hp : p ≠ nullPtr) (hS : ∀ i < 4, S (p + i))
      (hcell : TreeCell words p h x s) (hnext : words (p + 3) = ptrToWord n)
      (hsons : HeapAt words S sons s) (hrest : QueueTo words S last rest n) :
      QueueTo words S last (.tree h x sons rest) p

/-- The new queue: nothing yet, or a list with an open end. -/
inductive NewQueue (words : Nat → Nat) (S : Nat → Prop) :
    List (Nat × Nat) → Heap Nat → Nat → Nat → Prop
  | nil {p : Nat} : NewQueue words S [] .nil p nullPtr
  | upTo {last p : Nat} {H : Heap Nat} (hlast : last ≠ nullPtr) (hto : QueueTo words S last H p) :
      NewQueue words S [(last, 4)] H p last

theorem QueueTo.frame {last : Nat} (hto : QueueTo words S last H p)
    (hagree : AgreeOn S words words') (hS : ∀ a, S a → S' a)
    (hcell : ∀ i < 3, words' (last + i) = words (last + i)) : QueueTo words' S' last H p := by
  induction hto with
  | last hlast htree hsons => exact .last hlast (htree.congr hcell) (hsons.frame hagree hS)
  | cons hp hcells htree hnext hsons _ ih =>
    exact .cons hp (fun i hi => hS _ (hcells i hi))
      (htree.congr fun i hi => hagree _ (hcells i (by omega)))
      ((hagree _ (hcells 3 (by decide))).trans hnext) (hsons.frame hagree hS) ih

/-- The next tree of the last one is known. -/
theorem QueueTo.close {last r : Nat} {R : Heap Nat} (hto : QueueTo words S last H p)
    (hS : ∀ i < 4, S (last + i)) (hnext : words (last + 3) = ptrToWord r)
    (hR : HeapAt words S R r) : HeapAt words S (H.append R) p := by
  induction hto with
  | last hlast htree hsons => exact .cons hlast hS htree hnext hsons hR
  | cons hp hcells htree hn hsons _ ih => exact .cons hp hcells htree hn hsons ih

/-- Another tree at the end. -/
theorem QueueTo.snoc {last r : Nat} (hto : QueueTo words S last H p)
    (hS : ∀ i < 4, S (last + i)) (hnext : words (last + 3) = ptrToWord r) (hr : r ≠ nullPtr)
    (hcell : TreeCell words r h x s) (hsons : HeapAt words S sons s) :
    QueueTo words S r (H.append (.tree h x sons .nil)) p := by
  induction hto with
  | last hlast htree hsons' =>
    exact .cons hlast hS htree hnext hsons' (.last hr hcell hsons)
  | cons hp hcells htree hn hsons' _ ih => exact .cons hp hcells htree hn hsons' ih

end Shades
