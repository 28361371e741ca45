import Shades.SkewForest
import Shades.OpenCells
import Shades.Lq.Code

/-!
# Shades.Lq.Rep

What a logarithmic queue in memory means.  `LqTreeAt words S t b p` says that the
pointer `p` is the tree `t` with the brother `b`, `NULL_PTR` if it has none, kept
in cells of the region `S`.  The right son of a node is the older one, and the
newer one is its brother.
-/

namespace Shades

open Memory Lq SkewForest

/-! ## trees in memory -/

/-- The type of an item with the brother `b` and the right son `s`. -/
def itemType (b s : Nat) : CellType :=
  if s = nullPtr then (if b = nullPtr then .lqItem00 else .lqItem01)
  else if b = nullPtr then .lqItem10 else .lqItem11

/-- The words after the item. -/
def itemLinks (b s : Nat) : List Nat :=
  (if b = nullPtr then [] else [ptrToWord b]) ++ (if s = nullPtr then [] else [ptrToWord s])

/-- An item of the height `h`. -/
structure ItemCell (words : Nat → Nat) (S : Nat → Prop) (p b s h x : Nat) : Prop where
  ne_null : p ≠ nullPtr
  header : words p = (itemType b s).header ||| h
  height_lt : h < 2 ^ 24
  cell : ∀ i < (itemLinks b s).length + 2, S (p + i)
  item : words (p + 1) = ptrToWord x
  links : slice words (p + 2) (itemLinks b s).length = itemLinks b s

/-- A tree with its brother. -/
def LqTreeAt (words : Nat → Nat) (S : Nat → Prop) : SkewTree Nat → Nat → Nat → Prop
  | .single x, b, p => ItemCell words S p b nullPtr 0 x
  | .node x newer older, b, p =>
    ∃ s n, ItemCell words S p b s (newer.height + 1) x ∧ LqTreeAt words S older n s ∧
      LqTreeAt words S newer nullPtr n

/-- A list of trees. -/
def ChainAt (words : Nat → Nat) (S : Nat → Prop) : List (SkewTree Nat) → Nat → Prop
  | [], p => p = nullPtr
  | t :: ts, p => ∃ b, LqTreeAt words S t b p ∧ ChainAt words S ts b

/-- The entry point of a queue. -/
structure EntryAt (words : Nat → Nat) (S : Nat → Prop) (Q : SkewQueue Nat) (p a b : Nat) :
    Prop where
  ne_null : p ≠ nullPtr
  cell : ∀ i < 3, S (p + i)
  head_word : words (p + 1) = ptrToWord a
  tail_word : words (p + 2) = ptrToWord b
  head : ChainAt words S Q.head a
  tail : ChainAt words S Q.tail b
  nonempty : Q.head ≠ [] ∨ Q.tail ≠ []

/-- A queue; the empty one is `NULL_PTR`. -/
def LqAt (words : Nat → Nat) (S : Nat → Prop) (Q : SkewQueue Nat) (p : Nat) : Prop :=
  (p = nullPtr ∧ Q.head = [] ∧ Q.tail = []) ∨ ∃ a b, EntryAt words S Q p a b

variable {words words' : Nat → Nat} {S S' : Nat → Prop} {p q b s h x n : Nat}
variable {t u : SkewTree Nat} {ts rest : List (SkewTree Nat)} {Q : SkewQueue Nat}

theorem ItemCell.frame (hcell : ItemCell words S p b s h x) (hagree : AgreeOn S words words')
    (hS : ∀ a, S a → S' a) : ItemCell words' S' p b s h x where
  ne_null := hcell.ne_null
  header := (hagree _ (hcell.cell 0 (by omega))).trans hcell.header
  height_lt := hcell.height_lt
  cell i hi := hS _ (hcell.cell i hi)
  item := (hagree _ (hcell.cell 1 (by omega))).trans hcell.item
  links := by
    rw [slice_congr fun i hi => ?_, hcell.links]
    rw [Nat.add_assoc]
    exact hagree _ (hcell.cell (2 + i) (by omega))

theorem LqTreeAt.frame (ht : LqTreeAt words S t b p) (hagree : AgreeOn S words words')
    (hS : ∀ a, S a → S' a) : LqTreeAt words' S' t b p := by
  induction t generalizing b p with
  | single x => exact ItemCell.frame ht hagree hS
  | node x newer older ihnewer iholder =>
    obtain ⟨s, n, hcell, hs, hn⟩ := ht
    exact ⟨s, n, hcell.frame hagree hS, iholder hs, ihnewer hn⟩

theorem ChainAt.frame (hts : ChainAt words S ts p) (hagree : AgreeOn S words words')
    (hS : ∀ a, S a → S' a) : ChainAt words' S' ts p := by
  induction ts generalizing p with
  | nil => exact hts
  | cons t ts ih =>
    obtain ⟨b, ht, hb⟩ := hts
    exact ⟨b, ht.frame hagree hS, ih hb⟩

theorem EntryAt.frame {a : Nat} (hQ : EntryAt words S Q p a b) (hagree : AgreeOn S words words')
    (hS : ∀ a, S a → S' a) : EntryAt words' S' Q p a b where
  ne_null := hQ.ne_null
  cell i hi := hS _ (hQ.cell i hi)
  head_word := (hagree _ (hQ.cell 1 (by decide))).trans hQ.head_word
  tail_word := (hagree _ (hQ.cell 2 (by decide))).trans hQ.tail_word
  head := hQ.head.frame hagree hS
  tail := hQ.tail.frame hagree hS
  nonempty := hQ.nonempty

theorem LqAt.frame (hQ : LqAt words S Q p) (hagree : AgreeOn S words words')
    (hS : ∀ a, S a → S' a) : LqAt words' S' Q p :=
  hQ.imp_right fun ⟨a, b, h⟩ => ⟨a, b, h.frame hagree hS⟩

/-! ## what an item says -/

theorem ItemCell.height_eq (hcell : ItemCell words S p b s h x) : height words p = h := by
  rw [height, hcell.header, header_or_and _ hcell.height_lt]

theorem ItemCell.isType_iff (hcell : ItemCell words S p b s h x) (type : CellType) :
    IsType words p type ↔ itemType b s = type := by
  unfold IsType
  rw [hcell.header, cellType_header_or _ hcell.height_lt]
  constructor
  · exact fun heq => CellType.code_injective heq
  · rintro rfl
    rfl

/-- The brother comes before the right son. -/
theorem ItemCell.brother (hcell : ItemCell words S p b s h x) (hb : b ≠ nullPtr) :
    words (p + 2) = ptrToWord b := by
  have hlinks := hcell.links
  unfold itemLinks at hlinks
  rw [if_neg hb, List.singleton_append, List.length_cons, slice] at hlinks
  exact (List.cons.inj hlinks).1

theorem ItemCell.son (hcell : ItemCell words S p nullPtr s h x) (hs : s ≠ nullPtr) :
    words (p + 2) = ptrToWord s := by
  have hlinks := hcell.links
  simpa [itemLinks, hs, slice] using hlinks

theorem ItemCell.son_of_brother (hcell : ItemCell words S p b s h x) (hb : b ≠ nullPtr)
    (hs : s ≠ nullPtr) : words (p + 3) = ptrToWord s := by
  have hlinks := hcell.links
  simp only [itemLinks, if_neg hb, if_neg hs, List.singleton_append, List.length_cons,
    List.length_nil, slice, List.cons.injEq, and_true] at hlinks
  exact hlinks.2

theorem LqTreeAt.ne_null (ht : LqTreeAt words S t b p) : p ≠ nullPtr := by
  cases t with
  | single x => exact ItemCell.ne_null ht
  | node x newer older =>
    obtain ⟨s, n, hcell, -⟩ := ht
    exact hcell.ne_null

/-- The cell of the root. -/
theorem LqTreeAt.root (ht : LqTreeAt words S t b p) : ∃ s x, ItemCell words S p b s t.height x := by
  cases t with
  | single x => exact ⟨_, _, ht⟩
  | node x newer older =>
    obtain ⟨s, n, hcell, -⟩ := ht
    exact ⟨_, _, hcell⟩

theorem LqTreeAt.height_eq (ht : LqTreeAt words S t b p) : height words p = t.height := by
  obtain ⟨s, x, hcell⟩ := ht.root
  exact hcell.height_eq

/-- Only the empty list is `NULL_PTR`. -/
theorem ChainAt.eq_nullPtr_iff (hts : ChainAt words S ts p) : p = nullPtr ↔ ts = [] := by
  cases ts with
  | nil => exact ⟨fun _ => rfl, fun _ => hts⟩
  | cons t ts =>
    obtain ⟨b, ht, -⟩ := hts
    exact ⟨fun heq => absurd heq ht.ne_null, fun heq => by cases heq⟩

end Shades
