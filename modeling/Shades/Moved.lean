import Shades.CellEqual
import Shades.Lists

/-!
# Shades.Moved

What a commit does to the cells that are still in use.

`flush_batch` copies the cells that can be reached to other places and makes
every pointer to them follow.  Only the cells that can be reached count: what
the others become does not matter.  `Moved` says this for the declared words of
cells, and lists that are reached are found again with their items moved.
-/

namespace Shades

/-! ## words after a move -/

/-- A pointer after its cell was moved. -/
def movedPtr (place : Nat → Nat) (x : Nat) : Nat :=
  if wordToPtr x = nullPtr then x else ptrToWord (place (wordToPtr x))

/-- A word of a type after the cells were moved. -/
def movedWord (place : Nat → Nat) (type : WordType) (x : Nat) : Nat :=
  match type with
  | .ptr | .nonnullPtr => movedPtr place x
  | .tagged => if taggedIsPtr x then movedPtr place x else x
  | .word | .void => x

section words

variable {place : Nat → Nat} {type : WordType} {p : Nat}

theorem movedPtr_ptrToWord (hp : p ≠ nullPtr) :
    movedPtr place (ptrToWord p) = ptrToWord (place p) := by
  rw [movedPtr, wordToPtr_ptrToWord, if_neg hp]

/-- A pointer moves in the same way whatever its type is. -/
theorem movedWord_ptrToWord (htype : type.points = true) (hp : p ≠ nullPtr) :
    movedWord place type (ptrToWord p) = ptrToWord (place p) := by
  cases type <;> simp_all [movedWord, movedPtr_ptrToWord, taggedIsPtr_ptrToWord, WordType.points]

@[simp] theorem movedWord_nullWord : movedWord place type nullWord = nullWord := by
  cases type <;> simp [movedWord, movedPtr, nullWord, wordToPtr, nullPtr]

end words

/-! ## the cells in use -/

/-- The words that can be reached from some words, through cells that are no
continuation frames. -/
inductive Reached (words : Nat → Nat) (roots : WordType → Nat → Prop) : WordType → Nat → Prop
  | root {type : WordType} {x : Nat} (h : roots type x) : Reached words roots type x
  | field {type type' : WordType} {x p i : Nat} (h : Reached words roots type x)
      (hp : PointsTo type x p) (hne : p ≠ nullPtr)
      (hcont : cellType (words p) ≠ CellType.cont.code)
      (hmem : Decl.field type' i ∈ cellDecls words p) : Reached words roots type' (words (p + i))

/-- A cell that can be reached. -/
structure CellReached (words : Nat → Nat) (roots : WordType → Nat → Prop) (p : Nat) : Prop where
  reached : ∃ type x, Reached words roots type x ∧ PointsTo type x p
  ne_null : p ≠ nullPtr
  not_cont : cellType (words p) ≠ CellType.cont.code

/-- The cells that can be reached are found again in `words'`, each at its new
place, in the region `S`. -/
structure Moved (place : Nat → Nat) (roots : WordType → Nat → Prop) (words words' : Nat → Nat)
    (S : Nat → Prop) : Prop where
  ne_null : ∀ p, CellReached words roots p → place p ≠ nullPtr
  header : ∀ p, CellReached words roots p → words' (place p) = words p ∧ S (place p)
  field : ∀ p type i, CellReached words roots p → Decl.field type i ∈ cellDecls words p →
    words' (place p + i) = movedWord place type (words (p + i)) ∧ S (place p + i)

/-! ## lists -/

section lists

variable {words words' : Nat → Nat} {S S' : Nat → Prop} {x p : Nat} {items : List Nat}

theorem cellDecls_list (h : cellType (words p) = CellType.list.code) :
    cellDecls words p = [.field .tagged 1, .field .tagged 2] := by
  simp only [cellDecls, cellTypeOf_eq_some.mpr h]
  rfl

/-- A list that is not empty. -/
theorem ListAt.uncons (h : ListAt words S x items) (hx : x ≠ nullWord) :
    ∃ p, x = ptrToWord p ∧ p ≠ nullPtr ∧ cellType (words p) = CellType.list.code ∧
      (∀ i < 3, S (p + i)) ∧ ListAt words S (words (p + 2)) items.tail ∧
      items = words (p + 1) :: items.tail := by
  cases h with
  | nil => exact absurd rfl hx
  | cons hp htype hregion hcar hcdr hrest =>
    exact ⟨_, rfl, hp, htype, hregion, hcdr ▸ hrest, by rw [hcar, List.tail_cons]⟩

variable {place : Nat → Nat} {roots : WordType → Nat → Prop} {type : WordType}

theorem list_not_cont (h : cellType (words p) = CellType.list.code) :
    cellType (words p) ≠ CellType.cont.code := by
  rw [h]
  decide

/-- The fields of a list cell are reached. -/
theorem Reached.list_field (h : Reached words roots type (ptrToWord p))
    (htype : type.points = true) (hp : p ≠ nullPtr)
    (hlist : cellType (words p) = CellType.list.code) {i : Nat} (hi : i = 1 ∨ i = 2) :
    Reached words roots .tagged (words (p + i)) := by
  refine .field h (pointsTo_ptrToWord htype p) hp (list_not_cont hlist) ?_
  rw [cellDecls_list hlist]
  rcases hi with rfl | rfl <;> decide

/-- The items of a list are reached. -/
theorem ListAt.items_reached (h : ListAt words S x items) (hx : Reached words roots type x)
    (htype : type.points = true) : ∀ y ∈ items, Reached words roots .tagged y := by
  induction h generalizing type with
  | nil => exact nofun
  | cons hp hlist _ hcar hcdr _ ih =>
    rw [List.forall_mem_cons, ← hcar]
    exact ⟨hx.list_field htype hp hlist (.inl rfl),
      ih (hcdr ▸ hx.list_field htype hp hlist (.inr rfl)) rfl⟩

/-- A list that is reached has the same items after a move, moved themselves. -/
theorem ListAt.moved (h : ListAt words S x items) (hmoved : Moved place roots words words' S')
    (hx : Reached words roots type x) (htype : type.points = true) :
    ListAt words' S' (movedWord place type x) (items.map (movedWord place .tagged)) := by
  induction h generalizing type with
  | nil =>
    rw [movedWord_nullWord]
    exact .nil
  | @cons p y w items hp hlist hregion hy hw hrest ih =>
    have hcell : CellReached words roots p :=
      ⟨⟨type, _, hx, pointsTo_ptrToWord htype p⟩, hp, list_not_cont hlist⟩
    obtain ⟨hheader, h0⟩ := hmoved.header p hcell
    have hfield (i : Nat) (hi : i = 1 ∨ i = 2) :=
      hmoved.field p .tagged i hcell (by
        rw [cellDecls_list hlist]
        rcases hi with rfl | rfl <;> decide)
    obtain ⟨hcar, h1⟩ := hfield 1 (.inl rfl)
    obtain ⟨hcdr, h2⟩ := hfield 2 (.inr rfl)
    rw [movedWord_ptrToWord htype hp, List.map_cons]
    refine .cons (hmoved.ne_null p hcell) (by rw [hheader, hlist]) (fun i hi => ?_)
      (by rw [hcar, hy]) (by rw [hcdr, hw]) ?_
    · rcases (by omega : i = 0 ∨ i = 1 ∨ i = 2) with rfl | rfl | rfl
      · exact h0
      · exact h1
      · exact h2
    · exact ih (hw ▸ hx.list_field htype hp hlist (.inr rfl)) rfl

end lists

end Shades
