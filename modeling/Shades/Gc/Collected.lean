import Shades.Gc.Scan

/-!
# Shades.Gc.Collected

What a collection comes to.

When the copy stack is empty, exactly the cells that can be reached have been copied,
each of them once.  The copies fill the pages of the new generation, and their words are
the old ones but for the pointers to other copies.  The new pointers to generations that
are to be collected later are remembered.
-/

namespace Shades

namespace Heap

/-- What there is after the collection of the cells `B` from the slots `roots`. -/
structure Collected (params : HeapParams) (s₀ : Heap) (B : Nat → Prop) (roots : List Nat)
    (rems : Nat → List Nat) (c : CopyState) (t : Heap) : Prop where
  visited_iff : ∀ {p}, p ∈ c.visited ↔ (cellGraph s₀.words B).Reached roots p
  nodup : c.visited.Nodup
  cells : ∀ p ∈ c.visited, B p
  declared : ∀ p ∈ c.visited, Decl.abort ∉ cellDecls s₀.words p
  moved : ∀ {p}, p ∈ c.visited → CellMoved c.move s₀.words t.words p
  move_eq : ∀ {p a}, p ∈ c.visited → InsideCell s₀.words p a → c.move a = c.move p + (a - p)
  move_of_not : ∀ {a}, (∀ p ∈ c.visited, ¬ InsideCell s₀.words p a) → c.move a = a
  root : ∀ {b}, b ∈ roots → t.words b = ptrToWord (c.move (wordToPtr (s₀.words b)))
  other : ∀ {a}, s₀.Elsewhere params a → a ∉ roots → (∀ p ∈ c.visited, ¬ InsideCell s₀.words p a) →
    t.words a = s₀.words a
  /-- The pages are full of copies. -/
  page : ∀ {pn}, pn ∈ t.gens.page t.gens.toGn → ∃ used ≤ params.wordsPerPage,
    t.words (params.pageNumberToPagePtr pn + 1) = used ∧
      Tiled c.move (cellGetNumberOfWords s₀.words) (params.pageNumberToPagePtr pn + 2) (c.olds pn)
        (params.pageNumberToPagePtr pn + used)
  olds : ((t.gens.page t.gens.toGn).flatMap c.olds).Perm c.visited
  remSet : ∀ gn, ∃ bs : List Nat, t.remSets gn = bs.map c.move ++ rems gn ∧ bs.Nodup ∧
    ∀ b, b ∈ bs ↔ s₀.refersTo params gn b = true ∧ ∃ p ∈ c.visited, b ∈ slots s₀.words p
  allocationPtr : t.allocationPtr = s₀.allocationPtr
  smartPtrs : t.smartPtrs = s₀.smartPtrs
  sound : ∀ {ages froms twice}, s₀.gens.Sound params.numberOfPages True ages froms twice →
    t.gens.Sound params.numberOfPages True ages froms twice
  arrays : t.gens.ArraysSound none
  course : s₀.gens.SameCourse t.gens
  status : t.gens.status = s₀.gens.status
  pageOf : ∀ {gn}, gn ≠ s₀.gens.toGn → t.gens.page gn = s₀.gens.page gn

variable {params : HeapParams} {s₀ s : Heap} {B : Nat → Prop} {roots left : List Nat}
  {c : CopyState} {p b gn : Nat}

/-- The known slots of a collection that has come to its end. -/
theorem Copying.mem_done (h : Copying params s₀ B roots c s) (hstack : c.stack = [])
    (hleft : c.left = []) : b ∈ c.done ↔ b ∈ roots ∨ ∃ p ∈ c.visited, b ∈ slots s₀.words p := by
  have haccount := h.traversed.account.mem_iff (a := b)
  simpa [hstack, hleft, cellGraph] using haccount

theorem Copying.cellMoved (h : Copying params s₀ B roots c s) (h₀ : s₀.FromSpace params B roots)
    (hstack : c.stack = []) (hleft : c.left = []) (hp : p ∈ c.visited) :
    CellMoved c.move s₀.words s.words p where
  header := h.header p hp
  field := by
    intro type i hmem
    have hok := h₀.ok (h.cells p hp)
    rw [h.field hp hmem, slotValue]
    cases hrefers : type.refers (s₀.words (p + i)) with
    | false =>
      rw [if_neg (h.not_done h₀ (h.cells p hp) hmem hrefers), movedWord_of_not_refers hrefers]
    | true =>
      have hslot : p + i ∈ slots s₀.words p := mem_slots.mpr ⟨type, i, hmem, hrefers, rfl⟩
      rw [if_pos ((h.mem_done hstack hleft).mpr (.inr ⟨p, hp, hslot⟩)),
        movedWord_of_refers hrefers (hok.aligned _ hslot)]

theorem Copying.finishGc (h : Copying params s₀ B roots c s) (h₀ : s₀.FromSpace params B roots)
    (hstack : c.stack = []) (hleft : c.left = []) (harrays : s₀.gens.ArraysSound none)
    (hempty : s₀.gens.diskPage s₀.gens.toGn = []) (diskPages : Nat → Nat) :
    ∃ t, s.finishGc params diskPages = .ok t ∧ Collected params s₀ B roots c.rems c t := by
  obtain ⟨words, hrun, ht, hused⟩ := h.setNumberOfWordsInUse h₀
  obtain ⟨ages, froms, twice, hsound⟩ := h₀.gens
  have hlive : (s₀.gens.status s₀.gens.toGn).IsLive := h₀.normal ▸ isLive_normal
  have hfinish := fun {ages froms twice}
    (hsound : s₀.gens.Sound params.numberOfPages True ages froms twice) =>
      h.filled.finishGc (h.sound hsound) harrays hlive hempty diskPages
  obtain ⟨diskPage, history, hgens, -, hgensArrays⟩ := hfinish hsound
  unfold Heap.finishGc
  rw [hrun]
  refine ⟨_, rfl, ?_⟩
  dsimp only
  exact {
    visited_iff := by
      intro p
      have htraversed := h.traversed
      rw [hstack, hleft] at htraversed
      exact htraversed.mem_iff
    nodup := h.traversed.nodup
    cells := h.cells
    declared := h.declared
    moved := ht.cellMoved h₀ hstack hleft
    move_eq := h.move_eq
    move_of_not := h.move_of_not
    root := by
      intro b hb
      obtain ⟨helse, hout⟩ := h₀.rootsOutside hb
      rw [ht.other helse fun p hp => hout p (h.cells p hp), slotValue,
        if_pos ((h.mem_done hstack hleft).mpr (.inl hb))]
    other := by
      intro a helse hroots hout
      rw [ht.other helse hout, slotValue, if_neg]
      rw [h.mem_done hstack hleft]
      rintro (hroot | ⟨p, hp, hslot⟩)
      · exact hroots hroot
      · exact hout p hp (h₀.slot_insideCell (h.cells p hp) hslot)
    page := by
      rw [hgens]
      intro pn hpn
      obtain ⟨full, hfull, hpages⟩ := ht.laidOut.full
      dsimp only at hfull hpages hpn
      rw [hfull, List.mem_append, Option.mem_toList] at hpn
      rcases hpn with hpn | hto
      · exact hpages pn hpn
      · obtain ⟨hptr, hend, htiled⟩ := h.laidOut.current pn hto
        have hle := htiled.le
        refine ⟨s.toPtr - params.pageNumberToPagePtr pn, by omega, hused pn hto, ?_⟩
        rwa [Nat.add_sub_cancel' (by omega)]
    olds := by
      rw [hgens]
      exact h.laidOut.visited
    remSet := by
      intro gn
      refine ⟨_, h.remSets gn, ?_, fun b => ?_⟩
      · exact (List.nodup_append.mp (h.nodup h₀)).1.filter _
      · rw [List.mem_filter, h.mem_done hstack hleft]
        constructor
        · rintro ⟨hb | hslot, hrefers⟩
          · rw [h₀.not_refersTo (h₀.rootsOk hb).2.2] at hrefers
            cases hrefers
          · exact ⟨hrefers, hslot⟩
        · rintro ⟨hrefers, hslot⟩
          exact ⟨.inr hslot, hrefers⟩
    allocationPtr := h.allocationPtr
    smartPtrs := h.smartPtrs
    sound := by
      intro ages froms twice hsound
      obtain ⟨_, _, hgens, hgensSound, -⟩ := hfinish hsound
      rw [hgens]
      exact hgensSound
    arrays := by
      rw [hgens]
      exact hgensArrays
    course := by
      rw [hgens]
      obtain ⟨_, _, _, _, _, _, hs, -⟩ := h.filled
      rw [hs]
      exact ⟨rfl, rfl, rfl, rfl, rfl, rfl⟩
    status := by
      rw [hgens]
      exact h.status
    pageOf := by
      intro gn hgn
      rw [hgens]
      obtain ⟨_, _, _, _, _, _, hs, -⟩ := h.filled
      rw [hs]
      exact Function.update_of_ne hgn _ _ }

/-- The rest of a collection, when the root set has been scanned. -/
theorem Scanning.finish {rems : Nat → List Nat} (h : Scanning params s₀ B roots rems [] s c)
    (h₀ : s₀.FromSpace params B roots) (harrays : s₀.gens.ArraysSound none)
    (hempty : s₀.gens.diskPage s₀.gens.toGn = []) (diskPages : Nat → Nat) :
    Ends (s.drain params >>= fun t => t.finishGc params diskPages)
      (fun t => ∃ c', Collected params s₀ B roots rems c' t) (CopyFailure s₀.words B) := by
  refine (h.copying.drain h₀ h.left_eq h.done).bind ?_
  rintro t ⟨c', ht, hstack, hleft, hrems⟩
  obtain ⟨u, hrun, hu⟩ := ht.finishGc h₀ hstack hleft harrays hempty diskPages
  rw [hrun, ends_ok, ← h.rems_eq, ← hrems]
  exact ⟨c', hu⟩

end Heap

end Shades
