import Shades.Gc.CopyCell

/-!
# Shades.Gc.Drain

The copy stack is drained.

A slot that is popped refers to a cell that is collected, which is copied, or to one that
stays where it is.  If that one is to be collected later, the slot is remembered with its
generation.  Every slot is popped once, so the stack is empty in the end.
-/

namespace Shades

namespace Heap

variable {params : HeapParams} {s₀ s : Heap} {B : Nat → Prop} {roots left stack : List Nat}
  {c : CopyState} {p b gn : Nat} {status : GenerationStatus}

/-! ## a slot that refers elsewhere -/

theorem generationOf_eq (h : s.gens.pageGeneration (params.ptrToPageNumber p) = s.gens.address gn) :
    s.generationOf params p = gn := by
  unfold generationOf
  rw [h, Generations.address, Nat.add_sub_cancel_left, sizeofGenerationInfo]
  exact Nat.mul_div_cancel gn (by decide)

theorem Copying.isInFirstGeneration (h : Copying params s₀ B roots c s)
    (hp : s₀.allocationPtr ≤ p ∨ p < params.firstGenerationEnd) :
    s.isInFirstGeneration params p = .ok (decide (s₀.allocationPtr ≤ p)) := by
  unfold Heap.isInFirstGeneration
  rw [h.allocationPtr]
  exact if_neg (by omega)

/-- The generation that a cell is in is found by its page. -/
theorem Copying.generationOf (h : Copying params s₀ B roots c s) (h₀ : s₀.FromSpace params B roots)
    (hgn : (s₀.gens.status gn).IsLive) (hp : params.ptrToPageNumber p ∈ s₀.gens.page gn) :
    s.generationOf params p = gn ∧ s.statusOf params p = s₀.gens.status gn := by
  have heq := generationOf_eq (h.page h₀ hgn hp).2
  exact ⟨heq, by rw [statusOf, heq, h.status]⟩

theorem FromSpace.refersTo_iff (h₀ : s₀.FromSpace params B roots) (hgn : (s₀.gens.status gn).IsLive)
    (hb : params.ptrToPageNumber (wordToPtr (s₀.words b)) ∈ s₀.gens.page gn) {gn' : Nat} :
    s₀.refersTo params gn' b = true ↔ gn' = gn ∧ s₀.gens.status gn = .toBeCollected := by
  obtain ⟨ages, froms, twice, hsound⟩ := h₀.gens
  rw [refersTo, decide_eq_true_iff]
  constructor
  · rintro ⟨hstatus, hb'⟩
    have hgn' : (s₀.gens.status gn').IsLive := hstatus ▸ isLive_toBeCollected
    have hgeneration := (hsound.pages.allocated trivial hgn hb).2
    have hgeneration' := (hsound.pages.allocated trivial hgn' hb').2
    obtain rfl := Generations.address_injective _ (hgeneration.symm.trans hgeneration')
    exact ⟨rfl, hstatus⟩
  · rintro ⟨rfl, hstatus⟩
    exact ⟨hstatus, hb⟩

/-- A slot refers to a cell that is not collected.  It is as it was. -/
theorem Copying.skip (h : Copying params s₀ B roots c s) (h₀ : s₀.FromSpace params B roots)
    (hleft : c.left = b :: left) (hB : ¬ B (wordToPtr (s₀.words b))) {remSets : Nat → List Nat}
    (hrem : ∀ gn, remSets gn =
      if s₀.refersTo params gn b then c.move b :: s.remSets gn else s.remSets gn) :
    Copying params s₀ B roots { c with left := left, done := b :: c.done }
      { s with remSets := remSets } := by
  have hb : b ∈ c.done ++ (c.stack ++ c.left) := by simp [hleft]
  obtain ⟨-, haligned, htarget⟩ := h₀.target h.traversed h.cells hb
  have hout := (htarget.resolve_left hB).2
  have hmove : c.move (wordToPtr (s₀.words b)) = wordToPtr (s₀.words b) :=
    h.move_of_not fun p hp => hout p (h.cells p hp)
  have hvalue : slotValue s₀.words { c with left := left, done := b :: c.done } =
      slotValue s₀.words c := by
    funext b'
    by_cases heq : b' = b
    · subst heq
      simp [slotValue, hmove, haligned]
    · simp [slotValue, heq]
  exact {
    traversed := by
      refine h.traversed.follow (by rw [hleft]; exact List.perm_middle) fun q hq => ?_
      obtain ⟨hq, rfl⟩ := cellGraph_target.mp hq
      exact absurd hq hB
    cells := h.cells
    declared := h.declared
    pushed := h.pushed
    copyStack := h.copyStack
    allocationPtr := h.allocationPtr
    smartPtrs := h.smartPtrs
    filled := h.filled
    sound := h.sound
    move_eq := h.move_eq
    move_of_not := h.move_of_not
    forward := h.forward
    header := h.header
    field := by
      rw [hvalue]
      exact h.field
    other := by
      rw [hvalue]
      exact h.other
    laidOut := ⟨h.laidOut.full, h.laidOut.current, h.laidOut.none, h.laidOut.visited⟩
    remSets := by
      intro gn
      dsimp only
      rw [hrem, h.remSets gn, List.filter_cons]
      split <;> rfl }

/-! ## a slot is popped -/

theorem Copying.pop (h : Copying params s₀ B roots c s) (hstack : c.stack = b :: stack) :
    Copying params s₀ B roots { c with stack := stack, left := b :: c.left }
      { s with copyStack := stack.map c.move } where
  traversed := by
    refine h.traversed.perm ?_
    rw [hstack]
    exact List.perm_middle
  cells := h.cells
  declared := h.declared
  pushed := fun b' hb' => h.pushed b' (hstack ▸ List.mem_cons_of_mem b hb')
  copyStack := rfl
  allocationPtr := h.allocationPtr
  smartPtrs := h.smartPtrs
  filled := h.filled
  sound := h.sound
  move_eq := h.move_eq
  move_of_not := h.move_of_not
  forward := h.forward
  header := h.header
  field := h.field
  other := h.other
  laidOut := ⟨h.laidOut.full, h.laidOut.current, h.laidOut.none, h.laidOut.visited⟩
  remSets := h.remSets

theorem Copying.drainSlot (h : Copying params s₀ B roots c s) (h₀ : s₀.FromSpace params B roots)
    (hleft : c.left = b :: left) :
    Ends (s.drainSlot params (c.move b))
      (fun t => ∃ c', Copying params s₀ B roots c' t ∧ c'.left = left ∧ c'.done = b :: c.done ∧
        c'.rems = c.rems)
      (CopyFailure s₀.words B) := by
  have hb : b ∈ c.stack ++ c.left := by simp [hleft]
  have hword := h.pending h₀ hb
  obtain ⟨hne, -, htarget⟩ := h₀.target h.traversed h.cells (List.mem_append_right _ hb)
  have hallocated := h₀.allocated
  unfold Heap.drainSlot
  rw [hword, if_neg hne]
  dsimp only
  -- what is not in the first generation is in a page
  have hmature : ∀ {status}, s₀.InStatus params status (wordToPtr (s₀.words b)) →
      s.isInFirstGeneration params (wordToPtr (s₀.words b)) = .ok false := by
    rintro status ⟨hlt, -⟩
    rw [h.isInFirstGeneration (.inr hlt), decide_eq_false (by omega)]
  by_cases hB : B (wordToPtr (s₀.words b))
  · have hcopy := h.copyCell h₀ hleft hB
    rcases h₀.collected hB with hfirst | hstatus
    · rw [h.isInFirstGeneration (.inl hfirst), decide_eq_true hfirst]
      exact hcopy
    · rw [hmature hstatus]
      obtain ⟨-, gn, -, hgn, hpn⟩ := hstatus
      have hlive : (s₀.gens.status gn).IsLive := hgn ▸ isLive_beingCollected
      rw [ends_ok_bind]
      simp only [(h.generationOf h₀ hlive hpn).2, hgn]
      exact hcopy
  · obtain ⟨hnormal | hmarked, -⟩ := htarget.resolve_left hB
    · rw [hmature hnormal]
      obtain ⟨-, gn, -, hgn, hpn⟩ := hnormal
      have hlive : (s₀.gens.status gn).IsLive := hgn ▸ isLive_normal
      rw [ends_ok_bind]
      simp only [(h.generationOf h₀ hlive hpn).2, hgn]
      refine ⟨_, h.skip h₀ hleft hB fun gn' => (?_ : s.remSets gn' = _), rfl, rfl, rfl⟩
      rw [if_neg]
      intro hrefers
      have := ((h₀.refersTo_iff hlive hpn).mp hrefers).2
      simp [hgn] at this
    · rw [hmature hmarked]
      obtain ⟨-, gn, -, hgn, hpn⟩ := hmarked
      have hlive : (s₀.gens.status gn).IsLive := hgn ▸ isLive_toBeCollected
      obtain ⟨hgeneration, hstatus⟩ := h.generationOf h₀ hlive hpn
      rw [ends_ok_bind]
      simp only [hstatus, hgn, hgeneration]
      refine ⟨_, h.skip h₀ hleft hB fun gn' => ?_, rfl, rfl, rfl⟩
      by_cases heq : gn' = gn
      · subst heq
        rw [if_pos ((h₀.refersTo_iff hlive hpn).mpr ⟨rfl, hgn⟩)]
        exact Function.update_self ..
      · rw [if_neg fun hrefers => heq ((h₀.refersTo_iff hlive hpn).mp hrefers).1]
        exact Function.update_of_ne heq _ _

/-! ## the stack -/

/-- There are no more slots than words. -/
theorem Copying.length_le (h : Copying params s₀ B roots c s) (h₀ : s₀.FromSpace params B roots) :
    c.done.length + c.stack.length ≤ roots.length + params.firstGenerationStart := by
  have hlength := h.traversed.length_eq
  have hslots := (List.nodup_append.mp (h₀.nodup h.traversed.nodup h.cells)).2.1
  have hsubset : c.visited.flatMap (slots s₀.words) ⊆ List.range params.firstGenerationStart := by
    intro b hb
    obtain ⟨p, hp, hb⟩ := List.mem_flatMap.mp hb
    exact List.mem_range.mpr
      (h₀.inside (h.cells p hp) (h₀.slot_insideCell (h.cells p hp) hb))
  have hle := (hslots.subperm hsubset).length_le
  rw [List.length_range] at hle
  simp only [List.length_append, cellGraph] at hlength
  omega

theorem Copying.drainCopyStack (h₀ : s₀.FromSpace params B roots) {turns : Nat}
    (h : Copying params s₀ B roots c s) (hleft : c.left = [])
    (hturns : roots.length + params.firstGenerationStart < c.done.length + turns) :
    Ends (s.drainCopyStack params turns)
      (fun t => ∃ c', Copying params s₀ B roots c' t ∧ c'.stack = [] ∧ c'.left = [] ∧
        c'.rems = c.rems)
      (CopyFailure s₀.words B) := by
  induction turns generalizing c s with
  | zero =>
    have hlength := h.length_le h₀
    omega
  | succ turns ih =>
    unfold Heap.drainCopyStack
    rw [h.copyStack]
    cases hstack : c.stack with
    | nil => exact ⟨c, h, hstack, hleft, rfl⟩
    | cons b stack =>
      refine ((h.pop hstack).drainSlot h₀ rfl).bind ?_
      rintro t ⟨c', ht, hleft', hdone, hrems⟩
      refine (ih ht (hleft'.trans hleft) ?_).imp ?_
      · rw [hdone]
        simp only [List.length_cons]
        omega
      · rintro u ⟨c'', hu, hstack'', hleft'', hrems'⟩
        exact ⟨c'', hu, hstack'', hleft'', hrems'.trans hrems⟩

/-- No slot of the root set is left. -/
theorem Copying.drain (h : Copying params s₀ B roots c s) (h₀ : s₀.FromSpace params B roots)
    (hleft : c.left = []) (hdone : c.done.length = roots.length) :
    Ends (s.drain params)
      (fun t => ∃ c', Copying params s₀ B roots c' t ∧ c'.stack = [] ∧ c'.left = [] ∧
        c'.rems = c.rems)
      (CopyFailure s₀.words B) :=
  h.drainCopyStack h₀ hleft (by omega)

end Heap

end Shades
