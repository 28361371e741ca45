import Shades.Gc.Drain

/-!
# Shades.Gc.Scan

The root set and the remembered sets are scanned, and what a collection has done in the
end.

Only the slots that refer to what is collected are followed.  When no slot is left, the
cells that were copied are those that can be reached from these slots, and each word
that refers to one of them refers to its copy.
-/

namespace Shades

namespace Heap

variable {params : HeapParams} {s₀ s : Heap} {B : Nat → Prop} {roots left : List Nat}
  {c : CopyState} {p b gn : Nat}

/-! ## the beginning -/

/-- Nothing has been copied. -/
def CopyState.start (roots : List Nat) (rems : Nat → List Nat) : CopyState where
  visited := []
  stack := []
  left := roots
  done := []
  move := id
  olds := fun _ => []
  rems := rems

theorem FromSpace.start (h₀ : s₀.FromSpace params B roots) :
    Copying params s₀ B roots (.start roots s₀.remSets) s₀ where
  traversed := .start _ roots
  cells := nofun
  declared := nofun
  pushed := nofun
  copyStack := h₀.copyStack
  allocationPtr := rfl
  smartPtrs := rfl
  filled := .refl _
  sound := id
  move_eq := nofun
  move_of_not := fun _ => rfl
  forward := nofun
  header := nofun
  field := nofun
  other := fun _ _ => rfl
  laidOut := {
    full := ⟨[], by simp [h₀.noPage, h₀.toPn], nofun⟩
    current := by simp [h₀.toPn]
    none := fun _ => h₀.toPtr
    visited := by simp [h₀.noPage, CopyState.start] }
  remSets := fun _ => rfl

/-! ## roots -/

/-- A root is where it was. -/
theorem Copying.move_root (h : Copying params s₀ B roots c s) (h₀ : s₀.FromSpace params B roots)
    (hb : b ∈ roots) : c.move b = b :=
  h.move_of_not fun p hp => (h₀.rootsOutside hb).2 p (h.cells p hp)

/-- Roots are followed until none is left in a part of them. -/
structure Scanning (params : HeapParams) (s₀ : Heap) (B : Nat → Prop) (roots : List Nat)
    (rems : Nat → List Nat) (left : List Nat) (s : Heap) (c : CopyState) : Prop where
  copying : Copying params s₀ B roots c s
  left_eq : c.left = left
  done : c.done.length + left.length = roots.length
  rems_eq : c.rems = rems

/-- The first root that is left is followed. -/
theorem Scanning.copyCell {rems : Nat → List Nat}
    (h : Scanning params s₀ B roots rems (b :: left) s c) (h₀ : s₀.FromSpace params B roots)
    (hb : b ∈ roots) :
    Ends (s.copyCell params b) (fun t => ∃ c', Scanning params s₀ B roots rems left t c')
      (CopyFailure s₀.words B) := by
  have hcopy := h.copying.copyCell h₀ h.left_eq (h₀.rootsOk hb).2.2
  rw [h.copying.move_root h₀ hb] at hcopy
  refine hcopy.imp ?_
  rintro t ⟨c', ht, hleft, hdone, hrems⟩
  have hlength := h.done
  rw [List.length_cons] at hlength
  exact ⟨c', ht, hleft, by rw [hdone, List.length_cons]; omega, hrems.trans h.rems_eq⟩

/-- What is in a root that is left. -/
theorem Scanning.word {rems : Nat → List Nat}
    (h : Scanning params s₀ B roots rems (b :: left) s c) (h₀ : s₀.FromSpace params B roots)
    (hb : b ∈ roots) : s.words b = s₀.words b := by
  have hword := h.copying.pending h₀ (b := b) (by simp [h.left_eq])
  rwa [h.copying.move_root h₀ hb] at hword

/-- The slots `pps` of the root set are scanned, of which those that are selected are roots. -/
theorem Scanning.scanRoots (h₀ : s₀.FromSpace params B roots) {rems : Nat → List Nat}
    {isFrom : Heap → Nat → Except HeapFailure Bool} (selects : Nat → Bool) {pps : List Nat}
    (hfrom : ∀ pp ∈ pps, s₀.words pp ≠ nullWord → ∀ {c s}, Copying params s₀ B roots c s →
      isFrom s (wordToPtr (s₀.words pp)) = .ok (selects pp))
    (hroots : ∀ pp ∈ pps, pp ∈ roots ↔ s₀.words pp ≠ nullWord ∧ selects pp = true)
    (hout : ∀ pp ∈ pps, s₀.Elsewhere params pp ∧ ∀ p, B p → ¬ InsideCell s₀.words p pp)
    (h : Scanning params s₀ B roots rems
      (pps.filter fun pp => s₀.words pp != nullWord && selects pp) s c) :
    Ends (pps.foldlM (scanRoot params isFrom) s)
      (fun t => ∃ c', Scanning params s₀ B roots rems [] t c') (CopyFailure s₀.words B) := by
  induction pps generalizing s c with
  | nil => exact ⟨c, h⟩
  | cons pp pps ih =>
    rw [List.foldlM_cons]
    rw [List.forall_mem_cons] at hfrom hroots hout
    refine Ends.bind (P := fun t => ∃ c', Scanning params s₀ B roots rems
      (pps.filter fun pp => s₀.words pp != nullWord && selects pp) t c') ?_ ?_
    · unfold scanRoot
      by_cases hroot : pp ∈ roots
      · obtain ⟨hne, hselects⟩ := hroots.1.mp hroot
        rw [List.filter_cons, if_pos (by simp [hne, hselects])] at h
        rw [h.word h₀ hroot, if_neg hne, hfrom.1 hne h.copying, hselects]
        exact h.copyCell h₀ hroot
      · -- a slot that is not selected is as it was
        have hnot : ¬ (s₀.words pp != nullWord && selects pp) = true := fun hselects =>
          hroot (hroots.1.mpr (by simpa using hselects))
        rw [List.filter_cons, if_neg hnot] at h
        rw [h.copying.untouched h₀ hout.1.1 hroot hout.1.2]
        by_cases hnull : s₀.words pp = nullWord
        · rw [if_pos hnull]
          exact ⟨c, h⟩
        · have hselects : selects pp = false := by simpa [hnull] using hnot
          rw [if_neg hnull, hfrom.1 hnull h.copying, hselects]
          exact ⟨c, h⟩
    · rintro t ⟨c', ht⟩
      exact ih hfrom.2 hroots.2 hout.2 ht

/-! ## remembered sets -/

/-- The slots that are remembered with a generation that is collected. -/
theorem Scanning.remembered (h₀ : s₀.FromSpace params B roots) {rems : Nat → List Nat}
    (hgn : (s₀.gens.status gn).IsLive) {pps : List Nat}
    (hpps : ∀ pp ∈ pps, pp ∈ roots ∧
      params.ptrToPageNumber (wordToPtr (s₀.words pp)) ∈ s₀.gens.page gn)
    (h : Scanning params s₀ B roots rems (pps ++ left) s c) :
    Ends (pps.foldlM (fun s pp =>
        if s.gens.pageGeneration (params.ptrToPageNumber (wordToPtr (s.words pp))) =
            s.gens.address gn then
          s.copyCell params pp
        else .error .assertion) s)
      (fun t => ∃ c', Scanning params s₀ B roots rems left t c') (CopyFailure s₀.words B) := by
  induction pps generalizing s c with
  | nil => exact ⟨c, h⟩
  | cons pp pps ih =>
    rw [List.foldlM_cons]
    rw [List.forall_mem_cons] at hpps
    obtain ⟨⟨hroot, hpage⟩, hpps⟩ := hpps
    rw [h.word h₀ hroot, if_pos (h.copying.page h₀ hgn hpage).2]
    exact (h.copyCell h₀ hroot).bind fun t ⟨c', ht⟩ => ih hpps ht

/-- The remembered set of a generation is empty from now on. -/
theorem Copying.clearRemSet (h : Copying params s₀ B roots c s)
    (hgn : s₀.gens.status gn ≠ .toBeCollected) :
    Copying params s₀ B roots { c with rems := Function.update c.rems gn [] }
      { s with remSets := Function.update s.remSets gn [] } :=
  { h with
    laidOut := ⟨h.laidOut.full, h.laidOut.current, h.laidOut.none, h.laidOut.visited⟩
    remSets := by
      intro g
      by_cases heq : g = gn
      · subst heq
        dsimp only
        rw [Function.update_self, Function.update_self,
          List.filter_eq_nil_iff.mpr fun b _ => by simp [refersTo, hgn]]
        rfl
      · simpa [Function.update_of_ne heq] using h.remSets g }

/-- The generations `gns` and what is remembered with them. -/
theorem Scanning.scanRemSets (h₀ : s₀.FromSpace params B roots) {gns : List Nat}
    (hgns : ∀ g ∈ gns, s₀.gens.status g = .beingCollected) (hnodup : gns.Nodup)
    (hchain : gns.IsChain fun g g' => s₀.gens.older g = g') {rems : Nat → List Nat}
    (hrems : ∀ g ∈ gns, ∀ pp ∈ rems g, pp ∈ roots ∧
      params.ptrToPageNumber (wordToPtr (s₀.words pp)) ∈ s₀.gens.page g)
    (h : Scanning params s₀ B roots rems (gns.flatMap rems ++ left) s c) {m : Nat}
    (hm : gns = [] ∨ gns.head? = some m) :
    Ends (scanRemSets params gns.length m s)
      (fun t => ∃ c', Scanning params s₀ B roots (fun g => if g ∈ gns then [] else rems g)
        left t c')
      (CopyFailure s₀.words B) := by
  induction gns generalizing s c m rems with
  | nil =>
    have heq : (fun g => if g ∈ ([] : List Nat) then [] else rems g) = rems := by simp
    rw [heq]
    exact ⟨c, h⟩
  | cons g gns ih =>
    obtain rfl : g = m := by simpa using hm
    rw [List.forall_mem_cons] at hgns hrems
    obtain ⟨hfresh, hnodup⟩ := List.nodup_cons.mp hnodup
    have hne : s₀.gens.status g ≠ .toBeCollected := by simp [hgns.1]
    have hset : s.remSets g = rems g := by
      have hset := h.copying.remSets g
      rw [h.rems_eq, List.filter_eq_nil_iff.mpr fun b _ => by simp [refersTo, hne]] at hset
      exact hset
    rw [List.length_cons, Heap.scanRemSets, hset]
    rw [List.flatMap_cons, List.append_assoc] at h
    refine (h.remembered h₀ (hgns.1 ▸ isLive_beingCollected) hrems.1).bind ?_
    rintro t ⟨c', ht⟩
    have hother : ∀ g' ∈ gns, Function.update rems g [] g' = rems g' := fun g' hg' =>
      Function.update_of_ne (ne_of_mem_of_not_mem hg' hfresh) _ _
    have hclear : Scanning params s₀ B roots (Function.update rems g [])
        (gns.flatMap (Function.update rems g []) ++ left)
        { t with remSets := Function.update t.remSets g [] }
        { c' with rems := Function.update c'.rems g [] } := by
      rw [List.flatMap_congr hother]
      exact ⟨ht.copying.clearRemSet hne, ht.left_eq, ht.done, by rw [ht.rems_eq]⟩
    have holder : t.gens.older g = s₀.gens.older g := by
      obtain ⟨_, _, _, _, _, _, hgens, -⟩ := ht.copying.filled
      rw [hgens]
    rw [List.isChain_cons] at hchain
    have hrest := ih (m := s₀.gens.older g) hgns.2 hnodup hchain.2
      (fun g' hg' pp hpp => hrems.2 g' hg' pp (hother g' hg' ▸ hpp)) hclear ?_
    · dsimp only
      rw [holder]
      refine hrest.imp ?_
      rintro u ⟨c'', hu⟩
      refine ⟨c'', hu.copying, hu.left_eq, hu.done, hu.rems_eq.trans ?_⟩
      funext g'
      by_cases heq : g' = g
      · simp [heq]
      · simp [heq]
    · cases gns with
      | nil => exact .inl rfl
      | cons g' gns => exact .inr (by simp [hchain.1])

end Heap

end Shades
