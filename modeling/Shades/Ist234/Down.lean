import Shades.Ist234.Descend
import Shades.Ist234.Levels

/-!
# Shades.Ist234.Down

The way down of `ist234_delete` with any comparison function.  The nodes on the
way are copied or transformed, but the keys are compared in the same order as in
the old tree, so the way ends as the search in the old tree does: with an error,
below a leaf, or at the key.  Only the last one reaches `delete_key`.
-/

namespace Shades

open Memory

/-! ## the search in the old tree -/

/-- Where the search for a key ends. -/
inductive IstEnd where
  | error
  | absent
  | key (p i : Nat)
  deriving DecidableEq, Repr

/-- The search for a key in the tree `p` of `d` levels. -/
@[simp] def istSearch (words : Nat → Nat) (cmp : CmpFun) (key : Nat) : Nat → Nat → IstEnd
  | 0, _ => .absent
  | d + 1, p =>
    match compareKeys words cmp key p with
    | .error => .error
    | .key i => .key p i
    | .son i => istSearch words cmp key d (wordToPtr (words (p + i)))

section compare

variable {words words' : Nat → Nat} {C C' : Nat → Nat → Prop} {cmp : CmpFun} {key p i : Nat}
variable {fields : List Nat}

/-- The comparisons read the words of the node only. -/
theorem compareKeys_congr (hn : IstNode words C p fields) (hn' : IstNode words' C' p fields) :
    compareKeys words' cmp key p = compareKeys words cmp key p := by
  have htype := hn.nodeType_eq
  have htype' := hn'.nodeType_eq
  have hword : ∀ j < fields.length, words' (p + (j + 1)) = words (p + (j + 1)) := fun j hj => by
    rw [hn.get hj, hn'.get hj]
  have hlen := hn.length
  have h2 : words' (p + 2) = words (p + 2) := hword 1 (by omega)
  unfold compareKeys
  rw [h2, htype, htype']
  obtain hfour | hseven | hten := hlen
  · simp [hfour]
  · have h5 : words' (p + 5) = words (p + 5) := hword 4 (by omega)
    simp [hseven, h5]
  · have h5 : words' (p + 5) = words (p + 5) := hword 4 (by omega)
    have h8 : words' (p + 8) = words (p + 8) := hword 7 (by omega)
    simp [hten, h5, h8]

/-- The index of a key that is found. -/
theorem compareKeys_key (hn : IstNode words C p fields)
    (h : compareKeys words cmp key p = .key i) : i < fields.length ∧ 2 ≤ i := by
  have htype := hn.nodeType_eq
  have hlen := hn.length
  unfold compareKeys at h
  rw [htype] at h
  split at h <;> try cases h
  · omega
  · split at h
    · cases h
    · split at h <;> try cases h
      · omega
      · split at h
        · cases h
        · split at h <;> cases h
          omega

/-- The son with which the search goes on. -/
theorem compareKeys_son (hn : IstNode words C p fields)
    (h : compareKeys words cmp key p = .son i) :
    ∃ L w R, fields = L ++ w :: R ∧ L.length % 3 = 0 ∧ i = L.length + 1 := by
  have htype := hn.nodeType_eq
  have hlen := hn.length
  have hindex : i ≤ fields.length ∧ i % 3 = 1 := by
    unfold compareKeys at h
    rw [htype] at h
    split at h <;> try cases h
    · omega
    · split at h
      · cases h
        omega
      · split at h <;> try cases h
        · omega
        · split at h
          · cases h
            omega
          · split at h <;> cases h
            all_goals omega
  obtain ⟨j, rfl⟩ : ∃ j, i = j + 1 := ⟨i - 1, by omega⟩
  have hj : j < fields.length := by omega
  have htake : (fields.take j).length = j := by
    rw [List.length_take]
    omega
  exact ⟨fields.take j, fields[j], fields.drop (j + 1), by simp, by omega, by rw [htake]⟩

end compare

/-! ## the way down -/

/-- How the way down ends, as the search in the old tree does.  If the key is
found, `k` words can still be allocated. -/
inductive DownResult (C₀ : Nat → Nat → Prop) (m₀ : Memory) (root : Nat)
    (deleteFun : Option UpdateFunction) (data k : Nat) : IstEnd → Option (Nat × Memory) → Prop
  | givenUp {e : IstEnd} {C : Nat → Nat → Prop} {m : Memory} (he : e = .error ∨ e = .absent)
      (hm : Growing C₀ m₀ C m) :
      DownResult C₀ m₀ root deleteFun data k e
        (some (root, m.restoreAllocationPoint m₀.allocationPtr))
  | found {C : Nat → Nat → Prop} {s : IstState} {p i j : Nat} {fields : List Nat}
      (hplace : Place C₀ m₀ C s fields) (hj : j < fields.length)
      (hdata : s.m.words (s.p + (j + 1)) = m₀.words (p + (i + 1))) (hcan : s.m.canAllocate k)
      (hbelow : s.m.allocationPtr < m₀.allocationPtr) :
      DownResult C₀ m₀ root deleteFun data k (.key p i) (deleteKey root deleteFun data s j)

section down

variable {κ : Type} {rank : Nat → κ} {C₀ C : Nat → Nat → Prop} {m₀ : Memory} {s : IstState}
variable {cmp : CmpFun} {key root data d n k : Nat} {deleteFun : Option UpdateFunction}

/-- The code from `find` on at an old node below the root, if the code from
`copy` on does what it should. -/
theorem deleteFind_down {c : Nat} {cF : List Nat} {X : List (κ × Nat)}
    {copy : IstState → Nat → Option (Nat × Memory)} (hs : Place C₀ m₀ C s cF) (hnot : ¬ s.Top)
    (hp : s.p = c) (hc : IstNode m₀.words C₀ c cF)
    (hX : Sons rank (IstAt rank m₀.words C₀ d) cF X) (hcan : s.m.canAllocate k)
    (hcopy : ∀ (L R : List Nat) (w : Nat) (P Y Q : List (κ × Nat)), cF = L ++ w :: R →
      SonsBefore rank (IstAt rank m₀.words C₀ d) L P → IstAt rank m₀.words C₀ d w Y →
      SonsAfter rank (IstAt rank m₀.words C₀ d) R Q →
      DownResult C₀ m₀ root deleteFun data k (istSearch m₀.words cmp key d (wordToPtr w))
        (copy s (L.length + 1))) :
    DownResult C₀ m₀ root deleteFun data k (istSearch m₀.words cmp key (d + 1) c)
      (deleteFind root m₀.allocationPtr key cmp deleteFun data copy s) := by
  have hnode := hs.node
  rw [hp] at hnode
  have hword : ∀ i < cF.length, s.m.words (s.p + (i + 1)) = m₀.words (c + (i + 1)) := by
    intro i hi
    rw [hp, hnode.get hi, hc.get hi]
  have hinner := hs.inner hnot
  have hpp := hinner.pp_fresh
  unfold Fresh at hpp
  unfold deleteFind istSearch
  rw [hp, if_neg hc.ne_null, hnode.cellType_eq, assert_true rfl, compareKeys_congr hc hnode]
  simp only [Option.bind_eq_bind, Option.bind_some]
  cases hcmp : compareKeys m₀.words cmp key c with
  | error => exact .givenUp (.inl rfl) hs.growing
  | key i =>
    obtain ⟨hi, -⟩ := compareKeys_key hc hcmp
    exact .found hs hi (hword i hi) hcan (by omega)
  | son i =>
    obtain ⟨L, w, R, rfl, hlen, rfl⟩ := compareKeys_son hc hcmp
    obtain ⟨P, Y, Q, rfl, hL, hw, hR⟩ := hX.focus hlen
    dsimp only
    rw [IstNode.word hc]
    exact hcopy L R w P Y Q rfl hL hw hR

/-- A comparison with the only key of a 2-node. -/
theorem istSearch_two {c a₁ kw dw a₂ : Nat} (hc : IstNode m₀.words C₀ c [a₁, kw, dw, a₂]) :
    istSearch m₀.words cmp key (d + 1) c =
      if cmp key (wordToPtr kw) = .error then .error
      else if cmp key (wordToPtr kw) = .equal then .key c 2
      else if cmp key (wordToPtr kw) = .less then istSearch m₀.words cmp key d (wordToPtr a₁)
      else istSearch m₀.words cmp key d (wordToPtr a₂) := by
  have htype := hc.nodeType_eq
  have h₁ : m₀.words (c + 1) = a₁ := IstNode.word (L := []) hc
  have h₂ : m₀.words (c + 2) = kw := IstNode.word (L := [_]) hc
  have h₄ : m₀.words (c + 4) = a₂ := IstNode.word (L := [_, _, _]) hc
  have hcompare : compareKeys m₀.words cmp key c =
      if cmp key (wordToPtr kw) = .error then .error
      else if cmp key (wordToPtr kw) = .equal then .key 2
      else if cmp key (wordToPtr kw) = .less then .son 1 else .son 4 := by
    unfold compareKeys
    rw [h₂, htype]
    cases cmp key (wordToPtr kw) <;> simp
  rw [istSearch, hcompare]
  cases cmp key (wordToPtr kw) <;> simp [h₁, h₄]

/-- The code from `copy` on for a 2-node. -/
theorem deleteCopy_two {ap ix : Nat} {t : Transformed} {m' : Memory}
    (hne : s.m.words (s.p + ix) ≠ nullWord)
    (htype : ¬ nodeType s.m.words (wordToPtr (s.m.words (s.p + ix))) > 2)
    (hrun : copyAndTransform s.m s.p ix = some (t, m')) {s₁ : IstState}
    (hs₁ : s₁ = s.transformed t m') :
    deleteCopy root ap key cmp deleteFun data (n + 1) s ix =
      if cmp key (wordToPtr (s₁.m.words (s₁.p + t.iOfKey))) = .error then giveUp root ap s₁
      else if cmp key (wordToPtr (s₁.m.words (s₁.p + t.iOfKey))) = .equal then
        deleteKey root deleteFun data s₁ t.iOfKey
      else if cmp key (wordToPtr (s₁.m.words (s₁.p + t.iOfKey))) = .less then
        deleteCopy root ap key cmp deleteFun data n s₁ (t.iOfKey - 1)
      else deleteCopy root ap key cmp deleteFun data n s₁ (t.iOfKey + 2) := by
  subst hs₁
  obtain ⟨r, hr⟩ : ∃ r, r = cmp key (wordToPtr
      ((s.transformed t m').m.words ((s.transformed t m').p + t.iOfKey))) := ⟨_, rfl⟩
  rw [deleteCopy, if_neg hne, if_neg htype, hrun, ← hr]
  unfold IstState.transformed at hr ⊢
  simp only [Option.bind_eq_bind, Option.bind_some]
  rw [← hr]
  cases r <;> rfl

/-- The code from `copy` on, for the son `w` of the node at a place. -/
theorem deleteCopy_down {L R : List Nat} {w : Nat} {P X Q : List (κ × Nat)}
    (hs : Place C₀ m₀ C s (L ++ w :: R)) (hL : SonsBefore rank (IstAt rank m₀.words C₀ d) L P)
    (hw : IstAt rank m₀.words C₀ d w X) (hR : SonsAfter rank (IstAt rank m₀.words C₀ d) R Q)
    (hn : d < n) (hcan : s.m.canAllocate (27 * d + k)) :
    DownResult C₀ m₀ root deleteFun data k (istSearch m₀.words cmp key d (wordToPtr w))
      (deleteCopy root m₀.allocationPtr key cmp deleteFun data n s (L.length + 1)) := by
  induction d generalizing n s C L R w P X Q with
  | zero =>
    obtain ⟨n, rfl⟩ : ∃ j, n = j + 1 := ⟨n - 1, by omega⟩
    unfold deleteCopy
    rw [hs.node.word, if_pos hw.1]
    exact .givenUp (.inr rfl) hs.growing
  | succ d ih =>
    obtain ⟨n, rfl⟩ : ∃ j, n = j + 1 := ⟨n - 1, by omega⟩
    obtain ⟨c, cF, rfl, hc, hX⟩ := hw
    have hne : ptrToWord c ≠ nullWord := by
      simpa [nullWord, nullPtr] using hc.ne_null
    have htype := (hs.growing.node hc).nodeType_eq
    have hlen := hc.length
    have hword := hs.node.word
    by_cases hwide : cF.length = 4
    · obtain ⟨a₁, kw, dw, a₂, rfl⟩ := exists_four hwide
      obtain ⟨t, C', m', G₁, G₂, A₁, A₂, hrun, hcan₁, ht⟩ := transform_down hs hL hc hwide hR
        (canAllocate_mono hcan (by omega) : s.m.canAllocate (27 + (27 * d + k)))
      obtain ⟨s₁, hs₁⟩ : ∃ s₁, s₁ = s.transformed t m' := ⟨_, rfl⟩
      rw [deleteCopy_two (by rw [hword]; exact hne)
        (by rw [hword, wordToPtr_ptrToWord, htype]; omega) hrun hs₁]
      rw [← hs₁] at ht hcan₁
      have hkey := ht.key
      have hdata := ht.data
      obtain ⟨hplace, hG₁, hG₂, hi, -, -, -, -, -⟩ := ht
      rw [hkey, wordToPtr_ptrToWord, istSearch_two hc]
      obtain ⟨X₁, X₂, rfl, ha₁, hrest⟩ := hX.split
      obtain ⟨Y, Q', rfl, ha₂, hnil⟩ := hrest.uncons
      cases hnil
      have hfresh := hplace.fresh (by rw [hs₁]; rfl)
      split
      · exact .givenUp (.inl rfl) hplace.growing
      · split
        · have hold : m₀.words (c + (2 + 1)) = dw := IstNode.word (L := [_, _]) hc
          refine .found hplace ?_ (hdata.trans hold.symm) (canAllocate_mono hcan₁ (by omega))
            (by omega)
          rw [hi]
          simp only [List.length_append, List.length_cons, List.length_nil]
          omega
        · split
          · have hleft : G₁ ++ [a₁, kw, dw, a₂] ++ G₂ = G₁ ++ a₁ :: kw :: dw :: a₂ :: G₂ := by simp
            rw [hleft] at hplace
            rw [hi, show G₁.length + 2 - 1 = G₁.length + 1 by omega]
            exact ih hplace hG₁ ha₁ (.cons ha₂ hG₂) (by omega) hcan₁
          · have hright : G₁ ++ [a₁, kw, dw, a₂] ++ G₂ = (G₁ ++ [a₁, kw, dw]) ++ a₂ :: G₂ := by simp
            rw [hright] at hplace
            rw [hi, show G₁.length + 2 + 2 = (G₁ ++ [a₁, kw, dw]).length + 1 by simp]
            exact ih hplace (hG₁.append (.cons ha₁ .nil)) ha₂ hG₂ (by omega) hcan₁
    · unfold deleteCopy
      rw [hword, if_neg hne, wordToPtr_ptrToWord, htype, if_pos (by omega)]
      obtain ⟨C₂, s₂, hs₂, hson, hplace, hnot, -, -, hptr, -⟩ := copy_down (K := fun _ => False) hs
        (fun _ hfalse => hfalse.elim) hL hc hwide hR (canAllocate_mono hcan (by omega))
      have hcan₂ : s₂.m.canAllocate (27 * d + k) :=
        hs.growing.canAllocate hplace.growing hptr (canAllocate_mono hcan (by omega))
      simp only [hson, wordToPtr_ptrToWord]
      rw [hs₂] at hplace hnot hcan₂
      refine deleteFind_down hplace hnot rfl hc hX (canAllocate_mono hcan₂ (by omega))
        fun L' R' w' P' Y' Q' hcF hL' hw' hR' => ?_
      rw [hcF] at hplace
      exact ih hplace hL' hw' hR' (by omega) hcan₂

end down

end Shades
