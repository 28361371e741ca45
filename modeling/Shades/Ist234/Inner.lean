import Shades.Ist234.Replace

/-!
# Shades.Ist234.Inner

A key of an inner node is deleted when one of the two subtrees beside it has a
root with more than one key: the node is copied, the neighbour of the key is
deleted in that subtree and written to the copy.
-/

namespace Shades

open Memory

variable {κ : Type} {rank : Nat → κ} {C₀ C : Nat → Nat → Prop} {m₀ : Memory} {s : IstState}
variable {d n : Nat} {fields L R : List Nat} {P Q X Y items : List (κ × Nat)} {K : Nat → Prop}

/-- The neighbour of a key is deleted in a son of the node that was opened, and written to
the words `kp`. -/
theorem Opened.replaceKey (nb : Neighbour) {C₁ : Nat → Nat → Prop} {m₁ : Memory}
    {k kp len newRoot p₁ q : Nat} {F : List Nat}
    (h : Opened C₀ m₀ k C s len C₁ m₁ newRoot p₁ (L ++ ptrToWord q :: R))
    (hq : IstNode m₀.words C₀ q F) (hwide : F.length ≠ 4)
    (hsons : Sons rank (IstAt rank m₀.words C₀ d) F X)
    (hkp : ∀ a, KeyWords kp a → InCell p₁ (L ++ ptrToWord q :: R).length a ∧
      a ≠ p₁ + (L.length + 1)) (hn : d ≤ n) (hcan : m₁.canAllocate (27 * d + 8)) :
    ∃ r kw dw X' C₂ q', Shades.replaceKey nb newRoot kp n m₁ (p₁ + (L.length + 1)) q true = some r ∧
      X = nb.add (item rank kw dw) X' ∧ r.2.words kp = kw ∧ r.2.words (kp + 1) = dw ∧
      r.2.words (p₁ + (L.length + 1)) = ptrToWord q' ∧ r.1 = newRoot ∧
      Builds C₀ m₀ (fun a => a = p₁ + (L.length + 1) ∨ KeyWords kp a) (27 * d + 8) C₁ m₁ C₂ r.2 ∧
      IstAt rank r.2.words C₂ (d + 1) (ptrToWord q') X' := by
  obtain ⟨hplace, hnot⟩ := h.place_son hq hwide
  have hfresh := h.fresh
  have haside : Aside m₀ ⟨m₁, newRoot, p₁ + (L.length + 1), q, true⟩ F.length (KeyWords kp) := by
    intro a ha
    obtain ⟨hin, hne⟩ := hkp a ha
    unfold InCell at hin
    exact ⟨⟨by dsimp only; omega, by omega⟩, hne, nofun⟩
  obtain ⟨r, kw, dw, X', hrun, rfl, hkw, hdw, d', C₂, q', hlevels, hdeliver⟩ :=
    replaceKey_spec nb hplace hnot haside hsons hn hcan
  obtain ⟨hroot, hlink⟩ := hdeliver.inner hnot
  have htree := hdeliver.tree
  rw [hlevels hnot] at htree
  refine ⟨r, kw, dw, X', C₂, q', hrun, rfl, hkw, hdw, hlink, hroot,
    hdeliver.builds.mono ?_ (Nat.le_refl _), htree⟩
  rintro a - ((hpp | ⟨hflag, -⟩) | hK)
  · exact .inl hpp
  · cases hflag
  · exact .inr hK

/-- A key and the two sons beside it are written in the node that was opened. -/
theorem Opened.replaced {C₁ C₂ : Nat → Nat → Prop} {m₁ : Memory} {W : Nat → Prop}
    {k j len newRoot p₁ c c' kw dw a b kw' dw' : Nat} {r : Nat × Memory}
    (h : Opened C₀ m₀ k C s len C₁ m₁ newRoot p₁ (L ++ [c, kw, dw, c'] ++ R))
    (hs : Spot C₀ m₀ C s len) (hL : SonsBefore rank (IstAt rank m₀.words C₀ d) L P)
    (hR : SonsAfter rank (IstAt rank m₀.words C₀ d) R Q)
    (hb : Builds C₀ m₀ W j C₁ m₁ C₂ r.2)
    (hW : ∀ x, W x → p₁ + L.length + 1 ≤ x ∧ x ≤ p₁ + L.length + 4) (hr : r.1 = newRoot)
    (ha : r.2.words (p₁ + (L.length + 1)) = a) (hkw : r.2.words (p₁ + (L.length + 2)) = kw')
    (hdw : r.2.words (p₁ + (L.length + 2) + 1) = dw')
    (hb' : r.2.words (p₁ + (L.length + 4)) = b) (hX : IstAt rank r.2.words C₂ d a X)
    (hY : IstAt rank r.2.words C₂ d b Y) :
    IstDeleted rank C₀ m₀ (fun _ => False) C s len d (k + j)
      (P ++ (X ++ item rank kw' dw' :: Y) ++ Q) r := by
  refine ⟨d + 1, C₂, p₁, fun _ => rfl, h.up [a, kw', dw', b] hs hb (fun x hx => ?_) hr
    (hL.mono fun _ _ => kept_old) (hR.mono fun _ _ => kept_old) ?_
    (.join (.single hX) (.single hY) kw' dw')⟩
  · obtain ⟨hle, hge⟩ := hW x hx
    exact .inl ⟨hle, hge⟩
  · rw [← ha, ← hkw, ← hdw, ← hb']
    simp [slice, Nat.add_comm, Nat.add_left_comm]

/-- One of the two subtrees of the key has a root with more than one key. -/
theorem deleteInternalNode_wide {c c' kw dw : Nat}
    (hs : Place C₀ m₀ C s (L ++ [c, kw, dw, c'] ++ R))
    (hL : SonsBefore rank (IstAt rank m₀.words C₀ (d + 1)) L P)
    (hc : IstAt rank m₀.words C₀ (d + 1) c X) (hc' : IstAt rank m₀.words C₀ (d + 1) c' Y)
    (hR : SonsAfter rank (IstAt rank m₀.words C₀ (d + 1)) R Q)
    (hwide : nodeType m₀.words (wordToPtr c) > 2 ∨ nodeType m₀.words (wordToPtr c') > 2)
    (hn : d ≤ ist234PathSize) (hcan : s.m.canAllocate (27 * d + 19)) :
    ∃ r, deleteInternalNode (n + 1) s (L.length + 2) = some r ∧
      IstDeleted rank C₀ m₀ (fun _ => False) C s (L ++ [c, kw, dw, c'] ++ R).length (d + 1)
        (27 * d + 19) (P ++ (X ++ Y) ++ Q) r := by
  obtain ⟨p, F, rfl, hp, hX⟩ := hc
  obtain ⟨q, G, rfl, hq, hY⟩ := hc'
  have hfields : L ++ [ptrToWord p, kw, dw, ptrToWord q] ++ R =
      L ++ ptrToWord p :: (kw :: dw :: ptrToWord q :: R) := by simp
  have hfields' : L ++ [ptrToWord p, kw, dw, ptrToWord q] ++ R =
      (L ++ [ptrToWord p, kw, dw]) ++ ptrToWord q :: R := by simp
  have hleft : s.m.words (s.p + (L.length + 1)) = ptrToWord p := by
    have hnode := hs.node
    rw [hfields] at hnode
    exact hnode.word
  have hright : s.m.words (s.p + (L.length + 4)) = ptrToWord q := by
    have hnode := hs.node
    rw [hfields'] at hnode
    simpa using hnode.word
  have hplen := hp.length
  have hqlen := hq.length
  have hptype := (hs.growing.node hp).nodeType_eq
  have hqtype := (hs.growing.node hq).nodeType_eq
  rw [wordToPtr_ptrToWord, wordToPtr_ptrToWord, hp.nodeType_eq, hq.nodeType_eq] at hwide
  have hlength := hs.node.length
  have hlen' : (L ++ [ptrToWord p, kw, dw, ptrToWord q] ++ R).length = L.length + R.length + 4 := by
    simp
    omega
  obtain ⟨C₁, hopened, hflag, -⟩ := copy_opened hs (canAllocate_mono hcan (by omega))
  have hspot := hs.spot
  obtain ⟨len, hlen⟩ : ∃ len, len = (L ++ [ptrToWord p, kw, dw, ptrToWord q] ++ R).length :=
    ⟨_, rfl⟩
  rw [← hlen] at hopened hspot hlength hlen' ⊢
  have hcan₁ : s.copy.m.canAllocate (27 * d + 8) :=
    hopened.builds.canAllocate hs.growing (canAllocate_mono hcan (by omega))
  have hleft₁ : s.copy.m.words (s.copy.p + (L.length + 1)) = ptrToWord p := by
    have hnode := hopened.node
    rw [hfields] at hnode
    exact hnode.word
  have hright₁ : s.copy.m.words (s.copy.p + (L.length + 4)) = ptrToWord q := by
    have hnode := hopened.node
    rw [hfields'] at hnode
    simpa using hnode.word
  unfold deleteInternalNode
  rw [show L.length + 2 - 1 = L.length + 1 by omega, show L.length + 2 + 2 = L.length + 4 by omega]
  simp only [hleft, hright, hleft₁, hright₁, hflag, wordToPtr_ptrToWord, hptype, hqtype]
  by_cases hwideq : (G.length + 2) / 3 > 2
  · rw [if_pos hwideq]
    have hkp : ∀ a, KeyWords (s.copy.p + (L.length + 2)) a →
        InCell s.copy.p ((L ++ [ptrToWord p, kw, dw]) ++ ptrToWord q :: R).length a ∧
          a ≠ s.copy.p + ((L ++ [ptrToWord p, kw, dw]).length + 1) := by
      simp only [KeyWords, InCell, List.length_append, List.length_cons, List.length_nil]
      omega
    have hopened' := hopened
    rw [hfields'] at hopened'
    obtain ⟨r, kw', dw', Y', C₂, q', hrun, rfl, hkw, hdw, hlink, hroot, hbuild, htree⟩ :=
      hopened'.replaceKey .successor hq (by omega) hY hkp hn hcan₁
    rw [show (L ++ [ptrToWord p, kw, dw]).length + 1 = L.length + 4 by simp] at hrun hlink hbuild
    refine ⟨r, hrun, ?_⟩
    have hold : IstAt rank m₀.words C₀ (d + 1) (ptrToWord p) X := ⟨p, F, rfl, hp, hX⟩
    refine (hopened.replaced hspot hL hR hbuild ?_ hroot ?_ hkw hdw hlink
      (hbuild.growing.tree hold) htree).mono (by omega)
    · rintro x (hx | hx | hx)
      · omega
      · omega
      · omega
    · rw [hbuild.agree _ (hopened.builds.growing.live hopened.node.cell (by omega)), hleft₁]
      rintro (hx | hx | hx)
      · omega
      · omega
      · omega
  · rw [if_neg hwideq, if_pos (by omega)]
    have hkp : ∀ a, KeyWords (s.copy.p + (L.length + 2)) a →
        InCell s.copy.p (L ++ ptrToWord p :: (kw :: dw :: ptrToWord q :: R)).length a ∧
          a ≠ s.copy.p + (L.length + 1) := by
      simp only [KeyWords, InCell, List.length_append, List.length_cons]
      omega
    have hopened' := hopened
    rw [hfields] at hopened'
    obtain ⟨r, kw', dw', X', C₂, q', hrun, rfl, hkw, hdw, hlink, hroot, hbuild, htree⟩ :=
      hopened'.replaceKey .predecessor hp (by omega) hX hkp hn hcan₁
    refine ⟨r, hrun, ?_⟩
    have hold : IstAt rank m₀.words C₀ (d + 1) (ptrToWord q) Y := ⟨q, G, rfl, hq, hY⟩
    rw [show Neighbour.predecessor.add (item rank kw' dw') X' ++ Y =
      X' ++ item rank kw' dw' :: Y by simp [Neighbour.add]]
    refine (hopened.replaced hspot hL hR hbuild ?_ hroot hlink hkw hdw ?_ htree
      (hbuild.growing.tree hold)).mono (by omega)
    · rintro x (hx | hx | hx)
      · omega
      · omega
      · omega
    · rw [hbuild.agree _ (hopened.builds.growing.live hopened.node.cell (by omega)), hright₁]
      rintro (hx | hx | hx)
      · omega
      · omega
      · omega

end Shades
