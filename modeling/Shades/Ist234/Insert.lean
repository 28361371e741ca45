import Shades.Ist234.Fields
import Shades.Ist234.Search

/-!
# Shades.Ist234.Insert

`ist234_insert` on trees in memory.  The way down records a path of old nodes;
`PathAt` says what stands before and after the part of the items that the last
son stands for.  On the way up no node that was there before is written to, so
all trees are complete at any time.
-/

namespace Shades

open Memory SortedItems

variable {κ : Type}

/-! ## paths -/

/-- A path whose last entry leads to a tree of `d` levels: the items before and
after that tree. -/
inductive IstPathAt (rank : Nat → κ) (words : Nat → Nat) (C : Nat → Nat → Prop) :
    Nat → List IstPathEntry → List (κ × Nat) → List (κ × Nat) → Prop
  | nil {d : Nat} : IstPathAt rank words C d [] [] []
  | cons {d node c : Nat} {L R : List Nat} {P P' Q Q' : List (κ × Nat)} {path : List IstPathEntry}
      (hnode : IstNode words C node (L ++ c :: R))
      (hL : SonsBefore rank (IstAt rank words C d) L P)
      (hR : SonsAfter rank (IstAt rank words C d) R Q)
      (hpath : IstPathAt rank words C (d + 1) path P' Q') :
      IstPathAt rank words C d (⟨node, L.length + 1⟩ :: path) (P' ++ P) (Q ++ Q')

variable {rank : Nat → κ} {C₀ C : Nat → Nat → Prop} {m₀ m : Memory} {d p : Nat}
variable {X P Q items : List (κ × Nat)} {path : List IstPathEntry}

/-- The sons of an old node. -/
theorem Growing.sonsBefore {L : List Nat} (h : Growing C₀ m₀ C m)
    (hL : SonsBefore rank (IstAt rank m₀.words C₀ d) L P) :
    SonsBefore rank (IstAt rank m.words C d) L P := hL.mono fun _ _ => h.tree

theorem Growing.sonsAfter {R : List Nat} (h : Growing C₀ m₀ C m)
    (hR : SonsAfter rank (IstAt rank m₀.words C₀ d) R Q) :
    SonsAfter rank (IstAt rank m.words C d) R Q := hR.mono fun _ _ => h.tree

/-- The words that the phase `insert` allocates. -/
def insertCost (words : Nat → Nat) : List IstPathEntry → Nat
  | [] => 5
  | e :: path =>
    if nodeType words e.node = 4 then 13 + insertCost words path else 11 + 11 * path.length

/-- What was built on the way up: a tree of `d` levels. -/
def BuiltTree (rank : Nat → κ) (C₀ : Nat → Nat → Prop) (m₀ : Memory) (n : Nat)
    (C : Nat → Nat → Prop) (m : Memory) (d : Nat) (items : List (κ × Nat))
    (r : Nat × Memory) : Prop :=
  ∃ C', Builds C₀ m₀ (fun _ => False) n C m C' r.2 ∧
    IstAt rank r.2.words C' d (ptrToWord r.1) items

theorem BuiltTree.after {C' : Nat → Nat → Prop} {m' : Memory} {n k l : Nat} {r : Nat × Memory}
    (h : BuiltTree rank C₀ m₀ k C' m' d items r) (hm : Growing C₀ m₀ C m)
    (hbuild : Builds C₀ m₀ (fun _ => False) n C m C' m') (hl : n + k ≤ l) :
    BuiltTree rank C₀ m₀ l C m d items r := by
  obtain ⟨C'', hbuild', ht⟩ := h
  exact ⟨C'', (hbuild.trans hm hbuild').mono (fun _ _ hW => hW) hl, ht⟩

/-! ## the phase `update` -/

/-- A copy of an old node with another son. -/
theorem copyNode_set {L R : List Nat} {c x : Nat} (hm : Growing C₀ m₀ C m)
    (hn : IstNode m₀.words C₀ p (L ++ c :: R))
    (hcan : m.canAllocate ((L ++ c :: R).length + 1)) :
    ∃ q m' C', copyNode m p = (q, m') ∧
      Builds C₀ m₀ (fun _ => False) ((L ++ c :: R).length + 1) C m C'
        (m'.set (q + (L.length + 1)) x) ∧
      IstNode (m'.set (q + (L.length + 1)) x).words C' q (L ++ x :: R) := by
  obtain ⟨q, C', m', hrun, hnew⟩ := copyNode_spec hm (hm.node hn) hcan
  have hbelow := hnew.below
  have hle := hm.grows.allocationPtr_le
  have hfits := hnew.builds.growing.fits
  have hptr := hnew.eq_allocationPtr
  rw [List.length_append, List.length_cons] at hbelow
  have hfresh : ¬ m₀.Live (q + (L.length + 1)) := by
    have hend := hnew.builds.growing.grows.firstGenerationEnd_eq
    unfold Memory.Live
    omega
  refine ⟨q, m', C', hrun, ⟨hnew.builds.growing.set hfresh x, hnew.builds.sub,
    hnew.builds.allocationPtr_le, hnew.builds.le_allocationPtr, fun a ha hW => ?_⟩, ?_⟩
  · have hne : a ≠ q + (L.length + 1) := by
      have hend := hm.grows.firstGenerationEnd_eq
      have hend' := hnew.builds.growing.grows.firstGenerationEnd_eq
      unfold Memory.Live at ha
      omega
    rw [set_words, if_neg hne, hnew.extends ha]
  · exact hnew.node.setWord x

/-- The phase `update` puts a new son into the tree. -/
theorem istUpdate_spec (hpath : IstPathAt rank m₀.words C₀ d path P Q) (hm : Growing C₀ m₀ C m)
    (hp : IstAt rank m.words C d (ptrToWord p) X) (hcan : m.canAllocate (11 * path.length)) :
    BuiltTree rank C₀ m₀ (11 * path.length) C m (d + path.length) (P ++ X ++ Q)
      (istUpdate path p m) := by
  induction hpath generalizing p m C X with
  | nil => exact ⟨C, .refl hm _, by simpa [istUpdate] using hp⟩
  | @cons d node c L R P P' Q Q' path hnode hL hR hpath ih =>
    have hlen := hnode.length
    rw [List.length_cons] at hcan ⊢
    obtain ⟨q, m', C', hrun, hbuild, hnode'⟩ := copyNode_set (x := ptrToWord p) hm hnode
      (canAllocate_mono hcan (by omega))
    have hsons := Sons.around (hbuild.growing.sonsBefore hL)
      (.single (hbuild.tree hm (fun _ _ hW => hW) hp)) (hbuild.growing.sonsAfter hR)
    rw [List.append_assoc, List.singleton_append] at hsons
    have hup := ih hbuild.growing ⟨q, _, rfl, hnode', hsons⟩
      (hbuild.canAllocate hm (canAllocate_mono hcan (by omega)))
    rw [show P' ++ (P ++ X ++ Q) ++ Q' = P' ++ P ++ X ++ (Q ++ Q') by simp] at hup
    unfold istUpdate
    simp only [hrun]
    rw [show d + (path.length + 1) = d + 1 + path.length by omega]
    exact hup.after hm hbuild (by omega)

/-! ## the phase `insert` -/

/-- The way up of `ist234_insert`: the item is put between two trees. -/
theorem istInsertUp_spec (key data : Nat) {p1 p2 : Nat} {X₁ X₂ : List (κ × Nat)}
    (hpath : IstPathAt rank m₀.words C₀ d path P Q) (hm : Growing C₀ m₀ C m)
    (h₁ : IstAt rank m.words C d (ptrToWord p1) X₁) (h₂ : IstAt rank m.words C d (ptrToWord p2) X₂)
    (hcan : m.canAllocate (insertCost m₀.words path)) :
    ∃ d', BuiltTree rank C₀ m₀ (insertCost m₀.words path) C m d'
      (P ++ X₁ ++ (rank key, data) :: (X₂ ++ Q)) (istInsertUp path p1 key data p2 m) := by
  have hitem : item rank (ptrToWord key) (ptrToWord data) = (rank key, data) := by
    simp [item]
  induction hpath generalizing key data p1 p2 m C X₁ X₂ with
  | @nil d =>
    -- a new root
    have hsons : Sons rank _ _ _ :=
      .join (.single h₁) (.single h₂) (ptrToWord key) (ptrToWord data)
    rw [hitem] at hsons
    obtain ⟨q, C', m', hrun, hnew⟩ := newNode_spec ([ptrToWord p1] ++ ptrToWord key ::
      ptrToWord data :: [ptrToWord p2]) hm (.inl rfl) hcan
    have hinsert : istInsertUp [] p1 key data p2 m = (q, m') := by
      simpa [istInsertUp] using hrun
    rw [hinsert]
    exact ⟨d + 1, C', hnew.builds, by simpa using hnew.tree hm hsons⟩
  | @cons d node c L R P P' Q Q' path hnode hL hR hpath ih =>
    have hnode' := hm.node hnode
    have hlen := hnode.length
    have htype := hnode.nodeType_eq
    have htype' := hnode'.nodeType_eq
    have hsons := Sons.around (hm.sonsBefore hL)
      (.join (.single h₁) (.single h₂) (ptrToWord key) (ptrToWord data)) (hm.sonsAfter hR)
    rw [hitem] at hsons
    unfold insertCost at hcan ⊢
    unfold istInsertUp
    dsimp only
    rw [htype] at hcan ⊢
    rw [htype']
    by_cases hfour : ((L ++ c :: R).length + 2) / 3 = 4
    · -- a 4-node is split, and a key goes up
      rw [if_pos hfour] at hcan ⊢
      rw [if_pos hfour]
      obtain ⟨F, kw, dw, G, hFG, hF, hG, hsplit, hpassed⟩ :=
        splitNode_eq hnode' hL.length (by omega)
        (ptrToWord p1) key data (ptrToWord p2)
      rw [hsplit, hpassed]
      have hFG' : L ++ ([ptrToWord p1] ++ ptrToWord key :: ptrToWord data :: [ptrToWord p2]) ++ R =
          F ++ kw :: dw :: G := hFG
      rw [hFG'] at hsons
      obtain ⟨Y₁, Y₂, hitems, hY₁, hY₂⟩ := hsons.cut (by omega)
      obtain ⟨q₁, C₁, m₁, hrun₁, hnew₁⟩ := newNode_spec F hm (by omega)
        (canAllocate_mono hcan (by omega))
      have ht₁ := hnew₁.tree hm hY₁
      have hm₁ := hnew₁.builds.growing
      obtain ⟨q₂, C₂, m₂, hrun₂, hnew₂⟩ := newNode_spec G hm₁ (by omega)
        (hnew₁.builds.canAllocate hm (canAllocate_mono hcan (by omega)))
      have ht₂ := hnew₂.tree hm₁
        (hY₂.mono fun c X hc => hnew₁.builds.tree hm (fun _ _ hW => hW) hc)
      have hboth := hnew₁.builds.trans hm hnew₂.builds
      rw [hF] at hrun₁
      rw [hG] at hrun₂
      rw [hF, hG] at hboth
      simp only [hrun₁, hrun₂]
      obtain ⟨d', hup⟩ := ih (wordToPtr kw) (wordToPtr dw) hnew₂.builds.growing
        (hnew₂.builds.tree hm₁ (fun _ _ hW => hW) ht₁) ht₂
        (hboth.canAllocate hm (canAllocate_mono hcan (by omega))) (by simp [item])
      refine ⟨d', ?_⟩
      have hall : P' ++ P ++ X₁ ++ (rank key, data) :: (X₂ ++ (Q ++ Q')) =
          P' ++ Y₁ ++ (rank (wordToPtr kw), wordToPtr dw) :: (Y₂ ++ Q') := by
        have happend := congrArg (fun l => P' ++ l ++ Q') hitems
        simpa [item] using happend
      rw [hall]
      exact hup.after hm hboth (by omega)
    · -- there is room for the key
      rw [if_neg hfour] at hcan ⊢
      rw [if_neg hfour, grownNode_eq hnode' hL.length (by omega)]
      obtain ⟨F, hFeq⟩ :
        ∃ F, F = L ++ [ptrToWord p1, ptrToWord key, ptrToWord data, ptrToWord p2] ++
          R := ⟨_, rfl⟩
      have hsons' : Sons rank (IstAt rank m.words C d) F
          (P ++ (X₁ ++ (rank key, data) :: X₂) ++ Q) := hFeq ▸ hsons
      have hF : F.length = (L ++ c :: R).length + 3 := by
        rw [hFeq]
        simp
        omega
      rw [← hFeq]
      obtain ⟨q, C', m', hrun, hnew⟩ := newNode_spec F hm (by omega)
        (canAllocate_mono hcan (by omega))
      rw [show (F.length + 2) / 3 = ((L ++ c :: R).length + 2) / 3 + 1 by omega] at hrun
      rw [hrun]
      have hup := istUpdate_spec hpath hnew.builds.growing (hnew.tree hm hsons')
        (hnew.builds.canAllocate hm (canAllocate_mono hcan (by omega)))
      refine ⟨d + 1 + path.length, ?_⟩
      have hall : P' ++ P ++ X₁ ++ (rank key, data) :: (X₂ ++ (Q ++ Q')) =
          P' ++ (P ++ (X₁ ++ (rank key, data) :: X₂) ++ Q) ++ Q' := by simp
      rw [hall]
      exact hup.after hm hnew.builds (by omega)

end Shades
