import Shades.Ist234.Transform

/-!
# Shades.Ist234.Descend

One level of the way down of `ist234_delete`: the node `p` is copied, or
transformed if the son is a 2-node, and the deletion goes on at the son.  What
the deletion makes of the son is then a part of the new node.
-/

namespace Shades

open Memory

variable {κ : Type} {rank : Nat → κ} {C₀ C : Nat → Nat → Prop} {m₀ : Memory} {s : IstState}
variable {d : Nat} {fields L R cF : List Nat} {P Q X : List (κ × Nat)} {K : Nat → Prop}

/-- The place of the son of a node that was opened. -/
theorem Opened.place_son {C₁ : Nat → Nat → Prop} {m₁ : Memory} {n len newRoot p₁ c : Nat}
    (h : Opened C₀ m₀ n C s len C₁ m₁ newRoot p₁ (L ++ ptrToWord c :: R))
    (hc : IstNode m₀.words C₀ c cF) (hwide : cF.length ≠ 4) :
    Place C₀ m₀ C₁ ⟨m₁, newRoot, p₁ + (L.length + 1), c, true⟩ cF ∧
      ¬ (⟨m₁, newRoot, p₁ + (L.length + 1), c, true⟩ : IstState).Top := by
  have hm₁ := h.builds.growing
  have hroot := h.newRoot_fresh
  have hne : newRoot ≠ nullPtr := by
    have hpos := m₁.firstGenerationEnd_pos
    have hfits := hm₁.fits
    unfold Fresh at hroot
    unfold nullPtr
    omega
  have hold : newRoot ≠ c := by
    intro heq
    have hlive := hm₁.old_cells.region ⟨c, _, hc.cell, Nat.le_refl c, by omega⟩
    exact hroot.not_live hm₁ (heq ▸ hlive)
  have hfresh := h.fresh
  simp only [List.length_append, List.length_cons] at hfresh
  refine ⟨⟨hm₁, hm₁.node hc, fun _ => hc.cell, fun hflag => ?_, .inr ⟨hne, hold, hroot,
    ⟨?_, ?_⟩, fun hflag => ?_, fun hflag => ?_⟩, fun _ => hwide⟩, ?_⟩
  · cases hflag
  · show m₁.allocationPtr ≤ p₁ + (L.length + 1)
    omega
  · show p₁ + (L.length + 1) < m₀.allocationPtr
    omega
  · cases hflag
  · cases hflag
  · rintro (⟨hnull, -⟩ | ⟨-, hflag⟩)
    · exact hne hnull
    · cases hflag

/-- Words set aside stay out of the new node. -/
theorem Opened.aside {C₁ : Nat → Nat → Prop} {m₁ : Memory} {n newRoot p₁ a len : Nat}
    {F : List Nat} (h : Opened C₀ m₀ n C s len C₁ m₁ newRoot p₁ F) (haside : Aside m₀ s len K)
    (ha : K a) : ¬ InCell p₁ F.length a := by
  obtain ⟨hfresh, hne, hout⟩ := haside a ha
  intro hin
  rcases h.own a (.inr hfresh.1) hin with hpp | ⟨hflag, hcell⟩
  · exact hne hpp
  · exact hout hflag hcell

/-- What was made of the son is a part of the node that was opened. -/
theorem Opened.deleted {C₁ : Nat → Nat → Prop} {m₁ : Memory} {n k newRoot p₁ w len len' : Nat}
    (s₂ : IstState) {r : Nat × Memory}
    (h : Opened C₀ m₀ n C s len' C₁ m₁ newRoot p₁ (L ++ w :: R))
    (hs : Spot C₀ m₀ C s len') (haside : Aside m₀ s len' K) (hm : s₂.m = m₁)
    (hroot : s₂.newRoot = newRoot) (hpp : s₂.pp = p₁ + (L.length + 1)) (hnot : ¬ s₂.Top)
    (hcell : s₂.isNotCopiedYet = false → ∀ a, InCell s₂.p len a →
      ¬ InCell p₁ (L ++ w :: R).length a ∧ ¬ s.m.Live a)
    (hL : SonsBefore rank (Kept rank C₀ m₀ (fun a => Touched s₂ len a ∨ K a) C₁ m₁ (d + 1)) L P)
    (hR : SonsAfter rank (Kept rank C₀ m₀ (fun a => Touched s₂ len a ∨ K a) C₁ m₁ (d + 1)) R Q)
    (hdel : IstDeleted rank C₀ m₀ K C₁ s₂ len d k X r) :
    IstDeleted rank C₀ m₀ K C s len' (d + 1) (n + k) (P ++ X ++ Q) r := by
  obtain ⟨d', C₂, q, hlevels, hdeliver⟩ := hdel
  obtain ⟨hr, hlink⟩ := hdeliver.inner hnot
  have hbuilds := hdeliver.builds
  have htree := hdeliver.tree
  rw [hm] at hbuilds
  rw [hroot] at hr
  rw [hlevels hnot] at htree
  rw [hpp] at hlink
  have hfields : L ++ w :: R = L ++ [w] ++ R := by simp
  have haside' := fun a (ha : K a) => h.aside haside ha
  rw [hfields] at h hcell haside'
  refine ⟨d + 1 + 1, C₂, p₁, fun _ => rfl, h.up [ptrToWord q] hs hbuilds ?_ hr hL hR ?_
    (.single htree)⟩
  · rintro a ((ha | ⟨hflag, ha⟩) | ha)
    · exact .inl ⟨by omega, by rw [List.length_singleton]; omega⟩
    · exact .inr ⟨(hcell hflag a ha).1, .inl (hcell hflag a ha).2⟩
    · exact .inr ⟨haside' a ha, .inr ⟨ha, (haside a ha).2.1⟩⟩
  · rw [← hlink]
    simp [slice, Nat.add_comm, Nat.add_left_comm]

/-- The way down to a son with more than one key. -/
theorem copy_down {c : Nat} (hs : Place C₀ m₀ C s (L ++ ptrToWord c :: R))
    (haside : Aside m₀ s (L ++ ptrToWord c :: R).length K)
    (hL : SonsBefore rank (IstAt rank m₀.words C₀ (d + 1)) L P)
    (hc : IstNode m₀.words C₀ c cF) (hwide : cF.length ≠ 4)
    (hR : SonsAfter rank (IstAt rank m₀.words C₀ (d + 1)) R Q) (hcan : s.m.canAllocate 11) :
    ∃ C₂ s₂, s₂ = (⟨s.copy.m, s.copy.newRoot, s.copy.p + (L.length + 1), c, true⟩ : IstState) ∧
      s.copy.m.words (s.copy.p + (L.length + 1)) = ptrToWord c ∧
      Place C₀ m₀ C₂ s₂ cF ∧ ¬ s₂.Top ∧ Aside m₀ s₂ cF.length K ∧
      (¬ s.Top → s₂.newRoot = s.newRoot) ∧ s.m.allocationPtr ≤ s₂.m.allocationPtr + 11 ∧
      ∀ k X r, IstDeleted rank C₀ m₀ K C₂ s₂ cF.length d k X r →
        IstDeleted rank C₀ m₀ K C s (L ++ ptrToWord c :: R).length (d + 1) (11 + k) (P ++ X ++ Q)
          r := by
  have hlen := hs.node.length
  obtain ⟨C₂, hopened, -, -⟩ := copy_opened hs (canAllocate_mono hcan (by omega))
  obtain ⟨hplace, hnot⟩ := hopened.place_son hc hwide
  have hle := hopened.builds.allocationPtr_le
  have hge := hopened.builds.le_allocationPtr
  refine ⟨C₂, _, rfl, hopened.node.word, hplace, hnot, ?_, fun htop => (hopened.inner htop).1,
    by dsimp only; omega, ?_⟩
  · intro a ha
    have hout := hopened.aside haside ha
    obtain ⟨hfresh, -, -⟩ := haside a ha
    refine ⟨hfresh.mono hle, fun heq => hout ?_, fun hflag => by cases hflag⟩
    simp only at heq
    unfold InCell
    simp only [List.length_append, List.length_cons]
    omega
  · intro k X r hdel
    obtain ⟨d', C', q, hlevels, hdeliver⟩ := hopened.deleted
      ⟨s.copy.m, s.copy.newRoot, s.copy.p + (L.length + 1), c, true⟩ hs.spot haside rfl rfl rfl hnot
      (fun hflag => by cases hflag) (hL.mono fun _ _ => kept_old) (hR.mono fun _ _ => kept_old) hdel
    exact ⟨d', C', q, hlevels, hdeliver.builds.mono (fun _ _ ha => ha) (by omega),
      hdeliver.tree, hdeliver.top, hdeliver.inner⟩

/-! ## the place after a transformation -/

/-- The variables after `copy_and_transform` and the chaining of its node. -/
def IstState.transformed (s : IstState) (t : Transformed) (m : Memory) : IstState :=
  let s := ({ s with m := m } : IstState).chain t.node
  let s :=
    if t.copiedLevels = 1 then { s with p := t.node }
    else { s with p := wordToPtr (s.m.words (t.node + t.ix)), pp := t.node + t.ix }
  { s with isNotCopiedYet := false }

section transform

variable {κ : Type} {rank : Nat → κ} {C₀ C C' : Nat → Nat → Prop} {m₀ m' : Memory} {s : IstState}
variable {fields cF : List Nat} {P Q : List (κ × Nat)} {t : Transformed} {d : Nat}

/-- A new root above which there is nothing. -/
theorem place_root {q : Nat} {F : List Nat} {m : Memory} {pp : Nat} (hm : Growing C₀ m₀ C m)
    (hn : IstNode m.words C q F)
    (hq : m.allocationPtr ≤ q ∧ q + F.length < m₀.allocationPtr) (hwide : F.length ≠ 4) :
    Place C₀ m₀ C ⟨m, q, pp, q, false⟩ F :=
  ⟨hm, hn, nofun, fun _ => hq, .inl (.inr ⟨rfl, rfl⟩), fun _ => hwide⟩

/-- A new node has no word that was live before. -/
theorem Growing.not_live_of_inCell {C₁ C₂ : Nat → Nat → Prop} {m m₁ : Memory} {q len : Nat}
    (hm : Growing C₀ m₀ C₁ m) (hm₁ : Growing C₀ m₀ C₂ m₁) (hle : m₁.allocationPtr ≤ q)
    (hlt : q + len < m.allocationPtr) (a : Nat) (hin : InCell q len a) : ¬ m.Live a := by
  have hend := hm.grows.firstGenerationEnd_eq
  have hend₁ := hm₁.grows.firstGenerationEnd_eq
  have hfits := hm₁.fits
  unfold InCell at hin
  unfold Memory.Live
  omega

/-- The place after a transformation, and what becomes of it. -/
structure TransformPlace (rank : Nat → κ) (C₀ : Nat → Nat → Prop) (m₀ : Memory) (d : Nat)
    (C : Nat → Nat → Prop) (s : IstState) (fields cF : List Nat) (P Q : List (κ × Nat))
    (t : Transformed) (C' : Nat → Nat → Prop) (s' : IstState) (G₁ G₂ : List Nat)
    (A₁ A₂ : List (κ × Nat)) : Prop where
  place : Place C₀ m₀ C' s' (G₁ ++ cF ++ G₂)
  before : SonsBefore rank (IstAt rank m₀.words C₀ d) G₁ A₁
  after : SonsAfter rank (IstAt rank m₀.words C₀ d) G₂ A₂
  iOfKey_eq : t.iOfKey = G₁.length + 2
  left : A₁ <:+ P
  right : A₂ <+: Q
  aside : ∀ K, Aside m₀ s fields.length K → Aside m₀ s' (G₁ ++ cF ++ G₂).length K
  inner : ¬ s.Top → t.copiedLevels = 2 ∧ ¬ s'.Top ∧ s'.newRoot = s.newRoot ∧
    (P = [] → t.ix = 1)
  deleted : ∀ K k X r, Aside m₀ s fields.length K →
    IstDeleted rank C₀ m₀ K C' s' (G₁ ++ cF ++ G₂).length d k (A₁ ++ X ++ A₂) r →
    IstDeleted rank C₀ m₀ K C s fields.length (d + 1) (27 + k) (P ++ X ++ Q) r

theorem transform_place (hs : Place C₀ m₀ C s fields)
    (hb : Builds C₀ m₀ (fun _ => False) 27 C s.m C' m')
    (ht : Transforms rank C₀ m₀ d fields cF P Q s.m C' m' t) :
    (s.transformed t m').m.allocationPtr = m'.allocationPtr ∧ ∃ G₁ G₂ A₁ A₂,
      TransformPlace rank C₀ m₀ d C s fields cF P Q t C' (s.transformed t m') G₁ G₂ A₁ A₂ := by
  have hle := hs.growing.grows.allocationPtr_le
  cases ht with
  | @merged q ix i G₁ G₂ hlen hchild hq =>
    -- the root went away
    have htop : s.Top := by
      refine hs.place.resolve_right fun hinner => hs.wide hinner.newRoot_ne_null hlen
    have hstate : s.transformed ⟨q, ix, i, 1⟩ m' = ⟨m', q, s.pp, q, false⟩ := by
      unfold IstState.transformed IstState.chain
      rw [if_pos htop.newRoot_eq]
      rfl
    rw [hstate]
    refine ⟨rfl, G₁, G₂, P, Q, place_root hb.growing hchild.node ⟨hq.1, by omega⟩ hchild.wide,
      hchild.before, hchild.after, hchild.iOfKey_eq, List.suffix_refl P, List.prefix_refl Q,
      fun K haside a ha => ?_, fun hnot => absurd htop hnot, fun K k X r haside hdel => ?_⟩
    · obtain ⟨hfresh, hne, -⟩ := haside a ha
      refine ⟨hfresh.mono hb.allocationPtr_le, hne, fun _ hin => ?_⟩
      unfold Fresh at hfresh
      unfold InCell at hin
      dsimp only at hin
      omega
    · obtain ⟨d', C'', q', -, hdeliver⟩ := hdel
      refine ⟨d', C'', q', fun hnot => absurd htop hnot, ?_, hdeliver.tree, fun _ =>
        hdeliver.top (.inr ⟨rfl, rfl⟩), fun hnot => absurd htop hnot⟩
      refine ((hb.mono (fun _ _ hfalse => hfalse.elim) (Nat.le_refl 27)).trans hs.growing
        hdeliver.builds).mono ?_ (Nat.le_refl _)
      rintro a ha ((hpp | ⟨-, hin⟩) | hK)
      · exact .inl (.inl hpp)
      · exact absurd ha (hs.growing.not_live_of_inCell hb.growing hq.1 hq.2 a hin)
      · exact .inr hK
  | @copied q node i G₁ G₂ L R A₁ A₂ S T hP hQ hnode hchild hq hL hR =>
    obtain ⟨hopened, hafter⟩ := chain_opened hs.spot hb hnode ⟨hq.1, by omega⟩
    obtain ⟨s₁, hs₁⟩ : ∃ s₁, s₁ = ({ s with m := m' } : IstState).chain node := ⟨_, rfl⟩
    rw [← hs₁] at hopened hafter
    have hstate : s.transformed ⟨node, L.length + 1, i, 2⟩ m' =
        ⟨s₁.m, s₁.newRoot, node + (L.length + 1), q, false⟩ := by
      unfold IstState.transformed
      simp only [← hs₁]
      rw [if_neg (by decide), hopened.node.word, wordToPtr_ptrToWord]
    have hptr : s₁.m.allocationPtr = m'.allocationPtr := by
      have hle := hafter.allocationPtr_le
      have hge := hafter.le_allocationPtr
      omega
    have hroot := hopened.newRoot_fresh
    have hlen : (L ++ ptrToWord q :: R).length = L.length + R.length + 1 := by
      rw [List.length_append, List.length_cons]
      omega
    rw [hlen] at hq hL hR
    have hlater : ∀ K, Aside m₀ s fields.length K → ∀ a, Touched
        ⟨s₁.m, s₁.newRoot, node + (L.length + 1), q, false⟩ (G₁ ++ cF ++ G₂).length a ∨ K a →
        WrittenLater s.m node (L.length + R.length + 1) q (G₁ ++ cF ++ G₂).length a := by
      rintro K haside a ((hpp | ⟨-, hin⟩) | hK)
      · refine .inr (.inl ?_)
        unfold InCell
        dsimp only at hpp
        omega
      · exact .inr (.inr hin)
      · exact .inl (haside a hK).1.1
    -- the son is not the root of the result
    have hne : s₁.newRoot ≠ q := by
      intro heq
      by_cases htop : s.Top
      · have hq' := hopened.top htop
        omega
      · have hq' := (hopened.inner htop).1
        have hold := (hs.inner htop).newRoot_fresh.1
        omega
    have hnot : ¬ (⟨s₁.m, s₁.newRoot, node + (L.length + 1), q, false⟩ : IstState).Top := by
      rintro (⟨-, hflag⟩ | ⟨hroot, -⟩)
      · cases hflag
      · exact hne hroot
    have hnew := hs.growing.not_live_of_inCell hb.growing (by omega) hq.2.2
    rw [hstate]
    refine ⟨hptr, G₁, G₂, A₁, A₂, ⟨hafter.growing, ?_, nofun, fun _ => ?_, .inr ⟨?_, hne,
      hroot, ?_, fun _ => ?_, fun _ => hopened.node.word⟩, fun _ => hchild.wide⟩, hchild.before,
      hchild.after, hchild.iOfKey_eq, ⟨S, hP.symm⟩, ⟨T, hQ.symm⟩, fun K haside a ha => ?_,
      fun htop => ⟨rfl, hnot, (hopened.inner htop).1, ?_⟩, fun K k X r haside hdel => ?_⟩
    · refine hafter.node hb.growing hchild.node fun a ha hin => ?_
      have hlow : s.m.allocationPtr ≤ q + a := hin.2
      omega
    · exact ⟨by dsimp only; omega, by dsimp only; omega⟩
    · have hpos := s₁.m.firstGenerationEnd_pos
      have hfits := hafter.growing.fits
      unfold Fresh at hroot
      unfold nullPtr
      dsimp only
      omega
    · exact ⟨by dsimp only; omega, by dsimp only; omega⟩
    · unfold InCell
      dsimp only
      omega
    · obtain ⟨hfresh, -, -⟩ := haside a ha
      unfold Fresh at hfresh
      refine ⟨⟨?_, hfresh.2⟩, ?_, fun _ hin => ?_⟩
      · dsimp only
        omega
      · dsimp only
        omega
      · unfold InCell at hin
        dsimp only at hin
        omega
    · rintro rfl
      obtain ⟨rfl, -⟩ := List.append_eq_nil_iff.mp hP.symm
      obtain rfl := hL.eq_nil
      rfl
    · rw [hP, hQ, show S ++ A₁ ++ X ++ (A₂ ++ T) = S ++ (A₁ ++ X ++ A₂) ++ T by simp]
      refine hopened.deleted ⟨s₁.m, s₁.newRoot, node + (L.length + 1), q, false⟩ hs.spot haside rfl
        rfl rfl hnot (fun _ a hin => ⟨?_, hnew a hin⟩) ?_ ?_ hdel
      · rw [hlen]
        unfold InCell at hin ⊢
        dsimp only at hin
        omega
      · exact hL.mono fun _ _ hkept => hkept.after hb.growing
          (hafter.mono (fun _ _ ha => .inl ha.2) (Nat.le_refl _)) fun a _ ha => hlater K haside a ha
      · exact hR.mono fun _ _ hkept => hkept.after hb.growing
          (hafter.mono (fun _ _ ha => .inl ha.2) (Nat.le_refl _)) fun a _ ha => hlater K haside a ha
/-- The way down to a 2-node, which is transformed. -/
theorem transform_down {c k : Nat} {L R : List Nat} (hs : Place C₀ m₀ C s (L ++ ptrToWord c :: R))
    (hL : SonsBefore rank (IstAt rank m₀.words C₀ (d + 1)) L P) (hc : IstNode m₀.words C₀ c cF)
    (htwo : cF.length = 4) (hR : SonsAfter rank (IstAt rank m₀.words C₀ (d + 1)) R Q)
    (hcan : s.m.canAllocate (27 + k)) :
    ∃ t C' m' G₁ G₂ A₁ A₂, copyAndTransform s.m s.p (L.length + 1) = some (t, m') ∧
      (s.transformed t m').m.canAllocate k ∧ TransformPlace rank C₀ m₀ d C s
        (L ++ ptrToWord c :: R) cF P Q t C' (s.transformed t m') G₁ G₂ A₁ A₂ := by
  obtain ⟨t, C', m', hrun, hbuild, htransform⟩ := copyAndTransform_spec hs.growing hs.node hL hc
    htwo hR (canAllocate_mono hcan (by omega))
  obtain ⟨hptr, G₁, G₂, A₁, A₂, ht⟩ := transform_place hs hbuild htransform
  refine ⟨t, C', m', G₁, G₂, A₁, A₂, hrun, hs.growing.canAllocate ht.place.growing ?_ hcan, ht⟩
  rw [hptr]
  exact hbuild.le_allocationPtr

/-- The key of the 2-node in the new son. -/
theorem TransformPlace.key {s' : IstState} {G₁ G₂ : List Nat} {A₁ A₂ : List (κ × Nat)}
    {a kw dw a' : Nat} (h : TransformPlace rank C₀ m₀ d C s fields [a, kw, dw, a'] P Q t C' s'
      G₁ G₂ A₁ A₂) : s'.m.words (s'.p + t.iOfKey) = kw := by
  have hnode := h.place.node
  rw [show G₁ ++ [a, kw, dw, a'] ++ G₂ = (G₁ ++ [a]) ++ kw :: dw :: a' :: G₂ by simp] at hnode
  rw [h.iOfKey_eq]
  simpa using hnode.word

/-- The data of the 2-node in the new son. -/
theorem TransformPlace.data {s' : IstState} {G₁ G₂ : List Nat} {A₁ A₂ : List (κ × Nat)}
    {a kw dw a' : Nat} (h : TransformPlace rank C₀ m₀ d C s fields [a, kw, dw, a'] P Q t C' s'
      G₁ G₂ A₁ A₂) : s'.m.words (s'.p + (t.iOfKey + 1)) = dw := by
  have hnode := h.place.node
  rw [show G₁ ++ [a, kw, dw, a'] ++ G₂ = (G₁ ++ [a, kw]) ++ dw :: a' :: G₂ by simp] at hnode
  rw [h.iOfKey_eq]
  simpa using hnode.word

end transform

end Shades
