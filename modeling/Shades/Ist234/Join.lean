import Shades.Ist234.Inner

/-!
# Shades.Ist234.Join

A key of an inner node is deleted when both subtrees beside it have a root with
one key.  The two roots become a joint, and there is a hole between their keys
where the sons beside the deleted key were; these are joined in the same way,
down to the leaves or to a place where one of them has a root with more than one
key.  There the joint is a 4-node with a key that is not known, and this key is
deleted.
-/

namespace Shades

open Memory

variable {κ : Type} {rank : Nat → κ} {C₀ C : Nat → Nat → Prop} {m₀ : Memory} {s : IstState}
variable {d n : Nat} {fields L R : List Nat} {P Q X Y items : List (κ × Nat)} {K : Nat → Prop}

/-! ## holes -/

/-- The place of a son that is still missing. -/
def IstState.hole (s : IstState) : IstState := { s with p := nullPtr, isNotCopiedYet := true }

@[simp] theorem IstState.hole_m : s.hole.m = s.m := rfl
@[simp] theorem IstState.hole_newRoot : s.hole.newRoot = s.newRoot := rfl
@[simp] theorem IstState.hole_pp : s.hole.pp = s.pp := rfl

theorem IstState.hole_top : s.hole.Top ↔ s.newRoot = nullPtr := by
  unfold IstState.Top IstState.hole
  simp

/-- A hole in a new node. -/
theorem spot_hole (hm : Growing C₀ m₀ C s.m) (hroot : Fresh m₀ s.m s.newRoot)
    (hpp : Fresh m₀ s.m s.pp) : Spot C₀ m₀ C s.hole 0 ∧ ¬ s.hole.Top := by
  have hne : s.newRoot ≠ nullPtr := by
    have hpos := s.m.firstGenerationEnd_pos
    have hfits := hm.fits
    unfold Fresh at hroot
    unfold nullPtr
    omega
  exact ⟨⟨hm, .inr ⟨hne, hne, hroot, hpp, nofun, nofun⟩⟩, fun htop => hne (s.hole_top.mp htop)⟩

/-- A joint is chained as any other node. -/
theorem chainJoint_eq (joint : Nat) :
    chainJoint s joint =
      { s with m := (s.hole.chain joint).m, newRoot := (s.hole.chain joint).newRoot } := by
  unfold chainJoint IstState.chain IstState.hole
  by_cases hnull : s.newRoot = nullPtr
  · simp [hnull]
  · simp [hnull]

/-- The words of a hole are whatever is there. -/
theorem newNodeWithHole_eq (m : Memory) (n k : Nat) (before after : List Nat) :
    ∃ M, M.length = k ∧ newNodeWithHole m n before (before.length + k + 1) after =
      newNode m n (before ++ M ++ after) := by
  obtain ⟨M, hM⟩ : ∃ M, M = slice (newNode m n before).2.words
    ((newNode m n before).1 + (1 + before.length)) k := ⟨_, rfl⟩
  have hlen : M.length = k := by rw [hM, length_slice]
  refine ⟨M, hlen, ?_⟩
  have hhole := fillCell_slice (newNode m n before).1 (1 + before.length) k (newNode m n before).2
  rw [← hM] at hhole
  unfold newNodeWithHole
  unfold newNode at hhole ⊢
  dsimp only at hhole ⊢
  rw [fillCell_append, fillCell_append, hhole, List.length_append, hlen,
    show before.length + k + 1 = 1 + (before.length + k) by omega]

/-- The new node of a joint. -/
theorem joint_opened (hs : Spot C₀ m₀ C s.hole 0) {k len : Nat} (before after : List Nat)
    (hlen : before.length + k + after.length = len) (hlen' : len = 7 ∨ len = 10)
    (hcan : s.m.canAllocate (len + 1)) :
    ∃ M q C₁ m₁, M.length = k ∧
      newNodeWithHole s.m ((len + 2) / 3) before (before.length + k + 1) after = (q, m₁) ∧
      Opened C₀ m₀ (len + 1) C s.hole 0 C₁ (chainJoint { s with m := m₁ } q).m
        (chainJoint { s with m := m₁ } q).newRoot q (before ++ M ++ after) := by
  obtain ⟨M, hM, hhole⟩ := newNodeWithHole_eq s.m ((len + 2) / 3) k before after
  have hfields : (before ++ M ++ after).length = len := by
    simp only [List.length_append]
    omega
  obtain ⟨q, C₁, m₁, hrun, hnew⟩ := newNode_spec (before ++ M ++ after) hs.growing (by omega)
    (canAllocate_mono hcan (by omega))
  have hbelow := hnew.below
  obtain ⟨hopened, -⟩ := chain_opened hs hnew.builds hnew.node ⟨hnew.eq_allocationPtr.ge, by
    rw [hfields] at hbelow ⊢
    show q + len < s.m.allocationPtr
    have hsame : s.hole.m.allocationPtr = s.m.allocationPtr := rfl
    omega⟩
  rw [hfields] at hopened hrun
  refine ⟨M, q, C₁, m₁, hM, hhole.trans hrun, ?_⟩
  rw [chainJoint_eq]
  exact hopened

theorem Opened.newRoot_ne {C₁ : Nat → Nat → Prop} {m₁ : Memory} {k len newRoot p₁ : Nat}
    {F : List Nat} (h : Opened C₀ m₀ k C s len C₁ m₁ newRoot p₁ F) (hs : Spot C₀ m₀ C s len)
    (hflag : s.isNotCopiedYet = true) (hnot : ¬ s.Top) : newRoot ≠ p₁ := by
  obtain ⟨hroot, -, hout⟩ := h.inner hnot
  rintro rfl
  have hfresh := (hs.inner hnot).newRoot_fresh
  rw [← hroot] at hfresh
  rcases h.own _ (.inr hfresh.1) ⟨Nat.le_refl _, by omega⟩ with hpp | ⟨hcopied, -⟩
  · rw [← hpp] at hout
    exact hout ⟨Nat.le_refl _, by omega⟩
  · rw [hflag] at hcopied
    cases hcopied

/-- The deletion goes on at the node that was opened. -/
theorem Opened.place_new {C₁ : Nat → Nat → Prop} {m₁ : Memory} {k len newRoot p₁ : Nat}
    {F : List Nat} (h : Opened C₀ m₀ k C s len C₁ m₁ newRoot p₁ F) (hs : Spot C₀ m₀ C s len)
    (hflag : s.isNotCopiedYet = true) (hwide : F.length ≠ 4) :
    Place C₀ m₀ C₁ ⟨m₁, newRoot, s.pp, p₁, false⟩ F := by
  refine ⟨h.builds.growing, h.node, nofun, fun _ => h.fresh, ?_, fun _ => hwide⟩
  by_cases htop : s.Top
  · exact .inl (.inr ⟨h.top htop, rfl⟩)
  · have hinner := hs.inner htop
    obtain ⟨rfl, hlink, hout⟩ := h.inner htop
    exact .inr ⟨hinner.newRoot_ne_null, h.newRoot_ne hs hflag htop, h.newRoot_fresh,
      hinner.pp_fresh.mono h.builds.allocationPtr_le, fun _ => hout, fun _ => hlink⟩

theorem Opened.deleted_new {C₁ : Nat → Nat → Prop} {m₁ : Memory} {j k len newRoot p₁ : Nat}
    {F : List Nat} {r : Nat × Memory} (h : Opened C₀ m₀ k C s len C₁ m₁ newRoot p₁ F)
    (hs : Spot C₀ m₀ C s len) (hflag : s.isNotCopiedYet = true)
    (hdel : IstDeleted rank C₀ m₀ K C₁ ⟨m₁, newRoot, s.pp, p₁, false⟩ F.length d j X r) :
    IstDeleted rank C₀ m₀ K C s len d (k + j) X r := by
  obtain ⟨d', C₂, q, hlevels, hdeliver⟩ := hdel
  have hnot : ¬ s.Top → ¬ (⟨m₁, newRoot, s.pp, p₁, false⟩ : IstState).Top := by
    rintro hnot (⟨-, hcopied⟩ | ⟨hroot, -⟩)
    · cases hcopied
    · exact h.newRoot_ne hs hflag hnot hroot
  refine ⟨d', C₂, q, fun htop => hlevels (hnot htop), ?_, hdeliver.tree, fun htop =>
    hdeliver.top (.inr ⟨h.top htop, rfl⟩), fun htop => ?_⟩
  · refine ((h.builds.mono (fun _ _ ha => .inl ha) (Nat.le_refl k)).trans hs.growing
      (W := fun a => Touched s len a ∨ Touched ⟨m₁, newRoot, s.pp, p₁, false⟩ F.length a ∨ K a)
      (hdeliver.builds.mono (fun _ _ ha => .inr ha) (Nat.le_refl j))).mono ?_ (Nat.le_refl _)
    rintro a ha (htouched | (hpp | ⟨-, hin⟩) | hK)
    · exact .inl htouched
    · exact .inl (.inl hpp)
    · exact .inl (h.own a ha hin)
    · exact .inr hK
  · obtain ⟨hroot, hlink⟩ := hdeliver.inner (hnot htop)
    exact ⟨hroot.trans (h.inner htop).1, hlink⟩

/-- Two 2-nodes without the key between them. -/
theorem Sons.join_two {T : Nat → List (κ × Nat) → Prop} {l₁ lk ld l₄ r₁ rk rd r₄ : Nat}
    (hX : Sons rank T [l₁, lk, ld, l₄] X) (hY : Sons rank T [r₁, rk, rd, r₄] Y) :
    ∃ P X' Y' Q, X ++ Y = P ++ (X' ++ Y') ++ Q ∧ SonsBefore rank T [l₁, lk, ld] P ∧ T l₄ X' ∧
      T r₁ Y' ∧ SonsAfter rank T [rk, rd, r₄] Q := by
  obtain ⟨X₁, X', rfl, hl₁, hX'⟩ := hX.split
  obtain ⟨X₄, Z, rfl, hl₄, hnil⟩ := hX'.uncons
  cases hnil
  obtain ⟨Y', Q, rfl, hr₁, hQ⟩ := hY.uncons
  exact ⟨X₁ ++ [item rank lk ld], X₄, Y', Q, by simp, .cons hl₁ .nil, hl₄, hr₁, hQ⟩

/-- The words that `joinSubtrees` reads. -/
theorem joinSubtrees_reads {words : Nat → Nat} {C : Nat → Nat → Prop} {p a b c e : Nat}
    (h : IstNode words C p [a, b, c, e]) :
    words (p + 1) = a ∧ words (p + 2) = b ∧ words (p + 3) = c ∧ words (p + 4) = e := by
  have hfields := h.fields_eq
  simpa [slice, Nat.add_assoc] using hfields

/-- A joint with a hole between two keys. -/
theorem joinSubtrees_three {again : IstState → Nat → Option (Nat × Memory)}
    {l r l₁ lk ld l₄ r₁ rk rd r₄ : Nat} (hs : Spot C₀ m₀ C s.hole 0)
    (hl : IstNode s.m.words C l [l₁, lk, ld, l₄]) (hr : IstNode s.m.words C r [r₁, rk, rd, r₄])
    (hcond : isLeaf s.m.words l = true ∨ nodeType s.m.words (wordToPtr l₄) = 2 ∧
      nodeType s.m.words (wordToPtr r₁) = 2) (hcan : s.m.canAllocate 8) :
    ∃ x q C₁ s₁, s₁.pp = q + 4 ∧ Opened C₀ m₀ 8 C s.hole 0 C₁ s₁.m s₁.newRoot q
        ([l₁, lk, ld] ++ x :: [rk, rd, r₄]) ∧
      (isLeaf s.m.words l = true →
        joinSubtrees again n s l r = some (s₁.newRoot, s₁.m.set (q + 4) nullWord)) ∧
      (¬ isLeaf s.m.words l = true → ∀ k, n = k + 1 →
        joinSubtrees again n s l r = joinSubtrees again k s₁ (wordToPtr l₄) (wordToPtr r₁)) := by
  obtain ⟨hl₁, hl₂, hl₃, hl₄⟩ := joinSubtrees_reads hl
  obtain ⟨hr₁, hr₂, hr₃, hr₄⟩ := joinSubtrees_reads hr
  obtain ⟨M, q, C₁, m₁, hM, hrun, hopened⟩ := joint_opened (k := 1) hs [l₁, lk, ld] [rk, rd, r₄]
    (rfl : 3 + 1 + 3 = 7) (.inl rfl) hcan
  obtain ⟨x, rfl⟩ := List.length_eq_one_iff.mp hM
  have hrun' : newNodeWithHole s.m 3 [l₁, lk, ld] 5 [rk, rd, r₄] = (q, m₁) := hrun
  obtain ⟨s₁, hs₁⟩ : ∃ s₁, s₁ = chainJoint { s with m := m₁ } q := ⟨_, rfl⟩
  rw [← hs₁] at hopened
  have hleaf : isLeaf s₁.m.words q = isLeaf s.m.words l := by
    have hword : s₁.m.words (q + 1) = l₁ := IstNode.word (L := []) hopened.node
    unfold isLeaf
    rw [hword, hl₁]
  refine ⟨x, q, C₁, { s₁ with p := q, pp := q + 4 }, rfl, hopened, fun hyes => ?_,
    fun hno k hk => ?_⟩
  · unfold joinSubtrees
    simp only [hl₁, hl₂, hl₃, hl₄, hr₁, hr₂, hr₃, hr₄]
    rw [if_pos hcond, hrun']
    simp only [← hs₁, hleaf, hyes, if_true]
  · subst hk
    rw [joinSubtrees]
    simp only [hl₁, hl₂, hl₃, hl₄, hr₁, hr₂, hr₃, hr₄]
    rw [if_pos hcond, hrun']
    simp only [← hs₁, hleaf, if_neg hno]

theorem joinSubtrees_spec {j l r l₁ lk ld l₄ r₁ rk rd r₄ : Nat} (hs : Spot C₀ m₀ C s.hole 0)
    (hl : IstNode m₀.words C₀ l [l₁, lk, ld, l₄]) (hr : IstNode m₀.words C₀ r [r₁, rk, rd, r₄])
    (hX : Sons rank (IstAt rank m₀.words C₀ d) [l₁, lk, ld, l₄] X)
    (hY : Sons rank (IstAt rank m₀.words C₀ d) [r₁, rk, rd, r₄] Y) (hn : d ≤ n)
    (hlevels : d ≤ ist234PathSize) (hcan : s.m.canAllocate (27 * d + 8)) :
    ∃ z, joinSubtrees (deleteInternalNode (j + 1)) n s l r = some z ∧
      IstDeleted rank C₀ m₀ (fun _ => False) C s.hole 0 d (27 * d + 8) (X ++ Y) z := by
  induction d generalizing n s C l r l₁ lk ld l₄ r₁ rk rd r₄ X Y with
  | zero =>
    obtain ⟨P, X', Y', Q, hitems, hP, ⟨rfl, rfl⟩, ⟨rfl, rfl⟩, hQ⟩ := hX.join_two hY
    have hleaf := (hX.isLeaf_iff (hs.growing.node hl)).mpr rfl
    obtain ⟨x, q, C₁, s₁, -, hopened, hjoin, -⟩ := joinSubtrees_three (n := n) hs
      (hs.growing.node hl) (hs.growing.node hr) (.inl hleaf) (canAllocate_mono hcan (by omega))
    have hfresh := hopened.fresh
    simp only [List.length_append, List.length_cons, List.length_nil] at hfresh
    have hnew : Fresh m₀ s₁.m (q + 4) := ⟨by omega, by omega⟩
    have hset : Builds C₀ m₀ (fun a => a = q + 4) 0 C₁ s₁.m C₁ (s₁.m.set (q + 4) nullWord) :=
      .set (W := fun a => a = q + 4) hopened.builds.growing (hnew.not_live hopened.builds.growing)
        rfl nullWord
    refine ⟨_, hjoin hleaf, ?_⟩
    rw [hitems]
    refine IstDeleted.mono ⟨1, C₁, q, fun _ => rfl, hopened.up (M := [x]) [nullWord] hs hset
      (fun a ha => ?_) rfl (hP.mono fun _ _ => kept_old) (hQ.mono fun _ _ => kept_old) ?_
      (.single ⟨rfl, rfl⟩)⟩ (Nat.le_refl _)
    · subst ha
      exact .inl ⟨by simp, by simp⟩
    · simp [slice]
  | succ d ih =>
    obtain ⟨n, rfl⟩ : ∃ k, n = k + 1 := ⟨n - 1, by omega⟩
    have hm : Growing C₀ m₀ C s.m := hs.growing
    obtain ⟨P, X', Y', Q, hitems, hP, hl₄, hr₁, hQ⟩ := hX.join_two hY
    have hleaf : ¬ isLeaf s.m.words l = true := fun hleaf =>
      absurd ((hX.isLeaf_iff (hm.node hl)).mp hleaf) (by omega)
    obtain ⟨a, aF, rfl, ha, haX⟩ := hl₄
    obtain ⟨b, bF, rfl, hb, hbY⟩ := hr₁
    have hatype := (hm.node ha).nodeType_eq
    have hbtype := (hm.node hb).nodeType_eq
    have halen := ha.length
    have hblen := hb.length
    by_cases htwo : aF.length = 4 ∧ bF.length = 4
    · have hcond : nodeType s.m.words (wordToPtr (ptrToWord a)) = 2 ∧
          nodeType s.m.words (wordToPtr (ptrToWord b)) = 2 := by
        rw [wordToPtr_ptrToWord, wordToPtr_ptrToWord, hatype, hbtype]
        omega
      obtain ⟨x, q, C₁, s₁, hpp, hopened, -, hjoin⟩ := joinSubtrees_three (n := n + 1) hs
        (hm.node hl) (hm.node hr) (.inr hcond) (canAllocate_mono hcan (by omega))
      · obtain ⟨a₁, ak, ad, a₄, rfl⟩ := exists_four htwo.1
        obtain ⟨b₁, bk, bd, b₄, rfl⟩ := exists_four htwo.2
        have hfresh := hopened.fresh
        simp only [List.length_append, List.length_cons, List.length_nil] at hfresh
        obtain ⟨hspot, hnot⟩ := spot_hole hopened.builds.growing hopened.newRoot_fresh
          (by rw [hpp]; exact ⟨by omega, by omega⟩)
        obtain ⟨z, hz, hdel⟩ := ih (n := n) hspot ha hb haX hbY (by omega) (by omega)
          (hopened.builds.canAllocate hs.growing (canAllocate_mono hcan (by omega)))
        refine ⟨z, ?_, ?_⟩
        · rw [hjoin hleaf n rfl, wordToPtr_ptrToWord, wordToPtr_ptrToWord]
          exact hz
        · rw [hitems]
          exact (hopened.deleted s₁.hole hs (fun _ hfalse => hfalse.elim) rfl rfl hpp hnot nofun
            (hP.mono fun _ _ => kept_old) (hQ.mono fun _ _ => kept_old) hdel).mono (by omega)
    · have hcond : ¬ (isLeaf s.m.words l = true ∨ nodeType s.m.words a = 2 ∧
          nodeType s.m.words b = 2) := by
        rw [hatype, hbtype]
        exact fun hor => hor.elim hleaf fun htypes => htwo ⟨by omega, by omega⟩
      obtain ⟨hl₁, hl₂, hl₃, hl₄⟩ := joinSubtrees_reads (hm.node hl)
      obtain ⟨hr₁, hr₂, hr₃, hr₄⟩ := joinSubtrees_reads (hm.node hr)
      obtain ⟨M, q, C₁, m₁, hM, hrun, hopened⟩ := joint_opened (k := 2) hs
        [l₁, lk, ld, ptrToWord a] [ptrToWord b, rk, rd, r₄] (rfl : 4 + 2 + 4 = 10) (.inr rfl)
        (canAllocate_mono hcan (by omega))
      obtain ⟨kw, dw, rfl⟩ := List.length_eq_two.mp hM
      have hrun' : newNodeWithHole s.m 4 [l₁, lk, ld, ptrToWord a] 7 [ptrToWord b, rk, rd, r₄] =
        (q, m₁) := hrun
      obtain ⟨s₁, hs₁⟩ : ∃ s₁, s₁ = chainJoint { s with m := m₁ } q := ⟨_, rfl⟩
      rw [← hs₁] at hopened
      have hpp : s₁.pp = s.hole.pp := by
        rw [hs₁, chainJoint_eq]
        rfl
      have hjoin : joinSubtrees (deleteInternalNode (j + 1)) (n + 1) s l r =
          deleteInternalNode (j + 1) ⟨s₁.m, s₁.newRoot, s.hole.pp, q, false⟩ 5 := by
        rw [joinSubtrees]
        simp only [hl₁, hl₂, hl₃, hl₄, hr₁, hr₂, hr₃, hr₄, wordToPtr_ptrToWord]
        rw [if_neg hcond, hrun', ← hpp]
        simp only [← hs₁]
      have hplace : Place C₀ m₀ C₁ ⟨s₁.m, s₁.newRoot, s.hole.pp, q, false⟩
          ([l₁, lk, ld] ++ [ptrToWord a, kw, dw, ptrToWord b] ++ [rk, rd, r₄]) :=
        hopened.place_new hs rfl (by simp)
      have hwide : nodeType m₀.words (wordToPtr (ptrToWord a)) > 2 ∨
          nodeType m₀.words (wordToPtr (ptrToWord b)) > 2 := by
        rw [wordToPtr_ptrToWord, wordToPtr_ptrToWord, ha.nodeType_eq, hb.nodeType_eq]
        omega
      have hcan₁ : s₁.m.canAllocate (27 * d + 19) :=
        hopened.builds.canAllocate hm (canAllocate_mono hcan (by omega))
      obtain ⟨z, hz, hdel⟩ := deleteInternalNode_wide (n := j) hplace hP ⟨a, aF, rfl, ha, haX⟩
        ⟨b, bF, rfl, hb, hbY⟩ hQ hwide (by omega) hcan₁
      refine ⟨z, hjoin.trans hz, ?_⟩
      rw [hitems]
      exact (hopened.deleted_new hs rfl hdel).mono (by omega)

theorem Opened.mono {C₁ : Nat → Nat → Prop} {m₁ : Memory} {j k len newRoot p₁ : Nat} {F : List Nat}
    (h : Opened C₀ m₀ j C s len C₁ m₁ newRoot p₁ F) (hle : j ≤ k) :
    Opened C₀ m₀ k C s len C₁ m₁ newRoot p₁ F :=
  { h with builds := h.builds.mono (fun _ _ ha => ha) hle }

/-- The key is removed from its node, which then has a hole. -/
theorem removeKey_opened {c c' kw dw : Nat} (hs : Place C₀ m₀ C s (L ++ [c, kw, dw, c'] ++ R))
    (hL : L.length % 3 = 0) (hwide : (L ++ [c, kw, dw, c'] ++ R).length ≠ 4)
    (hcan : s.m.canAllocate 8) :
    ∃ x q C₁ s₁, removeKey s (L.length + 2) = s₁ ∧ s₁.pp = q + (L.length + 1) ∧
      Opened C₀ m₀ 8 C s (L ++ [c, kw, dw, c'] ++ R).length C₁ s₁.m s₁.newRoot q
        (L ++ x :: R) := by
  have hnode := hs.node
  have htype := hnode.nodeType_eq
  have hlen := hnode.length
  rw [show L ++ [c, kw, dw, c'] ++ R = L ++ c :: kw :: dw :: c' :: R by simp] at hnode
  have hwithout := nodeWithoutKey_eq hnode hL (by simpa using hwide)
  rw [← hnode.nodeType_eq] at hwithout
  obtain ⟨M, hM, hhole⟩ := newNodeWithHole_eq s.m (nodeType s.m.words s.p - 1) 1 L R
  obtain ⟨x, rfl⟩ := List.length_eq_one_iff.mp hM
  have hfewer : (L ++ [x] ++ R).length + 3 = (L ++ [c, kw, dw, c'] ++ R).length := by
    simp only [List.length_append, List.length_cons, List.length_nil]
    omega
  obtain ⟨q, C₁, m₁, hrun, hnew⟩ := newNode_spec (L ++ [x] ++ R) hs.growing (by omega)
    (canAllocate_mono hcan (by omega))
  have hbelow := hnew.below
  obtain ⟨hopened, -⟩ := chain_opened hs.spot hnew.builds hnew.node
    ⟨hnew.eq_allocationPtr.ge, by omega⟩
  rw [show ((L ++ [x] ++ R).length + 2) / 3 = nodeType s.m.words s.p - 1 by omega] at hrun
  refine ⟨x, q, C₁, { ({ s with m := m₁ } : IstState).chain q with
    p := q, pp := q + (L.length + 1) }, ?_, rfl, ?_⟩
  · unfold removeKey
    rw [if_pos (by omega), hwithout]
    dsimp only
    rw [hhole, hrun]
    rfl
  · have hmono := hopened.mono (by omega : (L ++ [x] ++ R).length + 1 ≤ 8)
    rwa [show L ++ [x] ++ R = L ++ x :: R by simp] at hmono

/-- `delete_internal_node`. -/
theorem deleteInternalNode_spec {c c' kw dw : Nat}
    (hs : Place C₀ m₀ C s (L ++ [c, kw, dw, c'] ++ R))
    (hL : SonsBefore rank (IstAt rank m₀.words C₀ (d + 1)) L P)
    (hc : IstAt rank m₀.words C₀ (d + 1) c X) (hc' : IstAt rank m₀.words C₀ (d + 1) c' Y)
    (hR : SonsAfter rank (IstAt rank m₀.words C₀ (d + 1)) R Q) (hn : d ≤ ist234PathSize)
    (hcan : s.m.canAllocate (27 * d + 19)) :
    ∃ r, deleteInternalNode 2 s (L.length + 2) = some r ∧
      IstDeleted rank C₀ m₀ (fun _ => False) C s (L ++ [c, kw, dw, c'] ++ R).length (d + 1)
        (27 * d + 19) (P ++ (X ++ Y) ++ Q) r := by
  by_cases hwide : nodeType m₀.words (wordToPtr c) > 2 ∨ nodeType m₀.words (wordToPtr c') > 2
  · exact deleteInternalNode_wide hs hL hc hc' hR hwide hn hcan
  obtain ⟨p, F, rfl, hp, hX⟩ := hc
  obtain ⟨q, G, rfl, hq, hY⟩ := hc'
  have hm := hs.growing
  have hplen := hp.length
  have hqlen := hq.length
  have hptype := (hm.node hp).nodeType_eq
  have hqtype := (hm.node hq).nodeType_eq
  rw [wordToPtr_ptrToWord, wordToPtr_ptrToWord, hp.nodeType_eq, hq.nodeType_eq] at hwide
  have hleft : s.m.words (s.p + (L.length + 1)) = ptrToWord p := by
    have hnode := hs.node
    rw [show L ++ [ptrToWord p, kw, dw, ptrToWord q] ++ R =
      L ++ ptrToWord p :: (kw :: dw :: ptrToWord q :: R) by simp] at hnode
    exact hnode.word
  have hright : s.m.words (s.p + (L.length + 4)) = ptrToWord q := by
    have hnode := hs.node
    rw [show L ++ [ptrToWord p, kw, dw, ptrToWord q] ++ R =
      (L ++ [ptrToWord p, kw, dw]) ++ ptrToWord q :: R by simp] at hnode
    simpa using hnode.word
  have hjoin : deleteInternalNode 2 s (L.length + 2) =
      joinSubtrees (deleteInternalNode 1) ist234PathSize (removeKey s (L.length + 2)) p q := by
    rw [deleteInternalNode]
    rw [show L.length + 2 - 1 = L.length + 1 by omega,
      show L.length + 2 + 2 = L.length + 4 by omega]
    simp only [hleft, hright, wordToPtr_ptrToWord, hptype, hqtype]
    rw [if_neg (by omega), if_neg (by omega)]
  obtain ⟨a₁, ak, ad, a₄, rfl⟩ := exists_four (by omega : F.length = 4)
  obtain ⟨b₁, bk, bd, b₄, rfl⟩ := exists_four (by omega : G.length = 4)
  rw [hjoin]
  by_cases htwo : (L ++ [ptrToWord p, kw, dw, ptrToWord q] ++ R).length = 4
  · -- the only key of the root
    have hlen : L.length = 0 ∧ R.length = 0 := by
      simp only [List.length_append, List.length_cons, List.length_nil] at htwo
      omega
    obtain rfl := List.length_eq_zero_iff.mp hlen.1
    obtain rfl := List.length_eq_zero_iff.mp hlen.2
    cases hL
    cases hR
    have htype := hs.node.nodeType_eq
    have hnull : s.newRoot = nullPtr := not_not.mp fun hne => hs.wide hne htwo
    have htop : s.Top := hs.place.resolve_right fun hinner => hinner.newRoot_ne_null hnull
    have hremove : removeKey s 2 = s := by
      unfold removeKey
      rw [if_neg (by omega)]
    obtain ⟨r, hr, d', C', q', -, hdeliver⟩ := joinSubtrees_spec (j := 0)
      ⟨hm, .inl (s.hole_top.mpr hnull)⟩ hp hq hX hY hn hn (canAllocate_mono hcan (by omega))
    refine ⟨r, ?_, d', C', q', fun hnot => absurd htop hnot, hdeliver.builds.mono ?_ (by omega), ?_,
      fun _ => hdeliver.top (s.hole_top.mpr hnull), fun hnot => absurd htop hnot⟩
    · rw [List.length_nil, Nat.zero_add, hremove]
      exact hr
    · rintro a - ((hpp | ⟨hflag, -⟩) | hfalse)
      · exact .inl (.inl hpp)
      · cases hflag
      · exact hfalse.elim
    · simpa using hdeliver.tree
  · obtain ⟨x, q', C₁, s₁, hremove, hpp, hopened⟩ := removeKey_opened hs hL.length htwo
      (canAllocate_mono hcan (by omega))
    have hfresh := hopened.fresh
    simp only [List.length_append, List.length_cons] at hfresh
    obtain ⟨hspot, hnot⟩ := spot_hole hopened.builds.growing hopened.newRoot_fresh
      (by rw [hpp]; exact ⟨by omega, by omega⟩)
    obtain ⟨r, hr, hdel⟩ := joinSubtrees_spec (j := 0) hspot hp hq hX hY hn hn
      (hopened.builds.canAllocate hm (canAllocate_mono hcan (by omega)))
    refine ⟨r, ?_, (hopened.deleted s₁.hole hs.spot (fun _ hfalse => hfalse.elim) rfl rfl hpp hnot
      nofun (hL.mono fun _ _ => kept_old) (hR.mono fun _ _ => kept_old) hdel).mono (by omega)⟩
    rw [hremove]
    exact hr

/-- The only key of the tree. -/
theorem deleteLeaf_last {c c' kw dw : Nat} (hs : Place C₀ m₀ C s [c, kw, dw, c']) :
    deleteLeaf s 2 = some (nullPtr, s.m) ∧
      IstDeleted rank C₀ m₀ (fun _ => False) C s 4 d n [] (nullPtr, s.m) := by
  have htype : nodeType s.m.words s.p = 2 := hs.node.nodeType_eq.trans (by simp)
  have hnull : s.newRoot = nullPtr := not_not.mp fun hne => hs.wide hne rfl
  have htop : s.Top := hs.place.resolve_right fun hinner => hinner.newRoot_ne_null hnull
  refine ⟨?_, 0, C, nullPtr, fun hnot => absurd htop hnot, ?_, ⟨rfl, rfl⟩, fun _ => rfl,
    fun hnot => absurd htop hnot⟩
  · unfold deleteLeaf
    rw [if_pos htype, assert_true hnull]
    rfl
  · exact (Builds.refl hs.growing _).mono (fun _ _ ha => ha) (Nat.zero_le _)

/-- `delete_key` without a delete function. -/
theorem deleteKey_spec {c c' kw dw root data : Nat}
    (hs : Place C₀ m₀ C s (L ++ [c, kw, dw, c'] ++ R))
    (hL : SonsBefore rank (IstAt rank m₀.words C₀ d) L P) (hc : IstAt rank m₀.words C₀ d c X)
    (hc' : IstAt rank m₀.words C₀ d c' Y) (hR : SonsAfter rank (IstAt rank m₀.words C₀ d) R Q)
    (hn : d ≤ ist234PathSize + 1) (hcan : s.m.canAllocate (27 * d + 8)) :
    ∃ r, deleteKey root none data s (L.length + 2) = some r ∧
      IstDeleted rank C₀ m₀ (fun _ => False) C s (L ++ [c, kw, dw, c'] ++ R).length d (27 * d + 8)
        (P ++ (X ++ Y) ++ Q) r := by
  have hsons : Sons rank (IstAt rank m₀.words C₀ d) (L ++ [c, kw, dw, c'] ++ R)
      (P ++ (X ++ item rank kw dw :: Y) ++ Q) :=
    .around hL (.join (.single hc) (.single hc') kw dw) hR
  have hleaf := hsons.isLeaf_iff hs.node
  unfold deleteKey
  dsimp only
  cases d with
  | zero =>
    rw [if_pos (hleaf.mpr rfl)]
    obtain ⟨rfl, rfl⟩ := hc
    obtain ⟨rfl, rfl⟩ := hc'
    by_cases hlen : (L ++ [nullWord, kw, dw, nullWord] ++ R).length = 4
    · have hzero : L.length = 0 ∧ R.length = 0 := by
        simp only [List.length_append, List.length_cons, List.length_nil] at hlen
        omega
      obtain rfl := List.length_eq_zero_iff.mp hzero.1
      obtain rfl := List.length_eq_zero_iff.mp hzero.2
      cases hL
      cases hR
      exact ⟨_, deleteLeaf_last hs⟩
    · rw [show L ++ [nullWord, kw, dw, nullWord] ++ R =
        L ++ nullWord :: kw :: dw :: nullWord :: R by simp] at hs hlen ⊢
      simpa using deleteLeaf_spec hs hL hR hlen (canAllocate_mono hcan (by omega))
  | succ d =>
    have hassert : s.newRoot = nullPtr ∨ nodeType s.m.words s.p > 2 := by
      rw [hs.node.nodeType_eq]
      by_cases hnull : s.newRoot = nullPtr
      · exact .inl hnull
      · have hwide := hs.wide hnull
        have hlen := hs.node.length
        omega
    rw [if_neg (fun h => absurd (hleaf.mp h) (by omega)), assert_true hassert]
    simp only [Option.bind_eq_bind, Option.bind_some]
    obtain ⟨r, hr, hdel⟩ := deleteInternalNode_spec hs hL hc hc' hR (by omega)
      (canAllocate_mono hcan (by omega))
    exact ⟨r, hr, hdel.mono (by omega)⟩

end Shades
