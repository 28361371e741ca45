import Shades.Ist234.Place

/-!
# Shades.Ist234.Transform

`copy_and_transform`.  The 2-node that the deletion goes down to gets another
key, from a brother by way of the node above it, or together with that brother.
Its own words stay together; `G₁` and `G₂` are what stands around them in the
new son, and the items `A₁` and `A₂` have come down.
-/

namespace Shades

open Memory

variable {κ : Type} {rank : Nat → κ}

/-! ## what the transformation does -/

/-- The son that the deletion goes on with. -/
structure NewChild (rank : Nat → κ) (C₀ : Nat → Nat → Prop) (m₀ : Memory) (d : Nat)
    (cF : List Nat) (C' : Nat → Nat → Prop) (m' : Memory) (q : Nat) (G₁ G₂ : List Nat)
    (A₁ A₂ : List (κ × Nat)) (iOfKey : Nat) : Prop where
  node : IstNode m'.words C' q (G₁ ++ cF ++ G₂)
  before : SonsBefore rank (IstAt rank m₀.words C₀ d) G₁ A₁
  after : SonsAfter rank (IstAt rank m₀.words C₀ d) G₂ A₂
  wide : (G₁ ++ cF ++ G₂).length ≠ 4
  iOfKey_eq : iOfKey = G₁.length + 2

/-- The words that are written later: those of the new node and of its new son,
and those that were allocated before. -/
def WrittenLater (m : Memory) (node len q len' a : Nat) : Prop :=
  m.allocationPtr ≤ a ∨ InCell node len a ∨ InCell q len' a

/-- The result of `copy_and_transform` for a node with the items `P` before and
`Q` after the son with the words `cF`. -/
inductive Transforms (rank : Nat → κ) (C₀ : Nat → Nat → Prop) (m₀ : Memory) (d : Nat)
    (fields cF : List Nat) (P Q : List (κ × Nat)) (m : Memory) (C' : Nat → Nat → Prop)
    (m' : Memory) : Transformed → Prop
  | merged {q ix i : Nat} {G₁ G₂ : List Nat} (hlen : fields.length = 4)
      (hchild : NewChild rank C₀ m₀ d cF C' m' q G₁ G₂ P Q i)
      (hq : m'.allocationPtr ≤ q ∧ q + (G₁ ++ cF ++ G₂).length < m.allocationPtr) :
      Transforms rank C₀ m₀ d fields cF P Q m C' m' ⟨q, ix, i, 1⟩
  | copied {q node i : Nat} {G₁ G₂ L R : List Nat} {A₁ A₂ S T : List (κ × Nat)}
      (hP : P = S ++ A₁) (hQ : Q = A₂ ++ T)
      (hnode : IstNode m'.words C' node (L ++ ptrToWord q :: R))
      (hchild : NewChild rank C₀ m₀ d cF C' m' q G₁ G₂ A₁ A₂ i)
      (hq : m'.allocationPtr ≤ node ∧ node + (L ++ ptrToWord q :: R).length < q ∧
        q + (G₁ ++ cF ++ G₂).length < m.allocationPtr)
      (hL : SonsBefore rank (Kept rank C₀ m₀ (WrittenLater m node
        (L ++ ptrToWord q :: R).length q (G₁ ++ cF ++ G₂).length) C' m' (d + 1)) L S)
      (hR : SonsAfter rank (Kept rank C₀ m₀ (WrittenLater m node
        (L ++ ptrToWord q :: R).length q (G₁ ++ cF ++ G₂).length) C' m' (d + 1)) R T) :
      Transforms rank C₀ m₀ d fields cF P Q m C' m' ⟨node, L.length + 1, i, 2⟩

section transform

variable {C₀ C : Nat → Nat → Prop} {m₀ m : Memory} {d p x y kw dw : Nat} {L R F G : List Nat}
variable {P Q X Y : List (κ × Nat)}

/-- A new node over old trees that is not written to any more. -/
theorem kept_new {W : Nat → Prop} {r : Nat} (hm : Growing C₀ m₀ C m) (hn : IstNode m.words C r F)
    (hs : Sons rank (IstAt rank m₀.words C₀ d) F Y) (hW : ∀ a, InCell r F.length a → ¬ W a) :
    Kept rank C₀ m₀ W C m (d + 1) (ptrToWord r) Y := by
  intro n C' m' hb
  refine ⟨r, F, rfl, hb.node hm hn fun i hi => hW _ ⟨by omega, by omega⟩,
    hs.mono fun _ _ hold => hb.growing.tree hold⟩

/-- Two 2-nodes and the key between them become a 4-node. -/
theorem merge_spec (cF : List Nat) (A₂ : List (κ × Nat)) {G₁ G₂ N fields : List Nat}
    {A₁ : List (κ × Nat)} {M : Nat → List Nat} {type ix i : Nat} (hm : Growing C₀ m₀ C m)
    (hN : N = G₁ ++ cF ++ G₂) (hlenN : N.length = 10)
    (hG₁ : SonsBefore rank (IstAt rank m₀.words C₀ d) G₁ A₁)
    (hG₂ : SonsAfter rank (IstAt rank m₀.words C₀ d) G₂ A₂) (hi : i = G₁.length + 2)
    (hL : SonsBefore rank (IstAt rank m₀.words C₀ (d + 1)) L P)
    (hR : SonsAfter rank (IstAt rank m₀.words C₀ (d + 1)) R Q)
    (hfields : fields.length = L.length + R.length + 4)
    (hlen : fields.length = 4 ∨ fields.length = 7 ∨ fields.length = 10)
    (htype : type = (fields.length + 2) / 3)
    (hM : fields.length ≠ 4 → ∀ q, M q = L ++ ptrToWord q :: R) (hcan : m.canAllocate 27) :
    ∃ t C' m',
      (let (newP, m) := newNode m 4 N
        if type = 2 then ((⟨newP, ix, i, 1⟩ : Transformed), m)
        else
          let (node, m) := newNode m (type - 1) (M newP)
          (⟨node, L.length + 1, i, 2⟩, m)) = (t, m') ∧
      Builds C₀ m₀ (fun _ => False) 27 C m C' m' ∧
      Transforms rank C₀ m₀ d fields cF (P ++ A₁) (A₂ ++ Q) m C' m' t := by
  obtain ⟨q, C₁, m₁, hrun, hnew⟩ := newNode_spec N hm (by omega) (canAllocate_mono hcan (by omega))
  have hbelow := hnew.below
  have hptr := hnew.eq_allocationPtr
  have hm₁ := hnew.builds.growing
  rw [hlenN] at hrun
  simp only [hrun]
  by_cases htwo : fields.length = 4
  · -- the node above goes away
    have hLnil : L = [] := List.length_eq_zero_iff.mp (by omega)
    have hRnil : R = [] := List.length_eq_zero_iff.mp (by omega)
    subst hLnil hRnil hN
    cases hL
    cases hR
    rw [if_pos (by omega), List.nil_append, List.append_nil]
    exact ⟨_, C₁, m₁, rfl, hnew.builds.mono (fun _ _ hW => hW) (by omega), .merged htwo
      ⟨hnew.node, hG₁, hG₂, by omega, hi⟩ ⟨hptr.ge, by omega⟩⟩
  · rw [if_neg (by omega), hM htwo]
    have hlen' : (L ++ ptrToWord q :: R).length = fields.length - 3 := by
      simp only [List.length_append, List.length_cons]
      omega
    obtain ⟨node, C₂, m₂, hrun', hnew'⟩ := newNode_spec (L ++ ptrToWord q :: R) hm₁ (by omega)
      (hnew.builds.canAllocate hm (canAllocate_mono hcan (by omega)))
    have hbelow' := hnew'.below
    have hptr' := hnew'.eq_allocationPtr
    rw [show ((L ++ ptrToWord q :: R).length + 2) / 3 = type - 1 by omega] at hrun'
    simp only [hrun']
    have hchild : IstNode m₂.words C₂ q N :=
      hnew'.builds.node hm₁ hnew.node fun _ _ hfalse => hfalse
    subst hN
    refine ⟨_, C₂, m₂, rfl, (hnew.builds.trans hm hnew'.builds).mono (fun _ _ hW => hW) (by omega),
      .copied rfl rfl hnew'.node ⟨hchild, hG₁, hG₂, by omega, hi⟩ ?_
        (hL.mono fun _ _ => kept_old) (hR.mono fun _ _ => kept_old)⟩
    omega

/-- The words of the two sons and of the node when a key is moved. -/
theorem newNodes_spec (NL NR : List Nat) {B : Nat → Nat → List Nat} {len : Nat}
    (hm : Growing C₀ m₀ C m) (hNL : NL.length = 4 ∨ NL.length = 7)
    (hNR : NR.length = 4 ∨ NR.length = 7) (hlen : len = 4 ∨ len = 7 ∨ len = 10)
    (hB : ∀ left right, (B left right).length = len) (hcan : m.canAllocate 27) :
    ∃ left right node C' m₁ m₂ m',
      newNode m ((NL.length + 2) / 3) NL = (left, m₁) ∧
      newNode m₁ ((NR.length + 2) / 3) NR = (right, m₂) ∧
      newNode m₂ ((len + 2) / 3) (B left right) = (node, m') ∧
      Builds C₀ m₀ (fun _ => False) 27 C m C' m' ∧ IstNode m'.words C' left NL ∧
      IstNode m'.words C' right NR ∧ IstNode m'.words C' node (B left right) ∧
      left + NL.length < m.allocationPtr ∧ right + NR.length < left ∧ node + len < right ∧
      m'.allocationPtr ≤ node := by
  obtain ⟨left, C₁, m₁, hrun₁, hnew₁⟩ := newNode_spec NL hm (by omega)
    (canAllocate_mono hcan (by omega))
  have hm₁ := hnew₁.builds.growing
  obtain ⟨right, C₂, m₂, hrun₂, hnew₂⟩ := newNode_spec NR hm₁ (by omega)
    (hnew₁.builds.canAllocate hm (canAllocate_mono hcan (by omega)))
  have hm₂ := hnew₂.builds.growing
  have hboth := hnew₁.builds.trans hm hnew₂.builds
  have hlenB := hB left right
  obtain ⟨node, C₃, m₃, hrun₃, hnew₃⟩ := newNode_spec (B left right) hm₂ (by omega)
    (hboth.canAllocate hm (canAllocate_mono hcan (by omega)))
  have hbelow₁ := hnew₁.below
  have hbelow₂ := hnew₂.below
  have hbelow₃ := hnew₃.below
  have hptr₁ := hnew₁.eq_allocationPtr
  have hptr₂ := hnew₂.eq_allocationPtr
  have hptr₃ := hnew₃.eq_allocationPtr
  rw [hlenB] at hrun₃
  exact ⟨left, right, node, C₃, m₁, m₂, m₃, hrun₁, hrun₂, hrun₃,
    (hboth.trans hm hnew₃.builds).mono (fun _ _ hW => hW) (by omega),
    hnew₃.builds.node hm₂ (hnew₂.builds.node hm₁ hnew₁.node fun _ _ hfalse => hfalse)
      fun _ _ hfalse => hfalse,
    hnew₃.builds.node hm₂ hnew₂.node fun _ _ hfalse => hfalse, hnew₃.node, by omega, by omega,
    by omega, by omega⟩

end transform

section spec

variable {C₀ C : Nat → Nat → Prop} {m₀ m : Memory} {d p x y kw dw : Nat} {L R F G : List Nat}
variable {P Q X Y : List (κ × Nat)}

theorem transformFirst_spec (hm : Growing C₀ m₀ C m)
    (hn : IstNode m.words C p (ptrToWord x :: kw :: dw :: ptrToWord y :: R))
    (hx : IstNode m₀.words C₀ x F) (hxlen : F.length = 4)
    (hy : IstNode m₀.words C₀ y G) (hY : Sons rank (IstAt rank m₀.words C₀ d) G Y)
    (hR : SonsAfter rank (IstAt rank m₀.words C₀ (d + 1)) R Q) (hcan : m.canAllocate 27) :
    ∃ t C' m', transformFirst m p = (t, m') ∧ Builds C₀ m₀ (fun _ => False) 27 C m C' m' ∧
      Transforms rank C₀ m₀ d (ptrToWord x :: kw :: dw :: ptrToWord y :: R) F []
        (item rank kw dw :: Y ++ Q) m C' m' t := by
  have hlen := hn.length
  have hylen := hy.length
  have htype := hn.nodeType_eq
  have htype' := (hm.node hy).nodeType_eq
  have hw₁ : m.words (p + 1) = ptrToWord x := IstNode.word (L := []) hn
  have hw₂ : m.words (p + 2) = kw := IstNode.word (L := [_]) hn
  have hw₃ : m.words (p + 3) = dw := IstNode.word (L := [_, _]) hn
  have hw₄ : m.words (p + 4) = ptrToWord y := IstNode.word (L := [_, _, _]) hn
  obtain ⟨a₁, a₂, a₃, a₄, rfl⟩ := exists_four hxlen
  have hF := (hm.node hx).fields_eq
  simp only [slice, List.length_cons, List.length_nil, Nat.add_assoc, Nat.reduceAdd,
    List.cons.injEq, and_true] at hF
  unfold transformFirst
  simp only [hw₁, hw₂, hw₃, hw₄, wordToPtr_ptrToWord, hF, htype']
  by_cases htwo : G.length = 4
  · -- the two sons are merged
    obtain ⟨b₁, b₂, b₃, b₄, rfl⟩ := exists_four htwo
    have hG := (hm.node hy).fields_eq
    simp only [slice, List.length_cons, List.length_nil, Nat.add_assoc, Nat.reduceAdd,
      List.cons.injEq, and_true] at hG
    rw [if_pos (by simp)]
    simp only [hG]
    refine merge_spec [a₁, a₂, a₃, a₄] _ (L := []) (M := fun q =>
      mergedNode (fun i => m.words (p + i)) (ptrToWord q) (nodeType m.words p) 1) hm rfl rfl .nil
      (hY.after kw dw) rfl .nil hR (by simp) hlen htype (fun hne q => ?_) hcan
    rw [mergedNode_one, htype]
    exact mergedNode_eq (L := []) hn rfl hne _
  · -- the first key of the brother moves up
    obtain ⟨b₁, bk, bd, bR, rfl⟩ := exists_three (by omega : 3 ≤ G.length)
    simp only [List.length_cons] at htwo hylen
    have hbR : [m.words (y + 4), m.words (y + 5), m.words (y + 6), m.words (y + 7)] ++
        (if ((b₁ :: bk :: bd :: bR).length + 2) / 3 = 4 then
          [m.words (y + 8), m.words (y + 9), m.words (y + 10)] else []) = bR := by
      have hG := (hm.node hy).fields_eq
      obtain hfour | hseven : bR.length = 4 ∨ bR.length = 7 := by omega
      · obtain ⟨c₁, c₂, c₃, c₄, rfl⟩ := exists_four hfour
        simp [slice, Nat.add_assoc] at hG
        simp [hG]
      · obtain ⟨c₁, c₂, c₃, c₄, c₅, c₆, c₇, rfl⟩ := exists_seven hseven
        simp [slice, Nat.add_assoc] at hG
        simp [hG]
    have hb₁ : m.words (y + 1) = b₁ := IstNode.word (L := []) (hm.node hy)
    have hbk : m.words (y + 2) = bk := IstNode.word (L := [_]) (hm.node hy)
    have hbd : m.words (y + 3) = bd := IstNode.word (L := [_, _]) (hm.node hy)
    rw [hbR, if_neg (by simp only [List.length_cons]; omega)]
    simp only [hb₁, hbk, hbd]
    obtain ⟨B₁, YR, rfl, hB₁, hYR⟩ := hY.split
    obtain ⟨left, right, node, C', m₁, m₂, m', hrun₁, hrun₂, hrun₃, hbuild, hleft, hright, hnode,
      hq⟩ := newNodes_spec (m := m) ([] ++ [a₁, a₂, a₃, a₄] ++ [kw, dw, b₁]) bR
        (B := fun left right => [] ++ ptrToWord left :: bk :: bd :: ptrToWord right :: R) hm
        (.inr rfl) (by omega) hlen (fun _ _ => by simp) hcan
    have hbalanced : balancedNode (fun i => m.words (p + i)) (ptrToWord left) bk bd
        (ptrToWord right) (nodeType m.words p) 1 =
          [] ++ ptrToWord left :: bk :: bd :: ptrToWord right :: R := by
      rw [htype]
      exact balancedNode_eq (L := []) hn rfl _ _ _ _
    rw [show (bR.length + 2) / 3 = ((b₁ :: bk :: bd :: bR).length + 2) / 3 - 1 by
      simp only [List.length_cons]; omega] at hrun₂
    rw [← htype] at hrun₃
    have hrun₁' : newNode m 3 [a₁, a₂, a₃, a₄, kw, dw, b₁] = (left, m₁) := by simpa using hrun₁
    simp only [hrun₁', hrun₂, hbalanced, hrun₃]
    simp only [List.length_append, List.length_cons, List.length_nil] at hq
    have hQ : item rank kw dw :: (B₁ ++ item rank bk bd :: YR) ++ Q =
        (item rank kw dw :: B₁ ++ []) ++ (item rank bk bd :: YR ++ Q) := by simp
    refine ⟨_, C', m', rfl, hbuild, .copied (L := []) (S := []) rfl hQ hnode
      ⟨hleft, .nil, .cons hB₁ .nil, by simp, rfl⟩ ?_ .nil
      (.cons (kept_new hbuild.growing hright hYR fun a hin => ?_)
        (hR.mono fun _ _ => kept_old))⟩
    · simp only [List.length_append, List.length_cons, List.length_nil]
      omega
    · unfold WrittenLater
      unfold InCell at hin ⊢
      simp only [List.length_append, List.length_cons, List.length_nil]
      omega

theorem transformOther_spec (hm : Growing C₀ m₀ C m)
    (hn : IstNode m.words C p (L ++ ptrToWord x :: kw :: dw :: ptrToWord y :: R))
    (hx : IstNode m₀.words C₀ x F) (hX : Sons rank (IstAt rank m₀.words C₀ d) F X)
    (hy : IstNode m₀.words C₀ y G) (hylen : G.length = 4)
    (hL : SonsBefore rank (IstAt rank m₀.words C₀ (d + 1)) L P)
    (hR : SonsAfter rank (IstAt rank m₀.words C₀ (d + 1)) R Q) (hcan : m.canAllocate 27) :
    ∃ t C' m', transformOther m p (L.length + 4) = (t, m') ∧
      Builds C₀ m₀ (fun _ => False) 27 C m C' m' ∧
      Transforms rank C₀ m₀ d (L ++ ptrToWord x :: kw :: dw :: ptrToWord y :: R) G
        (P ++ (X ++ [item rank kw dw])) Q m C' m' t := by
  have hlen := hn.length
  have hxlen := hx.length
  have htype := hn.nodeType_eq
  have htype' := (hm.node hx).nodeType_eq
  have hw₁ : m.words (p + (L.length + 4 - 3)) = ptrToWord x := hn.word
  have hw₂ : m.words (p + (L.length + 4 - 2)) = kw := by
    have hn' : IstNode m.words C p ((L ++ [ptrToWord x]) ++ kw :: dw :: ptrToWord y :: R) := by
      simpa using hn
    simpa using hn'.word
  have hw₃ : m.words (p + (L.length + 4 - 1)) = dw := by
    have hn' : IstNode m.words C p ((L ++ [ptrToWord x, kw]) ++ dw :: ptrToWord y :: R) := by
      simpa using hn
    simpa using hn'.word
  have hw₄ : m.words (p + (L.length + 4)) = ptrToWord y := by
    have hn' : IstNode m.words C p ((L ++ [ptrToWord x, kw, dw]) ++ ptrToWord y :: R) := by
      simpa using hn
    simpa using hn'.word
  obtain ⟨a₁, a₂, a₃, a₄, rfl⟩ := exists_four hylen
  have hG := (hm.node hy).fields_eq
  simp only [slice, List.length_cons, List.length_nil, Nat.add_assoc, Nat.reduceAdd,
    List.cons.injEq, and_true] at hG
  unfold transformOther
  simp only [hw₁, hw₂, hw₃, hw₄, wordToPtr_ptrToWord, hG, htype']
  by_cases htwo : F.length = 4
  · -- the two sons are merged
    obtain ⟨b₁, b₂, b₃, b₄, rfl⟩ := exists_four htwo
    have hF := (hm.node hx).fields_eq
    simp only [slice, List.length_cons, List.length_nil, Nat.add_assoc, Nat.reduceAdd,
      List.cons.injEq, and_true] at hF
    rw [if_pos (by simp)]
    simp only [hF]
    refine merge_spec [a₁, a₂, a₃, a₄] [] (M := fun q =>
      mergedNode (fun i => m.words (p + i)) (ptrToWord q) (nodeType m.words p) (L.length + 4)) hm
        rfl rfl (hX.before kw dw) .nil rfl hL hR (by simp; omega) hlen htype (fun hne q => ?_) hcan
    rw [htype]
    exact mergedNode_eq hn hL.length hne _
  · -- the last key of the brother moves up
    have hF := (hm.node hx).fields_eq
    have hbL : ∃ bL bk bd bc, F = bL ++ [bk, bd, bc] ∧
        [m.words (x + 1), m.words (x + 2), m.words (x + 3), m.words (x + 4)] ++
          (if (F.length + 2) / 3 > 3 then [m.words (x + 5), m.words (x + 6), m.words (x + 7)]
            else []) = bL ∧
        m.words (x + (3 * ((F.length + 2) / 3) - 4)) = bk ∧
        m.words (x + (3 * ((F.length + 2) / 3) - 3)) = bd ∧
        m.words (x + (3 * ((F.length + 2) / 3) - 2)) = bc := by
      obtain hseven | hten : F.length = 7 ∨ F.length = 10 := by omega
      · obtain ⟨c₁, c₂, c₃, c₄, c₅, c₆, c₇, rfl⟩ := exists_seven hseven
        simp [slice, Nat.add_assoc] at hF
        exact ⟨[c₁, c₂, c₃, c₄], c₅, c₆, c₇, rfl, by simp [hF]⟩
      · obtain ⟨c₁, c₂, c₃, l, rfl⟩ := exists_three (by omega : 3 ≤ F.length)
        obtain ⟨c₄, c₅, c₆, c₇, c₈, c₉, c₁₀, rfl⟩ := exists_seven (by simpa using hten)
        simp [slice, Nat.add_assoc] at hF
        exact ⟨[c₁, c₂, c₃, c₄, c₅, c₆, c₇], c₈, c₉, c₁₀, rfl, by simp [hF]⟩
    obtain ⟨bL, bk, bd, bc, rfl, hbL, hbk, hbd, hbc⟩ := hbL
    rw [hbL, if_neg (by omega)]
    simp only [hbk, hbd, hbc]
    have hxlen' := hxlen
    simp only [List.length_append, List.length_cons, List.length_nil] at htwo hxlen'
    obtain ⟨XL, XC, rfl, hXL, hXC⟩ := hX.cut (G := [bc]) (by omega)
    obtain ⟨XC, Q', rfl, hson, hnil⟩ := hXC.uncons
    cases hnil
    obtain ⟨left, right, node, C', m₁, m₂, m', hrun₁, hrun₂, hrun₃, hbuild, hleft, hright, hnode,
      hq⟩ := newNodes_spec (m := m) bL ([bc, kw, dw] ++ [a₁, a₂, a₃, a₄] ++ [])
        (B := fun left right => (L ++ [ptrToWord left, bk, bd]) ++ ptrToWord right :: R) hm
        (by omega) (.inr rfl) hlen (fun _ _ => by simp) hcan
    have hbalanced : balancedNode (fun i => m.words (p + i)) (ptrToWord left) bk bd
        (ptrToWord right) (nodeType m.words p) (L.length + 4) =
          (L ++ [ptrToWord left, bk, bd]) ++ ptrToWord right :: R := by
      rw [htype, balancedNode_eq hn hL.length]
      simp
    rw [show (bL.length + 2) / 3 = ((bL ++ [bk, bd, bc]).length + 2) / 3 - 1 by
      simp only [List.length_append, List.length_cons, List.length_nil]; omega] at hrun₁
    rw [← htype] at hrun₃
    have hrun₂' : newNode m₁ 3 [bc, kw, dw, a₁, a₂, a₃, a₄] = (right, m₂) := by
      simpa using hrun₂
    simp only [hrun₁, hrun₂', hbalanced, hrun₃]
    simp only [List.length_append, List.length_cons, List.length_nil] at hq
    have hP : P ++ (XL ++ item rank bk bd :: (XC ++ []) ++ [item rank kw dw]) =
        P ++ (XL ++ item rank bk bd :: []) ++ (XC ++ item rank kw dw :: []) := by simp
    have hix : L.length + 4 = (L ++ [ptrToWord left, bk, bd]).length + 1 := by simp
    rw [hix]
    refine ⟨_, C', m', rfl, hbuild, .copied hP rfl hnode ⟨hright, .cons hson .nil, .nil, by simp,
      rfl⟩ ?_ ((hL.mono fun _ _ => kept_old).append (.cons (kept_new hbuild.growing hleft hXL
        fun a hin => ?_) .nil)) (hR.mono fun _ _ => kept_old)⟩
    · simp only [List.length_append, List.length_cons, List.length_nil]
      omega
    · unfold WrittenLater
      unfold InCell at hin ⊢
      simp only [List.length_append, List.length_cons, List.length_nil]
      omega

/-- `copy_and_transform`. -/
theorem copyAndTransform_spec {c : Nat} {cF : List Nat} (hm : Growing C₀ m₀ C m)
    (hn : IstNode m.words C p (L ++ ptrToWord c :: R))
    (hL : SonsBefore rank (IstAt rank m₀.words C₀ (d + 1)) L P)
    (hc : IstNode m₀.words C₀ c cF) (hclen : cF.length = 4)
    (hR : SonsAfter rank (IstAt rank m₀.words C₀ (d + 1)) R Q) (hcan : m.canAllocate 27) :
    ∃ t C' m', copyAndTransform m p (L.length + 1) = some (t, m') ∧
      Builds C₀ m₀ (fun _ => False) 27 C m C' m' ∧
      Transforms rank C₀ m₀ d (L ++ ptrToWord c :: R) cF P Q m C' m' t := by
  have htype := (hm.node hc).nodeType_eq
  rw [hclen] at htype
  unfold copyAndTransform
  rw [hn.word, wordToPtr_ptrToWord, assert_true htype]
  simp only [Option.bind_eq_bind, Option.bind_some]
  by_cases hnil : L = []
  · subst hnil
    cases hL
    simp only [List.length_nil, Nat.zero_add, if_true]
    have hlen := hn.length
    cases hR with
    | nil => simp at hlen
    | @cons c' kw dw R Y Q hc' hR =>
      obtain ⟨y, G, rfl, hy, hY⟩ := hc'
      obtain ⟨t, C', m', hrun, hspec⟩ := transformFirst_spec hm hn hc hclen hy hY hR hcan
      exact ⟨t, C', m', congrArg some hrun, hspec⟩
  · obtain ⟨L, c', kw, dw, P, X, rfl, rfl, hbefore, hc'⟩ := hL.unsnoc hnil
    obtain ⟨x, F, rfl, hx, hX⟩ := hc'
    have hix : (L ++ [ptrToWord x, kw, dw]).length + 1 = L.length + 4 := by simp
    have hfields : L ++ [ptrToWord x, kw, dw] ++ ptrToWord c :: R =
        L ++ ptrToWord x :: kw :: dw :: ptrToWord c :: R := by simp
    rw [hfields] at hn ⊢
    rw [hix, if_neg (by omega)]
    obtain ⟨t, C', m', hrun, hspec⟩ := transformOther_spec hm hn hx hX hc hclen hbefore hR hcan
    exact ⟨t, C', m', congrArg some hrun, hspec⟩

end spec

end Shades
