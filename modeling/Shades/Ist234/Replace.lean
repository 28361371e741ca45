import Shades.Ist234.Descend

/-!
# Shades.Ist234.Replace

A key of an inner node is deleted by putting its successor or its predecessor in
its place.  The neighbour is the first or the last key of a subtree; it is
deleted from its leaf on the way down, and the two words of the key, which are
set aside at the start, are written at the end.
-/

namespace Shades

open Memory

variable {κ : Type} {rank : Nat → κ} {C₀ C : Nat → Nat → Prop} {m₀ : Memory} {s : IstState}
variable {d n kp : Nat} {fields L R : List Nat} {P Q items : List (κ × Nat)} {K : Nat → Prop}

/-! ## neighbours -/

namespace Neighbour

/-- The items with the neighbour of the key before them, or behind them. -/
def add {α : Type} (nb : Neighbour) (x : α) (items : List α) : List α :=
  match nb with
  | successor => x :: items
  | predecessor => items ++ [x]

/-- There are no items on the side of the key. -/
def Next {α : Type} (nb : Neighbour) (before after : List α) : Prop :=
  match nb with
  | successor => before = []
  | predecessor => after = []

theorem add_between {α : Type} {nb : Neighbour} {P Q : List α} (h : nb.Next P Q) (x : α)
    (items : List α) : P ++ nb.add x items ++ Q = nb.add x (P ++ items ++ Q) := by
  cases nb with
  | successor =>
    obtain rfl : P = [] := h
    rfl
  | predecessor =>
    obtain rfl : Q = [] := h
    simp [add]

theorem exists_add {α : Type} (nb : Neighbour) {items : List α} (h : items ≠ []) :
    ∃ x rest, items = nb.add x rest := by
  cases nb with
  | successor => exact List.exists_cons_of_ne_nil h
  | predecessor => exact ⟨items.getLast h, items.dropLast, (List.dropLast_append_getLast h).symm⟩

theorem add_inj {α : Type} {nb : Neighbour} {x y : α} {P Q : List α}
    (h : nb.add x P = nb.add y Q) : x = y ∧ P = Q := by
  cases nb with
  | successor => exact List.cons.inj h
  | predecessor => exact (List.append_singleton_inj.mp h).symm

end Neighbour

variable {T : Nat → List (κ × Nat) → Prop} {words : Nat → Nat} {p : Nat}

/-- A node is taken apart at the son on the way to the neighbour. -/
theorem Sons.towards (nb : Neighbour) (h : Sons rank T fields items)
    (hn : IstNode words C p fields) :
    ∃ L c R P X Q, fields = L ++ c :: R ∧ items = P ++ X ++ Q ∧ SonsBefore rank T L P ∧ T c X ∧
      SonsAfter rank T R Q ∧ nb.ix words p = L.length + 1 ∧ nb.Next P Q := by
  have hlen := hn.length
  cases nb with
  | successor =>
    obtain ⟨c, R, X, Q, rfl, rfl, hson, hrest⟩ := h
    exact ⟨[], c, R, [], X, Q, rfl, rfl, .nil, hson, hrest, rfl, rfl⟩
  | predecessor =>
    have htype := hn.nodeType_eq
    obtain rfl | ⟨L, c, rfl⟩ := List.eq_nil_or_concat fields
    · simp at hlen
    · rw [List.concat_eq_append] at h hlen htype ⊢
      rw [List.length_append, List.length_singleton] at hlen htype
      obtain ⟨P, X, Q, rfl, hL, hc, hR⟩ := h.focus (by omega)
      cases hR
      refine ⟨L, c, [], P, X, [], rfl, rfl, hL, hc, .nil, ?_, rfl⟩
      show 3 * nodeType words p - 2 = L.length + 1
      omega

/-- A leaf is taken apart at the neighbour. -/
theorem Sons.neighbour (nb : Neighbour) (h : Sons rank (IstAt rank m₀.words C₀ 0) fields items)
    (hn : IstNode words C p fields) :
    ∃ L kw dw R P Q, fields = L ++ nullWord :: kw :: dw :: nullWord :: R ∧
      items = nb.add (item rank kw dw) (P ++ Q) ∧
      SonsBefore rank (IstAt rank m₀.words C₀ 0) L P ∧
      SonsAfter rank (IstAt rank m₀.words C₀ 0) R Q ∧ nb.iOfKey words p = L.length + 2 := by
  have hlen := hn.length
  have htype := hn.nodeType_eq
  obtain ⟨L, c, R, P, X, Q, rfl, rfl, hL, ⟨rfl, rfl⟩, hR, hix, hnext⟩ := h.towards nb hn
  cases nb with
  | successor =>
    obtain rfl : P = [] := hnext
    obtain rfl := hL.eq_nil
    cases hR with
    | nil => simp at hlen
    | @cons c kw dw R X Q hc hR =>
      obtain ⟨rfl, rfl⟩ := hc
      exact ⟨[], kw, dw, R, [], Q, rfl, rfl, .nil, hR, rfl⟩
  | predecessor =>
    obtain rfl : Q = [] := hnext
    obtain rfl := hR.eq_nil
    have hne : L ≠ [] := by
      rintro rfl
      simp at hlen
    obtain ⟨L, c, kw, dw, P, X, rfl, rfl, hbefore, rfl, rfl⟩ := hL.unsnoc hne
    refine ⟨L, kw, dw, [], P, [], by simp, by simp [Neighbour.add], hbefore, .nil, ?_⟩
    simp only [List.length_append, List.length_cons, List.length_nil] at htype hlen
    show 3 * nodeType words p - 2 - 2 = L.length + 2
    omega

theorem Delivers.mono {W W' : Nat → Prop} {k q : Nat} {C' : Nat → Nat → Prop} {r : Nat × Memory}
    (h : Delivers rank C₀ m₀ W n C s d items C' q r) (hW : ∀ a, s.m.Live a → W a → W' a)
    (hn : n ≤ k) : Delivers rank C₀ m₀ W' k C s d items C' q r :=
  ⟨h.builds.mono hW hn, h.tree, h.top, h.inner⟩

/-! ## leaves -/

/-- The sons of a leaf are null. -/
theorem Sons.isLeaf_iff {words : Nat → Nat} {p : Nat}
    (h : Sons rank (IstAt rank m₀.words C₀ d) fields items) (hn : IstNode words C p fields) :
    isLeaf words p = true ↔ d = 0 := by
  obtain ⟨c, R, X, Q, rfl, rfl, hson, -⟩ := h
  have hword : words (p + 1) = c := IstNode.word (L := []) hn
  unfold isLeaf
  rw [hword, decide_eq_true_iff, hson.null_iff]

/-- `delete_leaf`. -/
theorem deleteLeaf_spec {kw dw : Nat}
    (hs : Place C₀ m₀ C s (L ++ nullWord :: kw :: dw :: nullWord :: R))
    (hL : SonsBefore rank (IstAt rank m₀.words C₀ 0) L P)
    (hR : SonsAfter rank (IstAt rank m₀.words C₀ 0) R Q)
    (hwide : (L ++ nullWord :: kw :: dw :: nullWord :: R).length ≠ 4) (hcan : s.m.canAllocate 8) :
    ∃ r, deleteLeaf s (L.length + 2) = some r ∧ IstDeleted rank C₀ m₀ (fun _ => False) C s
      (L ++ nullWord :: kw :: dw :: nullWord :: R).length 0 8 (P ++ Q) r := by
  have hnull : IstAt rank m₀.words C₀ 0 nullWord [] := ⟨rfl, rfl⟩
  have hsons : Sons rank (IstAt rank m₀.words C₀ 0) (L ++ nullWord :: kw :: dw :: nullWord :: R)
      (P ++ item rank kw dw :: Q) := by
    have haround : Sons rank _ _ _ := .around hL (.join (.single hnull) (.single hnull) kw dw) hR
    simpa using haround
  have hnulls := hsons.eq_null fun c X hc => hc.1
  have hnode := hs.node
  have hlen := hnode.length
  have htype := hnode.nodeType_eq
  obtain ⟨fields, hfields⟩ : ∃ fields, fields = L ++ nullWord :: R := ⟨_, rfl⟩
  have hfewer : fields.length + 3 = (L ++ nullWord :: kw :: dw :: nullWord :: R).length := by
    rw [hfields]
    simp [Nat.add_assoc]
  obtain ⟨q, C', m', hrun, hnew⟩ := newNode_spec fields hs.growing (by omega)
    (canAllocate_mono hcan (by omega))
  have hbelow := hnew.below
  obtain ⟨hopened, -⟩ := chain_opened hs.spot hnew.builds hnew.node
    ⟨hnew.eq_allocationPtr.ge, by omega⟩
  have hsmaller := smallerLeaf_eq hnode hL.length hwide hnulls
  rw [← htype, ← hfields] at hsmaller
  have hassert : s.m.words (s.p + 1) = nullWord ∧ s.m.words (s.p + 4) = nullWord ∧
      (nodeType s.m.words s.p = 4 → s.m.words (s.p + 7) = nullWord) := by
    refine ⟨(hnode.get (i := 0) (by omega)).trans (hnulls 0),
      (hnode.get (i := 3) (by omega)).trans (hnulls 1), fun hfour => ?_⟩
    exact (hnode.get (i := 6) (by omega)).trans (hnulls 2)
  have hdelete : deleteLeaf s (L.length + 2) =
      some ((({ s with m := m' } : IstState).chain q).newRoot,
        (({ s with m := m' } : IstState).chain q).m) := by
    unfold deleteLeaf
    rw [if_neg (by omega), assert_true hassert, hsmaller, show nodeType s.m.words s.p - 1 =
      (fields.length + 2) / 3 by omega, hrun]
    rfl
  have hsons' : Sons rank (IstAt rank m₀.words C₀ 0) fields (P ++ Q) := by
    have haround : Sons rank _ _ _ := .around hL (.single hnull) hR
    rw [hfields]
    simpa using haround
  have hgrowing := hopened.builds.growing
  have hdeliver : Delivers rank C₀ m₀ (Touched s _) _ C s 1 (P ++ Q) _ q ⟨_, _⟩ :=
    hopened.deliver hs.spot (.refl hgrowing fun _ => False) (fun _ hfalse => hfalse.elim)
      (fun _ hfalse => hfalse) (fun _ ha => ha) rfl
      ⟨q, fields, rfl, hopened.node, hsons'.mono fun _ _ hold => hgrowing.tree hold⟩
  exact ⟨_, hdelete, 1, _, q, fun _ => rfl, hdeliver.mono (fun _ _ ha => .inl ha) (by omega)⟩

/-! ## the way to the neighbour -/

/-- The words of a key and its data. -/
def KeyWords (kp a : Nat) : Prop := a = kp ∨ a = kp + 1

/-- A word aside is written. -/
theorem Place.set_aside {a : Nat} (hs : Place C₀ m₀ C s fields)
    (haside : Aside m₀ s fields.length K) (ha : K a) (x : Nat) :
    Place C₀ m₀ C { s with m := s.m.set a x } fields := by
  obtain ⟨hfresh, hne, hout⟩ := haside a ha
  have hdead := hfresh.not_live hs.growing
  have hcell : ¬ InCell s.p fields.length a := by
    cases hflag : s.isNotCopiedYet with
    | true =>
      intro hin
      unfold InCell at hin
      exact hdead (hs.growing.old_cells.region ⟨s.p, _, hs.old hflag, hin.1, by omega⟩)
    | false => exact hout hflag
  refine ⟨hs.growing.set hdead x, hs.node.frame (fun _ _ hc => hc) fun i hi => ?_, hs.old, hs.fresh,
    hs.place.imp id fun hinner => ⟨hinner.newRoot_ne_null, hinner.newRoot_ne, hinner.newRoot_fresh,
      hinner.pp_fresh, hinner.pp_outside, fun hflag => ?_⟩, hs.wide⟩
  · have hother : s.p + i ≠ a := by
      rintro rfl
      exact hcell ⟨by omega, by omega⟩
    rw [set_words, if_neg hother]
  · show (s.m.set a x).words s.pp = _
    rw [set_words, if_neg hne.symm]
    exact hinner.linked hflag

theorem replaceKey_copy {nb : Neighbour} (hnot : ¬ s.Top) (hs : Place C₀ m₀ C s fields)
    (hleaf : ¬ isLeaf s.m.words s.p = true)
    (htype : nodeType s.m.words (wordToPtr (s.m.words (s.p + nb.ix s.m.words s.p))) > 2) :
    replaceKey nb s.newRoot kp (n + 1) s.m s.pp s.p s.isNotCopiedYet =
      replaceKey nb s.copy.newRoot kp n s.copy.m (s.copy.p + nb.ix s.m.words s.p)
        (wordToPtr (s.copy.m.words (s.copy.p + nb.ix s.m.words s.p))) true := by
  have hinner := hs.inner hnot
  rw [replaceKey, if_neg hleaf]
  dsimp only
  rw [if_pos htype]
  unfold IstState.copy
  cases s.isNotCopiedYet with
  | true =>
    unfold IstState.chain
    simp only [if_true]
    rw [if_neg fun hor => hor.elim hinner.newRoot_ne_null hinner.newRoot_ne]
  | false => rfl

theorem replaceKey_transform {nb : Neighbour} {t : Transformed} {m' : Memory} (hnot : ¬ s.Top)
    (hs : Place C₀ m₀ C s fields) (hleaf : ¬ isLeaf s.m.words s.p = true)
    (htype : ¬ nodeType s.m.words (wordToPtr (s.m.words (s.p + nb.ix s.m.words s.p))) > 2)
    (hrun : copyAndTransform s.m s.p (nb.ix s.m.words s.p) = some (t, m'))
    (hix : nb = .successor → t.ix = 1) (hlevels : t.copiedLevels = 2) {s₁ : IstState}
    (hs₁ : s₁ = s.transformed t m') :
    replaceKey nb s.newRoot kp (n + 1) s.m s.pp s.p s.isNotCopiedYet =
      replaceKey nb s₁.newRoot kp n s₁.m s₁.pp s₁.p s₁.isNotCopiedYet := by
  have hinner := hs.inner hnot
  rw [replaceKey, if_neg hleaf]
  dsimp only
  rw [if_neg htype, hrun, hs₁]
  unfold IstState.transformed IstState.chain
  simp only [Option.bind_eq_bind, Option.bind_some]
  rw [assert_true hix, assert_true hlevels, if_neg (by omega),
    if_neg fun hor => hor.elim hinner.newRoot_ne_null hinner.newRoot_ne]
  rfl

theorem IstDeleted.mono {k len : Nat} {r : Nat × Memory}
    (h : IstDeleted rank C₀ m₀ K C s len d n items r) (hn : n ≤ k) :
    IstDeleted rank C₀ m₀ K C s len d k items r := by
  obtain ⟨d', C', q, hlevels, hdeliver⟩ := h
  exact ⟨d', C', q, hlevels, hdeliver.mono (fun _ _ ha => ha) hn⟩

/-- The key is replaced by its neighbour, which is deleted from its leaf. -/
theorem replaceKey_leaf (nb : Neighbour) (hs : Place C₀ m₀ C s fields)
    (haside : Aside m₀ s fields.length (KeyWords kp)) (hwide : fields.length ≠ 4)
    (hsons : Sons rank (IstAt rank m₀.words C₀ 0) fields items) (hcan : s.m.canAllocate 8) :
    ∃ r kw dw X, replaceKey nb s.newRoot kp n s.m s.pp s.p s.isNotCopiedYet = some r ∧
      items = nb.add (item rank kw dw) X ∧ r.2.words kp = kw ∧ r.2.words (kp + 1) = dw ∧
      IstDeleted rank C₀ m₀ (KeyWords kp) C s fields.length 0 8 X r := by
  have hleaf := (hsons.isLeaf_iff hs.node).mpr rfl
  have htype := hs.node.nodeType_eq
  have hlen := hs.node.length
  obtain ⟨L, kw, dw, R, P, Q, rfl, rfl, hL, hR, hi⟩ := hsons.neighbour nb hs.node
  have hs₁ := hs.set_aside haside (.inl rfl) kw
  have hs₂ := hs₁.set_aside haside (.inr rfl) dw
  have hkw : s.m.words (s.p + (L.length + 2)) = kw := by
    have hnode := hs.node
    rw [show L ++ nullWord :: kw :: dw :: nullWord :: R =
      (L ++ [nullWord]) ++ kw :: dw :: nullWord :: R by simp] at hnode
    simpa using hnode.word
  have hdw : (s.m.set kp kw).words (s.p + (L.length + 2 + 1)) = dw := by
    have hnode := hs₁.node
    rw [show L ++ nullWord :: kw :: dw :: nullWord :: R =
      (L ++ [nullWord, kw]) ++ dw :: nullWord :: R by simp] at hnode
    simpa using hnode.word
  obtain ⟨r, hrun, d', C', q, hlevels, hdeliver⟩ := deleteLeaf_spec hs₂ hL hR hwide hcan
  have hset : Builds C₀ m₀ (KeyWords kp) 0 C s.m C
      ((s.m.set kp kw).set (kp + 1) dw) :=
    (Builds.set hs.growing ((haside kp (.inl rfl)).1.not_live hs.growing) (.inl rfl) kw).trans
      hs.growing (.set hs₁.growing ((haside _ (.inr rfl)).1.not_live hs.growing) (.inr rfl) dw)
  have hkept : ∀ a, KeyWords kp a →
      r.2.words a = ((s.m.set kp kw).set (kp + 1) dw).words a := by
    intro a ha
    obtain ⟨hfresh, hne, hout⟩ := haside a ha
    refine hdeliver.builds.agree a (.inr hfresh.1) ?_
    rintro ((hpp | ⟨hflag, hin⟩) | hfalse)
    · exact hne hpp
    · exact hout hflag hin
    · exact hfalse
  refine ⟨r, kw, dw, P ++ Q, ?_, rfl, ?_, ?_, d', C', q, hlevels, ?_, hdeliver.tree, hdeliver.top,
    hdeliver.inner⟩
  · unfold replaceKey
    rw [if_pos hleaf, assert_true (by omega)]
    simp only [hi, hkw, hdw]
    exact hrun
  · rw [hkept kp (.inl rfl), set_words, if_neg (by omega), set_words, if_pos rfl]
  · rw [hkept (kp + 1) (.inr rfl), set_words, if_pos rfl]
  · refine ((hset.mono (fun a _ ha => .inr ha) (Nat.le_refl 0)).trans hs.growing
      (hdeliver.builds.mono ?_ (Nat.le_refl 8))).mono (fun _ _ ha => ha) (by omega)
    rintro a - (ha | hfalse)
    · exact .inl ha
    · exact hfalse.elim

theorem replaceKey_spec (nb : Neighbour) (hs : Place C₀ m₀ C s fields) (hnot : ¬ s.Top)
    (haside : Aside m₀ s fields.length (KeyWords kp))
    (hsons : Sons rank (IstAt rank m₀.words C₀ d) fields items) (hn : d ≤ n)
    (hcan : s.m.canAllocate (27 * d + 8)) :
    ∃ r kw dw X, replaceKey nb s.newRoot kp n s.m s.pp s.p s.isNotCopiedYet = some r ∧
      items = nb.add (item rank kw dw) X ∧ r.2.words kp = kw ∧ r.2.words (kp + 1) = dw ∧
      IstDeleted rank C₀ m₀ (KeyWords kp) C s fields.length d (27 * d + 8) X r := by
  induction d generalizing n s C fields items with
  | zero => exact replaceKey_leaf nb hs haside (hs.wide (hs.inner hnot).newRoot_ne_null) hsons hcan
  | succ d ih =>
    obtain ⟨n, rfl⟩ : ∃ j, n = j + 1 := ⟨n - 1, by omega⟩
    have hleaf : ¬ isLeaf s.m.words s.p = true := fun hleaf =>
      absurd ((hsons.isLeaf_iff hs.node).mp hleaf) (by omega)
    obtain ⟨L, w, R, P, X, Q, rfl, rfl, hL, hw, hR, hix, hnext⟩ := hsons.towards nb hs.node
    obtain ⟨c, cF, rfl, hc, hX⟩ := hw
    have hword := hs.node.word
    have htype := (hs.growing.node hc).nodeType_eq
    have hlen := hc.length
    by_cases hwide : cF.length = 4
    · obtain ⟨t, C', m', G₁, G₂, A₁, A₂, hrun, hcan₁, ht⟩ := transform_down hs hL hc hwide hR
        (canAllocate_mono hcan (by omega) : s.m.canAllocate (27 + (27 * d + 8)))
      obtain ⟨s₁, hs₁⟩ : ∃ s₁, s₁ = s.transformed t m' := ⟨_, rfl⟩
      rw [← hs₁] at ht hcan₁
      obtain ⟨hplace, hG₁, hG₂, hi, hleft, hright, haside', hinner, hup⟩ := ht
      obtain ⟨hlevels, hnot₁, -, hfirst⟩ := hinner hnot
      obtain ⟨r, kw, dw, Y, hrun', hitems, hkw, hdw, hdel⟩ := ih (n := n) hplace hnot₁
        (haside' _ haside) (.around hG₁ hX hG₂) (by omega) hcan₁
      have hnext₁ : nb.Next A₁ A₂ := by
        cases nb with
        | successor =>
          obtain rfl : P = [] := hnext
          exact List.suffix_nil.mp hleft
        | predecessor =>
          obtain rfl : Q = [] := hnext
          exact List.prefix_nil.mp hright
      obtain ⟨x, X', rfl⟩ := nb.exists_add (hX.ne_nil (by omega))
      rw [nb.add_between hnext₁] at hitems
      obtain ⟨rfl, rfl⟩ := Neighbour.add_inj hitems
      refine ⟨r, kw, dw, P ++ X' ++ Q, ?_, nb.add_between hnext _ _, hkw, hdw,
        (hup _ _ _ _ haside hdel).mono (by omega)⟩
      rw [replaceKey_transform hnot hs hleaf (by rw [hix, hword, wordToPtr_ptrToWord, htype]; omega)
        (by rw [hix]; exact hrun) ?_ hlevels hs₁, hrun']
      rintro rfl
      exact hfirst hnext
    · obtain ⟨C₂, s₂, hs₂, hson, hplace, hnot₂, haside₂, hroot, hptr, hup⟩ := copy_down hs haside hL
        hc hwide hR (canAllocate_mono hcan (by omega))
      have hcan₂ : s₂.m.canAllocate (27 * d + 8) :=
        hs.growing.canAllocate hplace.growing hptr (canAllocate_mono hcan (by omega))
      obtain ⟨r, kw, dw, Y, hrun, rfl, hkw, hdw, hdel⟩ :=
        ih (n := n) hplace hnot₂ haside₂ hX (by omega) hcan₂
      refine ⟨r, kw, dw, P ++ Y ++ Q, ?_, nb.add_between hnext _ _, hkw, hdw,
        (hup _ _ _ hdel).mono (by omega)⟩
      rw [replaceKey_copy hnot hs hleaf (by rw [hix, hword, wordToPtr_ptrToWord, htype]; omega),
        hix, hson, wordToPtr_ptrToWord, ← hrun, hs₂]

end Shades
