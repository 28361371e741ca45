import Shades.Avl.Rotate

/-!
# Shades.Avl.Route

The way down from the root.  `PathAt` says that the entries of `path` are
copies of the nodes that were passed: the first one was allocated first, each
is chained to the one before it, and the subtrees that were not entered are
still old.
-/

namespace Shades

open Memory AvlTree

variable {κ : Type}

/-! ## paths in memory -/

/-- An entry of a path, whose entered son may be anything. -/
structure FrameAt (rank : Nat → κ) (S : Nat → Prop) (m₀ m : Memory) (e : AvlPathEntry)
    (f : Frame κ Nat) : Prop where
  ne_null : e.node ≠ nullPtr
  height_lt : f.height < 2 ^ 24
  header : m.words e.node = CellType.avlInternal.header + f.height
  router : rank (wordToPtr (m.words (e.node + 1))) = f.router
  son : e.son = if f.goLeft then 2 else 3
  sibling : ∃ ps, m.words (e.node + if f.goLeft then 3 else 2) = ptrToWord ps ∧
    AvlAt rank m₀.words S ps f.sibling

/-- The last node of the path has the son `p`. -/
def Chained (m : Memory) (path : List AvlPathEntry) (p : Nat) : Prop :=
  ∀ e ∈ path.head?, m.words (e.node + e.son) = ptrToWord p

inductive PathAt (rank : Nat → κ) (S : Nat → Prop) (m₀ m : Memory) :
    List AvlPathEntry → List (Frame κ Nat) → Prop
  | nil : PathAt rank S m₀ m [] []
  | cons {e : AvlPathEntry} {f : Frame κ Nat} {path : List AvlPathEntry} {fs : List (Frame κ Nat)}
      (hframe : FrameAt rank S m₀ m e f)
      (hnode : e.node + 4 * (path.length + 1) = m₀.allocationPtr)
      (hchain : Chained m path e.node) (hpath : PathAt rank S m₀ m path fs) :
      PathAt rank S m₀ m (e :: path) (f :: fs)

section path

variable {rank : Nat → κ} {S : Nat → Prop} {m₀ m m' : Memory}
variable {e : AvlPathEntry} {f : Frame κ Nat} {path : List AvlPathEntry} {fs : List (Frame κ Nat)}
variable {c p : Nat} {x : AvlTree κ Nat}

@[simp] theorem chained_nil (m : Memory) (p : Nat) : Chained m [] p := by
  intro e he
  cases he

@[simp] theorem chained_cons :
    Chained m (e :: path) p ↔ m.words (e.node + e.son) = ptrToWord p := by
  simp [Chained]

theorem FrameAt.congr (h : FrameAt rank S m₀ m e f)
    (hw : ∀ a, e.node ≤ a → a < e.node + 4 → m'.words a = m.words a) :
    FrameAt rank S m₀ m' e f where
  ne_null := h.ne_null
  height_lt := h.height_lt
  header := by rw [hw _ (by omega) (by omega), h.header]
  router := by rw [hw _ (by omega) (by omega), h.router]
  son := h.son
  sibling := by
    obtain ⟨ps, hps, htree⟩ := h.sibling
    refine ⟨ps, ?_, htree⟩
    rw [hw _ (by omega) (by split <;> omega), hps]

theorem Chained.congr (h : Chained m path p) (hpath : PathAt rank S m₀ m path fs)
    (hw : ∀ a, a < m₀.allocationPtr → m₀.allocationPtr ≤ a + 4 * path.length →
      m'.words a = m.words a) : Chained m' path p := by
  cases hpath with
  | nil => simp
  | @cons e f path fs hframe hnode hchain hpath =>
    rw [chained_cons] at h ⊢
    have hson := hframe.son
    rw [← h, hw]
    · split at hson <;> omega
    · rw [List.length_cons]
      omega

theorem PathAt.congr (h : PathAt rank S m₀ m path fs)
    (hw : ∀ a, a < m₀.allocationPtr → m₀.allocationPtr ≤ a + 4 * path.length →
      m'.words a = m.words a) : PathAt rank S m₀ m' path fs := by
  induction h with
  | nil => exact .nil
  | @cons e f path fs hframe hnode hchain hpath ih =>
    rw [List.length_cons] at hw
    have hw' : ∀ a, a < m₀.allocationPtr → m₀.allocationPtr ≤ a + 4 * path.length →
        m'.words a = m.words a := fun a ha ha' => hw a ha (by omega)
    refine .cons (hframe.congr fun a ha ha' => hw a (by omega) (by omega)) hnode ?_ (ih hw')
    exact hchain.congr hpath hw'

/-- The path lies above everything that is written. -/
theorem Writes.above {n lo hi : Nat} (h : Writes S m₀ m n lo hi m')
    (hc : c + 4 * path.length = m₀.allocationPtr) (hlow : m.allocationPtr ≤ c) (hhi : hi ≤ c) :
    ∀ a, a < m₀.allocationPtr → m₀.allocationPtr ≤ a + 4 * path.length →
      m'.words a = m.words a := fun a _ _ => h.agree a (by omega) (.inr (by omega))

/-- A new son of the last node of the path. -/
theorem chainSon_spec (hw : Working S m₀ m) (hpath : PathAt rank S m₀ m path fs)
    (hc : c + 4 * path.length = m₀.allocationPtr) (hlow : m.allocationPtr ≤ c) (p : Nat) :
    Writes S m₀ m 0 c m₀.allocationPtr (chainSon path p m) ∧
      PathAt rank S m₀ (chainSon path p m) path fs ∧ Chained (chainSon path p m) path p := by
  cases hpath with
  | nil => exact ⟨.refl hw _ _, .nil, by simp⟩
  | @cons e f path fs hframe hnode hchain hpath =>
    rw [List.length_cons] at hc
    obtain ⟨hne, hheight, hheader, hrouter, hson, ps, hps, hsib⟩ := hframe
    have hbound : e.son = 2 ∨ e.son = 3 := by
      rw [hson]
      split <;> simp
    have hagree : ∀ a, a ≠ e.node + e.son → (chainSon (e :: path) p m).words a = m.words a :=
      fun a ha => if_neg ha
    have hagree' : ∀ a, a < m₀.allocationPtr → m₀.allocationPtr ≤ a + 4 * path.length →
        (chainSon (e :: path) p m).words a = m.words a := fun a _ _ => hagree a (by omega)
    refine ⟨(Writes.refl hw _ _).set (by omega) (by omega) (by omega) (by omega) _, .cons
      ⟨hne, hheight, ?_, ?_, hson, ps, ?_, hsib⟩ hnode (hchain.congr hpath hagree')
      (hpath.congr hagree'), ?_⟩
    · rw [hagree _ (by omega), hheader]
    · rw [hagree _ (by omega), hrouter]
    · rw [hagree _ (by split at hson <;> simp_all), hps]
    · rw [chained_cons]
      exact if_pos rfl

/-- A subtree is put at the end of the path, and nothing else changes. -/
theorem PathAt.chain {n lo hi : Nat} (hpath : PathAt rank S m₀ m path fs)
    (hc : c + 4 * path.length = m₀.allocationPtr) (hlow : m.allocationPtr ≤ c)
    (hwrites : Writes S m₀ m n lo hi m') (hhi : hi ≤ c)
    (hx : AvlAt rank m'.words (Below S m' c) p x) :
    Writes S m₀ m' 0 c m₀.allocationPtr (chainSon path p m') ∧
      PathAt rank S m₀ (chainSon path p m') path fs ∧ Chained (chainSon path p m') path p ∧
      AvlAt rank (chainSon path p m').words (Below S (chainSon path p m') c) p x := by
  have hptr := hwrites.allocationPtr_eq
  obtain ⟨hchained, hpath', hchain'⟩ := chainSon_spec hwrites.working
    (hpath.congr (hwrites.above hc hlow hhi)) hc (by omega) p
  exact ⟨hchained, hpath', hchain',
    hchained.tree hwrites.working (Nat.le_refl _) (Nat.le_refl _) hx⟩

/-- The node of an entry with a subtree in the place of the son. -/
theorem FrameAt.topNode (h : FrameAt rank S m₀ m e f) (hw : Working S m₀ m)
    (hlow : m.allocationPtr ≤ e.node) (htop : e.node + 4 ≤ m₀.allocationPtr)
    (hchain : m.words (e.node + e.son) = ptrToWord p)
    (hx : AvlAt rank m.words (Below S m e.node) p x) :
    ∃ key ps, rank (wordToPtr key) = f.router ∧
      if f.goLeft then TopNode rank S m₀ m e.node f.height key p ps x f.sibling
      else TopNode rank S m₀ m e.node f.height key ps p f.sibling x := by
  obtain ⟨ps, hps, hsib⟩ := h.sibling
  refine ⟨_, ps, h.router, ?_⟩
  have hson := h.son
  split
  · next hleft =>
    rw [if_pos hleft] at hson hps
    rw [hson] at hchain
    exact ⟨hw, ⟨h.ne_null, h.height_lt, h.header, rfl, hchain, hps⟩, hlow, htop, hx, hw.tree hsib⟩
  · next hright =>
    rw [if_neg hright] at hson hps
    rw [hson] at hchain
    exact ⟨hw, ⟨h.ne_null, h.height_lt, h.header, rfl, hps, hchain⟩, hlow, htop, hw.tree hsib, hx⟩

theorem TopNode.tree {h key pl pr : Nat} {l r : AvlTree κ Nat}
    (ht : TopNode rank S m₀ m p h key pl pr l r) :
    AvlAt rank m.words (Below S m (p + 4)) p (.node h (rank (wordToPtr key)) l r) :=
  .node ht.node (fun i hi => .inr ⟨Nat.le_add_right_of_le ht.low, by omega⟩)
    (ht.left.below_mono (by omega)) (ht.right.below_mono (by omega))

theorem FrameAt.plug (h : FrameAt rank S m₀ m e f) (hw : Working S m₀ m)
    (hlow : m.allocationPtr ≤ e.node) (htop : e.node + 4 ≤ m₀.allocationPtr)
    (hchain : m.words (e.node + e.son) = ptrToWord p)
    (hx : AvlAt rank m.words (Below S m e.node) p x) :
    AvlAt rank m.words (Below S m (e.node + 4)) e.node (f.plug x) := by
  obtain ⟨key, ps, hrouter, hnode⟩ := h.topNode hw hlow htop hchain hx
  unfold Frame.plug
  rw [← hrouter]
  split at hnode
  · next hleft =>
    rw [if_pos hleft]
    exact hnode.tree
  · next hright =>
    rw [if_neg hright]
    exact hnode.tree

@[simp] theorem firstNode_cons (e : AvlPathEntry) (path : List AvlPathEntry) (p : Nat) :
    firstNode (e :: path) p = firstNode path e.node := by
  cases path with
  | nil => rfl
  | cons e' path =>
    unfold firstNode
    rw [List.getLast?_cons_cons, List.getLast?_cons]
    rfl

/-- The whole tree, when nothing more is changed. -/
theorem PathAt.plugAll (hpath : PathAt rank S m₀ m path fs) (hw : Working S m₀ m)
    (hc : c + 4 * path.length = m₀.allocationPtr) (hlow : m.allocationPtr ≤ c)
    (hchain : Chained m path p) (hx : AvlAt rank m.words (Below S m c) p x) :
    AvlAt rank m.words (Below S m m₀.allocationPtr) (firstNode path p) (AvlTree.plugAll fs x) := by
  induction hpath generalizing c p x with
  | nil => exact hx.below_mono (Nat.le_of_eq hc)
  | @cons e f path fs hframe hnode hchain' hpath ih =>
    rw [List.length_cons] at hc
    obtain rfl : c = e.node := by omega
    rw [firstNode_cons]
    rw [chained_cons] at hchain
    exact ih (by omega) (by omega) hchain' (hframe.plug hw hlow (by omega) hchain hx)

end path

/-! ## the way down -/

section descend

variable {rank : Nat → κ} {S : Nat → Prop} {m₀ m : Memory}
variable {path : List AvlPathEntry} {fs : List (Frame κ Nat)} {p : Nat} {t : AvlTree κ Nat}

/-- The copy of a node of the path. -/
theorem copyPathNode_spec {h key pl pr : Nat} (hw : Working S m₀ m)
    (hpath : PathAt rank S m₀ m path fs)
    (hc : m.allocationPtr + 4 * path.length = m₀.allocationPtr)
    (hn : AvlNodeAt m.words p h key pl pr) (hS : ∀ i < 4, S (p + i)) (hcan : m.canAllocate 4) :
    ∃ q m', copyPathNode m path p = (q, m') ∧ m'.allocationPtr + 4 = m.allocationPtr ∧
      q = m'.allocationPtr ∧ Working S m₀ m' ∧ PathAt rank S m₀ m' path fs ∧ Chained m' path q ∧
      AvlNodeAt m'.words q h key pl pr := by
  have hend := m.firstGenerationEnd_pos
  obtain ⟨q, hq⟩ : ∃ q, q = m.allocationPtr - 4 := ⟨_, rfl⟩
  obtain ⟨ma, hma⟩ : ∃ ma, ma = (m.allocate 4 .avlInternal).2 := ⟨_, rfl⟩
  obtain ⟨m₁, hm₁⟩ : ∃ m₁, m₁ = (((ma.set q (ma.words p)).set (q + 1) (ma.words (p + 1))).set
    (q + 2) (ma.words (p + 2))).set (q + 3) (ma.words (p + 3)) := ⟨_, rfl⟩
  have hfun : copyPathNode m path p = (q, chainSon path q m₁) := by
    rw [hm₁, hma, hq]
    rfl
  have hptr : m₁.allocationPtr = q := by
    rw [hm₁, hma, hq]
    rfl
  have hcan' := hcan
  unfold Memory.canAllocate at hcan'
  have hall : m.Allocates m₁ := by
    rw [hm₁, hma]
    refine ((((allocates_allocate .avlInternal (by decide) hcan).set ?_ _).set ?_ _).set ?_ _).set
      ?_ _
    all_goals
      simp only [set_allocationPtr, allocate_allocationPtr]
      omega
  have hold : ∀ i < 4, ma.words (p + i) = m.words (p + i) := by
    intro i hi
    have hlive := hw.grows.live (hw.old _ (hS i hi))
    unfold Memory.Live at hlive
    rw [hma, allocate_words, if_neg (by omega)]
  have hwords : m₁.words q = ma.words p ∧ m₁.words (q + 1) = ma.words (p + 1) ∧
      m₁.words (q + 2) = ma.words (p + 2) ∧ m₁.words (q + 3) = ma.words (p + 3) := by
    simp [hm₁]
  have hnode : AvlNodeAt m₁.words q h key pl pr := by
    refine ⟨by unfold nullPtr; omega, hn.height_lt, ?_, ?_, ?_, ?_⟩
    · rw [hwords.1, ← hn.header]
      exact hold 0 (by decide)
    · rw [hwords.2.1, hold 1 (by decide), hn.key]
    · rw [hwords.2.2.1, hold 2 (by decide), hn.left]
    · rw [hwords.2.2.2, hold 3 (by decide), hn.right]
  have hwrites : Writes S m₀ m 4 m.allocationPtr m.allocationPtr m₁ :=
    .allocates hw hall hcan (hptr.trans hq) _
  have hpath₁ := hpath.congr (hwrites.above hc (Nat.le_refl _) (Nat.le_refl _))
  obtain ⟨hchained, hpath₂, hchain₂⟩ := chainSon_spec hwrites.working hpath₁ hc (by omega) q
  have hptr₂ := hchained.allocationPtr_eq
  refine ⟨q, _, hfun, by omega, by omega, hchained.working, hpath₂, hchain₂, ?_⟩
  exact hnode.congr fun i hi => hchained.agree _ (by omega) (.inl (by omega))

end descend

end Shades
