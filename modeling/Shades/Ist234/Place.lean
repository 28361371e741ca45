import Shades.Ist234.Fields

/-!
# Shades.Ist234.Place

The place that `ist234_delete` has reached.  The trees below the place are old,
so everything that was built so far lies above it.  At the root the result is
what takes the place of the node `p`; elsewhere the result is `new_root`, and
`pp` points to the son that is replaced, in a new node.

A node that is `Opened` at a place is new and linked, and one of its sons may
still change.
-/

namespace Shades

open Memory

variable {κ : Type}

/-! ## places -/

/-- The node `p` is the root of the result. -/
def IstState.Top (s : IstState) : Prop :=
  s.newRoot = nullPtr ∧ s.isNotCopiedYet = true ∨ s.newRoot = s.p ∧ s.isNotCopiedYet = false

/-- The word lies in the cell of a node with `len` words after the first. -/
def InCell (p len a : Nat) : Prop := p ≤ a ∧ a ≤ p + len

/-- A word that was allocated by this operation. -/
def Fresh (m₀ m : Memory) (a : Nat) : Prop := m.allocationPtr ≤ a ∧ a < m₀.allocationPtr

/-- The node `p` is below `new_root`. -/
structure IstState.Inner (m₀ : Memory) (s : IstState) (len : Nat) : Prop where
  newRoot_ne_null : s.newRoot ≠ nullPtr
  newRoot_ne : s.newRoot ≠ s.p
  newRoot_fresh : Fresh m₀ s.m s.newRoot
  pp_fresh : Fresh m₀ s.m s.pp
  pp_outside : s.isNotCopiedYet = false → ¬ InCell s.p len s.pp
  linked : s.isNotCopiedYet = false → s.m.words s.pp = ptrToWord s.p

/-- The node at a place. -/
structure Place (C₀ : Nat → Nat → Prop) (m₀ : Memory) (C : Nat → Nat → Prop) (s : IstState)
    (fields : List Nat) : Prop where
  growing : Growing C₀ m₀ C s.m
  node : IstNode s.m.words C s.p fields
  old : s.isNotCopiedYet = true → C₀ s.p (fields.length + 1)
  fresh : s.isNotCopiedYet = false →
    s.m.allocationPtr ≤ s.p ∧ s.p + fields.length < m₀.allocationPtr
  place : s.Top ∨ s.Inner m₀ fields.length
  wide : s.newRoot ≠ nullPtr → fields.length ≠ 4

/-- A place, whatever stands there. -/
structure Spot (C₀ : Nat → Nat → Prop) (m₀ : Memory) (C : Nat → Nat → Prop) (s : IstState)
    (len : Nat) : Prop where
  growing : Growing C₀ m₀ C s.m
  place : s.Top ∨ s.Inner m₀ len

/-- The words that may still be written: the son that is replaced, and the node
itself when it is new. -/
def Touched (s : IstState) (len a : Nat) : Prop :=
  a = s.pp ∨ (s.isNotCopiedYet = false ∧ InCell s.p len a)

/-- The result of the work at a place: a tree of `d` levels takes the place. -/
structure Delivers (rank : Nat → κ) (C₀ : Nat → Nat → Prop) (m₀ : Memory) (W : Nat → Prop)
    (n : Nat) (C : Nat → Nat → Prop) (s : IstState) (d : Nat) (items : List (κ × Nat))
    (C' : Nat → Nat → Prop) (q : Nat) (r : Nat × Memory) : Prop where
  builds : Builds C₀ m₀ W n C s.m C' r.2
  tree : IstAt rank r.2.words C' d (ptrToWord q) items
  top : s.Top → r.1 = q
  inner : ¬ s.Top → r.1 = s.newRoot ∧ r.2.words s.pp = ptrToWord q

/-- The sons of the node at the place have `d` levels.  Some tree takes the
place; below the root it has the same number of levels as the node had. -/
def IstDeleted (rank : Nat → κ) (C₀ : Nat → Nat → Prop) (m₀ : Memory) (K : Nat → Prop)
    (C : Nat → Nat → Prop) (s : IstState) (len d n : Nat) (items : List (κ × Nat))
    (r : Nat × Memory) : Prop :=
  ∃ d' C' q, (¬ s.Top → d' = d + 1) ∧
    Delivers rank C₀ m₀ (fun a => Touched s len a ∨ K a) n C s d' items C' q r

/-- New words besides the place that are written at the end. -/
def Aside (m₀ : Memory) (s : IstState) (len : Nat) (K : Nat → Prop) : Prop :=
  ∀ a, K a → Fresh m₀ s.m a ∧ a ≠ s.pp ∧ (s.isNotCopiedYet = false → ¬ InCell s.p len a)

/-- A tree that stays when only the words of `W` are written. -/
def Kept (rank : Nat → κ) (C₀ : Nat → Nat → Prop) (m₀ : Memory) (W : Nat → Prop)
    (C : Nat → Nat → Prop) (m : Memory) (d w : Nat) (items : List (κ × Nat)) : Prop :=
  ∀ ⦃n C' m'⦄, Builds C₀ m₀ W n C m C' m' → IstAt rank m'.words C' d w items

/-- A new node takes the place of `p`. -/
structure Opened (C₀ : Nat → Nat → Prop) (m₀ : Memory) (n : Nat) (C : Nat → Nat → Prop)
    (s : IstState) (len : Nat) (C₁ : Nat → Nat → Prop) (m₁ : Memory) (newRoot p₁ : Nat)
    (fields : List Nat) : Prop where
  builds : Builds C₀ m₀ (Touched s len) n C s.m C₁ m₁
  node : IstNode m₁.words C₁ p₁ fields
  fresh : m₁.allocationPtr ≤ p₁ ∧ p₁ + fields.length < m₀.allocationPtr
  own : ∀ a, s.m.Live a → InCell p₁ fields.length a → Touched s len a
  top : s.Top → newRoot = p₁
  inner : ¬ s.Top → newRoot = s.newRoot ∧ m₁.words s.pp = ptrToWord p₁ ∧
    ¬ InCell p₁ fields.length s.pp
  newRoot_fresh : Fresh m₀ m₁ newRoot

section place

variable {rank : Nat → κ} {C₀ C C₁ C₂ : Nat → Nat → Prop} {m₀ m₁ : Memory} {s : IstState}
variable {d n k len p₁ newRoot w : Nat} {fields F : List Nat} {items : List (κ × Nat)}

theorem Place.inner (h : Place C₀ m₀ C s fields) (hnot : ¬ s.Top) :
    s.Inner m₀ fields.length := h.place.resolve_left hnot

theorem Spot.inner (h : Spot C₀ m₀ C s len) (hnot : ¬ s.Top) : s.Inner m₀ len :=
  h.place.resolve_left hnot

theorem Place.spot (h : Place C₀ m₀ C s fields) : Spot C₀ m₀ C s fields.length :=
  ⟨h.growing, h.place⟩

/-- An old tree. -/
theorem kept_old {W : Nat → Prop} {m : Memory} (ht : IstAt rank m₀.words C₀ d w items) :
    Kept rank C₀ m₀ W C m d w items := fun _ _ _ h => h.growing.tree ht

theorem Kept.after {W W' : Nat → Prop} {m m' : Memory} {C' : Nat → Nat → Prop}
    (h : Kept rank C₀ m₀ W C m d w items) (hm : Growing C₀ m₀ C m)
    (hb : Builds C₀ m₀ W n C m C' m') (hW : ∀ a, m'.Live a → W' a → W a) :
    Kept rank C₀ m₀ W' C' m' d w items := by
  intro k C'' m'' hb'
  exact h (hb.trans hm (hb'.mono hW (Nat.le_refl _)))

/-- The root of a node stands outside of the old trees. -/
theorem Fresh.not_live {m : Memory} (hm : Growing C₀ m₀ C m) {a : Nat} (h : Fresh m₀ m a) :
    ¬ m₀.Live a := by
  have hend := hm.grows.firstGenerationEnd_eq
  have hfits := hm.fits
  unfold Fresh at h
  unfold Memory.Live
  omega

theorem Fresh.mono {m m' : Memory} {a : Nat} (h : Fresh m₀ m a)
    (hle : m'.allocationPtr ≤ m.allocationPtr) : Fresh m₀ m' a :=
  ⟨Nat.le_trans hle h.1, h.2⟩

/-- The work is done: the node that was opened holds the result. -/
theorem Opened.deliver (h : Opened C₀ m₀ n C s len C₁ m₁ newRoot p₁ F)
    (hs : Spot C₀ m₀ C s len) {W W' : Nat → Prop} {r : Nat × Memory}
    (hb : Builds C₀ m₀ W k C₁ m₁ C₂ r.2)
    (hW : ∀ a, W a → InCell p₁ F.length a ∨ ¬ s.m.Live a ∨ W' a)
    (hpp : ¬ s.Top → ¬ W s.pp) (htouched : ∀ a, Touched s len a → W' a)
    (hr : r.1 = newRoot) (ht : IstAt rank r.2.words C₂ d (ptrToWord p₁) items) :
    Delivers rank C₀ m₀ W' (n + k) C s d items C₂ p₁ r where
  builds := by
    have hle := h.builds.allocationPtr_le
    have hle' := h.builds.le_allocationPtr
    have hge := hb.allocationPtr_le
    have hge' := hb.le_allocationPtr
    refine ⟨hb.growing, fun p k hc => hb.sub p k (h.builds.sub p k hc), by omega, by omega,
      fun a ha hnot => ?_⟩
    have hnotW : ¬ W a := fun hWa =>
      (hW a hWa).elim (fun hin => hnot (htouched a (h.own a ha hin)))
        fun hor => hor.elim (fun hdead => hdead ha) hnot
    rw [hb.agree a (h.builds.live hs.growing ha) hnotW,
      h.builds.agree a ha fun ht => hnot (htouched a ht)]
  tree := ht
  top := fun htop => hr.trans (h.top htop)
  inner := by
    intro hnot
    obtain ⟨hroot, hlink, -⟩ := h.inner hnot
    refine ⟨hr.trans hroot, ?_⟩
    rw [hb.agree _ ?_ (hpp hnot), hlink]
    exact .inr (Nat.le_trans h.builds.allocationPtr_le (hs.inner hnot).pp_fresh.1)

/-- The work is done below a node that was opened: the words `M` are now `M'`. -/
theorem Opened.up (M' : List Nat) {L M R : List Nat} {P X Q : List (κ × Nat)} {K : Nat → Prop}
    (h : Opened C₀ m₀ n C s len C₁ m₁ newRoot p₁ (L ++ M ++ R))
    (hs : Spot C₀ m₀ C s len) {W : Nat → Prop} {r : Nat × Memory}
    (hb : Builds C₀ m₀ W k C₁ m₁ C₂ r.2)
    (hW : ∀ a, W a → (p₁ + L.length + 1 ≤ a ∧ a ≤ p₁ + L.length + M.length) ∨
      (¬ InCell p₁ (L ++ M ++ R).length a ∧ (¬ s.m.Live a ∨ (K a ∧ a ≠ s.pp))))
    (hr : r.1 = newRoot) (hL : SonsBefore rank (Kept rank C₀ m₀ W C₁ m₁ d) L P)
    (hR : SonsAfter rank (Kept rank C₀ m₀ W C₁ m₁ d) R Q)
    (hslice : slice r.2.words (p₁ + 1 + L.length) M.length = M')
    (hM : Sons rank (IstAt rank r.2.words C₂ d) M' X) :
    Delivers rank C₀ m₀ (fun a => Touched s len a ∨ K a) (n + k) C s (d + 1)
      (P ++ X ++ Q) C₂ p₁ r := by
  have hlen : (L ++ M ++ R).length = L.length + M.length + R.length := by
    simp [Nat.add_assoc]
  refine h.deliver hs hb (fun a hWa => ?_) (fun hnot hWa => ?_) (fun _ ha => .inl ha) hr ?_
  · rcases hW a hWa with hin | ⟨-, hdead | hK⟩
    · exact .inl ⟨by omega, by omega⟩
    · exact .inr (.inl hdead)
    · exact .inr (.inr (.inr hK.1))
  · rcases hW _ hWa with hin | ⟨-, hdead | hK⟩
    · exact (h.inner hnot).2.2 ⟨by omega, by omega⟩
    · exact hdead (.inr (hs.inner hnot).pp_fresh.1)
    · exact hK.2 rfl
  · have hM' : M'.length = M.length := by rw [← hslice, length_slice]
    have hfits := h.node.frame hb.sub fun i _ => rfl
    refine ⟨p₁, L ++ M' ++ R, rfl, hfits.update hM' hslice fun i hi hor => ?_,
      .around (hL.mono fun _ _ hkept => hkept hb) hM (hR.mono fun _ _ hkept => hkept hb)⟩
    refine hb.agree _ (h.builds.growing.live h.node.cell (by omega)) fun hWa => ?_
    rcases hW _ hWa with hin | ⟨hout, -⟩
    · omega
    · exact hout ⟨by omega, by omega⟩

/-! ## opening a node -/

theorem IstState.Top.newRoot_eq (h : s.Top) : s.newRoot = nullPtr ∨ s.newRoot = s.p :=
  h.imp And.left And.left

/-- A new node is chained. -/
theorem chain_opened (hs : Spot C₀ m₀ C s len) {m' : Memory} {C' : Nat → Nat → Prop} {q : Nat}
    (hb : Builds C₀ m₀ (fun _ => False) n C s.m C' m') (hn : IstNode m'.words C' q F)
    (hq : m'.allocationPtr ≤ q ∧ q + F.length < s.m.allocationPtr) :
    Opened C₀ m₀ n C s len C' (({ s with m := m' } : IstState).chain q).m
        (({ s with m := m' } : IstState).chain q).newRoot q F ∧
      Builds C₀ m₀ (fun a => a = s.pp ∧ s.m.allocationPtr ≤ a) 0 C' m' C'
        (({ s with m := m' } : IstState).chain q).m := by
  have hle := hs.growing.grows.allocationPtr_le
  by_cases htop : s.Top
  · -- the new node is the root
    have hchain : ({ s with m := m' } : IstState).chain q =
        { s with m := m', newRoot := q } := by
      unfold IstState.chain
      rw [if_pos htop.newRoot_eq]
    rw [hchain]
    dsimp only
    refine ⟨⟨hb.mono (fun _ _ hfalse => hfalse.elim) (Nat.le_refl n), hn, by omega, ?_,
      fun _ => rfl, fun hnot => absurd htop hnot, ⟨hq.1, by omega⟩⟩, .refl hb.growing _⟩
    intro a ha hin
    have hend := hs.growing.fits
    unfold Memory.Live at ha
    unfold InCell at hin
    have hend' := hb.growing.grows.firstGenerationEnd_eq
    have hend'' := hs.growing.grows.firstGenerationEnd_eq
    have hfits := hb.growing.fits
    omega
  · -- `pp` points to it
    have hinner := hs.inner htop
    have hchain : ({ s with m := m' } : IstState).chain q =
        { s with m := m'.set s.pp (ptrToWord q) } := by
      unfold IstState.chain
      rw [if_neg fun hor => hor.elim hinner.newRoot_ne_null hinner.newRoot_ne]
    rw [hchain]
    dsimp only
    have hpp := hinner.pp_fresh
    have hset : Builds C₀ m₀ (fun a => a = s.pp ∧ s.m.allocationPtr ≤ a) 0 C' m' C'
        (m'.set s.pp (ptrToWord q)) :=
      .set hb.growing (hpp.not_live hs.growing) ⟨rfl, hpp.1⟩ _
    refine ⟨⟨(hb.mono (fun _ _ hfalse => hfalse.elim) (Nat.le_refl n)).trans hs.growing
      (hset.mono (fun a _ ha => .inl ha.1) (Nat.le_refl 0)), ?_, by rw [set_allocationPtr]; omega,
      ?_, fun htop' => absurd htop' htop, fun _ => ⟨rfl, ?_, ?_⟩, ?_⟩, hset⟩
    · refine hset.node hb.growing hn fun i hi hin => ?_
      have hpp' := hin.2
      omega
    · intro a ha hin
      have hend'' := hs.growing.grows.firstGenerationEnd_eq
      have hend' := hb.growing.grows.firstGenerationEnd_eq
      have hfits := hb.growing.fits
      unfold Memory.Live at ha
      unfold InCell at hin
      omega
    · rw [set_words, if_pos rfl]
    · unfold Fresh at hpp
      unfold InCell
      omega
    · exact hinner.newRoot_fresh.mono (by rw [set_allocationPtr]; exact hb.allocationPtr_le)

/-- The node `p` is copied unless it is new. -/
theorem copy_opened (hs : Place C₀ m₀ C s fields) (hcan : s.m.canAllocate (fields.length + 1)) :
    ∃ C₁, Opened C₀ m₀ (fields.length + 1) C s fields.length C₁ s.copy.m s.copy.newRoot s.copy.p
        fields ∧
      s.copy.isNotCopiedYet = true ∧ s.copy.pp = s.pp := by
  cases hflag : s.isNotCopiedYet with
  | true =>
    obtain ⟨q, C', m', hrun, hnew⟩ := copyNode_spec hs.growing hs.node hcan
    have hbelow := hnew.below
    obtain ⟨hopened, -⟩ := chain_opened hs.spot hnew.builds hnew.node
      ⟨hnew.eq_allocationPtr.ge, by omega⟩
    have hcopy : s.copy = { ({ s with m := m' } : IstState).chain q with p := q } := by
      unfold IstState.copy
      rw [if_pos hflag, hrun]
    rw [hcopy]
    refine ⟨C', hopened, ?_, ?_⟩
    all_goals
      unfold IstState.chain
      split_ifs
      all_goals first | exact hflag | rfl
  | false =>
    have hcopy : s.copy = { s with isNotCopiedYet := true } := by
      unfold IstState.copy
      rw [if_neg (by simp [hflag])]
    have hfresh := hs.fresh hflag
    rw [hcopy]
    refine ⟨C, ⟨(Builds.refl hs.growing _).mono (fun _ _ ha => ha) (Nat.zero_le _), hs.node,
      hfresh, fun a _ hin => .inr ⟨hflag, hin⟩, fun htop => ?_, fun hnot => ?_, ?_⟩, rfl, rfl⟩
    · rcases htop with ⟨-, hcopied⟩ | ⟨hroot, -⟩
      · rw [hflag] at hcopied
        exact absurd hcopied (by decide)
      · exact hroot
    · have hinner := hs.inner hnot
      exact ⟨rfl, hinner.linked hflag, hinner.pp_outside hflag⟩
    · rcases hs.place with (⟨-, hcopied⟩ | ⟨hroot, -⟩) | hinner
      · rw [hflag] at hcopied
        exact absurd hcopied (by decide)
      · show Fresh m₀ s.m s.newRoot
        rw [hroot]
        exact ⟨hfresh.1, by omega⟩
      · exact hinner.newRoot_fresh

end place

end Shades
