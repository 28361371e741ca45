import Mathlib.Data.List.Nodup
import Mathlib.Data.List.Perm.Subperm
import Shades.Ist234.Insert

/-!
# Shades.Ist234.Levels

The number of levels of a tree in memory, and what the operations may allocate.

The first keys of the nodes of a tree are different, so the nodes are different
too, and as their cells do not overlap there are few enough of them: a tree has
at most 27 levels, and at most 26 if a path of 4-nodes leads to a leaf.  This is
why `IST234_MAX_ALLOCATION_IN_INSERT` suffices, although a split takes 13 words.
-/

namespace Shades

open Memory SortedItems

variable {κ : Type}

/-- Different nodes, listed with the order of the items: their first keys are a
part of the keys. -/
structure NodesOf (rank : Nat → κ) (words : Nat → Nat) (C : Nat → Nat → Prop)
    (items : List (κ × Nat)) (l : List Nat) : Prop where
  keys : (l.map fun a => rank (wordToPtr (words (a + 2)))).Sublist (items.map Prod.fst)
  cells : ∀ a ∈ l, ∃ n, 5 ≤ n ∧ C a n

section nodes

variable {rank : Nat → κ} {words : Nat → Nat} {C : Nat → Nat → Prop} {d p w N : Nat}
variable {items P Q X : List (κ × Nat)} {l l' L R fields : List Nat} {path : List IstPathEntry}

theorem NodesOf.nil (rank : Nat → κ) (words : Nat → Nat) (C : Nat → Nat → Prop)
    (items : List (κ × Nat)) : NodesOf rank words C items [] :=
  ⟨List.nil_sublist _, fun _ ha => by simp at ha⟩

theorem NodesOf.append (h : NodesOf rank words C P l) (h' : NodesOf rank words C Q l') :
    NodesOf rank words C (P ++ Q) (l ++ l') where
  keys := by
    rw [List.map_append, List.map_append]
    exact h.keys.append h'.keys
  cells := fun a ha => (List.mem_append.mp ha).elim (h.cells a) (h'.cells a)

/-- A node goes with its first key. -/
theorem NodesOf.single {kw dw : Nat} {fields : List Nat} (hn : IstNode words C p fields)
    (hk : words (p + 2) = kw) : NodesOf rank words C [item rank kw dw] [p] where
  keys := by simp [item, hk]
  cells := by
    intro a ha
    rw [List.mem_singleton.mp ha]
    have hlen := hn.length
    exact ⟨_, by omega, hn.cell⟩

/-- Items without a node. -/
theorem NodesOf.item (h : NodesOf rank words C Q l) (x : κ × Nat) :
    NodesOf rank words C (x :: Q) l where
  keys := h.keys.trans (by simp)
  cells := h.cells

/-- Trees with at least `N` nodes. -/
def Nodes (rank : Nat → κ) (words : Nat → Nat) (C : Nat → Nat → Prop) (N : Nat)
    (items : List (κ × Nat)) : Prop := ∃ l, NodesOf rank words C items l ∧ N ≤ l.length

theorem Nodes.append {N' : Nat} (h : Nodes rank words C N P) (h' : Nodes rank words C N' Q) :
    Nodes rank words C (N + N') (P ++ Q) := by
  obtain ⟨l, hl, hN⟩ := h
  obtain ⟨l', hl', hN'⟩ := h'
  exact ⟨l ++ l', hl.append hl', by rw [List.length_append]; omega⟩

theorem Nodes.item (h : Nodes rank words C N Q) (x : κ × Nat) :
    Nodes rank words C N (x :: Q) := by
  obtain ⟨l, hl, hN⟩ := h
  exact ⟨l, hl.item x, hN⟩

theorem Nodes.mono {N' : Nat} (h : Nodes rank words C N Q) (hN : N' ≤ N) :
    Nodes rank words C N' Q := by
  obtain ⟨l, hl, hle⟩ := h
  exact ⟨l, hl, Nat.le_trans hN hle⟩

/-- A node with its first key. -/
theorem Nodes.node {kw dw : Nat} (hn : IstNode words C p fields) (hk : words (p + 2) = kw)
    (h : Nodes rank words C N Q) : Nodes rank words C (N + 1) (Shades.item rank kw dw :: Q) := by
  obtain ⟨l, hl, hN⟩ := h
  exact ⟨p :: l, (NodesOf.single hn hk).append hl, Nat.succ_le_succ hN⟩

theorem SonsAfter.nodes {T : Nat → List (κ × Nat) → Prop} (h : SonsAfter rank T R Q)
    (hT : ∀ c X, T c X → Nodes rank words C N X) : Nodes rank words C (R.length / 3 * N) Q := by
  induction h with
  | nil => exact ⟨[], .nil _ _ _ _, by simp⟩
  | @cons c kw dw R X Q hson _ ih =>
    refine (((hT c X hson).append ih).item _).mono ?_
    rw [show (kw :: dw :: c :: R).length / 3 = R.length / 3 + 1 by simp; omega, Nat.succ_mul]
    omega

theorem SonsBefore.nodes {T : Nat → List (κ × Nat) → Prop} (h : SonsBefore rank T L P)
    (hT : ∀ c X, T c X → Nodes rank words C N X) : Nodes rank words C (L.length / 3 * N) P := by
  induction h with
  | nil => exact ⟨[], .nil _ _ _ _, by simp⟩
  | @cons c kw dw L X P hson _ ih =>
    refine ((hT c X hson).append (ih.item _)).mono ?_
    rw [show (c :: kw :: dw :: L).length / 3 = L.length / 3 + 1 by simp; omega, Nat.succ_mul]
    omega

/-- A tree has at least two sons at every node. -/
theorem IstAt.nodes (h : IstAt rank words C d w items) : Nodes rank words C (2 ^ d - 1) items := by
  induction d generalizing w items with
  | zero => exact ⟨[], .nil _ _ _ _, by simp⟩
  | succ d ih =>
    obtain ⟨p, fields, rfl, hnode, c, R, X, Q, rfl, rfl, hson, hrest⟩ := h
    have hlen := hnode.length
    cases hrest with
    | nil => simp at hlen
    | @cons c' kw dw R X' Q hson' hrest =>
      have hk : words (p + 2) = kw := IstNode.word (L := [_]) hnode
      have hpow := Nat.one_le_two_pow (n := d)
      refine ((ih hson).append (Nodes.node hnode hk
        ((ih hson').append (hrest.nodes fun c X hc => ih hc)))).mono ?_
      rw [Nat.pow_succ]
      omega

/-- A path of 4-nodes has three other sons at every node. -/
theorem IstPathAt.nodes (h : IstPathAt rank words C d path P Q)
    (hfour : ∀ e ∈ path, nodeType words e.node = 4) :
    ∃ N N', Nodes rank words C N P ∧ Nodes rank words C N' Q ∧
      3 * 2 ^ d * (2 ^ path.length - 1) ≤ N + N' + 2 * path.length := by
  induction h with
  | nil => exact ⟨0, 0, ⟨[], .nil _ _ _ _, by simp⟩, ⟨[], .nil _ _ _ _, by simp⟩, by simp⟩
  | @cons d node c L R P P' Q Q' path hnode hL hR hpath ih =>
    obtain ⟨N, N', hN, hN', hle⟩ := ih fun e he => hfour e (List.mem_cons_of_mem _ he)
    have htype := hnode.nodeType_eq
    rw [hfour _ List.mem_cons_self] at htype
    have hlen := hnode.length
    have hL3 := hL.length
    have hR3 := hR.length
    have hpow := Nat.one_le_two_pow (n := d)
    have hpow' := Nat.one_le_two_pow (n := path.length)
    have hsum : 3 * 2 ^ d * (2 ^ (path.length + 1) - 1) =
        3 * 2 ^ (d + 1) * (2 ^ path.length - 1) + 3 * 2 ^ d := by
      obtain ⟨x, hx⟩ : ∃ x, 2 ^ path.length = x + 1 := ⟨2 ^ path.length - 1, by omega⟩
      rw [Nat.pow_succ, Nat.pow_succ, hx, show (x + 1) * 2 - 1 = 2 * x + 1 by omega,
        Nat.add_sub_cancel]
      ring
    simp only [List.length_append, List.length_cons] at hlen htype ⊢
    rw [hsum]
    -- the first key belongs to the sons before or to those after the path
    have hfirst : ∃ n n', Nodes rank words C n P ∧ Nodes rank words C n' Q ∧
        3 * (2 ^ d - 1) + 1 ≤ n + n' := by
      have hT := fun c X (hc : IstAt rank words C d c X) => hc.nodes
      cases hL with
      | nil =>
        cases hR with
        | nil => simp at htype
        | @cons c' kw dw R X' Q hson hrest =>
          have hk : words (node + 2) = kw := IstNode.word (L := [_]) hnode
          refine ⟨0, _, ⟨[], .nil _ _ _ _, by simp⟩,
            Nodes.node hnode hk ((hT _ _ hson).append (hrest.nodes hT)), ?_⟩
          simp only [List.length_nil, List.length_cons] at htype
          rw [show R.length / 3 = 2 by omega]
          omega
      | @cons c' kw dw L X' P hson hrest =>
        have hk : words (node + 2) = kw := IstNode.word (L := [_]) hnode
        refine ⟨_, _, (hT _ _ hson).append (Nodes.node hnode hk (hrest.nodes hT)),
          hR.nodes hT, ?_⟩
        simp only [List.length_cons] at htype hL3
        have hsons : L.length / 3 * (2 ^ d - 1) + R.length / 3 * (2 ^ d - 1) =
            2 * (2 ^ d - 1) := by
          rw [← Nat.add_mul, show L.length / 3 + R.length / 3 = 2 by omega]
        omega
    obtain ⟨n, n', hn, hn', hle'⟩ := hfirst
    exact ⟨N + n, n' + N', hN.append hn, hn'.append hN', by omega⟩

end nodes

/-! ## the number of nodes -/

section bound

variable [LinearOrder κ] {rank : Nat → κ} {C : Nat → Nat → Prop} {m : Memory} {d w N : Nat}
variable {items X P Q : List (κ × Nat)} {path : List IstPathEntry}

/-- Every node has at least five words of its own. -/
theorem Nodes.bound (h : Nodes rank m.words C N items) (hC : IstCells C m)
    (hsorted : Sorted items) : 5 * N ≤ 2 ^ 30 := by
  obtain ⟨l, hl, hN⟩ := h
  have hkeys : (items.map Prod.fst).Nodup := by
    refine List.Pairwise.map _ (fun a b hab => ?_) hsorted
    exact ne_of_lt hab
  have hnodup : l.Nodup := (hkeys.sublist hl.keys).of_map _
  have hwords : (l.flatMap fun a => [a, a + 1, a + 2, a + 3, a + 4]).Nodup := by
    rw [List.nodup_flatMap]
    refine ⟨fun a _ => by simp, hnodup.imp_of_mem fun {a b} ha hb hab => ?_⟩
    obtain ⟨n, hn, hcell⟩ := hl.cells a ha
    obtain ⟨k, hk, hcell'⟩ := hl.cells b hb
    have hapart := hC.apart a n b k hcell hcell'
    intro x hx hx'
    simp only [List.mem_cons, List.not_mem_nil, or_false] at hx hx'
    omega
  have hsub : (l.flatMap fun a => [a, a + 1, a + 2, a + 3, a + 4]) ⊆ List.range (2 ^ 30) := by
    intro x hx
    obtain ⟨a, ha, hx⟩ := List.mem_flatMap.mp hx
    obtain ⟨n, hn, hcell⟩ := hl.cells a ha
    have haddr := hC.addressable a n hcell
    simp only [List.mem_cons, List.not_mem_nil, or_false] at hx
    rw [List.mem_range]
    omega
  have hle := (hwords.subperm hsub).length_le
  have hlength : (l.flatMap fun a => [a, a + 1, a + 2, a + 3, a + 4]).length = 5 * l.length := by
    simp [List.length_flatMap, Nat.mul_comm]
  rw [hlength, List.length_range] at hle
  omega

/-- A tree has at most 27 levels. -/
theorem IstAt.levels_le (h : IstAt rank m.words C d w items) (hC : IstCells C m)
    (hsorted : Sorted items) : d ≤ 27 := by
  have hbound := h.nodes.bound hC hsorted
  by_contra hd
  have hpow : 2 ^ 28 ≤ 2 ^ d := Nat.pow_le_pow_right (by decide) (by omega)
  omega

/-- A path of 4-nodes has at most 26 nodes. -/
theorem IstPathAt.length_le (h : IstPathAt rank m.words C d path P Q) (hC : IstCells C m)
    (hsorted : Sorted (P ++ Q)) (hfour : ∀ e ∈ path, nodeType m.words e.node = 4) :
    path.length ≤ 26 := by
  obtain ⟨N, N', hN, hN', hle⟩ := h.nodes hfour
  have hbound := (hN.append hN').bound hC hsorted
  by_contra hlen
  obtain ⟨j, hj⟩ : ∃ j, path.length = 27 + j := ⟨path.length - 27, by omega⟩
  have hj' : j < 2 ^ j := Nat.lt_two_pow_self
  have hlength : 2 ^ path.length = 2 ^ 27 * 2 ^ j := by rw [hj, Nat.pow_add]
  have hmul : 3 * 1 * (2 ^ path.length - 1) ≤ 3 * 2 ^ d * (2 ^ path.length - 1) :=
    Nat.mul_le_mul_right _ (Nat.mul_le_mul_left _ Nat.one_le_two_pow)
  omega

/-- What the phase `insert` allocates along a path. -/
theorem insertCost_le (words : Nat → Nat) (path : List IstPathEntry) :
    insertCost words path ≤ 13 * path.length + 5 ∧
      ((∃ e ∈ path, nodeType words e.node ≠ 4) → insertCost words path + 2 ≤ 13 * path.length) := by
  induction path with
  | nil => simp [insertCost]
  | cons e path ih =>
    unfold insertCost
    rw [List.length_cons]
    by_cases hfour : nodeType words e.node = 4
    · rw [if_pos hfour]
      refine ⟨by omega, fun ⟨e', he', hne⟩ => ?_⟩
      rcases List.mem_cons.mp he' with rfl | he'
      · exact absurd hfour hne
      · have hrest := ih.2 ⟨e', he', hne⟩
        omega
    · rw [if_neg hfour]
      exact ⟨by omega, fun _ => by omega⟩

/-- `IST234_MAX_ALLOCATION_IN_INSERT` suffices for the phase `insert`. -/
theorem IstPathAt.insertCost_le (h : IstPathAt rank m.words C d path P Q) (hC : IstCells C m)
    (hsorted : Sorted (P ++ Q)) (hlevels : path.length ≤ 27) :
    insertCost m.words path ≤ ist234MaxAllocationInInsert := by
  have hcost := Shades.insertCost_le m.words path
  unfold ist234MaxAllocationInInsert
  by_cases hfour : ∀ e ∈ path, nodeType m.words e.node = 4
  · have hlength := h.length_le hC hsorted hfour
    omega
  · simp only [not_forall, exists_prop] at hfour
    have hless := hcost.2 hfour
    omega

end bound

end Shades
