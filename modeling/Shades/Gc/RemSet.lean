import Shades.Linked

/-!
# Shades.Gc.RemSet

The remembered sets of `shades.c`.

A remembered set is a list of nodes with `REM_SET_SIZE` words each.  The first
node is filled from its end down, and `rem_set_allocation_ptr` is the place of the
next word; when it falls below the node, or when there is no node yet, the next
word takes a new node.  Nodes come from a free list and go back to it when the set
has been scanned.
-/

namespace Shades

/-! ## the code -/

/-- `REM_SET_SIZE`. -/
def remSetSize : Nat := 40

/-- `REM_SET_TAIL_COOKIE`. -/
def remSetTailCookie : Nat := 0xF5E35E7F

/-- The size of a node in bytes, its words of four bytes first, and the parameter
`rem_sets_per_malloc`. -/
structure RemSetParams where
  sizeofRemSet : Nat
  remSetsPerMalloc : Nat
  sizeofRemSet_gt : 4 * remSetSize < sizeofRemSet
  sizeofRemSet_aligned : 4 ∣ sizeofRemSet
  remSetsPerMalloc_pos : 0 < remSetsPerMalloc

/-- The words and the links of all nodes, and `rem_set_free_list`.  Nodes and words
are given by their addresses. -/
structure RemSetNodes where
  referrer : Nat → Nat
  next : Nat → Nat
  freeList : Nat

/-- The fields of a generation for its remembered set. -/
@[ext] structure RemSet where
  remSet : Nat
  allocationPtr : Nat
  deriving DecidableEq

/-- A generation without remembered addresses. -/
def RemSet.empty : RemSet := ⟨remSetTailCookie, 0⟩

namespace RemSetNodes

/-- The free list in a new block of memory. -/
def constructFreeList (params : RemSetParams) (s : RemSetNodes) (block : Nat) : RemSetNodes :=
  let size := params.sizeofRemSet
  let next := (List.range (params.remSetsPerMalloc - 1)).foldl
    (fun next i => Function.update next (block + i * size) (block + (i + 1) * size)) s.next
  { s with
    next := Function.update next (block + (params.remSetsPerMalloc - 1) * size) 0
    freeList := block }

/-- `allocate_rem_set`, where `block` is what `malloc` returns if it is called. -/
def allocateRemSet (params : RemSetParams) (s : RemSetNodes) (block : Nat) : Nat × RemSetNodes :=
  let s := if s.freeList = 0 then s.constructFreeList params block else s
  (s.freeList, { s with freeList := s.next s.freeList })

/-- `PREPEND_TO_REM_SET`. -/
def prependToRemSet (params : RemSetParams) (s : RemSetNodes) (r : RemSet) (ref block : Nat) :
    RemSet × RemSetNodes :=
  if r.remSet ≤ r.allocationPtr then
    ({ r with allocationPtr := r.allocationPtr - 4 },
      { s with referrer := Function.update s.referrer r.allocationPtr ref })
  else
    let (p, s) := s.allocateRemSet params block
    (⟨p, p + 4 * (remSetSize - 2)⟩,
      { s with
        next := Function.update s.next p r.remSet
        referrer := Function.update s.referrer (p + 4 * (remSetSize - 1)) ref })

/-- The loop to the last node. -/
def lastNode (next : Nat → Nat) : Nat → Nat → Option Nat
  | 0, _ => none
  | fuel + 1, p => if next p = remSetTailCookie then some p else lastNode next fuel (next p)

/-- `free_rem_set`. -/
def freeRemSet (fuel : Nat) (s : RemSetNodes) (remSet : Nat) : Option RemSetNodes :=
  if remSet = remSetTailCookie then some s
  else (lastNode s.next fuel remSet).map fun p =>
    { s with next := Function.update s.next p s.freeList, freeList := remSet }

/-- The words from `p` up to the end of a node. -/
def scanNode (referrer : Nat → Nat) (p stop : Nat) : List Nat :=
  if p < stop then referrer p :: scanNode referrer (p + 4) stop else []
termination_by stop - p

/-- The loop over the nodes after the first one. -/
def scanRest (s : RemSetNodes) : Nat → Nat → Option (List Nat)
  | 0, _ => none
  | fuel + 1, p =>
    if p = remSetTailCookie then some []
    else (s.scanRest fuel (s.next p)).map (scanNode s.referrer p (p + 4 * remSetSize) ++ ·)

/-- The addresses that `major_gc_step` visits when it scans a remembered set, and
the set and the nodes afterwards. -/
def scanRemSet (fuel : Nat) (s : RemSetNodes) (r : RemSet) :
    Option (List Nat × RemSet × RemSetNodes) :=
  if r.remSet ≠ remSetTailCookie then do
    let first := scanNode s.referrer (r.allocationPtr + 4) (r.remSet + 4 * remSetSize)
    let rest ← s.scanRest fuel (s.next r.remSet)
    let s ← s.freeRemSet fuel r.remSet
    some (first ++ rest, RemSet.empty, s)
  else some ([], r, s)

end RemSetNodes

/-! ## nodes and their words -/

section nodes

variable {params : RemSetParams} {s : RemSetNodes} {r : RemSet} {block a p stop ref : Nat}
  {nodes free refs : List Nat}

/-- The nodes of a block. -/
def nodesOf (params : RemSetParams) (block : Nat) : List Nat :=
  (List.range params.remSetsPerMalloc).map (block + · * params.sizeofRemSet)

/-- The words of a node from the one with the index `i`. -/
def nodeWords (referrer : Nat → Nat) (a i : Nat) : List Nat :=
  (List.range' i (remSetSize - i)).map fun j => referrer (a + 4 * j)

theorem scanNode_eq (referrer : Nat → Nat) (a : Nat) {i : Nat} (hi : i ≤ remSetSize) :
    RemSetNodes.scanNode referrer (a + 4 * i) (a + 4 * remSetSize) = nodeWords referrer a i := by
  obtain ⟨n, hn⟩ : ∃ n, remSetSize = i + n := ⟨remSetSize - i, by omega⟩
  unfold nodeWords
  rw [hn, Nat.add_sub_cancel_left]
  clear hn hi
  induction n generalizing i with
  | zero =>
    rw [RemSetNodes.scanNode, if_neg (by omega)]
    rfl
  | succ n ih =>
    have hnext := ih (i := i + 1)
    rw [show i + 1 + n = i + (n + 1) by omega] at hnext
    rw [RemSetNodes.scanNode, if_pos (by omega), show a + 4 * i + 4 = a + 4 * (i + 1) by omega,
      hnext]
    rfl

/-- Words elsewhere do not matter. -/
theorem nodeWords_congr {referrer referrer' : Nat → Nat} {i : Nat}
    (h : ∀ j, i ≤ j → j < remSetSize → referrer' (a + 4 * j) = referrer (a + 4 * j)) :
    nodeWords referrer' a i = nodeWords referrer a i := by
  unfold nodeWords
  refine List.map_congr_left fun j hj => ?_
  rw [List.mem_range'_1] at hj
  exact h j hj.1 (by omega)

/-- The word before the others. -/
theorem nodeWords_cons (referrer : Nat → Nat) (a : Nat) {i : Nat} (hi : i < remSetSize) :
    nodeWords referrer a i = referrer (a + 4 * i) :: nodeWords referrer a (i + 1) := by
  unfold nodeWords
  rw [show remSetSize - i = (remSetSize - (i + 1)) + 1 by omega, List.range'_succ, List.map_cons]

/-- The addresses in the nodes of a set, the newest one first: in the first node
those behind the allocation pointer. -/
def RemSetWords (referrer : Nat → Nat) (allocationPtr : Nat) : List Nat → List Nat → Prop
  | [], refs => allocationPtr = 0 ∧ refs = []
  | a :: rest, refs => ∃ i < remSetSize, allocationPtr + 4 = a + 4 * i ∧
      refs = nodeWords referrer a i ++ rest.flatMap (nodeWords referrer · 0)

/-- The nodes of a set and the addresses in it. -/
structure RemSetAt (s : RemSetNodes) (r : RemSet) (nodes refs : List Nat) : Prop where
  linked : Linked s.next remSetTailCookie r.remSet nodes
  words : RemSetWords s.referrer r.allocationPtr nodes refs

/-- Another change of the nodes. -/
theorem RemSetAt.frame {s' : RemSetNodes} (h : RemSetAt s r nodes refs)
    (hnext : ∀ a ∈ nodes, s'.next a = s.next a)
    (hword : ∀ a ∈ nodes, ∀ j < remSetSize, s'.referrer (a + 4 * j) = s.referrer (a + 4 * j)) :
    RemSetAt s' r nodes refs := by
  refine ⟨h.linked.congr hnext, ?_⟩
  have hwords := h.words
  cases nodes with
  | nil => exact hwords
  | cons a rest =>
    obtain ⟨i, hi, hptr, rfl⟩ := hwords
    refine ⟨i, hi, hptr, ?_⟩
    have hfirst := nodeWords_congr (i := i) fun j _ hj => hword a List.mem_cons_self j hj
    have hrest : rest.flatMap (nodeWords s'.referrer · 0) = rest.flatMap (nodeWords s.referrer · 0) :=
      List.flatMap_congr fun b hb =>
        nodeWords_congr fun j _ hj => hword b (List.mem_cons_of_mem _ hb) j hj
    rw [hfirst, hrest]

theorem remSetAt_empty (s : RemSetNodes) : RemSetAt s RemSet.empty [] [] := ⟨rfl, rfl, rfl⟩

/-- The loop that links the nodes of a block. -/
theorem foldl_links (next : Nat → Nat) (block : Nat) {size : Nat} (hsize : 0 < size) (k : Nat) :
    (∀ i < k, (List.range k).foldl (fun next i => Function.update next (block + i * size)
      (block + (i + 1) * size)) next (block + i * size) = block + (i + 1) * size) ∧
    ∀ a, (∀ i < k, a ≠ block + i * size) → (List.range k).foldl (fun next i =>
      Function.update next (block + i * size) (block + (i + 1) * size)) next a = next a := by
  induction k with
  | zero => exact ⟨fun i hi => absurd hi (Nat.not_lt_zero i), fun a _ => rfl⟩
  | succ k ih =>
    simp only [List.range_succ, List.foldl_append, List.foldl_cons, List.foldl_nil]
    constructor
    · intro i hi
      by_cases hik : i = k
      · rw [hik, Function.update_self]
      · have hne : block + i * size ≠ block + k * size := by
          intro heq
          exact hik (Nat.eq_of_mul_eq_mul_right hsize (Nat.add_left_cancel heq))
        rw [Function.update_of_ne hne]
        exact ih.1 i (by omega)
    · intro a ha
      rw [Function.update_of_ne (ha k (Nat.lt_succ_self k))]
      exact ih.2 a fun i hi => ha i (Nat.lt_succ_of_lt hi)

/-- The free list in a new block, and the links of other nodes. -/
theorem constructFreeList_spec (params : RemSetParams) (s : RemSetNodes) (hblock : 0 < block) :
    Linked (s.constructFreeList params block).next 0 block (nodesOf params block) ∧
      ∀ a, a ∉ nodesOf params block → (s.constructFreeList params block).next a = s.next a := by
  have hsize : 0 < params.sizeofRemSet := Nat.lt_of_le_of_lt (Nat.zero_le _) params.sizeofRemSet_gt
  obtain ⟨n, hn⟩ : ∃ n, params.remSetsPerMalloc = n + 1 :=
    ⟨_, (Nat.succ_pred_eq_of_pos params.remSetsPerMalloc_pos).symm⟩
  obtain ⟨links, hnext, hin, hout⟩ : ∃ links, (s.constructFreeList params block).next =
      Function.update links (block + n * params.sizeofRemSet) 0 ∧
      (∀ i < n, links (block + i * params.sizeofRemSet) = block + (i + 1) * params.sizeofRemSet) ∧
      ∀ a, (∀ i < n, a ≠ block + i * params.sizeofRemSet) → links a = s.next a := by
    refine ⟨_, ?_, foldl_links s.next block hsize n⟩
    unfold RemSetNodes.constructFreeList
    rw [hn, Nat.add_sub_cancel]
  unfold nodesOf
  rw [hnext, hn]
  constructor
  · -- from the node with the index `i` on there are `k` more
    suffices h : ∀ k i, i + k = n → Linked (Function.update links _ 0) 0
        (block + i * params.sizeofRemSet)
        ((List.range' i (k + 1)).map (block + · * params.sizeofRemSet)) by
      have hall := h n 0 (Nat.zero_add n)
      rw [Nat.zero_mul, Nat.add_zero, ← List.range_eq_range'] at hall
      exact hall
    intro k
    induction k with
    | zero =>
      intro i hi
      obtain rfl : i = n := hi
      exact ⟨rfl, Nat.ne_of_gt (Nat.add_pos_left hblock _), Function.update_self ..⟩
    | succ k ih =>
      intro i hi
      have hne : block + i * params.sizeofRemSet ≠ block + n * params.sizeofRemSet := by
        intro heq
        have := Nat.eq_of_mul_eq_mul_right hsize (Nat.add_left_cancel heq)
        omega
      rw [List.range'_succ, List.map_cons, linked_cons, Function.update_of_ne hne, hin i (by omega)]
      exact ⟨rfl, Nat.ne_of_gt (Nat.add_pos_left hblock _), ih (i + 1) (by omega)⟩
  · intro a ha
    have hne : ∀ i < n + 1, a ≠ block + i * params.sizeofRemSet := fun i hi heq =>
      ha (List.mem_map.mpr ⟨i, List.mem_range.mpr hi, heq.symm⟩)
    rw [Function.update_of_ne (hne n (Nat.lt_succ_self n)), hout a fun i hi => hne i (by omega)]

/-- A new node comes from the free list, or from a new block if there is none. -/
theorem allocateRemSet_spec (params : RemSetParams) (block : Nat)
    (hfree : Linked s.next 0 s.freeList free)
    (hblock : s.freeList = 0 → 0 < block) :
    ∃ p rest s', s.allocateRemSet params block = (p, s') ∧
      p :: rest = (if s.freeList = 0 then nodesOf params block else free) ∧ p ∉ rest ∧
      Linked s'.next 0 s'.freeList rest ∧ s'.referrer = s.referrer ∧
      ∀ a, (s.freeList = 0 → a ∉ nodesOf params block) → s'.next a = s.next a := by
  unfold RemSetNodes.allocateRemSet
  by_cases h0 : s.freeList = 0
  · obtain ⟨hlinked, hout⟩ := constructFreeList_spec params s (hblock h0)
    have hne : nodesOf params block ≠ [] := by
      simp [nodesOf, Nat.ne_of_gt params.remSetsPerMalloc_pos]
    obtain ⟨p, rest, hnodes⟩ := List.exists_cons_of_ne_nil hne
    rw [hnodes] at hlinked
    have hnodup := (List.nodup_cons.mp hlinked.nodup).1
    obtain ⟨rfl, -, hrest⟩ := hlinked
    rw [if_pos h0, if_pos h0]
    exact ⟨_, rest, _, rfl, hnodes.symm, hnodup, hrest, rfl, fun a ha => hout a (ha h0)⟩
  · cases free with
    | nil => exact absurd hfree h0
    | cons p rest =>
      have hnodup := (List.nodup_cons.mp hfree.nodup).1
      obtain ⟨rfl, -, hrest⟩ := hfree
      rw [if_neg h0, if_neg h0]
      exact ⟨_, rest, _, rfl, rfl, hnodup, hrest, rfl, fun a _ => rfl⟩

end nodes

/-! ## scanning and freeing -/

section scan

variable {s : RemSetNodes} {r : RemSet} {p a b fuel : Nat} {nodes rest refs free : List Nat}

theorem lastNode_eq {next : Nat → Nat} (fuel : Nat)
    (h : Linked next remSetTailCookie p (nodes ++ [b])) :
    RemSetNodes.lastNode next fuel p = if nodes.length < fuel then some b else none := by
  induction fuel generalizing p nodes with
  | zero => rfl
  | succ fuel ih =>
    unfold RemSetNodes.lastNode
    cases nodes with
    | nil =>
      rw [h.1, if_pos (linked_nil.mp h.2.2)]
      simp
    | cons a rest =>
      obtain ⟨rfl, -, hrest⟩ := h
      have hne : next p ≠ remSetTailCookie := by
        rw [hrest.eq_head]
        cases rest with
        | nil => exact hrest.2.1
        | cons c rest => exact hrest.2.1
      rw [if_neg hne, ih hrest]
      simp

theorem scanRest_eq (h : Linked s.next remSetTailCookie p nodes) :
    s.scanRest fuel p =
      if nodes.length < fuel then some (nodes.flatMap (nodeWords s.referrer · 0)) else none := by
  induction fuel generalizing p nodes with
  | zero => rfl
  | succ fuel ih =>
    unfold RemSetNodes.scanRest
    cases nodes with
    | nil =>
      rw [if_pos (linked_nil.mp h)]
      simp
    | cons a rest =>
      obtain ⟨rfl, hne, hrest⟩ := h
      have hscan := scanNode_eq s.referrer p (Nat.zero_le remSetSize)
      rw [Nat.mul_zero, Nat.add_zero] at hscan
      rw [if_neg hne, ih hrest, hscan]
      by_cases hlt : rest.length < fuel <;> simp [hlt]

/-- A set is scanned and its nodes go to the front of the free list, its last node
before the others. -/
theorem scanRemSet_eq (h : RemSetAt s r (rest ++ [b]) refs) :
    s.scanRemSet fuel r =
      if (rest ++ [b]).length ≤ fuel then
        some (refs, RemSet.empty,
          { s with next := Function.update s.next b s.freeList, freeList := r.remSet })
      else none := by
  obtain ⟨hlinked, hwords⟩ := h
  have hlast := lastNode_eq fuel hlinked
  obtain ⟨a, others, hnodes⟩ := List.exists_cons_of_ne_nil (List.append_ne_nil_of_right_ne_nil rest (List.cons_ne_nil b []))
  have hlength : (rest ++ [b]).length = others.length + 1 := by rw [hnodes, List.length_cons]
  rw [List.length_append, List.length_singleton] at hlength
  rw [hnodes] at hlinked hwords
  obtain ⟨hhead, hne, hothers⟩ := hlinked
  obtain ⟨i, hi, hptr, rfl⟩ := hwords
  rw [← hhead] at hne hothers
  unfold RemSetNodes.scanRemSet RemSetNodes.freeRemSet
  rw [if_pos hne, scanRest_eq hothers, hptr, hhead, scanNode_eq _ _ (Nat.le_of_lt hi), ← hhead,
    if_neg hne, hlast]
  by_cases hle : others.length < fuel
  · rw [if_pos hle, if_pos (by omega), if_pos (by simp; omega)]
    rfl
  · rw [if_neg hle, if_neg (c := (rest ++ [b]).length ≤ fuel) (by simp; omega)]
    rfl

end scan

/-! ## blocks -/

section blocks

variable {params : RemSetParams} {blocks : List Nat} {block a b : Nat}

/-- What `malloc` returns: an aligned address, and room that does not overlap the
blocks that it returned before. -/
structure FreshBlock (params : RemSetParams) (blocks : List Nat) (block : Nat) : Prop where
  pos : 0 < block
  aligned : 4 ∣ block
  apart : ∀ b ∈ blocks, b + params.remSetsPerMalloc * params.sizeofRemSet ≤ block ∨
    block + params.remSetsPerMalloc * params.sizeofRemSet ≤ b

/-- MallocBlocks that `malloc` returned, the latest one first. -/
inductive MallocBlocks (params : RemSetParams) : List Nat → Prop
  | nil : MallocBlocks params []
  | cons {blocks : List Nat} {block : Nat} (hblocks : MallocBlocks params blocks)
      (hfresh : FreshBlock params blocks block) : MallocBlocks params (block :: blocks)

/-- The nodes of all blocks. -/
def IsNode (params : RemSetParams) (blocks : List Nat) (a : Nat) : Prop :=
  ∃ block ∈ blocks, a ∈ nodesOf params block

theorem mem_nodesOf (ha : a ∈ nodesOf params block) :
    ∃ i < params.remSetsPerMalloc, a = block + i * params.sizeofRemSet := by
  obtain ⟨i, hi, rfl⟩ := List.mem_map.mp ha
  exact ⟨i, List.mem_range.mp hi, rfl⟩

/-- A node and its words lie in the block. -/
theorem nodesOf_bounds (ha : a ∈ nodesOf params block) :
    block ≤ a ∧ a + params.sizeofRemSet ≤ block + params.remSetsPerMalloc * params.sizeofRemSet := by
  obtain ⟨i, hi, rfl⟩ := mem_nodesOf ha
  have hle := Nat.mul_le_mul_right params.sizeofRemSet (Nat.succ_le_of_lt hi)
  rw [Nat.succ_mul] at hle
  omega

theorem isNode_cons :
    IsNode params (block :: blocks) a ↔ a ∈ nodesOf params block ∨ IsNode params blocks a := by
  simp [IsNode]

theorem MallocBlocks.mem (h : MallocBlocks params blocks) (hblock : block ∈ blocks) :
    0 < block ∧ 4 ∣ block := by
  induction h with
  | nil => cases hblock
  | cons _ hfresh ih =>
    cases hblock with
    | head => exact ⟨hfresh.pos, hfresh.aligned⟩
    | tail _ hblock => exact ih hblock

/-- Two blocks are the same or apart. -/
theorem MallocBlocks.apart (h : MallocBlocks params blocks) {block' : Nat} (hblock : block ∈ blocks)
    (hblock' : block' ∈ blocks) (hne : block ≠ block') :
    block + params.remSetsPerMalloc * params.sizeofRemSet ≤ block' ∨
      block' + params.remSetsPerMalloc * params.sizeofRemSet ≤ block := by
  induction h with
  | nil => cases hblock
  | cons _ hfresh ih =>
    cases hblock with
    | head =>
      cases hblock' with
      | head => exact absurd rfl hne
      | tail _ hblock' => exact (hfresh.apart _ hblock').symm
    | tail _ hblock =>
      cases hblock' with
      | head => exact hfresh.apart _ hblock
      | tail _ hblock' => exact ih hblock hblock'

/-- The nodes of a new block are new. -/
theorem FreshBlock.not_isNode (h : FreshBlock params blocks block) (ha : a ∈ nodesOf params block) :
    ¬ IsNode params blocks a := by
  rintro ⟨block', hblock', ha'⟩
  have hgt := params.sizeofRemSet_gt
  have hbounds := nodesOf_bounds ha
  have hbounds' := nodesOf_bounds ha'
  have happart := h.apart block' hblock'
  omega

/-- No node is `NULL` or the tail cookie. -/
theorem MallocBlocks.node (h : MallocBlocks params blocks) (ha : IsNode params blocks a) :
    4 ≤ a ∧ a ≠ remSetTailCookie := by
  obtain ⟨block, hblock, hmem⟩ := ha
  obtain ⟨hpos, halign⟩ := h.mem hblock
  obtain ⟨i, -, rfl⟩ := mem_nodesOf hmem
  have hdvd : 4 ∣ block + i * params.sizeofRemSet :=
    Nat.dvd_add halign (Nat.dvd_mul_left_of_dvd params.sizeofRemSet_aligned i)
  unfold remSetTailCookie
  omega

/-- The words of different nodes are apart. -/
theorem MallocBlocks.words_apart (h : MallocBlocks params blocks) (ha : IsNode params blocks a)
    (hb : IsNode params blocks b) (hne : a ≠ b) {i j : Nat} (hi : i < remSetSize)
    (hj : j < remSetSize) : a + 4 * i ≠ b + 4 * j := by
  have hgt := params.sizeofRemSet_gt
  obtain ⟨block, hblock, hmem⟩ := ha
  obtain ⟨block', hblock', hmem'⟩ := hb
  by_cases hsame : block = block'
  · subst hsame
    obtain ⟨k, -, rfl⟩ := mem_nodesOf hmem
    obtain ⟨l, -, rfl⟩ := mem_nodesOf hmem'
    rcases Nat.lt_trichotomy k l with hkl | rfl | hkl
    · have hle := Nat.mul_le_mul_right params.sizeofRemSet (Nat.succ_le_of_lt hkl)
      rw [Nat.succ_mul] at hle
      omega
    · exact absurd rfl hne
    · have hle := Nat.mul_le_mul_right params.sizeofRemSet (Nat.succ_le_of_lt hkl)
      rw [Nat.succ_mul] at hle
      omega
  · have hbounds := nodesOf_bounds hmem
    have hbounds' := nodesOf_bounds hmem'
    have happart := h.apart hblock hblock' hsame
    omega

end blocks

/-! ## runs -/

/-- The nodes, the remembered sets of the generations, and what `malloc` has
returned. -/
structure RemSetState (γ : Type) where
  nodes : RemSetNodes
  sets : γ → RemSet
  blocks : List Nat

section runs

variable {γ : Type} [DecidableEq γ] {params : RemSetParams} {s s' : RemSetState γ}
  {used pending : γ → List Nat} {free visited : List Nat} {g : γ} {ref block fuel a b : Nat}

namespace RemSetState

/-- No node has been allocated. -/
def initial (referrer next : Nat → Nat) : RemSetState γ :=
  ⟨⟨referrer, next, 0⟩, fun _ => RemSet.empty, []⟩

/-- The next address for the set takes a new node and there is none. -/
def NeedsBlock (s : RemSetState γ) (g : γ) : Prop :=
  (s.sets g).allocationPtr < (s.sets g).remSet ∧ s.nodes.freeList = 0

instance (s : RemSetState γ) (g : γ) : Decidable (s.NeedsBlock g) :=
  inferInstanceAs (Decidable (_ ∧ _))

/-- An address is put in the remembered set of a generation. -/
def prepend (params : RemSetParams) (s : RemSetState γ) (g : γ) (ref block : Nat) :
    RemSetState γ :=
  let (r, nodes) := s.nodes.prependToRemSet params (s.sets g) ref block
  ⟨nodes, Function.update s.sets g r, if s.NeedsBlock g then block :: s.blocks else s.blocks⟩

/-- The remembered set of a generation is scanned and freed. -/
def scan (fuel : Nat) (s : RemSetState γ) (g : γ) : Option (List Nat × RemSetState γ) :=
  (s.nodes.scanRemSet fuel (s.sets g)).map fun (visited, r, nodes) =>
    (visited, { s with nodes := nodes, sets := Function.update s.sets g r })

end RemSetState

/-- Runs of the remembered sets, with the addresses that each generation's set was
given since it was scanned. -/
inductive RemSetRun (params : RemSetParams) : RemSetState γ → (γ → List Nat) → Prop
  | initial (referrer next : Nat → Nat) :
      RemSetRun params (RemSetState.initial referrer next) fun _ => []
  | prepend {s : RemSetState γ} {pending : γ → List Nat} {block : Nat}
      (hrun : RemSetRun params s pending) (g : γ) (ref : Nat)
      (hmalloc : s.NeedsBlock g → FreshBlock params s.blocks block) :
      RemSetRun params (s.prepend params g ref block)
        (Function.update pending g (ref :: pending g))
  | scan {s s' : RemSetState γ} {pending : γ → List Nat} {g : γ} {fuel : Nat} {visited : List Nat}
      (hrun : RemSetRun params s pending) (hscan : s.scan fuel g = some (visited, s')) :
      RemSetRun params s' (Function.update pending g [])

/-- Every node is in the free list or in one of the sets. -/
structure RemSetState.Sound (params : RemSetParams) (s : RemSetState γ) (free : List Nat)
    (used pending : γ → List Nat) : Prop where
  blocks : MallocBlocks params s.blocks
  freeNodes : Linked s.nodes.next 0 s.nodes.freeList free
  sets : ∀ g, RemSetAt s.nodes (s.sets g) (used g) (pending g)
  mem_iff : ∀ a, IsNode params s.blocks a ↔ a ∈ free ∨ ∃ g, a ∈ used g
  not_free : ∀ g, ∀ a ∈ used g, a ∉ free
  not_used : ∀ g g', g ≠ g' → ∀ a ∈ used g, a ∉ used g'

omit [DecidableEq γ] in
theorem RemSetState.Sound.node (h : s.Sound params free used pending) (ha : a ∈ used g) :
    IsNode params s.blocks a := (h.mem_iff a).mpr (.inr ⟨g, ha⟩)

omit [DecidableEq γ] in
/-- A word of one node changes the words of no other one. -/
theorem update_word (hblocks : MallocBlocks params s.blocks) (ha : IsNode params s.blocks a)
    (hb : IsNode params s.blocks b) (hne : a ≠ b) {i j : Nat} (hi : i < remSetSize)
    (hj : j < remSetSize) (referrer : Nat → Nat) (ref : Nat) :
    Function.update referrer (a + 4 * i) ref (b + 4 * j) = referrer (b + 4 * j) :=
  Function.update_of_ne (hblocks.words_apart hb ha (Ne.symm hne) hj hi) _ _

omit [DecidableEq γ] in
/-- The nodes of one set apart from those of the others. -/
theorem exists_used_iff (g : γ) :
    (∃ g', a ∈ used g') ↔ a ∈ used g ∨ ∃ g', g' ≠ g ∧ a ∈ used g' := by
  constructor
  · rintro ⟨g', ha⟩
    by_cases hg : g' = g
    · exact .inl (hg ▸ ha)
    · exact .inr ⟨g', hg, ha⟩
  · rintro (ha | ⟨g', -, ha⟩)
    · exact ⟨g, ha⟩
    · exact ⟨g', ha⟩

/-- One set and the free list change. -/
theorem RemSetState.Sound.change {nodes : RemSetNodes} {r : RemSet} {blocks free' us refs : List Nat}
    (h : s.Sound params free used pending) (hblocks : MallocBlocks params blocks)
    (hfree : Linked nodes.next 0 nodes.freeList free') (hset : RemSetAt nodes r us refs)
    (hothers : ∀ g', g' ≠ g → RemSetAt nodes (s.sets g') (used g') (pending g'))
    (hmem : ∀ a, IsNode params blocks a ↔ a ∈ free' ∨ a ∈ us ∨ ∃ g', g' ≠ g ∧ a ∈ used g')
    (hnotFree : ∀ a ∈ us, a ∉ free') (hotherFree : ∀ g', g' ≠ g → ∀ a ∈ used g', a ∉ free' ∧ a ∉ us) :
    RemSetState.Sound params ⟨nodes, Function.update s.sets g r, blocks⟩ free'
      (Function.update used g us) (Function.update pending g refs) := by
  have hused : ∀ g' a, a ∈ Function.update used g us g' → g' = g ∧ a ∈ us ∨ g' ≠ g ∧ a ∈ used g' := by
    intro g' a ha
    by_cases hg : g' = g
    · rw [hg, Function.update_self] at ha
      exact .inl ⟨hg, ha⟩
    · rw [Function.update_of_ne hg] at ha
      exact .inr ⟨hg, ha⟩
  refine ⟨hblocks, hfree, fun g' => ?_, fun a => ?_, fun g' a ha => ?_, fun g' g'' hne a ha ha' => ?_⟩
  · show RemSetAt nodes (Function.update s.sets g r g') _ _
    by_cases hg : g' = g
    · rw [hg, Function.update_self, Function.update_self, Function.update_self]
      exact hset
    · rw [Function.update_of_ne hg, Function.update_of_ne hg, Function.update_of_ne hg]
      exact hothers g' hg
  · rw [hmem a]
    constructor
    · rintro (ha | ha | ⟨g', hg, ha⟩)
      · exact .inl ha
      · exact .inr ⟨g, by rwa [Function.update_self]⟩
      · exact .inr ⟨g', by rwa [Function.update_of_ne hg]⟩
    · rintro (ha | ⟨g', ha⟩)
      · exact .inl ha
      · rcases hused g' a ha with ⟨-, ha⟩ | ⟨hg, ha⟩
        · exact .inr (.inl ha)
        · exact .inr (.inr ⟨g', hg, ha⟩)
  · rcases hused g' a ha with ⟨-, ha⟩ | ⟨hg, ha⟩
    · exact hnotFree a ha
    · exact (hotherFree g' hg a ha).1
  · rcases hused g' a ha with ⟨hg, hus⟩ | ⟨hg, hus⟩
    · rcases hused g'' a ha' with ⟨hg', -⟩ | ⟨hg', hus'⟩
      · exact hne (hg.trans hg'.symm)
      · exact (hotherFree g'' hg' a hus').2 hus
    · rcases hused g'' a ha' with ⟨-, hus'⟩ | ⟨-, hus'⟩
      · exact (hotherFree g' hg a hus).2 hus'
      · exact h.not_used g' g'' hne a hus hus'

/-- There is room in the first node. -/
theorem RemSetState.Sound.prepend_room (h : s.Sound params free used pending)
    (hroom : (s.sets g).remSet ≤ (s.sets g).allocationPtr) :
    (s.prepend params g ref block).Sound params free (Function.update used g (used g))
      (Function.update pending g (ref :: pending g)) := by
  obtain ⟨hlinked, hwords⟩ := h.sets g
  have hneeds : ¬ s.NeedsBlock g := fun hneeds => absurd hneeds.1 (Nat.not_lt.mpr hroom)
  unfold RemSetState.prepend RemSetNodes.prependToRemSet
  rw [if_pos hroom, if_neg hneeds]
  cases hused : used g with
  | nil =>
    rw [hused] at hlinked hwords
    rw [hwords.1, linked_nil.mp hlinked] at hroom
    exact absurd hroom (by decide)
  | cons a rest =>
    rw [hused] at hlinked hwords
    obtain ⟨i, hi, hptr, hrefs⟩ := hwords
    have hmem : a ∈ used g := by rw [hused]; exact List.mem_cons_self
    have ha := h.blocks.node (h.node hmem)
    rw [hlinked.1] at hroom
    obtain ⟨i, rfl⟩ : ∃ i', i = i' + 1 := ⟨i - 1, by omega⟩
    have hptr' : (s.sets g).allocationPtr = a + 4 * i := by omega
    have hother : ∀ b, IsNode params s.blocks b → b ≠ a → ∀ j < remSetSize,
        Function.update s.nodes.referrer (a + 4 * i) ref (b + 4 * j) =
          s.nodes.referrer (b + 4 * j) := fun b hb hne j hj =>
      update_word h.blocks (h.node hmem) hb (Ne.symm hne) (by omega) hj _ _
    refine h.change h.blocks h.freeNodes ⟨hlinked, i, by omega, ?_, ?_⟩ (fun g' hg => ?_)
      (fun b => ?_) (fun b hb => h.not_free g b (by rwa [hused])) fun g' hg b hb =>
        ⟨h.not_free g' b hb, by rw [← hused]; exact h.not_used g' g hg b hb⟩
    · simp only
      omega
    · -- the new word is the one before the others
      simp only [hptr']
      rw [nodeWords_cons _ _ (by omega), Function.update_self, List.cons_append, hrefs]
      have hfirst : nodeWords (Function.update s.nodes.referrer (a + 4 * i) ref) a (i + 1) =
          nodeWords s.nodes.referrer a (i + 1) :=
        nodeWords_congr fun j hj _ => Function.update_of_ne (by omega) _ _
      have hrest : rest.flatMap (nodeWords (Function.update s.nodes.referrer (a + 4 * i) ref) · 0) =
          rest.flatMap (nodeWords s.nodes.referrer · 0) := by
        refine List.flatMap_congr fun b hb => nodeWords_congr fun j _ hj => hother b ?_ ?_ j hj
        · exact h.node (g := g) (by rw [hused]; exact List.mem_cons_of_mem _ hb)
        · exact ne_of_mem_of_not_mem hb (List.nodup_cons.mp hlinked.nodup).1
      rw [hfirst, hrest]
    · refine (h.sets g').frame (fun _ _ => rfl) fun b hb j hj => ?_
      simp only [hptr']
      exact hother b (h.node hb) (ne_of_mem_of_not_mem hb (h.not_used g g' (Ne.symm hg) a hmem)) j hj
    · rw [h.mem_iff, exists_used_iff g, ← hused]

omit [DecidableEq γ] in
/-- The nodes that are at hand for a new one, with a new block if there is none. -/
theorem RemSetState.Sound.available (h : s.Sound params free used pending) (hfull : s.NeedsBlock g ↔
    s.nodes.freeList = 0) (hmalloc : s.NeedsBlock g → FreshBlock params s.blocks block)
    {avail blocks : List Nat}
    (havail : avail = if s.nodes.freeList = 0 then nodesOf params block else free)
    (hblocks : blocks = if s.NeedsBlock g then block :: s.blocks else s.blocks) :
    MallocBlocks params blocks ∧ (∀ a, IsNode params blocks a ↔ a ∈ avail ∨ ∃ g', a ∈ used g') ∧
      ∀ g', ∀ a ∈ used g', a ∉ avail ∧ (s.nodes.freeList = 0 → a ∉ nodesOf params block) := by
  by_cases h0 : s.nodes.freeList = 0
  · rw [if_pos h0] at havail
    rw [if_pos (hfull.mpr h0)] at hblocks
    subst havail hblocks
    have hfresh := hmalloc (hfull.mpr h0)
    have hnil : free = [] := by
      cases free with
      | nil => rfl
      | cons a free => exact absurd (h.freeNodes.1.symm.trans h0) h.freeNodes.2.1
    have hused : ∀ g', ∀ a ∈ used g', a ∉ nodesOf params block := fun g' a ha hmem =>
      hfresh.not_isNode hmem (h.node ha)
    refine ⟨.cons h.blocks hfresh, fun a => ?_, fun g' a ha => ⟨hused g' a ha, fun _ => hused g' a ha⟩⟩
    rw [isNode_cons, h.mem_iff, hnil]
    simp
  · rw [if_neg h0] at havail
    rw [if_neg (mt hfull.mp h0)] at hblocks
    subst havail hblocks
    exact ⟨h.blocks, h.mem_iff, fun g' a ha => ⟨h.not_free g' a ha, fun h => absurd h h0⟩⟩

/-- A set whose first node is full has all words of its nodes. -/
theorem RemSetAt.full {nodes refs : List Nat} {n : RemSetNodes} {r : RemSet}
    (h : RemSetAt n r nodes refs) (hfull : r.allocationPtr < r.remSet) :
    refs = nodes.flatMap (nodeWords n.referrer · 0) := by
  obtain ⟨hlinked, hwords⟩ := h
  cases nodes with
  | nil => exact hwords.2
  | cons a rest =>
    obtain ⟨i, -, hptr, rfl⟩ := hwords
    obtain rfl : i = 0 := by
      rw [hlinked.1] at hfull
      omega
    rfl

/-- The address takes a new node. -/
theorem RemSetState.Sound.prepend_node (ref : Nat) (h : s.Sound params free used pending)
    (hfull : (s.sets g).allocationPtr < (s.sets g).remSet)
    (hmalloc : s.NeedsBlock g → FreshBlock params s.blocks block) :
    ∃ p free', (s.prepend params g ref block).Sound params free'
      (Function.update used g (p :: used g)) (Function.update pending g (ref :: pending g)) := by
  have hneeds : s.NeedsBlock g ↔ s.nodes.freeList = 0 := and_iff_right hfull
  obtain ⟨p, free', n, halloc, hnodes, hnotFree, hfree, hreferrer, hnext⟩ :=
    allocateRemSet_spec params block h.freeNodes
      fun h0 => (hmalloc (hneeds.mpr h0)).pos
  refine ⟨p, free', ?_⟩
  unfold RemSetState.prepend RemSetNodes.prependToRemSet
  rw [if_neg (Nat.not_le.mpr hfull), halloc]
  obtain ⟨hblocks, hmem, hused⟩ := h.available hneeds hmalloc hnodes rfl
  have hp : IsNode params _ p := (hmem p).mpr (.inl List.mem_cons_self)
  have hother : ∀ g', ∀ a ∈ used g', a ≠ p ∧ n.next a = s.nodes.next a ∧ a ∉ free' := by
    intro g' a ha
    obtain ⟨hnot, hblock⟩ := hused g' a ha
    rw [List.mem_cons, not_or] at hnot
    exact ⟨hnot.1, hnext a hblock, hnot.2⟩
  have hword : ∀ g', ∀ a ∈ used g', ∀ j < remSetSize,
      Function.update n.referrer (p + 4 * (remSetSize - 1)) ref (a + 4 * j) =
        s.nodes.referrer (a + 4 * j) := by
    intro g' a ha j hj
    rw [hreferrer]
    exact Function.update_of_ne (hblocks.words_apart ((hmem a).mpr (.inr ⟨g', ha⟩)) hp
      (hother g' a ha).1 hj (by decide)) _ _
  have hframe : ∀ g', RemSetAt { n with
      next := Function.update n.next p (s.sets g).remSet
      referrer := Function.update n.referrer (p + 4 * (remSetSize - 1)) ref }
      (s.sets g') (used g') (pending g') := by
    refine fun g' => (h.sets g').frame (fun a ha => ?_) (hword g')
    exact (Function.update_of_ne (hother g' a ha).1 _ _).trans (hother g' a ha).2.1
  refine h.change hblocks ?_ ⟨⟨rfl, (hblocks.node hp).2, ?_⟩, remSetSize - 1, by decide, rfl, ?_⟩
    (fun g' _ => hframe g') (fun a => ?_) (fun a ha => ?_) fun g' hg a ha => ?_
  · exact hfree.congr fun a ha => Function.update_of_ne (ne_of_mem_of_not_mem ha hnotFree) _ _
  · simp only [Function.update_self]
    exact (hframe g).linked
  · have hone : ∀ referrer, nodeWords referrer p (remSetSize - 1) =
        [referrer (p + 4 * (remSetSize - 1))] := fun _ => rfl
    simp only [hone, Function.update_self, (hframe g).full hfull]
    rfl
  · rw [hmem, exists_used_iff g, List.mem_cons, List.mem_cons]
    tauto
  · cases ha with
    | head => exact hnotFree
    | tail _ ha => exact (hother g a ha).2.2
  · refine ⟨(hother g' a ha).2.2, fun hmem => ?_⟩
    cases hmem with
    | head => exact (hother g' _ ha).1 rfl
    | tail _ ha' => exact h.not_used g' g hg a ha ha'

theorem scan_empty (h : s.sets g = RemSet.empty) (fuel : Nat) : s.scan fuel g = some ([], s) := by
  have hsets : s.sets = Function.update s.sets g RemSet.empty := by
    rw [← h, Function.update_eq_self]
  unfold RemSetState.scan RemSetNodes.scanRemSet
  rw [h, if_neg (by simp [RemSet.empty])]
  simp only [Option.map_some, ← hsets]

/-- A set is scanned: its addresses are visited, the newest one first, and its nodes
go back to the free list. -/
theorem RemSetState.Sound.scan (h : s.Sound params free used pending) :
    ∃ s', s'.Sound params (used g ++ free) (Function.update used g [])
        (Function.update pending g []) ∧
      s'.sets = Function.update s.sets g RemSet.empty ∧ ∀ fuel,
        s.scan fuel g = if (used g).length ≤ fuel then some (pending g, s') else none := by
  rcases List.eq_nil_or_concat (used g) with hnil | ⟨rest, b, hused⟩
  · have hset := h.sets g
    rw [hnil] at hset
    have hempty : s.sets g = RemSet.empty := RemSet.ext hset.linked hset.words.1
    have hsets : s.sets = Function.update s.sets g RemSet.empty := by
      rw [← hempty, Function.update_eq_self]
    have hpending : pending g = [] := hset.words.2
    have hused' : Function.update used g [] = used := hnil ▸ Function.update_eq_self g used
    have hpending' : Function.update pending g [] = pending :=
      hpending ▸ Function.update_eq_self g pending
    refine ⟨s, ?_, hsets, fun fuel => ?_⟩
    · rw [hused', hpending', hnil]
      exact h
    · rw [scan_empty hempty, hnil, hpending, List.length_nil, if_pos (Nat.zero_le fuel)]
  · rw [List.concat_eq_append] at hused
    have hset := h.sets g
    rw [hused] at hset
    refine ⟨⟨{ s.nodes with
        next := Function.update s.nodes.next b s.nodes.freeList
        freeList := (s.sets g).remSet }, Function.update s.sets g RemSet.empty, s.blocks⟩,
      h.change h.blocks ?_ (remSetAt_empty _) (fun g' hg => ?_) (fun a => ?_) (fun a ha => ?_)
        fun g' hg a ha => ⟨?_, List.not_mem_nil⟩, rfl, fun fuel => ?_⟩
    · rw [hused, List.append_assoc, List.singleton_append]
      refine hset.linked.join h.freeNodes fun a ha => ?_
      rw [← hused] at ha
      exact ⟨Nat.ne_of_gt (Nat.lt_of_lt_of_le (by decide) (h.blocks.node (h.node ha)).1),
        h.not_free g a ha⟩
    · have hb : b ∈ used g := by rw [hused]; exact List.mem_append_right _ (List.mem_singleton_self b)
      refine (h.sets g').frame (fun a ha => Function.update_of_ne ?_ _ _) fun _ _ _ _ => rfl
      rintro rfl
      exact h.not_used g' g hg a ha hb
    · rw [h.mem_iff, exists_used_iff g, List.mem_append]
      simp only [List.not_mem_nil, false_or]
      tauto
    · cases ha
    · rw [List.mem_append, not_or]
      exact ⟨h.not_used g' g hg a ha, h.not_free g' a ha⟩
    · unfold RemSetState.scan
      rw [scanRemSet_eq hset, ← hused]
      split <;> rfl

/-- Every run keeps the nodes in the free list and the sets. -/
theorem RemSetRun.sound (h : RemSetRun params s pending) :
    ∃ free used, s.Sound params free used pending := by
  induction h with
  | initial referrer next =>
    refine ⟨[], fun _ => [], .nil, rfl, fun _ => remSetAt_empty _, fun a => ?_, fun g a ha => ?_,
      fun g g' _ a ha => ?_⟩
    · simp [RemSetState.initial, IsNode]
    · cases ha
    · cases ha
  | @prepend s pending block _ g ref hmalloc ih =>
    obtain ⟨free, used, hs⟩ := ih
    by_cases hroom : (s.sets g).remSet ≤ (s.sets g).allocationPtr
    · exact ⟨free, _, hs.prepend_room hroom⟩
    · obtain ⟨p, free', hs'⟩ := hs.prepend_node ref (Nat.not_le.mp hroom) hmalloc
      exact ⟨free', _, hs'⟩
  | @scan s s' pending g fuel visited _ hscan ih =>
    obtain ⟨free, used, hs⟩ := ih
    obtain ⟨s'', hs'', -, heq⟩ := hs.scan (g := g)
    rw [heq] at hscan
    split at hscan
    · obtain ⟨-, rfl⟩ := Prod.mk.inj (Option.some.inj hscan)
      exact ⟨_, _, hs''⟩
    · cases hscan

/-- In every run, scanning a remembered set visits exactly the addresses that it was
given since it was scanned last, each of them once and the newest one first.
Afterwards the set is empty, and its nodes are in the free list before those that
were there. -/
theorem remembered_sets (h : RemSetRun params s pending) (g : γ) :
    ∃ used free s', Linked s.nodes.next remSetTailCookie (s.sets g).remSet used ∧
      Linked s.nodes.next 0 s.nodes.freeList free ∧
      (∀ fuel, used.length ≤ fuel → s.scan fuel g = some (pending g, s')) ∧
      s'.sets = Function.update s.sets g RemSet.empty ∧
      Linked s'.nodes.next 0 s'.nodes.freeList (used ++ free) ∧
      ∀ fuel, s'.scan fuel g = some ([], s') := by
  obtain ⟨free, used, hs⟩ := h.sound
  obtain ⟨s', hs', hsets, hscan⟩ := hs.scan (g := g)
  refine ⟨used g, free, s', (hs.sets g).linked, hs.freeNodes,
    fun fuel hfuel => by rw [hscan, if_pos hfuel], hsets, hs'.freeNodes, scan_empty ?_⟩
  rw [hsets, Function.update_self]

/-- Addresses are given to one generation, as long as there are nodes for them. -/
def RemSetState.prependAll (params : RemSetParams) (g : γ) :
    List Nat → RemSetState γ → Option (RemSetState γ)
  | [], s => some s
  | ref :: refs, s =>
    if s.NeedsBlock g then none else prependAll params g refs (s.prepend params g ref 0)

theorem RemSetRun.prependAll {refs : List Nat} {s' : RemSetState γ}
    (hrun : RemSetRun params s pending) (h : s.prependAll params g refs = some s') :
    RemSetRun params s' (Function.update pending g (refs.reverse ++ pending g)) := by
  induction refs generalizing s pending with
  | nil =>
    obtain rfl := Option.some.inj h
    rwa [List.reverse_nil, List.nil_append, Function.update_eq_self]
  | cons ref refs ih =>
    rw [RemSetState.prependAll] at h
    split_ifs at h with hblock
    have hnext := ih (hrun.prepend g ref fun hneeds => absurd hneeds hblock) h
    rwa [Function.update_idem, Function.update_self, List.append_cons,
      ← List.reverse_cons] at hnext

end runs

/-- Nodes of 168 bytes, 24 of them in a block. -/
def smallRemSets : RemSetParams := ⟨168, 24, by decide, by decide, by decide⟩

/-- The first of two generations is given an address, then the second one, then the
first one again. -/
def twoRemSets : RemSetState Bool :=
  (((RemSetState.initial (fun _ => 0) fun _ => 0).prepend smallRemSets true 4 1000).prepend
    smallRemSets false 8 0).prepend smallRemSets true 12 0

theorem twoRemSets_run : RemSetRun smallRemSets twoRemSets
    (Function.update (Function.update (Function.update (fun _ => []) true [4]) false [8]) true
      [12, 4]) :=
  .prepend (.prepend (.prepend (.initial _ _) true 4
    fun _ => ⟨by decide, by decide, fun _ hb => absurd hb List.not_mem_nil⟩) false 8
    fun h => absurd h (by decide)) true 12 fun h => absurd h (by decide)

/-- A hundred more addresses are given to the first generation, which fill several nodes,
and its set is scanned. -/
theorem remembered_sets_hundred :
    ∃ s fuel s', twoRemSets.prependAll smallRemSets true (List.range' 20 100 4) = some s ∧
      s.scan fuel true = some ((List.range' 20 100 4).reverse ++ [12, 4], s') ∧
      s'.sets true = RemSet.empty := by
  have hsome : (twoRemSets.prependAll smallRemSets true (List.range' 20 100 4)).isSome := by
    decide +kernel
  obtain ⟨s, hs⟩ := Option.isSome_iff_exists.mp hsome
  obtain ⟨used, -, s', -, -, hscan, hsets, -⟩ :=
    remembered_sets (twoRemSets_run.prependAll hs) true
  rw [Function.update_self] at hscan
  exact ⟨s, used.length, s', hs, hscan _ (Nat.le_refl _), by rw [hsets, Function.update_self]⟩

end Shades
