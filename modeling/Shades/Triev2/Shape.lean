import Shades.Triev2.Vacant

/-!
# Shades.Triev2.Shape

The shape of a trie in memory, read off the words themselves: which nodes a
walk from the root meets, how many bits it consumes, and how many words the
operations allocate for the nodes of a new path.
-/

namespace Shades

/-! ## walks -/

/-- A node with children: its type is one of the trie types, and its prefix is
packed in an even number of bits, at most 20. -/
structure GoodNode (words : Nat → Nat) (p : Nat) : Prop where
  ne_null : p ≠ nullPtr
  type : ∃ t < 15, cellType (words p) = CellType.trie1234.code + t
  even : Even (prefixLength (words p))
  prefixLength_le : prefixLength (words p) ≤ 20
  nodePrefix_lt : nodePrefix (words p) < 2 ^ prefixLength (words p)
  child : ∃ d < 4, offset (trieIndex (words p)) d ≠ 0

/-- The walks from the root of a trie for keys of `keyLength` bits: the nodes
passed, the last one first, the bits consumed, and the word reached. -/
inductive Walk (words : Nat → Nat) (root keyLength : Nat) : List Nat → Nat → Nat → Prop
  | root : Walk words root keyLength [] 0 (ptrToWord root)
  | child {nodes : List Nat} {consumed w d : Nat} (h : Walk words root keyLength nodes consumed w)
      (hbits : consumed ≠ keyLength) (hd : d < 4)
      (hoff : offset (trieIndex (words (wordToPtr w))) d ≠ 0) :
      Walk words root keyLength (wordToPtr w :: nodes)
        (consumed + prefixLength (words (wordToPtr w)) + 2)
        (words (wordToPtr w + offset (trieIndex (words (wordToPtr w))) d))

/-- What a walk may meet: after all bits the data of a key, before that a
node. -/
structure GoodPlace (words : Nat → Nat) (keyLength : Nat) (nodes : List Nat) (consumed w : Nat) :
    Prop where
  consumed_le : consumed ≤ keyLength
  length_le : 2 * nodes.length ≤ consumed
  node : consumed ≠ keyLength → taggedIsPtr w ∧ GoodNode words (wordToPtr w)
  data : consumed = keyLength → w ≠ nullWord

section walk

variable {words : Nat → Nat} {S : Nat → Prop}

/-- Every node has a child. -/
theorem exists_offset_ne_zero : ∀ t < 15, ∃ d < 4, offset t d ≠ 0 := by decide

theorem NodeAt.good {p t j pre : Nat} (h : NodeAt words S p t j pre) : GoodNode words p where
  ne_null := h.ne_zero
  type := ⟨t, h.index_lt, h.cellType_eq⟩
  even := by
    rw [h.prefixLength]
    exact even_two_mul j
  prefixLength_le := by
    have hle := h.prefix_le
    rw [h.prefixLength]
    omega
  nodePrefix_lt := by
    rw [h.nodePrefix, h.prefixLength, two_pow_double]
    exact h.prefix_lt
  child := by
    rw [h.trieIndex]
    exact exists_offset_ne_zero t h.index_lt

/-- A walk in a trie is in a subtrie for the bits that are left. -/
theorem Walk.trieAt {n root consumed w : Nat} {g : Nat → Nat} {nodes : List Nat}
    (hw : Walk words root (2 * n) nodes consumed w) (h : TrieAt words S n (ptrToWord root) g) :
    ∃ m f, consumed + 2 * m = 2 * n ∧ nodes.length + m ≤ n ∧ TrieAt words S m w f := by
  induction hw with
  | root => exact ⟨n, g, by omega, by simp, h⟩
  | @child nodes consumed w d _ hbits hd hoff ih =>
    obtain ⟨m, f, hsum, hlength, htrie⟩ := ih
    obtain ⟨p, t, j, pre, m', kids, rfl, rfl, hp, hkids, -⟩ := htrie.inv (by omega)
    rw [wordToPtr_ptrToWord, hp.trieIndex] at hoff ⊢
    refine ⟨m', kids d, ?_, ?_, hkids d hd hoff⟩
    · rw [hp.prefixLength]
      omega
    · rw [List.length_cons]
      omega

/-- What a walk in a trie meets. -/
theorem Walk.good {n root consumed w : Nat} {g : Nat → Nat} {nodes : List Nat}
    (hw : Walk words root (2 * n) nodes consumed w) (h : TrieAt words S n (ptrToWord root) g) :
    GoodPlace words (2 * n) nodes consumed w := by
  obtain ⟨m, f, hsum, hlength, htrie⟩ := hw.trieAt h
  refine ⟨by omega, by omega, fun hne => ?_, fun _ => TrieAt.ne_zero htrie⟩
  obtain ⟨p, t, j, pre, m', kids, rfl, -, hp, -⟩ := htrie.inv (by omega)
  rw [wordToPtr_ptrToWord]
  exact ⟨taggedIsPtr_ptrToWord p, hp.good⟩

end walk

/-! ## the words allocated -/

/-- After its loop `triev2_insert` allocates nothing, apart from the update
function. -/
theorem allocationPtr_insertFinish {root ap data : Nat} {f : Option UpdateFunction}
    {s : InsertState} (hap : s.memory.allocationPtr ≤ ap)
    (hcan : s.memory.canAllocate (UpdateFunction.cost f)) :
    (UpdateFunction.call f s.oldData data s.memory).2.allocationPtr ≤
      (insertFinish root ap f data s).2.allocationPtr := by
  have hcall := (UpdateFunction.extends_call s.oldData data hcan).allocationPtr_le
  unfold insertFinish
  split
  · dsimp only
    split
    · exact Nat.le_trans hcall hap
    · rw [assign_allocationPtr]
  · rw [assign_allocationPtr]
    exact hcall

/-- The same of `triev2_replace`. -/
theorem allocationPtr_replaceFinish {root ap data : Nat} {f : Option UpdateFunction}
    {s : InsertState} (hap : s.memory.allocationPtr ≤ ap)
    (hcan : s.memory.canAllocate (UpdateFunction.cost f)) :
    (UpdateFunction.call f s.oldData data s.memory).2.allocationPtr ≤
      (replaceFinish root ap f data s).2.allocationPtr := by
  have hcall := (UpdateFunction.extends_call s.oldData data hcan).allocationPtr_le
  unfold replaceFinish
  dsimp only
  split
  · exact Nat.le_trans hcall hap
  · rw [assign_allocationPtr]

section operations

variable {m : Memory} {n root : Nat} {g : Nat → Nat} (hn : n ≠ 0) (hn16 : n ≤ 16)
  (hroot : RootAt m.words m.Live n root g) {f : Option UpdateFunction}
  (hcan : m.canAllocate (triev2MaxAllocation + UpdateFunction.cost f))

include hn hn16 hroot hcan

/-- The loop of `triev2_insert` keeps to `TRIEV2_MAX_ALLOCATION`, so there is
room for the update function after it. -/
theorem insertLoop_allocates (key : Nat) :
    ∃ s, insertLoop 16 (insertStart m root key (2 * n)) = some s ∧
      s.memory.allocationPtr ≤ m.allocationPtr ∧
      m.allocationPtr ≤ s.memory.allocationPtr + triev2MaxAllocation ∧
      s.memory.canAllocate (UpdateFunction.cost f) := by
  have hready := ready_insertStart key hn hn16 (fun _ ha => ha) hroot
  have hcost := loopCost_le root hn16
  obtain ⟨s, f', newP, b, hloop, hgrown, hused⟩ := insertLoop_spec 16 hready hn16
    (Memory.canAllocate_mono hcan (Nat.le_trans hcost (Nat.le_add_right _ _)))
  have hend : s.memory.firstGenerationEnd = m.firstGenerationEnd := hgrown.firstGenerationEnd_eq
  have hused' : m.allocationPtr ≤ s.memory.allocationPtr + loopCost root n := hused
  unfold Memory.canAllocate triev2MaxAllocation at *
  exact ⟨s, hloop, hgrown.allocationPtr_le, by omega, by omega⟩

/-- The words that `triev2_insert` allocates. -/
theorem triev2Insert_allocates (key data : Nat) :
    ∃ s r, insertLoop 16 (insertStart m root key (2 * n)) = some s ∧
      triev2Insert m root key (2 * n) f data = some r ∧
      m.allocationPtr ≤ s.memory.allocationPtr + triev2MaxAllocation ∧
      (UpdateFunction.call f s.oldData data s.memory).2.allocationPtr ≤ r.2.allocationPtr := by
  obtain ⟨s, hloop, hle, hused, hroom⟩ := insertLoop_allocates hn hn16 hroot hcan key
  exact ⟨s, _, hloop, by rw [triev2Insert, hloop, Option.map_some], hused,
    allocationPtr_insertFinish hle hroom⟩

/-- The words that `triev2_replace` allocates. -/
theorem triev2Replace_allocates {key : Nat} (data : Nat) (hkey : g (key % 4 ^ n) ≠ 0) :
    ∃ s r, replaceLoop 16 (insertStart m root key (2 * n)) = some s ∧
      triev2Replace m root key (2 * n) f data = some r ∧
      m.allocationPtr ≤ s.memory.allocationPtr + triev2MaxAllocation ∧
      (UpdateFunction.call f s.oldData data s.memory).2.allocationPtr ≤ r.2.allocationPtr := by
  obtain ⟨s, hloop, hle, hused, hroom⟩ := insertLoop_allocates hn hn16 hroot hcan key
  have hready := ready_insertStart key hn hn16 (fun _ ha => ha) hroot
  have hsame := replaceLoop_eq 16 hready hkey (Memory.canAllocate_mono hcan
    (Nat.le_trans (loopCost_le root hn16) (Nat.le_add_right _ _)))
  obtain ⟨r, hreplace, -⟩ := triev2Replace_eq data hn hn16 hroot hcan hkey
  refine ⟨s, r, hsame.trans hloop, hreplace, hused, ?_⟩
  rw [triev2Replace, assert_true (by omega), hsame, hloop] at hreplace
  simp only [bind, Option.bind] at hreplace
  by_cases hzero : s.key = 0
  · rw [assert_true hzero] at hreplace
    obtain rfl := Option.some.inj hreplace
    exact allocationPtr_replaceFinish hle hroom
  · rw [assert, if_neg hzero] at hreplace
    cases hreplace

end operations

/-- In every history every walk from a root meets nodes with children and
prefixes of an even length of at most 20 bits until it has consumed all bits of
a key, so it meets at most 16 nodes, and each operation allocates at most
`TRIEV2_MAX_ALLOCATION` words, apart from the update function. -/
theorem triev2_shape {n : Nat} (hn : n ≠ 0) (hn16 : n ≤ 16) {m : Memory} {h : History}
    (hrun : Relation.ReflTransGen (TrieStep n) (History.initial m) h) {v : Version}
    (hv : v ∈ h.versions) :
    (v.root ≠ nullPtr → ∀ nodes consumed w,
      Walk h.memory.words v.root (2 * n) nodes consumed w →
        GoodPlace h.memory.words (2 * n) nodes consumed w ∧ nodes.length ≤ 16) ∧
    ∀ (key data : Nat) (f : Option UpdateFunction),
      h.memory.canAllocate (triev2MaxAllocation + UpdateFunction.cost f) →
      (∃ s r, insertLoop 16 (insertStart h.memory v.root key (2 * n)) = some s ∧
        triev2Insert h.memory v.root key (2 * n) f data = some r ∧
        h.memory.allocationPtr ≤ s.memory.allocationPtr + triev2MaxAllocation ∧
        (UpdateFunction.call f s.oldData data s.memory).2.allocationPtr ≤ r.2.allocationPtr) ∧
      (v.map (key % 4 ^ n) ≠ none →
        ∃ s r, replaceLoop 16 (insertStart h.memory v.root key (2 * n)) = some s ∧
          triev2Replace h.memory v.root key (2 * n) f data = some r ∧
          h.memory.allocationPtr ≤ s.memory.allocationPtr + triev2MaxAllocation ∧
          (UpdateFunction.call f s.oldData data s.memory).2.allocationPtr ≤ r.2.allocationPtr) ∧
      ∃ r, triev2Delete h.memory v.root key (2 * n) f data = some r ∧
        (deleteMemory h.memory f data (v.map.words (key % 4 ^ n))).allocationPtr ≤
          r.2.allocationPtr + triev2MaxAllocation := by
  obtain ⟨hproper, hroot⟩ := sound_of_trieRun hn hn16 hrun v hv
  refine ⟨fun hne nodes consumed w hw => ?_, fun key data f hcan =>
    ⟨triev2Insert_allocates hn hn16 hroot hcan key data, fun hkey =>
      triev2Replace_allocates hn hn16 hroot hcan data ((hproper.ne_none _).mp hkey), ?_⟩⟩
  · have htrie : TrieAt h.memory.words h.memory.Live n (ptrToWord v.root) v.map.words := by
      rcases hroot with ⟨h0, -⟩ | htrie
      · exact absurd ((ptrToWord_eq_zero _).mp h0) hne
      · exact htrie
    have hgood := hw.good htrie
    have hle := hgood.consumed_le
    have hlength := hgood.length_le
    exact ⟨hgood, by omega⟩
  · obtain ⟨root', m', hdelete, -, hused, -⟩ := triev2Delete_spec key data hn hn16 hroot hcan
    exact ⟨_, hdelete, hused⟩

/-- The trie of four keys, and the deletion of one of them. -/
theorem triev2_shape_four : ∃ h v, v ∈ History.versions h ∧ v.map = fourKeys ∧
    v.root ≠ nullPtr ∧
    (∀ nodes consumed w, Walk h.memory.words v.root 8 nodes consumed w →
      GoodPlace h.memory.words 8 nodes consumed w ∧ nodes.length ≤ 16) ∧
    ∃ r, triev2Delete h.memory v.root 0x13 8 none nullWord = some r ∧
      h.memory.allocationPtr ≤ r.2.allocationPtr + triev2MaxAllocation := by
  obtain ⟨h, v, hrun, hv, hmap, hcan⟩ := exists_fourKeys_trieRun
  obtain ⟨hwalk, hops⟩ := triev2_shape (by decide) (by decide) hrun hv
  obtain ⟨-, -, r, hdelete, hused⟩ := hops 0x13 nullWord none hcan
  have hkey : v.map.words (0x13 % 4 ^ 4) = 8 := by
    rw [hmap]
    rfl
  have hne : v.root ≠ nullPtr := by
    intro hnull
    obtain ⟨-, hroot⟩ := sound_of_trieRun (by decide) (by decide) hrun v hv
    rcases hroot with ⟨-, hempty⟩ | htrie
    · rw [hempty _ (by decide)] at hkey
      cases hkey
    · exact TrieAt.ne_zero htrie ((ptrToWord_eq_zero _).mpr hnull)
  rw [hkey] at hused
  exact ⟨h, v, hv, hmap, hne, hwalk hne, r, hdelete, hused⟩

end Shades
