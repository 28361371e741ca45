import Shades.Triev2.Insert

/-!
# Shades.Triev2.Delete

`triev2_delete` takes a key away from the map of a trie, or replaces its data,
and leaves the old trie as it was.

The first loop records the nodes on the way to the key.  `Spine` says what the
recorded path is: the trie around the place where the subtrie for the rest of
the key sits.  The second loop goes up that path as long as nodes become
empty, the third one copies what is left of it with a new subtrie in place of
the old one.
-/

namespace Shades

/-! ## the recorded path -/

/-- In the trie for `N` digits with the map `F`, the way to key `K` leads along
`path` to a subtrie for `n` digits with the map `f`, where the rest of the key
is `k`. -/
inductive Spine (words : Nat → Nat) (S : Nat → Prop) (N K : Nat) (F : Nat → Nat) :
    List PathEntry → Nat → Nat → (Nat → Nat) → Prop
  | nil : Spine words S N K F [] N K F
  | cons {path : List PathEntry} {p t j pre m k : Nat} {kids : Nat → Nat → Nat} {f : Nat → Nat}
      (hpath : Spine words S N K F path (j + 1 + m) k f) (hp : NodeAt words S p t j pre)
      (hkids : ∀ d < 4, offset t d ≠ 0 → TrieAt words S m (words (p + offset t d)) (kids d))
      (hf : ∀ κ < 4 ^ (j + 1 + m), f κ = nodeMap t pre m kids κ)
      (hpre : k / 4 ^ (m + 1) = pre) (hoff : offset t (k / 4 ^ m % 4) ≠ 0) :
      Spine words S N K F (⟨p, k / 4 ^ m % 4, offset t (k / 4 ^ m % 4)⟩ :: path) m (k % 4 ^ m)
        (kids (k / 4 ^ m % 4))

section spine

variable {words : Nat → Nat} {S : Nat → Prop} {N K : Nat} {F : Nat → Nat}
  {path : List PathEntry} {n k : Nat} {f : Nat → Nat}

theorem Spine.key_lt (h : Spine words S N K F path n k f) (hK : K < 4 ^ N) : k < 4 ^ n := by
  cases h with
  | nil => exact hK
  | cons _ _ _ _ _ _ => exact Nat.mod_lt _ (Nat.pow_pos (by decide))

/-- Every node consumes a digit. -/
theorem Spine.length_le (h : Spine words S N K F path n k f) : path.length + n ≤ N := by
  induction h with
  | nil => simp
  | cons _ _ _ _ _ _ ih =>
    simp only [List.length_cons]
    omega

/-- The subtrie holds the data of the key. -/
theorem Spine.map_eq (h : Spine words S N K F path n k f) (hK : K < 4 ^ N) : f k = F K := by
  induction h with
  | nil => rfl
  | cons hpath hp _ hf hpre hoff ih =>
    rw [← ih, hf _ (hpath.key_lt hK), nodeMap_child hpre hoff]

/-- The first loop of `triev2_delete`. -/
theorem deleteSearch_spec {w : Nat} (h : TrieAt words S n w f) (hK : K < 4 ^ N) (hN : N ≤ 16) :
    ∀ {fuel k : Nat} {path : List PathEntry}, n ≠ 0 → n ≤ fuel →
      Spine words S N K F path n k f →
      (deleteSearch words fuel (wordToPtr w) (alignKey k n) ((2 * n : Nat) : Int) path =
          some .absent ∧ F K = 0) ∨
        ∃ path' f', deleteSearch words fuel (wordToPtr w) (alignKey k n) ((2 * n : Nat) : Int)
            path = some (.found path' (F K)) ∧ F K ≠ 0 ∧
          Spine words S N K F path' 0 0 f' := by
  induction h with
  | data _ _ => exact fun hn => absurd rfl hn
  | @node p t j pre n kids f hp hkids hf ih =>
    intro fuel k path _ hfuel hpath
    obtain ⟨fuel, rfl⟩ : ∃ x, fuel = x + 1 := ⟨fuel - 1, by omega⟩
    have hk := hpath.key_lt hK
    have hmap := hpath.map_eq hK
    have hlength := hpath.length_le
    have hindex := hp.trieIndex
    obtain ⟨hdigit, hrest⟩ := alignKey_step (k := k) (show n + 1 ≤ 16 by omega)
    have hlen : ((2 * (n + 1) : Nat) : Int) - 2 = ((2 * n : Nat) : Int) := by
      push_cast
      ring
    rw [wordToPtr_ptrToWord, deleteSearch, comparePrefix_node hp (by omega) hk]
    by_cases hpre : k / 4 ^ (n + 1) = pre
    · simp only [if_pos hpre, hindex, hdigit, hrest, hlen]
      have hd := Nat.mod_lt (k / 4 ^ n) (show 4 > 0 by decide)
      by_cases hoff : offset t (k / 4 ^ n % 4) = 0
      · rw [if_pos hoff]
        refine Or.inl ⟨rfl, ?_⟩
        rw [← hmap, hf k hk, nodeMap_absent fun _ => hoff]
      · rw [if_neg hoff]
        have hpath' := Spine.cons hpath hp hkids hf hpre hoff
        by_cases hlast : n = 0
        · subst hlast
          have hkid := hkids _ hd hoff
          have hdata := MaybeTrieAt.data_eq (Or.inr hkid)
          have hmap' := hpath'.map_eq hK
          rw [show k % 4 ^ 0 = 0 by simp [Nat.mod_one]] at hmap' hpath'
          rw [hdata] at hmap'
          rw [if_neg (by simp), ← hmap']
          exact Or.inr ⟨_, _, rfl, TrieAt.ne_zero hkid, hpath'⟩
        · rw [if_pos (by omega)]
          exact ih _ hd hoff hlast (by omega) hpath'
    · simp only [if_neg hpre]
      refine Or.inl ⟨by simp, ?_⟩
      rw [← hmap, hf k hk, nodeMap_absent fun h => absurd h hpre]

end spine

/-! ## going back up -/

/-- The old trie is found in the memory `M`, where nothing of it is free. -/
structure Holds (words : Nat → Nat) (S : Nat → Prop) (M : Memory) : Prop where
  agree : AgreeOn S words M.words
  live : ∀ a, S a → M.Live a

theorem Holds.extends {words : Nat → Nat} {S : Nat → Prop} {M M' : Memory}
    (h : Holds words S M) (hext : M.Extends M') : Holds words S M' where
  agree := h.agree.trans (hext.agree.mono h.live)
  live := fun a ha => hext.live (h.live a ha)

/-- One turn of the last loop: a copy of a node with another child. -/
def copyWith (M : Memory) (e : PathEntry) (data : Nat) : Nat × Memory :=
  let p := e.node
  let cs := cellSize (trieIndex (M.words p))
  let (newP, M) := M.allocate cs (trieCellType (trieIndex (M.words p)))
  let M := M.set newP (M.words p)
  let M := copyFields M newP p 0 ((List.range (cs - 1)).map fun i => some (i + 1))
  (newP, M.set (newP + e.offset) data)

theorem deleteRebuild_cons (M : Memory) (newP data : Nat) (e : PathEntry)
    (path : List PathEntry) :
    deleteRebuild M newP data (e :: path) =
      deleteRebuild (copyWith M e data).2 (copyWith M e data).1
        (ptrToWord (copyWith M e data).1) path := rfl

section rebuild

variable {words : Nat → Nat} {S : Nat → Prop}

/-- The copy has the map of the node after one of its children changed. -/
theorem copyWith_spec {M : Memory} {p t j pre m k x data : Nat} {kids : Nat → Nat → Nat}
    {f : Nat → Nat} (hM : Holds words S M) (hp : NodeAt words S p t j pre)
    (hkids : ∀ d < 4, offset t d ≠ 0 → TrieAt words S m (words (p + offset t d)) (kids d))
    (hf : ∀ κ < 4 ^ (j + 1 + m), f κ = nodeMap t pre m kids κ) (hpre : k / 4 ^ (m + 1) = pre)
    (hoff : offset t (k / 4 ^ m % 4) ≠ 0) (hcan : M.canAllocate 5)
    (hdata : TrieAt M.words M.Live m data
      (Function.update (kids (k / 4 ^ m % 4)) (k % 4 ^ m) x)) :
    ∃ newP M', copyWith M ⟨p, k / 4 ^ m % 4, offset t (k / 4 ^ m % 4)⟩ data = (newP, M') ∧
      M.Extends M' ∧ M'.firstGenerationEnd ≤ M'.allocationPtr ∧
      M.allocationPtr ≤ M'.allocationPtr + 5 ∧
      TrieAt M'.words M'.Live (j + 1 + m) (ptrToWord newP) (Function.update f k x) := by
  have hend := M.firstGenerationEnd_pos
  have ht := hp.index_lt
  have hsize := two_le_cellSize t ht
  have hd : k / 4 ^ m % 4 < 4 := Nat.mod_lt _ (by decide)
  have hplace := offset_lt_cellSize t ht _ hd
  have hpos := Nat.pos_of_ne_zero hoff
  unfold Memory.canAllocate at hcan
  have hword : M.words p = words p := hM.agree p (hp.region 0 (by omega))
  obtain ⟨newP, hnewP⟩ : ∃ newP, newP = M.allocationPtr - cellSize t := ⟨_, rfl⟩
  have houtside : ∀ i < cellSize t, p + i < newP ∨ newP + cellSize t ≤ p + i := by
    intro i hi
    have hlive := hM.live _ (hp.region i hi)
    unfold Memory.Live at hlive
    omega
  have hp0 := houtside 0 (by omega)
  obtain ⟨M₁, hM₁⟩ : ∃ M₁, M₁ = copyFields ((M.allocate (cellSize t) (trieCellType t)).2.set newP
      (words p)) newP p 0 ((List.range (cellSize t - 1)).map fun i => some (i + 1)) := ⟨_, rfl⟩
  obtain ⟨M', hM'⟩ : ∃ M', M' = M₁.set (newP + offset t (k / 4 ^ m % 4)) data := ⟨_, rfl⟩
  have hap : M'.allocationPtr = newP := by simp [hM', hM₁, hnewP]
  have hcopy : copyWith M ⟨p, k / 4 ^ m % 4, offset t (k / 4 ^ m % 4)⟩ data = (newP, M') := by
    unfold copyWith
    simp only [hword, hp.trieIndex, Memory.allocate_fst, ← hnewP, Memory.allocate_words]
    rw [if_neg (by omega), ← hM₁, ← hM']
  have hallocates : M.Allocates M' := by
    have halloc := Memory.allocates_allocate (m := M) (trieCellType t)
      (show 0 < cellSize t by omega) (by unfold Memory.canAllocate; omega)
    rw [hM', hM₁]
    refine (allocates_copyFields (halloc.set ?_ _) ?_ ?_).set ?_ _ <;> simp <;> omega
  have hfit : M'.firstGenerationEnd ≤ M'.allocationPtr := by
    rw [hallocates.firstGenerationEnd_eq]
    omega
  have hext := hallocates.extends hfit
  have hholds := hM.extends hext
  have hheader : M'.words newP = trieHeader t j pre := by
    rw [hM', Memory.set_words, if_neg (by omega), hM₁, copyFields_outside (by omega),
      Memory.set_words, if_pos rfl, hp.header]
  have hfields : ∀ e < 4, offset t e ≠ 0 → e ≠ k / 4 ^ m % 4 →
      M'.words (newP + offset t e) = words (p + offset t e) := by
    intro e he heoff hed
    have heplace := offset_lt_cellSize t ht e he
    have hne : offset t e ≠ offset t (k / 4 ^ m % 4) := fun heq =>
      hed (offset_injective t ht e he _ hd heoff heq)
    have hsource := houtside _ heplace
    rw [hM', Memory.set_words, if_neg (by omega), hM₁,
      copyFields_all heoff heplace (by omega), Memory.set_words, if_neg (by omega),
      Memory.allocate_words, if_neg (by omega), hM.agree _ (hp.region _ heplace)]
  refine ⟨newP, M', hcopy, hext, hfit, by omega, ?_⟩
  refine .node
    { ne_zero := by omega
      index_lt := ht
      prefix_le := hp.prefix_le
      prefix_lt := hp.prefix_lt
      header := hheader
      region := fun i _ => Or.inr (by omega) } (fun e he heoff => ?_)
    (nodeMap_update kids (kids (k / 4 ^ m % 4)) hpre hoff (fun κ hκ => ?_))
  · by_cases hed : e = k / 4 ^ m % 4
    · subst hed
      rw [Function.update_self, hM', Memory.set_words, if_pos rfl]
      exact hM' ▸ hdata.frame hext.agree fun a ha => hext.live ha
    · rw [Function.update_of_ne hed, hfields e he heoff hed]
      exact (hkids e he heoff).frame hholds.agree hholds.live
  · rw [Function.update_eq_self]
    exact hf κ hκ

/-- The last loop of `triev2_delete`: with a new subtrie at the end of the path
the whole trie is made anew. -/
theorem deleteRebuild_spec {N K : Nat} {F : Nat → Nat} {path : List PathEntry} {n k : Nat}
    {f : Nat → Nat} (h : Spine words S N K F path n k f) :
    ∀ (newP data x : Nat) {M : Memory}, Holds words S M → M.canAllocate (5 * path.length) →
      (path = [] → data = ptrToWord newP) →
      TrieAt M.words M.Live n data (Function.update f k x) →
      ∃ newP' M', deleteRebuild M newP data path = (newP', M') ∧ M.Extends M' ∧
        M'.firstGenerationEnd ≤ M'.allocationPtr ∧
        M.allocationPtr ≤ M'.allocationPtr + 5 * path.length ∧
        TrieAt M'.words M'.Live N (ptrToWord newP') (Function.update F K x) := by
  induction h with
  | nil =>
    intro newP data x M hM hcan hnil htrie
    unfold Memory.canAllocate at hcan
    refine ⟨newP, M, rfl, Memory.Extends.refl M, by omega, by omega, ?_⟩
    rw [← hnil rfl]
    exact htrie
  | @cons path p t j pre m k kids f hpath hp hkids hf hpre hoff ih =>
    intro newP data x M hM hcan _ htrie
    unfold Memory.canAllocate at hcan
    rw [List.length_cons] at hcan
    obtain ⟨newP₁, M₁, hcopy, hext₁, hfit₁, hcost₁, htrie₁⟩ :=
      copyWith_spec (k := k) hM hp hkids hf hpre hoff
        (by unfold Memory.canAllocate; omega) htrie
    have hend := hext₁.firstGenerationEnd_eq
    obtain ⟨newP', M', hrebuild, hext, hfit, hcost, htrie'⟩ :=
      ih newP₁ _ x (hM.extends hext₁) (by unfold Memory.canAllocate; omega) (fun _ => rfl)
        htrie₁
    refine ⟨newP', M', ?_, hext₁.trans hext, hfit, ?_, htrie'⟩
    · rw [deleteRebuild_cons, hcopy]
      exact hrebuild
    · rw [List.length_cons]
      omega

end rebuild

/-! ## taking a key away -/

/-- Only the words of the fresh fields are written. -/
theorem storeFields_outside {m : Memory} {newP i a : Nat} {xs : List Nat}
    (ha : a < newP + 1 + i ∨ newP + 1 + i + xs.length ≤ a) :
    (storeFields m newP i xs).words a = m.words a := by
  induction xs generalizing m i with
  | nil => rfl
  | cons x xs ih =>
    simp only [List.length_cons] at ha
    rw [storeFields, ih (by omega), Memory.set_words, if_neg (by omega)]

/-- The words are stored one after the other. -/
theorem storeFields_field {m : Memory} (newP i : Nat) {x y : Nat} {xs : List Nat}
    (hx : xs[x]? = some y) : (storeFields m newP i xs).words (newP + 1 + i + x) = y := by
  induction xs generalizing m i x with
  | nil => simp at hx
  | cons z xs ih =>
    cases x with
    | zero =>
      obtain rfl : z = y := by simpa using hx
      rw [storeFields, storeFields_outside (by omega)]
      simp
    | succ x =>
      rw [show newP + 1 + i + (x + 1) = newP + 1 + (i + 1) + x by omega]
      exact ih _ (by simpa using hx)

theorem allocates_storeFields {m m' : Memory} {newP i : Nat} {xs : List Nat}
    (h : m.Allocates m') (hlow : m'.allocationPtr ≤ newP + 1 + i)
    (hhigh : newP + 1 + i + xs.length ≤ m.allocationPtr) :
    m.Allocates (storeFields m' newP i xs) := by
  induction xs generalizing m' i with
  | nil => exact h
  | cons x xs ih =>
    simp only [List.length_cons] at hhigh
    refine ih (h.set (by omega) x) ?_ (by omega)
    rw [Memory.set_allocationPtr]
    omega

@[simp] theorem storeFields_allocationPtr (m : Memory) (newP i : Nat) (xs : List Nat) :
    (storeFields m newP i xs).allocationPtr = m.allocationPtr := by
  induction xs generalizing m i with
  | nil => rfl
  | cons x xs ih => simp [storeFields, ih]

section shrink

variable {words : Nat → Nat} {S : Nat → Prop} {p t j pre m k : Nat} {kids : Nat → Nat → Nat}
  {f : Nat → Nat}

/-- The subtrie for the digit of `k` holds nothing but `k`. -/
def OnlyKey (n k : Nat) (f : Nat → Nat) : Prop := ∀ κ < 4 ^ n, κ ≠ k → f κ = 0

/-- A node with a single child holds nothing but `k` if its child does. -/
theorem OnlyKey.node (hf : ∀ κ < 4 ^ (j + 1 + m), f κ = nodeMap t pre m kids κ)
    (hpre : k / 4 ^ (m + 1) = pre) (ht : t < 15) (hsize : cellSize t = 2)
    (hoff : offset t (k / 4 ^ m % 4) ≠ 0)
    (honly : OnlyKey m (k % 4 ^ m) (kids (k / 4 ^ m % 4))) : OnlyKey (j + 1 + m) k f := by
  intro κ hκ hne
  rw [hf κ hκ]
  unfold nodeMap
  split
  · next hin =>
    have hd := Nat.mod_lt (k / 4 ^ m) (show 4 > 0 by decide)
    have he := Nat.mod_lt (κ / 4 ^ m) (show 4 > 0 by decide)
    have hdigit : κ / 4 ^ m % 4 = k / 4 ^ m % 4 :=
      (((offset_of_size_two t ht _ hd _ he).resolve_left (by simp [hsize])).resolve_left
        hoff).resolve_left hin.2
    rw [hdigit]
    refine honly _ (Nat.mod_lt _ (Nat.pow_pos (by decide))) fun hrest => hne ?_
    exact key_ext (hin.1.trans hpre.symm) hdigit hrest
  · rfl

/-- The map of a node without the child for the digit of `k`. -/
theorem nodeMap_without (hf : ∀ κ < 4 ^ (j + 1 + m), f κ = nodeMap t pre m kids κ)
    (hpre : k / 4 ^ (m + 1) = pre) (ht : t < 15) (hsize : cellSize t ≠ 2)
    (hoff : offset t (k / 4 ^ m % 4) ≠ 0)
    (honly : OnlyKey m (k % 4 ^ m) (kids (k / 4 ^ m % 4))) :
    ∀ κ < 4 ^ (j + 1 + m), Function.update f k 0 κ =
      nodeMap (cellTypeWithout t (k / 4 ^ m % 4)).trieIndex pre m kids κ := by
  intro κ hκ
  have hd := Nat.mod_lt (k / 4 ^ m) (show 4 > 0 by decide)
  have he := Nat.mod_lt (κ / 4 ^ m) (show 4 > 0 by decide)
  have hwithout := ((cellTypeWithout_offset t ht _ hd _ he).resolve_left hoff).resolve_left hsize
  by_cases hk : κ = k
  · subst hk
    rw [Function.update_self, nodeMap_absent fun _ => hwithout.mpr (Or.inl rfl)]
  · rw [Function.update_of_ne hk, hf κ hκ]
    unfold nodeMap
    by_cases hup : κ / 4 ^ (m + 1) = pre
    · by_cases hdigit : κ / 4 ^ m % 4 = k / 4 ^ m % 4
      · have hrest : κ % 4 ^ m ≠ k % 4 ^ m := fun hrest =>
          hk (key_ext (hup.trans hpre.symm) hdigit hrest)
        rw [hdigit, honly _ (Nat.mod_lt _ (Nat.pow_pos (by decide))) hrest]
        simp
      · have hiff : offset (cellTypeWithout t (k / 4 ^ m % 4)).trieIndex (κ / 4 ^ m % 4) ≠ 0 ↔
            offset t (κ / 4 ^ m % 4) ≠ 0 := by
          rw [Ne, hwithout]
          simp [hdigit]
        simp only [hup, true_and, hiff]
    · simp [hup]

/-- The branch for a node with three or four children. -/
theorem shrinkNode_spec {M : Memory} (hM : Holds words S M) (hp : NodeAt words S p t j pre)
    (hkids : ∀ d < 4, offset t d ≠ 0 → TrieAt words S m (words (p + offset t d)) (kids d))
    (hf : ∀ κ < 4 ^ (j + 1 + m), f κ = nodeMap t pre m kids κ) (hpre : k / 4 ^ (m + 1) = pre)
    (hoff : offset t (k / 4 ^ m % 4) ≠ 0) (hsize : cellSize t ≠ 2)
    (honly : OnlyKey m (k % 4 ^ m) (kids (k / 4 ^ m % 4))) (hcan : M.canAllocate 5)
    {newP : Nat} {M' : Memory} (hnewP : newP = M.allocationPtr - (cellSize t - 1))
    (hM' : M' = storeFields ((M.allocate (cellSize t - 1)
      (trieCellType (cellTypeWithout t (k / 4 ^ m % 4)).trieIndex)).2.set newP
        ((trieCellType (cellTypeWithout t (k / 4 ^ m % 4)).trieIndex).header |||
          (words p &&& fullPrefixMask))) newP 0
      (remainingChildren words p t (k / 4 ^ m % 4))) :
    M.Extends M' ∧ M'.firstGenerationEnd ≤ M'.allocationPtr ∧
      M.allocationPtr ≤ M'.allocationPtr + 5 ∧
      TrieAt M'.words M'.Live (j + 1 + m) (ptrToWord newP) (Function.update f k 0) := by
  have hend := M.firstGenerationEnd_pos
  have ht := hp.index_lt
  have hcells := two_le_cellSize t ht
  have hd := Nat.mod_lt (k / 4 ^ m) (show 4 > 0 by decide)
  obtain ⟨hindex, hless⟩ :=
    ((cellTypeWithout_type t ht _ hd).resolve_left hoff).resolve_left hsize
  have hmap := nodeMap_without hf hpre ht hsize hoff honly
  have hcount := (length_remaining t ht _ hd).resolve_left hoff
  unfold Memory.canAllocate at hcan
  have hlength : (remainingChildren words p t (k / 4 ^ m % 4)).length + 2 = cellSize t := by
    rw [remainingChildren, List.length_map, hcount]
  have hap : M'.allocationPtr = newP := by simp [hM', hnewP]
  have hallocates : M.Allocates M' := by
    have halloc := Memory.allocates_allocate (m := M)
      (trieCellType (cellTypeWithout t (k / 4 ^ m % 4)).trieIndex)
      (show 0 < cellSize t - 1 by omega) (by unfold Memory.canAllocate; omega)
    rw [hM']
    refine allocates_storeFields (halloc.set ?_ _) ?_ ?_ <;> simp <;> omega
  have hfit : M'.firstGenerationEnd ≤ M'.allocationPtr := by
    rw [hallocates.firstGenerationEnd_eq]
    omega
  have hext := hallocates.extends hfit
  have hholds := hM.extends hext
  refine ⟨hext, hfit, by omega, ?_⟩
  refine .node
    { ne_zero := by omega
      index_lt := hindex
      prefix_le := hp.prefix_le
      prefix_lt := hp.prefix_lt
      header := ?_
      region := fun i _ => Or.inr (by omega) } (fun e he heoff => ?_) hmap
  · rw [hM', storeFields_outside (by omega), Memory.set_words, if_pos rfl, hp.fullPrefix,
      header_or_fullPrefix hp.prefix_le hp.prefix_lt (trieCellType_code _ hindex)]
  · have hwithout := ((cellTypeWithout_offset t ht _ hd _ he).resolve_left hoff).resolve_left hsize
    have hkeep : e ≠ k / 4 ^ m % 4 ∧ offset t e ≠ 0 := by
      rw [Ne, hwithout] at heoff
      exact not_or.mp heoff
    have hplace := ((((cellTypeWithout_remaining t ht _ hd _ he).resolve_left hoff).resolve_left
      hsize).resolve_left hkeep.1).resolve_left hkeep.2
    have hpos := Nat.pos_of_ne_zero heoff
    have hfield : (remainingChildren words p t (k / 4 ^ m % 4))[
        offset (cellTypeWithout t (k / 4 ^ m % 4)).trieIndex e - 1]? =
          some (words (p + offset t e)) := by
      have hlist : ((List.range 4).filter fun j => decide (offset t j ≠ 0 ∧ j ≠ k / 4 ^ m % 4))[
          offset (cellTypeWithout t (k / 4 ^ m % 4)).trieIndex e - 1]? = some e := by
        simpa using hplace
      rw [remainingChildren, List.getElem?_map, hlist]
      rfl
    have hword := storeFields_field (m := (M.allocate (cellSize t - 1)
      (trieCellType (cellTypeWithout t (k / 4 ^ m % 4)).trieIndex)).2.set newP
        ((trieCellType (cellTypeWithout t (k / 4 ^ m % 4)).trieIndex).header |||
          (words p &&& fullPrefixMask))) newP 0 hfield
    rw [← hM', show newP + 1 + 0 +
      (offset (cellTypeWithout t (k / 4 ^ m % 4)).trieIndex e - 1) =
        newP + offset (cellTypeWithout t (k / 4 ^ m % 4)).trieIndex e by omega] at hword
    rw [hword]
    exact (hkids e he hkeep.2).frame hholds.agree hholds.live

theorem merge_prefix_lt {j j' pre pre' c : Nat} (hpre : pre < 4 ^ j) (hc : c < 4)
    (hpre' : pre' < 4 ^ j') : (pre * 4 + c) * 4 ^ j' + pre' < 4 ^ (j + 1 + j') := by
  calc
    (pre * 4 + c) * 4 ^ j' + pre' < (pre * 4 + c + 1) * 4 ^ j' := by
      rw [Nat.add_mul (pre * 4 + c) 1]
      omega
    _ ≤ 4 ^ (j + 1) * 4 ^ j' := Nat.mul_le_mul_right _ (by rw [pow_succ]; omega)
    _ = 4 ^ (j + 1 + j') := (pow_add 4 (j + 1) j').symm

/-- The branch that joins a node with its only descendant `q`. -/
theorem mergeNode_spec {M : Memory} (hM : Holds words S M) (hp : NodeAt words S p t j pre)
    (hf : ∀ κ < 4 ^ (j + 1 + m), f κ = nodeMap t pre m kids κ) (hpre : k / 4 ^ (m + 1) = pre)
    (hoff : offset t (k / 4 ^ m % 4) ≠ 0) (hsize : cellSize t = 3)
    (honly : OnlyKey m (k % 4 ^ m) (kids (k / 4 ^ m % 4))) (hcan : M.canAllocate 5)
    {q t' j' pre' m' c : Nat} {kids' : Nat → Nat → Nat} (hm : m = j' + 1 + m')
    (hq : NodeAt words S q t' j' pre')
    (hkids' : ∀ d < 4, offset t' d ≠ 0 → TrieAt words S m' (words (q + offset t' d)) (kids' d))
    (hc : c = deoffset t (2 - offset t (k / 4 ^ m % 4)))
    (hf' : ∀ κ < 4 ^ m, kids c κ = nodeMap t' pre' m' kids' κ) (hfit : j + 1 + j' ≤ 10)
    {newP : Nat} {M' : Memory} (hnewP : newP = M.allocationPtr - cellSize t')
    (hM' : M' = copyFields ((M.allocate (cellSize t') (trieCellType t')).2.set newP
      (trieHeader t' (j + 1 + j') ((pre * 4 + c) * 4 ^ j' + pre'))) newP q 0
      ((List.range (cellSize t' - 1)).map fun i => some (i + 1))) :
    M.Extends M' ∧ M'.firstGenerationEnd ≤ M'.allocationPtr ∧
      M.allocationPtr ≤ M'.allocationPtr + 5 ∧
      TrieAt M'.words M'.Live (j + 1 + m) (ptrToWord newP) (Function.update f k 0) := by
  have hend := M.firstGenerationEnd_pos
  have ht := hp.index_lt
  have hcells := two_le_cellSize t' hq.index_lt
  have hd := Nat.mod_lt (k / 4 ^ m) (show 4 > 0 by decide)
  obtain ⟨hc4, hcne, -, hcoff⟩ :=
    ((deoffset_other t ht _ hd).resolve_left (by simp [hsize])).resolve_left hoff
  rw [← hc] at hc4 hcne hcoff
  unfold Memory.canAllocate at hcan
  obtain ⟨hallocates, hap, hsum, hheader, hfields⟩ := copyCell_spec (by omega)
    (by unfold Memory.canAllocate; omega) (fun i hi => hM.live _ (hq.region i hi)) hnewP hM'
  have hfit' : M'.firstGenerationEnd ≤ M'.allocationPtr := by
    rw [hallocates.firstGenerationEnd_eq]
    omega
  have hext := hallocates.extends hfit'
  have hholds := hM.extends hext
  have hpos : 0 < 4 ^ j' := Nat.pow_pos (by decide)
  have hquot : ((pre * 4 + c) * 4 ^ j' + pre') / 4 ^ j' = pre * 4 + c := by
    rw [Nat.mul_comm, Nat.mul_add_div hpos, Nat.div_eq_of_lt hq.prefix_lt, Nat.add_zero]
  have hlow : ((pre * 4 + c) * 4 ^ j' + pre') % 4 ^ j' = pre' := by
    rw [Nat.mul_comm, Nat.mul_add_mod, Nat.mod_eq_of_lt hq.prefix_lt]
  have hup : ((pre * 4 + c) * 4 ^ j' + pre') / 4 ^ (j' + 1) = pre := by
    rw [pow_succ, ← Nat.div_div_eq_div_mul, hquot]
    omega
  have hmap : ∀ κ < 4 ^ (j + 1 + m), Function.update f k 0 κ =
      nodeMap t' ((pre * 4 + c) * 4 ^ j' + pre') m' kids' κ := by
    intro κ hκ
    have he := Nat.mod_lt (κ / 4 ^ m) (show 4 > 0 by decide)
    have hwithout := ((cellTypeWithout_offset t ht _ hd _ he).resolve_left hoff).resolve_left
      (by omega)
    have hother := ((deoffset_only t ht _ hd _ he).resolve_left (by simp [hsize])).resolve_left hoff
    rw [← hc] at hother
    rw [nodeMap_without hf hpre ht (by omega) hoff honly κ hκ, nodeMap_split (m := m') (i := j'),
      hup, hlow,
      hquot, show m' + 1 + j' = m by omega, show (pre * 4 + c) % 4 = c by omega]
    unfold nodeMap
    by_cases hdigit : κ / 4 ^ m % 4 = c
    · have hkept : offset (cellTypeWithout t (k / 4 ^ m % 4)).trieIndex (κ / 4 ^ m % 4) ≠ 0 := by
        rw [Ne, hwithout, hdigit]
        simp [hcne, hcoff]
      by_cases hin : κ / 4 ^ (m + 1) = pre
      · rw [if_pos ⟨hin, hkept⟩, if_pos ⟨hin, hdigit⟩, hdigit,
          hf' _ (Nat.mod_lt _ (Nat.pow_pos (by decide)))]
        rfl
      · rw [if_neg fun h => hin h.1, if_neg fun h => hin h.1]
    · rw [if_neg fun h => h.2 (hwithout.mpr (hother.imp_right fun h => h.resolve_left hdigit)),
        if_neg fun h => hdigit h.2]
  refine ⟨hext, hfit', by omega, ?_⟩
  rw [show j + 1 + m = (j + 1 + j') + 1 + m' by omega] at hmap ⊢
  refine .node
    { ne_zero := by omega
      index_lt := hq.index_lt
      prefix_le := hfit
      prefix_lt := merge_prefix_lt hp.prefix_lt hc4 hq.prefix_lt
      header := hheader
      region := fun i _ => Or.inr (by omega) } (fun e he heoff => ?_) hmap
  have heplace := offset_lt_cellSize t' hq.index_lt e he
  rw [hfields _ heplace heoff, hM.agree _ (hq.region _ heplace)]
  exact (hkids' e he heoff).frame hholds.agree hholds.live

/-- The prefix of the joined node: the two prefixes with the digit between
them. -/
theorem merge_prefix {j j' pre pre' c : Nat} (hfit : j + 1 + j' ≤ 10) (hpre : pre < 4 ^ j)
    (hc : c < 4) (hpre' : pre' < 4 ^ j') :
    lshift32 (lshift32 pre 2 ||| c) (2 * j') ||| pre' = (pre * 4 + c) * 4 ^ j' + pre' := by
  have hbound : ∀ i, i ≤ 10 → 4 ^ i < 2 ^ 32 := fun i hi =>
    Nat.lt_of_le_of_lt (Nat.pow_le_pow_right (by decide) hi) (by decide)
  have hupper : pre * 4 + c < 4 ^ (j + 1) := by
    rw [pow_succ]
    omega
  have hinner : lshift32 pre 2 ||| c = pre * 4 + c := by
    have hlt := hbound (j + 1) (by omega)
    exact lshift32_or (show c < 2 ^ 2 by omega) (by omega)
  have houter : (pre * 4 + c) * 4 ^ j' < 2 ^ 32 := by
    calc
      (pre * 4 + c) * 4 ^ j' < 4 ^ (j + 1) * 4 ^ j' :=
        Nat.mul_lt_mul_of_pos_right hupper (Nat.pow_pos (by decide))
      _ = 4 ^ (j + 1 + j') := (pow_add 4 (j + 1) j').symm
      _ < 2 ^ 32 := hbound _ hfit
  rw [hinner, lshift32_or (by rwa [two_pow_double]) (by rwa [two_pow_double]), two_pow_double]

/-- The case of a node with two children. -/
theorem deleteMerge_spec {M : Memory} (hM : Holds words S M) (hp : NodeAt words S p t j pre)
    (hkids : ∀ d < 4, offset t d ≠ 0 → TrieAt words S m (words (p + offset t d)) (kids d))
    (hf : ∀ κ < 4 ^ (j + 1 + m), f κ = nodeMap t pre m kids κ) (hpre : k / 4 ^ (m + 1) = pre)
    (hoff : offset t (k / 4 ^ m % 4) ≠ 0) (hsize : cellSize t = 3)
    (honly : OnlyKey m (k % 4 ^ m) (kids (k / 4 ^ m % 4))) (hcan : M.canAllocate 5)
    {isLast : Bool} (hlast : isLast = true ↔ m = 0) :
    ∃ newP M', deleteMerge M ⟨p, k / 4 ^ m % 4, offset t (k / 4 ^ m % 4)⟩ isLast = (newP, M') ∧
      M.Extends M' ∧ M'.firstGenerationEnd ≤ M'.allocationPtr ∧
      M.allocationPtr ≤ M'.allocationPtr + 5 ∧
      TrieAt M'.words M'.Live (j + 1 + m) (ptrToWord newP) (Function.update f k 0) := by
  have ht := hp.index_lt
  have hd := Nat.mod_lt (k / 4 ^ m) (show 4 > 0 by decide)
  have hword : M.words p = words p := hM.agree p (hp.region 0 (by omega))
  obtain ⟨c, hc⟩ : ∃ c, c = deoffset t (2 - offset t (k / 4 ^ m % 4)) := ⟨_, rfl⟩
  obtain ⟨hc4, hcne, hcplace, hcoff⟩ :=
    ((deoffset_other t ht _ hd).resolve_left (by simp [hsize])).resolve_left hoff
  rw [← hc] at hc4 hcne hcplace hcoff
  have hchild : M.words (p + (3 - offset t (k / 4 ^ m % 4))) = words (p + offset t c) := by
    rw [← hcplace]
    exact hM.agree _ (hp.region _ (offset_lt_cellSize t ht c hc4))
  unfold deleteMerge
  simp only [hword, hp.trieIndex, hp.prefixLength, hp.nodePrefix, hchild]
  by_cases hjoin : ¬ isLast = true ∧
      2 * j + prefixLength (M.words (wordToPtr (words (p + offset t c)))) ≤ 18
  · -- the other child is a node, since the last node of the path is never joined
    rw [if_pos hjoin]
    have hm : m ≠ 0 := fun h0 => hjoin.1 (hlast.mpr h0)
    obtain ⟨q, t', j', pre', m', kids', hq, hm', hnode, hkids', hf'⟩ :=
      (hkids c hc4 hcoff).inv hm
    have hfit := hjoin.2
    have hcells := two_le_cellSize t' hnode.index_lt
    have hwordq : M.words q = words q := hM.agree q (hnode.region 0 (by omega))
    rw [hq, wordToPtr_ptrToWord, hwordq, hnode.prefixLength] at hfit
    have hjoined := merge_prefix (show j + 1 + j' ≤ 10 by omega) hp.prefix_lt hc4 hnode.prefix_lt
    have hlt := merge_prefix_lt hp.prefix_lt hc4 hnode.prefix_lt
    have hheader := header_or_prefix (show j + 1 + j' ≤ 10 by omega) hlt
      (trieCellType_code t' hnode.index_lt)
    have hspec := mergeNode_spec hM hp hf hpre hoff hsize honly hcan hm' hnode hkids' hc hf'
      (by omega) rfl rfl
    refine ⟨_, _, ?_, hspec⟩
    simp only [hq, wordToPtr_ptrToWord, hwordq, hnode.prefixLength, hnode.trieIndex,
      hnode.nodePrefix, ← hc, hjoined, Memory.allocate_fst, Memory.allocate_words, if_true,
      show 2 * j + 2 * j' + 2 = 2 * (j + 1 + j') by omega, hheader]
  · rw [if_neg hjoin]
    have hremaining : remainingChildren words p t (k / 4 ^ m % 4) = [words (p + offset t c)] := by
      have hlist := ((remaining_of_size_three t ht _ hd).resolve_left
        (by simp [hsize])).resolve_left hoff
      rw [remainingChildren, hlist, ← hc]
      rfl
    have hspec := shrinkNode_spec hM hp hkids hf hpre hoff (by omega) honly hcan rfl rfl
    rw [hremaining, hsize] at hspec
    refine ⟨_, _, ?_, hspec⟩
    have hplace := hM.live _ (hp.region _ (offset_lt_cellSize t ht c hc4))
    unfold Memory.Live at hplace
    unfold Memory.canAllocate at hcan
    simp only [Memory.allocate_fst, Memory.allocate_words, Memory.set_words, if_true, hcplace,
      storeFields]
    rw [if_neg (by omega), if_neg (by omega), hchild, hcplace]

end shrink

/-- The second loop of `triev2_delete`: either nothing but the key was in the
trie, or some node of the path was replaced by a smaller one. -/
theorem deleteShrink_spec {words : Nat → Nat} {S : Nat → Prop} {N K : Nat} {F : Nat → Nat}
    {path : List PathEntry} {n k : Nat} {f : Nat → Nat} {M : Memory}
    (h : Spine words S N K F path n k f) (hM : Holds words S M) (hcan : M.canAllocate 5) :
    ∀ (isLast : Bool), (isLast = true ↔ n = 0) → OnlyKey n k f →
      (deleteShrink M path isLast = none ∧ OnlyKey N K F) ∨
        ∃ newP M' path' n' k' f', deleteShrink M path isLast = some (newP, M', path') ∧
          Spine words S N K F path' n' k' f' ∧ path'.length < path.length ∧ M.Extends M' ∧
          M'.firstGenerationEnd ≤ M'.allocationPtr ∧ M.allocationPtr ≤ M'.allocationPtr + 5 ∧
          TrieAt M'.words M'.Live n' (ptrToWord newP) (Function.update f' k' 0) := by
  induction h with
  | nil => exact fun _ _ honly => Or.inl ⟨rfl, honly⟩
  | @cons path p t j pre m k kids f hpath hp hkids hf hpre hoff ih =>
    intro isLast hlast honly
    have ht := hp.index_lt
    have hcells := two_le_cellSize t ht
    have hword : M.words p = words p := hM.agree p (hp.region 0 (by omega))
    have hlive := hM.live _ (hp.region 0 (by omega))
    have hcan' := hcan
    unfold Memory.canAllocate at hcan'
    unfold Memory.Live at hlive
    rw [deleteShrink]
    simp only [hword, hp.trieIndex]
    by_cases h3 : cellSize t = 3
    · obtain ⟨newP, M', hmerge, hext, hfit, hcost, htrie⟩ :=
        deleteMerge_spec hM hp hkids hf hpre hoff h3 honly hcan hlast
      rw [if_pos h3, hmerge]
      exact Or.inr ⟨newP, M', path, _, k, f, rfl, hpath, by simp, hext, hfit, hcost, htrie⟩
    · rw [if_neg h3]
      by_cases h45 : cellSize t = 4 ∨ cellSize t = 5
      · rw [if_pos h45]
        have hspec := shrinkNode_spec hM hp hkids hf hpre hoff (by omega) honly hcan rfl rfl
        obtain ⟨hext, hfit, hcost, htrie⟩ := hspec
        refine Or.inr ⟨_, _, path, _, k, f, ?_, hpath, by simp, hext, hfit, hcost, htrie⟩
        have hremaining : ∀ M' : Memory, (∀ i < cellSize t, M'.words (p + i) = words (p + i)) →
            remainingChildren M'.words p t (k / 4 ^ m % 4) =
              remainingChildren words p t (k / 4 ^ m % 4) := by
          intro M' hM'
          unfold remainingChildren
          refine List.map_congr_left fun e he => hM' _ (offset_lt_cellSize t ht e ?_)
          exact List.mem_range.mp (List.mem_filter.mp he).1
        simp only [Memory.allocate_fst, Memory.allocate_words, if_true]
        rw [hremaining]
        intro i hi
        have hlivei := hM.live _ (hp.region i hi)
        unfold Memory.Live at hlivei
        rw [Memory.set_words, if_neg (by omega), Memory.allocate_words, if_neg (by omega),
          hM.agree _ (hp.region i hi)]
      · rw [if_neg h45]
        rcases ih false (by simp) (OnlyKey.node hf hpre ht (by omega) hoff honly) with
          hnone | ⟨newP, M', path', n', k', f', hshrink, hspine, hlt, hrest⟩
        · exact Or.inl hnone
        · exact Or.inr ⟨newP, M', path', n', k', f', hshrink, hspine,
            Nat.lt_succ_of_lt hlt, hrest⟩

/-! ## the operation -/

/-- What `triev2_delete` leaves behind a key with the data `oldData`; `0` if
the key is gone. -/
def deleteValue (m : Memory) (f : Option UpdateFunction) (data oldData : Nat) : Nat :=
  if oldData = 0 then 0 else (UpdateFunction.call f oldData data m).1

/-- The memory in which `triev2_delete` starts to build: the update function is
only called for a present key. -/
def deleteMemory (m : Memory) (f : Option UpdateFunction) (data oldData : Nat) : Memory :=
  if oldData = 0 then m else (UpdateFunction.call f oldData data m).2

/-- The end of `triev2_delete`: the path is rebuilt with `x` in place of the
data of the key. -/
theorem deletePath_spec {words : Nat → Nat} {S : Nat → Prop} {n k x : Nat} {g f' : Nat → Nat}
    {path : List PathEntry} {M : Memory} (hspine : Spine words S n k g path 0 0 f') (hn : n ≠ 0)
    (hn16 : n ≤ 16) (hM : Holds words S M) (hcan : M.canAllocate triev2MaxAllocation) :
    ∃ root' M', (if x = nullWord then
        match deleteShrink M path true with
        | none => (nullPtr, M)
        | some (newP, M, path) => deleteRebuild M newP (ptrToWord newP) path
      else deleteRebuild M nullPtr x path) = (root', M') ∧ M.Extends M' ∧
      M.allocationPtr ≤ M'.allocationPtr + triev2MaxAllocation ∧
      RootAt M'.words M'.Live n root' (Function.update g k x) := by
  have hlength := hspine.length_le
  unfold Memory.canAllocate triev2MaxAllocation at hcan
  unfold nullWord triev2MaxAllocation
  by_cases hzero : x = 0
  · rw [if_pos hzero, hzero]
    have honly : OnlyKey 0 0 f' := fun κ hκ hne => absurd (Nat.lt_one_iff.mp hκ) hne
    rcases deleteShrink_spec hspine hM (by unfold Memory.canAllocate; omega) true (by simp)
        honly with
      ⟨hnone, honly⟩ |
        ⟨newP, M₁, path', n', k', f'', hshrink, hspine', hlt, hext, hfit, hcost, htrie⟩
    · rw [hnone]
      refine ⟨nullPtr, M, rfl, Memory.Extends.refl M, by omega, Or.inl ⟨rfl, fun κ hκ => ?_⟩⟩
      by_cases hκk : κ = k
      · rw [hκk, Function.update_self]
      · rw [Function.update_of_ne hκk, honly κ hκ hκk]
    · have hend := hext.firstGenerationEnd_eq
      obtain ⟨newP', M', hrebuild, hext', hfit', hcost', htrie'⟩ :=
        deleteRebuild_spec hspine' newP _ 0 (hM.extends hext)
          (by unfold Memory.canAllocate; omega) (fun _ => rfl) htrie
      rw [hshrink]
      exact ⟨newP', M', hrebuild, hext.trans hext', by omega, Or.inr htrie'⟩
  · rw [if_neg hzero]
    have hnonempty : path ≠ [] := by
      rintro rfl
      cases hspine
      exact hn rfl
    obtain ⟨newP', M', hrebuild, hext, hfit, hcost, htrie⟩ :=
      deleteRebuild_spec hspine nullPtr x x hM
        (by unfold Memory.canAllocate; omega) (fun h => absurd h hnonempty)
        (.data hzero (Function.update_self _ _ _))
    exact ⟨newP', M', hrebuild, hext, by omega, Or.inr htrie⟩

/-- `triev2_delete` yields a trie for the updated map, within its allocation
bound, and leaves every live word alone.  Where nothing changes it returns the
same root. -/
theorem triev2Delete_spec {m : Memory} {n root : Nat} (key data : Nat) {f : Option UpdateFunction}
    {g : Nat → Nat} (hn : n ≠ 0) (hn16 : n ≤ 16) (hroot : RootAt m.words m.Live n root g)
    (hcan : m.canAllocate (triev2MaxAllocation + UpdateFunction.cost f)) :
    ∃ root' m', triev2Delete m root key (2 * n) f data = some (root', m') ∧
      m.Extends m' ∧
      (deleteMemory m f data (g (key % 4 ^ n))).allocationPtr ≤
        m'.allocationPtr + triev2MaxAllocation ∧
      RootAt m'.words m'.Live n root'
        (Function.update g (key % 4 ^ n) (deleteValue m f data (g (key % 4 ^ n)))) ∧
      (deleteValue m f data (g (key % 4 ^ n)) = g (key % 4 ^ n) → root' = root) := by
  obtain ⟨k, hk⟩ : ∃ k, k = key % 4 ^ n := ⟨_, rfl⟩
  have hklt : k < 4 ^ n := hk ▸ Nat.mod_lt _ (Nat.pow_pos (by decide))
  unfold Memory.canAllocate at hcan
  rw [← hk]
  unfold triev2Delete nullPtr
  by_cases hr : root = 0
  · have hempty : g k = 0 := by
      rcases hroot with ⟨-, hempty⟩ | htrie
      · exact hempty k hklt
      · exact absurd ((ptrToWord_eq_zero root).mpr hr) (TrieAt.ne_zero htrie)
    rw [if_pos hr, deleteValue, if_pos hempty, deleteMemory, if_pos hempty]
    refine ⟨root, m, by rw [hr], Memory.Extends.refl m, Nat.le_add_right _ _, ?_, fun _ => rfl⟩
    rw [← hempty, Function.update_eq_self]
    exact hroot
  · have htrie : TrieAt m.words m.Live n (ptrToWord root) g := by
      rcases hroot with ⟨h0, -⟩ | htrie
      · exact absurd ((ptrToWord_eq_zero root).mp h0) hr
      · exact htrie
    have hsearch := deleteSearch_spec (N := n) (K := k) htrie hklt hn16 hn hn16 .nil
    rw [wordToPtr_ptrToWord] at hsearch
    rw [if_neg hr, lshift32_key key hn16, ← hk]
    rcases hsearch with ⟨hsearch, habsent⟩ | ⟨path, f', hsearch, hpresent, hspine⟩
    · rw [hsearch, Option.map_some, deleteValue, if_pos habsent, deleteMemory, if_pos habsent]
      refine ⟨root, m, rfl, Memory.Extends.refl m, Nat.le_add_right _ _, ?_, fun _ => rfl⟩
      rw [← habsent, Function.update_eq_self]
      exact hroot
    · have hcall := UpdateFunction.extends_call (f := f) (m := m) (g k) data
        (by unfold Memory.canAllocate; omega)
      have hused := UpdateFunction.allocationPtr_call f (g k) data m
      rw [hsearch, Option.map_some, deleteValue, if_neg hpresent, deleteMemory, if_neg hpresent]
      simp only [deleteFound]
      generalize UpdateFunction.call f (g k) data m = xM at hcall hused
      obtain ⟨x, M⟩ := xM
      simp only at hcall hused ⊢
      have hend := hcall.firstGenerationEnd_eq
      by_cases hold : x = g k
      · rw [if_pos hold]
        refine ⟨root, M, rfl, hcall, by omega, ?_, fun _ => rfl⟩
        rw [hold, Function.update_eq_self]
        exact hroot.frame hcall.agree fun a ha => hcall.live ha
      · rw [if_neg hold]
        obtain ⟨root', M', hpath, hext, hcost, hroot'⟩ :=
          deletePath_spec (x := x) hspine hn hn16
            ⟨hcall.agree, fun a ha => hcall.live ha⟩ (by unfold Memory.canAllocate; omega)
        exact ⟨root', M', congrArg some hpath, hcall.trans hext, by omega, hroot',
          fun h => absurd h hold⟩

end Shades
