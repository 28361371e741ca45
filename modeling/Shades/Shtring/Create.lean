import Shades.Shtring.Cat
import Shades.Shtring.Forest
import Shades.Shtring.Pack

/-!
# Shades.Shtring.Create

`shtring_create`: the tree that `build_tree` makes of an array has the text of the
array, and it takes the words that `shtring_tree_size` has computed.  The chunks may
be shorter than `SHTRING_CHUNK_MAX`.
-/

namespace Shades

/-! ## building -/

section build

variable {m m' : Memory} {cstr : List Nat} {aligned : Bool} {c h p : Nat}

/-- A tree that was built of the first bytes of an array. -/
structure BuiltChunkTree (c : Nat) (m : Memory) (cstr : List Nat) (h p : Nat) (m' : Memory) : Prop where
  ext : m.Extends m'
  words : m'.allocationPtr + treesWords c h (min cstr.length (treeBytes c h)) = m.allocationPtr
  tree : ∃ chunks, TreeAt m'.words m'.Live h p chunks ∧
    textOf chunks = cstr.take (treeBytes c h)

/-- What is left of the first generation. -/
theorem Memory.Extends.canAllocate {n k : Nat} (hext : m.Extends m')
    (hptr : m'.allocationPtr + n = m.allocationPtr) (hcan : m.canAllocate (n + k)) :
    m'.canAllocate k := by
  have hend := hext.firstGenerationEnd_eq
  unfold Memory.canAllocate at hcan ⊢
  omega

/-- The words that a new chunk is filled with. -/
theorem ChunkAt.of_pack {S : Nat → Prop} {word : Nat → Nat → Nat → Nat → Nat} (hword : Packs word)
    {bytes : List Nat} (hbytes : AreBytes bytes) (hpos : 0 < bytes.length)
    (hmax : bytes.length ≤ shtringChunkMax) (hne : p ≠ nullPtr)
    (hhead : m.words p = CellType.shtringChunk.header ||| bytes.length)
    (hS : ∀ i < shtringChunkWordsNeeded bytes.length, S (p + i)) :
    ChunkAt (fillCell p 1 (packBytes word bytes) m).words S p bytes := by
  have hhead' : (fillCell p 1 (packBytes word bytes) m).words p =
      CellType.shtringChunk.header ||| bytes.length := by
    rw [fillCell_words_of_lt _ _ (by omega), hhead]
  have hget : ∀ i b, bytes[i]? = some b →
      (fillCell p 1 (packBytes word bytes) m).words (p + 1 + i / 4) < 2 ^ 32 ∧
      wordByte ((fillCell p 1 (packBytes word bytes) m).words (p + 1 + i / 4)) (i % 4) = b := by
    intro i b hb
    obtain ⟨w, hw, hlt, hbyte⟩ := packBytes_getElem? hword hbytes hb
    rw [Nat.add_assoc, fillCell_words m hw]
    exact ⟨hlt, hbyte⟩
  unfold shtringChunkMax at hmax
  refine
    { ne_null := hne
      type := by rw [hhead', cellType_header_or _ (by omega)]
      length := ?_
      pos := hpos
      le_max := hmax
      region := hS
      word_lt := fun i hi => ?_
      bytes_eq := ?_ }
  · rw [shtringChunkLength, hhead', header_or_and _ (by omega)]
  · unfold shtringChunkWordsNeeded at hi
    rcases i with _ | j
    · rw [Nat.add_zero, hhead', header_or _ (by omega)]
      show 23 * 2 ^ 24 + bytes.length < 2 ^ 32
      omega
    · obtain ⟨b, hb⟩ : ∃ b, bytes[4 * j]? = some b := ⟨_, List.getElem?_eq_getElem (by omega)⟩
      obtain ⟨hlt, -⟩ := hget (4 * j) b hb
      rw [Nat.mul_div_cancel_left _ (by decide)] at hlt
      rwa [Nat.add_comm j, ← Nat.add_assoc]
  · refine List.ext_getElem (length_chunkBytes _ _ _ _).symm fun i hi hi' => ?_
    obtain ⟨-, hbyte⟩ := hget i bytes[i] (List.getElem?_eq_getElem _)
    simp [chunkBytes, hbyte]

/-- `build_chunk`. -/
theorem buildChunk_spec (aligned : Bool) (hc : 0 < c) (hmax : c ≤ shtringChunkMax)
    (hbytes : AreBytes cstr) (hpos : 0 < cstr.length)
    (hcan : m.canAllocate (treesWords c 1 (min cstr.length (treeBytes c 1)))) :
    ∃ p m', buildChunkOf c aligned m cstr = some (p, cstr.drop (treeBytes c 1), m') ∧
      BuiltChunkTree c m cstr 1 p m' := by
  have hcap : treeBytes c 1 = c := treeBytes_one c
  rw [hcap] at hcan ⊢
  obtain ⟨n, hn⟩ : ∃ n, n = min cstr.length c := ⟨_, rfl⟩
  have hif : (if c < cstr.length then c else cstr.length) = n := by split <;> omega
  have hnpos : 0 < n := by omega
  have hrest : cstr.take n = cstr.take c ∧ cstr.drop n = cstr.drop c := by
    rcases Nat.le_total cstr.length c with hle | hle
    · rw [hn, Nat.min_eq_left hle, List.take_of_length_le hle, List.drop_of_length_le hle]
      simp
    · rw [hn, Nat.min_eq_right hle]
      exact ⟨rfl, rfl⟩
  have hlen : (cstr.take n).length = n := by
    rw [List.length_take]
    omega
  have hwords : treesWords c 1 n = shtringChunkWordsNeeded n := by
    rw [treesWords, blockCount_eq_one (b := c) hnpos (by omega), blockCount,
      shtringChunkWordsNeeded]
    omega
  rw [← hn, hwords] at hcan
  obtain ⟨p, m₁, hnew, halloc, hne, hcan₁, hptr, hptr₀, hhead⟩ :=
    shtringNewChunk_spec (k := 0) hnpos hcan
  obtain ⟨word, hword⟩ : ∃ word, word = if 4 ≤ n ∧ aligned then readSwapped else packWord :=
    ⟨_, rfl⟩
  have hpacks : Packs word := by
    rw [hword]
    split
    · exact packs_readSwapped
    · exact packs_packWord
  have hfill : m.Allocates (fillCell p 1 (packBytes word (cstr.take n)) m₁) := by
    refine halloc.fillCell _ (by omega) ?_
    rw [length_packBytes, hlen, hptr₀]
    unfold shtringChunkWordsNeeded
    omega
  have hext := hfill.extends (by
    rw [fillCell_firstGenerationEnd, fillCell_allocationPtr]
    unfold Memory.canAllocate at hcan₁
    omega)
  have hchunk := ChunkAt.of_pack (m := m₁) (p := p)
    (S := (fillCell p 1 (packBytes word (cstr.take n)) m₁).Live) hpacks (hbytes.take n)
    (by rw [hlen]; exact hnpos) (by omega) hne (by rw [hlen]; exact hhead)
    fun i _ => .inr (by rw [fillCell_allocationPtr]; omega)
  refine ⟨p, _, ?_, hext, ?_, [(p, cstr.take n)], .chunk hchunk, ?_⟩
  · unfold buildChunkOf
    simp only [assert_true hpos, Option.bind_eq_bind, Option.bind_some, hif, hnew, ← hword, hrest.2]
  · rw [hcap, ← hn, hwords, fillCell_allocationPtr, hptr, hptr₀]
  · rw [hcap, ← hrest.1]
    simp

/-- The children that `build_tree` has built of the first bytes of an array. -/
structure BuiltKids (c : Nat) (m : Memory) (cstr : List Nat) (h n : Nat)
    (kids : List (Nat × List Chunk)) (m' : Memory) : Prop where
  ext : m.Extends m'
  words : m'.allocationPtr + treesWords c h (min cstr.length (n * treeBytes c h)) =
    m.allocationPtr
  trees : ∀ kid ∈ kids, TreeAt m'.words m'.Live h kid.1 kid.2
  text : kidsText kids = cstr.take (n * treeBytes c h)
  count : kids.length = blockCount (min cstr.length (n * treeBytes c h)) (treeBytes c h)

/-- The loop over the children, if a child is built as it should be. -/
theorem buildKids_spec {build : Memory → List Nat → Option (Nat × List Nat × Memory)}
    (hc : 0 < c) (hfour : 4 ∣ c)
    (hbuild : ∀ {m : Memory} {cstr : List Nat}, AreBytes cstr → 0 < cstr.length →
      cstr.length < 2 ^ 32 → m.canAllocate (treesWords c h (min cstr.length (treeBytes c h))) →
      ∃ p m', build m cstr = some (p, cstr.drop (treeBytes c h), m') ∧
        BuiltChunkTree c m cstr h p m')
    (n : Nat) (hbytes : AreBytes cstr) (hfit : cstr.length < 2 ^ 32) {k : Nat}
    (hcan : m.canAllocate (treesWords c h (min cstr.length (n * treeBytes c h)) + k)) :
    ∃ kids m', buildKids build n m cstr =
        some (kids.map Prod.fst, cstr.drop (n * treeBytes c h), m') ∧
      BuiltKids c m cstr h n kids m' := by
  have hcap := treeBytes_pos hc h
  induction n generalizing m cstr with
  | zero =>
    rw [Nat.zero_mul] at hcan ⊢
    refine ⟨[], m, rfl, .refl m, ?_, nofun, ?_, ?_⟩
    all_goals simp [hcap, treesWords_zero hc]
  | succ n ih =>
    rw [buildKids]
    by_cases hpos : 0 < cstr.length
    · obtain ⟨hsplit, hcount⟩ := treesWords_split hc hfour h n cstr.length
      rw [hsplit] at hcan
      obtain ⟨p, m₁, hrun₁, hext₁, hptr₁, chunks, ht₁, htext₁⟩ := hbuild hbytes hpos hfit
        (Memory.canAllocate_mono hcan (by omega))
      have hlen : (cstr.drop (treeBytes c h)).length = cstr.length - treeBytes c h :=
        List.length_drop
      obtain ⟨kids, m₂, hrun₂, hext₂, hptr₂, htrees₂, htext₂, hcount₂⟩ :=
        ih (hbytes.drop (treeBytes c h)) (by omega) (by
          rw [hlen]
          exact hext₁.canAllocate hptr₁ (Memory.canAllocate_mono hcan (by omega)))
      rw [hlen] at hptr₂ hcount₂
      rw [if_pos hpos, hrun₁]
      simp only [Option.bind_eq_bind, Option.bind_some, hrun₂, List.drop_drop]
      refine ⟨(p, chunks) :: kids, m₂, ?_, hext₁.trans hext₂, by omega, ?_, ?_, ?_⟩
      · rw [Nat.add_mul, Nat.one_mul, Nat.add_comm]
        rfl
      · intro kid hkid
        rcases List.mem_cons.mp hkid with rfl | hkid
        · exact ht₁.frame hext₂.agree fun _ ha => hext₂.live ha
        · exact htrees₂ kid hkid
      · rw [kidsText_cons, htext₁, htext₂, Nat.add_mul, Nat.one_mul, Nat.add_comm (n * _),
          List.take_add]
      · rw [hcount, List.length_cons, hcount₂, blockCount_eq_one (by omega) (Nat.min_le_right _ _)]
        omega
    · rw [if_neg hpos]
      obtain rfl : cstr = [] := List.eq_nil_of_length_eq_zero (by omega)
      refine ⟨[], m, by simp, .refl m, ?_, nofun, ?_, ?_⟩
      all_goals simp [hcap, treesWords_zero hc]

/-- The loops that add the children to a node. -/
theorem addTab_spec {S : Nat → Prop} {m₀ : Memory} {q n : Nat}
    {length : (Nat → Nat) → Nat → Nat} {kids more : List (Nat × List Chunk)}
    (hlength : ∀ {m : Memory} {p : Nat} {chunks : List Chunk}, TreeAt m.words S h p chunks →
      length m.words p = (textOf chunks).length)
    (htrees : ∀ kid ∈ more, TreeAt m.words S h kid.1 kid.2) (hb : NodeBuild S m₀ m q n h kids)
    (hle : kids.length + more.length ≤ n)
    (hfit : (kidsText kids).length + (kidsText more).length < 2 ^ 32) :
    ∃ m', addTab length q (more.map Prod.fst) m (kids.length + 1) =
        some (kids.length + more.length + 1, m') ∧
      NodeBuild S m₀ m' q n h (kids ++ more) ∧ m.SameBounds m' := by
  induction more generalizing m kids with
  | nil => exact ⟨m, rfl, by simpa using hb, .refl m⟩
  | cons kid more ih =>
    rw [kidsText_cons, List.length_append] at hfit
    rw [List.length_cons] at hle
    have hkid := htrees kid List.mem_cons_self
    obtain ⟨m₁, hadd, hb₁, hagree₁, hsame₁⟩ := shtringAddChild_spec hb hkid (by omega) (by omega)
    obtain ⟨m₂, hrest, hb₂, hsame₂⟩ := ih
      (fun kid hkid => (htrees kid (List.mem_cons_of_mem _ hkid)).frame hagree₁ fun _ ha => ha) hb₁
      (by rw [List.length_append, List.length_singleton]; omega) (by
        simp only [kidsText_append, kidsText_cons, kidsText_nil, List.length_append,
          List.length_nil]
        omega)
    rw [List.length_append, List.length_singleton] at hrest
    refine ⟨m₂, ?_, by simpa using hb₂, hsame₁.trans hsame₂⟩
    rw [List.map_cons, addTab, hlength hkid, hadd]
    simp only [Option.bind_eq_bind, Option.bind_some]
    rw [hrest, List.length_cons, show kids.length + 1 + more.length + 1 =
      kids.length + (more.length + 1) + 1 by omega]

/-- The length of a child, which is a chunk just below the nodes of height 2. -/
theorem TreeAt.kidLength {words : Nat → Nat} {S : Nat → Prop} {chunks : List Chunk}
    (ht : TreeAt words S h p chunks) :
    (if h + 1 = 2 then shtringChunkLength else shtringNodeLength) words p =
      (textOf chunks).length := by
  cases ht with
  | chunk hchunk => simpa using hchunk.length
  | @node p h kids hnode htrees =>
    obtain ⟨kid, hkid⟩ := List.exists_mem_of_ne_nil _ hnode.ne_nil
    have hpos := (htrees kid hkid).height_pos
    rw [if_neg (by omega), hnode.length]

/-- `build_tree`. -/
theorem buildTree_spec (aligned : Bool) (hc : 0 < c) (hfour : 4 ∣ c) (hmax : c ≤ shtringChunkMax)
    (hh : 0 < h) (hbytes : AreBytes cstr) (hpos : 0 < cstr.length) (hfit : cstr.length < 2 ^ 32)
    (hcan : m.canAllocate (treesWords c h (min cstr.length (treeBytes c h)))) :
    ∃ p m', buildTreeOf c aligned h m cstr = some (p, cstr.drop (treeBytes c h), m') ∧
      BuiltChunkTree c m cstr h p m' := by
  induction h generalizing m cstr with
  | zero => cases hh
  | succ h ih =>
    cases h with
    | zero => exact buildChunk_spec aligned hc hmax hbytes hpos hcan
    | succ h =>
      have hcap' : maxShtringNodeChildren * treeBytes c (h + 1) = treeBytes c (h + 2) := by
        rw [treeBytes_succ, Nat.mul_comm]
      obtain ⟨L, hL⟩ : ∃ L, L = min cstr.length (treeBytes c (h + 2)) := ⟨_, rfl⟩
      have hLpos : 0 < L := by
        have := treeBytes_pos hc (h + 2)
        omega
      have hLle : L ≤ treeBytes c (h + 2) := hL ▸ Nat.min_le_right _ _
      obtain ⟨hwords, hsome, hmany⟩ := treesWords_node hc hLpos hLle
      rw [← hL, hwords] at hcan
      obtain ⟨kids, m₁, hrun₁, hext₁, hptr₁, htrees₁, htext₁, hcount₁⟩ := buildKids_spec hc
        hfour (h := h + 1) (fun hb hp hf hcan => ih (Nat.succ_pos h) hb hp hf hcan)
        maxShtringNodeChildren hbytes hfit (by rw [hcap', ← hL]; exact hcan)
      rw [hcap'] at hrun₁ hptr₁ htext₁ hcount₁
      rw [← hL] at hptr₁ hcount₁
      obtain ⟨q, m₂, hnew, hb₂, hcan₂, hq₂, hq₁⟩ := shtringNewNode_spec (S := m₁.Live) (k := 0)
        (hcount₁ ▸ hsome) (hcount₁ ▸ hmany) (Nat.succ_pos h) (fun _ ha => ha) (by
          rw [hcount₁]
          exact hext₁.canAllocate hptr₁ hcan)
      have htext : kidsText kids = cstr.take (treeBytes c (h + 2)) := htext₁
      obtain ⟨m₃, hadd, hb₃, hsame₃⟩ := addTab_spec (S := m₁.Live)
        (fun ht => ht.kidLength)
        (show ∀ kid ∈ kids, TreeAt m₂.words m₁.Live (h + 1) kid.1 kid.2 from
          fun kid hkid => (htrees₁ kid hkid).frame hb₂.ext.agree fun _ ha => ha) hb₂
        (by simp) (by rw [htext]; simp; omega)
      rw [List.nil_append] at hb₃
      have hptr₃ := hsame₃.allocationPtr_eq
      refine ⟨q, m₃, ?_, hext₁.trans hb₃.ext, ?_, (kids.map Prod.snd).flatten, ?_, ?_⟩
      · simp only [buildTreeOf, hrun₁, Option.bind_eq_bind, Option.bind_some, List.length_map, hnew]
        simp only [List.length_nil, Nat.zero_add] at hadd
        rw [hadd]
        rfl
      · show m₃.allocationPtr + treesWords c (h + 2) (min cstr.length (treeBytes c (h + 2))) = _
        rw [← hL, hwords, ← hcount₁]
        omega
      · exact hb₃.tree rfl (fun _ ha => hb₃.ext.live ha) fun i hi => (hb₃.fresh i hi).2
      · exact htext

end build

/-! ## creating a shtring -/

/-- `shtring_create`: a shtring with the text of the array, from the words that
`SHTRING_CREATE_MAX_ALLOCATION` counts. -/
theorem shtringCreate_fits {m : Memory} {cstr : List Nat} {firstGenerationSize l : Nat}
    (aligned : Bool) (hbytes : AreBytes cstr) (hsize : firstGenerationSize < 2 ^ 32)
    (hlen : cstr.length ≤ firstGenerationSize / 2)
    (hcan : m.canAllocate (shtringCreateMaxAllocation cstr.length + l)) :
    ∃ shtr m' chunks, shtringCreate firstGenerationSize aligned m cstr = some (some shtr, m') ∧
      m.Extends m' ∧ m'.canAllocate l ∧ ShtringAt m'.words m'.Live shtr chunks 0 cstr.length ∧
      textOf chunks = cstr := by
  have hzero := shtringTreeSizeOf_zero (c := shtringChunkMax) (by decide) (by decide)
  unfold shtringCreate shtringCreateOf
  rw [if_neg (by omega)]
  unfold shtringCreateMaxAllocation shtringCreateMaxAllocationOf at hcan
  rcases Nat.eq_zero_or_pos cstr.length with hnil | hpos
  · obtain rfl := List.eq_nil_of_length_eq_zero hnil
    rw [List.length_nil, hzero, Nat.add_comm] at hcan
    obtain ⟨shtr, m', hrun, hext, hs⟩ := shtringNewShtring_spec (m := m) (h := 0) 0 0
      (.inl ⟨rfl, rfl, rfl⟩) (by decide) (by simp)
      (Memory.canAllocate_mono hcan (Nat.le_add_left _ _))
    refine ⟨shtr, m', [], ?_, hext, shtringNewShtring_canAllocate hrun hcan, hs, rfl⟩
    simp only [List.length_nil, hzero, buildTreeOf, assert_true, Option.bind_eq_bind,
      Option.bind_some, hrun]
  · obtain ⟨h, hsize, hh, hle, -⟩ := shtringTreeSizeOf_spec (c := shtringChunkMax) (by decide)
      (by decide) hpos (by omega)
    rw [hsize, Nat.add_assoc] at hcan
    obtain ⟨root, m₁, hrun₁, hext₁, hptr₁, chunks, ht₁, htext⟩ := buildTree_spec (h := h) aligned
      (c := shtringChunkMax) (by decide) (by decide) le_rfl hh hbytes hpos (by omega) (Memory.canAllocate_mono hcan (by
        rw [Nat.min_eq_left hle]
        exact Nat.le_add_right _ _))
    rw [Nat.min_eq_left hle] at hptr₁
    rw [List.take_of_length_le hle] at htext
    have hcan₁ := hext₁.canAllocate hptr₁ hcan
    rw [Nat.add_comm] at hcan₁
    obtain ⟨shtr, m', hrun, hext, hs⟩ := shtringNewShtring_spec 0 cstr.length (.inr ht₁)
      (by rw [htext]; omega) (by rw [htext]; omega)
      (Memory.canAllocate_mono hcan₁ (Nat.le_add_left _ _))
    refine ⟨shtr, m', chunks, ?_, hext₁.trans hext, shtringNewShtring_canAllocate hrun hcan₁, hs,
      htext⟩
    simp only [hsize, hrun₁, Option.bind_eq_bind, Option.bind_some, hrun]

theorem shtringCreate_spec {m : Memory} {cstr : List Nat} {firstGenerationSize : Nat}
    (aligned : Bool) (hbytes : AreBytes cstr) (hsize : firstGenerationSize < 2 ^ 32)
    (hlen : cstr.length ≤ firstGenerationSize / 2)
    (hcan : m.canAllocate (shtringCreateMaxAllocation cstr.length)) :
    ∃ shtr m' chunks, shtringCreate firstGenerationSize aligned m cstr = some (some shtr, m') ∧
      m.Extends m' ∧ ShtringAt m'.words m'.Live shtr chunks 0 cstr.length ∧
      textOf chunks = cstr := by
  obtain ⟨shtr, m', chunks, hrun, hext, -, hs, htext⟩ := shtringCreate_fits (l := 0) aligned hbytes
    hsize hlen (Memory.canAllocate_mono hcan (Nat.le_of_eq (Nat.add_zero _)))
  exact ⟨shtr, m', chunks, hrun, hext, hs, htext⟩

end Shades
