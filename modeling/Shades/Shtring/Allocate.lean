import Shades.Shtring.Create

/-!
# Shades.Shtring.Allocate

How much `shtring_create` allocates, whatever `SHTRING_CHUNK_MAX` is configured to
be: the functions of `shtring.c` for chunks of at most `chunkMax` bytes.  What the
assertions read of a tree is its root, so the roots are all that is followed here.
-/

namespace Shades

/-! ## roots -/

/-- The root of a tree of the height `h` with `n` bytes, as the assertions see it. -/
inductive ChunkTreeRoot (words : Nat → Nat) : Nat → Nat → Nat → Prop
  | chunk {p n : Nat} (ne_null : p ≠ nullPtr) (type : isShtringNode words p = false)
      (length : shtringChunkLength words p = n) : ChunkTreeRoot words 1 p n
  | node {h p n : Nat} (ne_null : p ≠ nullPtr) (type : isShtringNode words p = true)
      (height : shtringNodeHeight words p = h + 2) (length : shtringNodeLength words p = n) :
      ChunkTreeRoot words (h + 2) p n

namespace ChunkTreeRoot

variable {words words' : Nat → Nat} {h p n : Nat}

theorem ptr_ne_null (hr : ChunkTreeRoot words h p n) : p ≠ nullPtr := by
  cases hr <;> assumption

theorem treeHeight (hr : ChunkTreeRoot words h p n) : shtringTreeHeight words p = h := by
  cases hr with
  | chunk hne htype => simp [shtringTreeHeight, hne, htype]
  | node hne htype hheight => simp [shtringTreeHeight, hne, htype, hheight]

theorem treeLength (hr : ChunkTreeRoot words h p n) : shtringTreeLength words p = n := by
  cases hr with
  | chunk hne htype hlength => simp [shtringTreeLength, hne, htype, hlength]
  | node hne htype hheight hlength => simp [shtringTreeLength, hne, htype, hlength]

/-- The length of a child of a node, as `build_tree` reads it. -/
theorem kidLength (hr : ChunkTreeRoot words h p n) :
    (if h + 1 = 2 then shtringChunkLength else shtringNodeLength) words p = n := by
  cases hr with
  | chunk hne htype hlength => simpa using hlength
  | node hne htype hheight hlength => simpa using hlength

theorem frame (hr : ChunkTreeRoot words h p n) (hagree : ∀ a, p ≤ a → words' a = words a) :
    ChunkTreeRoot words' h p n := by
  have h₀ := hagree p (by omega)
  have h₁ := hagree (p + 1) (by omega)
  have h₂ := hagree (p + 2) (by omega)
  cases hr with
  | chunk hne htype hlength =>
    refine .chunk hne ?_ ?_
    · rw [isShtringNode, h₀]
      exact htype
    · rw [shtringChunkLength, h₀]
      exact hlength
  | node hne htype hheight hlength =>
    refine .node hne ?_ ?_ ?_
    · rw [isShtringNode, h₀]
      exact htype
    · rw [shtringNodeHeight, h₂]
      exact hheight
    · rw [shtringNodeLength, h₁]
      exact hlength

end ChunkTreeRoot

/-! ## the words that a tree takes -/

section build

variable {c h : Nat} {m m' : Memory} {cstr : List Nat}

/-- A tree that was built of the first bytes of an array, as far as its size goes. -/
structure SizedTree (c : Nat) (m : Memory) (len h p : Nat) (m' : Memory) : Prop where
  words : m'.allocationPtr + treesWords c h (min len (treeBytes c h)) = m.allocationPtr
  firstGenerationEnd_eq : m'.firstGenerationEnd = m.firstGenerationEnd
  agree : ∀ a, m.allocationPtr ≤ a → m'.words a = m.words a
  le : m'.allocationPtr ≤ p
  root : ChunkTreeRoot m'.words h p (min len (treeBytes c h))

/-- `build_chunk`. -/
theorem buildChunkOf_sized (aligned : Bool) (hc : 0 < c) (hfield : c < 2 ^ 24)
    (hpos : 0 < cstr.length)
    (hcan : m.canAllocate (treesWords c 1 (min cstr.length (treeBytes c 1)))) :
    ∃ p m', buildChunkOf c aligned m cstr = some (p, cstr.drop (treeBytes c 1), m') ∧
      SizedTree c m cstr.length 1 p m' := by
  rw [treeBytes_one] at hcan ⊢
  obtain ⟨n, hn⟩ : ∃ n, n = min cstr.length c := ⟨_, rfl⟩
  have hif : (if c < cstr.length then c else cstr.length) = n := by split <;> omega
  have hdrop : cstr.drop n = cstr.drop c := by
    rcases Nat.le_total cstr.length c with hle | hle
    · rw [List.drop_of_length_le hle, List.drop_of_length_le (by omega)]
    · rw [hn, Nat.min_eq_right hle]
  have hwords : treesWords c 1 n = shtringChunkWordsNeeded n := by
    rw [treesWords, blockCount_eq_one (b := c) (by omega) (by omega), blockCount,
      shtringChunkWordsNeeded]
    omega
  rw [← hn, hwords] at hcan
  obtain ⟨p, m₁, hnew, halloc, hne, -, hptr, hptr₀, hhead⟩ :=
    shtringNewChunk_spec (n := n) (k := 0) (by omega) hcan
  obtain ⟨word, hword⟩ : ∃ word, word = if 4 ≤ n ∧ aligned then readSwapped else packWord :=
    ⟨_, rfl⟩
  have hlen : p + 1 + (packBytes word (cstr.take n)).length ≤ m.allocationPtr := by
    rw [length_packBytes, List.length_take, hptr₀, shtringChunkWordsNeeded]
    omega
  have hfill := halloc.fillCell (packBytes word (cstr.take n)) (by omega) hlen
  have hhead' : (fillCell p 1 (packBytes word (cstr.take n)) m₁).words p =
      CellType.shtringChunk.header ||| n := by
    rw [fillCell_words_of_lt _ _ (by omega), hhead]
  refine ⟨p, fillCell p 1 (packBytes word (cstr.take n)) m₁, ?_, ?_⟩
  · unfold buildChunkOf
    simp only [assert_true hpos, Option.bind_eq_bind, Option.bind_some, hif, hnew, ← hword, hdrop]
  · exact
      { words := by
          rw [treeBytes_one, ← hn, hwords, fillCell_allocationPtr, hptr, hptr₀]
        firstGenerationEnd_eq := hfill.firstGenerationEnd_eq
        agree := fun a ha => hfill.agree a (.inr ha)
        le := by
          rw [fillCell_allocationPtr]
          omega
        root := by
          rw [treeBytes_one, ← hn]
          refine .chunk hne ?_ ?_
          · rw [isShtringNode, hhead', cellType_header_or _ (by omega)]
            rfl
          · rw [shtringChunkLength, hhead', header_or_and _ (by omega)] }

/-- The children that `build_tree` has built: their pointers and lengths. -/
structure SizedKids (c : Nat) (m : Memory) (len h n : Nat) (kids : List (Nat × Nat)) (m' : Memory) :
    Prop where
  words : m'.allocationPtr + treesWords c h (min len (n * treeBytes c h)) = m.allocationPtr
  firstGenerationEnd_eq : m'.firstGenerationEnd = m.firstGenerationEnd
  agree : ∀ a, m.allocationPtr ≤ a → m'.words a = m.words a
  roots : ∀ kid ∈ kids, ChunkTreeRoot m'.words h kid.1 kid.2 ∧ m'.allocationPtr ≤ kid.1
  sum : (kids.map Prod.snd).sum = min len (n * treeBytes c h)
  count : kids.length = blockCount (min len (n * treeBytes c h)) (treeBytes c h)

/-- The loop over the children, if a child is built as it should be. -/
theorem buildKids_sized {build : Memory → List Nat → Option (Nat × List Nat × Memory)} (hc : 0 < c)
    (hfour : 4 ∣ c)
    (hbuild : ∀ {m : Memory} {cstr : List Nat}, 0 < cstr.length → cstr.length < 2 ^ 32 →
      m.canAllocate (treesWords c h (min cstr.length (treeBytes c h))) →
      ∃ p m', build m cstr = some (p, cstr.drop (treeBytes c h), m') ∧
        SizedTree c m cstr.length h p m')
    (n : Nat) (hfit : cstr.length < 2 ^ 32) {k : Nat}
    (hcan : m.canAllocate (treesWords c h (min cstr.length (n * treeBytes c h)) + k)) :
    ∃ kids m', buildKids build n m cstr =
        some (kids.map Prod.fst, cstr.drop (n * treeBytes c h), m') ∧
      SizedKids c m cstr.length h n kids m' := by
  have hcap := treeBytes_pos hc h
  have hnil : ∀ (m : Memory) (len n : Nat), min len (n * treeBytes c h) = 0 →
      SizedKids c m len h n [] m := fun m len n hzero =>
    { words := by rw [hzero, treesWords_zero hc, Nat.add_zero]
      firstGenerationEnd_eq := rfl
      agree := fun _ _ => rfl
      roots := nofun
      sum := hzero.symm
      count := by rw [hzero, blockCount_zero hcap, List.length_nil] }
  induction n generalizing m cstr with
  | zero =>
    exact ⟨[], m, by simp, hnil m _ 0 (by rw [Nat.zero_mul, Nat.min_zero])⟩
  | succ n ih =>
    rw [buildKids]
    by_cases hpos : 0 < cstr.length
    · obtain ⟨hsplit, hcount⟩ := treesWords_split hc hfour h n cstr.length
      rw [hsplit] at hcan
      obtain ⟨p, m₁, hrun₁, ht⟩ := hbuild hpos hfit (Memory.canAllocate_mono hcan (by omega))
      have hlen : (cstr.drop (treeBytes c h)).length = cstr.length - treeBytes c h :=
        List.length_drop
      have hwords := ht.words
      have hend := ht.firstGenerationEnd_eq
      obtain ⟨kids, m₂, hrun₂, hk⟩ := @ih m₁ (cstr.drop (treeBytes c h)) (by omega) (by
        rw [hlen]
        unfold Memory.canAllocate at hcan ⊢
        omega)
      have hwords₂ := hk.words
      rw [hlen] at hk hwords₂
      rw [if_pos hpos, hrun₁]
      simp only [Option.bind_eq_bind, Option.bind_some, hrun₂, List.drop_drop]
      refine ⟨(p, min cstr.length (treeBytes c h)) :: kids, m₂, ?_, ?_⟩
      · rw [Nat.add_mul, Nat.one_mul, Nat.add_comm]
        rfl
      · exact
          { words := by omega
            firstGenerationEnd_eq := hk.firstGenerationEnd_eq.trans hend
            agree := fun a ha => (hk.agree a (by omega)).trans (ht.agree a ha)
            roots := fun kid hkid => by
              rcases List.mem_cons.mp hkid with rfl | hkid
              · have hle := ht.le
                exact ⟨ht.root.frame fun a ha => hk.agree a (Nat.le_trans hle ha), by
                  show m₂.allocationPtr ≤ p
                  omega⟩
              · exact hk.roots kid hkid
            sum := by
              rw [List.map_cons, List.sum_cons, hk.sum, Nat.add_mul, Nat.one_mul]
              omega
            count := by
              rw [hcount, List.length_cons, hk.count,
                blockCount_eq_one (by omega) (Nat.min_le_right _ _)]
              omega }
    · rw [if_neg hpos]
      obtain rfl : cstr = [] := List.eq_nil_of_length_eq_zero (by omega)
      exact ⟨[], m, by simp, hnil m _ (n + 1) (Nat.zero_min _)⟩

/-- The loops that add the children to a node. -/
theorem addTab_sized {q n i total : Nat} {more : List (Nat × Nat)} (hne : q ≠ nullPtr) (hh : 0 < h)
    (htype : isShtringNode m.words q = true) (hcount : shtringNodeChildren m.words q = n)
    (hheight : shtringNodeHeight m.words q = h + 1) (hlength : shtringNodeLength m.words q = total)
    (hkids : ∀ kid ∈ more, ChunkTreeRoot m.words h kid.1 kid.2 ∧ q + (3 + n) ≤ kid.1)
    (hle : i + more.length ≤ n) (hfit : total + (more.map Prod.snd).sum < 2 ^ 32) :
    ∃ m', addTab (if h + 1 = 2 then shtringChunkLength else shtringNodeLength) q
          (more.map Prod.fst) m (i + 1) = some (i + more.length + 1, m') ∧
      m.SameBounds m' ∧ (∀ a, q + (3 + n) ≤ a → m'.words a = m.words a) ∧
      ChunkTreeRoot m'.words (h + 1) q (total + (more.map Prod.snd).sum) := by
  induction more generalizing m i total with
  | nil =>
    obtain ⟨h, rfl⟩ : ∃ k, h = k + 1 := ⟨h - 1, by omega⟩
    exact ⟨m, rfl, .refl m, fun _ _ => rfl, .node hne htype hheight hlength⟩
  | cons kid more ih =>
    rw [List.map_cons, List.sum_cons] at hfit
    rw [List.length_cons] at hle
    obtain ⟨hroot, hq⟩ := hkids kid List.mem_cons_self
    obtain ⟨m₁, hm₁⟩ : ∃ m₁, m₁ = (m.set (q + 2 + (i + 1)) (ptrToWord kid.1)).set (q + 1)
        (total + kid.2) := ⟨_, rfl⟩
    have hadd : shtringAddChild m q kid.1 (i + 1) kid.2 = some (i + 2, m₁) := by
      unfold shtringAddChild
      rw [assert_true hne, assert_true hroot.ptr_ne_null, assert_true (by rw [hheight]; omega),
        assert_true (by rw [hheight, hroot.treeHeight]), assert_true (by rw [hcount]; omega)]
      have hword : m.words (q + 1) = total := hlength
      simp only [Option.bind_eq_bind, Option.bind_some, Memory.set_words,
        if_neg (show q + 1 ≠ q + 2 + (i + 1) by omega), hword,
        add32_of_lt (show total + kid.2 < 2 ^ 32 by omega), hm₁]
    have hword : ∀ a, a ≠ q + 2 + (i + 1) → a ≠ q + 1 → m₁.words a = m.words a := by
      intro a ha ha'
      rw [hm₁, Memory.set_words, if_neg ha', Memory.set_words, if_neg ha]
    obtain ⟨m₂, hrest, hsame, hagree, hroot₂⟩ := @ih m₁ (i + 1) (total + kid.2)
      (by rw [isShtringNode, hword q (by omega) (by omega)]; exact htype)
      (by rw [shtringNodeChildren, hword q (by omega) (by omega)]; exact hcount)
      (by rw [shtringNodeHeight, hword _ (by omega) (by omega)]; exact hheight)
      (by rw [shtringNodeLength, hm₁, Memory.set_words, if_pos rfl])
      (fun kid' hkid' => by
        obtain ⟨hroot', hq'⟩ := hkids kid' (List.mem_cons_of_mem _ hkid')
        exact ⟨hroot'.frame fun a ha => hword a (by omega) (by omega), hq'⟩)
      (by omega) (by omega)
    have hsame₁ : m.SameBounds m₁ := by
      rw [hm₁]
      exact ⟨rfl, rfl⟩
    refine ⟨m₂, ?_, hsame₁.trans hsame, fun a ha => ?_, ?_⟩
    · rw [List.map_cons, addTab, hroot.kidLength, hadd]
      simp only [Option.bind_eq_bind, Option.bind_some]
      rw [hrest, List.length_cons, show i + 1 + more.length + 1 = i + (more.length + 1) + 1 by omega]
    · rw [hagree a ha, hword a (by omega) (by omega)]
    · rw [List.map_cons, List.sum_cons, ← Nat.add_assoc]
      exact hroot₂

/-- `build_tree`. -/
theorem buildTreeOf_sized (aligned : Bool) (hc : 0 < c) (hfour : 4 ∣ c) (hfield : c < 2 ^ 24)
    (hh : 0 < h) (hpos : 0 < cstr.length) (hfit : cstr.length < 2 ^ 32)
    (hcan : m.canAllocate (treesWords c h (min cstr.length (treeBytes c h)))) :
    ∃ p m', buildTreeOf c aligned h m cstr = some (p, cstr.drop (treeBytes c h), m') ∧
      SizedTree c m cstr.length h p m' := by
  induction h generalizing m cstr with
  | zero => cases hh
  | succ h ih =>
    cases h with
    | zero => exact buildChunkOf_sized aligned hc hfield hpos hcan
    | succ h =>
      have hcap' : maxShtringNodeChildren * treeBytes c (h + 1) = treeBytes c (h + 2) := by
        rw [treeBytes_succ, Nat.mul_comm]
      obtain ⟨L, hL⟩ : ∃ L, L = min cstr.length (treeBytes c (h + 2)) := ⟨_, rfl⟩
      have hLpos : 0 < L := by
        have := treeBytes_pos hc (h + 2)
        omega
      have hLle : L ≤ treeBytes c (h + 2) := hL ▸ Nat.min_le_right _ _
      obtain ⟨hwords, hsome, hmany⟩ := treesWords_node hc hLpos hLle
      rw [← hL, hwords] at hcan
      obtain ⟨kids, m₁, hrun₁, hk⟩ := buildKids_sized hc hfour
        (fun hp hf hcan => ih (Nat.succ_pos h) hp hf hcan) maxShtringNodeChildren hfit
        (by rw [hcap', ← hL]; exact hcan)
      obtain ⟨hwords₁, hend₁, hagree₁, hroots₁, hsum₁, hcount₁⟩ := hk
      rw [hcap'] at hrun₁ hwords₁ hsum₁ hcount₁
      rw [← hL] at hwords₁ hsum₁ hcount₁
      have hcan₁ : m₁.canAllocate (shtringNodeWordsNeeded kids.length + 0) := by
        unfold Memory.canAllocate at hcan ⊢
        unfold shtringNodeWordsNeeded
        omega
      obtain ⟨q, m₂, hnew, hb, -, hq₂, hq₁⟩ :=
        shtringNewNode_spec (hcount₁ ▸ hsome) (hcount₁ ▸ hmany) (Nat.succ_pos h) (fun _ ha => ha) hcan₁
      have hagree₂ : ∀ a, m₁.allocationPtr ≤ a → m₂.words a = m₁.words a := fun a ha =>
        hb.ext.agree a (.inr ha)
      have hroots₂ : ∀ kid ∈ kids, ChunkTreeRoot m₂.words (h + 1) kid.1 kid.2 ∧
          q + (3 + kids.length) ≤ kid.1 := by
        intro kid hkid
        obtain ⟨hroot, hle⟩ := hroots₁ kid hkid
        exact ⟨hroot.frame fun a ha => hagree₂ a (Nat.le_trans hle ha), by omega⟩
      obtain ⟨m₃, hadd, hsame₃, hagree₃, hroot₃⟩ := addTab_sized (i := 0) hb.ne_null
        (Nat.succ_pos h) (by rw [isShtringNode, hb.type]; rfl) hb.count hb.height hb.length hroots₂
        (by omega) (by simp [hsum₁]; omega)
      have hptr₃ := hsame₃.allocationPtr_eq
      have hend₃ := hsame₃.firstGenerationEnd_eq.trans hb.ext.firstGenerationEnd_eq
      rw [kidsText_nil, List.length_nil, hsum₁, Nat.zero_add] at hroot₃
      rw [Nat.zero_add] at hadd
      refine ⟨q, m₃, ?_, ?_⟩
      · rw [buildTreeOf, hrun₁]
        simp only [Option.bind_eq_bind, Option.bind_some, List.length_map, hnew, hadd]
      · exact
          { words := by
              rw [← hL, hwords, ← hcount₁]
              omega
            firstGenerationEnd_eq := hend₃.trans hend₁
            agree := fun a ha => by
              rw [hagree₃ a (by omega), hagree₂ a (by omega), hagree₁ a ha]
            le := by omega
            root := by
              rw [← hL]
              exact hroot₃ }

/-- `shtring_new_shtring` for the root of a tree. -/
theorem shtringNewShtring_sized {p len : Nat} (hroot : shtringTreeHeight m.words p = h)
    (hlen : shtringTreeLength m.words p = len) (hfit : len < 2 ^ 32) :
    ∃ shtr m', shtringNewShtring m 0 len h p = some (shtr, m') ∧
      m'.allocationPtr = m.allocationPtr - shtringWords := by
  unfold shtringNewShtring
  rw [assert_true hroot.symm, hlen, assert_true (Nat.zero_le _),
    assert_true (by rw [add32_of_lt (by omega)]; omega)]
  exact ⟨_, _, rfl, rfl⟩

/-- `shtring_create` takes the words that `shtring_tree_size` has computed. -/
theorem shtringCreateOf_sized {firstGenerationSize : Nat} (aligned : Bool) (hc : 0 < c)
    (hfour : 4 ∣ c) (hfield : c < 2 ^ 24) (hsize : firstGenerationSize < 2 ^ 32)
    (hlen : cstr.length ≤ firstGenerationSize / 2)
    (hcan : m.canAllocate (shtringCreateMaxAllocationOf c cstr.length)) :
    ∃ shtr m', shtringCreateOf c firstGenerationSize aligned m cstr = some (some shtr, m') ∧
      m'.allocationPtr + shtringCreateMaxAllocationOf c cstr.length = m.allocationPtr := by
  unfold shtringCreateOf
  rw [if_neg (by omega)]
  unfold shtringCreateMaxAllocationOf at hcan ⊢
  unfold Memory.canAllocate at hcan
  rcases Nat.eq_zero_or_pos cstr.length with hzero | hpos
  · obtain rfl := List.eq_nil_of_length_eq_zero hzero
    have hheight : shtringTreeSizeOf c 0 = (0, shtringWords) :=
      shtringTreeSizeOf_zero hc (by omega)
    rw [List.length_nil, hheight] at hcan ⊢
    obtain ⟨shtr, m', hrun, hptr⟩ := shtringNewShtring_sized (m := m) (h := 0) (p := nullPtr)
      (by rfl : shtringTreeHeight m.words nullPtr = 0)
      (show shtringTreeLength m.words nullPtr = 0 from rfl) (by decide)
    refine ⟨shtr, m', ?_, by omega⟩
    simp only [hheight, List.length_nil, buildTreeOf, assert_true, Option.bind_eq_bind,
      Option.bind_some]
    rw [hrun, Option.bind_some]
  · obtain ⟨h, hheight, hh, hle, -⟩ := shtringTreeSizeOf_spec (c := c)
      (Nat.le_of_dvd hc hfour) (by omega) hpos (by omega)
    rw [hheight] at hcan ⊢
    simp only at hcan ⊢
    obtain ⟨p, m₁, hbuild, ht⟩ := buildTreeOf_sized (h := h) (m := m) aligned hc hfour hfield hh hpos
      (by omega) (by
        rw [Nat.min_eq_left hle]
        unfold Memory.canAllocate
        omega)
    have hwords := ht.words
    have hroot := ht.root
    rw [Nat.min_eq_left hle] at hwords hroot
    obtain ⟨shtr, m', hrun, hptr⟩ := shtringNewShtring_sized hroot.treeHeight hroot.treeLength
      (by omega)
    refine ⟨shtr, m', ?_, by omega⟩
    simp only [hheight, hbuild, Option.bind_eq_bind, Option.bind_some, hrun]

/-- The trees that take in the whole array. -/
theorem buildTreeOf_height (aligned : Bool) (hc : 0 < c) (hfour : 4 ∣ c) (hfield : c < 2 ^ 24)
    (hfit : cstr.length < 2 ^ 31)
    (hcan : m.canAllocate (shtringCreateMaxAllocationOf c cstr.length)) :
    IsLeast {h | ∃ p m', buildTreeOf c aligned h m cstr = some (p, [], m')}
      (shtringTreeSizeOf c cstr.length).1 := by
  unfold shtringCreateMaxAllocationOf at hcan
  rcases Nat.eq_zero_or_pos cstr.length with hzero | hpos
  · obtain rfl := List.eq_nil_of_length_eq_zero hzero
    rw [List.length_nil, shtringTreeSizeOf_zero hc (by omega)]
    exact ⟨⟨nullPtr, m, rfl⟩, fun _ _ => Nat.zero_le _⟩
  · obtain ⟨h, hheight, hh, hle, hleast⟩ := shtringTreeSizeOf_spec (c := c)
      (Nat.le_of_dvd hc hfour) (by omega) hpos hfit
    rw [hheight] at hcan ⊢
    have hbuild : ∀ k, 0 < k → k ≤ h → ∃ p m',
        buildTreeOf c aligned k m cstr = some (p, cstr.drop (treeBytes c k), m') := by
      intro k hk hkh
      have hwords : treesWords c k (min cstr.length (treeBytes c k)) ≤ treesWords c h cstr.length :=
        Nat.le_trans (treesWords_mono k (Nat.min_le_left _ _)) (treesWords_le hkh _)
      obtain ⟨p, m', hrun, -⟩ := buildTreeOf_sized aligned hc hfour hfield hk hpos
        (Nat.lt_trans hfit (by decide)) (Memory.canAllocate_mono hcan (by omega))
      exact ⟨p, m', hrun⟩
    constructor
    · obtain ⟨p, m', hrun⟩ := hbuild h hh (Nat.le_refl h)
      rw [List.drop_of_length_le hle] at hrun
      exact ⟨p, m', hrun⟩
    · rintro k ⟨p, m', hrun⟩
      by_contra hlt
      rcases Nat.eq_zero_or_pos k with rfl | hk
      · simp [buildTreeOf, assert, Nat.ne_of_gt hpos] at hrun
      · obtain ⟨p', m'', hrun'⟩ := hbuild k hk (by omega)
        rw [hrun] at hrun'
        have hrest : cstr.drop (treeBytes c k) = [] := by
          simp only [Option.some.injEq, Prod.mk.injEq] at hrun'
          exact hrun'.2.1.symm
        have := List.drop_eq_nil_iff.mp hrest
        have := hleast k hk (by omega)
        omega

end build

/-! ## the bound -/

/-- `shtring_create` allocates no more than `shtring_create_max_allocation` says, and
the height of the tree is the least at which `build_tree` takes in the whole array. -/
theorem shtring_create_allocation {c firstGenerationSize : Nat} (aligned : Bool) {m : Memory}
    {cstr : List Nat} (hc : 0 < c) (hfour : 4 ∣ c) (hfield : c < 2 ^ 24)
    (hsize : firstGenerationSize < 2 ^ 32)
    (hcan : m.canAllocate (shtringCreateMaxAllocationOf c cstr.length)) :
    (∃ shtr m', shtringCreateOf c firstGenerationSize aligned m cstr = some (shtr, m') ∧
      m.allocationPtr ≤ m'.allocationPtr + shtringCreateMaxAllocationOf c cstr.length) ∧
    (cstr.length ≤ firstGenerationSize / 2 →
      IsLeast {h | ∃ p m', buildTreeOf c aligned h m cstr = some (p, [], m')}
        (shtringTreeSizeOf c cstr.length).1) := by
  constructor
  · by_cases hlen : cstr.length ≤ firstGenerationSize / 2
    · obtain ⟨shtr, m', hrun, hptr⟩ := shtringCreateOf_sized aligned hc hfour hfield hsize hlen hcan
      exact ⟨some shtr, m', hrun, Nat.le_of_eq hptr.symm⟩
    · refine ⟨none, m, ?_, Nat.le_add_right _ _⟩
      unfold shtringCreateOf
      rw [if_pos (by omega)]
  · intro hlen
    exact buildTreeOf_height aligned hc hfour hfield (by omega) hcan

/-- Five bytes in chunks of four. -/
theorem shtring_create_allocation_five :
    (∃ shtr m',
      shtringCreateOf 4 500 false (smallMemory []) [97, 98, 99, 100, 101] = some (shtr, m') ∧
      (smallMemory []).allocationPtr ≤ m'.allocationPtr + shtringCreateMaxAllocationOf 4 5) ∧
    (5 ≤ 500 / 2 →
      IsLeast {h | ∃ p m', buildTreeOf 4 false h (smallMemory []) [97, 98, 99, 100, 101] =
        some (p, [], m')} (shtringTreeSizeOf 4 5).1) := by
  have hsize : shtringTreeSizeOf 4 5 = (2, 14) := by
    simp [shtringTreeSizeOf, treeSizeLoop, shtringIdiv, add32, sub32, maxShtringNodeChildren,
      shtringWords]
  refine shtring_create_allocation false (by decide) (by decide) (by decide) (by decide) ?_
  show (smallMemory []).canAllocate (shtringTreeSizeOf 4 5).2
  rw [hsize]
  decide

end Shades
