import Shades.Shtring.RoundTrip
import Shades.Shtring.WindowCode

/-!
# Shades.Shtring.Slice

`minimal_subtree` leads to a subtree that has the whole window, provided that
the window does not start where the text of the tree ends: then no child of a
node has the start, and the search goes past the last one.  `shtring_copy` is
right for the other slices.
-/

namespace Shades

/-! ## the search for the child -/

section minimal

variable {words : Nat → Nat} {S : Nat → Prop} {h p start len : Nat} {chunks : List Chunk}

/-- A search that goes past the last child. -/
theorem minimalChild_past {done more : List (Nat × List Chunk)}
    (hn : ShtringNodeAt words S h p (done ++ more))
    (htrees : ∀ kid ∈ done ++ more, TreeAt words S h kid.1 kid.2)
    (hstart : (kidsText more).length ≤ start) (hfit : start < 2 ^ 32) :
    minimalChild words (if h + 1 = 2 then shtringChunkLength else shtringNodeLength) p
      more.length (done.length + 1) start = none := by
  induction more generalizing done start with
  | nil => rfl
  | cons kid more ih =>
    have hmem : kid ∈ done ++ kid :: more := by simp
    have hkid : shtringNodeChild words p (done.length + 1) = kid.1 := by
      rw [hn.child (by simp)]
      simp
    rw [kidsText_cons, List.length_append] at hstart
    rw [List.length_cons, minimalChild, hkid]
    simp only [(htrees kid hmem).kidLength]
    rw [if_neg (by omega), sub32_of_le (by omega) hfit]
    have hlength : done.length + 1 + 1 = (done ++ [kid]).length + 1 := by simp
    rw [List.append_cons] at hn htrees
    rw [hlength]
    exact ih hn htrees (by omega) (by omega)

/-- A search that finds the child with the start. -/
theorem minimalChild_spec {done more : List (Nat × List Chunk)}
    (hn : ShtringNodeAt words S h p (done ++ more))
    (htrees : ∀ kid ∈ done ++ more, TreeAt words S h kid.1 kid.2)
    (hstart : start < (kidsText more).length) (hfit : start < 2 ^ 32) :
    ∃ pre kid post, more = pre ++ kid :: post ∧
      minimalChild words (if h + 1 = 2 then shtringChunkLength else shtringNodeLength) p
        more.length (done.length + 1) start =
          some (done.length + pre.length + 1, kid.1, (textOf kid.2).length,
            start - (kidsText pre).length) ∧
      (kidsText pre).length ≤ start ∧ start - (kidsText pre).length < (textOf kid.2).length := by
  induction more generalizing done start with
  | nil => exact absurd hstart (Nat.not_lt_zero _)
  | cons kid more ih =>
    have hmem : kid ∈ done ++ kid :: more := by simp
    have hkid : shtringNodeChild words p (done.length + 1) = kid.1 := by
      rw [hn.child (by simp)]
      simp
    rw [kidsText_cons, List.length_append] at hstart
    rw [List.length_cons, minimalChild, hkid]
    simp only [(htrees kid hmem).kidLength]
    by_cases hfound : start < (textOf kid.2).length
    · rw [if_pos hfound]
      exact ⟨[], kid, more, rfl, by simp, Nat.zero_le _, by simpa using hfound⟩
    · have hlength : done.length + 1 + 1 = (done ++ [kid]).length + 1 := by simp
      rw [List.append_cons] at hn htrees
      obtain ⟨pre, kid', post, rfl, hrun, hle, hlt⟩ := ih hn htrees
        (show start - (textOf kid.2).length < _ by omega) (by omega)
      rw [if_neg hfound, sub32_of_le (by omega) hfit, hlength, hrun]
      refine ⟨kid :: pre, kid', post, rfl, ?_, ?_, ?_⟩
      · simp only [kidsText_cons, List.length_append, List.length_cons, List.length_nil]
        rw [Nat.sub_sub, show done.length + (0 + 1) + pre.length = done.length + (pre.length + 1)
          by omega]
      · rw [kidsText_cons, List.length_append]
        omega
      · rw [kidsText_cons, List.length_append]
        omega

/-! ## the minimal subtree -/

/-- The position `start'` in `chunks'` is the position `start` in `chunks`, which has
them in it. -/
def SamePlace (chunks' : List Chunk) (start' : Nat) (chunks : List Chunk) (start : Nat) : Prop :=
  ∃ pre post, chunks = pre ++ chunks' ++ post ∧ (textOf pre).length + start' = start

theorem SamePlace.refl (chunks : List Chunk) (start : Nat) : SamePlace chunks start chunks start :=
  ⟨[], [], by simp, by simp⟩

theorem SamePlace.trans {chunks₁ chunks₂ chunks₃ : List Chunk} {start₁ start₂ start₃ : Nat}
    (h₁ : SamePlace chunks₁ start₁ chunks₂ start₂) (h₂ : SamePlace chunks₂ start₂ chunks₃ start₃) :
    SamePlace chunks₁ start₁ chunks₃ start₃ := by
  obtain ⟨pre₁, post₁, rfl, hstart₁⟩ := h₁
  obtain ⟨pre₂, post₂, rfl, hstart₂⟩ := h₂
  refine ⟨pre₂ ++ pre₁, post₁ ++ post₂, by simp, ?_⟩
  rw [textOf_append, List.length_append]
  omega

theorem SamePlace.length_le {chunks' : List Chunk} {start' : Nat}
    (h : SamePlace chunks' start' chunks start) :
    (textOf chunks').length ≤ (textOf chunks).length := by
  obtain ⟨pre, post, rfl, -⟩ := h
  rw [textOf_append, textOf_append, List.length_append, List.length_append]
  omega

/-- A window that is in the part has the same text. -/
theorem SamePlace.windowText {chunks' : List Chunk} {start' : Nat}
    (h : SamePlace chunks' start' chunks start) (hin : start' + len ≤ (textOf chunks').length) :
    windowText chunks' start' len = windowText chunks start len := by
  obtain ⟨pre, post, rfl, rfl⟩ := h
  unfold Shades.windowText
  rw [textOf_append, textOf_append, List.append_assoc, List.drop_append,
    List.drop_of_length_le (Nat.le_add_right _ _), List.nil_append, Nat.add_sub_cancel_left,
    List.drop_append_of_le_length (by omega), List.take_append_of_le_length]
  rw [List.length_drop]
  omega

/-- The descent of `minimal_subtree` from a tree that has the window, which
starts before the end of its text. -/
theorem minimalLoop_spec (ht : TreeAt words S h p chunks)
    (hstart : start < (textOf chunks).length) (hwindow : start + len ≤ (textOf chunks).length)
    (hfit : (textOf chunks).length < 2 ^ 32) :
    ∃ q start' h' chunks', minimalLoop words len h p start = some (q, start') ∧
      TreeAt words S h' q chunks' ∧ start' + len ≤ (textOf chunks').length ∧
      SamePlace chunks' start' chunks start := by
  induction ht generalizing start with
  | @chunk p bytes hchunk =>
    exact ⟨p, start, 1, [(p, bytes)], rfl, .chunk hchunk, hwindow, .refl _ _⟩
  | @node p h kids hnode htrees ih =>
    obtain ⟨pre, kid, post, rfl, hrun, hle, hlt⟩ := @minimalChild_spec words S h p start
      [] kids hnode htrees hstart (by omega)
    have hmem : kid ∈ pre ++ kid :: post := by simp
    have hpos := (htrees kid hmem).height_pos
    obtain ⟨h, rfl⟩ : ∃ k, h = k + 1 := ⟨h - 1, by omega⟩
    have hrun' : minimalChild words (if h + 2 = 2 then shtringChunkLength else shtringNodeLength) p
        (pre ++ kid :: post).length 1 start = some (pre.length + 1, kid.1, (textOf kid.2).length,
          start - (kidsText pre).length) := by
      simpa using hrun
    have htext : textOf ((pre ++ kid :: post).map Prod.snd).flatten =
        kidsText pre ++ textOf kid.2 ++ kidsText post := by
      simp [kidsText]
    have hlen := congrArg List.length htext
    rw [List.length_append, List.length_append] at hlen
    rw [minimalLoop, hnode.count, hrun']
    simp only [Option.bind_eq_bind, Option.bind_some, (htrees kid hmem).treeLength, assert_true]
    rw [add32_of_lt (by omega)]
    by_cases hstay : pre.length + 1 < (pre ++ kid :: post).length ∧
        (textOf kid.2).length < start - (kidsText pre).length + len
    · rw [if_pos hstay]
      exact ⟨p, start, _, _, rfl, .node hnode htrees, hwindow, .refl _ _⟩
    · -- the last child has everything up to the end of the text
      have hin : start - (kidsText pre).length + len ≤ (textOf kid.2).length := by
        rcases Decidable.not_and_iff_or_not.mp hstay with hlast | hfits
        · have hpost : post = [] := by
            rw [List.length_append, List.length_cons] at hlast
            exact List.eq_nil_of_length_eq_zero (by omega)
          subst hpost
          rw [kidsText_nil, List.length_nil] at hlen
          omega
        · omega
      rw [if_neg hstay, assert_true (htrees kid hmem).treeHeight.symm, assert_true (by omega),
        assert_true (by omega), assert_true hin]
      simp only [Option.bind_some]
      obtain ⟨q, start', h', chunks', hloop, ht', hwindow', hplace⟩ :=
        ih kid hmem hlt hin (by omega)
      refine ⟨q, start', h', chunks', hloop, ht', hwindow', hplace.trans ?_⟩
      refine ⟨(pre.map Prod.snd).flatten, (post.map Prod.snd).flatten, by simp, ?_⟩
      exact Nat.add_sub_cancel' hle

/-- `minimal_subtree`, where the window starts before the end of the text or the
tree has no nodes. -/
theorem minimalSubtree_spec
    (ht : (h = 0 ∧ p = nullPtr ∧ chunks = []) ∨ TreeAt words S h p chunks)
    (hin : start < (textOf chunks).length ∨ h ≤ 1) (hwindow : start + len ≤ (textOf chunks).length)
    (hfit : (textOf chunks).length < 2 ^ 32) :
    ∃ q start' h' chunks', minimalSubtree words p start len = some (q, start') ∧
      ((h' = 0 ∧ q = nullPtr ∧ chunks' = []) ∨ TreeAt words S h' q chunks') ∧
      start' + len ≤ (textOf chunks').length ∧ SamePlace chunks' start' chunks start := by
  have hlength : shtringTreeLength words p = (textOf chunks).length := by
    rcases ht with ⟨-, rfl, rfl⟩ | ht
    · rfl
    · exact ht.treeLength
  have hheight : shtringTreeHeight words p = h := by
    rcases ht with ⟨rfl, rfl, -⟩ | ht
    · rfl
    · exact ht.treeHeight
  unfold minimalSubtree
  rw [hlength, hheight, assert_true (by omega), assert_true (by omega),
    assert_true (by rw [add32_of_lt (by omega)]; exact hwindow)]
  simp only [Option.bind_eq_bind, Option.bind_some]
  rcases hin with hin | hin
  · rcases ht with ⟨-, -, rfl⟩ | ht
    · exact absurd hin (Nat.not_lt_zero _)
    · obtain ⟨q, start', h', chunks', hrun, ht', hrest⟩ := minimalLoop_spec ht hin hwindow hfit
      exact ⟨q, start', h', chunks', hrun, .inr ht', hrest⟩
  · refine ⟨p, start, h, chunks, ?_, ht, hwindow, .refl _ _⟩
    rcases (by omega : h = 0 ∨ h = 1) with rfl | rfl <;> rfl

/-- Where the window starts at the end of the text of a tree with nodes, the
search goes past the children of the root. -/
theorem minimalSubtree_past (ht : TreeAt words S h p chunks) (hh : 1 < h)
    (hstart : start = (textOf chunks).length) (hfit : (textOf chunks).length < 2 ^ 32) :
    minimalSubtree words p start len = none := by
  obtain ⟨h', kids, rfl, hpos, rfl, hnode, htrees⟩ := ht.node_of_one_lt hh
  obtain ⟨h', rfl⟩ : ∃ k, h' = k + 1 := ⟨h' - 1, by omega⟩
  have hpast := @minimalChild_past words S (h' + 1) p start [] kids hnode htrees hstart.ge
    (by omega)
  unfold minimalSubtree
  rw [ht.treeHeight, minimalLoop, hnode.count]
  rw [List.length_nil] at hpast
  rw [hpast]
  cases assert (start ≤ shtringTreeLength words p) <;>
    cases assert (len ≤ shtringTreeLength words p) <;>
    cases assert (add32 start len ≤ shtringTreeLength words p) <;> rfl

end minimal

/-! ## shtring_copy -/

section copy

variable {m : Memory} {s off len start n : Nat} {chunks : List Chunk}

/-- A new shtring for a window that starts before the end of the text, or in a tree
without nodes. -/
theorem ShtringAt.subWindow (hs : ShtringAt m.words m.Live s chunks off len) {k : Nat}
    (hin : start < (textOf chunks).length ∨ shtringHeight m.words s ≤ 1)
    (hwindow : start + n ≤ (textOf chunks).length) (hcan : m.canAllocate (k + shtringWords)) :
    ∃ q m' chunks' start', ((minimalSubtree m.words (shtringChunkTree m.words s) start n).bind
        fun r => shtringNewShtring m r.2 n (shtringTreeHeight m.words r.1) r.1) = some (q, m') ∧
      m.Extends m' ∧ m'.canAllocate k ∧ ShtringAt m'.words m'.Live q chunks' start' n ∧
      SamePlace chunks' start' chunks start := by
  obtain ⟨p, start', h', chunks', hsub, ht', hwindow', hplace⟩ :=
    minimalSubtree_spec hs.tree hin hwindow hs.fit
  have hheight : shtringTreeHeight m.words p = h' := by
    rcases ht' with ⟨rfl, rfl, -⟩ | ht'
    · rfl
    · exact ht'.treeHeight
  obtain ⟨q, m', hnew, hext, hs'⟩ := shtringNewShtring_spec start' n ht'
    (Nat.lt_of_le_of_lt hplace.length_le hs.fit) hwindow'
    (Memory.canAllocate_mono hcan (Nat.le_add_left _ _))
  refine ⟨q, m', chunks', start', ?_, hext, shtringNewShtring_canAllocate hnew hcan, hs', hplace⟩
  rw [hsub, Option.bind_some, hheight, hnew]

/-- `shtring_copy` makes a shtring with the slice, and everything else is as it
was. -/
def CopiesSlice (m : Memory) (s start n : Nat) (slice : List Nat) : Prop :=
  ∃ q m' chunks off, shtringCopy m s start n = some (q, m') ∧ m.Extends m' ∧
    ShtringAt m'.words m'.Live q chunks off n ∧ windowText chunks off n = slice

/-- A part of the text of a window. -/
theorem slice_windowText (hn : start + n ≤ len) :
    ((windowText chunks off len).drop start).take n = windowText chunks (off + start) n := by
  unfold windowText
  rw [List.drop_take, List.take_take, List.drop_drop, Nat.min_eq_left (by omega)]

/-- `shtring_copy` is right unless the tree has nodes and the slice, which is then
empty, starts where the text of the tree ends. -/
theorem shtring_copy_slice (hs : ShtringAt m.words m.Live s chunks off len)
    (hslice : start + n ≤ len) (hcan : m.canAllocate shtringWords) :
    CopiesSlice m s start n (((windowText chunks off len).drop start).take n) ↔
      ¬ (1 < shtringHeight m.words s ∧ off + start = (textOf chunks).length) := by
  have hwindow := hs.window
  have hfit := hs.fit
  have hrun : shtringCopy m s start n = (minimalSubtree m.words (shtringChunkTree m.words s)
      (off + start) n).bind fun r =>
        shtringNewShtring m r.2 n (shtringTreeHeight m.words r.1) r.1 := by
    unfold shtringCopy
    rw [hs.length, hs.offset, assert_true (by omega), assert_true (by omega),
      assert_true (by rw [add32_of_lt (by omega)]; exact hslice), add32_of_lt (by omega)]
    rfl
  unfold CopiesSlice
  rw [hrun, slice_windowText hslice]
  constructor
  · rintro ⟨q, m', chunks', off', hcopy, -⟩ ⟨hh, hend⟩
    have ht := hs.tree.resolve_left (fun h => absurd h.1 (by omega))
    rw [minimalSubtree_past ht hh hend hfit] at hcopy
    cases hcopy
  · intro hok
    obtain ⟨q, m', chunks', start', hcopy, hext, -, hs', hplace⟩ :=
      @ShtringAt.subWindow m s off len (off + start) n chunks hs 0 (by omega) (by omega)
        (by rwa [Nat.zero_add])
    exact ⟨q, m', chunks', start', hcopy, hext, hs', hplace.windowText hs'.window⟩

end copy

/-- A tree of the chunks "ab" and "cd", with the whole of it at `40`, "bc" at `50` and
"cd" at `60`. -/
def twoChunks : Memory := smallMemory [
    (10, CellType.shtringChunk.header + 2),
    (11, 0x61620000),
    (14, CellType.shtringChunk.header + 2),
    (15, 0x63640000),
    (20, CellType.shtringNode.header + 2),
    (21, 4),
    (22, 2),
    (23, ptrToWord 10),
    (24, ptrToWord 14),
    (40, CellType.shtring.header),
    (41, 0),
    (42, 4),
    (43, 2),
    (44, ptrToWord 20),
    (50, CellType.shtring.header),
    (51, 1),
    (52, 2),
    (53, 2),
    (54, ptrToWord 20),
    (60, CellType.shtring.header),
    (61, 2),
    (62, 2),
    (63, 2),
    (64, ptrToWord 20)]

theorem twoChunks_chunk {p : Nat} {bytes : List Nat} (hp : p ≠ nullPtr ∧ p < 90 ∧
    cellType (twoChunks.words p) = CellType.shtringChunk.code ∧
    shtringChunkLength twoChunks.words p = bytes.length ∧ 0 < bytes.length ∧ bytes.length ≤ 4 ∧
    bytes = chunkBytes twoChunks.words p 0 bytes.length)
    (hlt : ∀ i < 2, twoChunks.words (p + i) < 2 ^ 32) :
    TreeAt twoChunks.words twoChunks.Live 1 p [(p, bytes)] := by
  obtain ⟨hnull, hbelow, htype, hlength, hpos, hmax, hbytes⟩ := hp
  have hneeded : shtringChunkWordsNeeded bytes.length = 2 := by
    unfold shtringChunkWordsNeeded
    omega
  have hend : twoChunks.firstGenerationEnd = 100 := rfl
  exact .chunk
    { ne_null := hnull
      type := htype
      length := hlength
      pos := hpos
      le_max := by unfold shtringChunkMax; omega
      region := fun i hi => .inl (by omega)
      word_lt := fun i hi => hlt i (by omega)
      bytes_eq := hbytes }

theorem twoChunks_tree : TreeAt twoChunks.words twoChunks.Live 2 20
    [(10, [0x61, 0x62]), (14, [0x63, 0x64])] := by
  have hab : TreeAt twoChunks.words twoChunks.Live 1 10 [(10, [0x61, 0x62])] :=
    twoChunks_chunk (by decide) (by decide)
  have hcd : TreeAt twoChunks.words twoChunks.Live 1 14 [(14, [0x63, 0x64])] :=
    twoChunks_chunk (by decide) (by decide)
  have hend : twoChunks.firstGenerationEnd = 100 := rfl
  have hnode : ShtringNodeAt twoChunks.words twoChunks.Live 1 20
      [(10, [(10, [0x61, 0x62])]), (14, [(14, [0x63, 0x64])])] :=
    { ne_null := by decide
      type := by decide
      ne_nil := List.cons_ne_nil _ _
      le_max := by decide
      count := by decide
      height := by decide
      length := by decide
      fit := by decide
      region := fun i hi => .inl (by simp only [List.length_cons, List.length_nil] at hi; omega)
      ptrs := by decide }
  refine .node hnode fun kid hkid => ?_
  rcases List.mem_cons.mp hkid with rfl | hkid
  · exact hab
  · obtain rfl := List.mem_singleton.mp hkid
    exact hcd

theorem twoChunks_shtring {s off len : Nat} (hs : s ≠ nullPtr ∧ s < 90 ∧
    cellType (twoChunks.words s) = CellType.shtring.code ∧ shtringOffset twoChunks.words s = off ∧
    shtringLength twoChunks.words s = len ∧ shtringHeight twoChunks.words s = 2 ∧
    shtringChunkTree twoChunks.words s = 20 ∧ off + len ≤ 4) :
    ShtringAt twoChunks.words twoChunks.Live s
      [(10, [0x61, 0x62]), (14, [0x63, 0x64])] off len := by
  obtain ⟨hnull, hbelow, htype, hoff, hlen, hheight, htree, hwindow⟩ := hs
  have hend : twoChunks.firstGenerationEnd = 100 := rfl
  exact
    { ne_null := hnull
      type := htype
      offset := hoff
      length := hlen
      region := fun i hi => .inl (by unfold shtringWords at hi; omega)
      window := hwindow
      fit := by decide
      tree := .inr (by rw [hheight, htree]; exact twoChunks_tree) }

theorem twoChunks_abcd : ShtringAt twoChunks.words twoChunks.Live 40
    [(10, [0x61, 0x62]), (14, [0x63, 0x64])] 0 4 :=
  twoChunks_shtring (by decide)

theorem twoChunks_bc : ShtringAt twoChunks.words twoChunks.Live 50
    [(10, [0x61, 0x62]), (14, [0x63, 0x64])] 1 2 :=
  twoChunks_shtring (by decide)

theorem twoChunks_cd : ShtringAt twoChunks.words twoChunks.Live 60
    [(10, [0x61, 0x62]), (14, [0x63, 0x64])] 2 2 :=
  twoChunks_shtring (by decide)

/-- The slice "c" of "bc". -/
theorem shtring_copy_slice_c : CopiesSlice twoChunks 50 1 1 [0x63] :=
  (shtring_copy_slice twoChunks_bc (by decide) (by decide)).mpr (by decide)

/-- The empty slice at the end of "abcd" is not made. -/
theorem shtring_copy_empty_at_end :
    ShtringAt twoChunks.words twoChunks.Live 40 [(10, [0x61, 0x62]), (14, [0x63, 0x64])] 0 4 ∧
    twoChunks.canAllocate shtringWords ∧ ¬ CopiesSlice twoChunks 40 4 0 [] := by
  refine ⟨twoChunks_abcd, by decide, ?_⟩
  rintro ⟨q, m', chunks, off, hcopy, -⟩
  have hnone : (shtringCopy twoChunks 40 4 0).isNone = true := by decide +kernel
  rw [hcopy] at hnone
  cases hnone

end Shades
