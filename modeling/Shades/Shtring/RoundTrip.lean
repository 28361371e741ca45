import Shades.Shtring.Create

/-!
# Shades.Shtring.RoundTrip

`find_chunk` leads to the chunk with a position, so that `shtring_charat` reads
the bytes of the text one by one, and `shtring_create` gives a shtring from
which the bytes of the array are read back.
-/

namespace Shades

section read

variable {words : Nat → Nat} {S : Nat → Prop} {h p : Nat} {chunks : List Chunk}

/-- `find_chunk` looks for the position in the children that are left. -/
theorem findChild_spec {done more : List (Nat × List Chunk)} {base pos : Nat}
    (hn : ShtringNodeAt words S h p (done ++ more))
    (htrees : ∀ kid ∈ done ++ more, TreeAt words S h kid.1 kid.2)
    (hlow : base + (kidsText done).length ≤ pos)
    (hhigh : pos < base + (kidsText (done ++ more)).length)
    (hfit : base + (kidsText (done ++ more)).length < 2 ^ 32) :
    ∃ kid ∈ done ++ more, ∃ pre post, kidsText (done ++ more) = pre ++ textOf kid.2 ++ post ∧
      findChild words (if h + 1 = 2 then shtringChunkLength else shtringNodeLength) p pos
        more.length (done.length + 1) (base + (kidsText done).length) =
          some (kid.1, base + pre.length) ∧
      base + pre.length ≤ pos ∧ pos < base + pre.length + (textOf kid.2).length := by
  induction more generalizing done with
  | nil =>
    rw [List.append_nil] at hhigh
    omega
  | cons kid more ih =>
    have hkid : shtringNodeChild words p (done.length + 1) = kid.1 := by
      rw [hn.child (by simp)]
      simp
    have hmem : kid ∈ done ++ kid :: more := by simp
    have htext : kidsText (done ++ kid :: more) =
        kidsText done ++ textOf kid.2 ++ kidsText more := by simp
    have hlen : (kidsText (done ++ kid :: more)).length =
        (kidsText done).length + (textOf kid.2).length + (kidsText more).length := by
      rw [htext, List.length_append, List.length_append]
    rw [List.length_cons, findChild, hkid]
    simp only [(htrees kid hmem).kidLength]
    rw [add32_of_lt (by omega)]
    by_cases hfound : pos < base + (kidsText done).length + (textOf kid.2).length
    · rw [if_pos hfound]
      exact ⟨kid, hmem, kidsText done, kidsText more, htext, rfl, hlow, hfound⟩
    · rw [if_neg hfound]
      have happend : done ++ kid :: more = done ++ [kid] ++ more := by simp
      have hstart : base + (kidsText done).length + (textOf kid.2).length =
          base + (kidsText (done ++ [kid])).length := by
        simp only [kidsText_append, kidsText_cons, kidsText_nil, List.append_nil,
          List.length_append]
        omega
      have hlength : done.length + 1 + 1 = (done ++ [kid]).length + 1 := by simp
      rw [happend] at hn htrees hhigh hfit ⊢
      rw [hstart, hlength]
      exact ih hn htrees (by omega) hhigh hfit

/-- The loop of `find_chunk` over the levels of a tree. -/
theorem findChunkLoop_spec (ht : TreeAt words S h p chunks) {base pos : Nat} (hlow : base ≤ pos)
    (hhigh : pos < base + (textOf chunks).length) (hfit : base + (textOf chunks).length < 2 ^ 32) :
    ∃ c ∈ chunks, ∃ pre post, textOf chunks = pre ++ c.2 ++ post ∧
      findChunkLoop words pos h p base = some (c.1, base + pre.length) ∧
      base + pre.length ≤ pos ∧ pos < base + pre.length + c.2.length := by
  induction ht generalizing base with
  | @chunk p bytes hchunk =>
    exact ⟨(p, bytes), List.mem_singleton_self _, [], [], by simp, rfl, hlow, by simpa using hhigh⟩
  | @node p h kids hnode htrees ih =>
    have htext : kidsText kids = textOf (kids.map Prod.snd).flatten := rfl
    obtain ⟨kid, hkid, pre, post, hsplit, hfind, hlow', hhigh'⟩ := @findChild_spec words S h p
      [] kids base pos hnode htrees hlow hhigh hfit
    rw [List.nil_append] at hkid hsplit
    rw [List.length_nil, kidsText_nil, List.length_nil, Nat.add_zero, Nat.zero_add] at hfind
    have hpos := (htrees kid hkid).height_pos
    obtain ⟨h, rfl⟩ : ∃ k, h = k + 1 := ⟨h - 1, by omega⟩
    have hfind' : findChild words (if h + 2 = 2 then shtringChunkLength else shtringNodeLength) p
      pos kids.length 1 base = some (kid.1, base + pre.length) := hfind
    have hlen : (textOf (kids.map Prod.snd).flatten).length =
        pre.length + (textOf kid.2).length + post.length := by
      rw [← htext, hsplit, List.length_append, List.length_append]
    obtain ⟨c, hc, pre', post', hsplit', hloop, hlow'', hhigh''⟩ := ih kid hkid hlow'
      hhigh' (by omega)
    refine ⟨c, List.mem_flatten.mpr ⟨kid.2, List.mem_map_of_mem hkid, hc⟩, pre ++ pre',
      post' ++ post, ?_, ?_, ?_, ?_⟩
    · rw [← htext, hsplit, hsplit']
      simp
    · rw [findChunkLoop, hnode.count, hfind']
      simp only [Option.bind_eq_bind, Option.bind_some]
      rw [assert_true (htrees kid hkid).treeHeight.symm, List.length_append, ← Nat.add_assoc]
      exact hloop
    · rw [List.length_append]
      omega
    · rw [List.length_append]
      omega

/-- `find_chunk`. -/
theorem findChunk_spec (ht : TreeAt words S h p chunks) (hfit : (textOf chunks).length < 2 ^ 32)
    {pos : Nat} (hpos : pos < (textOf chunks).length) :
    ∃ c ∈ chunks, ∃ pre post, textOf chunks = pre ++ c.2 ++ post ∧
      findChunk words p pos = some (c.1, pre.length) ∧ pre.length ≤ pos ∧
      pos < pre.length + c.2.length := by
  obtain ⟨c, hc, pre, post, hsplit, hloop, hlow, hhigh⟩ := findChunkLoop_spec ht
    (Nat.zero_le pos) (by omega) (by omega)
  rw [Nat.zero_add] at hloop hlow hhigh
  refine ⟨c, hc, pre, post, hsplit, ?_, hlow, hhigh⟩
  unfold findChunk
  rw [ht.treeLength, assert_true hpos, ht.treeHeight, hloop]
  simp only [Option.bind_eq_bind, Option.bind_some]
  rw [assert_true (ht.chunkAt c hc).type]
  rfl

/-- `shtring_charat` reads a byte of the text. -/
theorem shtringCharat_eq {off len pos b : Nat} (signed : Bool)
    (hs : ShtringAt words S p chunks off len) (hpos : pos < len)
    (hb : (windowText chunks off len)[pos]? = some b) :
    shtringCharat signed words p pos = some (intOfChar signed b) := by
  have hwindow := hs.window
  have hfit := hs.fit
  rcases hs.tree with ⟨-, -, rfl⟩ | ht
  · simp only [textOf_nil, List.length_nil] at hwindow
    omega
  obtain ⟨c, hc, pre, post, hsplit, hfind, hlow, hhigh⟩ := findChunk_spec ht hs.fit
    (show pos + off < (textOf chunks).length by omega)
  have hchunk := ht.chunkAt c hc
  have hmax := hchunk.le_max
  have hbyte : c.2[pos + off - pre.length]? = some b := by
    rw [windowText, List.getElem?_take, if_pos hpos, List.getElem?_drop, hsplit, List.append_assoc,
      List.getElem?_append_right (by omega), List.getElem?_append_left (by omega)] at hb
    rwa [Nat.add_comm pos off]
  have hsub : sub32 (pos + off) pre.length = pos + off - pre.length := sub32_of_le hlow (by omega)
  have hin : sub32 (pos + off) pre.length + 1 ≤ shtringChunkLength words c.1 := by
    rw [hsub, hchunk.length]
    omega
  have hread : (copyChunkToCstr words c.1 (sub32 (pos + off) pre.length) 1).headD 0 = b := by
    rw [hsub, copyChunkToCstr_eq, hchunk.chunkBytes_eq (by omega)]
    simp [List.take_one, List.head?_drop, hbyte]
  unfold shtringCharat
  rw [hs.length, assert_true hpos, hs.offset, add32_of_lt (by omega)]
  simp only [Option.bind_eq_bind, Option.bind_some]
  rw [hfind, Option.bind_some]
  rw [assert_true hin, ← hread]
  rfl

end read

/-- `shtring_create` refuses an array that is longer than half of the first
generation.  From the shtring that it makes of any other array the bytes are
read back, in pieces and one by one. -/
theorem shtring_roundTrip {m : Memory} {cstr : List Nat} {firstGenerationSize : Nat}
    (aligned signed : Bool) (hbytes : AreBytes cstr) (hsize : firstGenerationSize < 2 ^ 32)
    (hcan : m.canAllocate (shtringCreateMaxAllocation cstr.length)) :
    (firstGenerationSize / 2 < cstr.length →
      shtringCreate firstGenerationSize aligned m cstr = some (none, m)) ∧
    (cstr.length ≤ firstGenerationSize / 2 → ∃ shtr m' chunks,
      shtringCreate firstGenerationSize aligned m cstr = some (some shtr, m') ∧ m.Extends m' ∧
      ShtringAt m'.words m'.Live shtr chunks 0 cstr.length ∧ textOf chunks = cstr ∧
      (∀ pos n, pos + n ≤ cstr.length →
        shtringStrat m'.words shtr pos n = some ((cstr.drop pos).take n)) ∧
      ∀ pos b, cstr[pos]? = some b →
        shtringCharat signed m'.words shtr pos = some (intOfChar signed b)) := by
  constructor
  · intro hlong
    exact if_pos hlong
  · intro hlen
    obtain ⟨shtr, m', chunks, hrun, hext, hs, htext⟩ := shtringCreate_spec aligned hbytes hsize hlen
      hcan
    refine ⟨shtr, m', chunks, hrun, hext, hs, htext, fun pos n hn => ?_, fun pos b hb => ?_⟩
    · rw [shtringStrat_eq hs hn, windowText, htext, Nat.zero_add]
    · have hpos : pos < cstr.length := (List.getElem?_eq_some_iff.mp hb).1
      refine shtringCharat_eq signed hs hpos ?_
      rw [windowText, htext, List.drop_zero, List.take_length, hb]

/-- Five bytes, the last of which is a negative `char`. -/
theorem shtring_roundTrip_five : ∃ shtr m',
    shtringCreate 1000 true (smallMemory []) [97, 98, 99, 100, 200] = some (some shtr, m') ∧
      shtringStrat m'.words shtr 1 4 = some [98, 99, 100, 200] ∧
      shtringCharat true m'.words shtr 4 = some (-56) := by
  have hwords : shtringCreateMaxAllocation 5 = 8 := by
    have hchunks : shtringIdiv 5 shtringChunkMax = 1 ∧ shtringIdiv 5 4 = 2 := by decide
    simp only [shtringCreateMaxAllocation, shtringCreateMaxAllocationOf, shtringTreeSizeOf,
      hchunks.1, hchunks.2, treeSizeLoop_done (show ¬ 1 < 1 by decide)]
    decide
  have hcan : (smallMemory []).canAllocate (shtringCreateMaxAllocation 5) := by
    rw [hwords]
    decide
  obtain ⟨shtr, m', -, hrun, -, -, -, hstrat, hcharat⟩ :=
    (@shtring_roundTrip (smallMemory []) [97, 98, 99, 100, 200] 1000 true true
      (by unfold AreBytes; decide) (by decide) hcan).2
      (by decide)
  exact ⟨shtr, m', hrun, hstrat 1 4 (by decide), hcharat 4 200 rfl⟩

end Shades
