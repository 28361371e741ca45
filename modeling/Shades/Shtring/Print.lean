import Shades.Shtring.Slice

/-!
# Shades.Shtring.Print

`shtring_fprint` leaves out the offset of the window: it writes as many bytes as
the shtring has, from the first byte of the chunk tree on.
-/

namespace Shades

section print

variable {words : Nat → Nat} {S : Nat → Prop} {p off len : Nat} {chunks : List Chunk}

/-! ## bytes -/

theorem wordByte_lt (w i : Nat) : wordByte w i < 256 := by
  have hmask : (0xFF : Nat) = 2 ^ 8 - 1 := rfl
  rw [wordByte, hmask, and_mask]
  exact Nat.mod_lt _ (by decide)

/-- The text of a shtring is made of bytes. -/
theorem ShtringAt.areBytes (hs : ShtringAt words S p chunks off len) :
    AreBytes (textOf chunks) := by
  intro b hb
  obtain ⟨c, hc, hb⟩ := List.mem_flatMap.mp hb
  rw [(hs.chunkAt c hc).bytes_eq] at hb
  obtain ⟨i, -, rfl⟩ := List.mem_map.mp hb
  exact wordByte_lt _ _

theorem ShtringAt.areBytes_window (hs : ShtringAt words S p chunks off len) (start n : Nat) :
    AreBytes (windowText chunks start n) :=
  (hs.areBytes.drop start).take n

theorem intOfChar_inj (signed : Bool) {b b' : Nat} (hb : b < 256) (hb' : b' < 256) :
    intOfChar signed b = intOfChar signed b' ↔ b = b' := by
  unfold intOfChar
  constructor
  · intro h
    split at h <;> split at h <;> omega
  · rintro rfl
    rfl

theorem map_intOfChar_inj (signed : Bool) {t t' : List Nat} (ht : AreBytes t) (ht' : AreBytes t') :
    t.map (intOfChar signed) = t'.map (intOfChar signed) ↔ t = t' := by
  induction t generalizing t' with
  | nil => cases t' <;> simp
  | cons b t ih =>
    cases t' with
    | nil => simp
    | cons b' t' =>
      have hb := intOfChar_inj signed (ht b List.mem_cons_self) (ht' b' List.mem_cons_self)
      have hrest := ih (fun x hx => ht x (List.mem_cons_of_mem _ hx))
        fun x hx => ht' x (List.mem_cons_of_mem _ hx)
      simp [hb, hrest]

/-! ## reading -/

/-- The characters that `shtring_charat` gives, in order. -/
theorem map_shtringCharat (signed : Bool) (hs : ShtringAt words S p chunks off len) :
    (List.range len).map (shtringCharat signed words p) =
      ((windowText chunks off len).map (intOfChar signed)).map some := by
  have hlength := length_windowText hs.window
  refine List.ext_getElem (by simp [hlength]) fun i hi hi' => ?_
  rw [List.length_map, List.length_range] at hi
  have hget : (windowText chunks off len)[i]? = some ((windowText chunks off len)[i]) :=
    List.getElem?_eq_getElem (by omega)
  simpa using shtringCharat_eq signed hs hi hget

/-! ## printing -/

/-- A chunk is not longer than the buffer. -/
theorem fprintLoop_eq {chunk o l : Nat} (hl : l ≤ shtringChunkMax) :
    fprintLoop words chunk o l = chunkBytes words chunk o l := by
  have hempty : fprintLoop words chunk o 0 = [] := by
    rw [fprintLoop]
    rfl
  rw [fprintLoop]
  by_cases hpos : 0 < l
  · simp only [if_pos hpos, if_neg (Nat.not_lt.mpr hl), Nat.sub_self, hempty, List.append_nil,
      copyChunkToCstr_eq]
  · obtain rfl : l = 0 := by omega
    rfl

/-- What `shtring_fprint` writes. -/
theorem shtringFprint_eq (hs : ShtringAt words S p chunks off len) :
    shtringFprint words p = some (windowText chunks 0 len) := by
  have hwindow := hs.window
  have hfit := hs.fit
  have hchunks : ∀ c ∈ chunks, ∀ o t l (file : List Nat), o + l ≤ c.2.length → True →
      (fprintChunk words c.1 o t l file).2 =
        ((c.2.drop o).take l).foldl (fun file b => file ++ [b]) file := by
    intro c hc o t l file hle _
    have hat := hs.chunkAt c hc
    have hmax := hat.le_max
    rw [fprintChunk, fprintLoop_eq (by omega), hat.chunkBytes_eq hle, foldl_append_byte]
  obtain ⟨ret, pos, hret⟩ := hs.monkey 0 len []
    (fun _ _ _ _ _ => by simp [fprintChunk] : ∀ c o t l a, (fprintChunk words c o t l a).1 ≠ -1)
    (by omega)
  have hvisit := visitChunks_fold hchunks 0 [] (visitedParts_true 0 len chunks 0)
  unfold shtringFprint
  rw [hs.length, hret, Option.map_some, hvisit, foldl_append_byte]
  simp [windowText]

/-- `shtring_fprint` writes the bytes that `shtring_charat` gives, in order and
once each. -/
def PrintsText (signed : Bool) (words : Nat → Nat) (s : Nat) : Prop :=
  ∃ out, shtringFprint words s = some out ∧
    (out.map (intOfChar signed)).map some =
      (List.range (shtringLength words s)).map (shtringCharat signed words s)

/-- `shtring_fprint` is right when the window starts with the text of the chunk
tree, or happens to have the same bytes as the beginning of that text. -/
theorem shtring_fprint_text (signed : Bool) (hs : ShtringAt words S p chunks off len) :
    PrintsText signed words p ↔ (textOf chunks).take len = ((textOf chunks).drop off).take len := by
  have hout := hs.areBytes_window 0 len
  have hwindow := hs.areBytes_window off len
  have hinj := map_intOfChar_inj signed hout hwindow
  have htake : windowText chunks 0 len = (textOf chunks).take len := rfl
  unfold PrintsText
  rw [shtringFprint_eq hs, hs.length, map_shtringCharat signed hs, ← htake]
  constructor
  · rintro ⟨out, hout, hmap⟩
    obtain rfl := Option.some.inj hout
    exact hinj.mp ((List.map_inj_right fun _ _ => Option.some.inj).mp hmap)
  · intro heq
    exact ⟨_, rfl, congrArg _ (hinj.mpr heq)⟩

end print

/-- "abcd" is printed. -/
theorem shtring_fprint_abcd : PrintsText true twoChunks.words 40 :=
  (shtring_fprint_text true twoChunks_abcd).mpr rfl

/-- For "bc", a slice of "abcd", the bytes "ab" are written. -/
theorem shtring_fprint_bc :
    ShtringAt twoChunks.words twoChunks.Live 50 [(10, [0x61, 0x62]), (14, [0x63, 0x64])] 1 2 ∧
    shtringFprint twoChunks.words 50 = some [0x61, 0x62] ∧
    ¬ PrintsText true twoChunks.words 50 := by
  have hout : shtringFprint twoChunks.words 50 = some [0x61, 0x62] := shtringFprint_eq twoChunks_bc
  refine ⟨twoChunks_bc, hout, ?_⟩
  rintro ⟨out, hprint, hmap⟩
  obtain rfl := Option.some.inj (hout.symm.trans hprint)
  have hlength : shtringLength twoChunks.words 50 = 2 := twoChunks_bc.length
  rw [hlength, map_shtringCharat true twoChunks_bc] at hmap
  exact absurd hmap (by decide)

end Shades
