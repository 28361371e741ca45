import Shades.Shtring.Code

/-!
# Shades.Shtring.Rep

What a shtring in memory means.  `TreeAt words S h p chunks` says that `p` is
a chunk tree of height `h`, kept in cells of the region `S`, whose leaves are
the given chunks from left to right.  A chunk is listed with its address and
its bytes.

`ShtringAt` adds the window: the text of a shtring is a part of the text of its
tree.
-/

namespace Shades

/-! ## chunks -/

/-- The bytes `off`, `off + 1`, … of a chunk. -/
def chunkBytes (words : Nat → Nat) (p off n : Nat) : List Nat :=
  (List.range' off n).map fun i => wordByte (words (p + 1 + i / 4)) (i % 4)

@[simp] theorem length_chunkBytes (words : Nat → Nat) (p off n : Nat) :
    (chunkBytes words p off n).length = n := by
  simp [chunkBytes]

theorem chunkBytes_append (words : Nat → Nat) (p off n n' : Nat) :
    chunkBytes words p off n ++ chunkBytes words p (off + n) n' =
      chunkBytes words p off (n + n') := by
  unfold chunkBytes
  rw [← List.map_append, List.range'_append_1]

theorem take_chunkBytes {words : Nat → Nat} {p off n k : Nat} (h : k ≤ n) :
    (chunkBytes words p off n).take k = chunkBytes words p off k := by
  unfold chunkBytes
  rw [← List.map_take, List.take_range'_of_length_ge h]

theorem drop_chunkBytes (words : Nat → Nat) (p off n k : Nat) :
    (chunkBytes words p off n).drop k = chunkBytes words p (off + k) (n - k) := by
  unfold chunkBytes
  rw [← List.map_drop, List.drop_range', Nat.mul_one]

/-- The chunk at `p` with the given bytes (`shtring_check_chunk`). -/
structure ChunkAt (words : Nat → Nat) (S : Nat → Prop) (p : Nat) (bytes : List Nat) : Prop where
  ne_null : p ≠ nullPtr
  type : cellType (words p) = CellType.shtringChunk.code
  length : shtringChunkLength words p = bytes.length
  pos : 0 < bytes.length
  le_max : bytes.length ≤ shtringChunkMax
  region : ∀ i < shtringChunkWordsNeeded bytes.length, S (p + i)
  word_lt : ∀ i < shtringChunkWordsNeeded bytes.length, words (p + i) < 2 ^ 32
  bytes_eq : bytes = chunkBytes words p 0 bytes.length

/-- A part of a chunk. -/
theorem ChunkAt.chunkBytes_eq {words : Nat → Nat} {S : Nat → Prop} {p off n : Nat}
    {bytes : List Nat} (hp : ChunkAt words S p bytes) (hfit : off + n ≤ bytes.length) :
    chunkBytes words p off n = (bytes.drop off).take n := by
  rw [hp.bytes_eq, drop_chunkBytes, take_chunkBytes (by omega), Nat.zero_add]

/-- A chunk, with its address, as a leaf of a tree. -/
abbrev Chunk := Nat × List Nat

/-- The text of a list of chunks. -/
def textOf (chunks : List Chunk) : List Nat := chunks.flatMap Prod.snd

@[simp] theorem textOf_nil : textOf [] = [] := rfl

@[simp] theorem textOf_cons (c : Chunk) (chunks : List Chunk) :
    textOf (c :: chunks) = c.2 ++ textOf chunks := rfl

@[simp] theorem textOf_append (chunks chunks' : List Chunk) :
    textOf (chunks ++ chunks') = textOf chunks ++ textOf chunks' :=
  List.flatMap_append

theorem textOf_flatten (kids : List (List Chunk)) :
    textOf kids.flatten = (kids.map textOf).flatten := by
  induction kids with
  | nil => rfl
  | cons kid kids ih => rw [List.flatten_cons, textOf_append, ih, List.map_cons, List.flatten_cons]

/-! ## trees -/

/-- The node at `p` over children of height `h`, given by their addresses and
chunks (`shtring_check_node`). -/
structure ShtringNodeAt (words : Nat → Nat) (S : Nat → Prop) (h p : Nat)
    (kids : List (Nat × List Chunk)) : Prop where
  ne_null : p ≠ nullPtr
  type : cellType (words p) = CellType.shtringNode.code
  ne_nil : kids ≠ []
  le_max : kids.length ≤ maxShtringNodeChildren
  count : shtringNodeChildren words p = kids.length
  height : shtringNodeHeight words p = h + 1
  length : shtringNodeLength words p = (textOf (kids.map Prod.snd).flatten).length
  fit : (textOf (kids.map Prod.snd).flatten).length < 2 ^ 32
  region : ∀ i < 3 + kids.length, S (p + i)
  ptrs : (List.range kids.length).map (fun i => shtringNodeChild words p (i + 1)) =
    kids.map Prod.fst

/-- The tree at `p` of height `h` with the given chunks. -/
inductive TreeAt (words : Nat → Nat) (S : Nat → Prop) : Nat → Nat → List Chunk → Prop
  | chunk {p : Nat} {bytes : List Nat} (hchunk : ChunkAt words S p bytes) :
      TreeAt words S 1 p [(p, bytes)]
  | node {p h : Nat} {kids : List (Nat × List Chunk)} (hnode : ShtringNodeAt words S h p kids)
      (htrees : ∀ kid ∈ kids, TreeAt words S h kid.1 kid.2) :
      TreeAt words S (h + 1) p (kids.map Prod.snd).flatten

/-- The shtring at `p`, a window of `len` bytes from `off` on the text of the
chunks (`shtring_check_shtring`). -/
structure ShtringAt (words : Nat → Nat) (S : Nat → Prop) (p : Nat) (chunks : List Chunk)
    (off len : Nat) : Prop where
  ne_null : p ≠ nullPtr
  type : cellType (words p) = CellType.shtring.code
  offset : shtringOffset words p = off
  length : shtringLength words p = len
  region : ∀ i < shtringWords, S (p + i)
  window : off + len ≤ (textOf chunks).length
  fit : (textOf chunks).length < 2 ^ 32
  tree : (shtringHeight words p = 0 ∧ shtringChunkTree words p = nullPtr ∧ chunks = []) ∨
    TreeAt words S (shtringHeight words p) (shtringChunkTree words p) chunks

/-- The text of a shtring. -/
def windowText (chunks : List Chunk) (off len : Nat) : List Nat :=
  ((textOf chunks).drop off).take len

/-! ## the same words elsewhere -/

section frame

variable {words words' : Nat → Nat} {S S' : Nat → Prop} (hagree : AgreeOn S words words')
  (hS : ∀ a, S a → S' a)

include hagree hS

theorem ChunkAt.frame {p : Nat} {bytes : List Nat} (h : ChunkAt words S p bytes) :
    ChunkAt words' S' p bytes := by
  have hpos := h.pos
  have hword : words' p = words p := by
    have h0 := h.region 0 (by unfold shtringChunkWordsNeeded; omega)
    exact hagree p h0
  refine
    { ne_null := h.ne_null
      type := by rw [hword, h.type]
      length := by rw [shtringChunkLength, hword]; exact h.length
      pos := h.pos
      le_max := h.le_max
      region := fun i hi => hS _ (h.region i hi)
      word_lt := fun i hi => by
        rw [hagree _ (h.region i hi)]
        exact h.word_lt i hi
      bytes_eq := ?_ }
  refine h.bytes_eq.trans ?_
  unfold chunkBytes
  refine List.map_congr_left fun i hi => ?_
  have hi' : i < bytes.length := by simpa using (List.mem_range'_1.mp hi).2
  have hin := h.region (1 + i / 4) (by unfold shtringChunkWordsNeeded; omega)
  rw [← Nat.add_assoc] at hin
  rw [hagree _ hin]

theorem ShtringNodeAt.frame {h p : Nat} {kids : List (Nat × List Chunk)}
    (hn : ShtringNodeAt words S h p kids) : ShtringNodeAt words' S' h p kids := by
  have hword : ∀ i < 3 + kids.length, words' (p + i) = words (p + i) := fun i hi =>
    hagree _ (hn.region i hi)
  have hword0 : words' p = words p := hword 0 (by omega)
  refine
    { ne_null := hn.ne_null
      type := by rw [hword0, hn.type]
      ne_nil := hn.ne_nil
      le_max := hn.le_max
      count := by rw [shtringNodeChildren, hword0]; exact hn.count
      height := by rw [shtringNodeHeight, hword 2 (by omega)]; exact hn.height
      length := by rw [shtringNodeLength, hword 1 (by omega)]; exact hn.length
      fit := hn.fit
      region := fun i hi => hS _ (hn.region i hi)
      ptrs := ?_ }
  refine Eq.trans (List.map_congr_left fun i hi => ?_) hn.ptrs
  have hi' := List.mem_range.mp hi
  unfold shtringNodeChild
  rw [show p + 2 + (i + 1) = p + (3 + i) by omega, hword _ (by omega)]

theorem TreeAt.frame {h p : Nat} {chunks : List Chunk} (ht : TreeAt words S h p chunks) :
    TreeAt words' S' h p chunks := by
  induction ht with
  | chunk hchunk => exact .chunk (hchunk.frame hagree hS)
  | node hnode _ ih => exact .node (hnode.frame hagree hS) ih

theorem ShtringAt.frame {p : Nat} {chunks : List Chunk} {off len : Nat}
    (h : ShtringAt words S p chunks off len) : ShtringAt words' S' p chunks off len := by
  have hword : ∀ i < shtringWords, words' (p + i) = words (p + i) := fun i hi =>
    hagree _ (h.region i hi)
  unfold shtringWords at hword
  have hword0 : words' p = words p := hword 0 (by omega)
  have hheight : shtringHeight words' p = shtringHeight words p := hword 3 (by omega)
  have htree : shtringChunkTree words' p = shtringChunkTree words p := by
    rw [shtringChunkTree, hword 4 (by omega), shtringChunkTree]
  refine
    { ne_null := h.ne_null
      type := by rw [hword0]; exact h.type
      offset := by rw [shtringOffset, hword 1 (by omega)]; exact h.offset
      length := by rw [shtringLength, hword 2 (by omega)]; exact h.length
      region := fun i hi => hS _ (h.region i hi)
      window := h.window
      fit := h.fit
      tree := ?_ }
  rw [hheight, htree]
  exact h.tree.imp_right fun ht => ht.frame hagree hS

end frame

section tree

variable {words : Nat → Nat} {S : Nat → Prop} {h p : Nat} {chunks : List Chunk}

/-- The leaves of a tree are chunks. -/
theorem TreeAt.chunkAt (ht : TreeAt words S h p chunks) :
    ∀ c ∈ chunks, ChunkAt words S c.1 c.2 := by
  induction ht with
  | chunk hchunk =>
    intro c hc
    obtain rfl := List.mem_singleton.mp hc
    exact hchunk
  | node _ _ ih =>
    intro c hc
    obtain ⟨l, hl, hc⟩ := List.mem_flatten.mp hc
    obtain ⟨kid, hkid, rfl⟩ := List.mem_map.mp hl
    exact ih kid hkid c hc

theorem TreeAt.ne_null (ht : TreeAt words S h p chunks) : p ≠ nullPtr := by
  cases ht with
  | chunk hchunk => exact hchunk.ne_null
  | node hnode => exact hnode.ne_null

theorem TreeAt.height_pos (ht : TreeAt words S h p chunks) : 0 < h := by
  cases ht with
  | chunk _ => exact Nat.one_pos
  | node => exact Nat.succ_pos _

/-- No tree is without text. -/
theorem TreeAt.text_pos (ht : TreeAt words S h p chunks) : 0 < (textOf chunks).length := by
  induction ht with
  | chunk hchunk => simpa using hchunk.pos
  | @node p h kids hnode _ ih =>
    obtain ⟨kid, rest, rfl⟩ := List.exists_cons_of_ne_nil hnode.ne_nil
    have := ih kid List.mem_cons_self
    simp only [List.map_cons, List.flatten_cons, textOf_append, List.length_append]
    omega

theorem ChunkAt.not_node {bytes : List Nat} (hc : ChunkAt words S p bytes) :
    isShtringNode words p = false := by
  unfold isShtringNode
  rw [hc.type]
  decide

theorem ShtringAt.height_frame {words' : Nat → Nat} {off len : Nat}
    (hs : ShtringAt words S p chunks off len) (hagree : AgreeOn S words words') :
    shtringHeight words' p = shtringHeight words p :=
  hagree _ (hs.region 3 (by decide))

theorem ShtringNodeAt.node {kids : List (Nat × List Chunk)} (hn : ShtringNodeAt words S h p kids) :
    isShtringNode words p = true := by
  unfold isShtringNode
  rw [hn.type]
  decide

/-- A shtring over a single chunk, all below the address `e`. -/
theorem ShtringAt.of_chunk {q off len e : Nat} {bytes : List Nat} (hS : ∀ a < e, S a)
    (hp : p ≠ nullPtr ∧ p + shtringWords ≤ e ∧ cellType (words p) = CellType.shtring.code)
    (hq : q ≠ nullPtr ∧ q + shtringChunkWordsNeeded bytes.length ≤ e ∧
      cellType (words q) = CellType.shtringChunk.code ∧
      shtringChunkLength words q = bytes.length ∧ 0 < bytes.length ∧
      bytes.length ≤ shtringChunkMax ∧
      ∀ i < shtringChunkWordsNeeded bytes.length, words (q + i) < 2 ^ 32)
    (hbytes : bytes = chunkBytes words q 0 bytes.length)
    (hfields : shtringOffset words p = off ∧ shtringLength words p = len ∧
      shtringHeight words p = 1 ∧ shtringChunkTree words p = q ∧ off + len ≤ bytes.length) :
    ShtringAt words S p [(q, bytes)] off len := by
  obtain ⟨hp0, hpe, hptype⟩ := hp
  obtain ⟨hq0, hqe, hqtype, hqlen, hpos, hmax, hlt⟩ := hq
  obtain ⟨hoff, hlen, hheight, htree, hwindow⟩ := hfields
  have hchunk : ChunkAt words S q bytes :=
    { ne_null := hq0
      type := hqtype
      length := hqlen
      pos := hpos
      le_max := hmax
      region := fun i hi => hS _ (by omega)
      word_lt := hlt
      bytes_eq := hbytes }
  have htext : (textOf [(q, bytes)]).length = bytes.length := by simp
  refine
    { ne_null := hp0
      type := hptype
      offset := hoff
      length := hlen
      region := fun i hi => hS _ (by omega)
      window := by rw [htext]; exact hwindow
      fit := by unfold shtringChunkMax at hmax; omega
      tree := .inr ?_ }
  rw [hheight, htree]
  exact .chunk hchunk

end tree

end Shades
