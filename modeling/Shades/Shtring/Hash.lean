import Shades.Shtring.InternRuns

/-!
# Shades.Shtring.Hash

The characters that `shtring_hash` adds up.  They are the bytes of the string if
`hash_chunk` counts rightly in the chunk with the first byte.  Where the string
starts within a word, `hash_chunk` hashes the bytes of the word from the start on
but takes the number of those before it off the length, so the count is right only
for a start in the middle of the word.
-/

namespace Shades

/-! ## the characters hashed -/

/-- Append the characters that `hash_chunk` adds. -/
def collectHashed (words : Nat → Nat) (chunk offInChunk _offInTree len : Nat)
    (buf : List Nat) : Int × List Nat :=
  (0, buf ++ hashedPart words chunk offInChunk len)

/-- The characters that `shtring_hash` adds to the hash, in order. -/
def hashedChars (words : Nat → Nat) (shtr : Nat) : Option (List Nat) :=
  (shtringMonkey words (collectHashed words) .leftToRight (shtringOffset words shtr)
    (shtringLength words shtr) (shtringHeight words shtr + 1) (shtringChunkTree words shtr)
    shtringMonkeyStartPos []).map fun (_, _, buf) => buf

theorem length_copyUpper (n w : Nat) : (copyUpper n w).length = n := by
  induction n generalizing w with
  | zero => rfl
  | succ n ih => rw [copyUpper, List.length_cons, ih]

theorem length_copyWords (words : Nat → Nat) (n p : Nat) :
    (copyWords words n p).length = 4 * n := by
  induction n generalizing p with
  | zero => rfl
  | succ n ih =>
    rw [copyWords, List.length_append, ih]
    simp only [List.length_cons, List.length_nil]
    omega

/-- `hash_chunk` hashes as many characters as the part has exactly where it counts
rightly. -/
theorem length_hashedPart {words : Nat → Nat} {chunk off len : Nat} (hlen : len < 2 ^ 32) :
    (hashedPart words chunk off len).length = len ↔ HashAligned off len := by
  unfold hashedPart HashAligned
  by_cases hoff : 0 < off % 4
  · simp only [if_pos hoff, List.length_append, length_copyUpper, length_copyWords, sub32]
    omega
  · simp only [if_neg hoff, List.length_append, length_copyUpper, length_copyWords,
      List.length_nil]
    omega

section visit

variable {words : Nat → Nat} {S : Nat → Prop} {start len : Nat}

theorem visitChunks_hashChunk (chunks : List Chunk) (pos h : Nat) (buf : List Nat) :
    visitChunks (hashChunk words) start len chunks pos (buf.foldl hashByte h) =
      (visitChunks (collectHashed words) start len chunks pos buf).foldl hashByte h := by
  induction chunks generalizing pos buf with
  | nil => rfl
  | cons c chunks ih =>
    obtain ⟨c, bytes⟩ := c
    rw [visitChunks, visitChunks]
    split
    · rw [hashChunk_eq_hashedPart, collectHashed, ← List.foldl_append, ih]
    · exact ih _ _

/-- Parts at the beginning of a chunk are aligned. -/
theorem visitedParts_of_le {chunks : List Chunk} {pos : Nat} (hpos : start ≤ pos) :
    VisitedParts HashAligned start len chunks pos := by
  induction chunks generalizing pos with
  | nil => trivial
  | cons c chunks ih =>
    refine ⟨fun _ => .inl ?_, ih (by omega)⟩
    rw [Nat.sub_eq_zero_of_le hpos]

/-- The characters hashed for chunks whose parts are all aligned. -/
theorem visitChunks_collectHashed {chunks : List Chunk}
    (hchunks : ∀ c ∈ chunks, ChunkAt words S c.1 c.2) {pos : Nat} (buf : List Nat)
    (hparts : VisitedParts HashAligned start len chunks pos) :
    visitChunks (collectHashed words) start len chunks pos buf =
      buf ++ ((textOf chunks).drop (start - pos)).take (start + len - max pos start) := by
  have hfold : ∀ c ∈ chunks, ∀ o t l (buf : List Nat), o + l ≤ c.2.length → HashAligned o l →
      (collectHashed words c.1 o t l buf).2 =
        ((c.2.drop o).take l).foldl (fun buf b => buf ++ [b]) buf := by
    intro c hc o t l buf hle hok
    have hat := hchunks c hc
    have hmax := hat.le_max
    unfold shtringChunkMax at hmax
    rw [collectHashed, hashedPart_eq hok (by omega), hat.chunkBytes_eq hle, foldl_append_byte]
  rw [visitChunks_fold hfold pos buf hparts, foldl_append_byte]

/-- At most one part starts within its chunk.  If it is not aligned, then the
number of the characters hashed is not that of the bytes. -/
theorem length_visitChunks_collectHashed {chunks : List Chunk}
    (hchunks : ∀ c ∈ chunks, ChunkAt words S c.1 c.2) {pos : Nat} (buf : List Nat)
    (hend : start + len ≤ pos + (textOf chunks).length)
    (hparts : ¬ VisitedParts HashAligned start len chunks pos) :
    (visitChunks (collectHashed words) start len chunks pos buf).length ≠ buf.length + len := by
  induction chunks generalizing pos buf with
  | nil => exact absurd trivial hparts
  | cons c chunks ih =>
    obtain ⟨c, bytes⟩ := c
    have hrest := fun c hc => hchunks c (List.mem_cons_of_mem _ hc)
    have hmax := (hchunks _ List.mem_cons_self).le_max
    unfold shtringChunkMax at hmax
    simp only [textOf_cons, List.length_append] at hend hmax
    rcases Nat.lt_or_ge start (pos + bytes.length) with hlt | hge
    · -- the parts after this one start with their chunks
      have hparts' := @visitedParts_of_le start len chunks (pos + bytes.length) hlt.le
      have hin : pos < start + len ∧ start < pos + bytes.length ∧
          ¬ HashAligned (start - pos) (min (pos + bytes.length) (start + len) - max pos start) := by
        by_contra hnot
        refine hparts ⟨fun hin => ?_, hparts'⟩
        by_contra hok
        exact hnot ⟨hin.1, hin.2, hok⟩
      have hpos : pos < start := by
        by_contra hle
        exact hin.2.2 (.inl (by rw [Nat.sub_eq_zero_of_le (by omega)]))
      have hlength := mt (@length_hashedPart words c _ _ (by omega)).mp hin.2.2
      rw [visitChunks, if_pos ⟨hin.1, hlt⟩, visitChunks_collectHashed hrest _ hparts',
        collectHashed]
      simp only [List.length_append, List.length_take, List.length_drop]
      omega
    · have hparts' : ¬ VisitedParts HashAligned start len chunks (pos + bytes.length) := fun h =>
        hparts ⟨fun hin => absurd hin.2 (by omega), h⟩
      rw [visitChunks, if_neg (by omega)]
      exact ih hrest buf (by omega) hparts'

end visit

/-! ## the hash of a shtring -/

section hash

variable {words : Nat → Nat} {S : Nat → Prop} {p off len : Nat} {chunks : List Chunk}

/-- `shtring_hash` adds up the bytes of the text, in order and once each, and
nothing else, so that the hash is a function of the text. -/
def HashesText (words : Nat → Nat) (s : Nat) (text : List Nat) : Prop :=
  hashedChars words s = some text ∧ shtringHash words s = some (textHash text)

theorem hashedChars_eq (hs : ShtringAt words S p chunks off len) :
    hashedChars words p = some (visitChunks (collectHashed words) off len chunks 0 []) := by
  have hwindow := hs.window
  have hfit := hs.fit
  obtain ⟨ret, pos, hret⟩ := hs.monkey off len []
    (fun _ _ _ _ _ => by simp [collectHashed] :
      ∀ c o t l a, (collectHashed words c o t l a).1 ≠ -1)
    (by omega)
  unfold hashedChars
  rw [hs.offset, hs.length, hret, Option.map_some]

theorem shtringHash_eq_hashedChars (hs : ShtringAt words S p chunks off len) :
    shtringHash words p = (hashedChars words p).map textHash := by
  have hwindow := hs.window
  have hfit := hs.fit
  obtain ⟨ret, pos, hret⟩ := hs.monkey off len shtringHashStartValue
    (fun _ _ _ _ _ => by simp [hashChunk] : ∀ c o t l a, (hashChunk words c o t l a).1 ≠ -1)
    (by omega)
  have hvisit := @visitChunks_hashChunk words off len chunks 0 shtringHashStartValue []
  rw [List.foldl_nil] at hvisit
  unfold shtringHash
  rw [hs.offset, hs.length, hret, Option.map_some, hashedChars_eq hs, Option.map_some, hvisit,
    textHash]

/-- `shtring_hash` is a function of the text exactly where `hash_chunk` counts
rightly in every part that is visited: the string starts at a multiple of four
bytes in its first chunk, or in the middle of a word with at least two bytes in
that chunk. -/
theorem shtring_hash_text (hs : ShtringAt words S p chunks off len) :
    HashesText words p (windowText chunks off len) ↔
      VisitedParts HashAligned off len chunks 0 := by
  have hlength := length_windowText hs.window
  constructor
  · rintro ⟨hchars, -⟩
    by_contra hparts
    have hne := length_visitChunks_collectHashed hs.chunkAt []
      (by rw [Nat.zero_add]; exact hs.window) hparts
    rw [hashedChars_eq hs] at hchars
    rw [Option.some.inj hchars, hlength, List.length_nil, Nat.zero_add] at hne
    exact hne rfl
  · intro hparts
    refine ⟨?_, shtringHash_eq hs hparts⟩
    rw [hashedChars_eq hs, visitChunks_collectHashed hs.chunkAt [] hparts, List.nil_append,
      Nat.sub_zero, Nat.max_eq_right (Nat.zero_le _), Nat.add_sub_cancel_left, windowText]

end hash

/-- "abcd" in a tree of two chunks. -/
theorem shtring_hash_text_abcd : HashesText twoChunks.words 40 [0x61, 0x62, 0x63, 0x64] :=
  (shtring_hash_text twoChunks_abcd).mpr (by decide)

/-- The string "a" in a chunk of its own and as the second byte of "xa" have
different hashes. -/
theorem shtring_hash_same_bytes :
    ShtringAt twoShtrings.words twoShtrings.Live 40 [(30, [0x61])] 0 1 ∧
    ShtringAt twoShtrings.words twoShtrings.Live 20 [(10, [0x78, 0x61])] 1 1 ∧
    windowText [(30, [0x61])] 0 1 = windowText [(10, [0x78, 0x61])] 1 1 ∧
    shtringHash twoShtrings.words 40 ≠ shtringHash twoShtrings.words 20 :=
  ⟨twoShtrings_whole, twoShtrings_part, rfl, by decide +kernel⟩

end Shades
