import Shades.Shtring.Rep

/-!
# Shades.Shtring.Monkey

`shtring_monkey` calls its function for exactly the parts of the chunks that
lie in the window, from left to right.  A function that folds over the bytes
of a part therefore folds over the text of the window.
-/

namespace Shades

/-! ## the walk -/

/-- The calls of `shtring_monkey` for a list of chunks of which the first
starts at `pos`. -/
def visitChunks {α : Type} (f : Nat → Nat → Nat → Nat → α → Int × α) (start len : Nat) :
    List Chunk → Nat → α → α
  | [], _, arg => arg
  | (c, bytes) :: chunks, pos, arg =>
    visitChunks f start len chunks (pos + bytes.length)
      (if pos < start + len ∧ start < pos + bytes.length then
        (f c (start - pos) (pos - start)
          (min (pos + bytes.length) (start + len) - max pos start) arg).2
      else arg)

section visit

variable {α : Type} {f : Nat → Nat → Nat → Nat → α → Int × α} {start len : Nat}

theorem visitChunks_append (chunks chunks' : List Chunk) (pos : Nat) (arg : α) :
    visitChunks f start len (chunks ++ chunks') pos arg =
      visitChunks f start len chunks' (pos + (textOf chunks).length)
        (visitChunks f start len chunks pos arg) := by
  induction chunks generalizing pos arg with
  | nil => rfl
  | cons c chunks ih =>
    obtain ⟨c, bytes⟩ := c
    rw [List.cons_append, visitChunks, ih, visitChunks, textOf_cons, List.length_append,
      ← Nat.add_assoc]

/-- Chunks outside the window are not visited. -/
theorem visitChunks_outside {chunks : List Chunk} {pos : Nat}
    (h : start + len ≤ pos ∨ pos + (textOf chunks).length ≤ start) (arg : α) :
    visitChunks f start len chunks pos arg = arg := by
  induction chunks generalizing pos with
  | nil => rfl
  | cons c chunks ih =>
    obtain ⟨c, bytes⟩ := c
    rw [textOf_cons, List.length_append] at h
    simp only at h
    rw [visitChunks, if_neg (by omega), ih (by omega)]

end visit

/-! ## folding over the window -/

/-- The parts of the chunks that are visited satisfy `ok`, which is told where
the part starts in its chunk and how long it is. -/
def VisitedParts (ok : Nat → Nat → Prop) (start len : Nat) : List Chunk → Nat → Prop
  | [], _ => True
  | (_, bytes) :: chunks, pos =>
    (pos < start + len ∧ start < pos + bytes.length →
      ok (start - pos) (min (pos + bytes.length) (start + len) - max pos start)) ∧
    VisitedParts ok start len chunks (pos + bytes.length)

instance (ok : Nat → Nat → Prop) [∀ o l, Decidable (ok o l)] (start len : Nat) :
    ∀ chunks pos, Decidable (VisitedParts ok start len chunks pos)
  | [], _ => inferInstanceAs (Decidable True)
  | (_, bytes) :: chunks, pos =>
    have := instDecidableVisitedParts ok start len chunks (pos + bytes.length)
    inferInstanceAs (Decidable (_ ∧ _))

theorem visitedParts_true (start len : Nat) (chunks : List Chunk) (pos : Nat) :
    VisitedParts (fun _ _ => True) start len chunks pos := by
  induction chunks generalizing pos with
  | nil => trivial
  | cons c chunks ih => exact ⟨fun _ => trivial, ih _⟩

/-- A function that folds over the parts folds over the window. -/
theorem visitChunks_fold {α : Type} {f : Nat → Nat → Nat → Nat → α → Int × α} {start len : Nat}
    {ok : Nat → Nat → Prop} {g : α → Nat → α} {chunks : List Chunk}
    (hf : ∀ c ∈ chunks, ∀ o t l arg, o + l ≤ c.2.length → ok o l →
      (f c.1 o t l arg).2 = ((c.2.drop o).take l).foldl g arg) :
    ∀ (pos : Nat) (arg : α), VisitedParts ok start len chunks pos →
      visitChunks f start len chunks pos arg =
        (((textOf chunks).drop (start - pos)).take (start + len - max pos start)).foldl g arg := by
  induction chunks with
  | nil =>
    intro pos arg _
    simp [visitChunks]
  | cons c chunks ih =>
    intro pos arg hparts
    obtain ⟨p, bytes⟩ := c
    obtain ⟨hok, hparts⟩ := hparts
    have hrest := ih (fun c hc => hf c (List.mem_cons_of_mem _ hc)) (pos + bytes.length)
    rw [visitChunks, hrest _ hparts, textOf_cons, List.drop_append, List.take_append,
      List.foldl_append, List.length_drop]
    by_cases hin : pos < start + len ∧ start < pos + bytes.length
    · rw [if_pos hin, hf _ List.mem_cons_self _ _ _ _ (by simp only; omega) (hok hin)]
      simp only
      congr 1
      · congr 1
        rcases Nat.le_total (start + len) (pos + bytes.length) with hle | hle
        · rw [Nat.min_eq_right hle]
        · rw [Nat.min_eq_left hle, List.take_of_length_le (by rw [List.length_drop]; omega),
            List.take_of_length_le (by rw [List.length_drop]; omega)]
      · congr 1
        · omega
        · congr 1
          omega
    · rw [if_neg hin]
      rcases (by omega : start + len ≤ pos ∨ pos + bytes.length ≤ start) with hout | hout
      · rw [show start + len - max (pos + bytes.length) start = 0 by omega,
          show start + len - max pos start = 0 by omega]
        simp
      · simp only
        rw [List.drop_of_length_le (by omega : bytes.length ≤ start - pos), List.take_nil,
          List.foldl_nil]
        congr 2
        · omega
        · congr 1
          omega

/-! ## the code -/

section monkey

variable {words : Nat → Nat} {S : Nat → Prop} {α : Type}
  {f : Nat → Nat → Nat → Nat → α → Int × α} {start len : Nat}

/-- The call for a chunk. -/
theorem monkeyChunk_eq {p pos : Nat} {bytes : List Nat} (arg : α)
    (hf : ∀ c o t l a, (f c o t l a).1 ≠ -1)
    (hp : ChunkAt words S p bytes) (hpos : pos + bytes.length < 2 ^ 32)
    (hwindow : start + len < 2 ^ 32) :
    ∃ ret, monkeyChunk words f .leftToRight start len p pos arg =
      (ret, pos + bytes.length, visitChunks f start len [(p, bytes)] pos arg) ∧ ret ≠ -1 := by
  unfold monkeyChunk
  simp only [reduceCtorEq, if_false, if_true, hp.length, add32_of_lt hwindow, add32_of_lt hpos]
  by_cases hin : pos < start + len ∧ start < pos + bytes.length
  · have hoff : (if start ≤ pos then 0 else sub32 start pos) = start - pos := by
      split
      · omega
      · exact sub32_of_le (by omega) (by omega)
    have htree : (if start ≤ pos then sub32 pos start else 0) = pos - start := by
      split
      · exact sub32_of_le (by omega) (by omega)
      · omega
    have hlen : (if pos + bytes.length ≤ start + len then sub32 bytes.length (start - pos)
        else sub32 (start + len) (add32 pos (start - pos))) =
          min (pos + bytes.length) (start + len) - max pos start := by
      split
      · rw [sub32_of_le (by omega) (by omega)]
        omega
      · rw [add32_of_lt (by omega), sub32_of_le (by omega) (by omega)]
        omega
    simp only [if_pos hin, hoff, htree, hlen, visitChunks]
    exact ⟨_, rfl, hf _ _ _ _ _⟩
  · simp only [if_neg hin, visitChunks]
    exact ⟨0, rfl, by decide⟩

/-- The loop over the children, when the calls for them do what they should. -/
theorem monkeyChildren_eq {visit : Nat → Nat → α → Option (Int × Nat × α)}
    {kids : List (Nat × List Chunk)}
    (hvisit : ∀ kid ∈ kids, ∀ (pos : Nat) (arg : α), pos + (textOf kid.2).length < 2 ^ 32 →
      ∃ ret, visit kid.1 pos arg =
        some (ret, pos + (textOf kid.2).length, visitChunks f start len kid.2 pos arg) ∧ ret ≠ -1) :
    ∀ (ret : Int) (pos : Nat) (arg : α), ret ≠ -1 →
      pos + (textOf (kids.map Prod.snd).flatten).length < 2 ^ 32 →
      ∃ ret', monkeyChildren visit (kids.map Prod.fst) ret pos arg =
        some (ret', pos + (textOf (kids.map Prod.snd).flatten).length,
          visitChunks f start len (kids.map Prod.snd).flatten pos arg) ∧ ret' ≠ -1 := by
  induction kids with
  | nil => exact fun _ _ _ hret _ => ⟨_, rfl, hret⟩
  | cons kid kids ih =>
    intro ret pos arg hret hpos
    simp only [List.map_cons, List.flatten_cons, textOf_append, List.length_append] at hpos ⊢
    obtain ⟨ret₁, hcall, hret₁⟩ := hvisit kid List.mem_cons_self pos arg (by omega)
    obtain ⟨ret₂, hrest, hret₂⟩ :=
      ih (fun kid hkid => hvisit kid (List.mem_cons_of_mem _ hkid)) ret₁
        (pos + (textOf kid.2).length) (visitChunks f start len kid.2 pos arg) hret₁ (by omega)
    refine ⟨ret₂, ?_, hret₂⟩
    rw [monkeyChildren, if_neg hret, hcall]
    simp only [Option.bind_some]
    rw [hrest, visitChunks_append, Nat.add_assoc]

/-- `shtring_monkey` calls the function for the chunks in order. -/
theorem shtringMonkey_eq {h p : Nat} {chunks : List Chunk} (hf : ∀ c o t l a, (f c o t l a).1 ≠ -1)
    (ht : TreeAt words S h p chunks) (hwindow : start + len < 2 ^ 32) :
    ∀ {depth : Nat} (pos : Nat) (arg : α), h ≤ depth → pos + (textOf chunks).length < 2 ^ 32 →
      ∃ ret, shtringMonkey words f .leftToRight start len depth p pos arg =
        some (ret, pos + (textOf chunks).length, visitChunks f start len chunks pos arg) ∧
          ret ≠ -1 := by
  induction ht with
  | @chunk p bytes hchunk =>
    intro depth pos arg hdepth hpos
    obtain ⟨depth, rfl⟩ : ∃ d, depth = d + 1 := ⟨depth - 1, by omega⟩
    simp only [textOf_cons, textOf_nil, List.append_nil] at hpos ⊢
    have hbytes := hchunk.pos
    obtain ⟨ret, hret, hne⟩ := monkeyChunk_eq arg hf hchunk hpos hwindow
    refine ⟨ret, ?_, hne⟩
    rw [shtringMonkey, if_neg hchunk.ne_null]
    simp only [if_neg (show pos ≠ shtringMonkeyStartPos by unfold shtringMonkeyStartPos; omega),
      hchunk.not_node, Bool.false_eq_true, if_false, hret]
  | @node p h kids hnode htrees ih =>
    intro depth pos arg hdepth hpos
    obtain ⟨depth, rfl⟩ : ∃ d, depth = d + 1 := ⟨depth - 1, by omega⟩
    have htext := (TreeAt.node hnode htrees).text_pos
    rw [shtringMonkey, if_neg hnode.ne_null]
    simp only [if_neg (show pos ≠ shtringMonkeyStartPos by unfold shtringMonkeyStartPos; omega),
      hnode.node, if_true, hnode.count, hnode.ptrs, hnode.length, add32_of_lt hwindow, add32_of_lt hpos]
    by_cases hout : start + len ≤ pos ∨ pos + (textOf (kids.map Prod.snd).flatten).length ≤ start
    · rw [if_pos hout, visitChunks_outside hout]
      exact ⟨0, rfl, by decide⟩
    · rw [if_neg hout]
      exact monkeyChildren_eq (fun kid hkid pos arg hpos => ih kid hkid pos arg (by omega) hpos)
        0 pos arg (by decide) hpos

/-- The walk from the start. -/
theorem shtringMonkey_start {h p : Nat} {chunks : List Chunk} (arg : α)
    (hf : ∀ c o t l a, (f c o t l a).1 ≠ -1) (ht : TreeAt words S h p chunks)
    (hwindow : start + len < 2 ^ 32) (hfit : (textOf chunks).length < 2 ^ 32) :
    ∃ ret, shtringMonkey words f .leftToRight start len (h + 1) p shtringMonkeyStartPos arg =
      some (ret, (textOf chunks).length, visitChunks f start len chunks 0 arg) := by
  obtain ⟨ret, hret, -⟩ := shtringMonkey_eq hf ht hwindow 0 arg
    (Nat.le_succ h) (by omega)
  refine ⟨ret, ?_⟩
  rw [Nat.zero_add] at hret
  rw [← hret, shtringMonkey, if_neg ht.ne_null, shtringMonkey, if_neg ht.ne_null]
  simp [shtringMonkeyStartPos]

end monkey

end Shades
