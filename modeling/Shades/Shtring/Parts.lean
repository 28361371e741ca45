import Shades.Shtring.Build
import Shades.Shtring.Monkey

/-!
# Shades.Shtring.Parts

`shtring_monkey` with a function that may stop the walk, in both orders: it goes
through the parts of the chunks that lie in the window until a call returns `-1`.
-/

namespace Shades

/-! ## the parts of a window -/

/-- A part of a chunk that lies in the window: where it starts in the chunk and in the
window, and its text. -/
structure ChunkPart where
  chunk : Nat
  offset : Nat
  start : Nat
  text : List Nat

/-- The parts of the chunks, of which the first one starts at `pos`. -/
def partsOf (start len : Nat) : List Chunk → Nat → List ChunkPart
  | [], _ => []
  | (c, bytes) :: chunks, pos =>
    if pos < start + len ∧ start < pos + bytes.length then
      ⟨c, start - pos, pos - start, (bytes.drop (start - pos)).take
        (min (pos + bytes.length) (start + len) - max pos start)⟩ ::
          partsOf start len chunks (pos + bytes.length)
    else partsOf start len chunks (pos + bytes.length)

section parts

variable {start len : Nat}

theorem partsOf_append (chunks chunks' : List Chunk) (pos : Nat) :
    partsOf start len (chunks ++ chunks') pos =
      partsOf start len chunks pos ++ partsOf start len chunks' (pos + (textOf chunks).length) := by
  induction chunks generalizing pos with
  | nil => rfl
  | cons c chunks ih =>
    obtain ⟨c, bytes⟩ := c
    rw [List.cons_append, partsOf, partsOf, ih, textOf_cons, List.length_append, ← Nat.add_assoc]
    split <;> rfl

/-- Chunks outside the window have no parts in it. -/
theorem partsOf_outside {chunks : List Chunk} {pos : Nat}
    (h : start + len ≤ pos ∨ pos + (textOf chunks).length ≤ start) :
    partsOf start len chunks pos = [] := by
  induction chunks generalizing pos with
  | nil => rfl
  | cons c chunks ih =>
    obtain ⟨c, bytes⟩ := c
    rw [textOf_cons, List.length_append] at h
    simp only at h
    rw [partsOf, if_neg (by omega), ih (by omega)]

/-- Chunks and window moved by the same distance. -/
theorem partsOf_add (d : Nat) (chunks : List Chunk) (pos : Nat) :
    partsOf (d + start) len chunks (d + pos) = partsOf start len chunks pos := by
  induction chunks generalizing pos with
  | nil => rfl
  | cons c chunks ih =>
    obtain ⟨c, bytes⟩ := c
    have hrest := ih (pos + bytes.length)
    have hlen : min (d + pos + bytes.length) (d + start + len) - max (d + pos) (d + start) =
        min (pos + bytes.length) (start + len) - max pos start := by
      omega
    rw [← Nat.add_assoc] at hrest
    rw [partsOf, partsOf, hrest, hlen, Nat.add_sub_add_left, Nat.add_sub_add_left]
    refine if_congr ?_ rfl rfl
    omega

/-- The parts follow one another, the first one at `t`. -/
def Consecutive : Nat → List ChunkPart → Prop
  | _, [] => True
  | t, part :: parts => part.start = t ∧ Consecutive (t + part.text.length) parts

/-- The text of the window. -/
def partsText (parts : List ChunkPart) : List Nat := parts.flatMap ChunkPart.text

@[simp] theorem partsText_nil : partsText [] = [] := rfl

@[simp] theorem partsText_cons (part : ChunkPart) (parts : List ChunkPart) :
    partsText (part :: parts) = part.text ++ partsText parts := rfl

@[simp] theorem partsText_append (parts parts' : List ChunkPart) :
    partsText (parts ++ parts') = partsText parts ++ partsText parts' := by
  simp [partsText]

theorem Consecutive.append {t : Nat} {parts parts' : List ChunkPart} :
    Consecutive t (parts ++ parts') ↔
      Consecutive t parts ∧ Consecutive (t + (partsText parts).length) parts' := by
  induction parts generalizing t with
  | nil => simp [Consecutive]
  | cons part parts ih =>
    simp only [List.cons_append, Consecutive, ih, partsText_cons, List.length_append, and_assoc,
      Nat.add_assoc]

theorem length_take_drop {bytes : List Nat} {pos : Nat} :
    ((bytes.drop (start - pos)).take
      (min (pos + bytes.length) (start + len) - max pos start)).length =
        min (pos + bytes.length) (start + len) - max pos start := by
  rw [List.length_take, List.length_drop]
  omega

theorem partsOf_consecutive (chunks : List Chunk) (pos : Nat) :
    Consecutive (pos - start) (partsOf start len chunks pos) := by
  induction chunks generalizing pos with
  | nil => trivial
  | cons c chunks ih =>
    obtain ⟨c, bytes⟩ := c
    rw [partsOf]
    by_cases hin : pos < start + len ∧ start < pos + bytes.length
    · rw [if_pos hin]
      refine ⟨rfl, ?_⟩
      simp only [length_take_drop]
      by_cases hend : pos + bytes.length ≤ start + len
      · have hnext := ih (pos + bytes.length)
        rwa [show pos + bytes.length - start = pos - start +
          (min (pos + bytes.length) (start + len) - max pos start) by omega] at hnext
      · rw [partsOf_outside (.inl (by omega))]
        trivial
    · rw [if_neg hin]
      rcases (by omega : start + len ≤ pos ∨ pos + bytes.length ≤ start) with hout | hout
      · rw [partsOf_outside (.inl (by omega))]
        trivial
      · have hnext := ih (pos + bytes.length)
        rwa [show pos + bytes.length - start = pos - start by omega] at hnext

/-- The parts have the text of the window. -/
theorem partsText_partsOf (chunks : List Chunk) (pos : Nat) :
    partsText (partsOf start len chunks pos) =
      ((textOf chunks).drop (start - pos)).take (start + len - max pos start) := by
  induction chunks generalizing pos with
  | nil => simp [partsOf]
  | cons c chunks ih =>
    obtain ⟨c, bytes⟩ := c
    have hrest := ih (pos + bytes.length)
    rw [partsOf, textOf_cons, List.drop_append, List.take_append, List.length_drop]
    by_cases hin : pos < start + len ∧ start < pos + bytes.length
    · rw [if_pos hin, partsText_cons, hrest]
      simp only
      congr 1
      · rcases Nat.le_total (start + len) (pos + bytes.length) with hle | hle
        · rw [Nat.min_eq_right hle]
        · rw [Nat.min_eq_left hle, List.take_of_length_le (by rw [List.length_drop]; omega),
            List.take_of_length_le (by rw [List.length_drop]; omega)]
      · congr 1
        · omega
        · congr 1
          omega
    · rw [if_neg hin, hrest]
      rcases (by omega : start + len ≤ pos ∨ pos + bytes.length ≤ start) with hout | hout
      · rw [show start + len - max (pos + bytes.length) start = 0 by omega,
          show start + len - max pos start = 0 by omega]
        simp
      · simp only
        rw [List.drop_of_length_le (by omega : bytes.length ≤ start - pos), List.take_nil,
          List.nil_append, show start + len - max pos start - (bytes.length - (start - pos)) =
            start + len - max (pos + bytes.length) start by omega,
          show start - (pos + bytes.length) = start - pos - bytes.length by omega]

/-- A part is where the chunk has its text. -/
theorem partsOf_mem {chunks : List Chunk} {pos : Nat} {part : ChunkPart}
    (h : part ∈ partsOf start len chunks pos) :
    ∃ c ∈ chunks, part.chunk = c.1 ∧ part.offset + part.text.length ≤ c.2.length ∧
      part.text = (c.2.drop part.offset).take part.text.length := by
  induction chunks generalizing pos with
  | nil => cases h
  | cons c chunks ih =>
    obtain ⟨c, bytes⟩ := c
    rw [partsOf] at h
    by_cases hfirst : part ∈ partsOf start len chunks (pos + bytes.length)
    · obtain ⟨c', hc', hpart⟩ := ih hfirst
      exact ⟨c', List.mem_cons_of_mem _ hc', hpart⟩
    · split at h
      · next hin =>
        obtain rfl := (List.mem_cons.mp h).resolve_right hfirst
        refine ⟨(c, bytes), List.mem_cons_self, rfl, ?_, ?_⟩
        · simp only [length_take_drop]
          omega
        · simp only [length_take_drop]
      · exact absurd h hfirst

end parts

/-! ## the walk -/

/-- The calls for the parts in turn, up to the first one that returns `-1`: whether
there is one, and the argument in the end. -/
def runParts {α : Type} (f : Nat → Nat → Nat → Nat → α → Int × α) :
    List ChunkPart → α → Bool × α
  | [], arg => (false, arg)
  | part :: parts, arg =>
    let result := f part.chunk part.offset part.start part.text.length arg
    if result.1 = -1 then (true, result.2) else runParts f parts result.2

/-- A step from `pos` to `pos'` goes through the parts, unless it stops at one of
them. -/
def RunsParts {α : Type} (f : Nat → Nat → Nat → Nat → α → Int × α)
    (step : Nat → α → Option (Int × Nat × α)) (pos : Nat) (parts : List ChunkPart) (pos' : Nat) :
    Prop :=
  ∀ arg, ∃ ret pos₁, step pos arg = some (ret, pos₁, (runParts f parts arg).2) ∧
    (ret = -1 ↔ (runParts f parts arg).1 = true) ∧ (ret ≠ -1 → pos₁ = pos')

/-- The steps for a list of children, one after the other. -/
inductive RunsKids {α : Type} (f : Nat → Nat → Nat → Nat → α → Int × α)
    (visit : Nat → Nat → α → Option (Int × Nat × α)) :
    List Nat → Nat → List ChunkPart → Nat → Prop
  | nil {pos : Nat} : RunsKids f visit [] pos [] pos
  | cons {kid pos pos₁ pos' : Nat} {kids : List Nat} {parts parts' : List ChunkPart}
      (hkid : RunsParts f (visit kid) pos parts pos₁)
      (hkids : RunsKids f visit kids pos₁ parts' pos') :
      RunsKids f visit (kid :: kids) pos (parts ++ parts') pos'

section walk

variable {α : Type} {f : Nat → Nat → Nat → Nat → α → Int × α}

theorem runParts_append (parts parts' : List ChunkPart) (arg : α) :
    runParts f (parts ++ parts') arg =
      if (runParts f parts arg).1 then runParts f parts arg
      else runParts f parts' (runParts f parts arg).2 := by
  induction parts generalizing arg with
  | nil => rfl
  | cons part parts ih =>
    rw [List.cons_append, runParts, runParts]
    split
    · rfl
    · exact ih _

theorem RunsKids.append {visit : Nat → Nat → α → Option (Int × Nat × α)} {kids kids' : List Nat}
    {pos pos₁ pos' : Nat} {parts parts' : List ChunkPart} (h : RunsKids f visit kids pos parts pos₁)
    (h' : RunsKids f visit kids' pos₁ parts' pos') :
    RunsKids f visit (kids ++ kids') pos (parts ++ parts') pos' := by
  induction h with
  | nil => exact h'
  | cons hkid hkids ih =>
    rw [List.cons_append, List.append_assoc]
    exact .cons hkid (ih h')

/-- The loop over the children. -/
theorem RunsKids.runs {visit : Nat → Nat → α → Option (Int × Nat × α)} {kids : List Nat}
    {pos pos' : Nat} {parts : List ChunkPart} (h : RunsKids f visit kids pos parts pos') {ret : Int}
    (hret : ret ≠ -1) : RunsParts f (monkeyChildren visit kids ret) pos parts pos' := by
  induction h generalizing ret with
  | nil => exact fun arg => ⟨ret, _, rfl, by simp [runParts, hret], fun _ => rfl⟩
  | @cons kid pos pos₁ pos' kids parts parts' hkid hkids ih =>
    intro arg
    obtain ⟨ret₁, pos₂, hcall, hstop, hpos⟩ := hkid arg
    rw [monkeyChildren, if_neg hret, hcall, Option.bind_some]
    by_cases hret₁ : ret₁ = -1
    · rw [runParts_append, if_pos (hstop.mp hret₁)]
      refine ⟨ret₁, pos₂, ?_, hstop, fun hne => absurd hret₁ hne⟩
      cases kids with
      | nil => rfl
      | cons kid kids => simp only [monkeyChildren, if_pos hret₁]
    · obtain ⟨ret₂, pos₃, hrest, hstop₂, hpos₃⟩ := ih hret₁ (runParts f parts arg).2
      rw [runParts_append, if_neg fun h => hret₁ (hstop.mpr h), hpos hret₁]
      exact ⟨ret₂, pos₃, hrest, hstop₂, hpos₃⟩

end walk

/-! ## the code -/

namespace MonkeyOrder

/-- The position before a walk over a text of `n` bytes that starts at `a`. -/
def enter : MonkeyOrder → Nat → Nat → Nat
  | leftToRight, a, _ => a
  | rightToLeft, a, n => a + n

/-- The position after it. -/
def leave : MonkeyOrder → Nat → Nat → Nat
  | leftToRight, a, n => a + n
  | rightToLeft, a, _ => a

/-- The order of the children and of the parts. -/
def arrange {β : Type} : MonkeyOrder → List β → List β
  | leftToRight, xs => xs
  | rightToLeft, xs => xs.reverse

/-- The positions fit, and none is the mark for the start of the walk. -/
def Fits (order : MonkeyOrder) (a n : Nat) : Prop :=
  a + n < 2 ^ 32 ∧ (order = rightToLeft → a + n ≠ shtringMonkeyStartPos)

end MonkeyOrder

section monkey

variable {words : Nat → Nat} {S : Nat → Prop} {α : Type}
  {f : Nat → Nat → Nat → Nat → α → Int × α} {start len : Nat} (order : MonkeyOrder)

/-- The call for a chunk. -/
theorem monkeyChunk_runs {p a : Nat} {bytes : List Nat} (hp : ChunkAt words S p bytes)
    (hpos : a + bytes.length < 2 ^ 32) (hwindow : start + len < 2 ^ 32) :
    RunsParts f (fun pos arg => some (monkeyChunk words f order start len p pos arg))
      (order.enter a bytes.length) (order.arrange (partsOf start len [(p, bytes)] a))
      (order.leave a bytes.length) := by
  intro arg
  have henter : (if order = .rightToLeft then sub32 (order.enter a bytes.length) bytes.length
      else order.enter a bytes.length) = a := by
    cases order with
    | leftToRight => rfl
    | rightToLeft =>
      rw [if_pos rfl, MonkeyOrder.enter, sub32_of_le (by omega) hpos]
      omega
  have hleave : (if order = .leftToRight then a + bytes.length else a) =
      order.leave a bytes.length := by
    cases order <;> rfl
  have hsingle : order.arrange (partsOf start len [(p, bytes)] a) =
      partsOf start len [(p, bytes)] a := by
    cases order with
    | leftToRight => rfl
    | rightToLeft =>
      rw [MonkeyOrder.arrange, partsOf]
      split <;> rfl
  rw [hsingle]
  unfold monkeyChunk
  simp only [hp.length, henter, add32_of_lt hwindow, add32_of_lt hpos, hleave]
  by_cases hin : a < start + len ∧ start < a + bytes.length
  · have hoff : (if start ≤ a then 0 else sub32 start a) = start - a := by
      split
      · omega
      · exact sub32_of_le (by omega) (by omega)
    have htree : (if start ≤ a then sub32 a start else 0) = a - start := by
      split
      · exact sub32_of_le (by omega) (by omega)
      · omega
    have hlen : (if a + bytes.length ≤ start + len then sub32 bytes.length (start - a)
        else sub32 (start + len) (add32 a (start - a))) =
          min (a + bytes.length) (start + len) - max a start := by
      split
      · rw [sub32_of_le (by omega) (by omega)]
        omega
      · rw [add32_of_lt (by omega), sub32_of_le (by omega) (by omega)]
        omega
    simp only [if_pos hin, hoff, htree, hlen, partsOf, runParts, length_take_drop]
    split
    · next hstop => exact ⟨_, _, rfl, by simp [hstop], fun _ => rfl⟩
    · next hgo => exact ⟨_, _, rfl, by simp [hgo], fun _ => rfl⟩
  · simp only [if_neg hin, partsOf, runParts]
    exact ⟨0, _, rfl, by simp, fun _ => rfl⟩

/-- The children of a node. -/
theorem runsKids_arrange {visit : Nat → Nat → α → Option (Int × Nat × α)}
    {kids : List (Nat × List Chunk)}
    (hvisit : ∀ kid ∈ kids, ∀ a, order.Fits a (textOf kid.2).length →
      RunsParts f (visit kid.1) (order.enter a (textOf kid.2).length)
        (order.arrange (partsOf start len kid.2 a)) (order.leave a (textOf kid.2).length))
    {a : Nat} (hfits : order.Fits a (kidsText kids).length) :
    RunsKids f visit (order.arrange (kids.map Prod.fst)) (order.enter a (kidsText kids).length)
      (order.arrange (partsOf start len (kids.map Prod.snd).flatten a))
      (order.leave a (kidsText kids).length) := by
  induction kids generalizing a with
  | nil => cases order <;> exact .nil
  | cons kid kids ih =>
    have hrest := ih (fun kid hkid => hvisit kid (List.mem_cons_of_mem _ hkid))
      (a := a + (textOf kid.2).length)
    have hfirst := hvisit kid List.mem_cons_self a
    rw [kidsText_cons, List.length_append] at hfits ⊢
    unfold MonkeyOrder.Fits at hfits hrest hfirst
    rw [List.map_cons, List.map_cons, List.flatten_cons, partsOf_append]
    cases order with
    | leftToRight =>
      have h := RunsKids.cons (hfirst ⟨by omega, nofun⟩) (hrest ⟨by omega, nofun⟩)
      simpa [MonkeyOrder.enter, MonkeyOrder.leave, MonkeyOrder.arrange, Nat.add_assoc] using h
    | rightToLeft =>
      have hne := hfits.2 rfl
      unfold shtringMonkeyStartPos at hne hrest hfirst
      have h := (hrest ⟨by omega, fun _ => by omega⟩).append
        (.cons (hfirst ⟨by omega, fun _ => by omega⟩) .nil)
      simpa [MonkeyOrder.enter, MonkeyOrder.leave, MonkeyOrder.arrange, Nat.add_assoc] using h

theorem MonkeyOrder.Fits.enter_ne {a n : Nat} (hfits : order.Fits a n) (hn : 0 < n) :
    order.enter a n ≠ shtringMonkeyStartPos := by
  obtain ⟨hlt, hne⟩ := hfits
  cases order with
  | leftToRight =>
    show a ≠ 2 ^ 32 - 1
    omega
  | rightToLeft => exact hne rfl

/-- `shtring_monkey` goes through the parts of the window. -/
theorem shtringMonkey_runs {h p : Nat} {chunks : List Chunk} (ht : TreeAt words S h p chunks)
    (hwindow : start + len < 2 ^ 32) :
    ∀ {depth a : Nat}, h ≤ depth → order.Fits a (textOf chunks).length →
      RunsParts f (shtringMonkey words f order start len depth p)
        (order.enter a (textOf chunks).length) (order.arrange (partsOf start len chunks a))
        (order.leave a (textOf chunks).length) := by
  induction ht with
  | @chunk p bytes hchunk =>
    intro depth a hdepth hfits
    obtain ⟨depth, rfl⟩ : ∃ d, depth = d + 1 := ⟨depth - 1, by omega⟩
    simp only [textOf_cons, textOf_nil, List.append_nil] at hfits ⊢
    have hne := hfits.enter_ne order hchunk.pos
    intro arg
    have hrun := monkeyChunk_runs (f := f) order hchunk hfits.1 hwindow arg
    rw [shtringMonkey.eq_def]
    simpa only [if_neg hchunk.ne_null, if_neg hne, hchunk.not_node, Bool.false_eq_true, if_false]
      using hrun
  | @node p h kids hnode htrees ih =>
    intro depth a hdepth hfits
    obtain ⟨depth, rfl⟩ : ∃ d, depth = d + 1 := ⟨depth - 1, by omega⟩
    have hne := hfits.enter_ne order (TreeAt.node hnode htrees).text_pos
    have hvisit : ∀ kid ∈ kids, ∀ a, order.Fits a (textOf kid.2).length →
        RunsParts f (shtringMonkey words f order start len depth kid.1)
          (order.enter a (textOf kid.2).length) (order.arrange (partsOf start len kid.2 a))
          (order.leave a (textOf kid.2).length) :=
      fun kid hkid a hfits => @ih kid hkid depth a (by omega) hfits
    have hruns := (runsKids_arrange order hvisit hfits).runs (show (0 : Int) ≠ -1 by decide)
    have hlt := hfits.1
    intro arg
    rw [shtringMonkey.eq_def]
    simp only [if_neg hnode.ne_null, if_neg hne, hnode.node, if_true, hnode.count, hnode.ptrs,
      hnode.length, add32_of_lt hwindow]
    cases order with
    | leftToRight =>
      simp only [MonkeyOrder.enter, MonkeyOrder.leave, MonkeyOrder.arrange, add32_of_lt hlt] at hruns ⊢
      by_cases hout : start + len ≤ a ∨ a + (textOf (kids.map Prod.snd).flatten).length ≤ start
      · rw [if_pos hout, partsOf_outside hout]
        exact ⟨0, _, rfl, by simp [runParts], fun _ => rfl⟩
      · rw [if_neg hout]
        exact hruns arg
    | rightToLeft =>
      have hsub : ∀ n, a + n < 2 ^ 32 → sub32 (a + n) n = a := fun n hn => by
        rw [sub32_of_le (by omega) hn, Nat.add_sub_cancel]
      simp only [MonkeyOrder.enter, MonkeyOrder.leave, MonkeyOrder.arrange, hsub _ hlt, assert,
        Nat.le_add_left, if_true, Option.bind_eq_bind, Option.bind_some] at hruns ⊢
      by_cases hout : start + len ≤ a ∨ a + (textOf (kids.map Prod.snd).flatten).length ≤ start
      · rw [if_pos hout, partsOf_outside hout]
        exact ⟨0, _, rfl, by simp [runParts], fun _ => rfl⟩
      · rw [if_neg hout, ← List.map_reverse]
        rw [← List.map_reverse] at hruns
        exact hruns arg

/-- The walk that starts at `SHTRING_MONKEY_START_POS`. -/
theorem shtringMonkey_start_runs {h p : Nat} {chunks : List Chunk} (ht : TreeAt words S h p chunks)
    (hwindow : start + len < 2 ^ 32) (hfits : order.Fits 0 (textOf chunks).length) (arg : α) :
    ∃ ret pos, shtringMonkey words f order start len (h + 1) p shtringMonkeyStartPos arg =
      some (ret, pos, (runParts f (order.arrange (partsOf start len chunks 0)) arg).2) := by
  obtain ⟨ret, pos, hrun, -, -⟩ := shtringMonkey_runs (f := f) order ht hwindow
    (Nat.le_succ h) hfits arg
  have hne := hfits.enter_ne order ht.text_pos
  refine ⟨ret, pos, ?_⟩
  rw [← hrun, shtringMonkey.eq_def, shtringMonkey.eq_def]
  simp only [if_neg ht.ne_null, if_neg hne, if_true, ht.treeLength]
  cases order with
  | leftToRight => rfl
  | rightToLeft => simp only [MonkeyOrder.enter, Nat.zero_add]

/-- The walk over the tree of a shtring, which may be empty. -/
theorem ShtringAt.monkey_runs {p off n : Nat} {chunks : List Chunk}
    (hs : ShtringAt words S p chunks off n) (hwindow : start + len < 2 ^ 32)
    (hfits : order.Fits 0 (textOf chunks).length) (arg : α) :
    ∃ ret pos, shtringMonkey words f order start len (shtringHeight words p + 1)
        (shtringChunkTree words p) shtringMonkeyStartPos arg =
      some (ret, pos, (runParts f (order.arrange (partsOf start len chunks 0)) arg).2) := by
  rcases hs.tree with ⟨hheight, hnull, rfl⟩ | ht
  · rw [hheight, hnull, shtringMonkey.eq_def]
    cases order <;> exact ⟨_, _, if_pos rfl⟩
  · exact shtringMonkey_start_runs order ht hwindow hfits arg

end monkey

end Shades
