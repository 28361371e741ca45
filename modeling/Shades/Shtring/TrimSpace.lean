import Mathlib.Data.List.DropRight
import Shades.Shtring.Parts
import Shades.Shtring.Slice

/-!
# Shades.Shtring.TrimSpace

`shtring_trim_leading` takes the white space off, unless nothing is left and the
window goes to the end of a tree with nodes.  `shtring_trim_trailing` cuts after
the first character that is not white space of the last chunk that has such a
character, and it cuts at the beginning of the tree instead of the window.
-/

namespace Shades

/-! ## white space at the ends of a list -/

section ends

variable {α : Type} {p : α → Bool} {xs ys : List α}

theorem drop_length_takeWhile (p : α → Bool) (xs : List α) :
    xs.drop (xs.takeWhile p).length = xs.dropWhile p := by
  have hsplit := List.takeWhile_append_dropWhile (p := p) (l := xs)
  conv_lhs => arg 2; rw [← hsplit]
  exact List.drop_left

theorem take_length_rdropWhile (p : α → Bool) (xs : List α) :
    xs.take (xs.rdropWhile p).length = xs.rdropWhile p :=
  (List.prefix_iff_eq_take.mp (List.rdropWhile_prefix p xs)).symm

theorem rdropWhile_append_of_pos (h : ∀ y ∈ ys, p y) :
    (xs ++ ys).rdropWhile p = xs.rdropWhile p := by
  unfold List.rdropWhile
  rw [List.reverse_append, List.dropWhile_append_of_pos fun y hy => h y (List.mem_reverse.mp hy)]

theorem rdropWhile_append_of_not (h : ¬ ∀ y ∈ ys, p y) :
    (xs ++ ys).rdropWhile p = xs ++ ys.rdropWhile p := by
  have hne : ys.rdropWhile p ≠ [] := fun heq => h (List.rdropWhile_eq_nil_iff.mp heq)
  unfold List.rdropWhile at hne ⊢
  rw [List.reverse_append, List.dropWhile_append, if_neg, List.reverse_append,
    List.reverse_reverse]
  rw [List.isEmpty_iff]
  exact fun heq => hne (by rw [heq, List.reverse_nil])

/-- The distance of the first element that is not dropped to the last one. -/
theorem length_rdropWhile (h : ¬ ∀ x ∈ xs, p x) :
    ∃ d, (xs.rdropWhile p).length = (xs.takeWhile p).length + 1 + d ∧
      (d = 0 ↔ xs.countP (fun x => !p x) = 1) := by
  induction xs with
  | nil => exact absurd (fun x hx => absurd hx List.not_mem_nil) h
  | cons x xs ih =>
    by_cases hx : p x
    · have hrest : ¬ ∀ y ∈ xs, p y := fun hall => h (List.forall_mem_cons.mpr ⟨hx, hall⟩)
      have hcons : (x :: xs).rdropWhile p = x :: xs.rdropWhile p :=
        @rdropWhile_append_of_not α p [x] xs hrest
      obtain ⟨d, hlength, hd⟩ := ih hrest
      refine ⟨d, ?_, ?_⟩
      · rw [hcons, List.takeWhile_cons_of_pos hx, List.length_cons, List.length_cons, hlength]
        omega
      · rw [hd, List.countP_cons_of_neg (by simp [hx])]
    · refine ⟨(xs.rdropWhile p).length, ?_, ?_⟩
      · rw [List.takeWhile_cons_of_neg hx, ← List.singleton_append]
        by_cases hall : ∀ y ∈ xs, p y
        · rw [rdropWhile_append_of_pos hall, List.rdropWhile_singleton, if_neg hx,
            List.rdropWhile_eq_nil_iff.mpr hall]
          rfl
        · rw [rdropWhile_append_of_not hall, List.length_append]
          rfl
      · rw [List.length_eq_zero_iff, List.rdropWhile_eq_nil_iff,
          List.countP_cons_of_pos (by simp [hx])]
        simp

end ends

/-! ## the walks -/

/-- The part has a character that is not white space. -/
def ChunkPart.hasNonWs (part : ChunkPart) : Bool := part.text.any (!isSpace ·)

/-- The last part that has a character other than white space has no second one. -/
def LoneLast (parts : List ChunkPart) : Prop :=
  ∀ part ∈ parts.reverse.find? ChunkPart.hasNonWs, part.text.countP (!isSpace ·) = 1

instance (parts : List ChunkPart) : Decidable (LoneLast parts) :=
  inferInstanceAs (Decidable (∀ part ∈ parts.reverse.find? ChunkPart.hasNonWs, _))

section walk

variable {words : Nat → Nat} {S : Nat → Prop} {p off len start n : Nat} {chunks : List Chunk}

theorem ChunkPart.hasNonWs_iff {part : ChunkPart} :
    part.hasNonWs = true ↔ ¬ ∀ c ∈ part.text, isSpace c := by
  simp [ChunkPart.hasNonWs]

/-- The characters of a part. -/
theorem ShtringAt.copy_part (hs : ShtringAt words S p chunks off len) {pos : Nat} {part : ChunkPart}
    (hpart : part ∈ partsOf start n chunks pos) :
    copyChunkToCstr words part.chunk part.offset part.text.length = part.text := by
  obtain ⟨c, hc, hchunk, hle, htext⟩ := partsOf_mem hpart
  rw [copyChunkToCstr_eq, hchunk, (hs.chunkAt c hc).chunkBytes_eq hle, ← htext]

/-- The first character that is not white space, from the left. -/
theorem runParts_first {parts : List ChunkPart} {t : Nat} (hparts : Consecutive t parts)
    (hcopy : ∀ part ∈ parts,
      copyChunkToCstr words part.chunk part.offset part.text.length = part.text)
    (hfit : t + (partsText parts).length < 2 ^ 32) :
    (runParts (findFirstNonWs words) parts t).2 =
      t + ((partsText parts).takeWhile isSpace).length := by
  induction parts generalizing t with
  | nil => rfl
  | cons part parts ih =>
    obtain ⟨hstart, hparts⟩ := hparts
    have htake := (List.takeWhile_sublist (p := isSpace) (l := part.text)).length_le
    rw [partsText_cons, List.length_append] at hfit
    rw [runParts, findFirstNonWs, hcopy part List.mem_cons_self, hstart, partsText_cons,
      List.takeWhile_append, add32_of_lt (by omega)]
    by_cases hall : (part.text.takeWhile isSpace).length = part.text.length
    · have hrest := ih hparts (fun part' hpart' => hcopy part' (List.mem_cons_of_mem _ hpart'))
        (by omega)
      simp only [hall, Nat.lt_irrefl, if_false, if_true]
      rw [if_neg (by decide), hrest, List.length_append, Nat.add_assoc]
    · simp only [if_neg hall, if_pos (Nat.lt_of_le_of_ne htake hall), if_true]

/-- What the walk from the right finds: the first such character of the last part
that has one. -/
theorem runParts_last {parts : List ChunkPart} {arg : Nat}
    (hcopy : ∀ part ∈ parts,
      copyChunkToCstr words part.chunk part.offset part.text.length = part.text) :
    (runParts (findLastNonWs words) parts arg).2 =
      (parts.find? ChunkPart.hasNonWs).elim arg fun part =>
        add32 part.start (part.text.takeWhile isSpace).length := by
  induction parts with
  | nil => rfl
  | cons part parts ih =>
    have hrest := ih fun part' hpart' => hcopy part' (List.mem_cons_of_mem _ hpart')
    rw [runParts, findLastNonWs, hcopy part List.mem_cons_self, List.find?_cons]
    by_cases hnonWs : part.hasNonWs = true
    · have hnot := ChunkPart.hasNonWs_iff.mp hnonWs
      have hne : part.text.length ≠ 0 := fun hzero => hnot (by
        rw [List.eq_nil_of_length_eq_zero hzero]
        simp)
      have htake : (part.text.takeWhile isSpace).length ≠ part.text.length := fun heq => hnot
        (List.takeWhile_eq_self_iff.mp ((List.takeWhile_prefix isSpace).eq_of_length heq))
      simp [hnonWs, hne, htake]
    · have hall := Decidable.not_not.mp (fun hnot => hnonWs (ChunkPart.hasNonWs_iff.mpr hnot))
      rw [List.takeWhile_eq_self_iff.mpr hall]
      simp [hnonWs, hrest]

/-- Where the text without the white space at its end ends. -/
theorem length_rdropWhile_parts {parts : List ChunkPart} (hparts : Consecutive 0 parts)
    {part : ChunkPart} (hfind : parts.reverse.find? ChunkPart.hasNonWs = some part) :
    ∃ d, ((partsText parts).rdropWhile isSpace).length =
        part.start + (part.text.takeWhile isSpace).length + 1 + d ∧
      (d = 0 ↔ part.text.countP (!isSpace ·) = 1) := by
  obtain ⟨hnonWs, after, before, hsplit, hafter⟩ := List.find?_eq_some_iff_append.mp hfind
  obtain rfl : parts = before.reverse ++ part :: after.reverse := by
    rw [← @List.reverse_reverse _ parts, hsplit]
    simp
  have hnot := ChunkPart.hasNonWs_iff.mp hnonWs
  have hspace : ∀ c ∈ partsText after.reverse, isSpace c := by
    intro c hc
    obtain ⟨part', hpart', hc⟩ := List.mem_flatMap.mp hc
    have hno := hafter part' (List.mem_reverse.mp hpart')
    rw [Bool.not_eq_true', ← Bool.not_eq_true, ChunkPart.hasNonWs_iff, Decidable.not_not] at hno
    exact hno c hc
  obtain ⟨-, hstart, -⟩ := Consecutive.append.mp hparts
  obtain ⟨d, hlength, hd⟩ := length_rdropWhile hnot
  refine ⟨d, ?_, hd⟩
  rw [partsText_append, partsText_cons, ← List.append_assoc, rdropWhile_append_of_pos hspace,
    rdropWhile_append_of_not hnot, List.length_append, hlength, hstart]
  omega

theorem consecutive_window (off len : Nat) (chunks : List Chunk) :
    Consecutive 0 (partsOf off len chunks 0) := by
  have h := @partsOf_consecutive off len chunks 0
  rwa [Nat.zero_sub] at h

theorem partsText_window (off len : Nat) (chunks : List Chunk) :
    partsText (partsOf off len chunks 0) = windowText chunks off len := by
  rw [partsText_partsOf, Nat.sub_zero, Nat.zero_max, Nat.add_sub_cancel_left]
  rfl

/-- The walk of `shtring_trim_trailing`. -/
theorem ShtringAt.lastNonWs (hs : ShtringAt words S p chunks off len)
    (hmark : (textOf chunks).length ≠ shtringMonkeyStartPos) :
    ∃ ret pos q, shtringMonkey words (findLastNonWs words) .rightToLeft off len
        (shtringHeight words p + 1) (shtringChunkTree words p) shtringMonkeyStartPos noNonWs =
          some (ret, pos, q) ∧
      ((q = noNonWs ∧ (windowText chunks off len).rdropWhile isSpace = [] ∧
          LoneLast (partsOf off len chunks 0)) ∨
        ∃ d, ((windowText chunks off len).rdropWhile isSpace).length = q + 1 + d ∧
          (d = 0 ↔ LoneLast (partsOf off len chunks 0))) := by
  have hwindow := hs.window
  have hfit := hs.fit
  have hparts := consecutive_window off len chunks
  have htext := partsText_window off len chunks
  obtain ⟨ret, pos, hrun⟩ := @ShtringAt.monkey_runs words S Nat (findLastNonWs words) off len
    .rightToLeft p off len chunks hs (by omega) ⟨by omega, fun _ => by rwa [Nat.zero_add]⟩ noNonWs
  refine ⟨ret, pos, _, hrun, ?_⟩
  rw [MonkeyOrder.arrange, runParts_last fun part hpart =>
    hs.copy_part (List.mem_reverse.mp hpart)]
  rw [← htext]
  cases hfind : (partsOf off len chunks 0).reverse.find? ChunkPart.hasNonWs with
  | none =>
    refine .inl ⟨rfl, ?_, fun part hpart => by rw [hfind] at hpart; exact absurd hpart (by simp)⟩
    rw [List.rdropWhile_eq_nil_iff]
    intro c hc
    obtain ⟨part, hpart, hc⟩ := List.mem_flatMap.mp hc
    have hno := List.find?_eq_none.mp hfind part (List.mem_reverse.mpr hpart)
    rw [ChunkPart.hasNonWs_iff, Decidable.not_not] at hno
    exact hno c hc
  | some part =>
    obtain ⟨d, hlength, hd⟩ := length_rdropWhile_parts hparts hfind
    have hle := (List.rdropWhile_prefix isSpace (windowText chunks off len)).length_le
    rw [← htext, hlength, htext, length_windowText hwindow] at hle
    refine .inr ⟨d, ?_, ?_⟩
    · rw [hlength, Option.elim_some, add32_of_lt (by omega)]
    · rw [hd]
      unfold LoneLast
      rw [hfind]
      simp

/-- The walk of `shtring_trim_leading`. -/
theorem ShtringAt.firstNonWs (hs : ShtringAt words S p chunks off len) :
    ∃ ret pos, shtringMonkey words (findFirstNonWs words) .leftToRight off len
        (shtringHeight words p + 1) (shtringChunkTree words p) shtringMonkeyStartPos 0 =
      some (ret, pos, ((windowText chunks off len).takeWhile isSpace).length) := by
  have hwindow := hs.window
  have hfit := hs.fit
  have hparts := consecutive_window off len chunks
  have htext := partsText_window off len chunks
  obtain ⟨ret, pos, hrun⟩ := @ShtringAt.monkey_runs words S Nat (findFirstNonWs words) off len
    .leftToRight p off len chunks hs (by omega) ⟨by omega, by simp⟩ 0
  refine ⟨ret, pos, ?_⟩
  rw [hrun, MonkeyOrder.arrange, runParts_first hparts (fun part hpart => hs.copy_part hpart),
    htext, Nat.zero_add]
  rw [htext, length_windowText hwindow]
  omega

end walk

/-! ## trimming -/

section trim

variable {m : Memory} {s off len : Nat} {chunks : List Chunk}

/-- The operation makes a shtring with the text, and everything else is as it
was. -/
def GivesText (op : Memory → Nat → Option (Nat × Memory)) (m : Memory) (s : Nat) (text : List Nat)
    (r : Nat) (m' : Memory) : Prop :=
  op m s = some (r, m') ∧ m.Extends m' ∧
    ∃ chunks off len, ShtringAt m'.words m'.Live r chunks off len ∧
      windowText chunks off len = text

/-- The operation makes a shtring with the text, and so it does for this shtring. -/
def TrimsTo (op : Memory → Nat → Option (Nat × Memory)) (m : Memory) (s : Nat) (text : List Nat) :
    Prop :=
  ∃ r m', GivesText op m s text r m' ∧ ∃ r' m'', GivesText op m' r text r' m''

theorem shtringTrimLeading_eq (hs : ShtringAt m.words m.Live s chunks off len) :
    shtringTrimLeading m s =
      if ((windowText chunks off len).takeWhile isSpace).length = 0 then some (s, m)
      else (minimalSubtree m.words (shtringChunkTree m.words s)
          (off + ((windowText chunks off len).takeWhile isSpace).length)
          (len - ((windowText chunks off len).takeWhile isSpace).length)).bind
        fun r => shtringNewShtring m r.2
          (len - ((windowText chunks off len).takeWhile isSpace).length)
          (shtringTreeHeight m.words r.1) r.1 := by
  have hwindow := hs.window
  have hfit := hs.fit
  obtain ⟨ret, pos, hwalk⟩ := hs.firstNonWs
  have htake := (List.takeWhile_prefix (l := windowText chunks off len) isSpace).length_le
  rw [length_windowText hwindow] at htake
  unfold shtringTrimLeading
  simp only [hs.length, hs.offset, hwalk, Option.bind_eq_bind, Option.bind_some]
  rw [add32_of_lt (by omega), sub32_of_le htake (by omega)]

/-- When `shtring_trim_leading` is right: some text is left, or the window does not go to
the end of a tree with nodes. -/
def LeadingRight (chunks : List Chunk) (off len height : Nat) : Prop :=
  ¬ (0 < len ∧ (∀ c ∈ windowText chunks off len, isSpace c) ∧
    off + len = (textOf chunks).length ∧ 1 < height)

instance (chunks : List Chunk) (off len height : Nat) :
    Decidable (LeadingRight chunks off len height) :=
  inferInstanceAs (Decidable (¬ _))

/-- `shtring_trim_leading`. -/
theorem trims_leading_iff (hs : ShtringAt m.words m.Live s chunks off len)
    (hcan : m.canAllocate shtringWords) :
    TrimsTo shtringTrimLeading m s ((windowText chunks off len).dropWhile isSpace) ↔
      LeadingRight chunks off len (shtringHeight m.words s) := by
  unfold LeadingRight
  have hwindow := hs.window
  have hlength := length_windowText hwindow
  have hsplit := drop_length_takeWhile isSpace (windowText chunks off len)
  have hrun := shtringTrimLeading_eq hs
  obtain ⟨w, hw⟩ : ∃ w, w = ((windowText chunks off len).takeWhile isSpace).length := ⟨_, rfl⟩
  have hle : w ≤ len := by
    rw [hw]
    exact (List.takeWhile_prefix isSpace).length_le.trans_eq hlength
  rw [← hw] at hrun hsplit
  constructor
  · rintro ⟨r, m', ⟨hop, -⟩, -⟩ ⟨hpos, hall, hend, hheight⟩
    have hwlen : w = len := by rw [hw, List.takeWhile_eq_self_iff.mpr hall, hlength]
    have ht := hs.tree.resolve_left fun h => absurd h.1 (by omega)
    rw [hrun, if_neg (by omega), minimalSubtree_past ht hheight (by omega) hs.fit] at hop
    cases hop
  · intro hok
    by_cases hzero : w = 0
    · rw [if_pos hzero] at hrun
      rw [hzero, List.drop_zero] at hsplit
      have hgives : GivesText shtringTrimLeading m s ((windowText chunks off len).dropWhile isSpace)
          s m :=
        ⟨hrun, .refl m, chunks, off, len, hs, hsplit⟩
      exact ⟨s, m, hgives, s, m, hgives⟩
    · rw [if_neg hzero] at hrun
      have hin : off + w < (textOf chunks).length ∨ shtringHeight m.words s ≤ 1 := by
        by_contra hout
        refine hok ⟨by omega, ?_, by omega, by omega⟩
        have hself := (List.takeWhile_prefix (l := windowText chunks off len) isSpace).eq_of_length
          (by omega)
        exact List.takeWhile_eq_self_iff.mp hself
      obtain ⟨r, m', chunks', start', hnew, hext, -, hs', hplace⟩ :=
        @ShtringAt.subWindow m s off len (off + w) (len - w) chunks hs 0 hin (by omega)
          (by rwa [Nat.zero_add])
      have htext : windowText chunks' start' (len - w) =
          (windowText chunks off len).dropWhile isSpace := by
        rw [hplace.windowText hs'.window, ← hsplit]
        unfold windowText
        rw [List.drop_take, List.drop_drop]
      -- nothing is left to take off
      have hagain : shtringTrimLeading m' r = some (r, m') := by
        have hsum := congrArg List.length (List.takeWhile_append_dropWhile (p := isSpace)
          (l := windowText chunks' start' (len - w)))
        rw [shtringTrimLeading_eq hs', if_pos]
        rw [List.length_append, htext, List.dropWhile_idempotent] at hsum
        rw [htext]
        omega
      exact ⟨r, m', ⟨hrun.trans hnew, hext, chunks', start', _, hs', htext⟩,
        r, m', hagain, .refl m', chunks', start', _, hs', htext⟩

/-- Where `shtring_trim_trailing` cuts. -/
theorem shtringTrimTrailing_cases (hs : ShtringAt m.words m.Live s chunks off len)
    (hmark : (textOf chunks).length ≠ shtringMonkeyStartPos) :
    ((windowText chunks off len).rdropWhile isSpace = [] ∧ LoneLast (partsOf off len chunks 0) ∧
      shtringTrimTrailing m s = shtringNewShtring m 0 0 0 nullPtr) ∨
    ∃ q d, ((windowText chunks off len).rdropWhile isSpace).length = q + 1 + d ∧
      (d = 0 ↔ LoneLast (partsOf off len chunks 0)) ∧
      shtringTrimTrailing m s = if q + 1 = len then some (s, m)
        else (minimalSubtree m.words (shtringChunkTree m.words s) 0 (q + 1)).bind fun r =>
          shtringNewShtring m r.2 (q + 1) (shtringTreeHeight m.words r.1) r.1 := by
  have hwindow := hs.window
  have hfit := hs.fit
  have hle := (List.rdropWhile_prefix isSpace (windowText chunks off len)).length_le
  rw [length_windowText hwindow] at hle
  obtain ⟨ret, pos, q, hwalk, ⟨rfl, hnil, hlone⟩ | ⟨d, hlength, hlone⟩⟩ := hs.lastNonWs hmark
  · refine .inl ⟨hnil, hlone, ?_⟩
    unfold shtringTrimTrailing
    simp only [hs.length, hs.offset, hwalk, Option.bind_eq_bind, Option.bind_some, if_true]
  · refine .inr ⟨q, d, hlength, hlone, ?_⟩
    have hq : q ≠ noNonWs := by
      unfold noNonWs
      omega
    unfold shtringTrimTrailing
    simp only [hs.length, hs.offset, hwalk, Option.bind_eq_bind, Option.bind_some, if_neg hq]
    rw [add32_of_lt (by omega)]

/-- The parts of a window in a part of the tree. -/
theorem SamePlace.partsOf {chunks' : List Chunk} {start' start n : Nat}
    (h : SamePlace chunks' start' chunks start) (hin : start' + n ≤ (textOf chunks').length) :
    Shades.partsOf start' n chunks' 0 = Shades.partsOf start n chunks 0 := by
  obtain ⟨pre, post, rfl, rfl⟩ := h
  have hpre : Shades.partsOf ((textOf pre).length + start') n pre 0 = [] :=
    partsOf_outside (.inr (by omega))
  have hpost : Shades.partsOf ((textOf pre).length + start') n post
      (0 + (textOf (pre ++ chunks')).length) = [] := by
    rw [textOf_append, List.length_append]
    exact partsOf_outside (.inl (by omega))
  rw [partsOf_append, partsOf_append, hpre, hpost, List.append_nil, List.nil_append, Nat.zero_add]
  exact (partsOf_add _ _ 0).symm

/-- When `shtring_trim_trailing` is right: no chunk is cut too early, and the window
starts with the tree or has the bytes that the tree starts with. -/
def TrailingRight (chunks : List Chunk) (off len : Nat) : Prop :=
  let k := ((windowText chunks off len).rdropWhile isSpace).length
  LoneLast (partsOf off len chunks 0) ∧ (k = 0 ∨ k = len ∨
    ((textOf chunks).take k = (windowText chunks off len).take k ∧ LoneLast (partsOf 0 k chunks 0)))

instance (chunks : List Chunk) (off len : Nat) : Decidable (TrailingRight chunks off len) :=
  inferInstanceAs (Decidable (_ ∧ _))

/-- A text without white space at its end is left as it is only if the last chunk is
not cut. -/
theorem givesText_self_iff (hs : ShtringAt m.words m.Live s chunks off len)
    (hmark : (textOf chunks).length ≠ shtringMonkeyStartPos) (hcan : m.canAllocate shtringWords)
    (hself : (windowText chunks off len).rdropWhile isSpace = windowText chunks off len)
    (hpos : 0 < len) :
    (∃ r m', GivesText shtringTrimTrailing m s (windowText chunks off len) r m') ↔
      LoneLast (partsOf off len chunks 0) := by
  have hwindow := hs.window
  have hlength := length_windowText hwindow
  rcases shtringTrimTrailing_cases hs hmark with ⟨hnil, -, -⟩ | ⟨q, d, hk, hlone, hrun⟩
  · rw [← hself, hnil, List.length_nil] at hlength
    omega
  · rw [hself, hlength] at hk
    rw [← hlone]
    by_cases hwhole : q + 1 = len
    · rw [if_pos hwhole] at hrun
      exact iff_of_true ⟨s, m, hrun, .refl m, chunks, off, len, hs, rfl⟩ (by omega)
    · rw [if_neg hwhole] at hrun
      refine iff_of_false ?_ (by omega)
      rintro ⟨r, m', hop, -, chunks₁, off₁, len₁, hs₁, htext₁⟩
      obtain ⟨r', m'', chunks', start', hnew, -, -, hs', -⟩ :=
        @ShtringAt.subWindow m s off len 0 (q + 1) chunks hs 0 (.inl (by omega)) (by omega)
          (by rwa [Nat.zero_add])
      cases hop.symm.trans (hrun.trans hnew)
      have hlength₁ := congrArg List.length ((hs'.text_unique hs₁).trans htext₁)
      rw [hlength, length_windowText hs'.window] at hlength₁
      omega

/-- `shtring_trim_trailing`. -/
theorem trims_trailing_iff (hs : ShtringAt m.words m.Live s chunks off len)
    (hmark : (textOf chunks).length ≠ shtringMonkeyStartPos)
    (hcan : m.canAllocate (2 * shtringWords)) :
    TrimsTo shtringTrimTrailing m s ((windowText chunks off len).rdropWhile isSpace) ↔
      TrailingRight chunks off len := by
  have hwindow := hs.window
  have hlength := length_windowText hwindow
  have htake := take_length_rdropWhile isSpace (windowText chunks off len)
  have hle := (List.rdropWhile_prefix isSpace (windowText chunks off len)).length_le
  have hcan₁ : m.canAllocate (shtringWords + shtringWords) := by rwa [← Nat.two_mul]
  unfold TrailingRight
  rcases shtringTrimTrailing_cases hs hmark with ⟨hnil, hlone, hrun⟩ | ⟨q, d, hk, hlone, hrun⟩
  · -- nothing but white space: an empty shtring, and from that another one
    have hempty : ∀ {m : Memory} {r : Nat}, ShtringAt m.words m.Live r [] 0 0 →
        shtringTrimTrailing m r = shtringNewShtring m 0 0 0 nullPtr := by
      intro m r hr
      rcases shtringTrimTrailing_cases hr (by decide) with ⟨-, -, hrun⟩ | ⟨q, d, hk, -, -⟩
      · exact hrun
      · change 0 = q + 1 + d at hk
        omega
    obtain ⟨r, m', hnew, hext, hs'⟩ := @shtringNewShtring_spec m 0 nullPtr [] 0 0
      (.inl ⟨rfl, rfl, rfl⟩) (by decide) (by decide)
      (Memory.canAllocate_mono hcan₁ (Nat.le_add_left _ _))
    obtain ⟨r', m'', hnew', hext', hs''⟩ := @shtringNewShtring_spec m' 0 nullPtr [] 0 0
      (.inl ⟨rfl, rfl, rfl⟩) (by decide) (by decide) (shtringNewShtring_canAllocate hnew hcan₁)
    rw [hnil]
    exact iff_of_true ⟨r, m', ⟨hrun.trans hnew, hext, [], 0, 0, hs', rfl⟩, r', m'',
      (hempty hs').trans hnew', hext', [], 0, 0, hs'', rfl⟩ ⟨hlone, .inl rfl⟩
  · by_cases hwhole : q + 1 = len
    · rw [if_pos hwhole] at hrun
      have hself : (windowText chunks off len).rdropWhile isSpace = windowText chunks off len :=
        (List.rdropWhile_prefix isSpace _).eq_of_length (by omega)
      have hgives : GivesText shtringTrimTrailing m s
          ((windowText chunks off len).rdropWhile isSpace) s m :=
        ⟨hrun, .refl m, chunks, off, len, hs, hself.symm⟩
      exact iff_of_true ⟨s, m, hgives, s, m, hgives⟩
        ⟨hlone.mp (by omega), .inr (.inl (by omega))⟩
    · rw [if_neg hwhole] at hrun
      obtain ⟨r, m', chunks', start', hnew, hext, hcan', hs', hplace⟩ :=
        @ShtringAt.subWindow m s off len 0 (q + 1) chunks hs shtringWords (.inl (by omega))
          (by omega) hcan₁
      have htext : windowText chunks' start' (q + 1) = (textOf chunks).take (q + 1) := by
        rw [hplace.windowText hs'.window]
        rfl
      have hparts := hplace.partsOf hs'.window
      have hmark' : (textOf chunks').length ≠ shtringMonkeyStartPos := by
        have := hplace.length_le
        have := hs.fit
        unfold shtringMonkeyStartPos at hmark ⊢
        omega
      constructor
      · rintro ⟨r₁, m₁, ⟨hop, -, chunks₁, off₁, len₁, hs₁, htext₁⟩, r₂, m₂, hgives₂⟩
        cases hop.symm.trans (hrun.trans hnew)
        have htrim := (hs'.text_unique hs₁).trans htext₁
        have hlength₁ := congrArg List.length htrim
        rw [length_windowText hs'.window] at hlength₁
        have hself := List.rdropWhile_idempotent isSpace (windowText chunks off len)
        rw [← htrim] at hself hgives₂
        have hagain := (givesText_self_iff hs' hmark' hcan' hself (Nat.succ_pos q)).mp
          ⟨r₂, m₂, hgives₂⟩
        rw [hparts] at hagain
        rw [← hlength₁]
        refine ⟨hlone.mp (by omega), .inr (.inr ⟨?_, hagain⟩)⟩
        exact (htext.symm.trans htrim).trans (by rw [hlength₁, htake])
      · rintro ⟨hlone₁, hcases⟩
        have hd := hlone.mpr hlone₁
        obtain ⟨hbytes, hlone₂⟩ := (hcases.resolve_left (by omega)).resolve_left (by omega)
        rw [hk, hd, Nat.add_zero] at hbytes hlone₂ htake
        rw [← hparts] at hlone₂
        have htrim := htext.trans (hbytes.trans htake)
        have hself := List.rdropWhile_idempotent isSpace (windowText chunks off len)
        rw [← htrim] at hself ⊢
        exact ⟨r, m', ⟨hrun.trans hnew, hext, chunks', start', q + 1, hs', rfl⟩,
          (givesText_self_iff hs' hmark' hcan' hself (Nat.succ_pos q)).mpr hlone₂⟩

/-- Trimming takes the white space at the ends off, and nothing the second time. -/
theorem shtring_trim_space (hs : ShtringAt m.words m.Live s chunks off len)
    (hmark : (textOf chunks).length ≠ shtringMonkeyStartPos)
    (hcan : m.canAllocate (2 * shtringWords)) :
    TrimsTo shtringTrimLeading m s ((windowText chunks off len).dropWhile isSpace) ∧
        TrimsTo shtringTrimTrailing m s ((windowText chunks off len).rdropWhile isSpace) ↔
      LeadingRight chunks off len (shtringHeight m.words s) ∧ TrailingRight chunks off len :=
  and_congr (trims_leading_iff hs (Memory.canAllocate_mono hcan (by decide)))
    (trims_trailing_iff hs hmark hcan)

end trim

/-- " a " in one chunk. -/
def spacedLetter : Memory := smallMemory [
    (10, CellType.shtringChunk.header + 3),
    (11, 0x20612000),
    (20, CellType.shtring.header),
    (21, 0),
    (22, 3),
    (23, 1),
    (24, ptrToWord 10)]

theorem spacedLetter_shtring :
    ShtringAt spacedLetter.words spacedLetter.Live 20 [(10, [0x20, 0x61, 0x20])] 0 3 :=
  .of_chunk (fun _ ha => .inl ha : ∀ a < 100, spacedLetter.Live a) (by decide) (by decide)
    (by decide) (by decide)

/-- " a " becomes "a " and " a". -/
theorem shtring_trim_space_letter :
    TrimsTo shtringTrimLeading spacedLetter 20 [0x61, 0x20] ∧
      TrimsTo shtringTrimTrailing spacedLetter 20 [0x20, 0x61] :=
  (shtring_trim_space spacedLetter_shtring (by decide) (by decide)).mpr (by decide)

/-- "abcd", with the chunks "ab" and "cd", loses its last character. -/
theorem shtring_trim_trailing_abcd :
    ShtringAt twoChunks.words twoChunks.Live 40 [(10, [0x61, 0x62]), (14, [0x63, 0x64])] 0 4 ∧
    twoChunks.canAllocate (2 * shtringWords) ∧
    (shtringTrimTrailing twoChunks 40).bind (fun r => shtringStrat r.2.words r.1 0 3) =
      some [0x61, 0x62, 0x63] ∧
    ¬ TrimsTo shtringTrimTrailing twoChunks 40 [0x61, 0x62, 0x63, 0x64] := by
  refine ⟨twoChunks_abcd, by decide, by decide +kernel, ?_⟩
  rintro ⟨r, m', ⟨hop, -, chunks, off, len, hs, htext⟩, -⟩
  have hlen : (shtringTrimTrailing twoChunks 40).map (fun r => shtringLength r.2.words r.1) =
      some 3 := by decide +kernel
  rw [hop, Option.map_some, hs.length] at hlen
  obtain rfl := Option.some.inj hlen
  have hlength := length_windowText hs.window
  rw [htext] at hlength
  exact absurd hlength (by decide)

end Shades
