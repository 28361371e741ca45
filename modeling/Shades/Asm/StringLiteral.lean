import Shades.Asm.StringCode
import Shades.Shtring.Print
import Shades.Shtring.RoundTrip

/-!
# Shades.Asm.StringLiteral

What becomes of a string that `string_quote` writes and the assembler reads.  The
scanner has no rule for a backslash that is quoted by a backslash.
-/

namespace Shades

/-! ## the scanner -/

/-- A character in front of what the scanner has read. -/
def pushChar (c : Nat) (result : Option (List Nat × List Nat)) : Option (List Nat × List Nat) :=
  result.map fun (chars, rest) => (c :: chars, rest)

theorem pushChar_eq_some {c : Nat} {result : Option (List Nat × List Nat)} {chars rest : List Nat} :
    pushChar c result = some (chars, rest) ↔
      ∃ chars', chars = c :: chars' ∧ result = some (chars', rest) := by
  cases result with
  | none => simp [pushChar]
  | some result =>
    simp only [pushChar, Option.map_some, Option.some.injEq, Prod.mk.injEq]
    constructor
    · rintro ⟨rfl, rfl⟩
      exact ⟨_, rfl, rfl⟩
    · rintro ⟨chars', rfl, rfl⟩
      exact ⟨rfl, rfl⟩

section rules

variable {input : List Nat} {n c : Nat}

theorem inString_of_stop (h : longest input stringRules = some (n, .stop)) :
    inString input = some ([], input.drop n) := by
  rw [inString.eq_def]
  split <;> simp_all

theorem inString_of_put (h : longest input stringRules = some (n, .put c)) :
    inString input = pushChar c (inString (input.drop n)) := by
  rw [inString.eq_def]
  split <;> simp_all [pushChar]

theorem inString_of_putSelf (h : longest input stringRules = some (n, .putSelf)) :
    inString input = pushChar (input.headD 0) (inString (input.drop n)) := by
  rw [inString.eq_def]
  split <;> simp_all [pushChar]

end rules

/-- The characters that make an escape with a backslash before them. -/
def IsEscaped (c : Nat) : Prop := c = letterT ∨ c = letterN ∨ c = quoteMark

instance (c : Nat) : Decidable (IsEscaped c) :=
  inferInstanceAs (Decidable (c = letterT ∨ c = letterN ∨ c = quoteMark))

@[simp] theorem inString_nil : inString [] = none := by
  rw [inString.eq_def]
  rfl

@[simp] theorem inString_quoteMark (cs : List Nat) : inString (quoteMark :: cs) = some ([], cs) :=
  inString_of_stop (n := 1) rfl

@[simp] theorem inString_tab (cs : List Nat) :
    inString (backslash :: letterT :: cs) = pushChar tabChar (inString cs) :=
  inString_of_put (n := 2) rfl

@[simp] theorem inString_newline (cs : List Nat) :
    inString (backslash :: letterN :: cs) = pushChar newlineChar (inString cs) :=
  inString_of_put (n := 2) rfl

@[simp] theorem inString_escaped (cs : List Nat) :
    inString (backslash :: quoteMark :: cs) = pushChar quoteMark (inString cs) :=
  inString_of_put (n := 2) rfl

/-- A character that stands for itself. -/
theorem inString_plain {c : Nat} (cs : List Nat) (hc : c ≠ quoteMark) (hc' : c ≠ newlineChar)
    (hb : c ≠ backslash) : inString (c :: cs) = pushChar c (inString cs) := by
  have hlongest : longest (c :: cs) stringRules = some (1, .putSelf) := by
    simp [longest, stringRules, Pattern.matchLength, hc.symm, hc', hb.symm]
  exact inString_of_putSelf hlongest

/-- A backslash that no escape begins with. -/
theorem inString_backslash {c : Nat} (cs : List Nat) (hc : ¬ IsEscaped c) :
    inString (backslash :: c :: cs) = pushChar backslash (inString (c :: cs)) := by
  unfold IsEscaped at hc
  push Not at hc
  have hlongest : longest (backslash :: c :: cs) stringRules = some (1, .putSelf) := by
    have hb : quoteMark ≠ backslash ∧ backslash ≠ newlineChar := by decide
    simp [longest, stringRules, Pattern.matchLength, hc.1.symm, hc.2.1.symm, hc.2.2.symm, hb.1,
      hb.2]
  exact inString_of_putSelf hlongest

/-! ## the quoted text -/

/-- The quoted form of a byte, whether `char` is signed or not. -/
def quoteByte (b : Nat) : List Nat := quoteChar b

/-- The text that `string_quote` makes of a text. -/
def quoteText (text : List Nat) : List Nat :=
  quoteMark :: text.flatMap quoteByte ++ [quoteMark]

theorem quoteByte_of_plain {b : Nat} (hb : b < 256) (hq : b ≠ quoteMark) (ht : b ≠ tabChar)
    (hn : b ≠ newlineChar) (hs : b ≠ backslash) : quoteByte b = [b] := by
  unfold quoteByte quoteChar
  rw [if_neg (by exact_mod_cast hq), if_neg (by exact_mod_cast ht), if_neg (by exact_mod_cast hn),
    if_neg (by exact_mod_cast hs)]
  congr 1
  omega

/-- The scanner undoes the quoting of a character. -/
theorem inString_quoteByte {b : Nat} (cs : List Nat) (hb : b < 256) (hs : b ≠ backslash) :
    inString (quoteByte b ++ cs) = pushChar b (inString cs) := by
  by_cases hq : b = quoteMark
  · rw [hq]
    exact inString_escaped cs
  by_cases ht : b = tabChar
  · rw [ht]
    exact inString_tab cs
  by_cases hn : b = newlineChar
  · rw [hn]
    exact inString_newline cs
  rw [quoteByte_of_plain hb hq ht hn hs]
  exact inString_plain cs hq hn hs

theorem inString_flatMap {text : List Nat} (cs : List Nat) (hbytes : AreBytes text)
    (hs : backslash ∉ text) :
    inString (text.flatMap quoteByte ++ cs) = text.foldr pushChar (inString cs) := by
  induction text with
  | nil => rfl
  | cons b text ih =>
    rw [List.mem_cons, not_or] at hs
    rw [List.flatMap_cons, List.append_assoc,
      inString_quoteByte _ (hbytes b List.mem_cons_self) (Ne.symm hs.1),
      ih (fun b hb => hbytes b (List.mem_cons_of_mem _ hb)) hs.2, List.foldr_cons]

theorem foldr_pushChar_eq_some {text chars rest : List Nat}
    {result : Option (List Nat × List Nat)} :
    text.foldr pushChar result = some (chars, rest) ↔
      ∃ chars', chars = text ++ chars' ∧ result = some (chars', rest) := by
  induction text generalizing chars with
  | nil => simp
  | cons b text ih =>
    rw [List.foldr_cons, pushChar_eq_some]
    constructor
    · rintro ⟨chars', rfl, h⟩
      obtain ⟨chars'', rfl, hresult⟩ := ih.mp h
      exact ⟨chars'', rfl, hresult⟩
    · rintro ⟨chars', rfl, h⟩
      exact ⟨text ++ chars', rfl, ih.mpr ⟨chars', rfl, h⟩⟩

/-- With a backslash too many in front, the scanner does not get back to the text. -/
theorem inString_backslashes {text : List Nat} (tail : List Nat) (hbytes : AreBytes text)
    (k : Nat) :
    inString (backslash :: (List.replicate k backslash ++
      (text.flatMap quoteByte ++ quoteMark :: tail))) ≠ some (text, tail) := by
  intro h
  induction text generalizing k with
  | nil =>
    cases k with
    | zero =>
      rw [List.replicate_zero, List.nil_append, List.flatMap_nil, List.nil_append,
        inString_escaped, pushChar_eq_some] at h
      obtain ⟨chars, hchars, -⟩ := h
      cases hchars
    | succ k =>
      rw [List.replicate_succ, List.cons_append, inString_backslash _ (by decide),
        pushChar_eq_some] at h
      obtain ⟨chars, hchars, -⟩ := h
      cases hchars
  | cons b text ih =>
    have hb := hbytes b List.mem_cons_self
    have htext : AreBytes text := fun b hb => hbytes b (List.mem_cons_of_mem _ hb)
    -- the scanner takes the first backslash for itself, so the text begins with one
    have hslash : ∀ d cs, ¬ IsEscaped d →
        List.replicate k backslash ++
            (quoteByte b ++ (text.flatMap quoteByte ++ quoteMark :: tail)) =
          d :: cs → False := by
      intro d cs hd hcs
      rw [List.flatMap_cons, List.append_assoc, hcs, inString_backslash cs hd,
        pushChar_eq_some] at h
      obtain ⟨chars, hchars, hrest⟩ := h
      obtain ⟨rfl, rfl⟩ := List.cons.inj hchars
      rw [← hcs] at hrest
      refine ih htext (k + 1) ?_
      have hquoted : quoteByte backslash = List.replicate 2 backslash := by decide
      rwa [hquoted, ← List.append_assoc, List.replicate_append_replicate, List.replicate_succ,
        List.cons_append] at hrest
    cases k with
    | succ k => exact hslash backslash _ (by decide) rfl
    | zero =>
      by_cases hq : b = quoteMark
      · exact hslash backslash _ (by decide) (by rw [hq]; rfl)
      by_cases ht : b = tabChar
      · exact hslash backslash _ (by decide) (by rw [ht]; rfl)
      by_cases hn : b = newlineChar
      · exact hslash backslash _ (by decide) (by rw [hn]; rfl)
      by_cases hs : b = backslash
      · exact hslash backslash _ (by decide) (by rw [hs]; rfl)
      have hplain := quoteByte_of_plain hb hq ht hn hs
      by_cases hd : IsEscaped b
      · rw [List.replicate_zero, List.nil_append, List.flatMap_cons, hplain] at h
        rcases hd with rfl | rfl | hd
        · rw [List.append_assoc, List.singleton_append, inString_tab, pushChar_eq_some] at h
          obtain ⟨chars, hchars, -⟩ := h
          exact absurd (List.cons.inj hchars).1 (by decide)
        · rw [List.append_assoc, List.singleton_append, inString_newline, pushChar_eq_some] at h
          obtain ⟨chars, hchars, -⟩ := h
          exact absurd (List.cons.inj hchars).1 (by decide)
        · exact hq hd
      · exact hslash b _ hd (by rw [hplain]; rfl)

/-- The scanner gives a quoted text back exactly if there is no backslash in it. -/
theorem readString_quoteText {text : List Nat} (hbytes : AreBytes text) (tail : List Nat) :
    readString (quoteText text ++ tail) = some (text, tail) ↔ backslash ∉ text := by
  have hread : readString (quoteText text ++ tail) =
      inString (text.flatMap quoteByte ++ quoteMark :: tail) := by
    simp [quoteText, readString]
  rw [hread]
  constructor
  · intro h hmem
    obtain ⟨pre, post, rfl, hpre⟩ := List.eq_append_cons_of_mem hmem
    have hbytes' : AreBytes pre ∧ AreBytes post :=
      ⟨fun b hb => hbytes b (List.mem_append_left _ hb),
        fun b hb => hbytes b (List.mem_append_right _ (List.mem_cons_of_mem _ hb))⟩
    rw [List.flatMap_append, List.append_assoc, inString_flatMap _ hbytes'.1 hpre,
      foldr_pushChar_eq_some] at h
    obtain ⟨chars, hchars, hrest⟩ := h
    obtain rfl := List.append_cancel_left hchars
    have hquoted : quoteByte backslash = [backslash, backslash] := by decide
    rw [List.flatMap_cons, hquoted, List.append_assoc, List.cons_append, List.singleton_append,
      inString_backslash _ (by decide), pushChar_eq_some] at hrest
    obtain ⟨chars, hchars, hrest⟩ := hrest
    obtain ⟨-, rfl⟩ := List.cons.inj hchars
    exact inString_backslashes tail hbytes'.2 0 hrest
  · intro hs
    rw [inString_flatMap _ hbytes hs, inString_quoteMark, foldr_pushChar_eq_some]
    exact ⟨[], by simp⟩

/-! ## the quoted text, further -/

theorem length_quoteByte_le (b : Nat) : (quoteByte b).length ≤ 2 := by
  unfold quoteByte quoteChar
  split_ifs <;> simp

theorem length_quoteText_le (text : List Nat) : (quoteText text).length ≤ 2 * text.length + 2 := by
  have hflat : (text.flatMap quoteByte).length ≤ 2 * text.length := by
    induction text with
    | nil => simp
    | cons b text ih =>
      have hb := length_quoteByte_le b
      simp only [List.flatMap_cons, List.length_append, List.length_cons]
      omega
  simp only [quoteText, List.length_append, List.length_cons, List.length_nil]
  omega

theorem length_le_quoteText (text : List Nat) : text.length + 2 ≤ (quoteText text).length := by
  have hflat : text.length ≤ (text.flatMap quoteByte).length := by
    induction text with
    | nil => simp
    | cons b text ih =>
      have hb : 1 ≤ (quoteByte b).length := by
        unfold quoteByte quoteChar
        split_ifs <;> simp
      simp only [List.flatMap_cons, List.length_append, List.length_cons]
      omega
  simp only [quoteText, List.length_append, List.length_cons, List.length_nil]
  omega

/-- The characters that are quoted, and the letters for them. -/
def escapes : List (Nat × Nat) :=
  [(quoteMark, quoteMark), (tabChar, letterT), (newlineChar, letterN), (backslash, backslash)]

theorem quoteByte_cases {b : Nat} (hb : b < 256) :
    (quoteByte b = [b] ∧ b ≠ newlineChar ∧ b ≠ backslash) ∨
      ∃ e, quoteByte b = [backslash, e] ∧ (b, e) ∈ escapes := by
  by_cases hq : b = quoteMark
  · exact .inr ⟨quoteMark, by rw [hq]; rfl, by simp [hq, escapes]⟩
  by_cases ht : b = tabChar
  · exact .inr ⟨letterT, by rw [ht]; rfl, by simp [ht, escapes]⟩
  by_cases hn : b = newlineChar
  · exact .inr ⟨letterN, by rw [hn]; rfl, by simp [hn, escapes]⟩
  by_cases hs : b = backslash
  · exact .inr ⟨backslash, by rw [hs]; rfl, by simp [hs, escapes]⟩
  exact .inl ⟨quoteByte_of_plain hb hq ht hn hs, hn, hs⟩

theorem mem_quoteByte {b x : Nat} (hb : b < 256) (hx : x ∈ quoteByte b) :
    x < 256 ∧ x ≠ newlineChar := by
  rcases quoteByte_cases hb with ⟨hquoted, hn, -⟩ | ⟨e, hquoted, he⟩
  · rw [hquoted, List.mem_singleton] at hx
    exact hx ▸ ⟨hb, hn⟩
  · have hletters : ∀ p ∈ escapes, p.2 < 256 ∧ p.2 ≠ newlineChar := by decide
    rw [hquoted, List.mem_cons, List.mem_singleton] at hx
    rcases hx with rfl | rfl
    · decide
    · exact hletters _ he

/-- There is no newline in a quoted text. -/
theorem mem_quoteText {text : List Nat} {x : Nat} (hbytes : AreBytes text)
    (hx : x ∈ quoteText text) :
    x < 256 ∧ x ≠ newlineChar := by
  simp only [quoteText, List.mem_append, List.mem_cons, List.mem_flatMap, List.not_mem_nil,
    or_false] at hx
  rcases hx with (rfl | ⟨b, hb, hx⟩) | rfl
  · decide
  · exact mem_quoteByte (hbytes b hb) hx
  · decide

/-- The quoted forms of different bytes differ, whatever follows. -/
theorem quoteByte_append_inj {b b' : Nat} {cs cs' : List Nat} (hb : b < 256) (hb' : b' < 256)
    (h : quoteByte b ++ cs = quoteByte b' ++ cs') : b = b' ∧ cs = cs' := by
  have hletters : ∀ p ∈ escapes, ∀ q ∈ escapes, p.2 = q.2 → p.1 = q.1 := by decide
  rcases quoteByte_cases hb with ⟨hquoted, -, hs⟩ | ⟨e, hquoted, he⟩ <;>
    rcases quoteByte_cases hb' with ⟨hquoted', -, hs'⟩ | ⟨e', hquoted', he'⟩ <;>
    rw [hquoted, hquoted'] at h
  · exact List.cons.inj h
  · exact absurd (List.cons.inj h).1 hs
  · exact absurd (List.cons.inj h).1.symm hs'
  · obtain ⟨hletter, hrest⟩ := List.cons.inj (List.cons.inj h).2
    exact ⟨hletters _ he _ he' hletter, hrest⟩

/-- Different texts have different quoted forms. -/
theorem quoteText_inj {text text' : List Nat} (hbytes : AreBytes text) (hbytes' : AreBytes text')
    (h : quoteText text = quoteText text') : text = text' := by
  have hflat : text.flatMap quoteByte = text'.flatMap quoteByte :=
    List.append_cancel_right (List.cons.inj h).2
  clear h
  have hne : ∀ b cs, quoteByte b ++ cs ≠ [] := by
    intro b cs
    unfold quoteByte quoteChar
    split_ifs <;> simp
  induction text generalizing text' with
  | nil =>
    cases text' with
    | nil => rfl
    | cons b' text' => exact absurd hflat.symm (hne b' _)
  | cons b text ih =>
    cases text' with
    | nil => exact absurd hflat (hne b _)
    | cons b' text' =>
      obtain ⟨rfl, hrest⟩ := quoteByte_append_inj (hbytes b List.mem_cons_self)
        (hbytes' b' List.mem_cons_self) hflat
      rw [ih (fun b hb => hbytes b (List.mem_cons_of_mem _ hb))
        (fun b hb => hbytes' b (List.mem_cons_of_mem _ hb)) hrest]

/-! ## the instruction -/

theorem quoteChar_intOfChar (signed : Bool) {b : Nat} (hb : b < 256) :
    quoteChar (intOfChar signed b) = quoteByte b := by
  unfold intOfChar
  split_ifs with hneg
  · have hplain : ∀ x ∈ [quoteMark, tabChar, newlineChar, backslash], x < 128 := by decide
    have hspecial : ∀ x ∈ [quoteMark, tabChar, newlineChar, backslash],
        (b : Int) - 256 ≠ x ∧ b ≠ x :=
      fun x hx => by
        have := hplain x hx
        omega
    rw [quoteByte_of_plain hb (hspecial quoteMark (by decide)).2 (hspecial tabChar (by decide)).2
      (hspecial newlineChar (by decide)).2 (hspecial backslash (by decide)).2, quoteChar,
      if_neg (hspecial quoteMark (by decide)).1, if_neg (hspecial tabChar (by decide)).1,
      if_neg (hspecial newlineChar (by decide)).1, if_neg (hspecial backslash (by decide)).1]
    congr 1
    omega
  · rfl

section quote

variable {m : Memory} {s off len : Nat} {chunks : List Chunk} {firstGenerationSize : Nat}

theorem quoteLoop_eq (signed : Bool) (hs : ShtringAt m.words m.Live s chunks off len) {n pos : Nat}
    (hn : pos + n = len) :
    quoteLoop signed m.words s n pos =
      some (((windowText chunks off len).drop pos).flatMap quoteByte) := by
  have hlength := length_windowText hs.window
  induction n generalizing pos with
  | zero =>
    rw [List.drop_of_length_le (by omega)]
    rfl
  | succ n ih =>
    have hpos : pos < (windowText chunks off len).length := by omega
    have hchar := shtringCharat_eq signed hs (show pos < len by omega)
      (List.getElem?_eq_getElem hpos)
    have hb := hs.areBytes_window off len _ (List.getElem_mem hpos)
    rw [quoteLoop, hchar, ih (by omega), List.drop_eq_getElem_cons hpos, List.flatMap_cons]
    simp only [Option.bind_eq_bind, Option.bind_some, quoteChar_intOfChar signed hb]

/-- `string_quote` makes a shtring, and the scanner takes what is in it for the string
literal of the text, whatever comes after it.  There is no newline in it, and it is not
what is made of any other text. -/
def QuotesBack (firstGenerationSize : Nat) (aligned signed : Bool) (m : Memory) (s : Nat)
    (text : List Nat) : Prop :=
  ∃ q m' chunks n, stringQuote firstGenerationSize aligned signed m s = some (some q, m') ∧
    m.Extends m' ∧ ShtringAt m'.words m'.Live q chunks 0 n ∧ textOf chunks = quoteText text ∧
    (∀ tail, readString (textOf chunks ++ tail) = some (text, tail)) ∧
    newlineChar ∉ textOf chunks ∧
    ∀ text', AreBytes text' → quoteText text' = textOf chunks → text' = text

/-- `string_quote`, where the first generation is large enough for the quoted text. -/
theorem stringQuote_spec (aligned signed : Bool)
    (hs : ShtringAt m.words m.Live s chunks off len) (hsize : firstGenerationSize < 2 ^ 31)
    (hlen : (quoteText (windowText chunks off len)).length ≤ firstGenerationSize / 2)
    (hcan : m.canAllocate (shtringCreateMaxAllocation (add32 (add32 len len) 2))) :
    ∃ q m' chunks', stringQuote firstGenerationSize aligned signed m s = some (some q, m') ∧
      m.Extends m' ∧
      ShtringAt m'.words m'.Live q chunks' 0 (quoteText (windowText chunks off len)).length ∧
      textOf chunks' = quoteText (windowText chunks off len) := by
  obtain ⟨buf, hbuf⟩ : ∃ buf, buf = quoteText (windowText chunks off len) := ⟨_, rfl⟩
  have hlength := length_windowText hs.window
  have hle := length_quoteText_le (windowText chunks off len)
  have hge := length_le_quoteText (windowText chunks off len)
  have hbytes : AreBytes buf := fun b hb =>
    (mem_quoteText (hs.areBytes_window off len) (hbuf ▸ hb)).1
  rw [← hbuf] at hlen hle hge ⊢
  have hsum : add32 (add32 len len) 2 = 2 * len + 2 := by
    rw [add32_of_lt (show len + len < 2 ^ 32 by omega), add32_of_lt (by omega)]
    omega
  obtain ⟨q, m', chunks', hcreate, hext, hs', htext⟩ := shtringCreate_spec aligned hbytes
    (Nat.lt_trans hsize (by decide)) hlen (Memory.canAllocate_mono hcan (by
      rw [hsum]
      exact shtringTreeSizeOf_mono (c := shtringChunkMax) (by decide) (by decide) (by omega)
        (by omega)))
  refine ⟨q, m', chunks', ?_, hext, hs', htext⟩
  have hloop : quoteLoop signed m.words s len 0 =
      some ((windowText chunks off len).flatMap quoteByte) :=
    quoteLoop_eq signed hs (Nat.zero_add len)
  unfold stringQuote
  simp only [hs.length, if_pos hcan, hloop, Option.bind_eq_bind, Option.bind_some]
  rw [show quoteMark :: (windowText chunks off len).flatMap quoteByte ++ [quoteMark] = buf from
      hbuf.symm, assert_true (by omega)]
  simp only [Option.bind_some, hcreate, Option.isSome_some, assert_true]

/-- The result of `string_quote` is a shtring only where the quoted text is not too long
for the first generation. -/
theorem length_of_stringQuote {aligned signed : Bool} {q : Nat} {m' : Memory}
    (hs : ShtringAt m.words m.Live s chunks off len)
    (h : stringQuote firstGenerationSize aligned signed m s = some (some q, m')) :
    (quoteText (windowText chunks off len)).length ≤ firstGenerationSize / 2 := by
  have hloop : quoteLoop signed m.words s len 0 =
      some ((windowText chunks off len).flatMap quoteByte) :=
    quoteLoop_eq signed hs (Nat.zero_add len)
  by_contra hlen
  have hcreate : shtringCreate firstGenerationSize aligned m
      (quoteMark :: (windowText chunks off len).flatMap quoteByte ++ [quoteMark]) =
      some (none, m) := by
    unfold shtringCreate shtringCreateOf
    exact if_pos (Nat.lt_of_not_le hlen)
  unfold stringQuote at h
  simp only [hs.length, hloop, Option.bind_eq_bind, Option.bind_some, hcreate] at h
  split at h
  · simp [assert] at h
  · simp at h

/-- The scanner of the assembler gives back what `string_quote` was given exactly if there
is no backslash in the string, and the quoted text is not too long for the first generation. -/
theorem string_quote_read (aligned signed : Bool)
    (hs : ShtringAt m.words m.Live s chunks off len) (hsize : firstGenerationSize < 2 ^ 31)
    (hcan : m.canAllocate (shtringCreateMaxAllocation (add32 (add32 len len) 2))) :
    QuotesBack firstGenerationSize aligned signed m s (windowText chunks off len) ↔
      backslash ∉ windowText chunks off len ∧
      (quoteText (windowText chunks off len)).length ≤ firstGenerationSize / 2 := by
  have hbytes := hs.areBytes_window off len
  constructor
  · rintro ⟨q, m', chunks', n, hquote, -, -, htext, hread, -⟩
    rw [htext] at hread
    exact ⟨(readString_quoteText hbytes []).mp (hread []), length_of_stringQuote hs hquote⟩
  · rintro ⟨hslash, hlen⟩
    obtain ⟨q, m', chunks', hquote, hext, hs', htext⟩ :=
      stringQuote_spec aligned signed hs hsize hlen hcan
    refine ⟨q, m', chunks', _, hquote, hext, hs', htext, ?_, ?_, ?_⟩ <;> rw [htext]
    · exact fun tail => (readString_quoteText hbytes tail).mpr hslash
    · exact fun hmem => (mem_quoteText hbytes hmem).2 rfl
    · exact fun text' hbytes' h => quoteText_inj hbytes' hbytes h

end quote

/-- A memory with the shtrings at `20`, the three bytes 61, 5C and 62 of the chunk at
`10`, and at `30`, the last of these bytes. -/
def backslashMemory : Memory := smallMemory [
    (10, CellType.shtringChunk.header + 3),
    (11, 0x615C6200),
    (20, CellType.shtring.header),
    (21, 0),
    (22, 3),
    (23, 1),
    (24, ptrToWord 10),
    (30, CellType.shtring.header),
    (31, 2),
    (32, 1),
    (33, 1),
    (34, ptrToWord 10)]

theorem backslashMemory_whole : ShtringAt backslashMemory.words backslashMemory.Live 20
    [(10, [0x61, 0x5C, 0x62])] 0 3 :=
  .of_chunk (e := 100) (fun _ ha => .inl ha) (by decide) (by decide) (by decide) (by decide)

theorem backslashMemory_canAllocate {n : Nat} (hn : n ≤ 32) :
    backslashMemory.canAllocate (shtringCreateMaxAllocation n) := by
  have hsize : shtringCreateMaxAllocation 32 = 14 := by
    have hchunks : shtringIdiv 32 shtringChunkMax = 1 ∧ shtringIdiv 32 4 = 8 := by decide
    simp only [shtringCreateMaxAllocation, shtringCreateMaxAllocationOf, shtringTreeSizeOf,
      hchunks.1, hchunks.2, treeSizeLoop_done (show ¬ 1 < 1 by decide)]
    decide
  have hle : shtringCreateMaxAllocation n ≤ shtringCreateMaxAllocation 32 :=
    shtringTreeSizeOf_mono (c := shtringChunkMax) (by decide) (by decide) hn (by decide)
  rw [hsize] at hle
  exact Memory.canAllocate_mono (show backslashMemory.canAllocate 14 by decide) hle

/-- A memory with a shtring of a quote, a tab and a newline at `20`. -/
def escapesMemory : Memory := smallMemory [
    (10, CellType.shtringChunk.header + 3),
    (11, 0x22090A00),
    (20, CellType.shtring.header),
    (21, 0),
    (22, 3),
    (23, 1),
    (24, ptrToWord 10)]

theorem escapesMemory_shtring : ShtringAt escapesMemory.words escapesMemory.Live 20
    [(10, [0x22, 0x09, 0x0A])] 0 3 :=
  .of_chunk (e := 100) (fun _ ha => .inl ha) (by decide) (by decide) (by decide) (by decide)

/-- They are all escaped, and come back. -/
theorem string_quote_read_escapes :
    QuotesBack 1000 false true escapesMemory 20 [0x22, 0x09, 0x0A] :=
  (string_quote_read false true escapesMemory_shtring (by decide)
    (backslashMemory_canAllocate (by decide))).mpr (by decide)

/-- The backslash between 61 and 62 comes back as two. -/
theorem string_quote_read_backslash :
    ShtringAt backslashMemory.words backslashMemory.Live 20 [(10, [0x61, 0x5C, 0x62])] 0 3 ∧
    backslashMemory.canAllocate (shtringCreateMaxAllocation (add32 (add32 3 3) 2)) ∧
    readString (quoteText [0x61, 0x5C, 0x62]) = some ([0x61, 0x5C, 0x5C, 0x62], []) ∧
    ¬ QuotesBack 1000 false true backslashMemory 20 [0x61, 0x5C, 0x62] := by
  have hquoted : quoteText [0x61, 0x5C, 0x62] =
      [quoteMark, 0x61, backslash, backslash, 0x62, quoteMark] := by decide
  have hread : readString (quoteText [0x61, 0x5C, 0x62]) = some ([0x61, 0x5C, 0x5C, 0x62], []) := by
    rw [hquoted, readString, if_pos rfl, inString_plain _ (by decide) (by decide) (by decide),
      inString_backslash _ (by decide), inString_backslash _ (by decide),
      inString_plain _ (by decide) (by decide) (by decide), inString_quoteMark]
    rfl
  refine ⟨backslashMemory_whole, backslashMemory_canAllocate (by decide), hread, ?_⟩
  rintro ⟨q, m', chunks, n, -, -, -, htext, hback, -⟩
  have hback := hback []
  rw [htext, List.append_nil, hread] at hback
  exact absurd hback (by decide)

end Shades
