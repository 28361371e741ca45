import Shades.Cells

/-!
# Shades.Tagged

Tagged integers: a word with the two lowest bits `01` is an integer of 30
bits in two's complement, kept in the upper bits.

The macros of `tagged.h` come first, then what a tagged word stands for.
`tagWord` is the word of an integer, whatever its size: the bits above the
30th fall off, so every statement about an operation modulo `2 ^ 30` is an
equation between tagged words.
-/

namespace Shades

/-! ## words and signed words -/

/-- `(word_t) i`. -/
def toWord (i : Int) : Nat := (i % 2 ^ 32).toNat

/-- `(signed_word_t) i`. -/
def signedWord (i : Int) : Int := Int.bmod i (2 ^ 32)

theorem toWord_lt (i : Int) : toWord i < 2 ^ 32 := by
  unfold toWord
  omega

theorem toWord_cast (i : Int) : (toWord i : Int) = i % 2 ^ 32 := by
  unfold toWord
  omega

theorem toWord_of_lt {w : Nat} (h : w < 2 ^ 32) : toWord w = w := by
  unfold toWord
  omega

/-- Words are integers modulo `2 ^ 32`. -/
theorem toWord_eq {i j : Int} : toWord i = toWord j ↔ (2 : Int) ^ 32 ∣ i - j := by
  rw [← Int.natCast_inj, toWord_cast, toWord_cast]
  omega

theorem signedWord_dvd (i : Int) : (2 : Int) ^ 32 ∣ i - signedWord i := by
  have h : (2 : Int) ^ 32 ∣ i - Int.bmod i (2 ^ 32) := Int.dvd_self_sub_bmod
  exact h

/-- A signed word is the word itself below `2 ^ 31`, else `2 ^ 32` less. -/
theorem signedWord_eq {w : Nat} (h : w < 2 ^ 32) :
    signedWord w = if w < 2 ^ 31 then (w : Int) else w - 2 ^ 32 := by
  unfold signedWord
  rw [Int.bmod_def]
  split_ifs <;> omega

/-! ## the macros -/

/-- `TAGGED_TO_WORD`. -/
def taggedToWord (x : Nat) : Nat := x >>> 2

/-- `WORD_TO_TAGGED`. -/
def wordToTagged (x : Nat) : Nat := lshift32 x 2 ||| 0x1

/-- `TAGGED_TRUE`. -/
def taggedTrue : Nat := wordToTagged 1

/-- `TAGGED_FALSE`. -/
def taggedFalse : Nat := wordToTagged 0

/-- `TAGGED_TO_SIGNED_WORD`, where shifts to the right are arithmetic. -/
def taggedToSignedWord (x : Nat) : Int := signedWord x >>> (2 : Nat)

/-- `SIGNED_WORD_TO_TAGGED`. -/
def signedWordToTagged (x : Int) : Nat := toWord (signedWord x <<< (2 : Nat)) ||| 0x1

/-- `TAGGED_TO_SIGNED_WORD` for a compiler with logical shifts. -/
def taggedToSignedWordLogical (x : Nat) : Int :=
  if 0 ≤ signedWord x then signedWord x >>> (2 : Nat) else ~~~(~~~signedWord x >>> (2 : Nat))

/-- `SIGNED_WORD_TO_TAGGED` for a compiler with logical shifts. -/
def signedWordToTaggedLogical (x : Int) : Nat :=
  if 0 ≤ signedWord x then toWord (signedWord x <<< (2 : Nat)) ||| 0x1
  else toWord (~~~((toWord (~~~signedWord x <<< (2 : Nat)) ||| 0x2 : Nat) : Int))

/-! ## what a tagged integer stands for -/

/-- The word has the integer tag. -/
structure IsTaggedInt (w : Nat) : Prop where
  lt : w < 2 ^ 32
  tag : taggedIsWord w = true

instance (w : Nat) : Decidable (IsTaggedInt w) :=
  decidable_of_iff (w < 2 ^ 32 ∧ taggedIsWord w = true) ⟨fun h => ⟨h.1, h.2⟩, fun h => ⟨h.1, h.2⟩⟩

/-- The integer in the upper 30 bits, in two's complement. -/
def taggedValue (w : Nat) : Int := Int.bmod (w / 4 : Nat) (2 ^ 30)

/-- The word of an integer modulo `2 ^ 30`. -/
def tagWord (i : Int) : Nat := toWord (4 * i + 1)

/-- The word carries the integer tag and stands for `i` modulo `2 ^ 30`. -/
def Represents (w : Nat) (i : Int) : Prop := IsTaggedInt w ∧ taggedValue w = Int.bmod i (2 ^ 30)

instance (w : Nat) (i : Int) : Decidable (Represents w i) := inferInstanceAs (Decidable (_ ∧ _))

theorem taggedIsWord_eq (w : Nat) : taggedIsWord w = true ↔ w % 4 = 1 := by
  rw [taggedIsWord, show 0x3 = 2 ^ 2 - 1 by decide, and_mask]
  simp

theorem IsTaggedInt.mod_four {w : Nat} (h : IsTaggedInt w) : w % 4 = 1 :=
  (taggedIsWord_eq w).mp h.tag

theorem IsTaggedInt.of_mod_four {w : Nat} (hlt : w < 2 ^ 32) (h : w % 4 = 1) : IsTaggedInt w :=
  ⟨hlt, (taggedIsWord_eq w).mpr h⟩

theorem taggedValue_bounds (w : Nat) : -2 ^ 29 ≤ taggedValue w ∧ taggedValue w < 2 ^ 29 := by
  unfold taggedValue
  rw [Int.bmod_def]
  omega

theorem isTaggedInt_tagWord (i : Int) : IsTaggedInt (tagWord i) := by
  refine .of_mod_four (toWord_lt _) ?_
  unfold tagWord toWord
  omega

theorem tagWord_div_four (i : Int) : ((tagWord i / 4 : Nat) : Int) = i % 2 ^ 30 := by
  unfold tagWord toWord
  omega

/-- The upper bits of the word of an integer. -/
theorem taggedValue_tagWord (i : Int) : taggedValue (tagWord i) = Int.bmod i (2 ^ 30) := by
  have hmod := Int.emod_bmod i (2 ^ 30)
  push_cast at hmod
  unfold taggedValue
  rw [tagWord_div_four]
  exact hmod

/-- A tagged word is the word of its integer. -/
theorem IsTaggedInt.eq_tagWord {w : Nat} (h : IsTaggedInt w) : w = tagWord (taggedValue w) := by
  have hmod := h.mod_four
  have hlt := h.lt
  have hdvd : (2 : Int) ^ 30 ∣ (w / 4 : Nat) - taggedValue w := Int.dvd_self_sub_bmod
  rw [← toWord_of_lt hlt, tagWord, toWord_eq]
  rw [toWord_of_lt hlt]
  omega

/-- The words that stand for `i` are the word of `i`. -/
theorem represents_iff {w : Nat} {i : Int} : Represents w i ↔ w = tagWord i := by
  constructor
  · rintro ⟨h, hval⟩
    have hdvd : (2 : Int) ^ 30 ∣ i - Int.bmod i (2 ^ 30) := Int.dvd_self_sub_bmod
    rw [h.eq_tagWord, hval, tagWord, tagWord, toWord_eq]
    omega
  · rintro rfl
    exact ⟨isTaggedInt_tagWord i, taggedValue_tagWord i⟩

theorem taggedToSignedWord_div (w : Nat) : taggedToSignedWord w = signedWord w / 4 :=
  Int.shiftRight_eq_div_pow _ 2

theorem represents_tagWord (i : Int) : Represents (tagWord i) i := represents_iff.mpr rfl

/-- The macro reads the integer. -/
theorem taggedToSignedWord_eq {w : Nat} (h : IsTaggedInt w) :
    taggedToSignedWord w = taggedValue w := by
  have hlt := h.lt
  rw [taggedToSignedWord_div, signedWord_eq hlt]
  unfold taggedValue
  rw [Int.bmod_def]
  split_ifs <;> omega

/-- The macro makes the word of an integer. -/
theorem signedWordToTagged_eq (x : Int) : signedWordToTagged x = tagWord x := by
  have hdvd := signedWord_dvd x
  have hshift : signedWord x <<< (2 : Nat) = 4 * signedWord x := by
    rw [Int.shiftLeft_eq]
    omega
  have hword : toWord (4 * signedWord x) = (toWord (4 * signedWord x) / 4) <<< 2 := by
    unfold toWord
    rw [Nat.shiftLeft_eq]
    omega
  rw [signedWordToTagged, hshift, hword, or_of_lt _ _ _ (by decide), tagWord, toWord, toWord]
  omega

theorem complement_eq (x : Int) : ~~~x = -x - 1 := by
  cases x with
  | ofNat n =>
    show Int.negSucc n = -(n : Int) - 1
    omega
  | negSucc n =>
    show (n : Int) = _
    omega

/-- Without arithmetic shifts the macros do the same. -/
theorem taggedToSignedWordLogical_eq (x : Nat) :
    taggedToSignedWordLogical x = taggedToSignedWord x := by
  have hshift (i : Int) : i >>> (2 : Nat) = i / 4 := Int.shiftRight_eq_div_pow _ 2
  unfold taggedToSignedWordLogical
  rw [taggedToSignedWord_div, hshift, hshift, complement_eq, complement_eq]
  split_ifs <;> omega

theorem signedWordToTaggedLogical_eq (x : Int) :
    signedWordToTaggedLogical x = signedWordToTagged x := by
  unfold signedWordToTaggedLogical
  split_ifs with hsign
  · rfl
  · have hdvd := signedWord_dvd x
    have hshift : ~~~signedWord x <<< (2 : Nat) = 4 * (-signedWord x - 1) := by
      rw [Int.shiftLeft_eq, complement_eq]
      omega
    have hword : toWord (4 * (-signedWord x - 1)) = (toWord (4 * (-signedWord x - 1)) / 4) <<< 2 := by
      unfold toWord
      rw [Nat.shiftLeft_eq]
      omega
    rw [signedWordToTagged_eq, hshift, hword, or_of_lt _ _ _ (by decide), complement_eq, tagWord,
      toWord_eq]
    unfold toWord
    omega

theorem wordToTagged_eq (x : Nat) : wordToTagged x = tagWord x := by
  have hword : lshift32 x 2 = (lshift32 x 2 / 4) <<< 2 := by
    rw [Nat.shiftLeft_eq, lshift32_eq]
    omega
  rw [wordToTagged, hword, or_of_lt _ _ _ (by decide), lshift32_eq, tagWord, toWord]
  omega

end Shades
