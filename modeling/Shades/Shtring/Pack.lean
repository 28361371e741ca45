import Shades.Shtring.CreateCode
import Shades.Shtring.Trim

/-!
# Shades.Shtring.Pack

Bytes packed into the words of a chunk, and unpacked again.
-/

namespace Shades

/-- Every element is a byte. -/
def AreBytes (bytes : List Nat) : Prop := ∀ b ∈ bytes, b < 256

theorem AreBytes.drop {bytes : List Nat} (h : AreBytes bytes) (n : Nat) : AreBytes (bytes.drop n) :=
  fun b hb => h b (List.mem_of_mem_drop hb)

theorem AreBytes.take {bytes : List Nat} (h : AreBytes bytes) (n : Nat) : AreBytes (bytes.take n) :=
  fun b hb => h b (List.mem_of_mem_take hb)

section words

variable {b₀ b₁ b₂ b₃ : Nat}

/-- The number that four bytes stand for. -/
theorem packWord_eq (h₁ : b₁ < 256) (h₂ : b₂ < 256) (h₃ : b₃ < 256) :
    packWord b₀ b₁ b₂ b₃ = ((b₀ * 256 + b₁) * 256 + b₂) * 256 + b₃ := by
  have hfirst : b₀ <<< 24 ||| b₁ <<< 16 = (b₀ * 256 + b₁) <<< 16 := by
    rw [or_of_lt _ _ 24 (by rw [Nat.shiftLeft_eq]; omega), Nat.shiftLeft_eq, Nat.shiftLeft_eq]
    omega
  have hsecond : (b₀ * 256 + b₁) <<< 16 ||| b₂ <<< 8 = ((b₀ * 256 + b₁) * 256 + b₂) <<< 8 := by
    rw [or_of_lt _ _ 16 (by rw [Nat.shiftLeft_eq]; omega), Nat.shiftLeft_eq, Nat.shiftLeft_eq]
    omega
  rw [packWord, hfirst, hsecond, or_of_lt _ _ 8 h₃]
  omega

/-- The mask that `SWAP_BYTES` uses. -/
theorem and_byteMask (x : Nat) : x &&& 0xFF00FF = x / 65536 % 256 * 65536 + x % 256 := by
  have hlow : (x &&& 0xFF00FF) % 2 ^ 16 = x % 256 := by
    rw [Nat.and_mod_two_pow, show 0xFF00FF % 2 ^ 16 = 2 ^ 8 - 1 by decide, and_mask]
    omega
  have hhigh : (x &&& 0xFF00FF) / 2 ^ 16 = x / 65536 % 256 := by
    rw [Nat.and_div_two_pow, show 0xFF00FF / 2 ^ 16 = 2 ^ 8 - 1 by decide, and_mask]
    omega
  omega

/-- Two bytes of a word and the two bytes between them. -/
theorem or_interleaved (h₀ : b₀ < 256) (h₁ : b₁ < 256) (h₃ : b₃ < 256) :
    b₂ * 2 ^ 24 + b₀ * 2 ^ 8 ||| b₃ * 2 ^ 16 + b₁ =
      (b₂ * 256 + b₃) * 65536 + (b₀ * 256 + b₁) := by
  have hlow : (b₂ * 2 ^ 24 + b₀ * 2 ^ 8 ||| b₃ * 2 ^ 16 + b₁) % 2 ^ 16 = b₀ * 256 + b₁ := by
    have hright : (b₃ * 2 ^ 16 + b₁) % 2 ^ 16 = b₁ := by omega
    have hleft : (b₂ * 2 ^ 24 + b₀ * 2 ^ 8) % 2 ^ 16 = b₀ <<< 8 := by
      clear hright
      rw [Nat.shiftLeft_eq]
      omega
    rw [Nat.or_mod_two_pow, hleft, hright]
    exact or_of_lt b₀ b₁ 8 h₁
  have hhigh : (b₂ * 2 ^ 24 + b₀ * 2 ^ 8 ||| b₃ * 2 ^ 16 + b₁) / 2 ^ 16 = b₂ * 256 + b₃ := by
    have hright : (b₃ * 2 ^ 16 + b₁) / 2 ^ 16 = b₃ := by omega
    have hleft : (b₂ * 2 ^ 24 + b₀ * 2 ^ 8) / 2 ^ 16 = b₂ <<< 8 := by
      clear hright
      rw [Nat.shiftLeft_eq]
      omega
    rw [Nat.or_div_two_pow, hleft, hright]
    exact or_of_lt b₂ b₃ 8 h₃
  omega

/-- The bytes of a word in the other order. -/
theorem swapBytes_eq {x : Nat} (hx : x < 2 ^ 32) : swapBytes x =
    ((x % 256 * 256 + x / 2 ^ 8 % 256) * 256 + x / 2 ^ 16 % 256) * 256 + x / 2 ^ 24 := by
  have hodd : lshift32 (x &&& 0xFF00FF) 8 = x / 2 ^ 16 % 256 * 2 ^ 24 + x % 256 * 2 ^ 8 := by
    rw [and_byteMask, lshift32_eq]
    omega
  have heven : (x >>> 8) &&& 0xFF00FF = x / 2 ^ 24 * 2 ^ 16 + x / 2 ^ 8 % 256 := by
    rw [and_byteMask, Nat.shiftRight_eq_div_pow]
    omega
  have hhalves := @or_interleaved (x % 256) (x / 2 ^ 8 % 256) (x / 2 ^ 16 % 256)
    (x / 2 ^ 24) (by omega) (by omega) (by omega)
  unfold swapBytes
  simp only
  rw [hodd, heven, hhalves, Nat.shiftRight_eq_div_pow, lshift32_eq]
  have hleft : ((x / 2 ^ 16 % 256 * 256 + x / 2 ^ 24) * 65536 + (x % 256 * 256 + x / 2 ^ 8 % 256)) *
      2 ^ 16 % 2 ^ 32 = (x % 256 * 256 + x / 2 ^ 8 % 256) <<< 16 := by
    rw [Nat.shiftLeft_eq]
    omega
  rw [hleft, or_of_lt _ _ 16 (by omega)]
  omega

theorem readSwapped_eq (h₀ : b₀ < 256) (h₁ : b₁ < 256) (h₂ : b₂ < 256) (h₃ : b₃ < 256) :
    readSwapped b₀ b₁ b₂ b₃ = packWord b₀ b₁ b₂ b₃ := by
  have hpack := @packWord_eq b₃ b₂ b₁ b₀ h₂ h₁ h₀
  unfold packWord at hpack
  obtain ⟨x, hx⟩ : ∃ x, x = ((b₃ * 256 + b₂) * 256 + b₁) * 256 + b₀ := ⟨_, rfl⟩
  rw [packWord_eq h₁ h₂ h₃, readSwapped, hpack, ← hx]
  clear hpack
  have hbytes : x % 256 = b₀ ∧ x / 2 ^ 8 % 256 = b₁ ∧ x / 2 ^ 16 % 256 = b₂ ∧ x / 2 ^ 24 = b₃ := by
    refine ⟨?_, ?_, ?_, ?_⟩ <;> omega
  rw [swapBytes_eq (by omega), hbytes.1, hbytes.2.1, hbytes.2.2.1, hbytes.2.2.2]

/-- The bytes of a packed word. -/
theorem wordByte_packWord (h₁ : b₁ < 256) (h₂ : b₂ < 256) (h₃ : b₃ < 256) :
    wordByte (packWord b₀ b₁ b₂ b₃) 0 = b₀ % 256 ∧ wordByte (packWord b₀ b₁ b₂ b₃) 1 = b₁ ∧
      wordByte (packWord b₀ b₁ b₂ b₃) 2 = b₂ ∧ wordByte (packWord b₀ b₁ b₂ b₃) 3 = b₃ := by
  have hbyte : ∀ w i, wordByte w i = w / 2 ^ (8 * (3 - i)) % 256 := by
    intro w i
    rw [wordByte, Nat.shiftRight_eq_div_pow]
    exact and_mask _ 8
  simp only [hbyte, packWord_eq h₁ h₂ h₃]
  omega

end words

/-! ## the words of a chunk -/

/-- `packBytes` with the bytes after the last one taken as `0`. -/
theorem packBytes_short (word : Nat → Nat → Nat → Nat → Nat) (b₀ b₁ b₂ : Nat) :
    packBytes word [b₀] = [packWord b₀ 0 0 0] ∧ packBytes word [b₀, b₁] = [packWord b₀ b₁ 0 0] ∧
      packBytes word [b₀, b₁, b₂] = [packWord b₀ b₁ b₂ 0] := by
  simp [packWord]

/-- What an operation that packs four bytes has to do. -/
def Packs (word : Nat → Nat → Nat → Nat → Nat) : Prop :=
  ∀ b₀ b₁ b₂ b₃, b₀ < 256 → b₁ < 256 → b₂ < 256 → b₃ < 256 →
    word b₀ b₁ b₂ b₃ = packWord b₀ b₁ b₂ b₃

theorem packs_packWord : Packs packWord := fun _ _ _ _ _ _ _ _ => rfl

theorem packs_readSwapped : Packs readSwapped := fun _ _ _ _ h₀ h₁ h₂ h₃ =>
  readSwapped_eq h₀ h₁ h₂ h₃

theorem length_packBytes (word : Nat → Nat → Nat → Nat → Nat) (bytes : List Nat) :
    (packBytes word bytes).length = (bytes.length + 3) / 4 := by
  fun_induction packBytes word bytes with
  | case5 b₀ b₁ b₂ b₃ bytes ih =>
    simp only [List.length_cons, ih]
    omega
  | _ => simp

theorem wordByte_of_getElem? {b₀ b₁ b₂ b₃ i b : Nat} (h : AreBytes [b₀, b₁, b₂, b₃])
    (hb : [b₀, b₁, b₂, b₃][i]? = some b) : wordByte (packWord b₀ b₁ b₂ b₃) i = b := by
  simp only [AreBytes, List.mem_cons, List.not_mem_nil, or_false, forall_eq_or_imp, forall_eq] at h
  obtain ⟨h₀, h₁, h₂, h₃⟩ := h
  obtain ⟨hb₀, hb₁, hb₂, hb₃⟩ := @wordByte_packWord b₀ b₁ b₂ b₃ h₁ h₂ h₃
  rw [Nat.mod_eq_of_lt h₀] at hb₀
  have hi : i < 4 := (List.getElem?_eq_some_iff.mp hb).1
  obtain rfl | rfl | rfl | rfl : i = 0 ∨ i = 1 ∨ i = 2 ∨ i = 3 := by omega
  all_goals
    simp at hb
    omega

theorem packWord_lt {b₀ b₁ b₂ b₃ : Nat} (h : AreBytes [b₀, b₁, b₂, b₃]) :
    packWord b₀ b₁ b₂ b₃ < 2 ^ 32 := by
  simp only [AreBytes, List.mem_cons, List.not_mem_nil, or_false, forall_eq_or_imp, forall_eq] at h
  obtain ⟨h₀, h₁, h₂, h₃⟩ := h
  rw [packWord_eq h₁ h₂ h₃]
  omega

/-- A byte of a single word, which may have been packed with zeros. -/
theorem packWord_getElem? {b₀ b₁ b₂ b₃ n i b : Nat} (h : AreBytes [b₀, b₁, b₂, b₃])
    (hb : ([b₀, b₁, b₂, b₃].take n)[i]? = some b) :
    i < 4 ∧ ∃ w, [packWord b₀ b₁ b₂ b₃][i / 4]? = some w ∧ w < 2 ^ 32 ∧
      wordByte w (i % 4) = b := by
  have hget : [b₀, b₁, b₂, b₃][i]? = some b := by
    rw [List.getElem?_take] at hb
    split at hb
    · exact hb
    · cases hb
  have hi : i < 4 := (List.getElem?_eq_some_iff.mp hget).1
  rw [Nat.div_eq_of_lt hi, Nat.mod_eq_of_lt hi]
  exact ⟨hi, _, rfl, packWord_lt h, wordByte_of_getElem? h hget⟩

theorem AreBytes.zeros {l : List Nat} (h : AreBytes l) (n : Nat) :
    AreBytes (l ++ List.replicate n 0) := by
  intro b hb
  rcases List.mem_append.mp hb with hb | hb
  · exact h b hb
  · rw [List.eq_of_mem_replicate hb]
    decide

/-- A byte is found in the word that it was packed into. -/
theorem packBytes_getElem? {word : Nat → Nat → Nat → Nat → Nat} (hword : Packs word)
    {bytes : List Nat} (hbytes : AreBytes bytes) {i b : Nat} (hb : bytes[i]? = some b) :
    ∃ w, (packBytes word bytes)[i / 4]? = some w ∧ w < 2 ^ 32 ∧ wordByte w (i % 4) = b := by
  induction bytes using packBytes.induct generalizing i with
  | case1 => cases hb
  | case2 b₀ =>
    rw [(packBytes_short word b₀ 0 0).1]
    exact (packWord_getElem? (n := 1) (hbytes.zeros 3) hb).2
  | case3 b₀ b₁ =>
    rw [(packBytes_short word b₀ b₁ 0).2.1]
    exact (packWord_getElem? (n := 2) (hbytes.zeros 2) hb).2
  | case4 b₀ b₁ b₂ =>
    rw [(packBytes_short word b₀ b₁ b₂).2.2]
    exact (packWord_getElem? (n := 3) (hbytes.zeros 1) hb).2
  | case5 b₀ b₁ b₂ b₃ bytes ih =>
    have hfour : AreBytes [b₀, b₁, b₂, b₃] := hbytes.take 4
    have hfirst : word b₀ b₁ b₂ b₃ = packWord b₀ b₁ b₂ b₃ := by
      have hmem : ∀ b ∈ [b₀, b₁, b₂, b₃], b < 256 := hfour
      exact hword _ _ _ _ (hmem _ (by simp)) (hmem _ (by simp)) (hmem _ (by simp))
        (hmem _ (by simp))
    rw [packBytes, hfirst]
    by_cases hi : i < 4
    · have hb' : ([b₀, b₁, b₂, b₃].take 4)[i]? = some b := by
        rw [← hb]
        exact (@List.getElem?_append_left _ _ bytes _ hi).symm
      obtain ⟨-, w, hw, hrest⟩ := packWord_getElem? hfour hb'
      rw [Nat.div_eq_of_lt hi] at hw ⊢
      exact ⟨w, hw, hrest⟩
    · obtain ⟨i, rfl⟩ : ∃ j, i = j + 4 := ⟨i - 4, by omega⟩
      obtain ⟨w, hw, hlt, hbyte⟩ := ih (hbytes.drop 4) (i := i) hb
      refine ⟨w, ?_, hlt, ?_⟩
      · rw [show (i + 4) / 4 = i / 4 + 1 by omega, List.getElem?_cons_succ, hw]
      · rw [show (i + 4) % 4 = i % 4 by omega, hbyte]

end Shades
