import Shades.Triev2.Code

/-!
# Shades.Triev2.Rep

What a trie in memory means.  `TrieAt words S n w f` says that the word `w`
is a trie for keys of `n` base-4 digits, kept in cells of the region `S`, in
which key `k` holds the data `f k`, `f k = 0` standing for an absent key.  At
`n = 0` there are no more digits and `w` is the data itself.

Data must not be `NULL_WORD` then.  Where they may be, `CodedTrieAt` has the
map hold a code of the data that is not `0`.

A node consumes the digits of its prefix and one more; `nodeMap` is the map
of a node made from the maps of its children.
-/

namespace Shades

/-! ## left aligned keys -/

/-- A key of `n` digits in the upper end of a word. -/
def alignKey (k n : Nat) : Nat := k * 4 ^ (16 - n)

/-- The upper digits of an aligned key. -/
theorem alignKey_shiftRight {n j : Nat} (k : Nat) (hn : n ≤ 16) (hj : j ≤ n) :
    alignKey k n >>> (32 - 2 * j) = k / 4 ^ (n - j) := by
  have hexp : 16 - j = (n - j) + (16 - n) := by omega
  rw [alignKey, Nat.shiftRight_eq_div_pow, show 32 - 2 * j = 2 * (16 - j) by omega,
    two_pow_double, hexp, pow_add]
  exact Nat.mul_div_mul_right _ _ (Nat.pow_pos (by decide))

/-- The next digit of an aligned key. -/
theorem alignKey_digit {n : Nat} (k : Nat) (hn : n + 1 ≤ 16) :
    alignKey k (n + 1) >>> 30 = k / 4 ^ n := by
  have h := alignKey_shiftRight k hn (show 1 ≤ n + 1 by omega)
  simpa using h

/-- Removing digits from an aligned key. -/
theorem lshift32_alignKey {n j : Nat} (k : Nat) (hn : n ≤ 16) (hj : j ≤ n) :
    lshift32 (alignKey k n) (2 * j) = alignKey (k % 4 ^ (n - j)) (n - j) := by
  have hexp : 16 - n + j = 16 - (n - j) := by omega
  have hword : 2 ^ 32 = 4 ^ (n - j) * 4 ^ (16 - (n - j)) := by
    rw [← pow_add, show n - j + (16 - (n - j)) = 16 by omega]
    rfl
  rw [lshift32_eq, alignKey, alignKey, two_pow_double, mul_assoc, ← pow_add, hexp, hword]
  exact Nat.mul_mod_mul_right _ _ _

/-- The first shift removes the insignificant bits of the key. -/
theorem lshift32_key {n : Nat} (key : Nat) (hn : n ≤ 16) :
    lshift32 key (32 - 2 * n) = alignKey (key % 4 ^ n) n := by
  have hword : 2 ^ 32 = 4 ^ n * 4 ^ (16 - n) := by
    rw [← pow_add, show n + (16 - n) = 16 by omega]
    rfl
  rw [lshift32_eq, show 32 - 2 * n = 2 * (16 - n) by omega, two_pow_double, alignKey, hword]
  exact Nat.mul_mod_mul_right _ _ _

/-- A key is determined by its prefix, the next digit and the rest. -/
theorem key_ext {n k k' : Nat} (hpre : k / 4 ^ (n + 1) = k' / 4 ^ (n + 1))
    (hdigit : k / 4 ^ n % 4 = k' / 4 ^ n % 4) (hrest : k % 4 ^ n = k' % 4 ^ n) : k = k' := by
  have hquot : k / 4 ^ n = k' / 4 ^ n := by
    have h1 : k / 4 ^ n / 4 = k' / 4 ^ n / 4 := by
      rw [Nat.div_div_eq_div_mul, Nat.div_div_eq_div_mul, ← pow_succ]
      exact hpre
    omega
  rw [← Nat.div_add_mod k (4 ^ n), ← Nat.div_add_mod k' (4 ^ n), hquot, hrest]

/-! ## headers -/

/-- The first word of a node of type `t` with a prefix of `j` digits. -/
def trieHeader (t j pre : Nat) : Nat :=
  (CellType.trie1234.code + t) * 2 ^ 24 + (j * 2 ^ 20 + pre)

theorem code_trie1234 : CellType.trie1234.code = 33 := rfl

section header

variable {t j pre : Nat} (hj : j ≤ 10) (hpre : pre < 4 ^ j)

include hj hpre

theorem prefix_lt : pre < 2 ^ 20 := by
  have h : 4 ^ j ≤ 4 ^ 10 := Nat.pow_le_pow_right (by decide) hj
  calc
    pre < 4 ^ j := hpre
    _ ≤ 4 ^ 10 := h
    _ = 2 ^ 20 := by decide

theorem trieIndex_trieHeader : trieIndex (trieHeader t j pre) = t := by
  have h := prefix_lt hj hpre
  simp only [trieIndex, cellType_eq, trieHeader, code_trie1234]
  omega

/-- The bits of the prefix do not depend on the type of the cell. -/
theorem prefixLength_header (c : Nat) : prefixLength (c * 2 ^ 24 + (j * 2 ^ 20 + pre)) = 2 * j := by
  have h := prefix_lt hj hpre
  rw [prefixLength, show 0x1E = 2 * (2 ^ 4 - 1) by decide, and_double_mask,
    Nat.shiftRight_eq_div_pow]
  omega

theorem nodePrefix_header (c : Nat) : nodePrefix (c * 2 ^ 24 + (j * 2 ^ 20 + pre)) = pre := by
  have h := prefix_lt hj hpre
  rw [nodePrefix, nodePrefixMask, show 0xFFFFF = 2 ^ 20 - 1 by decide, and_mask]
  omega

theorem prefixLength_trieHeader : prefixLength (trieHeader t j pre) = 2 * j :=
  prefixLength_header hj hpre _

theorem nodePrefix_trieHeader : nodePrefix (trieHeader t j pre) = pre :=
  nodePrefix_header hj hpre _

theorem fullPrefix_trieHeader :
    trieHeader t j pre &&& fullPrefixMask = j * 2 ^ 20 + pre := by
  have h := prefix_lt hj hpre
  rw [fullPrefixMask, show 0xFFFFFF = 2 ^ 24 - 1 by decide, and_mask, trieHeader]
  omega

theorem prefixLength_fullPrefix : prefixLength (j * 2 ^ 20 + pre) = 2 * j := by
  simpa using prefixLength_header hj hpre 0

theorem nodePrefix_fullPrefix : nodePrefix (j * 2 ^ 20 + pre) = pre := by
  simpa using nodePrefix_header hj hpre 0

/-- The prefix of a fresh node. -/
theorem prefixBits_eq : ((2 * j) <<< 19) ||| pre = j * 2 ^ 20 + pre := by
  have h := prefix_lt hj hpre
  have hshift : (2 * j) <<< 19 = j <<< 20 := by
    rw [Nat.shiftLeft_eq, Nat.shiftLeft_eq]
    omega
  rw [hshift, or_of_lt _ _ _ h]

theorem header_or_fullPrefix {c : CellType} (hc : c.code = CellType.trie1234.code + t) :
    c.header ||| (j * 2 ^ 20 + pre) = trieHeader t j pre := by
  have h := prefix_lt hj hpre
  rw [CellType.header, cellTypeBits, or_of_lt _ _ _ (by omega), hc, trieHeader]

theorem header_or_prefix {c : CellType} (hc : c.code = CellType.trie1234.code + t) :
    c.header ||| (((2 * j) <<< 19) ||| pre) = trieHeader t j pre := by
  rw [prefixBits_eq hj hpre, header_or_fullPrefix hj hpre hc]

end header

/-! ## the representation -/

/-- A node cell at `p`: its first word, and its words lie in the region. -/
structure NodeAt (words : Nat → Nat) (S : Nat → Prop) (p t j pre : Nat) : Prop where
  ne_zero : p ≠ 0
  index_lt : t < 15
  prefix_le : j ≤ 10
  prefix_lt : pre < 4 ^ j
  header : words p = trieHeader t j pre
  region : ∀ i < cellSize t, S (p + i)

/-- The map of a node: keys with the prefix of the node go to the child for
their next digit. -/
def nodeMap (t pre n : Nat) (kids : Nat → Nat → Nat) (k : Nat) : Nat :=
  if k / 4 ^ (n + 1) = pre ∧ offset t (k / 4 ^ n % 4) ≠ 0 then kids (k / 4 ^ n % 4) (k % 4 ^ n)
  else 0

/-- The word `w` is a trie for keys of `n` digits with the map `f`, in which the
data `x` is written as `enc x`. -/
inductive CodedTrieAt (enc : Nat → Nat) (words : Nat → Nat) (S : Nat → Prop) :
    Nat → Nat → (Nat → Nat) → Prop
  | data {w : Nat} {f : Nat → Nat} (hw : enc w ≠ 0) (hf : f 0 = enc w) : CodedTrieAt enc words S 0 w f
  | node {p t j pre n : Nat} {kids : Nat → Nat → Nat} {f : Nat → Nat}
      (hp : NodeAt words S p t j pre)
      (hkids : ∀ d < 4, offset t d ≠ 0 →
        CodedTrieAt enc words S n (words (p + offset t d)) (kids d))
      (hf : ∀ k < 4 ^ (j + 1 + n), f k = nodeMap t pre n kids k) :
      CodedTrieAt enc words S (j + 1 + n) (ptrToWord p) f

/-- A possibly empty trie: the word `NULL_WORD` stands for the empty map. -/
def MaybeCodedTrieAt (enc : Nat → Nat) (words : Nat → Nat) (S : Nat → Prop) (n w : Nat)
    (f : Nat → Nat) : Prop :=
  (w = 0 ∧ ∀ k < 4 ^ n, f k = 0) ∨ CodedTrieAt enc words S n w f

/-- The word `w` is a trie for keys of `n` digits with the map `f`. -/
abbrev TrieAt : (Nat → Nat) → (Nat → Prop) → Nat → Nat → (Nat → Nat) → Prop := CodedTrieAt id

/-- A possibly empty trie whose data are not `NULL_WORD`. -/
abbrev MaybeTrieAt : (Nat → Nat) → (Nat → Prop) → Nat → Nat → (Nat → Nat) → Prop :=
  MaybeCodedTrieAt id

/-- What the map says about a key with the data `x`, or about an absent key,
for which `NULL_WORD` is returned. -/
def Reads (enc : Nat → Nat) (y x : Nat) : Prop := if y = 0 then x = 0 else enc x = y

section node

variable {words : Nat → Nat} {S : Nat → Prop} {p t j pre : Nat} (h : NodeAt words S p t j pre)

include h

theorem NodeAt.trieIndex : trieIndex (words p) = t := by
  rw [h.header, trieIndex_trieHeader h.prefix_le h.prefix_lt]

theorem NodeAt.prefixLength : prefixLength (words p) = 2 * j := by
  rw [h.header, prefixLength_trieHeader h.prefix_le h.prefix_lt]

theorem NodeAt.nodePrefix : nodePrefix (words p) = pre := by
  rw [h.header, nodePrefix_trieHeader h.prefix_le h.prefix_lt]

theorem NodeAt.fullPrefix : words p &&& fullPrefixMask = j * 2 ^ 20 + pre := by
  rw [h.header, fullPrefix_trieHeader h.prefix_le h.prefix_lt]

end node

/-- A node cell is found again in any memory that agrees on its region. -/
theorem NodeAt.frame {words words' : Nat → Nat} {S S' : Nat → Prop} {p t j pre : Nat}
    (h : NodeAt words S p t j pre) (hagree : AgreeOn S words words') (hS : ∀ a, S a → S' a) :
    NodeAt words' S' p t j pre where
  ne_zero := h.ne_zero
  index_lt := h.index_lt
  prefix_le := h.prefix_le
  prefix_lt := h.prefix_lt
  header := by
    have h0 := h.region 0 (by have := two_le_cellSize t h.index_lt; omega)
    rw [hagree p h0, h.header]
  region := fun i hi => hS _ (h.region i hi)

section trie

variable {enc : Nat → Nat} {words : Nat → Nat} {S : Nat → Prop} {n w : Nat} {f : Nat → Nat}

/-- So is a trie. -/
theorem CodedTrieAt.frame {words' : Nat → Nat} {S' : Nat → Prop} (h : CodedTrieAt enc words S n w f)
    (hagree : AgreeOn S words words') (hS : ∀ a, S a → S' a) : CodedTrieAt enc words' S' n w f := by
  induction h with
  | data hw hf => exact .data hw hf
  | @node p t j pre n kids f hp hkids hf ih =>
    refine .node (hp.frame hagree hS) (fun d hd hoff => ?_) hf
    have hcell := hp.region _ (offset_lt_cellSize t hp.index_lt d hd)
    rw [hagree _ hcell]
    exact ih d hd hoff

/-- And so is an empty trie. -/
theorem MaybeCodedTrieAt.frame {words' : Nat → Nat} {S' : Nat → Prop}
    (h : MaybeCodedTrieAt enc words S n w f) (hagree : AgreeOn S words words')
    (hS : ∀ a, S a → S' a) : MaybeCodedTrieAt enc words' S' n w f :=
  h.imp_right fun h => h.frame hagree hS

/-- Only the keys of `n` digits matter. -/
theorem CodedTrieAt.congr {g : Nat → Nat} (h : CodedTrieAt enc words S n w f)
    (hfg : ∀ k < 4 ^ n, g k = f k) : CodedTrieAt enc words S n w g := by
  cases h with
  | data hw hf => exact .data hw ((hfg 0 (by simp)).trans hf)
  | node hp hkids hf => exact .node hp hkids fun k hk => (hfg k hk).trans (hf k hk)

/-- A trie with digits left is a node. -/
theorem CodedTrieAt.inv (h : CodedTrieAt enc words S n w f) (hn : n ≠ 0) :
    ∃ p t j pre m kids, w = ptrToWord p ∧ n = j + 1 + m ∧ NodeAt words S p t j pre ∧
      (∀ d < 4, offset t d ≠ 0 → CodedTrieAt enc words S m (words (p + offset t d)) (kids d)) ∧
      ∀ k < 4 ^ n, f k = nodeMap t pre m kids k := by
  cases h with
  | data _ _ => exact absurd rfl hn
  | node hp hkids hf => exact ⟨_, _, _, _, _, _, rfl, rfl, hp, hkids, hf⟩

/-- The word of a trie with digits left is not `NULL_WORD`. -/
theorem CodedTrieAt.node_ne_zero (h : CodedTrieAt enc words S n w f) (hn : n ≠ 0) : w ≠ 0 := by
  obtain ⟨_, _, _, _, _, _, rfl, _, hp, _⟩ := h.inv hn
  simpa using hp.ne_zero

/-- Nor is the word of a trie whose data are not. -/
theorem TrieAt.ne_zero (h : TrieAt words S n w f) : w ≠ 0 := by
  cases h with
  | data hw _ => exact hw
  | node hp _ _ => simpa using hp.ne_zero

/-- The data at the last digit. -/
theorem CodedTrieAt.data_eq (h : CodedTrieAt enc words S 0 w f) : f 0 = enc w ∧ enc w ≠ 0 := by
  generalize hn : 0 = n at h
  cases h with
  | data hw hf => exact ⟨hf, hw⟩
  | node _ _ _ => omega

theorem reads_absent (enc : Nat → Nat) : Reads enc 0 0 := by
  rw [Reads, if_pos rfl]

/-- The data behind a key are what the map says, at the last digit. -/
theorem MaybeCodedTrieAt.reads (h : MaybeCodedTrieAt enc words S 0 w f) : Reads enc (f 0) w := by
  rcases h with ⟨rfl, hf⟩ | h
  · rw [hf 0 (by simp)]
    exact reads_absent enc
  · rw [h.data_eq.1, Reads, if_neg h.data_eq.2]

@[simp] theorem reads_id {x y : Nat} : Reads id y x ↔ y = x := by
  unfold Reads
  split_ifs with h <;> simp [h, eq_comm]

theorem MaybeTrieAt.data_eq (h : MaybeTrieAt words S 0 w f) : f 0 = w := reads_id.mp h.reads

/-- The child for a digit, absent or not. -/
theorem maybeTrieAt_child {p t d : Nat} {kids : Nat → Nat → Nat} (hd : d < 4)
    (hkids : ∀ d < 4, offset t d ≠ 0 → CodedTrieAt enc words S n (words (p + offset t d)) (kids d)) :
    MaybeCodedTrieAt enc words S n (if offset t d = 0 then 0 else words (p + offset t d))
      (fun k => if offset t d = 0 then 0 else kids d k) := by
  by_cases hoff : offset t d = 0
  · exact Or.inl (by simp [hoff])
  · simp only [if_neg hoff]
    exact Or.inr (hkids d hd hoff)

end trie

end Shades
