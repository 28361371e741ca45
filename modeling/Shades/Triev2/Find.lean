import Shades.Triev2.Rep

/-!
# Shades.Triev2.Find

`triev2_find` and `triev2_contains` read the map of a trie.
-/

namespace Shades

/-! ## lookup -/

section lookup

variable {enc : Nat → Nat} {words : Nat → Nat} {S : Nat → Prop}

/-- The prefix comparison: it fails for keys with other digits and leaves the
digits after the prefix otherwise. -/
theorem comparePrefix_eq {p0 j pre n k : Nat} (hlen : prefixLength p0 = 2 * j)
    (hpre : nodePrefix p0 = pre) (hlt : pre < 4 ^ j) (hn : j + 1 + n ≤ 16)
    (hk : k < 4 ^ (j + 1 + n)) :
    comparePrefix p0 (alignKey k (j + 1 + n)) ((2 * (j + 1 + n) : Nat) : Int) =
      if k / 4 ^ (n + 1) = pre then
        some (alignKey (k % 4 ^ (n + 1)) (n + 1), ((2 * (n + 1) : Nat) : Int))
      else none := by
  have hrest : j + 1 + n - j = n + 1 := by omega
  have hkey := alignKey_shiftRight k hn (show j ≤ j + 1 + n by omega)
  have hshift := lshift32_alignKey k hn (show j ≤ j + 1 + n by omega)
  rw [hrest] at hkey hshift
  unfold comparePrefix
  rw [hlen, hpre, hkey, hshift]
  by_cases hj : j = 0
  · subst hj
    have hpre0 : pre = 0 := by simpa using hlt
    subst hpre0
    rw [show 0 + 1 + n = n + 1 by omega] at hk ⊢
    simp [Nat.div_eq_of_lt hk, Nat.mod_eq_of_lt hk]
  · rw [if_pos (by omega)]
    by_cases heq : k / 4 ^ (n + 1) = pre
    · rw [if_neg (by simp [heq]), if_pos heq]
      congr 2
      push_cast
      ring
    · rw [if_pos (fun h => heq h.symm), if_neg heq]

/-- On a node. -/
theorem comparePrefix_node {p t j pre n k : Nat} (hp : NodeAt words S p t j pre)
    (hn : j + 1 + n ≤ 16) (hk : k < 4 ^ (j + 1 + n)) :
    comparePrefix (words p) (alignKey k (j + 1 + n)) ((2 * (j + 1 + n) : Nat) : Int) =
      if k / 4 ^ (n + 1) = pre then
        some (alignKey (k % 4 ^ (n + 1)) (n + 1), ((2 * (n + 1) : Nat) : Int))
      else none :=
  comparePrefix_eq hp.prefixLength hp.nodePrefix hp.prefix_lt hn hk

/-- The next digit and the rest of a key whose prefix is gone. -/
theorem alignKey_step {n k : Nat} (hn : n + 1 ≤ 16) :
    alignKey (k % 4 ^ (n + 1)) (n + 1) >>> 30 = k / 4 ^ n % 4 ∧
      lshift32 (alignKey (k % 4 ^ (n + 1)) (n + 1)) 2 = alignKey (k % 4 ^ n) n := by
  constructor
  · rw [alignKey_digit _ hn, pow_succ, Nat.mod_mul_right_div_self]
  · have h := lshift32_alignKey (k % 4 ^ (n + 1)) hn (show 1 ≤ n + 1 by omega)
    rw [show 2 * 1 = 2 by decide, Nat.add_sub_cancel] at h
    rw [h, Nat.mod_mod_of_dvd _ (pow_dvd_pow 4 (Nat.le_succ n))]

/-- A key with the prefix of the node and a child for its next digit goes to
that child. -/
theorem nodeMap_child {t pre n k : Nat} {kids : Nat → Nat → Nat} (hpre : k / 4 ^ (n + 1) = pre)
    (hoff : offset t (k / 4 ^ n % 4) ≠ 0) :
    nodeMap t pre n kids k = kids (k / 4 ^ n % 4) (k % 4 ^ n) :=
  if_pos ⟨hpre, hoff⟩

/-- Other keys are absent. -/
theorem nodeMap_absent {t pre n k : Nat} {kids : Nat → Nat → Nat}
    (h : k / 4 ^ (n + 1) = pre → offset t (k / 4 ^ n % 4) = 0) : nodeMap t pre n kids k = 0 :=
  if_neg fun hk => hk.2 (h hk.1)

/-- The way to a present key. -/
theorem nodeMap_present {t pre n k : Nat} {kids : Nat → Nat → Nat}
    (h : nodeMap t pre n kids k ≠ 0) :
    k / 4 ^ (n + 1) = pre ∧ offset t (k / 4 ^ n % 4) ≠ 0 := by
  by_contra hk
  exact h (if_neg hk)

/-- The loop of `triev2_find` ends with what the map says. -/
theorem triev2FindLoop_reads {n w : Nat} {f : Nat → Nat} (h : CodedTrieAt enc words S n w f) :
    ∀ {fuel k : Nat}, n ≠ 0 → n ≤ 16 → n ≤ fuel → k < 4 ^ n →
      ∃ x, triev2FindLoop words fuel (wordToPtr w) (alignKey k n) ((2 * n : Nat) : Int) =
        some x ∧ Reads enc (f k) x := by
  induction h with
  | data _ _ => exact fun hn => absurd rfl hn
  | @node p t j pre n kids f hp hkids hf ih =>
    intro fuel k _ hn hfuel hk
    obtain ⟨fuel, rfl⟩ : ∃ x, fuel = x + 1 := ⟨fuel - 1, by omega⟩
    have hidx := hp.trieIndex
    obtain ⟨hdigit, hrest⟩ := alignKey_step (k := k) (show n + 1 ≤ 16 by omega)
    have hlen : ((2 * (n + 1) : Nat) : Int) - 2 = ((2 * n : Nat) : Int) := by
      push_cast
      ring
    rw [hf k hk, wordToPtr_ptrToWord, triev2FindLoop, comparePrefix_node hp hn hk]
    by_cases hpre : k / 4 ^ (n + 1) = pre
    · simp only [if_pos hpre, hidx, hdigit, hrest, hlen]
      have hd := Nat.mod_lt (k / 4 ^ n) (show 4 > 0 by decide)
      by_cases hoff : offset t (k / 4 ^ n % 4) = 0
      · rw [if_pos hoff, nodeMap_absent fun _ => hoff, nullWord]
        exact ⟨0, rfl, reads_absent enc⟩
      · rw [if_neg hoff, nodeMap_child hpre hoff]
        by_cases hlast : n = 0
        · subst hlast
          rw [if_neg (by simp), show k % 4 ^ 0 = 0 by simp [Nat.mod_one]]
          exact ⟨_, rfl, MaybeCodedTrieAt.reads (Or.inr (hkids _ hd hoff))⟩
        · rw [if_pos (by omega)]
          exact ih _ hd hoff hlast (by omega) (by omega)
            (Nat.mod_lt _ (Nat.pow_pos (by decide)))
    · simp only [if_neg hpre]
      rw [nodeMap_absent fun h => absurd h hpre, nullWord]
      exact ⟨0, rfl, reads_absent enc⟩

/-- The loop of `triev2_contains` ends with whether the key has data. -/
theorem triev2ContainsLoop_eq {n w : Nat} {f : Nat → Nat} (h : CodedTrieAt enc words S n w f) :
    ∀ {fuel k : Nat}, n ≠ 0 → n ≤ 16 → n ≤ fuel → k < 4 ^ n →
      triev2ContainsLoop words fuel (wordToPtr w) (alignKey k n) ((2 * n : Nat) : Int) =
        some (decide (f k ≠ 0)) := by
  induction h with
  | data _ _ => exact fun hn => absurd rfl hn
  | @node p t j pre n kids f hp hkids hf ih =>
    intro fuel k _ hn hfuel hk
    obtain ⟨fuel, rfl⟩ : ∃ x, fuel = x + 1 := ⟨fuel - 1, by omega⟩
    have hidx := hp.trieIndex
    obtain ⟨hdigit, hrest⟩ := alignKey_step (k := k) (show n + 1 ≤ 16 by omega)
    have hlen : ((2 * (n + 1) : Nat) : Int) - 2 = ((2 * n : Nat) : Int) := by
      push_cast
      ring
    rw [hf k hk, wordToPtr_ptrToWord, triev2ContainsLoop, comparePrefix_node hp hn hk]
    by_cases hpre : k / 4 ^ (n + 1) = pre
    · simp only [if_pos hpre, hidx, hdigit, hrest, hlen]
      have hd := Nat.mod_lt (k / 4 ^ n) (show 4 > 0 by decide)
      by_cases hoff : offset t (k / 4 ^ n % 4) = 0
      · rw [if_pos hoff, nodeMap_absent fun _ => hoff]
        simp
      · rw [if_neg hoff, nodeMap_child hpre hoff]
        by_cases hlast : n = 0
        · subst hlast
          obtain ⟨hdata, hne⟩ := (hkids _ hd hoff).data_eq
          rw [if_neg (by simp), show k % 4 ^ 0 = 0 by simp [Nat.mod_one], hdata]
          rw [decide_eq_true hne]
        · rw [if_pos (by omega)]
          exact ih _ hd hoff hlast (by omega) (by omega)
            (Nat.mod_lt _ (Nat.pow_pos (by decide)))
    · simp only [if_neg hpre]
      rw [nodeMap_absent fun h => absurd h hpre]
      simp

end lookup

/-- The map of the root: `NULL_PTR` is the empty trie. -/
def CodedRootAt (enc : Nat → Nat) (words : Nat → Nat) (S : Nat → Prop) (n root : Nat)
    (f : Nat → Nat) : Prop :=
  MaybeCodedTrieAt enc words S n (ptrToWord root) f

/-- The map of a root whose data are not `NULL_WORD`. -/
abbrev RootAt : (Nat → Nat) → (Nat → Prop) → Nat → Nat → (Nat → Nat) → Prop := CodedRootAt id

section root

variable {enc : Nat → Nat} {words : Nat → Nat} {S : Nat → Prop} {n root : Nat} {f : Nat → Nat}

theorem CodedRootAt.frame {words' : Nat → Nat} {S' : Nat → Prop}
    (h : CodedRootAt enc words S n root f) (hagree : AgreeOn S words words')
    (hS : ∀ a, S a → S' a) : CodedRootAt enc words' S' n root f :=
  MaybeCodedTrieAt.frame h hagree hS

section lookup

variable (h : CodedRootAt enc words S n root f) (hn : n ≠ 0) (hn16 : n ≤ 16) (key : Nat)

include h hn hn16

/-- `triev2_find` on a trie. -/
theorem triev2Find_reads :
    ∃ x, triev2Find words root key (2 * n) = some x ∧ Reads enc (f (key % 4 ^ n)) x := by
  have hk : key % 4 ^ n < 4 ^ n := Nat.mod_lt _ (Nat.pow_pos (by decide))
  unfold triev2Find nullPtr
  rw [lshift32_key key hn16]
  rcases h with ⟨hroot, hf⟩ | h
  · rw [if_pos ((ptrToWord_eq_zero root).mp hroot), hf _ hk, nullWord]
    exact ⟨0, rfl, reads_absent enc⟩
  · rw [if_neg fun hr => h.node_ne_zero hn ((ptrToWord_eq_zero root).mpr hr)]
    simpa using triev2FindLoop_reads h hn hn16 hn16 hk

/-- `triev2_contains` on a trie. -/
theorem triev2Contains_eq :
    triev2Contains words root key (2 * n) = some (decide (f (key % 4 ^ n) ≠ 0)) := by
  have hk : key % 4 ^ n < 4 ^ n := Nat.mod_lt _ (Nat.pow_pos (by decide))
  unfold triev2Contains nullPtr
  rw [lshift32_key key hn16]
  rcases h with ⟨hroot, hf⟩ | h
  · rw [if_pos ((ptrToWord_eq_zero root).mp hroot), hf _ hk]
    simp
  · rw [if_neg fun hr => h.node_ne_zero hn ((ptrToWord_eq_zero root).mpr hr)]
    simpa using triev2ContainsLoop_eq h hn hn16 hn16 hk

end lookup

/-- Data that are not `NULL_WORD` are found as they are in the map. -/
theorem triev2Find_eq (h : RootAt words S n root f) (hn : n ≠ 0) (hn16 : n ≤ 16) (key : Nat) :
    triev2Find words root key (2 * n) = some (f (key % 4 ^ n)) := by
  obtain ⟨x, hfind, hx⟩ := triev2Find_reads h hn hn16 key
  rw [hfind, reads_id.mp hx]

end root

end Shades
