import Mathlib.Order.Bounds.Basic
import Shades.Triev2.Quick

/-!
# Shades.Triev2.AtMost

`triev2_find_max` and `triev2_find_at_most`: the greatest key of a trie, and
the greatest key that is not greater than a given one.

The search of `triev2_find_at_most` goes down to the given key.  Where it
cannot go on it goes back up to the nearest node with a child for a smaller
digit, and from there down again along the greatest children.
-/

namespace Shades

/-! ## the tables -/

/-- `greatest_non_null`. -/
def greatestNonNulls : List (List Nat) := [
  [0, 1, 2, 3, 4], [0, 1, 2, 3, 3], [0, 1, 2, 2, 3], [0, 1, 2, 2, 2],
  [0, 1, 1, 2, 3], [0, 1, 1, 2, 2], [0, 1, 1, 1, 2], [0, 1, 1, 1, 1],
  [0, 0, 1, 2, 3], [0, 0, 1, 2, 2], [0, 0, 1, 1, 2], [0, 0, 1, 1, 1],
  [0, 0, 0, 1, 2], [0, 0, 0, 1, 1], [0, 0, 0, 0, 1]]

/-- The position of the greatest child for a digit less than `b` in a node of
type `t`, or `0` if there is none. -/
def greatestNonNull (t b : Nat) : Nat := (greatestNonNulls.getD t []).getD b 0

/-- The position of a child comes after the positions of the smaller ones. -/
theorem offset_eq_greatestNonNull : ∀ t < 15, ∀ d < 4, offset t d = 0 ∨
    offset t d = greatestNonNull t d + 1 := by decide

/-- There are no children below. -/
theorem greatestNonNull_zero : ∀ t < 15, ∀ b < 5, greatestNonNull t b ≠ 0 ∨
    ∀ e < 4, e < b → offset t e = 0 := by decide

/-- The digit of the greatest child below. -/
theorem deoffset_greatestNonNull : ∀ t < 15, ∀ b < 5, greatestNonNull t b = 0 ∨
    (deoffset t (greatestNonNull t b - 1) < b ∧ deoffset t (greatestNonNull t b - 1) < 4 ∧
      offset t (deoffset t (greatestNonNull t b - 1)) = greatestNonNull t b ∧
      ∀ e < 4, e < b → offset t e = 0 ∨ e ≤ deoffset t (greatestNonNull t b - 1)) := by decide

/-- Every node has a child. -/
theorem greatestNonNull_four : ∀ t < 15, greatestNonNull t 4 ≠ 0 := by decide

/-! ## the code -/

/-- The prefix of a node is put behind the bits of a key. -/
def appendPrefix (p0 key : Nat) (keyLength : Int) : Nat × Int :=
  if prefixLength p0 ≠ 0 then
    (lshift32 key (prefixLength p0) ||| nodePrefix p0, keyLength - prefixLength p0)
  else (key, keyLength)

/-- The loop of `triev2_find_max`. -/
def triev2FindMaxLoop (words : Nat → Nat) : Nat → Nat → Int → Nat → Option Nat
  | 0, _, _, _ => none
  | fuel + 1, p, keyLength, maxKey => do
    let (maxKey, keyLength) := appendPrefix (words p) maxKey keyLength
    let i := greatestNonNull (trieIndex (words p)) 4
    assert (0 < i)
    let maxKey := lshift32 maxKey 2 ||| deoffset (trieIndex (words p)) (i - 1)
    let keyLength := keyLength - 2
    if keyLength ≠ 0 then triev2FindMaxLoop words fuel (wordToPtr (words (p + i))) keyLength maxKey
    else pure maxKey

/-- `triev2_find_max`: the greatest key, or `NULL_WORD`. -/
def triev2FindMax (words : Nat → Nat) (p keyLength : Nat) : Option Nat :=
  if p = nullPtr then some nullWord
  else do
    assert (0 < keyLength)
    triev2FindMaxLoop words 16 p keyLength 0

/-- The label `find_max` in `triev2_find_at_most`.  The result is the data
together with `*keyp`. -/
def findMaxBelow (words : Nat → Nat) : Nat → Nat → Int → Nat → Option (Nat × Nat)
  | 0, _, _, _ => none
  | fuel + 1, data, keyLength, finalKey =>
    if keyLength = 0 then some (data, finalKey)
    else do
      assert (taggedIsPtr data)
      let p := wordToPtr data
      let (finalKey, keyLength) := appendPrefix (words p) finalKey keyLength
      let i := greatestNonNull (trieIndex (words p)) 4
      let d := deoffset (trieIndex (words p)) (i - 1)
      assert (d ≠ 0xFF)
      findMaxBelow words fuel (words (p + i)) (keyLength - 2) (lshift32 finalKey 2 ||| d)

/-- The label `find_smaller` and the way up.  The path starts with the entry
for the current level. -/
def findSmaller (words : Nat → Nat) (key : Nat) :
    List PathEntry → Int → Nat → Option (Nat × Nat)
  | [], _, _ => some (nullWord, key)
  | e :: path, keyLength, finalKey =>
    let p := e.node
    let prefixLen := prefixLength (words p)
    let keyLength := keyLength + prefixLen
    let finalKey := finalKey >>> prefixLen
    let i := e.offset - 1
    if i < 1 then findSmaller words key path (keyLength + 2) (finalKey >>> 2)
    else do
      let (finalKey, keyLength) := appendPrefix (words p) finalKey keyLength
      let d := deoffset (trieIndex (words p)) (i - 1)
      assert (d ≠ 0xFF)
      findMaxBelow words 17 (words (p + i)) (keyLength - 2) (lshift32 finalKey 2 ||| d)

/-- The first loop of `triev2_find_at_most`.  The path is kept with its last
entry first; `data` is the word that led to the node `p`, once the loop has
left the root. -/
def findAtMostLoop (words : Nat → Nat) :
    Nat → Nat → Nat → Int → Nat → Nat → List PathEntry → Option (Nat × Nat)
  | 0, _, _, _, _, _, _ => none
  | fuel + 1, p, key, keyLength, finalKey, data, path =>
    let prefixLen := prefixLength (words p)
    let keyPrefix := key >>> (32 - prefixLen)
    if prefixLen ≠ 0 ∧ nodePrefix (words p) ≠ keyPrefix then
      if nodePrefix (words p) < keyPrefix then
        findMaxBelow words 17 (if path.length = 0 then ptrToWord p else data) keyLength finalKey
      else findSmaller words key path (keyLength + 2) (finalKey >>> 2)
    else
      let key := if prefixLen ≠ 0 then lshift32 key prefixLen else key
      let (finalKey, keyLength) := appendPrefix (words p) finalKey keyLength
      let ix := key >>> 30
      let i := offset (trieIndex (words p)) ix
      if i = 0 then
        findSmaller words key (⟨p, ix, greatestNonNull (trieIndex (words p)) ix + 1⟩ :: path)
          keyLength finalKey
      else
        let data := words (p + i)
        let key := lshift32 key 2
        let keyLength := keyLength - 2
        let finalKey := lshift32 finalKey 2 ||| ix
        if keyLength ≠ 0 then do
          assert (taggedIsPtr data)
          findAtMostLoop words fuel (wordToPtr data) key keyLength finalKey data
            (⟨p, ix, i⟩ :: path)
        else some (data, finalKey)

/-- `triev2_find_at_most`: the data and the new value of `*keyp`. -/
def triev2FindAtMost (words : Nat → Nat) (root key keyLength : Nat) : Option (Nat × Nat) :=
  if root = nullPtr then some (nullWord, key)
  else do
    assert (0 < keyLength)
    findAtMostLoop words 16 root (lshift32 key (32 - keyLength)) keyLength 0 nullWord []

/-! ## the keys of a node -/

/-- Appending digits in a register. -/
theorem append_digits {x y j r : Nat} (hx : x < 4 ^ r) (hr : r + j ≤ 16) (hy : y < 4 ^ j) :
    lshift32 x (2 * j) ||| y = x * 4 ^ j + y := by
  have hpow : 4 ^ r * 4 ^ j ≤ 4 ^ 16 := by
    rw [← pow_add]
    exact Nat.pow_le_pow_right (by decide) hr
  have hfit : x * 4 ^ j < 2 ^ 32 := by
    calc
      x * 4 ^ j < 4 ^ r * 4 ^ j := Nat.mul_lt_mul_of_pos_right hx (Nat.pow_pos (by decide))
      _ ≤ 4 ^ 16 := hpow
      _ = 2 ^ 32 := by decide
  rw [lshift32_or (by rwa [two_pow_double]) (by rwa [two_pow_double]), two_pow_double]

/-- Dropping digits. -/
theorem drop_digits (x j : Nat) : x >>> (2 * j) = x / 4 ^ j := by
  rw [Nat.shiftRight_eq_div_pow, two_pow_double]

/-- The quotient and the rest of a key that is put together. -/
theorem append_div_mod {q k n : Nat} (hk : k < 4 ^ n) :
    (q * 4 ^ n + k) / 4 ^ n = q ∧ (q * 4 ^ n + k) % 4 ^ n = k := by
  constructor
  · rw [mul_comm, Nat.mul_add_div (Nat.pow_pos (by decide)), Nat.div_eq_of_lt hk, add_zero]
  · rw [mul_comm, Nat.mul_add_mod, Nat.mod_eq_of_lt hk]

/-- The digits above the rest are the prefix and the next digit. -/
theorem nodeMap_quot {t pre n k d : Nat} {kids : Nat → Nat → Nat} (hd : d < 4)
    (hk : k / 4 ^ n = pre * 4 + d) :
    nodeMap t pre n kids k = if offset t d = 0 then 0 else kids d (k % 4 ^ n) := by
  have hpre : k / 4 ^ (n + 1) = pre := by
    rw [pow_succ, ← Nat.div_div_eq_div_mul, hk]
    omega
  have hdigit : k / 4 ^ n % 4 = d := by omega
  unfold nodeMap
  rw [hpre, hdigit]
  by_cases hoff : offset t d = 0
  · rw [if_neg fun h => h.2 hoff, if_pos hoff]
  · rw [if_pos ⟨rfl, hoff⟩, if_neg hoff]

/-- A present key goes to a child. -/
theorem exists_digit {t pre n k : Nat} {kids : Nat → Nat → Nat} (h : nodeMap t pre n kids k ≠ 0) :
    ∃ d < 4, k / 4 ^ n = pre * 4 + d ∧ offset t d ≠ 0 ∧ kids d (k % 4 ^ n) ≠ 0 := by
  obtain ⟨hpre, hoff⟩ := nodeMap_present h
  refine ⟨k / 4 ^ n % 4, Nat.mod_lt _ (by decide), ?_, hoff, ?_⟩
  · rw [pow_succ, ← Nat.div_div_eq_div_mul] at hpre
    omega
  · rwa [nodeMap_child hpre hoff] at h

/-- The keys of a map for `n` digits. -/
def keySet (f : Nat → Nat) (n : Nat) : Set Nat := {k | k < 4 ^ n ∧ f k ≠ 0}

/-- A key that is put together has as many digits as its parts. -/
theorem append_lt {b j n d k : Nat} (hb : b < 4 ^ j) (hd : d < 4) (hk : k < 4 ^ n) :
    (b * 4 + d) * 4 ^ n + k < 4 ^ (j + 1 + n) := by
  have hq : b * 4 + d < 4 ^ (j + 1) := by
    rw [pow_succ]
    omega
  have hle : (b * 4 + d + 1) * 4 ^ n ≤ 4 ^ (j + 1) * 4 ^ n := Nat.mul_le_mul_right _ hq
  rw [pow_add]
  rw [Nat.add_mul, one_mul] at hle
  omega

/-- The prefix of a node is put behind the digits of a key. -/
theorem appendPrefix_node {words : Nat → Nat} {S : Nat → Prop} {p t j pre r a : Nat}
    (hp : NodeAt words S p t j pre) (ha : a < 4 ^ r) (hr : r + j ≤ 16) (keyLength : Int) :
    appendPrefix (words p) a keyLength =
        (a * 4 ^ j + pre, keyLength - ((2 * j : Nat) : Int)) ∧
      a * 4 ^ j + pre < 4 ^ (r + j) := by
  constructor
  · rw [appendPrefix, hp.prefixLength, hp.nodePrefix]
    by_cases hj : j = 0
    · subst hj
      have hpre : pre = 0 := by simpa using hp.prefix_lt
      simp [hpre]
    · rw [if_pos (by omega), append_digits ha hr hp.prefix_lt]
  · have hle : (a + 1) * 4 ^ j ≤ 4 ^ r * 4 ^ j := Nat.mul_le_mul_right _ ha
    have hpre := hp.prefix_lt
    rw [Nat.add_mul, one_mul] at hle
    rw [pow_add]
    omega

theorem appendPrefix_snd {words : Nat → Nat} {S : Nat → Prop} {p t j pre n a : Nat}
    (hp : NodeAt words S p t j pre) :
    (appendPrefix (words p) a ((2 * (j + 1 + n) : Nat) : Int)).2 = ((2 * (n + 1) : Nat) : Int) := by
  rw [appendPrefix, hp.prefixLength]
  split
  · push_cast
    ring
  · dsimp only
    omega

/-- The greatest key of a node is below its greatest child. -/
theorem greatest_node {t j pre n d k : Nat} {kids : Nat → Nat → Nat} {f : Nat → Nat}
    (hf : ∀ k < 4 ^ (j + 1 + n), f k = nodeMap t pre n kids k) (hpre : pre < 4 ^ j) (hd : d < 4)
    (hoff : offset t d ≠ 0) (hmax : ∀ e < 4, offset t e = 0 ∨ e ≤ d)
    (hk : IsGreatest (keySet (kids d) n) k) :
    IsGreatest (keySet f (j + 1 + n)) ((pre * 4 + d) * 4 ^ n + k) ∧
      f ((pre * 4 + d) * 4 ^ n + k) = kids d k := by
  obtain ⟨⟨hlt, hne⟩, hupper⟩ := hk
  have hkey := append_lt hpre hd hlt
  obtain ⟨hdiv, hmod⟩ := append_div_mod (q := pre * 4 + d) hlt
  have hvalue : f ((pre * 4 + d) * 4 ^ n + k) = kids d k := by
    rw [hf _ hkey, nodeMap_quot hd hdiv, if_neg hoff, hmod]
  refine ⟨⟨⟨hkey, by rwa [hvalue]⟩, fun κ ⟨hκ, hpresent⟩ => ?_⟩, hvalue⟩
  rw [hf κ hκ] at hpresent
  obtain ⟨e, he, hquot, hoffe, hrest⟩ := exists_digit hpresent
  have hκmod := Nat.mod_lt κ (show 4 ^ n > 0 from Nat.pow_pos (by decide))
  rcases Nat.lt_or_ge e d with hlt' | hge
  · have hless : κ / 4 ^ n < ((pre * 4 + d) * 4 ^ n + k) / 4 ^ n := by
      rw [hdiv, hquot]
      omega
    exact Nat.le_of_lt (Nat.lt_of_div_lt_div hless)
  · obtain rfl : e = d := Nat.le_antisymm ((hmax e he).resolve_left hoffe) hge
    have hle := hupper ⟨hκmod, hrest⟩
    have hdecomp := Nat.div_add_mod κ (4 ^ n)
    rw [hquot, mul_comm] at hdecomp
    omega

/-- Going down along the greatest children. -/
theorem findMaxBelow_reads {enc : Nat → Nat} {words : Nat → Nat} {S : Nat → Prop} {n w : Nat}
    {f : Nat → Nat} (h : CodedTrieAt enc words S n w f) :
    ∀ {fuel r a : Nat}, n < fuel → a < 4 ^ r → r + n ≤ 16 →
      ∃ k x, IsGreatest (keySet f n) k ∧ Reads enc (f k) x ∧
        findMaxBelow words fuel w ((2 * n : Nat) : Int) a = some (x, a * 4 ^ n + k) := by
  induction h with
  | @data w f hw hf =>
    intro fuel r a hfuel _ _
    obtain ⟨fuel, rfl⟩ : ∃ x, fuel = x + 1 := ⟨fuel - 1, by omega⟩
    refine ⟨0, w, ⟨⟨by simp, by rwa [hf]⟩, fun κ hκ => ?_⟩, ?_, ?_⟩
    · have := hκ.1
      omega
    · rw [hf, Reads, if_neg hw]
    · rw [findMaxBelow, if_pos (by simp)]
      simp
  | @node p t j pre n kids f hp hkids hf ih =>
    intro fuel r a hfuel ha hr
    obtain ⟨fuel, rfl⟩ : ∃ x, fuel = x + 1 := ⟨fuel - 1, by omega⟩
    obtain ⟨-, hd, hoff, hmax⟩ :=
      (deoffset_greatestNonNull t hp.index_lt 4 (by decide)).resolve_left
        (greatestNonNull_four t hp.index_lt)
    generalize hdef : deoffset t (greatestNonNull t 4 - 1) = d at hd hoff hmax
    have hoff' : offset t d ≠ 0 := hoff ▸ greatestNonNull_four t hp.index_lt
    obtain ⟨hpfx, hlt⟩ := appendPrefix_node hp ha (show r + j ≤ 16 by omega)
      ((2 * (j + 1 + n) : Nat) : Int)
    have hdigit := append_digits hlt (show r + j + 1 ≤ 16 by omega) (j := 1) (by simpa using hd)
    have ha' : (a * 4 ^ j + pre) * 4 + d < 4 ^ (r + j + 1) := by
      rw [pow_succ]
      omega
    obtain ⟨k, x, hk, hx, hrun⟩ := ih d hd hoff' (show n < fuel by omega) ha' (by omega)
    obtain ⟨hgreatest, hvalue⟩ := greatest_node hf hp.prefix_lt hd hoff'
      (fun e he => hmax e he he) hk
    refine ⟨_, x, hgreatest, by rwa [hvalue], ?_⟩
    rw [mul_one, pow_one] at hdigit
    have hlen : ((2 * (j + 1 + n) : Nat) : Int) - ((2 * j : Nat) : Int) - 2 =
        ((2 * n : Nat) : Int) := by
      push_cast
      ring
    have hsum : ((a * 4 ^ j + pre) * 4 + d) * 4 ^ n + k =
        a * 4 ^ (j + 1 + n) + ((pre * 4 + d) * 4 ^ n + k) := by
      rw [pow_add, pow_succ]
      ring
    rw [hoff] at hrun
    rw [findMaxBelow, if_neg (by omega), wordToPtr_ptrToWord]
    simp only [assert_true (taggedIsPtr_ptrToWord p), bind, Option.bind, hpfx, hp.trieIndex,
      hdef, assert_true (show d ≠ 0xFF by omega), hdigit, hlen]
    rw [hrun, hsum]

theorem findMaxBelow_spec {words : Nat → Nat} {S : Nat → Prop} {n w : Nat} {f : Nat → Nat}
    (h : TrieAt words S n w f) {fuel r a : Nat} (hfuel : n < fuel) (ha : a < 4 ^ r)
    (hr : r + n ≤ 16) : ∃ k, IsGreatest (keySet f n) k ∧
      findMaxBelow words fuel w ((2 * n : Nat) : Int) a = some (f k, a * 4 ^ n + k) := by
  obtain ⟨k, x, hk, hx, hrun⟩ := findMaxBelow_reads h hfuel ha hr
  exact ⟨k, hk, by rw [hrun, reads_id.mp hx]⟩

/-- The loop of `triev2_find_max` goes the same way. -/
theorem triev2FindMaxLoop_eq {enc : Nat → Nat} {words : Nat → Nat} {S : Nat → Prop} {n w : Nat}
    {f : Nat → Nat} (h : CodedTrieAt enc words S n w f) : ∀ {fuel a : Nat}, n ≠ 0 → n ≤ fuel →
      triev2FindMaxLoop words fuel (wordToPtr w) ((2 * n : Nat) : Int) a =
        (findMaxBelow words (fuel + 1) w ((2 * n : Nat) : Int) a).map Prod.snd := by
  induction h with
  | data _ _ => exact fun hn => absurd rfl hn
  | @node p t j pre n kids f hp hkids hf ih =>
    intro fuel a _ hfuel
    obtain ⟨fuel, rfl⟩ : ∃ x, fuel = x + 1 := ⟨fuel - 1, by omega⟩
    have hpos := greatestNonNull_four t hp.index_lt
    obtain ⟨-, hd, hoff, -⟩ := (deoffset_greatestNonNull t hp.index_lt 4 (by decide)).resolve_left
      hpos
    generalize ha : (appendPrefix (words p) a ((2 * (j + 1 + n) : Nat) : Int)).1 = a'
    have hpfx : appendPrefix (words p) a ((2 * (j + 1 + n) : Nat) : Int) =
        (a', ((2 * (n + 1) : Nat) : Int)) := by
      rw [← ha, ← appendPrefix_snd hp]
    have hlen : ((2 * (n + 1) : Nat) : Int) - 2 = ((2 * n : Nat) : Int) := by
      push_cast
      ring
    rw [triev2FindMaxLoop, findMaxBelow, if_neg (by omega), wordToPtr_ptrToWord]
    simp only [bind, Option.bind, hpfx, hp.trieIndex, hlen,
      assert_true (Nat.pos_of_ne_zero hpos), assert_true (taggedIsPtr_ptrToWord p),
      assert_true (show deoffset t (greatestNonNull t 4 - 1) ≠ 0xFF by omega)]
    by_cases hlast : n = 0
    · subst hlast
      rw [if_neg (by simp), findMaxBelow, if_pos (by simp)]
      rfl
    · have hkid := ih _ hd (by rwa [hoff]) hlast (show n ≤ fuel by omega)
        (a := lshift32 a' 2 ||| deoffset t (greatestNonNull t 4 - 1))
      rw [hoff] at hkid
      rw [if_pos (by omega)]
      exact hkid

/-- `triev2_find_max` on a trie. -/
theorem triev2FindMax_spec {enc : Nat → Nat} {words : Nat → Nat} {S : Nat → Prop} {n root : Nat}
    {f : Nat → Nat} (h : CodedRootAt enc words S n root f) (hn : n ≠ 0) (hn16 : n ≤ 16) :
    ∃ k, triev2FindMax words root (2 * n) = some k ∧
      (IsGreatest (keySet f n) k ∨ keySet f n = ∅ ∧ k = nullWord) := by
  rcases h with ⟨hroot, hf⟩ | h
  · refine ⟨nullWord, if_pos ((ptrToWord_eq_zero root).mp hroot), Or.inr ⟨?_, rfl⟩⟩
    exact Set.eq_empty_of_forall_notMem fun k hk => hk.2 (hf k hk.1)
  · have hroot : root ≠ nullPtr := fun hr => h.node_ne_zero hn ((ptrToWord_eq_zero root).mpr hr)
    obtain ⟨k, _, hk, -, hrun⟩ := findMaxBelow_reads h (show n < 17 by omega)
      (show 0 < 4 ^ 0 by simp) (by omega)
    have hloop := triev2FindMaxLoop_eq h (a := 0) hn hn16
    rw [hrun, wordToPtr_ptrToWord] at hloop
    refine ⟨k, ?_, Or.inl hk⟩
    simp only [triev2FindMax, if_neg hroot, assert_true (show 0 < 2 * n by omega), bind,
      Option.bind]
    simpa using hloop

/-- The digits of the prefix are removed from an aligned key. -/
theorem alignKey_prefix {j n k : Nat} (hn : j + 1 + n ≤ 16) (hk : k < 4 ^ (j + 1 + n)) :
    (if 2 * j ≠ 0 then lshift32 (alignKey k (j + 1 + n)) (2 * j) else alignKey k (j + 1 + n)) =
      alignKey (k % 4 ^ (n + 1)) (n + 1) := by
  by_cases hj : j = 0
  · subst hj
    rw [show 0 + 1 + n = n + 1 by omega] at hk ⊢
    rw [if_neg (by omega), Nat.mod_eq_of_lt hk]
  · rw [if_pos (by omega), lshift32_alignKey k hn (by omega), show j + 1 + n - j = n + 1 by omega]

/-! ## the way to the key -/

/-- The upper digits of a rest of a key. -/
theorem mod_div_pow (x a n : Nat) : x % 4 ^ (a + n) / 4 ^ n = x / 4 ^ n % 4 ^ a := by
  rw [pow_add, mul_comm, Nat.mod_mul_right_div_self]

theorem mod_mod_pow (x a n : Nat) : x % 4 ^ (a + n) % 4 ^ n = x % 4 ^ n :=
  Nat.mod_mod_of_dvd _ (pow_dvd_pow 4 (Nat.le_add_left n a))

theorem div_div_pow (x a n : Nat) : x / 4 ^ n / 4 ^ a = x / 4 ^ (a + n) := by
  rw [Nat.div_div_eq_div_mul, ← pow_add, Nat.add_comm]

section spine

variable {words : Nat → Nat} {S : Nat → Prop} {N K : Nat} {F : Nat → Nat}
  {path : List PathEntry} {n k : Nat} {f : Nat → Nat}

/-- What is left of the key. -/
theorem Spine.rest (h : Spine words S N K F path n k f) (hK : K < 4 ^ N) : k = K % 4 ^ n := by
  induction h with
  | nil => exact (Nat.mod_eq_of_lt hK).symm
  | cons _ _ _ _ _ _ ih => rw [ih, mod_mod_pow]

/-- The keys that agree with the key so far are in the subtrie. -/
theorem Spine.map_block (h : Spine words S N K F path n k f) (hK : K < 4 ^ N) {κ : Nat}
    (hκ : κ < 4 ^ N) (hblock : κ / 4 ^ n = K / 4 ^ n) : F κ = f (κ % 4 ^ n) := by
  induction h with
  | nil => rw [Nat.mod_eq_of_lt hκ]
  | @cons path p t j pre m k kids f hpath hp hkids hf hpre hoff ih =>
    have hquot : κ % 4 ^ (j + 1 + m) / 4 ^ m = k / 4 ^ m := by
      rw [hpath.rest hK, mod_div_pow, mod_div_pow, hblock]
    have hpre' : κ % 4 ^ (j + 1 + m) / 4 ^ (m + 1) = pre := by
      rw [← hpre, pow_succ, ← Nat.div_div_eq_div_mul, ← Nat.div_div_eq_div_mul, hquot]
    rw [ih (by rw [← div_div_pow κ (j + 1) m, ← div_div_pow K (j + 1) m, hblock]),
      hf _ (Nat.mod_lt _ (Nat.pow_pos (by decide))),
      nodeMap_child hpre' (by rwa [hquot]), hquot, mod_mod_pow]

section node

variable {p t j pre : Nat} {kids : Nat → Nat → Nat}
  (hpath : Spine words S N K F path (j + 1 + n) k f) (hK : K < 4 ^ N)
  (hf : ∀ κ < 4 ^ (j + 1 + n), f κ = nodeMap t pre n kids κ)

include hpath hK

/-- The digits of the key down to a node whose prefix agrees. -/
theorem Spine.key_quot (hpre : k / 4 ^ (n + 1) = pre) :
    K / 4 ^ n = (K / 4 ^ (j + 1 + n) * 4 ^ j + pre) * 4 + k / 4 ^ n % 4 := by
  have hrest := hpath.rest hK
  have hquot : k / 4 ^ n = pre * 4 + k / 4 ^ n % 4 := by
    rw [pow_succ, ← Nat.div_div_eq_div_mul] at hpre
    omega
  have hmod : k / 4 ^ n = K / 4 ^ n % 4 ^ (j + 1) := by rw [hrest, mod_div_pow]
  have hdecomp := Nat.div_add_mod (K / 4 ^ n) (4 ^ (j + 1))
  rw [← hmod, div_div_pow, pow_succ] at hdecomp
  rw [← hdecomp]
  calc
    4 ^ j * 4 * (K / 4 ^ (j + 1 + n)) + k / 4 ^ n =
        4 ^ j * 4 * (K / 4 ^ (j + 1 + n)) + (pre * 4 + k / 4 ^ n % 4) := by rw [← hquot]
    _ = _ := by ring

include hf

/-- The present keys of a node. -/
theorem Spine.present {κ : Nat} (hκ : κ < 4 ^ N)
    (hblock : κ / 4 ^ (j + 1 + n) = K / 4 ^ (j + 1 + n)) (hpresent : F κ ≠ 0) :
    ∃ d < 4, κ / 4 ^ n = (K / 4 ^ (j + 1 + n) * 4 ^ j + pre) * 4 + d ∧ offset t d ≠ 0 ∧
      kids d (κ % 4 ^ n) ≠ 0 := by
  rw [hpath.map_block hK hκ hblock, hf _ (Nat.mod_lt _ (Nat.pow_pos (by decide)))] at hpresent
  obtain ⟨d, hd, hquot, hoff, hkid⟩ := exists_digit hpresent
  rw [mod_mod_pow] at hkid
  refine ⟨d, hd, ?_, hoff, hkid⟩
  have hdecomp := Nat.div_add_mod (κ / 4 ^ n) (4 ^ (j + 1))
  rw [← mod_div_pow, hquot, div_div_pow, hblock] at hdecomp
  rw [← hdecomp, pow_succ]
  ring

/-- A key that is put together in a node. -/
theorem Spine.append (hpre : pre < 4 ^ j) {d x : Nat} (hd : d < 4) (hoff : offset t d ≠ 0)
    (hx : x < 4 ^ n) :
    F (((K / 4 ^ (j + 1 + n) * 4 ^ j + pre) * 4 + d) * 4 ^ n + x) = kids d x := by
  have hsum : ((K / 4 ^ (j + 1 + n) * 4 ^ j + pre) * 4 + d) * 4 ^ n + x =
      K / 4 ^ (j + 1 + n) * 4 ^ (j + 1 + n) + ((pre * 4 + d) * 4 ^ n + x) := by
    rw [pow_add, pow_succ]
    ring
  have hlt := append_lt hpre hd hx
  obtain ⟨hdiv, hmod⟩ := append_div_mod (q := K / 4 ^ (j + 1 + n)) hlt
  obtain ⟨hdiv', hmod'⟩ := append_div_mod (q := pre * 4 + d) hx
  have hκ : K / 4 ^ (j + 1 + n) * 4 ^ (j + 1 + n) + ((pre * 4 + d) * 4 ^ n + x) < 4 ^ N := by
    have hle := hpath.length_le
    refine Nat.lt_of_div_eq_zero (Nat.pow_pos (by decide)) ?_
    rw [show N = N - (j + 1 + n) + (j + 1 + n) by omega, ← div_div_pow, hdiv, div_div_pow,
      show N - (j + 1 + n) + (j + 1 + n) = N by omega, Nat.div_eq_of_lt hK]
  rw [hsum, hpath.map_block hK hκ hdiv, hmod, hf _ hlt, nodeMap_quot hd hdiv', if_neg hoff, hmod']

end node

/-! ## the way back up -/

/-- The greatest key that is not greater than `K`, with its data, or
`NULL_WORD` if there is none. -/
def AtMost (F : Nat → Nat) (K : Nat) (r : Nat × Nat) : Prop :=
  (IsGreatest {κ | κ ≤ K ∧ F κ ≠ 0} r.2 ∧ r.1 = F r.2) ∨
    {κ | κ ≤ K ∧ F κ ≠ 0} = ∅ ∧ r.1 = nullWord

/-- From a node on the way to the key, if the subtrie that the key belongs to
has no key that is small enough. -/
theorem findSmaller_node {p t j pre key : Nat} {kids : Nat → Nat → Nat}
    (hpath : Spine words S N K F path (j + 1 + n) k f) (hK : K < 4 ^ N) (hN : N ≤ 16)
    (hp : NodeAt words S p t j pre)
    (hkids : ∀ d < 4, offset t d ≠ 0 → TrieAt words S n (words (p + offset t d)) (kids d))
    (hf : ∀ κ < 4 ^ (j + 1 + n), f κ = nodeMap t pre n kids κ) (hpre : k / 4 ^ (n + 1) = pre)
    (hblock : ∀ κ < 4 ^ N, κ / 4 ^ n = K / 4 ^ n → F κ ≠ 0 → K < κ)
    (hup : (∀ κ < 4 ^ N, κ / 4 ^ (j + 1 + n) = K / 4 ^ (j + 1 + n) → F κ ≠ 0 → K < κ) →
      ∃ r, findSmaller words key path (((2 * (j + 1 + n) : Nat) : Int) + 2)
        (K / 4 ^ (j + 1 + n) / 4) = some r ∧ AtMost F K r) :
    ∃ r, findSmaller words key
        (⟨p, k / 4 ^ n % 4, greatestNonNull t (k / 4 ^ n % 4) + 1⟩ :: path)
        ((2 * (n + 1) : Nat) : Int) (K / 4 ^ (n + 1)) = some r ∧ AtMost F K r := by
  have hlen : ((2 * (n + 1) : Nat) : Int) + ((2 * j : Nat) : Int) =
      ((2 * (j + 1 + n) : Nat) : Int) := by
    push_cast
    ring
  have hdrop : (K / 4 ^ (n + 1)) >>> (2 * j) = K / 4 ^ (j + 1 + n) := by
    rw [drop_digits, div_div_pow, show j + (n + 1) = j + 1 + n by omega]
  have hdrop' : (K / 4 ^ (j + 1 + n)) >>> 2 = K / 4 ^ (j + 1 + n) / 4 := by
    simpa using drop_digits (K / 4 ^ (j + 1 + n)) 1
  have hquot := hpath.key_quot hK hpre
  have hd := Nat.mod_lt (k / 4 ^ n) (show 4 > 0 by decide)
  generalize k / 4 ^ n % 4 = d at hquot hd
  simp only [findSmaller, hp.prefixLength, hlen, hdrop, hdrop', Nat.add_sub_cancel]
  by_cases hsmaller : greatestNonNull t d = 0
  · -- there is no child to the left, and nothing below this node is small enough
    rw [if_pos (by omega)]
    refine hup fun κ hκ hκblock hpresent => ?_
    obtain ⟨e, he, hκquot, hoffe, -⟩ := hpath.present hK hf hκ hκblock hpresent
    have hnone := (greatestNonNull_zero t hp.index_lt d (by omega)).resolve_left
      (not_not.mpr hsmaller)
    rcases Nat.lt_trichotomy e d with hlt | rfl | hgt
    · exact absurd (hnone e he hlt) hoffe
    · exact hblock κ hκ (by rw [hκquot, hquot]) hpresent
    · refine Nat.lt_of_div_lt_div (c := 4 ^ n) ?_
      rw [hκquot, hquot]
      omega
  · -- the greatest child to the left
    obtain ⟨hlt, hd', hoff, hmax⟩ :=
      (deoffset_greatestNonNull t hp.index_lt d (by omega)).resolve_left hsmaller
    generalize hdef : deoffset t (greatestNonNull t d - 1) = d' at hlt hd' hoff hmax
    have hoff' : offset t d' ≠ 0 := by rwa [hoff]
    have hle := hpath.length_le
    have hupper : K / 4 ^ (j + 1 + n) < 4 ^ (N - (j + 1 + n)) := by
      rw [Nat.div_lt_iff_lt_mul (Nat.pow_pos (by decide)), ← pow_add,
        show N - (j + 1 + n) + (j + 1 + n) = N by omega]
      exact hK
    obtain ⟨hpfx, hb⟩ := appendPrefix_node hp hupper (by omega)
      ((2 * (j + 1 + n) : Nat) : Int)
    generalize hbdef : K / 4 ^ (j + 1 + n) * 4 ^ j + pre = b at hquot hpfx hb
    have hdigit := append_digits hb (show N - (j + 1 + n) + j + 1 ≤ 16 by omega) (j := 1)
      (by simpa using hd')
    rw [mul_one, pow_one] at hdigit
    obtain ⟨x, ⟨⟨hx, hne⟩, hgreatest⟩, hrun⟩ := findMaxBelow_spec (hkids d' hd' hoff')
      (show n < 17 by omega) (show b * 4 + d' < 4 ^ (N - (j + 1 + n) + j + 1) by
        rw [pow_succ]; omega) (by omega)
    have hvalue := hpath.append hK hf hp.prefix_lt hd' hoff' hx
    rw [hbdef] at hvalue
    obtain ⟨hdiv, hmod⟩ := append_div_mod (q := b * 4 + d') hx
    refine ⟨(kids d' x, (b * 4 + d') * 4 ^ n + x), ?_, Or.inl ⟨⟨⟨?_, by rwa [hvalue]⟩, ?_⟩,
      hvalue.symm⟩⟩
    · rw [hoff] at hrun
      rw [if_neg (by omega), hpfx]
      simp only [hp.trieIndex, hdef, assert_true (show d' ≠ 0xFF by omega), bind, Option.bind,
        hdigit]
      rw [← hrun]
      congr 1
      push_cast
      ring
    · refine Nat.le_of_lt (Nat.lt_of_div_lt_div (c := 4 ^ n) ?_)
      rw [hdiv, hquot]
      omega
    · rintro κ ⟨hκK, hpresent⟩
      have hκ : κ < 4 ^ N := Nat.lt_of_le_of_lt hκK hK
      rcases Nat.lt_or_ge (κ / 4 ^ (j + 1 + n)) (K / 4 ^ (j + 1 + n)) with hless | hge
      · have hless' : κ / 4 ^ n < b * 4 + d' := by
          rw [← div_div_pow κ (j + 1) n, Nat.div_lt_iff_lt_mul (Nat.pow_pos (by decide)),
            pow_succ, ← mul_assoc] at hless
          omega
        exact Nat.le_of_lt (Nat.lt_of_div_lt_div (by rwa [hdiv]))
      · have hκblock : κ / 4 ^ (j + 1 + n) = K / 4 ^ (j + 1 + n) :=
          Nat.le_antisymm (Nat.div_le_div_right hκK) hge
        obtain ⟨e, he, hκquot, hoffe, hkid⟩ := hpath.present hK hf hκ hκblock hpresent
        rw [hbdef] at hκquot
        rcases Nat.lt_trichotomy e d' with hed | rfl | hed
        · have hless : κ / 4 ^ n < ((b * 4 + d') * 4 ^ n + x) / 4 ^ n := by
            rw [hdiv, hκquot]
            omega
          exact Nat.le_of_lt (Nat.lt_of_div_lt_div hless)
        · have hrest := hgreatest ⟨Nat.mod_lt κ (Nat.pow_pos (by decide)), hkid⟩
          have hdecomp := Nat.div_add_mod κ (4 ^ n)
          rw [hκquot, mul_comm] at hdecomp
          omega
        · -- the child for the digit of the key, or one to its right
          have hed' : d ≤ e := by
            by_contra hless
            have := (hmax e he (by omega)).resolve_left hoffe
            omega
          rcases Nat.eq_or_lt_of_le hed' with rfl | hgt
          · have := hblock κ hκ (by rw [hκquot, hquot]) hpresent
            omega
          · have hgreater : K / 4 ^ n < κ / 4 ^ n := by
              rw [hκquot, hquot]
              omega
            have := Nat.lt_of_div_lt_div hgreater
            omega

/-- From any place on the way to the key. -/
theorem findSmaller_spec (h : Spine words S N K F path n k f) (hK : K < 4 ^ N) (hN : N ≤ 16)
    (key : Nat) : (∀ κ < 4 ^ N, κ / 4 ^ n = K / 4 ^ n → F κ ≠ 0 → K < κ) →
    ∃ r, findSmaller words key path (((2 * n : Nat) : Int) + 2) (K / 4 ^ n / 4) = some r ∧
      AtMost F K r := by
  induction h with
  | nil =>
    intro hblock
    refine ⟨_, rfl, Or.inr ⟨?_, rfl⟩⟩
    refine Set.eq_empty_of_forall_notMem fun κ ⟨hκK, hpresent⟩ => ?_
    have hκ : κ < 4 ^ N := Nat.lt_of_le_of_lt hκK hK
    have := hblock κ hκ (by rw [Nat.div_eq_of_lt hκ, Nat.div_eq_of_lt hK]) hpresent
    omega
  | @cons path p t j pre m k kids f hpath hp hkids hf hpre hoff ih =>
    intro hblock
    have hd := Nat.mod_lt (k / 4 ^ m) (show 4 > 0 by decide)
    rw [(offset_eq_greatestNonNull t hp.index_lt _ hd).resolve_left hoff,
      show ((2 * m : Nat) : Int) + 2 = ((2 * (m + 1) : Nat) : Int) by push_cast; ring,
      Nat.div_div_eq_div_mul, ← pow_succ]
    exact findSmaller_node hpath hK hN hp hkids hf hpre hblock ih

/-- The bits of the key that were compared fit in a register. -/
theorem Spine.div_lt (h : Spine words S N K F path n k f) (hK : K < 4 ^ N) :
    K / 4 ^ n < 4 ^ (N - n) := by
  have hle := h.length_le
  rw [Nat.div_lt_iff_lt_mul (Nat.pow_pos (by decide)), ← pow_add, show N - n + n = N by omega]
  exact hK

/-- All keys of a node with a smaller prefix are smaller, those of a node with a
greater prefix are greater. -/
theorem Spine.compare_prefix {t j pre : Nat} {kids : Nat → Nat → Nat}
    (hpath : Spine words S N K F path (j + 1 + n) k f) (hK : K < 4 ^ N)
    (hf : ∀ κ < 4 ^ (j + 1 + n), f κ = nodeMap t pre n kids κ) {κ : Nat} (hκ : κ < 4 ^ N)
    (hblock : κ / 4 ^ (j + 1 + n) = K / 4 ^ (j + 1 + n)) (hpresent : F κ ≠ 0) :
    (pre < k / 4 ^ (n + 1) → κ < K) ∧ (k / 4 ^ (n + 1) < pre → K < κ) := by
  obtain ⟨d, hd, hquot, -, -⟩ := hpath.present hK hf hκ hblock hpresent
  have hκquot : κ / 4 ^ (n + 1) = K / 4 ^ (j + 1 + n) * 4 ^ j + pre := by
    rw [pow_succ, ← Nat.div_div_eq_div_mul, hquot]
    omega
  have hKquot : K / 4 ^ (n + 1) = K / 4 ^ (j + 1 + n) * 4 ^ j + k / 4 ^ (n + 1) := by
    have hdecomp := Nat.div_add_mod (K / 4 ^ (n + 1)) (4 ^ j)
    rw [← mod_div_pow, div_div_pow, show j + (n + 1) = j + 1 + n by omega, ← hpath.rest hK,
      mul_comm] at hdecomp
    exact hdecomp.symm
  constructor <;> intro hlt <;> refine Nat.lt_of_div_lt_div (c := 4 ^ (n + 1)) ?_ <;> omega

/-- The search ends in a node whose prefix is smaller than that of the key. -/
theorem findMaxBelow_atMost {w : Nat} (h : TrieAt words S n w f)
    (hpath : Spine words S N K F path n k f) (hK : K < 4 ^ N) (hN : N ≤ 16)
    (hsmall : ∀ κ < 4 ^ N, κ / 4 ^ n = K / 4 ^ n → F κ ≠ 0 → κ < K) :
    ∃ r, findMaxBelow words 17 w ((2 * n : Nat) : Int) (K / 4 ^ n) = some r ∧ AtMost F K r := by
  have hle := hpath.length_le
  obtain ⟨x, ⟨⟨hx, hne⟩, hgreatest⟩, hrun⟩ := findMaxBelow_spec h (show n < 17 by omega)
    (hpath.div_lt hK) (by omega)
  obtain ⟨hdiv, hmod⟩ := append_div_mod (q := K / 4 ^ n) hx
  have hlt : K / 4 ^ n * 4 ^ n + x < 4 ^ N := by
    refine Nat.lt_of_div_eq_zero (Nat.pow_pos (by decide)) ?_
    rw [show N = N - n + n by omega, ← div_div_pow, hdiv, div_div_pow,
      show N - n + n = N by omega, Nat.div_eq_of_lt hK]
  have hvalue : F (K / 4 ^ n * 4 ^ n + x) = f x := by rw [hpath.map_block hK hlt hdiv, hmod]
  have hpresent : F (K / 4 ^ n * 4 ^ n + x) ≠ 0 := by rwa [hvalue]
  refine ⟨_, hrun, Or.inl ⟨⟨⟨Nat.le_of_lt (hsmall _ hlt hdiv hpresent), hpresent⟩, ?_⟩,
    hvalue.symm⟩⟩
  rintro κ ⟨hκK, hκpresent⟩
  have hκ : κ < 4 ^ N := Nat.lt_of_le_of_lt hκK hK
  rcases Nat.lt_or_ge (κ / 4 ^ n) (K / 4 ^ n) with hless | hge
  · exact Nat.le_of_lt (Nat.lt_of_div_lt_div (by rwa [hdiv]))
  · have hblock : κ / 4 ^ n = K / 4 ^ n := Nat.le_antisymm (Nat.div_le_div_right hκK) hge
    rw [hpath.map_block hK hκ hblock] at hκpresent
    have hrest := hgreatest ⟨Nat.mod_lt κ (Nat.pow_pos (by decide)), hκpresent⟩
    have hdecomp := Nat.div_add_mod κ (4 ^ n)
    rw [hblock, mul_comm] at hdecomp
    omega

/-- The search from a node on the way to the key. -/
theorem findAtMostLoop_spec {w : Nat} (h : TrieAt words S n w f) (hK : K < 4 ^ N) (hN : N ≤ 16) :
    ∀ {fuel k data : Nat} {path : List PathEntry}, n ≠ 0 → n ≤ fuel →
      Spine words S N K F path n k f → (path ≠ [] → data = w) →
      ∃ r, findAtMostLoop words fuel (wordToPtr w) (alignKey k n) ((2 * n : Nat) : Int)
          (K / 4 ^ n) data path = some r ∧ AtMost F K r := by
  induction h with
  | data _ _ => exact fun hn => absurd rfl hn
  | @node p t j pre n kids f hp hkids hf ih =>
    intro fuel k data path _ hfuel hpath hdata
    obtain ⟨fuel, rfl⟩ : ∃ x, fuel = x + 1 := ⟨fuel - 1, by omega⟩
    have hlength := hpath.length_le
    have hk := hpath.key_lt hK
    have hkey := alignKey_shiftRight k (show j + 1 + n ≤ 16 by omega) (show j ≤ j + 1 + n by omega)
    rw [show j + 1 + n - j = n + 1 by omega] at hkey
    rw [wordToPtr_ptrToWord, findAtMostLoop]
    simp only [hp.prefixLength, hp.nodePrefix, hkey]
    by_cases hpre : k / 4 ^ (n + 1) = pre
    · -- the prefix agrees
      have hquot := hpath.key_quot hK hpre
      have hd := Nat.mod_lt (k / 4 ^ n) (show 4 > 0 by decide)
      obtain ⟨hpfx, hb⟩ := appendPrefix_node hp (hpath.div_lt hK) (by omega)
        ((2 * (j + 1 + n) : Nat) : Int)
      have hlen := appendPrefix_snd hp (a := K / 4 ^ (j + 1 + n)) (n := n)
      rw [hpfx] at hlen
      dsimp only at hlen
      rw [hlen] at hpfx
      obtain ⟨hdigit, hrest⟩ := alignKey_step (k := k) (show n + 1 ≤ 16 by omega)
      have hfinal : K / 4 ^ (j + 1 + n) * 4 ^ j + pre = K / 4 ^ (n + 1) := by
        rw [pow_succ, ← Nat.div_div_eq_div_mul, hquot]
        omega
      rw [hfinal] at hpfx hb hquot
      have happend := append_digits hb (show N - (j + 1 + n) + j + 1 ≤ 16 by omega) (j := 1)
        (by simpa using hd)
      rw [mul_one, pow_one, ← hquot] at happend
      simp only [hpre, ne_eq, not_true_eq_false, and_false, if_false, hpfx,
        alignKey_prefix (show j + 1 + n ≤ 16 by omega) hk, hdigit, hrest, hp.trieIndex, happend]
      by_cases hoff : offset t (k / 4 ^ n % 4) = 0
      · rw [if_pos hoff]
        refine findSmaller_node hpath hK hN hp hkids hf hpre (fun κ hκ hblock hpresent => ?_)
          (findSmaller_spec hpath hK hN _)
        obtain ⟨e, he, hκquot, hoffe, -⟩ := hpath.present hK hf hκ
          (by rw [← div_div_pow κ (j + 1) n, ← div_div_pow K (j + 1) n, hblock]) hpresent
        rw [hfinal, hblock, hquot] at hκquot
        obtain rfl : e = k / 4 ^ n % 4 := by omega
        exact absurd hoff hoffe
      · have hpath' := Spine.cons hpath hp hkids hf hpre hoff
        rw [if_neg hoff, show ((2 * (n + 1) : Nat) : Int) - 2 = ((2 * n : Nat) : Int) by
          push_cast; ring]
        by_cases hlast : n = 0
        · subst hlast
          have hdata := MaybeTrieAt.data_eq (Or.inr (hkids _ hd hoff))
          have hmap := hpath'.map_eq hK
          rw [show k % 4 ^ 0 = 0 by simp [Nat.mod_one], hdata] at hmap
          rw [if_neg (by simp), show K / 4 ^ 0 = K by simp]
          refine ⟨_, rfl, Or.inl ⟨⟨⟨Nat.le_refl K, ?_⟩, fun κ hκ => hκ.1⟩, hmap⟩⟩
          rw [← hmap]
          exact TrieAt.ne_zero (hkids _ hd hoff)
        · obtain ⟨q, -, -, -, -, -, hq, -⟩ := (hkids _ hd hoff).inv hlast
          rw [if_pos (by omega), show taggedIsPtr (words (p + offset t (k / 4 ^ n % 4))) = true by
            rw [hq]; exact taggedIsPtr_ptrToWord q]
          exact ih _ hd hoff hlast (by omega) hpath' fun _ => rfl
    · -- the prefixes differ
      have hj : j ≠ 0 := by
        rintro rfl
        have hpre0 : pre = 0 := by simpa using hp.prefix_lt
        refine hpre (hpre0 ▸ Nat.div_eq_of_lt ?_)
        rwa [show 0 + 1 + n = n + 1 by omega] at hk
      rw [if_pos ⟨by omega, fun h => hpre h.symm⟩]
      by_cases hless : pre < k / 4 ^ (n + 1)
      · rw [if_pos hless]
        have hdata' : (if path.length = 0 then ptrToWord p else data) = ptrToWord p := by
          split
          · rfl
          · next hne => exact hdata fun h => hne (by rw [h]; rfl)
        rw [hdata']
        exact findMaxBelow_atMost (.node hp hkids hf) hpath hK hN fun κ hκ hblock hpresent =>
          (hpath.compare_prefix hK hf hκ hblock hpresent).1 hless
      · rw [if_neg hless, show (K / 4 ^ (j + 1 + n)) >>> 2 = K / 4 ^ (j + 1 + n) / 4 by
          simpa using drop_digits (K / 4 ^ (j + 1 + n)) 1]
        exact findSmaller_spec hpath hK hN _ fun κ hκ hblock hpresent =>
          (hpath.compare_prefix hK hf hκ hblock hpresent).2 (by omega)

end spine

/-- `triev2_find_at_most` on a trie. -/
theorem triev2FindAtMost_spec {words : Nat → Nat} {S : Nat → Prop} {n root : Nat} {f : Nat → Nat}
    (h : RootAt words S n root f) (hn : n ≠ 0) (hn16 : n ≤ 16) (key : Nat) :
    ∃ r, triev2FindAtMost words root key (2 * n) = some r ∧ AtMost f (key % 4 ^ n) r := by
  have hK : key % 4 ^ n < 4 ^ n := Nat.mod_lt _ (Nat.pow_pos (by decide))
  rcases h with ⟨hroot, hf⟩ | h
  · refine ⟨_, if_pos ((ptrToWord_eq_zero root).mp hroot), Or.inr ⟨?_, rfl⟩⟩
    exact Set.eq_empty_of_forall_notMem fun κ hκ =>
      hκ.2 (hf κ (Nat.lt_of_le_of_lt hκ.1 hK))
  · have hroot : root ≠ nullPtr := fun hr => h.node_ne_zero hn ((ptrToWord_eq_zero root).mpr hr)
    obtain ⟨r, hrun, hr⟩ := findAtMostLoop_spec h hK hn16 hn hn16 .nil
      (show ([] : List PathEntry) ≠ [] → nullWord = ptrToWord root from fun h => absurd rfl h)
    refine ⟨r, ?_, hr⟩
    simp only [triev2FindAtMost, if_neg hroot, assert_true (show 0 < 2 * n by omega), bind,
      Option.bind, lshift32_key key hn16]
    rw [Nat.div_eq_of_lt hK, wordToPtr_ptrToWord] at hrun
    exact hrun

/-! ## histories -/

/-- The keys of a proper map are those with a word. -/
theorem KeyMap.Proper.ne_none {g : KeyMap} (h : g.Proper) (k : Nat) :
    g k ≠ none ↔ g.words k ≠ 0 := by
  rw [← Option.isSome_iff_ne_none, h.isSome_eq, decide_eq_true_iff]

/-- In every history and for every version, `triev2_find_at_most` returns the
greatest key that is not greater than the given one together with its data, or
`NULL_WORD` if there is none, and `triev2_find_max` returns the greatest key. -/
theorem triev2_find_at_most {n : Nat} (hn : n ≠ 0) (hn16 : n ≤ 16) {m : Memory} {h : History}
    (hrun : Relation.ReflTransGen (TrieStep n) (History.initial m) h) {v : Version}
    (hv : v ∈ h.versions) :
    (∀ key, ∃ x k, triev2FindAtMost h.memory.words v.root key (2 * n) = some (x, k) ∧
      (x = nullWord ↔ {κ | κ ≤ key % 4 ^ n ∧ v.map κ ≠ none} = ∅) ∧
      (x ≠ nullWord → IsGreatest {κ | κ ≤ key % 4 ^ n ∧ v.map κ ≠ none} k ∧ v.map k = some x)) ∧
    ∃ k, triev2FindMax h.memory.words v.root (2 * n) = some k ∧
      (IsGreatest {κ | κ < 4 ^ n ∧ v.map κ ≠ none} k ∨
        {κ | κ < 4 ^ n ∧ v.map κ ≠ none} = ∅ ∧ k = nullWord) := by
  obtain ⟨hproper, hroot⟩ := sound_of_trieRun hn hn16 hrun v hv
  simp only [hproper.ne_none]
  refine ⟨fun key => ?_, triev2FindMax_spec hroot hn hn16⟩
  obtain ⟨⟨x, k⟩, hfind, hr⟩ := triev2FindAtMost_spec hroot hn hn16 key
  refine ⟨x, k, hfind, ?_⟩
  rcases hr with ⟨hgreatest, hx⟩ | ⟨hempty, hx⟩
  · have hpresent : v.map.words k ≠ 0 := hgreatest.1.2
    have hne : x ≠ nullWord := by
      rw [show x = v.map.words k from hx]
      exact hpresent
    refine ⟨⟨fun h0 => absurd h0 hne, fun hempty => ?_⟩, fun _ => ⟨hgreatest, ?_⟩⟩
    · exact absurd hgreatest.1 (Set.eq_empty_iff_forall_notMem.mp hempty k)
    · have hsome := (hproper.ne_none k).mpr hpresent
      obtain ⟨y, hy⟩ := Option.ne_none_iff_exists'.mp hsome
      rw [hy, show x = v.map.words k from hx, KeyMap.words, hy]
      rfl
  · exact ⟨⟨fun _ => hempty, fun _ => hx⟩, fun hne => absurd hx hne⟩

theorem fourKeys_ne_none (k : Nat) :
    fourKeys k ≠ none ↔ k = 0x12 ∨ k = 0x13 ∨ k = 0x52 ∨ k = 0x1a := by
  simp only [fourKeys, List.foldl_cons, List.foldl_nil, Function.update_apply]
  split_ifs <;> simp_all

/-- The key before `0x50` of four keys, and the last one. -/
theorem triev2_find_at_most_four : ∃ h v, v ∈ History.versions h ∧ v.map = fourKeys ∧
    triev2FindAtMost h.memory.words v.root 0x50 8 = some (10, 0x1a) ∧
    triev2FindMax h.memory.words v.root 8 = some 0x52 := by
  obtain ⟨h, v, hrun, hv, hmap, -⟩ := exists_fourKeys_trieRun
  obtain ⟨hfind, k, hmax, hlast⟩ := triev2_find_at_most (by decide) (by decide) hrun hv
  obtain ⟨x, κ, hcall, hnone, hsome⟩ := hfind 0x50
  rw [hmap] at hnone hsome hlast
  have hat : IsGreatest {κ | κ ≤ 0x50 % 4 ^ 4 ∧ fourKeys κ ≠ none} 0x1a := by
    refine ⟨⟨by decide, by decide⟩, fun κ hκ => ?_⟩
    have hkey := (fourKeys_ne_none κ).mp hκ.2
    have hle : κ ≤ 0x50 := hκ.1
    omega
  have hne : x ≠ nullWord := fun h0 =>
    Set.eq_empty_iff_forall_notMem.mp (hnone.mp h0) _ hat.1
  obtain ⟨hgreatest, hx⟩ := hsome hne
  obtain rfl := hgreatest.unique hat
  obtain rfl : 10 = x := Option.some.inj hx
  refine ⟨h, v, hv, hmap, hcall, ?_⟩
  have hend : IsGreatest {κ | κ < 4 ^ 4 ∧ fourKeys κ ≠ none} 0x52 := by
    refine ⟨⟨by decide, by decide⟩, fun κ hκ => ?_⟩
    have hkey := (fourKeys_ne_none κ).mp hκ.2
    omega
  rcases hlast with hlast | ⟨hempty, -⟩
  · rw [← hlast.unique hend]
    exact hmax
  · exact absurd hend.1 (Set.eq_empty_iff_forall_notMem.mp hempty _)

end Shades
