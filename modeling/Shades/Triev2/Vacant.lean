import Shades.Triev2.AtMost

/-!
# Shades.Triev2.Vacant

`triev2_find_nonexistent_key`: an unused key in a block of sixteen keys.

If the first key of the block is in the trie, the block is spread over the leaf
node of that key and its brothers: the prefix of that leaf node, if there is
one, ends inside the block, so that there is no brother.
-/

namespace Shades

/-! ## the code -/

/-- `first_nonexistent_key`. -/
def firstNonexistentKey (t : Nat) : Nat :=
  [0xFF, 3, 2, 2, 1, 1, 1, 1, 0, 0, 0, 0, 0, 0, 0].getD t 0xFF

/-- The first digit without a child. -/
theorem firstNonexistentKey_spec : ∀ t < 15, t = 0 ∨
    (firstNonexistentKey t < 4 ∧ offset t (firstNonexistentKey t) = 0) := by decide

/-- A node of the first type has all children. -/
theorem offset_full : ∀ d < 4, offset 0 d ≠ 0 := by decide

/-- What the loop of `triev2_find_nonexistent_key` ends with: the key is
absent, or the leaf node of the key and the node above it. -/
inductive KeySearch where
  | absent
  | leaf (p up : Nat)

/-- The loop of `triev2_find_nonexistent_key`. -/
def nonexistentLoop (words : Nat → Nat) : Nat → Nat → Nat → Int → Nat → Option KeySearch
  | 0, _, _, _, _ => none
  | fuel + 1, p, restOfKey, keyLength, up =>
    match comparePrefix (words p) restOfKey keyLength with
    | none => some .absent
    | some (restOfKey, keyLength) =>
      let i := offset (trieIndex (words p)) (restOfKey >>> 30)
      if i = 0 then some .absent
      else
        let uup := up
        let up := p
        let restOfKey := lshift32 restOfKey 2
        let keyLength := keyLength - 2
        if keyLength ≠ 0 then do
          assert (taggedIsPtr (words (p + i)))
          nonexistentLoop words fuel (wordToPtr (words (p + i))) restOfKey keyLength up
        else do
          assert (restOfKey = 0)
          pure (.leaf up uup)

/-- The brothers of a full leaf node, for the digits listed. -/
def nonexistentBrother (words : Nat → Nat) (up key : Nat) : List Nat → Option Nat
  | [] => some 0xFFFFFFFF
  | b :: bs =>
    let i := offset (trieIndex (words up)) b
    if i = 0 then some (key + 4 * b)
    else do
      let p := wordToPtr (words (up + i))
      assert (prefixLength (words p) = 0)
      if cellType (words p) ≠ CellType.trie1234.code then
        pure (key + 4 * b + firstNonexistentKey (trieIndex (words p)))
      else nonexistentBrother words up key bs

/-- `triev2_find_nonexistent_key`: an unused key in the block that starts with
the given one, or `0xFFFFFFFF`. -/
def triev2FindNonexistentKey (words : Nat → Nat) (p key keyLength : Nat) : Option Nat := do
  assert (key % 16 = 0)
  if p = nullPtr then some key
  else do
    assert (0 < keyLength)
    match ← nonexistentLoop words 16 p (lshift32 key (32 - keyLength)) keyLength nullPtr with
    | .absent => some key
    | .leaf p up =>
      if cellType (words p) ≠ CellType.trie1234.code then
        some (key + firstNonexistentKey (trieIndex (words p)))
      else if prefixLength (words p) ≠ 0 then some (key + 4)
      else nonexistentBrother words up key [1, 2, 3]

/-! ## the loop -/

/-- The type of a node. -/
theorem NodeAt.cellType_eq {words : Nat → Nat} {S : Nat → Prop} {p t j pre : Nat}
    (h : NodeAt words S p t j pre) : cellType (words p) = CellType.trie1234.code + t := by
  have hlt := Shades.prefix_lt h.prefix_le h.prefix_lt
  have hle := h.prefix_le
  simp only [h.header, Shades.cellType_eq, trieHeader, code_trie1234]
  omega

section spine

variable {words : Nat → Nat} {S : Nat → Prop} {N K : Nat} {F : Nat → Nat}
  {path : List PathEntry} {n k : Nat} {f : Nat → Nat}

/-- The last node of a path. -/
def lastNode (path : List PathEntry) : Nat := (path.head?.map PathEntry.node).getD nullPtr

/-- The leaf node of the key `K`: the prefix agrees and there is a child. -/
structure LeafNode (words : Nat → Nat) (S : Nat → Prop) (N K : Nat) (F : Nat → Nat)
    (path : List PathEntry) (p t j pre k : Nat) (f : Nat → Nat) (kids : Nat → Nat → Nat) :
    Prop where
  path : Spine words S N K F path (j + 1 + 0) k f
  node : NodeAt words S p t j pre
  sons : ∀ d < 4, offset t d ≠ 0 → TrieAt words S 0 (words (p + offset t d)) (kids d)
  map : ∀ κ < 4 ^ (j + 1 + 0), f κ = nodeMap t pre 0 kids κ
  agrees : k / 4 ^ (0 + 1) = pre

/-- The loop ends at the leaf node of a present key. -/
theorem nonexistentLoop_spec {w : Nat} (h : TrieAt words S n w f) (hK : K < 4 ^ N) (hN : N ≤ 16) :
    ∀ {fuel k : Nat} {path : List PathEntry}, n ≠ 0 → n ≤ fuel →
      Spine words S N K F path n k f →
      (nonexistentLoop words fuel (wordToPtr w) (alignKey k n) ((2 * n : Nat) : Int)
          (lastNode path) = some .absent ∧ F K = 0) ∨
        ∃ path' p t j pre k' f' kids,
          nonexistentLoop words fuel (wordToPtr w) (alignKey k n) ((2 * n : Nat) : Int)
            (lastNode path) = some (.leaf p (lastNode path')) ∧
          LeafNode words S N K F path' p t j pre k' f' kids := by
  induction h with
  | data _ _ => exact fun hn => absurd rfl hn
  | @node p t j pre n kids f hp hkids hf ih =>
    intro fuel k path _ hfuel hpath
    obtain ⟨fuel, rfl⟩ : ∃ x, fuel = x + 1 := ⟨fuel - 1, by omega⟩
    have hk := hpath.key_lt hK
    have hmap := hpath.map_eq hK
    have hlength := hpath.length_le
    obtain ⟨hdigit, hrest⟩ := alignKey_step (k := k) (show n + 1 ≤ 16 by omega)
    have hlen : ((2 * (n + 1) : Nat) : Int) - 2 = ((2 * n : Nat) : Int) := by
      push_cast
      ring
    rw [wordToPtr_ptrToWord, nonexistentLoop, comparePrefix_node hp (by omega) hk]
    by_cases hpre : k / 4 ^ (n + 1) = pre
    · simp only [if_pos hpre, hp.trieIndex, hdigit, hrest, hlen]
      have hd := Nat.mod_lt (k / 4 ^ n) (show 4 > 0 by decide)
      by_cases hoff : offset t (k / 4 ^ n % 4) = 0
      · rw [if_pos hoff]
        refine Or.inl ⟨rfl, ?_⟩
        rw [← hmap, hf k hk, nodeMap_absent fun _ => hoff]
      · rw [if_neg hoff]
        by_cases hlast : n = 0
        · subst hlast
          have hzero : alignKey (k % 4 ^ 0) 0 = 0 := by simp [alignKey, Nat.mod_one]
          rw [if_neg (by simp)]
          exact Or.inr ⟨path, p, t, j, pre, k, f, kids, by rw [assert_true hzero]; rfl,
            hpath, hp, hkids, hf, hpre⟩
        · obtain ⟨q, -, -, -, -, -, hq, -⟩ := (hkids _ hd hoff).inv hlast
          rw [if_pos (by omega), show taggedIsPtr (words (p + offset t (k / 4 ^ n % 4))) = true by
            rw [hq]; exact taggedIsPtr_ptrToWord q]
          exact ih _ hd hoff hlast (by omega) (.cons hpath hp hkids hf hpre hoff)
    · simp only [if_neg hpre]
      refine Or.inl ⟨by simp, ?_⟩
      rw [← hmap, hf k hk, nodeMap_absent fun h => absurd h hpre]

/-! ## the block -/

/-- What is found in the block that starts with the key `K`. -/
def InBlock (F : Nat → Nat) (K r : Nat) : Prop :=
  (r = 0xFFFFFFFF ∧ ∀ i < 16, F (K + i) ≠ 0) ∨ (K ≤ r ∧ r < K + 16 ∧ F r = 0)

/-- A key in a gap of the leaf node. -/
theorem LeafNode.absent {p t j pre k d : Nat} {f : Nat → Nat} {kids : Nat → Nat → Nat}
    (h : LeafNode words S N K F path p t j pre k f kids) (hK : K < 4 ^ N) (hfour : K % 4 = 0)
    (hd : d < 4) (hoff : offset t d = 0) : F (K + d) = 0 := by
  have hquot := h.path.key_quot hK h.agrees
  rw [pow_zero, Nat.div_one, Nat.div_one] at hquot
  have hdigit : k % 4 = 0 := by omega
  have hN : 0 < N := by
    have := h.path.length_le
    omega
  have hκ : K + d < 4 ^ N := by
    obtain ⟨n, rfl⟩ : ∃ n, N = n + 1 := ⟨N - 1, by omega⟩
    rw [pow_succ] at hK ⊢
    omega
  have hblock : (K + d) / 4 ^ (j + 1 + 0) = K / 4 ^ (j + 1 + 0) := by
    rw [show j + 1 + 0 = j + 1 by omega, ← div_div_pow _ j 1, ← div_div_pow _ j 1]
    congr 1
    omega
  by_contra hpresent
  obtain ⟨e, he, hκquot, hoffe, -⟩ := h.path.present hK h.map hκ hblock hpresent
  rw [pow_zero, Nat.div_one] at hκquot
  obtain rfl : e = d := by omega
  exact hoffe hoff

/-- A key of a full leaf node. -/
theorem LeafNode.present {p t j pre k d : Nat} {f : Nat → Nat} {kids : Nat → Nat → Nat}
    (h : LeafNode words S N K F path p t j pre k f kids) (hK : K < 4 ^ N) (hfour : K % 4 = 0)
    (hd : d < 4) (hoff : offset t d ≠ 0) : F (K + d) ≠ 0 := by
  have hquot := h.path.key_quot hK h.agrees
  have hvalue := h.path.append hK h.map h.node.prefix_lt hd hoff (x := 0) (by simp)
  have hdata := MaybeTrieAt.data_eq (Or.inr (h.sons d hd hoff))
  simp only [pow_zero, Nat.div_one, mul_one, add_zero] at hquot hvalue
  rw [show K + d = (K / 4 ^ (j + 1) * 4 ^ j + pre) * 4 + d by omega, hvalue, hdata]
  exact TrieAt.ne_zero (h.sons d hd hoff)

section brothers

variable {p t j pre b : Nat} {kids : Nat → Nat → Nat}
  (hpath : Spine words S N K F path (j + 1 + 1) k f) (hK : K < 4 ^ N)
  (hp : NodeAt words S p t j pre)
  (hkids : ∀ d < 4, offset t d ≠ 0 → TrieAt words S 1 (words (p + offset t d)) (kids d))
  (hf : ∀ κ < 4 ^ (j + 1 + 1), f κ = nodeMap t pre 1 kids κ) (hpre : k / 4 ^ (1 + 1) = pre)
  (hblock : K % 16 = 0) (hb : b < 4)

include hpath hK hf hpre hblock hb

/-- There is no brother for a digit. -/
theorem brother_absent (hoff : offset t b = 0) : F (K + 4 * b) = 0 := by
  have hquot := hpath.key_quot hK hpre
  rw [pow_one] at hquot
  have hdigit : k / 4 % 4 = 0 := by omega
  have hN : 1 < N := by
    have := hpath.length_le
    omega
  have hκ : K + 4 * b < 4 ^ N := by
    obtain ⟨n, rfl⟩ : ∃ n, N = n + 1 + 1 := ⟨N - 2, by omega⟩
    rw [pow_succ, pow_succ] at hK ⊢
    omega
  have hsame : (K + 4 * b) / 4 ^ (j + 1 + 1) = K / 4 ^ (j + 1 + 1) := by
    rw [← div_div_pow _ j 2, ← div_div_pow _ j 2]
    congr 1
    omega
  by_contra hpresent
  obtain ⟨e, he, hκquot, hoffe, -⟩ := hpath.present hK hf hκ hsame hpresent
  rw [pow_one] at hκquot
  obtain rfl : e = b := by omega
  exact hoffe hoff

include hp hkids

/-- The brother for a digit. -/
theorem brother_present (hoff : offset t b ≠ 0) :
    ∃ q t', words (p + offset t b) = ptrToWord q ∧ NodeAt words S q t' 0 0 ∧
      ∀ d < 4, F (K + 4 * b + d) ≠ 0 ↔ offset t' d ≠ 0 := by
  obtain ⟨q, t', j', pre', m, kids', hw, hm, hq, hsons, hmap⟩ := (hkids b hb hoff).inv (by decide)
  obtain ⟨rfl, rfl⟩ : j' = 0 ∧ m = 0 := by omega
  obtain rfl : pre' = 0 := by simpa using hq.prefix_lt
  refine ⟨q, t', hw, hq, fun d hd => ?_⟩
  have hquot := hpath.key_quot hK hpre
  have hvalue := hpath.append hK hf hp.prefix_lt hb hoff (x := d) (by simpa using hd)
  rw [pow_one] at hquot hvalue
  have hdigit : k / 4 % 4 = 0 := by omega
  have hson : kids b d = nodeMap t' 0 0 kids' d := hmap d (by simpa using hd)
  rw [nodeMap_quot hd (by simp)] at hson
  rw [show K + 4 * b + d = ((K / 4 ^ (j + 1 + 1) * 4 ^ j + pre) * 4 + b) * 4 + d by omega, hvalue,
    hson]
  by_cases hoffd : offset t' d = 0
  · simp [hoffd]
  · have hdata := MaybeTrieAt.data_eq (Or.inr (hsons d hd hoffd))
    rw [if_neg hoffd, pow_zero, Nat.mod_one, hdata]
    exact iff_of_true (TrieAt.ne_zero (hsons d hd hoffd)) hoffd

/-- A brother of a full leaf node, if the brothers before it are full. -/
theorem nonexistentBrother_step {bs : List Nat} (hprev : ∀ i < 4 * b, F (K + i) ≠ 0)
    (hrest : (∀ i < 4 * (b + 1), F (K + i) ≠ 0) →
      ∃ r, nonexistentBrother words p K bs = some r ∧ InBlock F K r) :
    ∃ r, nonexistentBrother words p K (b :: bs) = some r ∧ InBlock F K r := by
  by_cases hoff : offset t b = 0
  · refine ⟨K + 4 * b, ?_, Or.inr ⟨by omega, by omega,
      brother_absent hpath hK hf hpre hblock hb hoff⟩⟩
    simp only [nonexistentBrother, hp.trieIndex, if_pos hoff]
  · obtain ⟨q, t', hw, hq, hpresent⟩ :=
      brother_present hpath hK hp hkids hf hpre hblock hb hoff
    by_cases hfull : t' = 0
    · subst hfull
      obtain ⟨r, hrun, hr⟩ := hrest fun i hi => by
        by_cases hlt : i < 4 * b
        · exact hprev i hlt
        · have h := (hpresent (i - 4 * b) (by omega)).mpr (offset_full _ (by omega))
          rwa [show K + 4 * b + (i - 4 * b) = K + i by omega] at h
      refine ⟨r, ?_, hr⟩
      simp only [nonexistentBrother, hp.trieIndex, if_neg hoff, hw, wordToPtr_ptrToWord,
        assert_true hq.prefixLength, bind, Option.bind, hq.cellType_eq, add_zero, ne_eq,
        not_true_eq_false, if_false]
      exact hrun
    · obtain ⟨hlt, hnone⟩ := (firstNonexistentKey_spec t' hq.index_lt).resolve_left hfull
      refine ⟨K + 4 * b + firstNonexistentKey t', ?_, Or.inr ⟨by omega, by omega, ?_⟩⟩
      · simp only [nonexistentBrother, hp.trieIndex, if_neg hoff, hw, wordToPtr_ptrToWord,
          assert_true hq.prefixLength, bind, Option.bind, hq.cellType_eq, hq.trieIndex]
        rw [if_pos (by omega)]
        rfl
      · by_contra hne
        exact (hpresent _ hlt).mp hne hnone

end brothers

/-- The block of a leaf node. -/
theorem LeafNode.block {p t j pre k : Nat} {f : Nat → Nat} {kids : Nat → Nat → Nat}
    (h : LeafNode words S N K F path p t j pre k f kids) (hK : K < 4 ^ N) (hN : 2 ≤ N)
    (hblock : K % 16 = 0) :
    ∃ r, (if cellType (words p) ≠ CellType.trie1234.code then
          some (K + firstNonexistentKey (trieIndex (words p)))
        else if prefixLength (words p) ≠ 0 then some (K + 4)
        else nonexistentBrother words (lastNode path) K [1, 2, 3]) = some r ∧ InBlock F K r := by
  rw [h.node.cellType_eq, h.node.trieIndex, h.node.prefixLength]
  by_cases hfull : t = 0
  · subst hfull
    have hall : ∀ i < 4, F (K + i) ≠ 0 := fun i hi =>
      h.present hK (by omega) hi (offset_full i hi)
    rw [if_neg (by simp)]
    by_cases hj : j = 0
    · subst hj
      rw [if_neg (by simp)]
      have hpath := h.path
      generalize hm : 0 + 1 + 0 = m at hpath
      cases hpath with
      | nil => omega
      | @cons path p' t' j' pre' m' k' kids' f' hpath hp hkids hf hpre hoff =>
        obtain rfl : m = 1 := by omega
        exact nonexistentBrother_step hpath hK hp hkids hf hpre hblock (by decide)
          (by simpa using hall)
          fun h₁ => nonexistentBrother_step hpath hK hp hkids hf hpre hblock (by decide) h₁
          fun h₂ => nonexistentBrother_step hpath hK hp hkids hf hpre hblock (by decide) h₂
          fun h₃ => ⟨_, rfl, Or.inl ⟨rfl, h₃⟩⟩
    · -- the prefix ends inside the block
      rw [if_pos (by omega)]
      refine ⟨K + 4, rfl, Or.inr ⟨by omega, by omega, ?_⟩⟩
      have hquot := h.path.key_quot hK h.agrees
      have hκ : K + 4 < 4 ^ N := by
        obtain ⟨n, rfl⟩ : ∃ n, N = n + 1 + 1 := ⟨N - 2, by omega⟩
        rw [pow_succ, pow_succ] at hK ⊢
        omega
      have hsame : (K + 4) / 4 ^ (j + 1 + 0) = K / 4 ^ (j + 1 + 0) := by
        rw [show j + 1 + 0 = j - 1 + 2 by omega, ← div_div_pow _ (j - 1) 2,
          ← div_div_pow _ (j - 1) 2]
        congr 1
        omega
      by_contra hpresent
      obtain ⟨e, he, hκquot, -, -⟩ := h.path.present hK h.map hκ hsame hpresent
      rw [pow_zero, Nat.div_one] at hquot hκquot
      omega
  · obtain ⟨hlt, hnone⟩ := (firstNonexistentKey_spec t h.node.index_lt).resolve_left hfull
    rw [if_pos (by omega)]
    exact ⟨_, rfl, Or.inr ⟨by omega, by omega, h.absent hK (by omega) hlt hnone⟩⟩

end spine

/-- `triev2_find_nonexistent_key` on a trie. -/
theorem triev2FindNonexistentKey_spec {words : Nat → Nat} {S : Nat → Prop} {n root key : Nat}
    {f : Nat → Nat} (h : RootAt words S n root f) (hn : 2 ≤ n) (hn16 : n ≤ 16)
    (hkey : key < 4 ^ n) (hblock : key % 16 = 0) :
    ∃ r, triev2FindNonexistentKey words root key (2 * n) = some r ∧ InBlock f key r := by
  simp only [triev2FindNonexistentKey, assert_true hblock, assert_true (show 0 < 2 * n by omega),
    bind, Option.bind]
  rcases h with ⟨hroot, hf⟩ | h
  · have hnull : root = nullPtr := (ptrToWord_eq_zero root).mp hroot
    rw [if_pos hnull]
    exact ⟨key, rfl, Or.inr ⟨Nat.le_refl _, by omega, hf key hkey⟩⟩
  · have hne : root ≠ nullPtr := fun hr => TrieAt.ne_zero h ((ptrToWord_eq_zero root).mpr hr)
    rw [if_neg hne]
    have hrun := nonexistentLoop_spec h hkey hn16 (show n ≠ 0 by omega) hn16 .nil
    rw [wordToPtr_ptrToWord] at hrun
    rw [lshift32_key key hn16, Nat.mod_eq_of_lt hkey]
    rcases hrun with ⟨hrun, habsent⟩ | ⟨path, p, t, j, pre, k, f', kids, hrun, hleaf⟩
    · rw [show nonexistentLoop words 16 root (alignKey key n) ((2 * n : Nat) : Int) nullPtr =
        some .absent from hrun]
      exact ⟨key, rfl, Or.inr ⟨Nat.le_refl _, by omega, habsent⟩⟩
    · rw [show nonexistentLoop words 16 root (alignKey key n) ((2 * n : Nat) : Int) nullPtr =
        some (.leaf p (lastNode path)) from hrun]
      exact hleaf.block hkey hn hblock

/-! ## histories -/

/-- In every history, for every version and every block of sixteen keys but the
last one of all, `triev2_find_nonexistent_key` returns an absent key of the
block, or reports failure if all keys of the block are present. -/
theorem triev2_find_nonexistent_key {n : Nat} (hn : 2 ≤ n) (hn16 : n ≤ 16) {m : Memory}
    {h : History} (hrun : Relation.ReflTransGen (TrieStep n) (History.initial m) h) {v : Version}
    (hv : v ∈ h.versions) (key : Nat) (hkey : key < 4 ^ n) (hblock : key % 16 = 0)
    (hlast : key ≠ 0xFFFFFFF0) :
    ∃ r, triev2FindNonexistentKey h.memory.words v.root key (2 * n) = some r ∧
      (r = 0xFFFFFFFF ↔ ∀ i < 16, v.map (key + i) ≠ none) ∧
      (r ≠ 0xFFFFFFFF → key ≤ r ∧ r < key + 16 ∧ v.map r = none) := by
  obtain ⟨hproper, hroot⟩ := sound_of_trieRun (by omega) hn16 hrun v hv
  obtain ⟨r, hfind, hr⟩ := triev2FindNonexistentKey_spec hroot hn hn16 hkey hblock
  have hword : key < 2 ^ 32 := by
    have hle : 4 ^ n ≤ 4 ^ 16 := Nat.pow_le_pow_right (by decide) hn16
    rw [show (2 : Nat) ^ 32 = 4 ^ 16 by decide]
    omega
  refine ⟨r, hfind, ?_⟩
  simp only [hproper.ne_none]
  rcases hr with ⟨rfl, hall⟩ | ⟨hle, hlt, habsent⟩
  · exact ⟨iff_of_true rfl hall, fun hne => absurd rfl hne⟩
  · have hne : r ≠ 0xFFFFFFFF := by omega
    refine ⟨iff_of_false hne fun hall => ?_, fun _ => ⟨hle, hlt, ?_⟩⟩
    · refine hall (r - key) (by omega) ?_
      rw [show key + (r - key) = r by omega]
      exact habsent
    · by_contra hsome
      exact (hproper.ne_none r).mp hsome habsent

/-- A key of the block from `0x10` on is free, where three of the four keys are. -/
theorem triev2_find_nonexistent_key_four : ∃ h v, v ∈ History.versions h ∧ v.map = fourKeys ∧
    ∃ r, triev2FindNonexistentKey h.memory.words v.root 0x10 8 = some r ∧ 0x10 ≤ r ∧ r < 0x20 ∧
      fourKeys r = none := by
  obtain ⟨h, v, hrun, hv, hmap, -⟩ := exists_fourKeys_trieRun
  obtain ⟨r, hfind, hall, hnone⟩ := triev2_find_nonexistent_key (by decide) (by decide) hrun hv
    0x10 (by decide) (by decide) (by decide)
  rw [hmap] at hall hnone
  have hne : r ≠ 0xFFFFFFFF := fun h0 => hall.mp h0 5 (by decide) rfl
  obtain ⟨hle, hlt, habsent⟩ := hnone hne
  exact ⟨h, v, hv, hmap, r, hfind, hle, hlt, habsent⟩

end Shades
