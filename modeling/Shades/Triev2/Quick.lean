import Shades.Triev2.Versions

/-!
# Shades.Triev2.Quick

The fast paths of `triev2.c` for keys that are known to be in the trie:
`triev2_find_quick` and `triev2_replace`.  They assert what `triev2_find` and
`triev2_insert` test.

The switch in `triev2_replace` is the one in `triev2_insert`, so a turn of one
loop is a turn of the other on every node that the way to a present key
meets.
-/

namespace Shades

/-! ## the code -/

/-- The loop of `triev2_find_quick`. -/
def triev2FindQuickLoop (words : Nat → Nat) : Nat → Nat → Nat → Int → Option Nat
  | 0, _, _, _ => none
  | fuel + 1, p, key, keyLength => do
    let prefixLen := prefixLength (words p)
    assert (prefixLen = 0 ∨ nodePrefix (words p) = key >>> (32 - prefixLen))
    let key := lshift32 key prefixLen
    let keyLength := keyLength - prefixLen
    let data := words (p + offset (trieIndex (words p)) (key >>> 30))
    if keyLength = 2 then pure data
    else do
      assert (taggedIsPtr data)
      triev2FindQuickLoop words fuel (wordToPtr data) (lshift32 key 2) (keyLength - 2)

/-- `triev2_find_quick`: the data behind a key that is in the trie. -/
def triev2FindQuick (words : Nat → Nat) (p key keyLength : Nat) : Option Nat := do
  assert (p ≠ nullPtr)
  assert (0 < keyLength)
  triev2FindQuickLoop words 16 p (lshift32 key (32 - keyLength)) keyLength

/-- One turn of the loop of `triev2_replace`. -/
def replaceStep (s : InsertState) : Option InsertState := do
  assert (s.p ≠ nullPtr)
  let fullPrefix := s.memory.words s.p &&& fullPrefixMask
  let s ←
    if fullPrefix ≠ 0 then do
      let prefixLen := prefixLength fullPrefix
      assert (nodePrefix fullPrefix = s.key >>> (32 - prefixLen))
      pure { s with key := lshift32 s.key prefixLen, keyLength := s.keyLength - prefixLen }
    else pure s
  let s := insertNode s fullPrefix
  pure { s with key := lshift32 s.key 2, keyLength := s.keyLength - 2 }

/-- The loop of `triev2_replace`. -/
def replaceLoop : Nat → InsertState → Option InsertState
  | 0, _ => none
  | fuel + 1, s => do
    let s ← replaceStep s
    if s.keyLength ≠ 0 then do
      assert (taggedIsPtr s.oldData)
      replaceLoop fuel { s with p := wordToPtr s.oldData }
    else pure s

/-- The end of `triev2_replace`. -/
def replaceFinish (root ap : Nat) (f : Option UpdateFunction) (data : Nat) (s : InsertState) :
    Nat × Memory :=
  let (data, m) := UpdateFunction.call f s.oldData data s.memory
  if s.oldData = data then (root, m.restoreAllocationPoint ap)
  else
    let s := { s with memory := m }.assign data
    (wordToPtr s.newRoot, s.memory)

/-- `triev2_replace`. -/
def triev2Replace (m : Memory) (root key keyLength : Nat) (f : Option UpdateFunction)
    (data : Nat) : Option (Nat × Memory) := do
  assert (0 < keyLength)
  let s ← replaceLoop 16 (insertStart m root key keyLength)
  assert (s.key = 0)
  pure (replaceFinish root m.allocationPtr f data s)

/-! ## lookup -/

/-- The loop of `triev2_find_quick` on the way to a present key. -/
theorem triev2FindQuickLoop_reads {enc : Nat → Nat} {words : Nat → Nat} {S : Nat → Prop} {n w : Nat}
    {f : Nat → Nat} (h : CodedTrieAt enc words S n w f) :
    ∀ {fuel k : Nat}, n ≠ 0 → n ≤ 16 → n ≤ fuel → k < 4 ^ n → f k ≠ 0 →
      ∃ x, triev2FindQuickLoop words fuel (wordToPtr w) (alignKey k n) ((2 * n : Nat) : Int) =
        some x ∧ Reads enc (f k) x := by
  induction h with
  | data _ _ => exact fun hn => absurd rfl hn
  | @node p t j pre n kids f hp hkids hf ih =>
    intro fuel k _ hn hfuel hk hpresent
    obtain ⟨fuel, rfl⟩ : ∃ x, fuel = x + 1 := ⟨fuel - 1, by omega⟩
    rw [hf k hk] at hpresent ⊢
    obtain ⟨hpre, hoff⟩ := nodeMap_present hpresent
    have hkey := alignKey_shiftRight k hn (show j ≤ j + 1 + n by omega)
    have hshift := lshift32_alignKey k hn (show j ≤ j + 1 + n by omega)
    rw [show j + 1 + n - j = n + 1 by omega] at hkey hshift
    obtain ⟨hdigit, hrest⟩ := alignKey_step (k := k) (show n + 1 ≤ 16 by omega)
    have hlen : ((2 * (j + 1 + n) : Nat) : Int) - ((2 * j : Nat) : Int) =
        ((2 * (n + 1) : Nat) : Int) := by
      push_cast
      ring
    have hd := Nat.mod_lt (k / 4 ^ n) (show 4 > 0 by decide)
    rw [nodeMap_child hpre hoff, wordToPtr_ptrToWord]
    simp only [triev2FindQuickLoop, hp.prefixLength, hp.nodePrefix, hp.trieIndex, hkey, hshift,
      hdigit, hrest, hlen, assert_true (Or.inr hpre.symm), bind, Option.bind]
    by_cases hlast : n = 0
    · subst hlast
      rw [if_pos (by simp), show k % 4 ^ 0 = 0 by simp [Nat.mod_one]]
      exact ⟨_, rfl, MaybeCodedTrieAt.reads (Or.inr (hkids _ hd hoff))⟩
    · have hkid := ih _ hd hoff hlast (by omega) (show n ≤ fuel by omega)
        (Nat.mod_lt k (Nat.pow_pos (by decide)))
      rw [nodeMap_child hpre hoff] at hpresent
      obtain ⟨q, -, -, -, -, -, hq, -⟩ := (hkids _ hd hoff).inv hlast
      rw [hq] at hkid ⊢
      rw [if_neg (by omega), assert_true (taggedIsPtr_ptrToWord q),
        show ((2 * (n + 1) : Nat) : Int) - 2 = ((2 * n : Nat) : Int) by push_cast; ring]
      exact hkid hpresent

/-- `triev2_find_quick` on a trie. -/
theorem triev2FindQuick_reads {enc : Nat → Nat} {words : Nat → Nat} {S : Nat → Prop} {n root : Nat}
    {f : Nat → Nat} (h : CodedRootAt enc words S n root f) (hn : n ≠ 0) (hn16 : n ≤ 16) {key : Nat}
    (hkey : f (key % 4 ^ n) ≠ 0) :
    ∃ x, triev2FindQuick words root key (2 * n) = some x ∧ Reads enc (f (key % 4 ^ n)) x := by
  have hk : key % 4 ^ n < 4 ^ n := Nat.mod_lt _ (Nat.pow_pos (by decide))
  rcases h with ⟨-, hf⟩ | h
  · exact absurd (hf _ hk) hkey
  · have hroot : root ≠ nullPtr := fun hr => h.node_ne_zero hn ((ptrToWord_eq_zero root).mpr hr)
    have hloop := triev2FindQuickLoop_reads h hn hn16 hn16 hk hkey
    rw [wordToPtr_ptrToWord] at hloop
    simp only [triev2FindQuick, assert_true hroot, assert_true (show 0 < 2 * n by omega), bind,
      Option.bind, lshift32_key key hn16]
    exact hloop

theorem triev2FindQuick_eq {words : Nat → Nat} {S : Nat → Prop} {n root : Nat} {f : Nat → Nat}
    (h : RootAt words S n root f) (hn : n ≠ 0) (hn16 : n ≤ 16) {key : Nat}
    (hkey : f (key % 4 ^ n) ≠ 0) :
    triev2FindQuick words root key (2 * n) = some (f (key % 4 ^ n)) := by
  obtain ⟨x, hfind, hx⟩ := triev2FindQuick_reads h hn hn16 hkey
  rw [hfind, reads_id.mp hx]

/-! ## replacement -/

section replace

variable {words : Nat → Nat} {S : Nat → Prop} {n k : Nat} {f : Nat → Nat} {s : InsertState}

/-- On the way to a present key a turn of `triev2_replace` is a turn of
`triev2_insert`. -/
theorem replaceStep_eq (h : Ready id words S n k f s) (hpresent : f k ≠ 0) :
    replaceStep s = some (insertStep s) := by
  have htrie : TrieAt words S n (ptrToWord s.p) f := by
    rcases h.trie with ⟨-, hf⟩ | htrie
    · exact absurd (hf k h.key_lt) hpresent
    · exact htrie
  obtain ⟨p, t, j, pre, m, kids, hw, hn, hnode, -, hf⟩ :=
    htrie.inv (Nat.pos_iff_ne_zero.mp h.pos)
  obtain rfl : p = s.p := by
    unfold ptrToWord at hw
    omega
  have hle := h.le
  rw [hf k h.key_lt] at hpresent
  have hpre := (nodeMap_present hpresent).1
  have hp : s.p ≠ nullPtr := hnode.ne_zero
  have hfull : s.memory.words s.p &&& fullPrefixMask = j * 2 ^ 20 + pre :=
    (hnode.frame h.agree fun _ ha => ha).fullPrefix
  have hpfx : nodePrefix (j * 2 ^ 20 + pre) =
      s.key >>> (32 - prefixLength (j * 2 ^ 20 + pre)) := by
    rw [prefixLength_fullPrefix hnode.prefix_le hnode.prefix_lt,
      nodePrefix_fullPrefix hnode.prefix_le hnode.prefix_lt, h.key,
      alignKey_shiftRight k hle (by omega), ← hpre, show n - j = m + 1 by omega]
  simp only [replaceStep, insertStep, insertDescend, assert_true hp, if_neg hp, hfull, bind,
    Option.bind]
  by_cases hzero : j * 2 ^ 20 + pre ≠ 0
  · simp only [if_pos hzero, assert_true hpfx, if_neg (not_not.mpr hpfx)]
    rfl
  · simp only [if_neg hzero]
    rfl

/-- The loop of `triev2_replace`. -/
theorem replaceLoop_eq {words : Nat → Nat} {S : Nat → Prop} {n : Nat} :
    ∀ (fuel : Nat) {k : Nat} {f : Nat → Nat} {s : InsertState}, Ready id words S n k f s → f k ≠ 0 →
      s.memory.canAllocate (loopCost s.p n) → replaceLoop fuel s = insertLoop fuel s := by
  induction n using Nat.strong_induction_on with
  | _ n ih =>
    intro fuel k f s h hpresent hcan
    cases fuel with
    | zero => rfl
    | succ fuel =>
      obtain ⟨n', f', newP, b, hgrown, hempty, hcost⟩ :=
        insertStep_spec h (canAllocate_turn h.pos hcan)
      have hsum := stepCost_add_loopCost hgrown.lt hempty
      have hend := hgrown.firstGenerationEnd_eq
      unfold Memory.canAllocate at hcan
      rw [replaceLoop, insertLoop, replaceStep_eq h hpresent]
      simp only [bind, Option.bind]
      by_cases hn' : n' = 0
      · rw [if_neg (by simp [hgrown.keyLength, hn']), if_neg (by simp [hgrown.keyLength, hn'])]
        rfl
      · have hready := hgrown.ready h (by omega) hn'
        have hpresent' : f' (k % 4 ^ n') ≠ 0 := by
          rw [hgrown.map_eq]
          exact hpresent
        have htag : taggedIsPtr (insertStep s).oldData = true := by
          rcases hgrown.oldData with ⟨-, hf'⟩ | htrie
          · exact absurd (hf' _ hready.key_lt) hpresent'
          · obtain ⟨q, -, -, -, -, -, hq, -⟩ := htrie.inv hn'
            rw [hq]
            exact taggedIsPtr_ptrToWord q
        rw [if_pos (by rw [hgrown.keyLength]; omega), if_pos (by rw [hgrown.keyLength]; omega),
          assert_true htag]
        exact ih n' hgrown.lt fuel hready hpresent' (by unfold Memory.canAllocate; simp only; omega)

end replace

/-- `triev2_replace` does for a present key what `triev2_insert` does. -/
theorem triev2Replace_eq {m : Memory} {n root key : Nat} {g : Nat → Nat} (data : Nat)
    {f : Option UpdateFunction} (hn : n ≠ 0) (hn16 : n ≤ 16)
    (hroot : RootAt m.words m.Live n root g)
    (hcan : m.canAllocate (triev2MaxAllocation + UpdateFunction.cost f))
    (hkey : g (key % 4 ^ n) ≠ 0) :
    ∃ r, triev2Replace m root key (2 * n) f data = some r ∧
      triev2Insert m root key (2 * n) f data = some r := by
  have hready := ready_insertStart key hn hn16 (fun _ ha => ha) hroot
  have hloop : m.canAllocate (loopCost root n) :=
    Memory.canAllocate_mono hcan (Nat.le_trans (loopCost_le root hn16) (Nat.le_add_right _ _))
  obtain ⟨s, f', newP, b, hrun, hgrown, -⟩ := insertLoop_spec 16 hready hn16 hloop
  have hold : s.oldData ≠ nullWord := by
    rw [← MaybeTrieAt.data_eq hgrown.oldData]
    rw [← hgrown.map_eq, pow_zero, Nat.mod_one] at hkey
    exact hkey
  have hzero : s.key = 0 := by
    rw [hgrown.key]
    simp [alignKey, Nat.mod_one]
  refine ⟨_, ?_, by rw [triev2Insert, hrun, Option.map_some]⟩
  simp only [triev2Replace, assert_true (show 0 < 2 * n by omega), bind, Option.bind,
    replaceLoop_eq 16 hready hkey hloop, hrun, assert_true hzero]
  rw [replaceFinish, insertFinish, if_pos hold]
  rfl

/-! ## histories with replacements -/

/-- What a call of `triev2_replace` has to store for a key with the data `old`. -/
def Replaced (m : Memory) (root key keyLength : Nat) (f : Option UpdateFunction)
    (data old x : Nat) : Prop :=
  ∃ s, replaceLoop 16 (insertStart m root key keyLength) = some s ∧
    x = (UpdateFunction.call f old data s.memory).1

/-- A step of a history, or a call of `triev2_replace` for a present key. -/
inductive TrieStep (n : Nat) : History → History → Prop
  | step {h h' : History} (hstep : Step n h h') : TrieStep n h h'
  | replace {h : History} {v : Version} {key data root' old x : Nat} {f : Option UpdateFunction}
      {m' : Memory} (hv : v ∈ h.versions) (hdata : data ≠ nullWord)
      (hf : ∀ u ∈ f, ∀ x y m, (u.apply x y m).1 ≠ nullWord)
      (hcan : h.memory.canAllocate (triev2MaxAllocation + UpdateFunction.cost f))
      (hold : v.map (key % 4 ^ n) = some old)
      (hrun : triev2Replace h.memory v.root key (2 * n) f data = some (root', m'))
      (hx : Replaced h.memory v.root key (2 * n) f data old x) :
      TrieStep n h ⟨m', ⟨root', Function.update v.map (key % 4 ^ n) (some x)⟩ :: h.versions⟩

section histories

variable {n : Nat} (hn : n ≠ 0) (hn16 : n ≤ 16)

include hn hn16

/-- A replacement makes the version that an insertion makes. -/
theorem History.Sound.step_of_trieStep {h h' : History} (hs : h.Sound n)
    (hstep : TrieStep n h h') : Step n h h' := by
  cases hstep with
  | step hstep => exact hstep
  | replace hv hdata hf hcan hold hrun hx =>
    rename_i v key data root' old x f m'
    obtain ⟨hproper, hroot⟩ := hs v hv
    have hkey : v.map.words (key % 4 ^ n) ≠ 0 := by
      rw [KeyMap.words, hold]
      exact fun h0 => hproper _ (by rw [hold]; exact congrArg some h0)
    obtain ⟨r, hreplace, hinsert⟩ := triev2Replace_eq data hn hn16 hroot hcan hkey
    obtain rfl : r = (root', m') := Option.some.inj (hreplace.symm.trans hrun)
    refine .insert hv hdata hf hcan hinsert ?_
    unfold Inserted
    rw [hold]
    obtain ⟨s, hloop, hx⟩ := hx
    refine ⟨s, ?_, hx⟩
    rw [← replaceLoop_eq 16 (ready_insertStart key hn hn16 (fun _ ha => ha) hroot) hkey]
    · exact hloop
    · exact Memory.canAllocate_mono hcan
        (Nat.le_trans (loopCost_le v.root hn16) (Nat.le_add_right _ _))

/-- What a whole run preserves. -/
theorem sound_of_trieRun {m : Memory} {h : History}
    (hrun : Relation.ReflTransGen (TrieStep n) (History.initial m) h) : h.Sound n := by
  induction hrun with
  | refl => exact sound_initial m
  | tail _ hstep ih => exact ih.step hn hn16 (ih.step_of_trieStep hn hn16 hstep)

end histories

/-- In every history and for every key that is in a version, `triev2_replace`
gives the root and the memory that `triev2_insert` gives, and
`triev2_find_quick` finds what `triev2_find` finds. -/
theorem triev2_replace_insert {n : Nat} (hn : n ≠ 0) (hn16 : n ≤ 16) {m : Memory} {h : History}
    (hrun : Relation.ReflTransGen (TrieStep n) (History.initial m) h) {v : Version}
    (hv : v ∈ h.versions) (key : Nat) (hkey : v.map (key % 4 ^ n) ≠ none) :
    (∀ (f : Option UpdateFunction) (data : Nat),
      h.memory.canAllocate (triev2MaxAllocation + UpdateFunction.cost f) →
      ∃ r, triev2Replace h.memory v.root key (2 * n) f data = some r ∧
        triev2Insert h.memory v.root key (2 * n) f data = some r) ∧
    ∃ x, triev2FindQuick h.memory.words v.root key (2 * n) = some x ∧
      triev2Find h.memory.words v.root key (2 * n) = some x := by
  obtain ⟨hproper, hroot⟩ := sound_of_trieRun hn hn16 hrun v hv
  have hpresent : v.map.words (key % 4 ^ n) ≠ 0 := by
    have hsome := hproper.isSome_eq (key % 4 ^ n)
    rw [Option.isSome_iff_ne_none.mpr hkey] at hsome
    simpa using hsome.symm
  exact ⟨fun f data hcan => triev2Replace_eq data hn hn16 hroot hcan hpresent,
    _, triev2FindQuick_eq hroot hn hn16 hpresent, triev2Find_eq hroot hn hn16 key⟩

/-- The history in which four keys were inserted. -/
theorem exists_fourKeys_trieRun : ∃ h v,
    Relation.ReflTransGen (TrieStep 4) (History.initial (roomyMemory [])) h ∧
      v ∈ History.versions h ∧ v.map = fourKeys ∧
      h.memory.canAllocate (triev2MaxAllocation + UpdateFunction.cost none) := by
  obtain ⟨h, v, hrun, hrest⟩ := exists_fourKeys
  exact ⟨h, v, Relation.ReflTransGen.mono (fun _ _ => TrieStep.step) _ _ hrun, hrest⟩

/-- One of the four keys is replaced, and looked up. -/
theorem triev2_replace_insert_four : ∃ h v, v ∈ History.versions h ∧ v.map 0x13 = some 8 ∧
    (∃ r, triev2Replace h.memory v.root 0x13 8 none 9 = some r ∧
      triev2Insert h.memory v.root 0x13 8 none 9 = some r) ∧
    ∃ x, triev2FindQuick h.memory.words v.root 0x13 8 = some x ∧
      triev2Find h.memory.words v.root 0x13 8 = some x := by
  obtain ⟨h, v, hrun, hv, hmap, hcan⟩ := exists_fourKeys_trieRun
  have hkey : v.map 0x13 = some 8 := by
    rw [hmap]
    rfl
  have hreplace := triev2_replace_insert (by decide) (by decide) hrun hv 0x13
    (by rw [show 0x13 % 4 ^ 4 = 0x13 by decide, hkey]; simp)
  exact ⟨h, v, hv, hkey, hreplace.1 none 9 hcan, hreplace.2⟩

end Shades
