import Mathlib.Data.Finset.Card
import Shades.Oid.Update

/-!
# Shades.Oid.Runs

The numbers of oids over all runs of allocations, disposals and commits.

In each run `oid_in_use` counts the numbers that are in use, which are below `oid_max`, and
the free list has numbers that are not.  The searches begin at blocks of 16 numbers, so they
find numbers that are not in use, and none of the assertions fails.
-/

namespace Shades

/-! ## the invariant -/

/-- The numbers in the free list that begins at `x`. -/
def FreelistAt (m : Memory) : Nat → List Nat → Prop
  | x, [] => x = nullWord
  | x, o :: os => x ≠ nullWord ∧ m.Live (wordToPtr x + 1) ∧ m.Live (wordToPtr x + 2) ∧
      m.words (wordToPtr x + 1) = o ∧ FreelistAt m (m.words (wordToPtr x + 2)) os

theorem FreelistAt.extends {m m' : Memory} (hext : m.Extends m') {x : Nat} {os : List Nat}
    (h : FreelistAt m x os) : FreelistAt m' x os := by
  induction os generalizing x with
  | nil => exact h
  | cons o os ih =>
    obtain ⟨hne, hnumber, hnext, ho, hrest⟩ := h
    refine ⟨hne, hext.live hnumber, hext.live hnext, (hext.agree _ hnumber).trans ho, ?_⟩
    rw [hext.agree _ hnext]
    exact ih hrest

/-- A number is put before the others. -/
theorem FreelistAt.cons {m m' : Memory} {x o q : Nat} {os : List Nat} (h : FreelistAt m x os)
    (hext : m.Extends m') (hq : q ≠ nullPtr) (hlive : m'.Live (q + 1) ∧ m'.Live (q + 2))
    (hnumber : m'.words (q + 1) = o) (hnext : m'.words (q + 2) = x) :
    FreelistAt m' (ptrToWord q) (o :: os) := by
  refine ⟨mt ptrToWord_eq_nullWord.mp hq, ?_⟩
  rw [wordToPtr_ptrToWord, hnext]
  exact ⟨hlive.1, hlive.2, hnumber, h.extends hext⟩

/-- A block of 16 numbers begins here. -/
def BlockStart (k : Nat) : Prop := k % 16 = 0 ∧ k < 2 ^ 30

/-- The numbers with a value in `g` are in use, and those of `free` are in the free list. -/
structure OidTable.Sound (t : OidTable) (g : Nat → Nat) (free : List Nat) : Prop where
  map : t.Represents g
  max : t.oidMax ≤ 2 ^ 30
  below : ∀ o < 2 ^ 30, g o ≠ nullWord → o < t.oidMax
  inUse : t.oidInUse = {o ∈ Finset.range (2 ^ 30) | g o ≠ nullWord}.card
  freelist : FreelistAt t.memory t.oidFreelist free
  nodup : free.Nodup
  dead : ∀ o ∈ free, o < t.oidMax ∧ g o = nullWord
  cursor : BlockStart t.oidAllocationCursor
  prevRandom : t.oidPrevRandom = invalidOid ∨ BlockStart t.oidPrevRandom

section operations

variable {t t' : OidTable} {g : Nat → Nat} {free : List Nat} {o k value : Nat}

theorem OidTable.initial_sound (m : Memory) :
    (OidTable.initial m).Sound (fun _ => nullWord) [] where
  map := .inl ⟨by simp [OidTable.initial, nullPtr], fun _ _ => rfl⟩
  max := Nat.zero_le _
  below := fun _ _ hne => absurd rfl hne
  inUse := by simp [OidTable.initial]
  freelist := by simp [OidTable.initial, FreelistAt, nullPtr, nullWord]
  nodup := List.nodup_nil
  dead := by simp
  cursor := ⟨rfl, by simp [OidTable.initial]⟩
  prevRandom := .inr ⟨rfl, by simp [OidTable.initial]⟩

theorem card_inUse_update (ho : o < 2 ^ 30) (hdead : g o = nullWord) (hvalue : value ≠ nullWord) :
    {k ∈ Finset.range (2 ^ 30) | Function.update g o value k ≠ nullWord}.card =
      {k ∈ Finset.range (2 ^ 30) | g k ≠ nullWord}.card + 1 := by
  have hinsert : {k ∈ Finset.range (2 ^ 30) | Function.update g o value k ≠ nullWord} =
      insert o {k ∈ Finset.range (2 ^ 30) | g k ≠ nullWord} := by
    ext k
    by_cases hk : k = o
    · simp only [hk, Finset.mem_filter, Finset.mem_range, Function.update_self, Finset.mem_insert,
        true_or, iff_true]
      exact ⟨ho, hvalue⟩
    · simp only [Finset.mem_filter, Function.update_of_ne hk, Finset.mem_insert, hk, false_or]
  rw [hinsert, Finset.card_insert_of_notMem]
  simp only [Finset.mem_filter, not_and, not_not]
  exact fun _ => hdead

theorem OidTable.Sound.inUse_le (h : t.Sound g free) : t.oidInUse ≤ 2 ^ 30 := by
  rw [h.inUse]
  exact (Finset.card_filter_le _ _).trans_eq (Finset.card_range _)

/-! ## searches -/

/-- The search in a block has a number that is not in use, if there is one. -/
theorem OidTable.Sound.findNonexistentKey (h : t.Sound g free) (hk : BlockStart k) :
    ∃ r, t.findNonexistentKey k = some r ∧
      (r ≠ invalidOid → k ≤ r ∧ r < k + 16 ∧ g r = nullWord) := by
  obtain ⟨r, hr, hblock⟩ := triev2FindNonexistentKey_spec h.map (by decide : 2 ≤ 15) (by decide)
    (by simpa using hk.2) hk.1
  exact ⟨r, hr, fun hne => hblock.resolve_left fun hnone => hne hnone.1⟩

theorem OidTable.Sound.ne_invalid (h : t.Sound g free) (hk : k < t.oidMax) : k ≠ invalidOid := by
  have := h.max
  unfold invalidOid
  omega

theorem OidTable.Sound.blockStart_nextRange (h : t.Sound g free) (hk : BlockStart k) :
    BlockStart (nextRange t k) := by
  obtain ⟨hmod, hlt⟩ := hk
  have := h.max
  unfold nextRange
  rw [add32_of_lt (by omega)]
  split
  · exact ⟨rfl, by decide⟩
  · exact ⟨by omega, by omega⟩

/-- A search changes where the next ones begin, and finds a number that is not in use. -/
structure OidTable.Searched (t : OidTable) (g : Nat → Nat) (free : List Nat) (found : Option Nat)
    (t' : OidTable) : Prop where
  sound : t'.Sound g free
  eq : t' = { t with
    oidAllocationCursor := t'.oidAllocationCursor
    oidPrevRandom := t'.oidPrevRandom }
  found : ∀ k ∈ found, k < t.oidMax ∧ g k = nullWord

theorem OidTable.Sound.searched_none (h : t.Sound g free) : t.Searched g free none t :=
  ⟨h, rfl, by simp⟩

theorem OidTable.Sound.searched_some (h : t.Sound g free) (hk : k < t.oidMax)
    (hdead : g k = nullWord) : t.Searched g free (some k) t := by
  refine ⟨h, rfl, ?_⟩
  rintro _ ⟨⟩
  exact ⟨hk, hdead⟩

/-- A search from another block. -/
theorem OidTable.Searched.of_cursor {cursor : Nat} {found : Option Nat}
    (h : OidTable.Searched { t with oidAllocationCursor := cursor } g free found t') :
    t.Searched g free found t' :=
  ⟨h.sound, h.eq, h.found⟩

theorem BlockStart.lt_add32 (hk : BlockStart k) {r : Nat} (hr : r < k + 16) :
    r < add32 k 16 := by
  have := hk.2
  rwa [add32_of_lt (by omega)]

theorem tryRanges_searched (h : t.Sound g free) (hk : BlockStart k) (i : Nat) :
    ∃ found t', tryRanges i t k = some (found, t') ∧ t.Searched g free found t' := by
  induction i generalizing t k with
  | zero => exact ⟨none, t, rfl, h.searched_none⟩
  | succ i ih =>
    obtain ⟨r, hr, hblock⟩ := h.findNonexistentKey hk
    simp only [tryRanges, hr, Option.bind_eq_bind, Option.bind_some]
    by_cases hnone : r = invalidOid
    · rw [if_pos hnone]
      have hnext := h.blockStart_nextRange hk
      have h' : OidTable.Sound { t with oidAllocationCursor := nextRange t k } g free :=
        { h with cursor := hnext }
      obtain ⟨found, t', hrun, hsearched⟩ := ih h' hnext
      exact ⟨found, t', hrun, hsearched.of_cursor⟩
    · rw [if_neg hnone]
      obtain ⟨-, hlt, hdead⟩ := hblock hnone
      by_cases hmax : r < t.oidMax
      · rw [if_pos hmax, assert_true (hk.lt_add32 hlt), Option.bind_some]
        exact ⟨some r, t, rfl, h.searched_some hmax hdead⟩
      · rw [if_neg hmax]
        exact ih h hk

theorem searchCursor_searched (h : t.Sound g free) :
    ∃ found t', searchCursor t = some (found, t') ∧ t.Searched g free found t' := by
  obtain ⟨r, hr, hblock⟩ := h.findNonexistentKey h.cursor
  simp only [searchCursor, assert_true h.cursor.1, hr, Option.bind_eq_bind, Option.bind_some]
  by_cases hnone : r = invalidOid
  · rw [if_pos hnone]
    have hnext := h.blockStart_nextRange h.cursor
    have h' : OidTable.Sound { t with
        oidAllocationCursor := nextRange t t.oidAllocationCursor } g free :=
      { h with cursor := hnext }
    obtain ⟨found, t', hrun, hsearched⟩ := tryRanges_searched h' hnext 2
    exact ⟨found, t', hrun, hsearched.of_cursor⟩
  · rw [if_neg hnone]
    obtain ⟨-, hlt, hdead⟩ := hblock hnone
    by_cases hmax : r < t.oidMax
    · rw [if_pos hmax, assert_true (h.cursor.lt_add32 hlt), Option.bind_some]
      exact ⟨some r, t, rfl, h.searched_some hmax hdead⟩
    · rw [if_neg hmax]
      exact ⟨none, t, rfl, h.searched_none⟩

/-- Random points are rounded down. -/
theorem OidTable.Sound.blockStart_random (h : t.Sound g free) (hpos : 0 < t.oidMax) (x : Nat) :
    BlockStart (x % t.oidMax &&& 0xFFFFFFF0) := by
  constructor
  · rw [show 16 = 2 ^ 4 from rfl, Nat.and_mod_two_pow]
    exact Nat.and_zero _
  · exact (Nat.and_le_left.trans_lt (Nat.mod_lt _ hpos)).trans_le h.max

theorem tryRandom_searched (h : t.Sound g free) (hpos : 0 < t.oidMax) (random : Nat → Nat)
    (i : Nat) : ∃ found t', tryRandom random i t = some (found, t') ∧
      t.Searched g free found t' := by
  induction i with
  | zero => exact ⟨none, _, rfl, { h with prevRandom := .inl rfl }, rfl, by simp⟩
  | succ i ih =>
    have hstart := h.blockStart_random hpos (random i)
    obtain ⟨r, hr, hblock⟩ := h.findNonexistentKey hstart
    simp only [tryRandom, hr, Option.bind_eq_bind, Option.bind_some]
    by_cases hmax : r < t.oidMax
    · rw [if_pos hmax]
      refine ⟨some r, _, rfl, { h with prevRandom := .inr hstart }, rfl, ?_⟩
      rintro _ ⟨⟩
      exact ⟨hmax, (hblock (h.ne_invalid hmax)).2.2⟩
    · rw [if_neg hmax]
      exact ih

theorem searchPrevRandom_found (h : t.Sound g free) :
    ∃ found, searchPrevRandom t = some found ∧ ∀ k ∈ found, k < t.oidMax ∧ g k = nullWord := by
  unfold searchPrevRandom
  by_cases hnone : t.oidPrevRandom = invalidOid
  · rw [if_neg (not_not.mpr hnone)]
    exact ⟨none, rfl, by simp⟩
  · have hstart := h.prevRandom.resolve_left hnone
    obtain ⟨r, hr, hblock⟩ := h.findNonexistentKey hstart
    simp only [if_pos hnone, assert_true hstart.1, hr, Option.bind_eq_bind, Option.bind_some]
    refine ⟨_, rfl, fun k hk => ?_⟩
    split at hk
    · next hmax =>
      obtain rfl := Option.mem_some_iff.mp hk
      exact ⟨hmax, (hblock (h.ne_invalid hmax)).2.2⟩
    · cases hk

theorem searchRandom_searched (h : t.Sound g free) (random : Nat → Nat) :
    ∃ found t', searchRandom random t = some (found, t') ∧ t.Searched g free found t' := by
  unfold searchRandom
  by_cases hpos : 0 < t.oidMax
  · rw [if_pos hpos]
    obtain ⟨found, hrun, hfound⟩ := searchPrevRandom_found h
    simp only [hrun, Option.bind_eq_bind, Option.bind_some]
    cases found with
    | some k => exact ⟨some k, t, rfl, h, rfl, hfound⟩
    | none => exact tryRandom_searched h hpos random _
  · rw [if_neg hpos]
    exact ⟨none, t, rfl, h.searched_none⟩

/-! ## allocation -/

theorem lshift32_taggedOid (ho : o < 2 ^ 30) : lshift32 o 2 ||| 0x2 = taggedOid o := by
  rw [lshift32_or (by decide) (by omega), taggedOid]
  omega

/-- The number that was found comes into use. -/
theorem allocateFound_sound (h : t.Sound g free)
    (hcan : t.memory.canAllocate triev2MaxAllocation) (hvalue : value ≠ nullWord)
    (ho : o < t.oidMax) (hdead : g o = nullWord) (hfree : o ∉ free) :
    ∃ t', allocateFound t o value = some (taggedOid o, t') ∧
      t'.Sound (Function.update g o value) free := by
  have hlt : o < 2 ^ 30 := ho.trans_le h.max
  have hmod : o % 4 ^ 15 = o := Nat.mod_eq_of_lt (by omega)
  obtain ⟨root, m, x, hinsert, hext, -, hx, hroot, -⟩ := triev2Insert_spec o (by decide : 15 ≠ 0)
    (by decide) h.map (f := none) hcan hvalue (by simp)
  rw [hmod] at hx hroot
  rw [InsertValue, if_pos (show _ = 0 from hdead)] at hx
  unfold allocateFound
  simp only [h.map.find, hmod, assert_true hdead, Option.bind_eq_bind, Option.bind_some]
  rw [show 30 = 2 * 15 from rfl, hinsert, Option.bind_some, lshift32_taggedOid hlt]
  refine ⟨_, rfl, ?_⟩
  have hne : ∀ {k}, k ∈ free → k ≠ o := fun hk heq => hfree (heq ▸ hk)
  exact {
    map := by
      unfold OidTable.Represents
      rw [wordToPtr_ptrToWord, ← hx]
      exact hroot
    max := h.max
    below := fun k hk hlive => by
      by_cases heq : k = o
      · exact heq ▸ ho
      · rw [Function.update_of_ne heq] at hlive
        exact h.below k hk hlive
    inUse := by
      rw [card_inUse_update hlt hdead hvalue, ← h.inUse]
      exact add32_of_lt (by have := h.inUse_le; omega)
    freelist := h.freelist.extends hext
    nodup := h.nodup
    dead := fun k hk => by
      rw [Function.update_of_ne (hne hk)]
      exact h.dead k hk
    cursor := h.cursor
    prevRandom := h.prevRandom }

/-- As long as there are numbers, `oid_allocate` has a result.  It is a number that was not
in use. -/
theorem oidAllocate_sound (h : t.Sound g free)
    (hcan : t.memory.canAllocate triev2MaxAllocation) (hvalue : value ≠ nullWord)
    (hmax : t.oidMax < 2 ^ 30) (random : Nat → Nat) :
    ∃ o t' free', o < 2 ^ 30 ∧ g o = nullWord ∧
      oidAllocate random t value = some (taggedOid o, t') ∧
      t'.Sound (Function.update g o value) free' := by
  unfold oidAllocate
  cases free with
  | cons o os =>
    obtain ⟨hne, hnumber, hnext, ho, hrest⟩ := h.freelist
    obtain ⟨hlt, hdead⟩ := h.dead o List.mem_cons_self
    obtain ⟨hnotin, hnodup⟩ := List.nodup_cons.mp h.nodup
    have h' : OidTable.Sound { t with
        oidFreelist := t.memory.words (wordToPtr t.oidFreelist + 2) } g os :=
      { h with
        freelist := hrest
        nodup := hnodup
        dead := fun k hk => h.dead k (List.mem_cons_of_mem _ hk) }
    rw [if_pos hne]
    dsimp only
    rw [ho]
    obtain ⟨t', hrun, hsound⟩ := allocateFound_sound h' hcan hvalue hlt hdead hnotin
    exact ⟨o, t', os, hlt.trans_le h.max, hdead, hrun, hsound⟩
  | nil =>
    have hnone : t.oidFreelist = nullWord := h.freelist
    rw [if_neg (not_not.mpr hnone)]
    obtain ⟨found, t₁, hcursor, hsearched⟩ := searchCursor_searched h
    have hcan₁ : t₁.memory.canAllocate triev2MaxAllocation := by
      rw [hsearched.eq]
      exact hcan
    have hmax₁ : t₁.oidMax = t.oidMax := by rw [hsearched.eq]
    simp only [hcursor, Option.bind_eq_bind, Option.bind_some]
    cases found with
    | some o =>
      obtain ⟨hlt, hdead⟩ := hsearched.found o rfl
      obtain ⟨t', hrun, hsound⟩ := allocateFound_sound hsearched.sound hcan₁ hvalue
        (hmax₁ ▸ hlt) hdead List.not_mem_nil
      exact ⟨o, t', [], hlt.trans_le h.max, hdead, hrun, hsound⟩
    | none =>
      obtain ⟨found, t₂, hrandom, hsearched'⟩ := searchRandom_searched hsearched.sound random
      have hcan₂ : t₂.memory.canAllocate triev2MaxAllocation := by
        rw [hsearched'.eq]
        exact hcan₁
      have hmax₂ : t₂.oidMax = t.oidMax := by rw [hsearched'.eq, hmax₁]
      simp only [hrandom, Option.bind_some]
      cases found with
      | some o =>
        obtain ⟨hlt, hdead⟩ := hsearched'.found o rfl
        rw [hmax₁] at hlt
        obtain ⟨t', hrun, hsound⟩ := allocateFound_sound hsearched'.sound hcan₂ hvalue
          (hmax₂ ▸ hlt) hdead List.not_mem_nil
        exact ⟨o, t', [], hlt.trans_le h.max, hdead, hrun, hsound⟩
      | none =>
        -- a new number
        have hsound := hsearched'.sound
        have hadd : add32 t₂.oidMax 1 = t₂.oidMax + 1 := add32_of_lt (by omega)
        have hdead : g t₂.oidMax = nullWord := by
          by_contra hlive
          exact Nat.lt_irrefl _ (hsound.below _ (hmax₂ ▸ hmax) hlive)
        have h' : OidTable.Sound { t₂ with oidMax := add32 t₂.oidMax 1 } g [] :=
          { hsound with
            max := by
              rw [hadd]
              exact hmax₂ ▸ hmax
            below := fun k hk hlive => by
              rw [hadd]
              exact Nat.lt_succ_of_lt (hsound.below k hk hlive)
            dead := by simp }
        obtain ⟨t', hrun, hsound'⟩ := allocateFound_sound h' hcan₂ hvalue
          (hadd ▸ Nat.lt_succ_self _) hdead List.not_mem_nil
        exact ⟨_, t', [], hmax₂ ▸ hmax, hdead, hrun, hsound'⟩

/-! ## disposal -/

/-- The update function is called with the value of the number. -/
theorem OidTable.Represents.disposedValue (h : t.Represents g) (ho : o < 2 ^ 30) :
    disposedValue t o = some (g o) := by
  have hlt : o < 4 ^ 15 := by omega
  unfold Shades.disposedValue
  by_cases hnull : wordToPtr t.oidMap = nullPtr
  · rw [if_pos hnull]
    rcases h with ⟨-, hempty⟩ | htrie
    · exact congrArg some (hempty o hlt).symm
    · exact absurd ((ptrToWord_eq_zero _).mpr hnull) (TrieAt.ne_zero htrie)
  · rw [if_neg hnull]
    have htrie := h.resolve_left fun hempty => hnull ((ptrToWord_eq_zero _).mp hempty.1)
    have hsearch := deleteSearch_spec (N := 15) (K := o) htrie hlt (by decide) (by decide)
      (by decide : 15 ≤ 16) .nil
    rw [wordToPtr_ptrToWord] at hsearch
    have hkey : lshift32 o 2 = alignKey o 15 := by
      have hkey := lshift32_key o (by decide : 15 ≤ 16)
      rwa [Nat.mod_eq_of_lt hlt] at hkey
    rw [hkey]
    rcases hsearch with ⟨hrun, habsent⟩ | ⟨path, f', hrun, -⟩
    · exact (congrArg (Option.map _) hrun).trans (congrArg some habsent.symm)
    · exact congrArg (Option.map _) hrun

/-- A number is no longer in use, and is the first one in the free list. -/
theorem OidTable.Sound.disposed {m : Memory} {freelist map : Nat} (h : t.Sound g free)
    (ho : o < 2 ^ 30) (huse : g o ≠ nullWord)
    (ht : t' = { t with
      memory := m
      oidFreelist := freelist
      oidInUse := sub32 t.oidInUse 1
      oidMap := map })
    (hmap : t'.Represents (Function.update g o nullWord))
    (hfree : FreelistAt m freelist (o :: free)) :
    t'.Sound (Function.update g o nullWord) (o :: free) := by
  have hmax := h.below o ho huse
  have hne : ∀ {k}, k ∈ free → k ≠ o := fun hk heq => huse (heq ▸ (h.dead _ hk).2)
  have hold : ∀ {k}, k ≠ o → Function.update g o nullWord k = g k :=
    fun hk => Function.update_of_ne hk _ _
  subst ht
  exact {
    map := hmap
    max := h.max
    below := fun k hk hlive => by
      have hko : k ≠ o := fun heq => hlive (heq ▸ Function.update_self ..)
      exact h.below k hk (hold hko ▸ hlive)
    inUse := by
      have hcard := card_inUse_update (g := Function.update g o nullWord) ho
        (Function.update_self ..) huse
      rw [Function.update_idem, Function.update_eq_self, ← h.inUse] at hcard
      have hle := h.inUse_le
      refine (sub32_of_le ?_ ?_).trans ?_ <;> omega
    freelist := hfree
    nodup := List.nodup_cons.mpr ⟨fun hmem => hne hmem rfl, h.nodup⟩
    dead := by
      intro k hk
      rcases List.mem_cons.mp hk with rfl | hk
      · exact ⟨hmax, Function.update_self ..⟩
      · rw [hold (hne hk)]
        exact h.dead k hk
    cursor := h.cursor
    prevRandom := h.prevRandom }

/-- `oid_dispose` of a number that is in use has a result.  The number is the first one in the
free list then. -/
theorem oidDispose_sound (h : t.Sound g free)
    (hcan : t.memory.canAllocate (triev2MaxAllocation + 3)) (ho : o < 2 ^ 30)
    (huse : g o ≠ nullWord) : ∃ t', oidDispose t (taggedOid o) = some (g o, t') ∧
      t'.Sound (Function.update g o nullWord) (o :: free) := by
  have hmod : o % 4 ^ 15 = o := Nat.mod_eq_of_lt (by omega)
  have hmax := h.below o ho huse
  unfold Memory.canAllocate at hcan
  obtain ⟨q, hq⟩ : ∃ q, q = t.memory.allocationPtr - 3 := ⟨_, rfl⟩
  obtain ⟨m, hm⟩ : ∃ m, m = ((t.memory.allocate 3 .oidFreelist).2.set (q + 1) o).set (q + 2)
    t.oidFreelist := ⟨_, rfl⟩
  have hext : t.memory.Extends m := by
    rw [hm, hq]
    exact freelistCell_extends (by unfold Memory.canAllocate; omega) _ _
  have hptr : m.allocationPtr = q := by
    rw [hm, hq]
    rfl
  have hend : m.firstGenerationEnd = t.memory.firstGenerationEnd := hext.firstGenerationEnd_eq
  have hnumber : m.words (q + 1) = o := by simp [hm]
  have hnext : m.words (q + 2) = t.oidFreelist := by simp [hm]
  have hmap : OidTable.Represents { t with memory := m } g :=
    CodedRootAt.frame h.map hext.agree fun _ ha => hext.live ha
  obtain ⟨root, m', hdelete, hext', -, hroot, -⟩ := triev2Delete_spec o nullWord
    (by decide : 15 ≠ 0) (by decide) hmap (f := some oidDisposeF) (by
      show m.firstGenerationEnd + triev2MaxAllocation ≤ m.allocationPtr
      omega)
  have hvalue : deleteValue m (some oidDisposeF) nullWord (g o) = nullWord := by
    unfold deleteValue
    split <;> rfl
  rw [hmod, hvalue] at hroot
  obtain ⟨t', ht'⟩ : ∃ t' : OidTable, t' = { t with
      memory := m'
      oidFreelist := ptrToWord q
      oidInUse := sub32 t.oidInUse 1
      oidMap := ptrToWord root } := ⟨_, rfl⟩
  have hmap' : t'.Represents (Function.update g o nullWord) := by
    unfold OidTable.Represents
    rw [ht', wordToPtr_ptrToWord]
    exact hroot
  have hrun : oidDispose t (taggedOid o) = some (g o, t') := by
    have hallocate : t.memory.allocate 3 .oidFreelist =
        (q, (t.memory.allocate 3 .oidFreelist).2) := by
      rw [hq]
      rfl
    have hold : disposedValue { t with
        memory := m
        oidFreelist := ptrToWord q
        oidInUse := sub32 t.oidInUse 1 } o = some (g o) :=
      OidTable.Represents.disposedValue hmap ho
    have hleft : t'.find o = some nullWord := by
      rw [hmap'.find, hmod, Function.update_self]
    unfold oidDispose
    rw [hallocate]
    simp only [taggedIsOid_taggedOid, taggedOid_shiftRight, assert_true, assert_true hmax.le, ← hm,
      hold, Option.bind_eq_bind, Option.bind_some]
    rw [show 30 = 2 * 15 from rfl, hdelete]
    simp only [Option.bind_some, ← ht', hleft, assert_true]
  have hq0 : q ≠ nullPtr := by
    have := t.memory.firstGenerationEnd_pos
    unfold nullPtr
    omega
  have hlist : FreelistAt m (ptrToWord q) (o :: free) :=
    h.freelist.cons hext hq0 ⟨.inr (by omega), .inr (by omega)⟩ hnumber hnext
  exact ⟨t', hrun, h.disposed ho huse ht' hmap' (hlist.extends hext')⟩

end operations

/-! ## runs -/

/-- In between other cells are allocated, and the collector moves the cells.  A commit drops the
free list. -/
inductive OidRun (m : Memory) : OidTable → Prop
  | initial : OidRun m (OidTable.initial m)
  | allocated {t t' : OidTable} {random : Nat → Nat} {value : OidValue} {oid : Nat}
      (hrun : OidRun m t) (hcan : t.memory.canAllocate triev2MaxAllocation)
      (hmax : t.oidMax < 2 ^ 30) (hallocate : oidAllocate random t value.word = some (oid, t')) :
      OidRun m t'
  | disposed {t t' : OidTable} {o old : Nat} (hrun : OidRun m t)
      (hcan : t.memory.canAllocate (triev2MaxAllocation + 3)) (ho : o < 2 ^ 30) (huse : t.InUse o)
      (hdispose : oidDispose t (taggedOid o) = some (old, t')) : OidRun m t'
  | extended {t : OidTable} {m' : Memory} (hrun : OidRun m t) (hext : t.memory.Extends m') :
      OidRun m { t with memory := m' }
  | committed {t t' : OidTable} (hrun : OidRun m t)
      (hmap : ∀ g, t.Represents g → t'.Represents g)
      (hroot : t' = { t with memory := t'.memory, oidMap := t'.oidMap, oidFreelist := nullWord }) :
      OidRun m t'

variable {m : Memory} {t : OidTable} {g : Nat → Nat} {free : List Nat} {o : Nat}

theorem OidTable.Represents.ne_null (h : t.Represents g) (ho : o < 2 ^ 30) (huse : t.InUse o) :
    g o ≠ nullWord := by
  obtain ⟨value, href⟩ := huse
  rw [h.oidRef (by omega)] at href
  split at href
  · exact Option.some.inj href ▸ value.ne_null
  · cases href

theorem OidRun.sound (h : OidRun m t) : ∃ g free, t.Sound g free := by
  induction h with
  | initial => exact ⟨_, _, OidTable.initial_sound m⟩
  | @allocated _ _ random value _ _ hcan hmax hallocate ih =>
    obtain ⟨g, free, ht⟩ := ih
    obtain ⟨o, t', free', -, -, hrun, hsound⟩ := oidAllocate_sound ht hcan value.ne_null hmax random
    rw [hrun] at hallocate
    simp only [Option.some.injEq, Prod.mk.injEq] at hallocate
    exact ⟨_, _, hallocate.2 ▸ hsound⟩
  | disposed _ hcan ho huse hdispose ih =>
    obtain ⟨g, free, ht⟩ := ih
    obtain ⟨t', hrun, hsound⟩ := oidDispose_sound ht hcan ho (ht.map.ne_null ho huse)
    rw [hrun] at hdispose
    simp only [Option.some.injEq, Prod.mk.injEq] at hdispose
    exact ⟨_, _, hdispose.2 ▸ hsound⟩
  | extended _ hext ih =>
    obtain ⟨g, free, ht⟩ := ih
    exact ⟨g, free, { ht with
      map := CodedRootAt.frame ht.map hext.agree fun _ ha => hext.live ha
      freelist := ht.freelist.extends hext }⟩
  | committed _ hmap hroot ih =>
    obtain ⟨g, free, ht⟩ := ih
    have hmap' := hmap g ht.map
    rw [hroot] at hmap' ⊢
    exact ⟨g, [], { ht with
      map := hmap'
      freelist := rfl
      nodup := List.nodup_nil
      dead := by simp }⟩

/-- In every run the numbers are accounted for.  As long as there are numbers, `oid_allocate`
finds one that is not in use, and `oid_dispose` returns the value of one that is. -/
theorem oidRun_accounted (h : OidRun m t) : ∃ g free, t.Sound g free ∧
    (t.oidMax < 2 ^ 30 → t.memory.canAllocate triev2MaxAllocation →
      ∀ random (value : OidValue), ∃ o t' free', o < 2 ^ 30 ∧ g o = nullWord ∧
        oidAllocate random t value.word = some (taggedOid o, t') ∧
        t'.Sound (Function.update g o value.word) free') ∧
    (t.memory.canAllocate (triev2MaxAllocation + 3) → ∀ o < 2 ^ 30, t.InUse o →
      ∃ t', oidDispose t (taggedOid o) = some (g o, t') ∧
        t'.Sound (Function.update g o nullWord) (o :: free)) := by
  obtain ⟨g, free, hsound⟩ := h.sound
  refine ⟨g, free, hsound, fun hmax hcan random value => ?_, fun hcan o ho huse => ?_⟩
  · exact oidAllocate_sound hsound hcan value.ne_null hmax random
  · exact oidDispose_sound hsound hcan ho (hsound.map.ne_null ho huse)

/-- Calls in a row, and commits that move nothing. -/
inductive OidCall where
  | allocate (value : OidValue)
  | dispose (o : Nat)
  | commit

/-- What they do, as long as they may be called. -/
def oidCalls : List OidCall → OidTable → Option OidTable
  | [], t => some t
  | .allocate value :: calls, t =>
    if t.memory.canAllocate triev2MaxAllocation ∧ t.oidMax < 2 ^ 30 then
      (oidAllocate (fun _ => 0) t value.word).bind fun r => oidCalls calls r.2
    else none
  | .dispose o :: calls, t =>
    if t.memory.canAllocate (triev2MaxAllocation + 3) ∧ o < 2 ^ 30 ∧
      (oidRef t (taggedOid o)).getD nullWord ≠ nullWord then
      (oidDispose t (taggedOid o)).bind fun r => oidCalls calls r.2
    else none
  | .commit :: calls, t => oidCalls calls { t with oidFreelist := nullWord }

theorem OidRun.calls {calls : List OidCall} {t' : OidTable} (hrun : OidRun m t)
    (h : oidCalls calls t = some t') : OidRun m t' := by
  induction calls generalizing t with
  | nil =>
    obtain rfl := Option.some.inj h
    exact hrun
  | cons call calls ih =>
    cases call with
    | allocate value =>
      obtain ⟨⟨hcan, hmax⟩, h⟩ := Option.ite_none_right_eq_some.mp h
      obtain ⟨⟨oid, t₁⟩, hallocate, h⟩ := Option.bind_eq_some_iff.mp h
      exact ih (hrun.allocated hcan hmax hallocate) h
    | dispose o =>
      obtain ⟨⟨hcan, ho, hvalue⟩, h⟩ := Option.ite_none_right_eq_some.mp h
      obtain ⟨⟨old, t₁⟩, hdispose, h⟩ := Option.bind_eq_some_iff.mp h
      have huse : t.InUse o := by
        cases href : oidRef t (taggedOid o) with
        | none => exact absurd (by rw [href]; rfl) hvalue
        | some w => exact ⟨⟨w, by rwa [href, Option.getD_some] at hvalue⟩, href⟩
      exact ih (hrun.disposed hcan ho huse hdispose) h
    | commit =>
      rw [oidCalls] at h
      have hcommit : OidRun m { t with oidFreelist := nullWord } :=
        hrun.committed (fun g hg => hg) rfl
      exact ih hcommit h

/-- Three oids are allocated.  The second one is disposed and allocated again, then the
others are disposed, and after a commit the first one is allocated again. -/
theorem oidRun_accounted_three : ∃ t, OidRun (roomyMemory []) t ∧ t.oidMax = 3 ∧
    t.oidInUse = 2 ∧ [0, 1, 2].map (fun o => oidRef t (taggedOid o)) = [some 5, some 9, some 0] ∧
    ∃ g free, t.Sound g free := by
  have hlook : (oidCalls [.allocate five, .allocate nine, .allocate five, .dispose 1,
      .allocate nine, .dispose 0, .dispose 2, .commit, .allocate five]
        (OidTable.initial (roomyMemory []))).map (fun t =>
          (t.oidMax, t.oidInUse, [0, 1, 2].map fun o => oidRef t (taggedOid o))) =
      some (3, 2, [some 5, some 9, some 0]) := by
    decide +kernel
  obtain ⟨t, hcalls, hlook⟩ := Option.map_eq_some_iff.mp hlook
  simp only [Prod.mk.injEq] at hlook
  obtain ⟨hmax, huse, hvalues⟩ := hlook
  have hrun : OidRun (roomyMemory []) t := OidRun.initial.calls hcalls
  obtain ⟨g, free, hsound, -⟩ := oidRun_accounted hrun
  exact ⟨t, hrun, hmax, huse, hvalues, g, free, hsound⟩

end Shades
