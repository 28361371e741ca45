import Mathlib.Logic.Relation
import Shades.Oid.Code

/-!
# Shades.Oid.Update

The object table over all runs.  `oid_ref` looks up the number of an oid, and
`oid_update` stores the new value at the oid itself.
-/

namespace Shades

/-! ## what the table stands for -/

/-- The table has the value `g k` for each number `k`. -/
def OidTable.Represents (t : OidTable) (g : Nat → Nat) : Prop :=
  RootAt t.memory.words t.memory.Live 15 (wordToPtr t.oidMap) g

/-- The trie is the same one. -/
structure OidTable.SameMap (t t' : OidTable) : Prop where
  memory_eq : t'.memory = t.memory
  oidMap_eq : t'.oidMap = t.oidMap

theorem OidTable.SameMap.represents {t t' : OidTable} (h : t.SameMap t') {g : Nat → Nat}
    (hg : t.Represents g) : t'.Represents g := by
  unfold OidTable.Represents
  rw [h.memory_eq, h.oidMap_eq]
  exact hg

theorem OidTable.Represents.find {t : OidTable} {g : Nat → Nat} (hg : t.Represents g) (oid : Nat) :
    t.find oid = some (g (oid % 4 ^ 15)) :=
  triev2Find_eq hg (by decide) (by decide) oid

/-- The oid with the number `o`. -/
def taggedOid (o : Nat) : Nat := 4 * o + 2

theorem taggedIsOid_taggedOid (o : Nat) : taggedIsOid (taggedOid o) = true := by
  rw [taggedIsOid, taggedOid, show 0x3 = 2 ^ 2 - 1 by decide, and_mask]
  simp

theorem taggedOid_shiftRight (o : Nat) : taggedOid o >>> 2 = o := by
  rw [taggedOid, Nat.shiftRight_eq_div_pow]
  omega

theorem OidTable.Represents.oidRef {t : OidTable} {g : Nat → Nat} (hg : t.Represents g) {o : Nat}
    (ho : o < 4 ^ 15) :
    oidRef t (taggedOid o) = if o ≤ t.oidMax then some (g o) else none := by
  unfold Shades.oidRef
  simp only [taggedIsOid_taggedOid, taggedOid_shiftRight, assert_true, Option.bind_eq_bind,
    Option.bind_some, hg.find, Nat.mod_eq_of_lt ho]
  unfold assert
  split <;> rfl

/-! ## the operations -/

section operations

variable {t t' : OidTable} {g : Nat → Nat} {oid value old : Nat}

theorem allocateFound_represents (hg : t.Represents g)
    (hcan : t.memory.canAllocate triev2MaxAllocation) (hvalue : value ≠ nullWord)
    (h : allocateFound t oid value = some (old, t')) :
    t'.Represents (Function.update g (oid % 4 ^ 15) value) := by
  obtain ⟨root, m, x, hinsert, -, -, hx, hroot, -⟩ := triev2Insert_spec oid (by decide : 15 ≠ 0)
    (by decide) hg (f := none) hcan hvalue nofun
  unfold allocateFound at h
  simp only [hg.find, Option.bind_eq_bind, Option.bind_some] at h
  unfold assert at h
  split at h
  · next hnull =>
    rw [InsertValue, if_pos (show _ = 0 from hnull)] at hx
    rw [Option.bind_some, show 30 = 2 * 15 from rfl, hinsert, Option.bind_some,
      Option.some.injEq, Prod.mk.injEq] at h
    obtain ⟨-, rfl⟩ := h
    unfold OidTable.Represents
    rw [wordToPtr_ptrToWord, ← hx]
    exact hroot
  · cases h

/-- A search moves the cursor at most. -/
theorem tryRanges_sameMap {i tmp : Nat} {found : Option Nat}
    (h : tryRanges i t tmp = some (found, t')) : t.SameMap t' := by
  induction i generalizing t tmp with
  | zero =>
    simp only [tryRanges, Option.some.injEq, Prod.mk.injEq] at h
    exact h.2 ▸ ⟨rfl, rfl⟩
  | succ i ih =>
    simp only [tryRanges, Option.bind_eq_bind, Option.bind_eq_some_iff] at h
    obtain ⟨oid, -, h⟩ := h
    split at h
    · exact ⟨(ih h).memory_eq, (ih h).oidMap_eq⟩
    split at h
    · simp only [Option.bind_eq_some_iff, Option.some.injEq, Prod.mk.injEq] at h
      obtain ⟨-, -, -, rfl⟩ := h
      exact ⟨rfl, rfl⟩
    · exact ih h

theorem searchCursor_sameMap {found : Option Nat} (h : searchCursor t = some (found, t')) :
    t.SameMap t' := by
  simp only [searchCursor, Option.bind_eq_bind, Option.bind_eq_some_iff] at h
  obtain ⟨-, -, oid, -, h⟩ := h
  split at h
  · have hsame := tryRanges_sameMap h
    exact ⟨hsame.memory_eq, hsame.oidMap_eq⟩
  split at h
  · simp only [Option.bind_eq_some_iff, Option.some.injEq, Prod.mk.injEq] at h
    obtain ⟨-, -, -, rfl⟩ := h
    exact ⟨rfl, rfl⟩
  · simp only [Option.some.injEq, Prod.mk.injEq] at h
    exact h.2 ▸ ⟨rfl, rfl⟩

theorem tryRandom_sameMap {random : Nat → Nat} {i : Nat} {found : Option Nat}
    (h : tryRandom random i t = some (found, t')) : t.SameMap t' := by
  induction i with
  | zero =>
    simp only [tryRandom, Option.some.injEq, Prod.mk.injEq] at h
    exact h.2 ▸ ⟨rfl, rfl⟩
  | succ i ih =>
    simp only [tryRandom, Option.bind_eq_bind, Option.bind_eq_some_iff] at h
    obtain ⟨oid, -, h⟩ := h
    split at h
    · simp only [Option.some.injEq, Prod.mk.injEq] at h
      exact h.2 ▸ ⟨rfl, rfl⟩
    · exact ih h

theorem searchRandom_sameMap {random : Nat → Nat} {found : Option Nat}
    (h : searchRandom random t = some (found, t')) : t.SameMap t' := by
  unfold searchRandom at h
  split at h
  · simp only [Option.bind_eq_bind, Option.bind_eq_some_iff] at h
    obtain ⟨prev, -, h⟩ := h
    cases prev with
    | some oid =>
      simp only [Option.some.injEq, Prod.mk.injEq] at h
      exact h.2 ▸ ⟨rfl, rfl⟩
    | none => exact tryRandom_sameMap h
  · simp only [Option.some.injEq, Prod.mk.injEq] at h
    exact h.2 ▸ ⟨rfl, rfl⟩

/-- `oid_allocate` stores the value at some number. -/
theorem oidAllocate_represents {random : Nat → Nat} (hg : t.Represents g)
    (hcan : t.memory.canAllocate triev2MaxAllocation) (hvalue : value ≠ nullWord)
    (h : oidAllocate random t value = some (oid, t')) : ∃ g', t'.Represents g' := by
  have hfound : ∀ {t₁ : OidTable} {k : Nat}, t.SameMap t₁ →
      allocateFound t₁ k value = some (oid, t') → ∃ g', t'.Represents g' :=
    fun hsame h => ⟨_, allocateFound_represents (hsame.represents hg)
      (by rw [hsame.memory_eq]; exact hcan) hvalue h⟩
  unfold oidAllocate at h
  split at h
  · refine hfound ?_ h
    exact ⟨rfl, rfl⟩
  · simp only [Option.bind_eq_bind, Option.bind_eq_some_iff] at h
    obtain ⟨⟨found, t₁⟩, hcursor, h⟩ := h
    have hsame := searchCursor_sameMap hcursor
    cases found with
    | some k => exact hfound hsame h
    | none =>
      simp only [Option.bind_eq_some_iff] at h
      obtain ⟨⟨found, t₂⟩, hrandom, h⟩ := h
      have hsame' := searchRandom_sameMap hrandom
      have hmemory := hsame'.memory_eq.trans hsame.memory_eq
      have hmap := hsame'.oidMap_eq.trans hsame.oidMap_eq
      cases found with
      | some k =>
        refine hfound ?_ h
        exact ⟨hmemory, hmap⟩
      | none =>
        refine hfound ?_ h
        exact ⟨hmemory, hmap⟩

/-- A cell of the free list is made. -/
theorem freelistCell_extends {m : Memory} (hcan : m.canAllocate 3) (number next : Nat) :
    m.Extends (((m.allocate 3 .oidFreelist).2.set (m.allocationPtr - 3 + 1) number).set
      (m.allocationPtr - 3 + 2) next) := by
  have halloc := Memory.allocates_allocate .oidFreelist (by decide : 0 < 3) hcan
  unfold Memory.canAllocate at hcan
  refine ((halloc.set ⟨?_, by omega⟩ _).set ⟨?_, by omega⟩ _).extends ?_
  all_goals
    simp only [Memory.set_allocationPtr, Memory.set_firstGenerationEnd,
      Memory.allocate_allocationPtr, Memory.allocate_firstGenerationEnd]
    omega

/-- `oid_dispose` takes the number away. -/
theorem oidDispose_represents (hg : t.Represents g)
    (hcan : t.memory.canAllocate (triev2MaxAllocation + 3))
    (h : oidDispose t oid = some (old, t')) :
    t'.Represents (Function.update g (oid >>> 2 % 4 ^ 15) nullWord) := by
  obtain ⟨freelist, m, hm⟩ : ∃ freelist m, t.memory.allocate 3 .oidFreelist = (freelist, m) :=
    ⟨_, _, rfl⟩
  have hptr : freelist = t.memory.allocationPtr - 3 := congrArg Prod.fst hm.symm
  have hptr' : m.allocationPtr = t.memory.allocationPtr - 3 := by
    have := congrArg (fun x => x.2.allocationPtr) hm
    exact this.symm
  have hend : m.firstGenerationEnd = t.memory.firstGenerationEnd := by
    have := congrArg (fun x => x.2.firstGenerationEnd) hm
    exact this.symm
  unfold Memory.canAllocate at hcan
  have hcan₃ : t.memory.canAllocate 3 := by
    unfold Memory.canAllocate
    omega
  obtain ⟨m₁, hm₁⟩ : ∃ m₁, m₁ = (m.set (freelist + 1) (oid >>> 2)).set (freelist + 2)
      t.oidFreelist := ⟨_, rfl⟩
  have hext : t.memory.Extends m₁ := by
    have hext := freelistCell_extends hcan₃ (oid >>> 2) t.oidFreelist
    rw [hm, ← hptr] at hext
    exact hm₁ ▸ hext
  have hroot := CodedRootAt.frame hg hext.agree fun _ ha => hext.live ha
  obtain ⟨root, m₂, hdelete, -, -, hroot₂, -⟩ := triev2Delete_spec (oid >>> 2) nullWord
    (by decide : 15 ≠ 0) (by decide) hroot (f := some oidDisposeF) (by
      rw [hm₁]
      show m.firstGenerationEnd + triev2MaxAllocation ≤ m.allocationPtr
      omega)
  unfold oidDispose at h
  simp only [Option.bind_eq_bind, Option.bind_eq_some_iff, hm, ← hm₁] at h
  obtain ⟨-, -, -, -, old', -, ⟨root', m'⟩, hrun, left, hleft, -, -, h⟩ := h
  rw [show 30 = 2 * 15 from rfl, hdelete, Option.some.injEq, Prod.mk.injEq] at hrun
  obtain ⟨rfl, rfl⟩ := hrun
  simp only [Option.some.injEq, Prod.mk.injEq] at h
  obtain ⟨-, rfl⟩ := h
  have hvalue : ∀ x, deleteValue m₁ (some oidDisposeF) nullWord x = nullWord := fun x => by
    unfold deleteValue
    split <;> rfl
  rw [hvalue] at hroot₂
  unfold OidTable.Represents
  rw [wordToPtr_ptrToWord]
  exact hroot₂

/-- `oid_update` stores the value at the oid. -/
theorem oidUpdate_represents (hg : t.Represents g)
    (hcan : t.memory.canAllocate triev2MaxAllocation) (hvalue : value ≠ nullWord)
    (hoid : taggedIsOid oid = true) :
    ∃ t', oidUpdate t oid value =
        (if oid ≤ t.oidMax then some (g (oid % 4 ^ 15), t') else none) ∧
      t'.oidMax = t.oidMax ∧
      t'.Represents (Function.update g (oid % 4 ^ 15) value) := by
  obtain ⟨root, m, x, hinsert, -, -, hx, hroot, -⟩ := triev2Insert_spec oid (by decide : 15 ≠ 0)
    (by decide) hg (f := some oidUpdateF) hcan hvalue
    (fun u hu x m => by
      obtain rfl := Option.mem_some_iff.mp hu
      exact hvalue)
  obtain ⟨s, hloop, hold⟩ := insertLoop_oldData oid (by decide : 15 ≠ 0) (by decide) hg hcan
  have hxv : x = value := by
    unfold InsertValue at hx
    split at hx
    · exact hx
    · obtain ⟨s', -, hx'⟩ := hx
      exact hx'
  refine ⟨{ t with memory := m, oidMap := ptrToWord root }, ?_, rfl, ?_⟩
  · unfold oidUpdate updatedValue
    rw [show 30 = 2 * 15 from rfl, hloop, hinsert]
    simp only [hoid, assert_true, Option.bind_eq_bind, Option.bind_some, Option.map_some, hold]
    unfold assert
    split <;> rfl
  · unfold OidTable.Represents
    rw [wordToPtr_ptrToWord, ← hxv]
    exact hroot

end operations

/-! ## runs -/

/-- A value of an oid: any word but `NULL_WORD`. -/
structure OidValue where
  word : Nat
  ne_null : word ≠ nullWord

/-- A call of one of the operations, or anything else that leaves the map of the trie as
it is: other allocations, or the moving of cells by the collector. -/
inductive OidStep : OidTable → OidTable → Prop
  | allocate {t t' : OidTable} {random : Nat → Nat} {value : OidValue} {oid : Nat}
      (hcan : t.memory.canAllocate triev2MaxAllocation)
      (hrun : oidAllocate random t value.word = some (oid, t')) : OidStep t t'
  | dispose {t t' : OidTable} {oid old : Nat}
      (hcan : t.memory.canAllocate (triev2MaxAllocation + 3))
      (hrun : oidDispose t oid = some (old, t')) : OidStep t t'
  | update {t t' : OidTable} {value : OidValue} {oid old : Nat}
      (hcan : t.memory.canAllocate triev2MaxAllocation)
      (hrun : oidUpdate t oid value.word = some (old, t')) : OidStep t t'
  | moved {t t' : OidTable} (hmap : ∀ g, t.Represents g → t'.Represents g) : OidStep t t'

theorem OidStep.represents {t t' : OidTable} (hstep : OidStep t t')
    (ht : ∃ g, t.Represents g) : ∃ g, t'.Represents g := by
  obtain ⟨g, hg⟩ := ht
  cases hstep with
  | @allocate _ value _ hcan hrun => exact oidAllocate_represents hg hcan value.ne_null hrun
  | dispose hcan hrun => exact ⟨_, oidDispose_represents hg hcan hrun⟩
  | @update value oid old hcan hrun =>
    have hoid : taggedIsOid oid = true := by
      simp only [oidUpdate, Option.bind_eq_bind, Option.bind_eq_some_iff] at hrun
      obtain ⟨_, hassert, -⟩ := hrun
      unfold assert at hassert
      split at hassert
      · assumption
      · cases hassert
    obtain ⟨t₁, hrun₁, -, hmap⟩ := oidUpdate_represents hg hcan value.ne_null hoid
    rw [hrun] at hrun₁
    split at hrun₁
    · simp only [Option.some.injEq, Prod.mk.injEq] at hrun₁
      exact ⟨_, hrun₁.2 ▸ hmap⟩
    · cases hrun₁
  | moved hmap => exact ⟨g, hmap g hg⟩

/-- The tables that can be reached. -/
def OidReachable (m : Memory) (t : OidTable) : Prop :=
  Relation.ReflTransGen OidStep (OidTable.initial m) t

theorem OidReachable.represents {m : Memory} {t : OidTable} (h : OidReachable m t) :
    ∃ g, t.Represents g := by
  induction h with
  | refl => exact ⟨fun _ => 0, .inl ⟨by simp [OidTable.initial, nullPtr], fun _ _ => rfl⟩⟩
  | tail _ hstep ih => exact hstep.represents ih

/-! ## updates -/

/-- The oid with the number `o` is in use: it refers to a value. -/
def OidTable.InUse (t : OidTable) (o : Nat) : Prop :=
  ∃ value : OidValue, oidRef t (taggedOid o) = some value.word

/-- `oid_update` returns the value that `oid_ref` gave, `oid_ref` gives the new one from
then on, and what it gives for all other oids in use stays as it was. -/
def UpdatesOid (t : OidTable) (o value : Nat) : Prop :=
  ∃ old t', oidUpdate t (taggedOid o) value = some (old, t') ∧
    oidRef t (taggedOid o) = some old ∧ oidRef t' (taggedOid o) = some value ∧
    ∀ o' < 2 ^ 30, t.InUse o' → o' ≠ o → oidRef t' (taggedOid o') = oidRef t (taggedOid o')

/-- `oid_update` does what it should exactly if the tagged oid is not above `oid_max`, and
its lower 30 bits are the number of the oid, or nothing is to be changed and the number
that these bits are has the same value. -/
theorem oid_update_ref {m : Memory} {t : OidTable} (hrun : OidReachable m t) {o : Nat}
    (ho : o < 2 ^ 30) (huse : t.InUse o) (value : OidValue)
    (hcan : t.memory.canAllocate triev2MaxAllocation) :
    UpdatesOid t o value.word ↔
      taggedOid o ≤ t.oidMax ∧ (taggedOid o % 2 ^ 30 = o ∨
        oidRef t (taggedOid o) = some value.word ∧ t.find (taggedOid o) = some value.word) := by
  obtain ⟨g, hg⟩ := hrun.represents
  obtain ⟨t', hupdate, hmax, hg'⟩ :=
    oidUpdate_represents hg hcan value.ne_null (taggedIsOid_taggedOid o)
  obtain ⟨k, hk⟩ : ∃ k, k = taggedOid o % 2 ^ 30 := ⟨_, rfl⟩
  have hpow : (4 : Nat) ^ 15 = 2 ^ 30 := by decide
  rw [hpow, ← hk] at hupdate hg'
  have hfind := hg.find (taggedOid o)
  rw [hpow, ← hk] at hfind
  have href := fun o' (ho' : o' < 2 ^ 30) => hg.oidRef (hpow ▸ ho' : o' < 4 ^ 15)
  have href' := fun o' (ho' : o' < 2 ^ 30) => hg'.oidRef (hpow ▸ ho' : o' < 4 ^ 15)
  have hle : o ≤ t.oidMax := by
    by_contra hle
    obtain ⟨value, hvalue⟩ := huse
    rw [href o ho, if_neg hle] at hvalue
    cases hvalue
  rw [hmax] at href'
  rw [← hk, href o ho, if_pos hle, hfind, Option.some.injEq, Option.some.injEq]
  constructor
  · rintro ⟨old, t₁, hupdate₁, hold, hnew, -⟩
    rw [hupdate] at hupdate₁
    split at hupdate₁
    · next htagged =>
      simp only [Option.some.injEq, Prod.mk.injEq] at hupdate₁
      obtain ⟨rfl, rfl⟩ := hupdate₁
      rw [href o ho, if_pos hle, Option.some.injEq] at hold
      rw [href' o ho, if_pos hle, Option.some.injEq] at hnew
      refine ⟨htagged, ?_⟩
      by_cases hko : k = o
      · exact .inl hko
      · rw [Function.update_of_ne (Ne.symm hko)] at hnew
        exact .inr ⟨hnew, hold ▸ hnew⟩
    · cases hupdate₁
  · rintro ⟨htagged, hvalue⟩
    rw [if_pos htagged] at hupdate
    refine ⟨g k, t', hupdate, ?_, ?_, fun o' ho' _ hne => ?_⟩
    · rw [href o ho, if_pos hle, Option.some.injEq]
      rcases hvalue with hko | ⟨hold, hk'⟩
      · rw [hko]
      · rw [hold, hk']
    · rw [href' o ho, if_pos hle, Option.some.injEq]
      rcases hvalue with hko | ⟨hold, hk'⟩
      · rw [hko, Function.update_self]
      · rw [← hk', Function.update_eq_self, hold, hk']
    · rw [href o' ho', href' o' ho']
      rcases hvalue with hko | ⟨-, hk'⟩
      · rw [hko, Function.update_of_ne hne]
      · rw [← hk', Function.update_eq_self]

/-- One oid for each value, as long as there is room. -/
def allocateAll : List OidValue → OidTable → Option OidTable
  | [], t => some t
  | value :: values, t =>
    if t.memory.canAllocate triev2MaxAllocation then do
      let (_, t) ← oidAllocate (fun _ => 0) t value.word
      allocateAll values t
    else none

theorem allocateAll_steps {values : List OidValue} {t t' : OidTable}
    (h : allocateAll values t = some t') : Relation.ReflTransGen OidStep t t' := by
  induction values generalizing t with
  | nil =>
    obtain rfl := Option.some.inj h
    exact .refl
  | cons value values ih =>
    rw [allocateAll] at h
    split at h
    · next hcan =>
      simp only [Option.bind_eq_bind, Option.bind_eq_some_iff] at h
      obtain ⟨⟨oid, t₁⟩, hrun, h⟩ := h
      exact .head (.allocate hcan hrun) (ih h)
    · cases h

/-- The table with three oids for these values. -/
def threeOids (a b c : OidValue) : Option OidTable :=
  allocateAll [a, b, c] (OidTable.initial (smallMemory []))

def five : OidValue := ⟨5, by decide⟩

def nine : OidValue := ⟨9, by decide⟩

/-- Three oids with the value 5; the first one gets the value 5. -/
theorem oid_update_ref_same : ∃ t, UpdatesOid t 0 five.word := by
  have hsome : (threeOids five five five).isSome = true := by decide +kernel
  obtain ⟨t, ht⟩ := Option.isSome_iff_exists.mp hsome
  have hcheck : (threeOids five five five).map (fun t =>
      (decide (t.memory.canAllocate triev2MaxAllocation ∧ taggedOid 0 ≤ t.oidMax),
        oidRef t (taggedOid 0), t.find (taggedOid 0))) = some (true, some 5, some 5) := by
    decide +kernel
  simp only [ht, Option.map_some, Option.some.injEq, Prod.mk.injEq, decide_eq_true_eq] at hcheck
  obtain ⟨⟨hcan, htagged⟩, href, hfind⟩ := hcheck
  exact ⟨t, (oid_update_ref (allocateAll_steps ht) (by decide) ⟨five, href⟩ five hcan).mpr
    ⟨htagged, .inr ⟨href, hfind⟩⟩⟩

/-- Three oids with the values 5, 5 and 9; the first one is to have the value 17.  The
third one gets it, and its old value is returned. -/
theorem oid_update_other : ∃ t t', OidReachable (smallMemory []) t ∧ t.InUse 0 ∧
    t.memory.canAllocate triev2MaxAllocation ∧ oidRef t (taggedOid 0) = some 5 ∧
    oidRef t (taggedOid 2) = some 9 ∧ oidUpdate t (taggedOid 0) 17 = some (9, t') ∧
    oidRef t' (taggedOid 0) = some 5 ∧ oidRef t' (taggedOid 2) = some 17 ∧
    ¬ UpdatesOid t 0 17 := by
  have hsome : (threeOids five five nine).isSome = true := by decide +kernel
  obtain ⟨t, ht⟩ := Option.isSome_iff_exists.mp hsome
  have hcheck : (threeOids five five nine).map (fun t =>
      (decide (t.memory.canAllocate triev2MaxAllocation), oidRef t (taggedOid 0),
        oidRef t (taggedOid 2))) = some (true, some 5, some 9) := by
    decide +kernel
  have hupdate : (threeOids five five nine).bind (fun t =>
      (oidUpdate t (taggedOid 0) 17).map fun r =>
        (r.1, oidRef r.2 (taggedOid 0), oidRef r.2 (taggedOid 2))) =
      some (9, some 5, some 17) := by
    decide +kernel
  simp only [ht, Option.map_some, Option.some.injEq, Prod.mk.injEq, decide_eq_true_eq] at hcheck
  obtain ⟨hcan, href, href'⟩ := hcheck
  rw [ht, Option.bind_some, Option.map_eq_some_iff] at hupdate
  obtain ⟨⟨old, t'⟩, hrun, hresult⟩ := hupdate
  simp only [Prod.mk.injEq] at hresult
  obtain ⟨rfl, hnew, hnew'⟩ := hresult
  refine ⟨t, t', allocateAll_steps ht, ⟨five, href⟩, hcan, href, href', hrun, hnew, hnew', ?_⟩
  rintro ⟨old, t₁, hrun₁, hold, -⟩
  rw [hrun, Option.some.injEq, Prod.mk.injEq] at hrun₁
  rw [← hrun₁.1, href] at hold
  exact absurd hold (by decide)

end Shades
