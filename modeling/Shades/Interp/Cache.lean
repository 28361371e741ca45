import Mathlib.Logic.Relation
import Shades.Interp.LoadBcode
import Shades.Triev2.Table

/-!
# Shades.Interp.Cache

What the caches of the interpreter answer.

`Sound` says that the tables are tries and that the caches hold values of their
maps.  Every operation on the tables keeps it, so a lookup in a cache is a
lookup in the trie.
-/

namespace Shades

open Tables

/-! ## tables and caches that agree -/

/-- The tables of global values and byte codes are `f` and `g`, in the region `S`, and
the caches hold values of them. -/
structure Tables.Sound (s : Tables) (S : Nat → Prop) (f g : KeyMap) : Prop where
  globals : TableAt s.memory.words S s.globals f
  bcodes : TableAt s.memory.words S s.bcodes g
  interned : InternRootAt s.memory.words S s.internedShtrings
  globalCache : s.globalCache.Coherent invalidId globalCacheLine fun id => (f id).getD nullWord
  bcodeCache : s.bcodeCache.Coherent invalidId bcodeCacheLine
    fun id => wordToPtr ((g id).getD nullWord)

section tables

variable {s s' : Tables} {S S' : Nat → Prop} {m m' : Memory} {f g : KeyMap} {id value : Nat}

/-- The tables are found again in a memory that agrees on the region. -/
theorem Tables.Sound.frame (hs : s.Sound S f g) (hagree : AgreeOn S s.memory.words m.words)
    (hS : ∀ a, S a → S' a) : { s with memory := m }.Sound S' f g :=
  ⟨hs.globals.frame hagree hS, hs.bcodes.frame hagree hS, hs.interned.frame hagree hS,
    hs.globalCache, hs.bcodeCache⟩

/-- Allocating keeps the tables. -/
theorem Tables.Sound.extends (hs : s.Sound s.memory.Live f g) (hext : s.memory.Extends m) :
    { s with memory := m }.Sound m.Live f g := hs.frame hext.agree fun _ => hext.live

/-! ## lookups -/

/-- `global_get` finds what is in the trie. -/
theorem globalGet_spec (hs : s.Sound S f g) (hid : id < 2 ^ 32) :
    ∃ value s', s.globalGet id = some (value, s') ∧
      (id ≠ invalidId → value = (f id).getD nullWord) ∧ s'.Sound S f g ∧ s'.memory = s.memory := by
  obtain ⟨value, cache, hget, hvalue, hcoherent⟩ :=
    hs.globalCache.get (x := (f id).getD nullWord) fun (_ : id ≠ invalidId) => rfl
  refine ⟨value, { s with globalCache := cache }, ?_, hvalue,
    ⟨hs.globals, hs.bcodes, hs.interned, hcoherent, hs.bcodeCache⟩, rfl⟩
  rw [globalGet, hs.globals.find hid, hget]
  rfl

/-- `bcode_get` finds what is in the trie. -/
theorem bcodeGet_spec (hs : s.Sound S f g) (hid : id < 2 ^ 32) :
    ∃ bcode s', s.bcodeGet id = some (bcode, s') ∧
      (id ≠ invalidId → bcode = wordToPtr ((g id).getD nullWord)) ∧ s'.Sound S f g ∧
        s'.memory = s.memory := by
  obtain ⟨bcode, cache, hget, hbcode, hcoherent⟩ :=
    hs.bcodeCache.get (x := wordToPtr ((g id).getD nullWord)) fun (_ : id ≠ invalidId) => rfl
  refine ⟨bcode, { s with bcodeCache := cache }, ?_, hbcode,
    ⟨hs.globals, hs.bcodes, hs.interned, hs.globalCache, hcoherent⟩, rfl⟩
  rw [bcodeGet, hs.bcodes.find hid, Option.map_some, hget]
  rfl

/-- A new item changes the trie and the cache alike. -/
theorem globalSet_spec (hs : s.Sound S f g) (hS : ∀ a, S a → s.memory.Live a)
    (hid : id < 2 ^ 32) {l : Nat} (hcan : s.memory.canAllocate (triev2MaxAllocation + l)) :
    ∃ s', s.globalSet value id = some s' ∧ s.memory.Extends s'.memory ∧
      s'.memory.canAllocate l ∧
      s'.Sound (Memory.grow S s.memory s'.memory) (Function.update f id (some value)) g := by
  obtain ⟨root, m, hinsert, hext, hcan', hroot⟩ := hs.globals.insert hS id value hcan
  rw [Nat.mod_eq_of_lt hid] at hroot
  have hkept := hs.frame (hext.agree.mono hS) fun a (ha : S a) =>
    show Memory.grow S s.memory m a from .inl ha
  refine ⟨{ s with
    memory := m, globals := root, globalCache := s.globalCache.set globalCacheLine id value },
    by rw [globalSet, hinsert]; rfl, hext, hcan',
    ⟨hroot, hkept.bcodes, hkept.interned, ?_, hkept.bcodeCache⟩⟩
  refine (hs.globalCache.set id value).congr fun k _ => ?_
  by_cases hk : k = id
  · subst hk
    rw [Function.update_self, Function.update_self, Option.getD_some]
  · rw [Function.update_of_ne hk, Function.update_of_ne hk]

/-! ## byte code that is loaded -/

/-- A flushed cache agrees with every table. -/
theorem Tables.Sound.flushGlobalCache (hs : s.Sound S f g) : s.flushGlobalCache.Sound S f g :=
  ⟨hs.globals, hs.bcodes, hs.interned, TwoWayCache.coherent_flush _ _ _ _, hs.bcodeCache⟩

/-- The instructions of byte code take as many words with the strings as with their
numbers. -/
theorem resolveStrings_length {words : Nat → Nat} {root fuel : Nat} {xs ys : List Nat}
    (h : resolveStrings words root fuel xs = some ys) : ys.length = xs.length := by
  induction fuel generalizing xs ys with
  | zero =>
    cases xs with
    | nil =>
      cases h
      rfl
    | cons => cases h
  | succ fuel ih =>
    cases xs with
    | nil =>
      cases h
      rfl
    | cons x xs =>
      unfold resolveStrings at h
      simp only [Option.bind_eq_bind, Option.bind_eq_some_iff] at h
      obtain ⟨insn, -, h⟩ := h
      split_ifs at h <;> simp only [Option.bind_eq_some_iff] at h
      · obtain ⟨id, hid, shtring, -, -, -, rest, hrest, h⟩ := h
        cases h
        cases xs with
        | nil => cases hid
        | cons => simpa using ih hrest
      · obtain ⟨rest, hrest, h⟩ := h
        cases h
        have hlen := ih hrest
        rw [List.length_drop] at hlen
        rw [List.length_append, List.length_cons, List.length_take, hlen, List.length_cons]
        omega

/-- Byte code is filled in where it was allocated. -/
theorem RawBcode.fill_allocates {raw : RawBcode} {root bcode : Nat} {m₀ : Memory}
    (h : m₀.Allocates m) (hptr : m.allocationPtr = bcode)
    (hsize : bcode + (7 + raw.stackTypes.length + raw.code.length) ≤ m₀.allocationPtr)
    (hrun : raw.fill root bcode m = some m') :
    m₀.Allocates m' ∧ m'.allocationPtr = bcode ∧ m'.firstGenerationEnd = m.firstGenerationEnd := by
  unfold RawBcode.fill at hrun
  simp only [Option.bind_eq_bind, Option.bind_eq_some_iff] at hrun
  obtain ⟨maxAllocation, -, code, hcode, hrun⟩ := hrun
  cases hrun
  have hlen := resolveStrings_length hcode
  have hset := (h.set (p := bcode + 6) ⟨by omega, by omega⟩ (3 + raw.maxStackDepth)).set
    (p := bcode + 5) ⟨by rw [Memory.set_allocationPtr]; omega, by omega⟩
    (maxAllocation + cswMaxAllocation)
  have hcode := hset.fillCell (q := bcode) (i := 7) code
    (by simp only [Memory.set_allocationPtr]; omega) (by omega)
  refine ⟨hcode.fillCell _ ?_ ?_, ?_, ?_⟩
  · simp only [fillCell_allocationPtr, Memory.set_allocationPtr]
    omega
  · rw [List.length_map]
    omega
  · simp only [fillCell_allocationPtr, Memory.set_allocationPtr, hptr]
  · simp only [fillCell_firstGenerationEnd, Memory.set_firstGenerationEnd]

/-- Interning the name of byte code only allocates. -/
theorem RawBcode.internName_keeps {raw : RawBcode} {firstGenerationSize root l : Nat}
    {r : ShtringInternResult} {S : Nat → Prop} (hS : ∀ a, S a → m.Live a)
    (hname : AreBytes raw.name) (hsize : firstGenerationSize < 2 ^ 32)
    (hroot : InternRootAt m.words S root)
    (hcan : m.canAllocate
      (shtringCreateMaxAllocation raw.name.length + (shtringInternMaxAllocation + l)))
    (hrun : raw.internName firstGenerationSize root m = some (r, m')) :
    m.Extends m' ∧ m'.canAllocate l ∧
      InternRootAt m'.words (Memory.grow S m m') r.newInternRoot := by
  by_cases hlen : raw.name.length ≤ firstGenerationSize / 2
  · obtain ⟨shtr, m₁, chunks, hcreate, hext₁, hcan₁, -, -⟩ :=
      shtringCreate_fits raw.aligned hname hsize hlen hcan
    unfold RawBcode.internName at hrun
    simp only [hcreate, Option.bind_eq_bind, Option.bind_some] at hrun
    obtain ⟨hext₂, hcan₂, hroot₂⟩ := shtringIntern_keeps (fun a ha => hext₁.live (hS a ha))
      (hroot.frame (hext₁.agree.mono hS) fun _ ha => ha) hcan₁ hrun
    exact ⟨hext₁.trans hext₂, hcan₂,
      hroot₂.frame (fun _ _ => rfl) fun _ => Memory.grow_mono hext₁.allocationPtr_le le_rfl⟩
  · -- `shtring_create` fails
    unfold RawBcode.internName shtringCreate shtringCreateOf at hrun
    rw [if_pos (by omega)] at hrun
    cases hrun

/-- A continuation prototype only allocates. -/
theorem contPrototype_extends {size l : Nat} (bcode : Nat) (hsize : 3 ≤ size)
    (hcan : m.canAllocate (size + l)) :
    m.Extends (contPrototype m bcode size).2 ∧ (contPrototype m bcode size).2.canAllocate l := by
  unfold Memory.canAllocate at hcan
  have halloc := Memory.allocates_allocate (n := size) .cont (by omega)
    (show m.canAllocate size by unfold Memory.canAllocate; omega)
  have hptr : (m.allocate size .cont).2.allocationPtr = m.allocationPtr - size := rfl
  have hset := ((halloc.set (p := m.allocationPtr - size) ⟨by omega, by omega⟩
    ((m.allocate size .cont).2.words (m.allocationPtr - size) ||| size <<< 12)).set
    (p := m.allocationPtr - size + 1) ⟨by rw [Memory.set_allocationPtr]; omega, by omega⟩
    (ptrToWord bcode)).set (p := m.allocationPtr - size + 2)
      ⟨by simp only [Memory.set_allocationPtr]; omega, by omega⟩ nullWord
  refine ⟨hset.extends ?_, ?_⟩
  · simp only [Memory.set_allocationPtr, Memory.set_firstGenerationEnd,
      Memory.allocate_firstGenerationEnd, hptr]
    omega
  · unfold Memory.canAllocate contPrototype
    simp only [Memory.set_allocationPtr, Memory.set_firstGenerationEnd,
      Memory.allocate_firstGenerationEnd, hptr]
    omega

/-- The end of `load_bcode` changes the global value of the entry point. -/
theorem loadEntry_spec {raw : RawBcode} {bcode bcodeId : Nat} (hs : s.Sound s.memory.Live f g)
    (hcan : s.memory.canAllocate (3 + raw.maxStackDepth + triev2MaxAllocation))
    (hrun : s.loadEntry raw bcode bcodeId = some s') : ∃ f', s'.Sound s'.memory.Live f' g := by
  obtain ⟨hext, hcan'⟩ := contPrototype_extends bcode (Nat.le_add_right 3 _) hcan
  have hs₁ := hs.extends hext
  obtain ⟨root, m, hinsert, hext', -, hroot⟩ :=
    hs₁.globals.insert (l := 0) (fun _ ha => ha) bcodeId
      (ptrToWord (contPrototype s.memory bcode (3 + raw.maxStackDepth)).1) hcan'
  have hs₂ := hs₁.flushGlobalCache.extends hext'
  unfold Tables.loadEntry Tables.flushGlobalCache at hrun
  simp only [Option.bind_eq_bind, Option.bind_eq_some_iff, hinsert, Option.some.injEq] at hrun
  obtain ⟨-, -, _, rfl, rfl⟩ := hrun
  exact ⟨_, hroot.frame (fun _ _ => rfl) fun _ => hext'.grow_live fun _ ha => ha, hs₂.bcodes,
    hs₂.interned, TwoWayCache.coherent_flush _ _ _ _, hs₂.bcodeCache⟩

/-- The words that have to be free, in the order in which they are taken. -/
theorem RawBcode.numberOfWords_eq (raw : RawBcode) : raw.numberOfWords =
    7 + raw.stackTypes.length + raw.code.length + (shtringCreateMaxAllocation raw.name.length +
      (shtringInternMaxAllocation + (triev2MaxAllocation +
        if raw.bcodeIsEntry then 3 + raw.maxStackDepth + triev2MaxAllocation else 0))) := by
  unfold RawBcode.numberOfWords
  omega

/-- The cell of the byte code with its first slots. -/
theorem RawBcode.cell_allocates (raw : RawBcode) {n l : Nat}
    (hn : n = 7 + raw.stackTypes.length + raw.code.length) (hcan : m.canAllocate (n + l))
    (hm' : m' = fillCell (m.allocationPtr - n) 1 [raw.accuType.code, raw.stackTypes.length,
      raw.code.length, raw.contIsReusable] (m.allocate n .bcode).2) :
    m.Allocates m' ∧ m'.allocationPtr = m.allocationPtr - n := by
  have hroom := hcan
  unfold Memory.canAllocate at hroom
  constructor
  · rw [hm']
    refine (Memory.allocates_allocate .bcode (by omega)
      (Memory.canAllocate_mono hcan (Nat.le_add_right _ _))).fillCell _ ?_ ?_
    · rw [Memory.allocate_allocationPtr]
      omega
    · simp only [List.length_cons, List.length_nil]
      omega
  · rw [hm', fillCell_allocationPtr, Memory.allocate_allocationPtr]

/-- `load_bcode` keeps caches and tables together, whatever it returns. -/
theorem loadBcode_spec {raw : RawBcode} {firstGenerationSize : Nat} {r : LoadResult}
    (hs : s.Sound s.memory.Live f g) (hname : AreBytes raw.name)
    (hsize : firstGenerationSize < 2 ^ 32)
    (hrun : s.loadBcode firstGenerationSize raw = some (r, s')) :
    ∃ f' g', s'.Sound s'.memory.Live f' g' := by
  unfold Tables.loadBcode at hrun
  by_cases hcan : s.memory.canAllocate raw.numberOfWords
  swap
  · rw [if_pos hcan] at hrun
    cases hrun
    exact ⟨f, g, hs⟩
  rw [if_neg (not_not.mpr hcan)] at hrun
  simp only [Option.bind_eq_bind, Option.bind_eq_some_iff] at hrun
  obtain ⟨-, -, hrun⟩ := hrun
  -- the cell of the byte code
  obtain ⟨n, hn⟩ : ∃ n, n = 7 + raw.stackTypes.length + raw.code.length := ⟨_, rfl⟩
  obtain ⟨l, hl⟩ : ∃ l, l = if raw.bcodeIsEntry then 3 + raw.maxStackDepth + triev2MaxAllocation
    else 0 := ⟨_, rfl⟩
  rw [RawBcode.numberOfWords_eq, ← hn, ← hl] at hcan
  obtain ⟨bcode, m₁, hbcode, hm₁⟩ : ∃ bcode m₁, bcode = s.memory.allocationPtr - n ∧
      m₁ = fillCell bcode 1 [raw.accuType.code, raw.stackTypes.length, raw.code.length,
        raw.contIsReusable] (s.memory.allocate n .bcode).2 := ⟨_, _, rfl, rfl⟩
  rw [← hn, Memory.allocate_fst, ← hbcode, ← hm₁] at hrun
  have hroom := hcan
  unfold Memory.canAllocate at hroom
  obtain ⟨hall₁, hptr₁⟩ := raw.cell_allocates hn hcan (hbcode ▸ hm₁)
  rw [← hbcode] at hptr₁
  have hend₁ := hall₁.firstGenerationEnd_eq
  by_cases hlarge : maxNumberOfWordsInCont < 3 + raw.maxStackDepth
  · rw [if_pos hlarge] at hrun
    obtain ⟨-, rfl⟩ := Prod.mk.inj (Option.some.inj hrun)
    exact ⟨f, g, hs.extends (hall₁.extends (by omega))⟩
  rw [if_neg hlarge] at hrun
  simp only [Option.bind_eq_some_iff] at hrun
  obtain ⟨m₂, hfill, ⟨intern, m₃⟩, hintern, ⟨root, m₄⟩, hinsert, hrun⟩ := hrun
  dsimp only at hinsert hrun
  obtain ⟨hall₂, hptr₂, hend₂⟩ := raw.fill_allocates hall₁ hptr₁ (by omega) hfill
  have hext₂ : s.memory.Extends m₂ := hall₂.extends (by omega)
  have hlive₂ : ∀ a, s.memory.Live a → m₂.Live a := fun _ => hext₂.live
  -- the name and the table of byte codes
  obtain ⟨hext₃, hcan₃, hinterned⟩ := raw.internName_keeps (l := triev2MaxAllocation + l) hlive₂
    hname hsize (hs.interned.frame hext₂.agree fun _ ha => ha)
    (by unfold Memory.canAllocate; omega) hintern
  have hext₂₃ := hext₂.trans hext₃
  obtain ⟨root', m₄', hinsert', hext₄, hcan₄, hroot⟩ :=
    (hs.bcodes.frame hext₂₃.agree fun _ ha => ha).insert (fun _ => hext₂₃.live)
      intern.internedShtringId (ptrToWord bcode) hcan₃
  obtain ⟨rfl, rfl⟩ := Prod.mk.inj (Option.some.inj (hinsert.symm.trans hinsert'))
  -- the number of the name in the header of the byte code
  have hfresh : ¬ s.memory.Live bcode := by
    unfold Memory.Live
    omega
  have hext := (hext₂₃.trans hext₄).set hfresh (m₄.words bcode ||| intern.internedShtringId)
  obtain ⟨m₅, hm₅⟩ : ∃ m₅, m₅ = m₄.set bcode (m₄.words bcode ||| intern.internedShtringId) :=
    ⟨_, rfl⟩
  rw [← hm₅] at hrun hext
  have hgrown {m m' : Memory} (hm : m₂.Extends m) (hm' : m.Extends m') (hm'' : m'.Extends m₄) :
      AgreeOn (Memory.grow s.memory.Live m m') m'.words m₅.words ∧
        ∀ a, Memory.grow s.memory.Live m m' a → m₅.Live a := by
    have hlive : ∀ a, s.memory.Live a → m.Live a := fun _ => (hext₂.trans hm).live
    have hle := hm.allocationPtr_le
    rw [hm₅]
    exact ⟨hm'.agree_grow_set hm'' hlive hfresh (by omega) _,
      fun a ha => hm''.live (hm'.grow_live hlive ha)⟩
  obtain ⟨hagree₃, hlive₃⟩ := hgrown (.refl m₂) hext₃ hext₄
  obtain ⟨hagree₄, hlive₄⟩ := hgrown hext₃ hext₄ (.refl m₄)
  have hsound : Tables.Sound { s.flushBcodeCache with
        memory := m₅, bcodes := root, internedShtrings := intern.newInternRoot } m₅.Live f
      (Function.update g (intern.internedShtringId % 2 ^ 32) (some (ptrToWord bcode))) :=
    ⟨hs.globals.frame hext.agree fun _ => hext.live, hroot.frame hagree₄ hlive₄,
      hinterned.frame hagree₃ hlive₃, hs.globalCache, TwoWayCache.coherent_flush _ _ _ _⟩
  by_cases hentry : raw.bcodeIsEntry = true
  · rw [if_pos hentry] at hrun
    obtain ⟨s₆, hrun₆, hs₆⟩ := Option.bind_eq_some_iff.mp hrun
    obtain ⟨-, rfl⟩ := Prod.mk.inj (Option.some.inj hs₆)
    rw [hl, if_pos hentry] at hcan₄
    obtain ⟨f', hf'⟩ := loadEntry_spec hsound (by rw [hm₅]; exact hcan₄) hrun₆
    exact ⟨f', _, hf'⟩
  · rw [if_neg hentry] at hrun
    obtain ⟨-, rfl⟩ := Prod.mk.inj (Option.some.inj hrun)
    exact ⟨f, _, hsound⟩

/-! ## runs -/

/-- The tables are tries, whatever is in the caches. -/
def Tables.Stored (s : Tables) : Prop :=
  (∃ f, TableAt s.memory.words s.memory.Live s.globals f) ∧
    (∃ g, TableAt s.memory.words s.memory.Live s.bcodes g) ∧
      InternRootAt s.memory.words s.memory.Live s.internedShtrings

/-- What happens to the tables and the caches.  Instructions allocate, and the
assembler interns shtrings.  After a commit everything may lie elsewhere, and the
caches are flushed. -/
inductive Tables.Step (firstGenerationSize : Nat) : Tables → Tables → Prop
  | globalGet {s s' : Tables} {id value : Nat} (hid : id < 2 ^ 32)
      (hrun : s.globalGet id = some (value, s')) : Step firstGenerationSize s s'
  | globalSet {s s' : Tables} {id value : Nat} (hid : id < 2 ^ 32)
      (hcan : s.memory.canAllocate triev2MaxAllocation)
      (hrun : s.globalSet value id = some s') : Step firstGenerationSize s s'
  | bcodeGet {s s' : Tables} {id bcode : Nat} (hid : id < 2 ^ 32)
      (hrun : s.bcodeGet id = some (bcode, s')) : Step firstGenerationSize s s'
  | loadBcode {s s' : Tables} {raw : RawBcode} {r : LoadResult} (hname : AreBytes raw.name)
      (hrun : s.loadBcode firstGenerationSize raw = some (r, s')) : Step firstGenerationSize s s'
  | allocate {s : Tables} {m : Memory} (hext : s.memory.Extends m) :
      Step firstGenerationSize s { s with memory := m }
  | intern {s : Tables} {m : Memory} {r : ShtringInternResult} {shtr : Nat}
      (hcan : s.memory.canAllocate shtringInternMaxAllocation)
      (hrun : shtringIntern s.memory s.internedShtrings shtr = some (r, m)) :
      Step firstGenerationSize s { s with memory := m, internedShtrings := r.newInternRoot }
  | commit {s s' : Tables} (hs : s'.Stored) :
      Step firstGenerationSize s s'.flushBcodeCache.flushGlobalCache

/-- Flushed caches agree with the tables. -/
theorem Tables.Stored.sound (hs : s.Stored) :
    ∃ f g, s.flushBcodeCache.flushGlobalCache.Sound s.memory.Live f g := by
  obtain ⟨⟨f, hf⟩, ⟨g, hg⟩, hroot⟩ := hs
  exact ⟨f, g, hf, hg, hroot, TwoWayCache.coherent_flush _ _ _ _,
    TwoWayCache.coherent_flush _ _ _ _⟩

/-- Every step keeps caches and tables together. -/
theorem Tables.Step.sound {firstGenerationSize : Nat} (hstep : Tables.Step firstGenerationSize s s')
    (hs : s.Sound s.memory.Live f g) (hsize : firstGenerationSize < 2 ^ 32) :
    ∃ f' g', s'.Sound s'.memory.Live f' g' := by
  cases hstep with
  | globalGet hid hrun =>
    obtain ⟨_, _, hrun', -, hs', hmemory⟩ := globalGet_spec hs hid
    obtain ⟨-, rfl⟩ := Prod.mk.inj (Option.some.inj (hrun.symm.trans hrun'))
    exact ⟨f, g, hmemory ▸ hs'⟩
  | globalSet hid hcan hrun =>
    obtain ⟨_, hrun', hext, -, hs'⟩ := globalSet_spec (l := 0) hs (fun _ ha => ha) hid hcan
    obtain rfl := Option.some.inj (hrun.symm.trans hrun')
    exact ⟨_, g, hs'.frame (fun _ _ => rfl) fun _ => hext.grow_live fun _ ha => ha⟩
  | bcodeGet hid hrun =>
    obtain ⟨_, _, hrun', -, hs', hmemory⟩ := bcodeGet_spec hs hid
    obtain ⟨-, rfl⟩ := Prod.mk.inj (Option.some.inj (hrun.symm.trans hrun'))
    exact ⟨f, g, hmemory ▸ hs'⟩
  | loadBcode hname hrun => exact loadBcode_spec hs hname hsize hrun
  | allocate hext => exact ⟨f, g, hs.extends hext⟩
  | intern hcan hrun =>
    obtain ⟨hext, -, hroot⟩ := shtringIntern_keeps (l := 0) (fun _ ha => ha) hs.interned hcan hrun
    have hs' := hs.extends hext
    exact ⟨f, g, hs'.globals, hs'.bcodes,
      hroot.frame (fun _ _ => rfl) fun _ => hext.grow_live fun _ ha => ha, hs'.globalCache,
      hs'.bcodeCache⟩
  | commit hs' => exact hs'.sound

/-- What the caches answer is what is in the tries of the root block. -/
def Tables.Direct (s : Tables) : Prop :=
  ∀ id, id < 2 ^ 32 → id ≠ invalidId →
    (∃ value s', triev2Find s.memory.words s.globals id 32 = some value ∧
      s.globalGet id = some (value, s')) ∧
    ∃ value s', triev2Find s.memory.words s.bcodes id 32 = some value ∧
      s.bcodeGet id = some (wordToPtr value, s')

theorem Tables.Sound.direct (hs : s.Sound S f g) : s.Direct := by
  intro id hid hvalid
  obtain ⟨value, s₁, hglobal, hvalue, -⟩ := globalGet_spec hs hid
  obtain ⟨bcode, s₂, hbcode, hptr, -⟩ := bcodeGet_spec hs hid
  obtain rfl := hvalue hvalid
  obtain rfl := hptr hvalid
  exact ⟨⟨_, s₁, hs.globals.find hid, hglobal⟩, _, s₂, hs.bcodes.find hid, hbcode⟩

/-- Whatever happens after the caches were flushed, they answer as the tries. -/
theorem cached_lookups_direct {firstGenerationSize : Nat} (hs : s.Stored)
    (hsize : firstGenerationSize < 2 ^ 32)
    (hruns : Relation.ReflTransGen (Tables.Step firstGenerationSize)
      s.flushBcodeCache.flushGlobalCache s') : s'.Direct := by
  have hsound : ∃ f g, s'.Sound s'.memory.Live f g := by
    induction hruns with
    | refl => exact hs.sound
    | tail _ hstep ih =>
      obtain ⟨f, g, hs'⟩ := ih
      exact hstep.sound hs' hsize
  obtain ⟨f, g, hs'⟩ := hsound
  exact hs'.direct

end tables

/-- No table has an item. -/
def emptyTables : Tables where
  memory := roomyMemory []
  globals := nullPtr
  bcodes := nullPtr
  internedShtrings := nullPtr
  globalCache := fun _ => ⟨.firstLeastRecentlyUsed, ⟨0, 0⟩, ⟨0, 0⟩⟩
  bcodeCache := fun _ => ⟨.firstLeastRecentlyUsed, ⟨0, 0⟩, ⟨0, 0⟩⟩

theorem emptyTables_stored : emptyTables.Stored :=
  ⟨⟨_, tableAt_empty _ _⟩, ⟨_, tableAt_empty _ _⟩, .inl rfl⟩

/-- The global value `7` of the number `5`, which was looked up before. -/
theorem cached_lookups_direct_set : ∃ value s₁ s₂,
    emptyTables.flushBcodeCache.flushGlobalCache.globalGet 5 = some (value, s₁) ∧
      s₁.globalSet 7 5 = some s₂ ∧ s₂.Direct := by
  obtain ⟨f, g, hs⟩ := emptyTables_stored.sound
  obtain ⟨value, s₁, hget, -, hs₁, hmemory⟩ := globalGet_spec hs (show 5 < 2 ^ 32 by decide)
  have hcan : s₁.memory.canAllocate triev2MaxAllocation := by
    rw [hmemory]
    decide
  obtain ⟨s₂, hset⟩ : ∃ s₂, s₁.globalSet 7 5 = some s₂ :=
    (globalSet_spec (l := 0) hs₁ (fun _ ha => hmemory ▸ ha) (by decide) hcan).imp fun _ h => h.1
  exact ⟨value, s₁, s₂, hget, hset, cached_lookups_direct emptyTables_stored
    (show 100 < 2 ^ 32 by decide)
    (.tail (.single (.globalGet (by decide) hget)) (.globalSet (by decide) hcan hset))⟩

end Shades
