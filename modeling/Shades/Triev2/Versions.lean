import Mathlib.Logic.Relation
import Shades.Triev2.Delete

/-!
# Shades.Triev2.Versions

Tries are never changed in place: every insertion and deletion makes a new
version and the old ones stay as they are.  A history lists the roots of all
versions together with the finite maps they stand for; a step applies an
operation to any version of the history.

The maps are described without reference to the trie: a step updates the map of
the version at one key.
-/

namespace Shades

/-! ## finite maps -/

/-- A finite map from keys to data. -/
abbrev KeyMap := Nat → Option Nat

/-- The word for the data of a key, `NULL_WORD` if the key is absent. -/
def wordOf (x : Option Nat) : Nat := x.getD nullWord

/-- The data a word stands for. -/
def dataOf (w : Nat) : Option Nat := if w = nullWord then none else some w

/-- The words behind the keys of a map. -/
def KeyMap.words (g : KeyMap) (k : Nat) : Nat := wordOf (g k)

/-- Only data other than `NULL_WORD` is stored. -/
def KeyMap.Proper (g : KeyMap) : Prop := ∀ k, g k ≠ some nullWord

theorem KeyMap.words_update (g : KeyMap) (k : Nat) (x : Option Nat) :
    KeyMap.words (Function.update g k x) = Function.update (KeyMap.words g) k (wordOf x) := by
  funext κ
  unfold KeyMap.words
  by_cases h : κ = k
  · rw [h, Function.update_self, Function.update_self]
  · rw [Function.update_of_ne h, Function.update_of_ne h]

theorem wordOf_dataOf (w : Nat) : wordOf (dataOf w) = w := by
  unfold wordOf dataOf
  by_cases h : w = nullWord
  · rw [if_pos h, h]
    rfl
  · rw [if_neg h]
    rfl

theorem KeyMap.Proper.update {g : KeyMap} (h : g.Proper) (k : Nat) {x : Option Nat}
    (hx : x ≠ some nullWord) : KeyMap.Proper (Function.update g k x) := by
  intro κ
  by_cases hκ : κ = k
  · rw [hκ, Function.update_self]
    exact hx
  · rw [Function.update_of_ne hκ]
    exact h κ

/-- A key is in a proper map if its word is not `NULL_WORD`. -/
theorem KeyMap.Proper.isSome_eq {g : KeyMap} (h : g.Proper) (k : Nat) :
    (g k).isSome = decide (g.words k ≠ 0) := by
  unfold KeyMap.words wordOf
  cases hk : g k with
  | none => simp [nullWord]
  | some x =>
    have hx : x ≠ 0 := fun h0 => h k (by rw [hk, h0]; rfl)
    simp [hx]

/-! ## histories -/

/-- A root that was returned at some time, and the map it stands for. -/
structure Version where
  root : Nat
  map : KeyMap

/-- The memory with all versions made so far, the latest first. -/
structure History where
  memory : Memory
  versions : List Version

/-- The history that only has the empty trie. -/
def History.initial (m : Memory) : History := ⟨m, [⟨nullPtr, fun _ => none⟩]⟩

/-- What a call of `triev2_insert` has to store for a key: the data if the key
is absent, else the result of the update function on the old and the new data,
called when the new path is made. -/
def Inserted (m : Memory) (root key keyLength : Nat) (f : Option UpdateFunction) (data : Nat)
    (old : Option Nat) (x : Nat) : Prop :=
  match old with
  | none => x = data
  | some y => ∃ s, insertLoop 16 (insertStart m root key keyLength) = some s ∧
      x = (UpdateFunction.call f y data s.memory).1

/-- Without an update function it is the new data that are stored. -/
theorem Inserted.eq_data {m : Memory} {root key keyLength data x : Nat} {old : Option Nat}
    (h : Inserted m root key keyLength none data old x) : x = data := by
  cases old with
  | none => exact h
  | some y =>
    obtain ⟨s, -, hx⟩ := h
    exact hx

/-- What a call of `triev2_delete` has to leave for a key: nothing if the key
is absent or the result on the old data is `NULL_WORD`, else that result. -/
def Deleted (m : Memory) (f : Option UpdateFunction) (data : Nat) (old : Option Nat) :
    Option Nat :=
  old.bind fun y => dataOf (UpdateFunction.call f y data m).1

/-- A call of one of the operations on a version of the history, with keys of
`2 * n` bits, or anything else that allocates and fills cells. -/
inductive Step (n : Nat) : History → History → Prop
  | insert {h : History} {v : Version} {key data root' x : Nat} {f : Option UpdateFunction}
      {m' : Memory} (hv : v ∈ h.versions) (hdata : data ≠ nullWord)
      (hf : ∀ u ∈ f, ∀ x y m, (u.apply x y m).1 ≠ nullWord)
      (hcan : h.memory.canAllocate (triev2MaxAllocation + UpdateFunction.cost f))
      (hrun : triev2Insert h.memory v.root key (2 * n) f data = some (root', m'))
      (hx : Inserted h.memory v.root key (2 * n) f data (v.map (key % 4 ^ n)) x) :
      Step n h ⟨m', ⟨root', Function.update v.map (key % 4 ^ n) (some x)⟩ :: h.versions⟩
  | delete {h : History} {v : Version} {key data root' : Nat} {f : Option UpdateFunction}
      {m' : Memory} (hv : v ∈ h.versions)
      (hcan : h.memory.canAllocate (triev2MaxAllocation + UpdateFunction.cost f))
      (hrun : triev2Delete h.memory v.root key (2 * n) f data = some (root', m')) :
      Step n h ⟨m', ⟨root', Function.update v.map (key % 4 ^ n)
        (Deleted h.memory f data (v.map (key % 4 ^ n)))⟩ :: h.versions⟩
  | other {h : History} {m' : Memory} (hext : h.memory.Extends m') : Step n h ⟨m', h.versions⟩

/-- Every version of a history is a trie for its map. -/
def History.Sound (n : Nat) (h : History) : Prop :=
  ∀ v ∈ h.versions, v.map.Proper ∧ RootAt h.memory.words h.memory.Live n v.root v.map.words

section step

variable {n : Nat} (hn : n ≠ 0) (hn16 : n ≤ 16)

/-- The versions a step does not make are kept. -/
theorem History.Sound.extends {h : History} {m' : Memory} (hs : h.Sound n)
    (hext : h.memory.Extends m') :
    ∀ v ∈ h.versions, v.map.Proper ∧ RootAt m'.words m'.Live n v.root v.map.words :=
  fun v hv => ⟨(hs v hv).1, (hs v hv).2.frame hext.agree fun _ ha => hext.live ha⟩

theorem sound_initial (m : Memory) : (History.initial m).Sound n := by
  intro v hv
  obtain rfl : v = ⟨nullPtr, fun _ => none⟩ := by simpa [History.initial] using hv
  exact ⟨fun _ => Option.some_ne_none _ |>.symm, Or.inl ⟨rfl, fun _ _ => rfl⟩⟩

include hn hn16

/-- `triev2_insert` on a version of a history. -/
theorem History.Sound.insert {h : History} (hs : h.Sound n) {v : Version} (hv : v ∈ h.versions)
    (key : Nat) {data : Nat} {f : Option UpdateFunction} (hdata : data ≠ nullWord)
    (hf : ∀ u ∈ f, ∀ x y m, (u.apply x y m).1 ≠ nullWord)
    (hcan : h.memory.canAllocate (triev2MaxAllocation + UpdateFunction.cost f)) :
    ∃ root' m' x, triev2Insert h.memory v.root key (2 * n) f data = some (root', m') ∧
      h.memory.Extends m' ∧
      Inserted h.memory v.root key (2 * n) f data (v.map (key % 4 ^ n)) x ∧ x ≠ nullWord ∧
      RootAt m'.words m'.Live n root'
        (KeyMap.words (Function.update v.map (key % 4 ^ n) (some x))) ∧
      (v.map (key % 4 ^ n) = some x → root' = v.root) := by
  obtain ⟨hproper, hroot⟩ := hs v hv
  obtain ⟨root', m', x, hrun, hext, -, hx, hroot', hsame⟩ :=
    triev2Insert_spec key hn hn16 hroot hcan hdata fun u hu x m => hf u hu x _ m
  have hinserted : Inserted h.memory v.root key (2 * n) f data (v.map (key % 4 ^ n)) x := by
    unfold InsertValue KeyMap.words wordOf at hx
    unfold Inserted
    cases hk : v.map (key % 4 ^ n) with
    | none => simpa [hk, nullWord] using hx
    | some y =>
      have hy : y ≠ 0 := fun h0 => hproper _ (by rw [hk, h0]; rfl)
      simpa [hk, hy] using hx
  refine ⟨root', m', x, hrun, hext, hinserted, ?_, ?_, ?_⟩
  · unfold Inserted at hinserted
    cases hk : v.map (key % 4 ^ n) with
    | none =>
      rw [hk] at hinserted
      exact hinserted ▸ hdata
    | some y =>
      rw [hk] at hinserted
      obtain ⟨s, -, hx⟩ := hinserted
      cases f with
      | none => exact hx ▸ hdata
      | some u => exact hx ▸ hf u rfl _ _ _
  · rw [KeyMap.words_update]
    exact hroot'
  · intro hk
    exact hsame (by rw [KeyMap.words, hk]; rfl)

/-- `triev2_delete` on a version of a history. -/
theorem History.Sound.delete {h : History} (hs : h.Sound n) {v : Version} (hv : v ∈ h.versions)
    (key data : Nat) {f : Option UpdateFunction}
    (hcan : h.memory.canAllocate (triev2MaxAllocation + UpdateFunction.cost f)) :
    ∃ root' m', triev2Delete h.memory v.root key (2 * n) f data = some (root', m') ∧
      h.memory.Extends m' ∧
      RootAt m'.words m'.Live n root' (KeyMap.words (Function.update v.map (key % 4 ^ n)
        (Deleted h.memory f data (v.map (key % 4 ^ n))))) ∧
      (Deleted h.memory f data (v.map (key % 4 ^ n)) = v.map (key % 4 ^ n) → root' = v.root) := by
  obtain ⟨hproper, hroot⟩ := hs v hv
  obtain ⟨root', m', hrun, hext, -, hroot', hsame⟩ :=
    triev2Delete_spec key data hn hn16 hroot hcan
  have hvalue : deleteValue h.memory f data (v.map.words (key % 4 ^ n)) =
      wordOf (Deleted h.memory f data (v.map (key % 4 ^ n))) := by
    unfold deleteValue Deleted KeyMap.words
    cases hk : v.map (key % 4 ^ n) with
    | none => rfl
    | some y =>
      have hy : y ≠ 0 := fun h0 => hproper _ (by rw [hk, h0]; rfl)
      rw [Option.bind_some, wordOf_dataOf]
      exact if_neg hy
  rw [hvalue] at hroot' hsame
  refine ⟨root', m', hrun, hext, ?_, fun hk => hsame ?_⟩
  · rw [KeyMap.words_update]
    exact hroot'
  · rw [hk, KeyMap.words]

/-- What one step preserves. -/
theorem History.Sound.step {h h' : History} (hs : h.Sound n) (hstep : Step n h h') :
    h'.Sound n := by
  cases hstep with
  | insert hv hdata hf hcan hrun hx =>
    rename_i v key data root' x f m'
    obtain ⟨root'', m'', x', hrun', hext, hx', hx0, hroot, -⟩ :=
      hs.insert hn hn16 hv key hdata hf hcan
    obtain ⟨rfl, rfl⟩ : root'' = root' ∧ m'' = m' := by
      have heq := hrun'.symm.trans hrun
      simpa using heq
    obtain rfl : x' = x := by
      unfold Inserted at hx hx'
      cases hk : v.map (key % 4 ^ n) with
      | none =>
        rw [hk] at hx hx'
        exact hx'.trans hx.symm
      | some y =>
        rw [hk] at hx hx'
        obtain ⟨s, hs, hx⟩ := hx
        obtain ⟨s', hs', hx'⟩ := hx'
        obtain rfl : s' = s := Option.some.inj (hs'.symm.trans hs)
        exact hx'.trans hx.symm
    intro w hw
    rcases List.mem_cons.mp hw with rfl | hw
    · exact ⟨(hs v hv).1.update _ fun h0 => hx0 (Option.some.inj h0), hroot⟩
    · exact hs.extends hext w hw
  | delete hv hcan hrun =>
    rename_i v key data root' f m'
    obtain ⟨root'', m'', hrun', hext, hroot, -⟩ := hs.delete hn hn16 hv key data hcan
    obtain ⟨rfl, rfl⟩ : root'' = root' ∧ m'' = m' := by
      have heq := hrun'.symm.trans hrun
      simpa using heq
    intro w hw
    rcases List.mem_cons.mp hw with rfl | hw
    · refine ⟨(hs v hv).1.update _ fun h0 => ?_, hroot⟩
      unfold Deleted dataOf at h0
      cases hk : v.map (key % 4 ^ n) with
      | none => simp [hk] at h0
      | some y =>
        rw [hk, Option.bind_some] at h0
        split at h0
        · cases h0
        · next hne => exact hne (Option.some.inj h0)
    · exact hs.extends hext w hw
  | other hext => exact hs.extends hext

/-- What a whole run preserves. -/
theorem sound_of_run {m : Memory} {h : History}
    (hrun : Relation.ReflTransGen (Step n) (History.initial m) h) : h.Sound n := by
  induction hrun with
  | refl => exact sound_initial m
  | tail _ hstep ih => exact ih.step hn hn16 hstep

/-- The items are inserted in the latest version, one after the other, as long as there is
room. -/
def History.insertAll (n : Nat) : List (Nat × Nat) → History → Option History
  | [], h => some h
  | (key, data) :: items, h => do
    let v ← h.versions.head?
    assert (h.memory.canAllocate (triev2MaxAllocation + UpdateFunction.cost none))
    let (root, m) ← triev2Insert h.memory v.root key (2 * n) none data
    insertAll n items ⟨m, ⟨root, Function.update v.map (key % 4 ^ n) (some data)⟩ :: h.versions⟩

/-- They make a run. -/
theorem run_insertAll {m : Memory} {h h' : History} {v : Version} {items : List (Nat × Nat)}
    (hrun : Relation.ReflTransGen (Step n) (History.initial m) h)
    (hitems : ∀ e ∈ items, e.2 ≠ nullWord) (hv : h.versions.head? = some v)
    (hall : h.insertAll n items = some h') :
    Relation.ReflTransGen (Step n) (History.initial m) h' ∧ ∃ v' ∈ h'.versions,
      v'.map = items.foldl
        (fun (g : KeyMap) e => Function.update g (e.1 % 4 ^ n) (some e.2)) v.map := by
  induction items generalizing h v with
  | nil =>
    obtain rfl := Option.some.inj hall
    exact ⟨hrun, v, List.mem_of_head? hv, rfl⟩
  | cons e items ih =>
    unfold History.insertAll at hall
    rw [hv, Option.bind_eq_bind, Option.bind_some] at hall
    obtain ⟨_, hassert, hall⟩ := Option.bind_eq_some_iff.mp hall
    obtain ⟨⟨root, m'⟩, hinsert, hall⟩ := Option.bind_eq_some_iff.mp hall
    have hcan := of_assert hassert
    have hdata := hitems e List.mem_cons_self
    have hv' := List.mem_of_head? hv
    have hf : ∀ u ∈ (none : Option UpdateFunction), ∀ x y m, (u.apply x y m).1 ≠ nullWord :=
      fun u hu => by cases hu
    obtain ⟨root', m'', x, hrun', -, hx, -⟩ :=
      (sound_of_run hn hn16 hrun).insert hn hn16 hv' e.1 hdata hf hcan
    obtain rfl := hx.eq_data
    exact ih (hrun.tail (.insert hv' hdata hf hcan hinsert hx))
      (fun e he => hitems e (List.mem_cons_of_mem _ he)) rfl hall

end step

/-- The map with four keys of eight bits.  Their paths part at several nodes. -/
def fourKeys : KeyMap :=
  [(0x12, 7), (0x13, 8), (0x52, 9), (0x1a, 10)].foldl
    (fun (g : KeyMap) e => Function.update g (e.1 % 4 ^ 4) (some e.2)) fun _ => none

/-- A history in which they were inserted, with room for another operation. -/
theorem exists_fourKeys : ∃ h v,
    Relation.ReflTransGen (Step 4) (History.initial (roomyMemory [])) h ∧
      v ∈ History.versions h ∧ v.map = fourKeys ∧
      h.memory.canAllocate (triev2MaxAllocation + UpdateFunction.cost none) := by
  have hlook : ((History.initial (roomyMemory [])).insertAll 4
      [(0x12, 7), (0x13, 8), (0x52, 9), (0x1a, 10)]).map (fun h =>
        decide (h.memory.canAllocate (triev2MaxAllocation + UpdateFunction.cost none))) =
      some true := by
    decide +kernel
  obtain ⟨h, hall, hcan⟩ := Option.map_eq_some_iff.mp hlook
  obtain ⟨hrun, v, hv, hmap⟩ :=
    run_insertAll (n := 4) (by decide) (by decide) .refl (by decide) rfl hall
  exact ⟨h, v, hrun, hv, hmap, of_decide_eq_true hcan⟩

/-- In every history of insertions and deletions with keys of `2 * n` bits,
every version is looked up as its finite map says, both operations can be
called again on any version, and they return its very root if they change
nothing. -/
theorem triev2_histories {n : Nat} (hn : n ≠ 0) (hn16 : n ≤ 16) {m : Memory} {h : History}
    (hrun : Relation.ReflTransGen (Step n) (History.initial m) h) :
    (∀ v ∈ h.versions, ∀ key,
      triev2Find h.memory.words v.root key (2 * n) = some (wordOf (v.map (key % 4 ^ n))) ∧
      triev2Contains h.memory.words v.root key (2 * n) =
        some (v.map (key % 4 ^ n)).isSome) ∧
    (∀ v ∈ h.versions, ∀ (key data : Nat) (f : Option UpdateFunction), data ≠ nullWord →
      (∀ u ∈ f, ∀ x y m, (u.apply x y m).1 ≠ nullWord) →
      h.memory.canAllocate (triev2MaxAllocation + UpdateFunction.cost f) →
      ∃ root' m' x, triev2Insert h.memory v.root key (2 * n) f data = some (root', m') ∧
        Inserted h.memory v.root key (2 * n) f data (v.map (key % 4 ^ n)) x ∧
        (v.map (key % 4 ^ n) = some x → root' = v.root)) ∧
    (∀ v ∈ h.versions, ∀ (key data : Nat) (f : Option UpdateFunction),
      h.memory.canAllocate (triev2MaxAllocation + UpdateFunction.cost f) →
      ∃ root' m', triev2Delete h.memory v.root key (2 * n) f data = some (root', m') ∧
        (Deleted h.memory f data (v.map (key % 4 ^ n)) = v.map (key % 4 ^ n) →
          root' = v.root)) := by
  have hs := sound_of_run hn hn16 hrun
  refine ⟨fun v hv key => ⟨?_, ?_⟩, fun v hv key data f hdata hf hcan => ?_,
    fun v hv key data f hcan => ?_⟩
  · exact triev2Find_eq (hs v hv).2 hn hn16 key
  · rw [(hs v hv).1.isSome_eq]
    exact triev2Contains_eq (hs v hv).2 hn hn16 key
  · obtain ⟨root', m', x, hrun, -, hx, -, -, hsame⟩ := hs.insert hn hn16 hv key hdata hf hcan
    exact ⟨root', m', x, hrun, hx, hsame⟩
  · obtain ⟨root', m', hrun, -, -, hsame⟩ := hs.delete hn hn16 hv key data hcan
    exact ⟨root', m', hrun, hsame⟩

/-- Four keys are looked up, and the data of one of them are inserted once more. -/
theorem triev2_histories_four : ∃ h v, v ∈ History.versions h ∧
    Relation.ReflTransGen (Step 4) (History.initial (roomyMemory [])) h ∧
    (∀ e ∈ [(0x12, 7), (0x13, 8), (0x52, 9), (0x1a, 10)],
      triev2Find h.memory.words v.root e.1 8 = some e.2) ∧
    ∃ m', triev2Insert h.memory v.root 0x13 8 none 8 = some (v.root, m') := by
  obtain ⟨h, v, hrun, hv, hmap, hcan⟩ := exists_fourKeys
  obtain ⟨hfind, hinsert, -⟩ := triev2_histories (n := 4) (by decide) (by decide) hrun
  obtain ⟨root', m', x, hcall, hx, hsame⟩ := hinsert v hv 0x13 8 none (by decide)
    (fun u hu => by cases hu) hcan
  refine ⟨h, v, hv, hrun, fun e he => ?_, m', ?_⟩
  · have hdata : fourKeys (e.1 % 4 ^ 4) = some e.2 := by
      revert e
      decide
    rw [(hfind v hv e.1).1, hmap, hdata]
    rfl
  · obtain rfl := hx.eq_data
    rw [hcall, hsame (by rw [hmap]; rfl)]

end Shades
