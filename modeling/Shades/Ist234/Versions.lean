import Shades.Ist234.Operations
import Shades.Persistent

/-!
# Shades.Ist234.Versions

Trees that are reachable by insertions.  `ist234_insert` sets the data of the
key exactly if the update is not lost (`LosesUpdate`); the trees stay
well-formed in any case.
-/

namespace Shades

open Memory SortedItems

variable {κ : Type} [LinearOrder κ] {rank : Nat → κ}

/-- A call of `ist234_insert` on a root. -/
inductive IstInsertCall (rank : Nat → κ) :
    Memory → Persistent.Version Nat Unit → Memory → Persistent.Version Nat Unit → Prop
  | insert {m m' : Memory} {v : Persistent.Version Nat Unit} {key data q : Nat}
      (hcan : m.canAllocate ist234MaxAllocationInInsert)
      (hrun : ist234Insert m v.root key (rankCmp rank) none data = some (q, m')) :
      IstInsertCall rank m v m' ⟨q, ()⟩

/-- The histories of insertions that start with the empty tree. -/
def IstInsertRun (rank : Nat → κ) (m : Memory)
    (h : Persistent.History Memory Nat Unit) : Prop :=
  Persistent.Run Memory.Extends (IstInsertCall rank) m [⟨nullPtr, ()⟩] h

section calls

variable {m m' : Memory} {root key data : Nat} {items : List (κ × Nat)}

/-- A tree comes out of every insertion. -/
theorem IstRoot.insert_root (h : IstRoot rank m root items)
    (hcan : m.canAllocate ist234MaxAllocationInInsert) (key data : Nat) :
    ∃ q m', ist234Insert m root key (rankCmp rank) none data = some (q, m') ∧ m.Extends m' ∧
      ∃ items', IstRoot rank m' q items' := by
  obtain ⟨q, m', hrun, hext, -, hkeeps, hloses⟩ := h.insert hcan key data
  refine ⟨q, m', hrun, hext, ?_⟩
  by_cases hlost : LosesUpdate m.words root key (rankCmp rank) data
  · obtain ⟨rfl, rfl, -⟩ := hloses hlost
    exact ⟨items, h⟩
  · exact ⟨_, hkeeps hlost⟩

/-- A lost update leaves other data at the key. -/
theorem IstRoot.not_put (h : IstRoot rank m root items)
    (hother : ∃ y, y ≠ data ∧ items.lookup (rank key) = some y) :
    ¬ IstRoot rank m root (put (rank key) data items) := by
  intro hput
  obtain ⟨y, hne, hlookup⟩ := hother
  have hfind := h.find key
  have hfind' := hput.find key
  rw [lookup_put, if_pos rfl, hfind, hlookup] at hfind'
  simp only [Option.getD_some, Option.some.injEq] at hfind'
  exact hne hfind'

theorem istInsert_preserved : Persistent.Preserved Memory.Extends (IstInsertCall rank)
    (fun m v => ∃ items, IstRoot rank m v.root items) where
  frame := fun hext ⟨items, h⟩ => ⟨items, h.frame hext⟩
  call := by
    intro m m' v v' hcall ⟨items, h⟩
    cases hcall with
    | insert hcan hrun =>
      obtain ⟨q, m'', hrun', hext, hroot⟩ := h.insert_root hcan _ _
      rw [hrun] at hrun'
      obtain ⟨rfl, rfl⟩ := Prod.mk.inj (Option.some.inj hrun')
      exact ⟨hext, hroot⟩

end calls

/-- The way down ended at a key that does not get its data. -/
def IstDescent.loses (words : Nat → Nat) (data : Nat) : IstDescent → Bool
  | .key p i _ => i = 5 ∧ wordToPtr (words (p + 3)) = data ∧ wordToPtr (words (p + 6)) ≠ data
  | _ => false

instance (words : Nat → Nat) (root key : Nat) (cmp : CmpFun) (data : Nat) :
    Decidable (LosesUpdate words root key cmp data) :=
  decidable_of_iff ((istDescend words cmp key ist234PathSize [] root).any
      (IstDescent.loses words data) = true) <| by
    unfold LosesUpdate
    cases istDescend words cmp key ist234PathSize [] root with
    | none => simp
    | some r => cases r <;> simp [IstDescent.loses]

/-- Every tree that is reachable by insertions is well-formed, and
`ist234_insert` makes a well-formed tree out of it and leaves it alone.  The
new tree has the data at the key exactly if the update is not lost. -/
theorem ist234_insertions {m : Memory} {h : Persistent.History Memory Nat Unit}
    (hword : m.allocationPtr ≤ 2 ^ 30) (hrun : IstInsertRun rank m h) :
    ∀ v ∈ h.versions, ∃ items, IstRoot rank h.store v.root items ∧
      (∀ key, ist234Find h.store.words v.root key (rankCmp rank) =
        some ((items.lookup (rank key)).getD nullPtr)) ∧
      ∀ key data, h.store.canAllocate ist234MaxAllocationInInsert →
        ∃ q m', ist234Insert h.store v.root key (rankCmp rank) none data = some (q, m') ∧
          h.store.Extends m' ∧
          h.store.allocationPtr ≤ m'.allocationPtr + ist234MaxAllocationInInsert ∧
          IstRoot rank m' v.root items ∧ (∃ items', IstRoot rank m' q items') ∧
          (IstRoot rank m' q (put (rank key) data items) ↔
            ¬ LosesUpdate h.store.words v.root key (rankCmp rank) data) := by
  intro v hv
  have hinit : ∀ v ∈ [(⟨nullPtr, ()⟩ : Persistent.Version Nat Unit)],
      ∃ items, IstRoot rank m v.root items := by
    intro v hv
    obtain rfl := List.mem_singleton.mp hv
    exact ⟨[], .null hword⟩
  obtain ⟨items, hroot⟩ := istInsert_preserved.run hrun hinit v hv
  refine ⟨items, hroot, hroot.find, fun key data hcan => ?_⟩
  obtain ⟨q, m', hinsert, hext, hptr, hkeeps, hloses⟩ := hroot.insert hcan key data
  obtain ⟨q', m'', hinsert', -, hroot'⟩ := hroot.insert_root hcan key data
  rw [hinsert] at hinsert'
  obtain ⟨rfl, rfl⟩ := Prod.mk.inj (Option.some.inj hinsert')
  refine ⟨q, m', hinsert, hext, hptr, hroot.frame hext, hroot', fun hput hlost => ?_, hkeeps⟩
  obtain ⟨rfl, rfl, hother⟩ := hloses hlost
  exact hroot.not_put hother hput

/-- `ist234_insert` where it may be called. -/
def insertItem (x : Nat × Nat) (m : Memory) (root : Nat) : Option (Nat × Memory) :=
  if m.canAllocate ist234MaxAllocationInInsert then
    ist234Insert m root x.1 (rankCmp id) none x.2
  else none

/-- The keys from `1` to `4` are inserted, and then the key `5` into a leaf below
the root. -/
theorem ist234_insertions_five :
    ∃ h v q m', IstInsertRun id (roomyMemory []) h ∧ v ∈ Persistent.History.versions h ∧
      ist234Insert h.store v.root 5 (rankCmp id) none 15 = some (q, m') ∧
      ∀ key, ist234Find m'.words q key (rankCmp id) =
        if key = 5 then some 15 else ist234Find h.store.words v.root key (rankCmp id) := by
  have hlook : (((⟨roomyMemory [], [⟨nullPtr, ()⟩]⟩ : Persistent.History Memory Nat Unit).callAll
      insertItem (fun _ => id) [(1, 11), (2, 12), (3, 13), (4, 14)]).bind fun h =>
        h.versions.head?.map fun v => (decide (LosesUpdate h.store.words v.root 5 (rankCmp id) 15),
          decide (h.store.canAllocate ist234MaxAllocationInInsert))) = some (false, true) := by
    decide +kernel
  obtain ⟨h, hall, hlook⟩ := Option.bind_eq_some_iff.mp hlook
  obtain ⟨v, hv, hlook⟩ := Option.map_eq_some_iff.mp hlook
  obtain ⟨hkeeps, hcan⟩ := Prod.mk.inj hlook
  have hrun : IstInsertRun id (roomyMemory []) h := Persistent.Run.callAll (by
    intro x m v root m' hcall
    unfold insertItem at hcall
    split at hcall
    · exact .insert ‹_› hcall
    · cases hcall) .refl hall
  have hv := List.mem_of_head? hv
  obtain ⟨items, hroot, hfind, hinsert⟩ := ist234_insertions (by decide) hrun v hv
  obtain ⟨q, m', hcall, -, -, -, -, hput⟩ := hinsert 5 15 (of_decide_eq_true hcan)
  refine ⟨h, v, q, m', hrun, hv, hcall, fun key => ?_⟩
  rw [(hput.mpr (of_decide_eq_false hkeeps)).find, hfind, lookup_put]
  simp only [id_eq]
  split <;> rfl

/-- The data of the key `2` are to be those of the first key of the node: they
stay as they are. -/
theorem ist234Insert_loses_two :
    (do
      let (p, m) ← ist234Insert (smallMemory []) nullPtr 1 (rankCmp id) none 11
      let (p, m) ← ist234Insert m p 2 (rankCmp id) none 12
      let (p, m) ← ist234Insert m p 2 (rankCmp id) none 11
      ist234Find m.words p 2 (rankCmp id)) = some 12 ∧
    (put 2 11 (put 2 12 (put 1 11 []))).lookup 2 = some 11 := by
  decide

end Shades
