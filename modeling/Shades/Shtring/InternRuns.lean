import Mathlib.Logic.Relation
import Shades.Shtring.Intern
import Shades.Shtring.Slice

/-!
# Shades.Shtring.InternRuns

Whole runs of `shtring_intern`, from the empty intern root on.  The state
records the text of every shtring that was interned and the number it got.

As long as `hash_chunk` counts the bytes of the shtrings rightly, numbers and
texts determine each other.  It does not for a part of a chunk that starts
within a word: the bytes hashed from that word are those after the start, but
it is the number of those before the start that is taken off the length.  Two
shtrings with the same text then get different numbers.
-/

namespace Shades

/-! ## runs -/

/-- The memory, the intern root, and the texts interned so far with the numbers
they got, the latest first. -/
structure InternState where
  memory : Memory
  root : Nat
  log : List (List Nat × Nat)

/-- The empty intern root. -/
def InternState.initial (m : Memory) : InternState := ⟨m, nullPtr, []⟩

/-- A call of `shtring_intern` for a shtring whose window `ok` admits, or
anything else that allocates and fills cells. -/
inductive InternStep (ok : List Chunk → Nat → Nat → Prop) : InternState → InternState → Prop
  | intern {st : InternState} {s : Interned} {r : ShtringInternResult} {m' : Memory}
      (hs : ShtringAt st.memory.words st.memory.Live s.shtr s.chunks s.off s.len)
      (hok : ok s.chunks s.off s.len)
      (hcan : st.memory.canAllocate shtringInternMaxAllocation)
      (hrun : shtringIntern st.memory st.root s.shtr = some (r, m')) :
      InternStep ok st ⟨m', r.newInternRoot, (s.text, r.internedShtringId) :: st.log⟩
  | other {st : InternState} {m' : Memory} (hext : st.memory.Extends m') :
      InternStep ok st { st with memory := m' }

/-- What is expected of a state that was reached by interning shtrings. -/
structure InternedRight (ok : List Chunk → Nat → Nat → Prop) (st : InternState) : Prop where
  /-- the same number if and only if the same text -/
  ids : ∀ t₁ id₁ t₂ id₂, (t₁, id₁) ∈ st.log → (t₂, id₂) ∈ st.log → (id₁ = id₂ ↔ t₁ = t₂)
  /-- the numbers given out are `1`, …, the count in the root -/
  count : ∀ id, (∃ t, (t, id) ∈ st.log) ↔ 1 ≤ id ∧ id ≤ internCount st.memory.words st.root
  /-- a number is looked up as a shtring with the text that was interned -/
  lookup : ∀ t id, (t, id) ∈ st.log → ∃ s : Interned,
    shtringLookupByInternId st.memory.words st.root id = some s.shtr ∧
    ShtringAt st.memory.words st.memory.Live s.shtr s.chunks s.off s.len ∧ s.text = t
  /-- a text that was interned gets its number again, and nothing changes -/
  again : ∀ (s : Interned) id, (s.text, id) ∈ st.log →
    ShtringAt st.memory.words st.memory.Live s.shtr s.chunks s.off s.len →
    ok s.chunks s.off s.len →
    ∃ shtr, shtringIntern st.memory st.root s.shtr = some (⟨st.root, shtr, id, false⟩, st.memory)
  /-- as long as there are numbers left, every shtring gets one -/
  interns : ∀ s : Interned,
    ShtringAt st.memory.words st.memory.Live s.shtr s.chunks s.off s.len →
    ok s.chunks s.off s.len → st.memory.canAllocate shtringInternMaxAllocation →
    internCount st.memory.words st.root < 2 ^ 32 - 1 →
    ∃ r m', shtringIntern st.memory st.root s.shtr = some (r, m')

/-! ## the invariant -/

/-- The root holds the entries, and the log has exactly their texts. -/
structure InternState.Sound (st : InternState) (entries : List Interned) : Prop where
  root : InternAt st.memory.words st.memory.Live st.root entries
  length : entries.length < 2 ^ 32
  log : ∀ t id, (t, id) ∈ st.log ↔ ∃ i e, entries[i]? = some e ∧ t = e.text ∧ id = i + 1

theorem internSound_initial (m : Memory) : (InternState.initial m).Sound [] where
  root := .inl ⟨rfl, rfl⟩
  length := by decide
  log := by simp [InternState.initial]

/-- What one step preserves. -/
theorem InternState.Sound.step {st st' : InternState} {entries : List Interned}
    (hs : st.Sound entries) (hstep : InternStep Internable st st') :
    st.memory.Extends st'.memory ∧ ∃ entries', st'.Sound entries' := by
  cases hstep with
  | other hext =>
    exact ⟨hext, entries, { hs with root := hs.root.frame hext.agree fun _ => hext.live }⟩
  | @intern s r m' hshtr hok hcan hrun =>
    rcases shtringIntern_spec hs.root ⟨hshtr, hok⟩ with
      ⟨e, i, hget, htext, hfound⟩ | ⟨hnew, hfull, hinsert⟩
    · obtain ⟨rfl, rfl⟩ := Prod.mk.inj (Option.some.inj (hfound.symm.trans hrun))
      refine ⟨.refl _, entries, { hs with log := fun t id => ?_ }⟩
      rw [List.mem_cons, hs.log]
      constructor
      · rintro (heq | h)
        · obtain ⟨rfl, rfl⟩ := Prod.mk.inj heq
          exact ⟨i, e, hget, htext.symm, rfl⟩
        · exact h
      · exact .inr
    · have hcount : entries.length < 2 ^ 32 - 1 := by
        by_contra hge
        rw [hfull (by omega)] at hrun
        cases hrun
      obtain ⟨root', m'', hinsert, hext, hroot'⟩ := hinsert hcount hcan
      obtain ⟨rfl, rfl⟩ := Prod.mk.inj (Option.some.inj (hinsert.symm.trans hrun))
      refine ⟨hext, entries ++ [s], ⟨hroot', ?_, fun t id => ?_⟩⟩
      · rw [List.length_append, List.length_singleton]
        omega
      · rw [List.mem_cons, hs.log]
        constructor
        · rintro (heq | ⟨i, e, hget, rfl, rfl⟩)
          · obtain ⟨rfl, rfl⟩ := Prod.mk.inj heq
            exact ⟨_, s, List.getElem?_concat_length, rfl, rfl⟩
          · exact ⟨i, e, by rw [List.getElem?_append_left (List.getElem?_eq_some_iff.mp hget).1, hget],
              rfl, rfl⟩
        · rintro ⟨i, e, hget, rfl, rfl⟩
          rcases Nat.lt_or_ge i entries.length with hlt | hge
          · rw [List.getElem?_append_left hlt] at hget
            exact .inr ⟨i, e, hget, rfl, rfl⟩
          · have hi := (List.getElem?_eq_some_iff.mp hget).1
            obtain rfl : i = entries.length := by
              rw [List.length_append, List.length_singleton] at hi
              omega
            rw [List.getElem?_concat_length] at hget
            obtain rfl := Option.some.inj hget
            exact .inl rfl

/-- What a whole run preserves. -/
theorem internSound_of_run {m : Memory} {st : InternState}
    (hrun : Relation.ReflTransGen (InternStep Internable) (InternState.initial m) st) :
    m.Extends st.memory ∧ ∃ entries, st.Sound entries := by
  induction hrun with
  | refl => exact ⟨.refl m, [], internSound_initial m⟩
  | tail _ hstep ih =>
    obtain ⟨hext, _, hs⟩ := ih
    obtain ⟨hext', hs'⟩ := hs.step hstep
    exact ⟨hext.trans hext', hs'⟩

/-- Shtrings are interned one after the other, as long as there is room. -/
def InternState.internAll : List Interned → InternState → Option InternState
  | [], st => some st
  | s :: ss, st => do
    assert (st.memory.canAllocate shtringInternMaxAllocation)
    let (r, m) ← shtringIntern st.memory st.root s.shtr
    internAll ss ⟨m, r.newInternRoot, (s.text, r.internedShtringId) :: st.log⟩

/-- They are a run if the shtrings were there before. -/
theorem InternState.internAll_run {m : Memory} {ss : List Interned} {st st' : InternState}
    (hrun : Relation.ReflTransGen (InternStep Internable) (InternState.initial m) st)
    (hss : ∀ s ∈ ss, InternableAt m.words m.Live s) (hall : st.internAll ss = some st') :
    Relation.ReflTransGen (InternStep Internable) (InternState.initial m) st' := by
  induction ss generalizing st with
  | nil =>
    obtain rfl := Option.some.inj hall
    exact hrun
  | cons s ss ih =>
    obtain ⟨_, hassert, hall⟩ := Option.bind_eq_some_iff.mp hall
    obtain ⟨⟨r, m'⟩, hintern, hall⟩ := Option.bind_eq_some_iff.mp hall
    obtain ⟨hext, -⟩ := internSound_of_run hrun
    have hs := hss s List.mem_cons_self
    have hs' := hs.shtring.frame hext.agree fun _ => hext.live
    exact ih (hrun.tail (.intern hs' hs.internable (of_assert hassert) hintern))
      (fun s hs => hss s (List.mem_cons_of_mem _ hs)) hall

/-! ## the result -/

/-- In every run that interns shtrings whose parts `hash_chunk` counts rightly,
numbers and texts determine each other. -/
theorem shtring_intern_runs {m : Memory} {st : InternState}
    (hrun : Relation.ReflTransGen (InternStep Internable) (InternState.initial m) st) :
    InternedRight Internable st := by
  obtain ⟨-, entries, hs⟩ := internSound_of_run hrun
  refine ⟨?_, ?_, ?_, ?_, ?_⟩
  · intro t₁ id₁ t₂ id₂ h₁ h₂
    obtain ⟨i, e, hi, rfl, rfl⟩ := (hs.log _ _).mp h₁
    obtain ⟨j, e', hj, rfl, rfl⟩ := (hs.log _ _).mp h₂
    constructor
    · intro hid
      obtain rfl : i = j := Nat.succ.inj hid
      rw [Option.some.inj (hi.symm.trans hj)]
    · intro htext
      rw [hs.root.index_eq hi hj htext]
  · intro id
    rw [internCount_eq hs.root]
    constructor
    · rintro ⟨t, h⟩
      obtain ⟨i, e, hi, rfl, rfl⟩ := (hs.log _ _).mp h
      have := (List.getElem?_eq_some_iff.mp hi).1
      omega
    · rintro ⟨hpos, hle⟩
      have hi : id - 1 < entries.length := by omega
      exact ⟨_, (hs.log _ _).mpr ⟨id - 1, _, List.getElem?_eq_getElem hi, rfl, by omega⟩⟩
  · intro t id h
    obtain ⟨i, e, hi, rfl, rfl⟩ := (hs.log _ _).mp h
    have hlt := (List.getElem?_eq_some_iff.mp hi).1
    have hlength := hs.length
    refine ⟨e, shtringLookupByInternId_eq hs.root hi (by omega), ?_, rfl⟩
    exact (hs.root.shtrings e (List.mem_of_getElem? hi)).shtring
  · intro s id h hshtr hok
    obtain ⟨i, e, hi, htext, rfl⟩ := (hs.log _ _).mp h
    rcases shtringIntern_spec hs.root ⟨hshtr, hok⟩ with ⟨e', j, hj, htext', hfound⟩ | ⟨hnew, -⟩
    · obtain rfl : j = i := hs.root.index_eq hj hi (htext'.trans htext)
      exact ⟨_, hfound⟩
    · exact absurd htext.symm (hnew e (List.mem_of_getElem? hi))
  · intro s hshtr hok hcan hcount
    rw [internCount_eq hs.root] at hcount
    rcases shtringIntern_spec hs.root ⟨hshtr, hok⟩ with ⟨e, i, -, -, hfound⟩ | ⟨-, -, hinsert⟩
    · exact ⟨_, _, hfound⟩
    · obtain ⟨root', m', hrun, -⟩ := hinsert hcount hcan
      exact ⟨_, _, hrun⟩

/-! ## shtrings with the same text in different chunks -/

/-- A memory with the shtring at `20`, the second byte of the chunk "xa" at
`10`, and the shtring at `40`, the whole of the chunk "a" at `30`. -/
def twoShtrings : Memory := smallMemory [
    (10, CellType.shtringChunk.header + 2),
    (11, 0x78610000),
    (20, CellType.shtring.header),
    (21, 1),
    (22, 1),
    (23, 1),
    (24, ptrToWord 10),
    (30, CellType.shtringChunk.header + 1),
    (31, 0x61000000),
    (40, CellType.shtring.header),
    (41, 0),
    (42, 1),
    (43, 1),
    (44, ptrToWord 30)]

theorem twoShtrings_whole :
    ShtringAt twoShtrings.words twoShtrings.Live 40 [(30, [0x61])] 0 1 :=
  .of_chunk (e := 100) (fun _ ha => .inl ha) (by decide) (by decide) (by decide) (by decide)

theorem twoShtrings_part :
    ShtringAt twoShtrings.words twoShtrings.Live 20 [(10, [0x78, 0x61])] 1 1 :=
  .of_chunk (e := 100) (fun _ ha => .inl ha) (by decide) (by decide) (by decide) (by decide)

theorem twoShtrings_internable : Internable [(30, [0x61])] 0 1 where
  aligned := by decide
  le_max := by decide

/-- "abcd" and "cd" in a tree of two chunks. -/
def abcd : Interned := ⟨40, [(10, [0x61, 0x62]), (14, [0x63, 0x64])], 0, 4⟩

def cd : Interned := ⟨60, [(10, [0x61, 0x62]), (14, [0x63, 0x64])], 2, 2⟩

theorem abcd_internable : InternableAt twoChunks.words twoChunks.Live abcd :=
  ⟨twoChunks_abcd, by decide, by decide⟩

theorem cd_internable : InternableAt twoChunks.words twoChunks.Live cd :=
  ⟨twoChunks_cd, by decide, by decide⟩

/-- The whole chunk "a" is interned first. -/
theorem twoShtrings_first : ∃ root m, twoShtrings.Extends m ∧
    shtringIntern twoShtrings nullPtr 40 = some (⟨root, 40, 1, true⟩, m) := by
  have hat : InternableAt twoShtrings.words twoShtrings.Live ⟨40, [(30, [0x61])], 0, 1⟩ :=
    ⟨twoShtrings_whole, twoShtrings_internable⟩
  rcases shtringIntern_spec (show InternAt _ _ nullPtr [] from .inl ⟨rfl, rfl⟩) hat with
    ⟨e, i, hget, -⟩ | ⟨-, -, hinsert⟩
  · cases hget
  · obtain ⟨root, m, hrun, hext, -⟩ := hinsert (by decide) (by decide)
    exact ⟨root, m, hext, hrun⟩

/-- "abcd", "cd" and "abcd" once more are interned. -/
theorem shtring_intern_runs_three : ∃ st : InternState,
    st.log = [([0x61, 0x62, 0x63, 0x64], 1), ([0x63, 0x64], 2), ([0x61, 0x62, 0x63, 0x64], 1)] ∧
    InternedRight Internable st := by
  have hlook : ((InternState.initial twoChunks).internAll [abcd, cd, abcd]).map (·.log) =
      some [([0x61, 0x62, 0x63, 0x64], 1), ([0x63, 0x64], 2), ([0x61, 0x62, 0x63, 0x64], 1)] := by
    decide +kernel
  obtain ⟨st, hall, hlog⟩ := Option.map_eq_some_iff.mp hlook
  refine ⟨st, hlog, shtring_intern_runs (InternState.internAll_run .refl (fun s hs => ?_) hall)⟩
  rcases List.mem_cons.mp hs with rfl | hs
  · exact abcd_internable
  · rcases List.mem_cons.mp hs with rfl | hs
    · exact cd_internable
    · obtain rfl := List.mem_singleton.mp hs
      exact abcd_internable

/-- The second byte of the chunk "xa" has the same text as the chunk "a", but
gets another number. -/
theorem shtring_intern_same_text_twice : ∃ st : InternState,
    Relation.ReflTransGen (InternStep fun _ _ _ => True) (InternState.initial twoShtrings) st ∧
    ([0x61], 1) ∈ st.log ∧ ([0x61], 2) ∈ st.log ∧ ¬ InternedRight (fun _ _ _ => True) st := by
  obtain ⟨root, m, hext, hfirst⟩ := twoShtrings_first
  have hboth : ((shtringIntern twoShtrings nullPtr 40).bind fun r =>
      (shtringIntern r.2 r.1.newInternRoot 20).map fun r => r.1.internedShtringId) = some 2 := by
    decide +kernel
  have hroom : ((shtringIntern twoShtrings nullPtr 40).map fun r =>
      decide (r.2.canAllocate shtringInternMaxAllocation)) = some true := by
    decide +kernel
  rw [hfirst] at hboth hroom
  obtain ⟨⟨r, m'⟩, hsecond, hid⟩ := Option.map_eq_some_iff.mp hboth
  have hrun := (Relation.ReflTransGen.single
    (show InternStep (fun _ _ _ => True) (InternState.initial twoShtrings) _ from
      .intern (s := ⟨40, [(30, [0x61])], 0, 1⟩) twoShtrings_whole trivial (by decide)
        hfirst)).tail (InternStep.intern (s := ⟨20, [(10, [0x78, 0x61])], 1, 1⟩)
      (twoShtrings_part.frame hext.agree fun _ => hext.live) trivial
        (of_decide_eq_true (Option.some.inj hroom)) hsecond)
  have hlog₁ : ([0x61], 1) ∈ [(Interned.text ⟨20, [(10, [0x78, 0x61])], 1, 1⟩, r.internedShtringId),
      (Interned.text ⟨40, [(30, [0x61])], 0, 1⟩, 1)] := List.mem_cons_of_mem _ List.mem_cons_self
  have hlog₂ : ([0x61], 2) ∈ [(Interned.text ⟨20, [(10, [0x78, 0x61])], 1, 1⟩, r.internedShtringId),
      (Interned.text ⟨40, [(30, [0x61])], 0, 1⟩, 1)] := by
    rw [show r.internedShtringId = 2 from hid]
    exact List.mem_cons_self
  refine ⟨_, hrun, hlog₁, hlog₂, fun hright => ?_⟩
  exact absurd ((hright.ids _ _ _ _ hlog₁ hlog₂).mpr rfl) (by decide)

end Shades
