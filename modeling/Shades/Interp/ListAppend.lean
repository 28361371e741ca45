import Shades.Interp.RunCont

/-!
# Shades.Interp.ListAppend

The instruction `list_append` of `insn-def.h`, which runs many times.

In its first pass it goes down the prefix, 20 cells at a time, and puts the
places it starts from on a stack, which is a list.  In its second pass it copies
the cells from these places in front of the suffix, the last ones first.  After
every 20 cells it starts its byte code over, so the frame and `accu` have to
tell how far it is.
-/

namespace Shades

/-! ## the instruction -/

/-- What an instruction does next: it goes on with another instruction, or
starts byte code over. -/
inductive Outcome where
  | next (s : Machine)
  | runCont (s : Machine)

/-- `LIST_APPEND_STEP_LENGTH`. -/
def listAppendStepLength : Nat := 20

/-- The loop of the first pass. -/
def firstPass (words : Nat → Nat) : Nat → Nat → Option Nat
  | 0, x => some x
  | i + 1, x => if x = nullWord then some x else do firstPass words i (← wcdr words x)

/-- The variables of the second pass.  `pp` refers to a word, or to
`first_new_p` when it is `none`. -/
structure CopyState where
  memory : Memory
  firstNewP : Nat
  pp : Option Nat

/-- `*pp = x`. -/
def CopyState.assign (c : CopyState) (x : Nat) : CopyState :=
  match c.pp with
  | none => { c with firstNewP := x }
  | some a => { c with memory := c.memory.set a x }

/-- The loop of the second pass. -/
def secondPass : Nat → Nat → CopyState → Option CopyState
  | 0, _, c => some c
  | i + 1, oldP, c =>
    if oldP = nullPtr then some c
    else do
      let (newP, m) := c.memory.allocate 3 .list
      let m := m.set (newP + 1) (m.words (oldP + 1))
      let c := { c with memory := m }.assign (ptrToWord newP)
      let next ← wcdr c.memory.words (ptrToWord oldP)
      secondPass i (wordToPtr next) { c with pp := some (newP + 2) }

/-- `list_append`, with the prefix in `accu`, the suffix in `sp[-1]` and the
stack in `sp[-2]`. -/
def Exec.listAppend (s : Machine) : Option Outcome :=
  if s.accu ≠ nullWord then do
    let (x, m) := wcons s.memory s.accu (s.memory.words (s.sp - 2))
    let m := m.set (s.sp - 2) x
    let rest ← firstPass m.words listAppendStepLength s.accu
    some (.runCont { s with memory := m, accu := rest })
  else if s.memory.words (s.sp - 2) = nullWord then
    some (.next { s with accu := s.memory.words (s.sp - 1), sp := s.sp - 2, pc := s.pc + 1 })
  else do
    let oldP := wordToPtr (← wcar s.memory.words (s.memory.words (s.sp - 2)))
    let c ← secondPass listAppendStepLength oldP ⟨s.memory, nullWord, none⟩
    let c := c.assign (c.memory.words (s.sp - 1))
    let m := c.memory.set (s.sp - 1) c.firstNewP
    let m := m.set (s.sp - 2) (← wcdr m.words (m.words (s.sp - 2)))
    if m.words (s.sp - 2) ≠ nullWord then some (.runCont { s with memory := m })
    else
      some (.next { s with
        memory := m, accu := m.words (s.sp - 1), sp := s.sp - 2, pc := s.pc + 1 })

open Exec (listAppend)

/-! ## one pass -/

section lists

variable {words : Nat → Nat} {S T : Nat → Prop} {x p : Nat} {zs ws : List Nat}

/-- The first pass goes down the list. -/
theorem firstPass_eq (h : ListAt words S x zs) (n : Nat) :
    ∃ y, firstPass words n x = some y ∧ ListAt words S y (zs.drop n) := by
  induction n generalizing x zs with
  | zero => exact ⟨x, rfl, h⟩
  | succ n ih =>
    by_cases hx : x = nullWord
    · refine ⟨x, by rw [firstPass, if_pos hx], ?_⟩
      obtain rfl := h.eq_nullWord_iff.mp hx
      exact h
    · obtain ⟨head, tail, rfl⟩ := List.exists_cons_of_ne_nil (mt h.eq_nullWord_iff.mpr hx)
      obtain ⟨y, hy, hrest⟩ := h.wcdr_eq
      obtain ⟨z, hz, hdrop⟩ := ih hrest
      refine ⟨z, ?_, hdrop⟩
      rw [firstPass, if_neg hx, hy]
      exact hz

/-- A fresh list cell. -/
theorem allocate_list {m : Memory} (hcan : m.canAllocate 3) :
    (m.allocate 3 .list).1 ≠ nullPtr ∧ m.Allocates (m.allocate 3 .list).2 ∧
      cellType ((m.allocate 3 .list).2.words (m.allocate 3 .list).1) = CellType.list.code ∧
      ∀ i < 3, ¬ m.Live ((m.allocate 3 .list).1 + i) := by
  have hend := m.firstGenerationEnd_pos
  have hallocates := Memory.allocates_allocate .list (by decide) hcan
  unfold Memory.canAllocate at hcan
  rw [Memory.allocate_fst]
  refine ⟨by unfold nullPtr; omega, hallocates, ?_, fun i hi => by unfold Memory.Live; omega⟩
  rw [Memory.allocate_words, if_pos rfl]
  decide

/-- `WCONS` puts an item in front of a list. -/
theorem wcons_region {m : Memory} {a d : Nat} (hcan : m.canAllocate 3)
    (hd : ListAt m.words S d zs) (hS : ∀ b, S b → m.Live b ∧ T b)
    (hT : ∀ b, ¬ m.Live b → (wcons m a d).2.Live b → T b) :
    m.Allocates (wcons m a d).2 ∧ (wcons m a d).2.allocationPtr = m.allocationPtr - 3 ∧
      (wcons m a d).1 ≠ nullWord ∧
      ListAt (wcons m a d).2.words T (wcons m a d).1 (a :: zs) := by
  obtain ⟨hr, hallocates, htype, hfresh⟩ := allocate_list hcan
  have hallocationPtr : (wcons m a d).2.allocationPtr = m.allocationPtr - 3 := rfl
  have hlive (i : Nat) : (wcons m a d).2.Live (m.allocationPtr - 3 + i) :=
    .inr (hallocationPtr ▸ Nat.le_add_right _ _)
  have hwords (b : Nat) : (wcons m a d).2.words b = if b = m.allocationPtr - 3 + 2 then d
      else if b = m.allocationPtr - 3 + 1 then a else (m.allocate 3 .list).2.words b := rfl
  have hall : m.Allocates (wcons m a d).2 := by
    unfold Memory.canAllocate at hcan
    refine (hallocates.set ⟨?_, ?_⟩ a).set ⟨?_, ?_⟩ d
    · rw [Memory.allocate_allocationPtr]
      omega
    · omega
    · rw [Memory.set_allocationPtr, Memory.allocate_allocationPtr]
      omega
    · omega
  have hagree := (hall.extends (by
    unfold Memory.canAllocate at hcan
    rw [hall.firstGenerationEnd_eq, hallocationPtr]
    omega)).agree
  refine ⟨hall, hallocationPtr, fun h => hr ((ptrToWord_eq_zero _).mp h), ?_⟩
  have hcar : (wcons m a d).2.words (m.allocationPtr - 3 + 1) = a := by
    rw [hwords, if_neg (by omega), if_pos rfl]
  have hcdr : (wcons m a d).2.words (m.allocationPtr - 3 + 2) = d := by rw [hwords, if_pos rfl]
  refine .cons hr ?_ (fun i hi => hT _ (hfresh i hi) (hlive i)) hcar hcdr ?_
  · rw [hwords, if_neg (by omega), if_neg (by omega)]
    exact htype
  · exact hd.frame (hagree.mono fun b hb => (hS b hb).1) fun b hb => (hS b hb).2

/-- The word that the hole of one state holds in another state. -/
def CopyState.slot (c d : CopyState) : Nat :=
  match c.pp with
  | none => d.firstNewP
  | some a => d.memory.words a

/-- What `n` turns of the second pass do with the list `zs`: the hole of the
first state receives copies of the cells, and their end is the hole of the
second state. -/
structure Copied (c c' : CopyState) (n : Nat) (zs : List Nat) : Prop where
  allocationPtr_le : c'.memory.allocationPtr ≤ c.memory.allocationPtr
  used : c.memory.allocationPtr ≤ c'.memory.allocationPtr + 3 * n
  firstGenerationEnd_eq : c'.memory.firstGenerationEnd = c.memory.firstGenerationEnd
  agree : ∀ a, c.memory.Live a → c.pp ≠ some a → c'.memory.words a = c.memory.words a
  first : c.pp ≠ none → c'.firstNewP = c.firstNewP ∧ c'.pp ≠ none
  hole : c'.pp = c.pp ∨ ∃ a, c'.pp = some a ∧ ¬ c.memory.Live a ∧ c'.memory.Live a
  result : ∀ (T : Nat → Prop) (x : Nat) (ws : List Nat),
    (∀ a, ¬ c.memory.Live a → c'.memory.Live a → T a) →
      ListAt (c'.assign x).memory.words T x ws →
        ListAt (c'.assign x).memory.words T (c.slot (c'.assign x)) (zs.take n ++ ws)

@[simp] theorem CopyState.assign_pp (c : CopyState) (x : Nat) : (c.assign x).pp = c.pp := by
  cases h : c.pp <;> simp [assign, h]

@[simp] theorem CopyState.assign_allocationPtr (c : CopyState) (x : Nat) :
    (c.assign x).memory.allocationPtr = c.memory.allocationPtr := by
  cases h : c.pp <;> simp [assign, h]

@[simp] theorem CopyState.assign_firstGenerationEnd (c : CopyState) (x : Nat) :
    (c.assign x).memory.firstGenerationEnd = c.memory.firstGenerationEnd := by
  cases h : c.pp <;> simp [assign, h]

/-- The hole holds the word assigned. -/
theorem CopyState.slot_assign (c : CopyState) (x : Nat) : c.slot (c.assign x) = x := by
  cases h : c.pp <;> simp [slot, assign, h]

/-- Other words stay. -/
theorem CopyState.assign_words {c : CopyState} {x a : Nat} (ha : c.pp ≠ some a) :
    (c.assign x).memory.words a = c.memory.words a := by
  cases h : c.pp with
  | none => simp [assign, h]
  | some b =>
    have hne : a ≠ b := fun hab => ha (hab ▸ h)
    simp [assign, h, hne]

/-- No turn. -/
theorem Copied.refl {c : CopyState} {n : Nat} {zs : List Nat} (h : zs.take n = []) :
    Copied c c n zs where
  allocationPtr_le := le_rfl
  used := Nat.le_add_right _ _
  firstGenerationEnd_eq := rfl
  agree := fun _ _ _ => rfl
  first := fun h => ⟨rfl, h⟩
  hole := .inl rfl
  result := by
    intro T x ws _ hx
    rw [h, List.nil_append, CopyState.slot_assign]
    exact hx

theorem ListAt.ptrToWord_wordToPtr (h : ListAt words S x zs) : ptrToWord (wordToPtr x) = x := by
  cases h with
  | nil => rfl
  | cons => rw [wordToPtr_ptrToWord]

/-- The state after the first turn of the second pass. -/
def CopyState.turn (c : CopyState) (car : Nat) : CopyState :=
  { { c with memory :=
        (c.memory.allocate 3 .list).2.set (c.memory.allocationPtr - 3 + 1) car }.assign
      (ptrToWord (c.memory.allocationPtr - 3)) with
    pp := some (c.memory.allocationPtr - 3 + 2) }

section turn

variable {c c' : CopyState} {car n : Nat}

theorem CopyState.turn_allocationPtr :
    (c.turn car).memory.allocationPtr = c.memory.allocationPtr - 3 :=
  assign_allocationPtr _ _

theorem CopyState.turn_firstGenerationEnd :
    (c.turn car).memory.firstGenerationEnd = c.memory.firstGenerationEnd :=
  assign_firstGenerationEnd _ _

/-- The words after a turn: the new cell, but for its end. -/
theorem CopyState.turn_words {a : Nat} (ha : c.pp ≠ some a) :
    (c.turn car).memory.words a = if a = c.memory.allocationPtr - 3 + 1 then car
      else if a = c.memory.allocationPtr - 3 then CellType.list.header else c.memory.words a :=
  assign_words (c := { c with memory :=
    (c.memory.allocate 3 .list).2.set (c.memory.allocationPtr - 3 + 1) car }) ha

theorem CopyState.turn_slot : c.slot (c.turn car) = ptrToWord (c.memory.allocationPtr - 3) := by
  cases h : c.pp <;> simp [slot, turn, assign, h]

theorem CopyState.turn_live {a : Nat} (ha : c.memory.Live a) : (c.turn car).memory.Live a := by
  unfold Memory.Live at *
  rw [turn_allocationPtr, turn_firstGenerationEnd]
  omega

variable (hcan : c.memory.canAllocate (3 * (n + 1)))

include hcan

theorem CopyState.turn_fresh {i : Nat} (hi : i < 3) :
    ¬ c.memory.Live (c.memory.allocationPtr - 3 + i) := by
  unfold Memory.canAllocate at hcan
  unfold Memory.Live
  omega

/-- A live word that is not the hole stays in a turn. -/
theorem CopyState.turn_agree {a : Nat} (ha : c.memory.Live a) (hpp : c.pp ≠ some a) :
    (c.turn car).memory.words a = c.memory.words a := by
  have h1 : a ≠ c.memory.allocationPtr - 3 + 1 := fun h => turn_fresh hcan (by decide) (h ▸ ha)
  have h0 : a ≠ c.memory.allocationPtr - 3 := fun h =>
    turn_fresh (i := 0) hcan (by decide) (h ▸ ha)
  rw [turn_words hpp, if_neg h1, if_neg h0]

/-- A turn and the turns after it. -/
theorem Copied.step (hhole : ∀ a, c.pp = some a → c.memory.Live a)
    (h : Copied (c.turn car) c' n zs) : Copied c c' (n + 1) (car :: zs) := by
  have hap := h.allocationPtr_le
  have hused := h.used
  have hend := h.firstGenerationEnd_eq
  have hpp : (c.turn car).pp = some (c.memory.allocationPtr - 3 + 2) := rfl
  rw [CopyState.turn_allocationPtr] at hap hused
  rw [CopyState.turn_firstGenerationEnd] at hend
  have hfirst := h.first (by rw [hpp]; exact Option.some_ne_none _)
  have hlive {a : Nat} (ha : (c.turn car).memory.Live a) : c'.memory.Live a := by
    unfold Memory.Live at *
    rw [CopyState.turn_allocationPtr, CopyState.turn_firstGenerationEnd] at ha
    omega
  -- what was there after the turn is there in the end, but for the holes
  have hkeep {a : Nat} (ha : (c.turn car).memory.Live a)
      (hne : a ≠ c.memory.allocationPtr - 3 + 2) (x : Nat) :
      (c'.assign x).memory.words a = (c.turn car).memory.words a := by
    have hturn : (c.turn car).pp ≠ some a := by
      rw [hpp]
      exact fun heq => hne (Option.some.inj heq).symm
    rw [CopyState.assign_words, h.agree a ha hturn]
    rcases h.hole with heq | ⟨b, hb, hb', -⟩
    · rwa [heq]
    · rw [hb]
      exact fun heq => hb' (Option.some.inj heq ▸ ha)
  have hnew {i : Nat} : (c.turn car).memory.Live (c.memory.allocationPtr - 3 + i) :=
    .inr (by rw [CopyState.turn_allocationPtr]; omega)
  have hnot {i : Nat} (hi : i < 3) : c.pp ≠ some (c.memory.allocationPtr - 3 + i) := fun heq =>
    CopyState.turn_fresh hcan hi (hhole _ heq)
  refine
    { allocationPtr_le := by omega
      used := by omega
      firstGenerationEnd_eq := hend
      agree := fun a ha hne => ?_
      first := fun hne => ?_
      hole := ?_
      result := fun T x ws hT hx => ?_ }
  · have hne2 : a ≠ c.memory.allocationPtr - 3 + 2 := fun heq =>
      CopyState.turn_fresh hcan (by decide) (heq ▸ ha)
    rw [h.agree a (CopyState.turn_live ha), CopyState.turn_agree hcan ha hne]
    rw [hpp]
    exact fun heq => hne2 (Option.some.inj heq).symm
  · refine ⟨hfirst.1.trans ?_, hfirst.2⟩
    obtain ⟨b, hb⟩ := Option.ne_none_iff_exists'.mp hne
    simp [CopyState.turn, CopyState.assign, hb]
  · refine .inr ?_
    rcases h.hole with heq | ⟨b, hb, hb', hb''⟩
    · exact ⟨_, heq.trans hpp, CopyState.turn_fresh hcan (by decide), hlive hnew⟩
    · exact ⟨b, hb, fun h => hb' (CopyState.turn_live h), hb''⟩
  · have hrest := h.result T x ws (fun a ha ha' => hT a (fun h =>
      ha (CopyState.turn_live h)) ha') hx
    have hslot : (c.turn car).slot (c'.assign x) =
        (c'.assign x).memory.words (c.memory.allocationPtr - 3 + 2) := rfl
    have hcslot : c.slot (c'.assign x) = ptrToWord (c.memory.allocationPtr - 3) := by
      rw [← @CopyState.turn_slot c car]
      unfold CopyState.slot
      cases hc : c.pp with
      | none =>
        obtain ⟨b, hb⟩ := Option.ne_none_iff_exists'.mp hfirst.2
        simp only [CopyState.assign, hb]
        exact hfirst.1
      | some b =>
        have hb := hhole b hc
        exact hkeep (CopyState.turn_live hb) (fun heq =>
          CopyState.turn_fresh hcan (by decide) (heq ▸ hb)) x
    have hcar : (c'.assign x).memory.words (c.memory.allocationPtr - 3 + 1) = car := by
      rw [hkeep hnew (by omega), CopyState.turn_words (hnot (by decide)), if_pos rfl]
    have htype : (c'.assign x).memory.words (c.memory.allocationPtr - 3) =
        CellType.list.header := by
      have hkeep0 := hkeep (hnew (i := 0)) (by omega) x
      have hnot0 := hnot (i := 0) (by decide)
      rw [Nat.add_zero] at hkeep0 hnot0
      rw [hkeep0, CopyState.turn_words hnot0, if_neg (by omega), if_pos rfl]
    rw [hslot] at hrest
    have hne : c.memory.allocationPtr - 3 ≠ nullPtr := by
      unfold Memory.canAllocate at hcan
      have hpos := c.memory.firstGenerationEnd_pos
      unfold nullPtr
      omega
    have hcell := ListAt.cons hne (by rw [htype]; decide)
      (fun i hi => hT _ (CopyState.turn_fresh hcan hi) (hlive hnew)) hcar rfl hrest
    rw [hcslot]
    exact hcell

end turn

/-- The loop of the second pass, turn by turn. -/
theorem secondPass_turn {n oldP car next : Nat} {c : CopyState} (hnull : oldP ≠ nullPtr)
    (hcar : (c.memory.allocate 3 .list).2.words (oldP + 1) = car)
    (hcdr : wcdr (c.turn car).memory.words (ptrToWord oldP) = some next) :
    secondPass (n + 1) oldP c = secondPass n (wordToPtr next) (c.turn car) := by
  subst hcar
  rw [secondPass, if_neg hnull]
  have hbind := congrArg (fun next : Option Nat => next.bind fun next =>
    secondPass n (wordToPtr next) (c.turn ((c.memory.allocate 3 .list).2.words (oldP + 1)))) hcdr
  exact hbind

/-- The loop of the second pass copies the first cells of a list. -/
theorem secondPass_spec {n oldP : Nat} {c : CopyState}
    (hlist : ListAt c.memory.words S (ptrToWord oldP) zs)
    (hS : ∀ a, S a → c.memory.Live a ∧ c.pp ≠ some a) (hhole : ∀ a, c.pp = some a → c.memory.Live a)
    (hcan : c.memory.canAllocate (3 * n)) :
    ∃ c', secondPass n oldP c = some c' ∧ Copied c c' n zs := by
  induction n generalizing oldP c zs with
  | zero => exact ⟨c, rfl, .refl rfl⟩
  | succ n ih =>
    by_cases hnull : oldP = nullPtr
    · refine ⟨c, by rw [secondPass, if_pos hnull], .refl ?_⟩
      have hzs := hlist.eq_nullWord_iff.mp ((ptrToWord_eq_zero oldP).mpr hnull)
      rw [hzs, List.take_nil]
    · have hx : ptrToWord oldP ≠ nullWord := fun h => hnull ((ptrToWord_eq_zero oldP).mp h)
      obtain ⟨p, hp, -, htype, hregion, hrest, hzs⟩ := hlist.uncons hx
      obtain rfl := ptrToWord_inj.mp hp
      have hturn {i : Nat} (hi : i < 3) :
          (c.turn (c.memory.words (oldP + 1))).memory.words (oldP + i) = c.memory.words (oldP + i) :=
        CopyState.turn_agree hcan (hS _ (hregion i hi)).1 (hS _ (hregion i hi)).2
      have hframe : ListAt (c.turn (c.memory.words (oldP + 1))).memory.words S
          (ptrToWord (wordToPtr (c.memory.words (oldP + 2)))) zs.tail := by
        rw [hrest.ptrToWord_wordToPtr]
        exact hrest.frame (fun a ha => CopyState.turn_agree hcan (hS a ha).1 (hS a ha).2)
          fun _ ha => ha
      have hpp : (c.turn (c.memory.words (oldP + 1))).pp =
          some (c.memory.allocationPtr - 3 + 2) := rfl
      have hcan' : (c.turn (c.memory.words (oldP + 1))).memory.canAllocate (3 * n) := by
        unfold Memory.canAllocate at hcan ⊢
        rw [CopyState.turn_allocationPtr, CopyState.turn_firstGenerationEnd]
        omega
      obtain ⟨c', hrun, hcopied⟩ := ih hframe
        (fun a ha => ⟨CopyState.turn_live (hS a ha).1, fun heq =>
          CopyState.turn_fresh hcan (by decide) (Option.some.inj (hpp.symm.trans heq) ▸ (hS a ha).1)⟩)
        (fun a ha => .inr (by
          rw [← Option.some.inj (hpp.symm.trans ha), CopyState.turn_allocationPtr]
          omega))
        hcan'
      refine ⟨c', ?_, hzs ▸ hcopied.step hcan hhole⟩
      have hcar : (c.memory.allocate 3 .list).2.words (oldP + 1) = c.memory.words (oldP + 1) := by
        rw [Memory.allocate_words, if_neg]
        exact fun heq => CopyState.turn_fresh (i := 0) hcan (by decide)
          (heq ▸ (hS _ (hregion 1 (by decide))).1)
      have hcdr : wcdr (c.turn (c.memory.words (oldP + 1))).memory.words (ptrToWord oldP) =
          some (c.memory.words (oldP + 2)) := by
        have h0 := hturn (i := 0) (by decide)
        simp only [Nat.add_zero] at h0
        unfold wcdr cdr
        rw [wordToPtr_ptrToWord, h0, assert_true htype, hturn (by decide)]
        rfl
      rw [secondPass_turn hnull hcar hcdr]
      exact hrun

/-- Writing outside the cells of a list. -/
theorem ListAt.set {m : Memory} {a y : Nat} (h : ListAt m.words S x zs) (ha : ¬ S a) :
    ListAt (m.set a y).words S x zs := by
  refine h.frame (fun b hb => ?_) fun _ hb => hb
  have hne : b ≠ a := fun heq => ha (heq ▸ hb)
  rw [Memory.set_words, if_neg hne]

end lists

/-! ## the state between two runs -/

/-- Byte code that begins with `list_append`. -/
structure AppendCode (s : Machine) : Prop where
  first : s.memory.words (s.bcode + 7) = Insn.listAppend.code
  room : 60 ≤ s.maxAllocation
  depth : 2 ≤ s.stackDepth
  accu : ∃ type, s.accuType = some type ∧ type.points = true
  suffix : ∃ type, s.slotType (s.stackDepth - 1) = some type ∧ type.points = true
  stack : ∃ type, s.slotType (s.stackDepth - 2) = some type ∧ type.points = true

/-- The places from which the first pass went on, the last one first. -/
def Blocks (words : Nat → Nat) (S : Nat → Prop) (xs : List Nat) : List Nat → Prop
  | [] => True
  | p :: ps => ListAt words S p (xs.drop (20 * ps.length)) ∧ Blocks words S xs ps

/-- The number of places. -/
def appendBlocks (xs : List Nat) : Nat := (xs.length + 19) / 20

/-- `SUFFIX`. -/
def Machine.suffix (s : Machine) : Nat := s.pick (s.stackDepth - 1)

/-- `PREFIX_STACK`. -/
def Machine.prefixStack (s : Machine) : Nat := s.pick (s.stackDepth - 2)

/-- What `list_append` finds after `k` runs, when it appends `ys` to `xs`. -/
inductive Appending (xs ys : List Nat) (s : Machine) : Nat → Prop
  | first {ps : List Nat} (hstack : ListAt s.memory.words s.Apart s.prefixStack ps)
      (hblocks : Blocks s.memory.words s.Apart xs ps) (hne : s.accu ≠ nullWord)
      (haccu : ListAt s.memory.words s.Apart s.accu (xs.drop (20 * ps.length)))
      (hsuffix : ListAt s.memory.words s.Apart s.suffix ys) : Appending xs ys s ps.length
  | second {ps : List Nat} (hstack : ListAt s.memory.words s.Apart s.prefixStack ps)
      (hblocks : Blocks s.memory.words s.Apart xs ps) (haccu : s.accu = nullWord)
      (hle : ps.length ≤ appendBlocks xs) (hdone : ps = [] → xs = [])
      (hsuffix : ListAt s.memory.words s.Apart s.suffix (xs.drop (20 * ps.length) ++ ys)) :
      Appending xs ys s (2 * appendBlocks xs - ps.length)

section moves

variable {words words' : Nat → Nat} {S S' : Nat → Prop} {xs ps : List Nat}

theorem Blocks.frame (h : Blocks words S xs ps) (hagree : AgreeOn S words words')
    (hS : ∀ a, S a → S' a) : Blocks words' S' xs ps := by
  induction ps with
  | nil => trivial
  | cons p ps ih => exact ⟨h.1.frame hagree hS, ih h.2⟩

theorem Blocks.moved {place : Nat → Nat} {roots : WordType → Nat → Prop}
    (h : Blocks words S xs ps) (hmoved : Moved place roots words words' S')
    (hps : ∀ p ∈ ps, Reached words roots .tagged p) :
    Blocks words' S' (xs.map (movedWord place .tagged)) (ps.map (movedWord place .tagged)) := by
  induction ps with
  | nil => trivial
  | cons p ps ih =>
    rw [List.forall_mem_cons] at hps
    have hp := h.1.moved hmoved hps.1 rfl
    rw [List.map_cons]
    refine ⟨?_, ih h.2 hps.2⟩
    rwa [List.length_map, ← List.map_drop]

end moves

section machine

variable {s s' : Machine} {xs ys : List Nat} {k : Nat}

theorem AppendCode.sameFrame (h : AppendCode s) (hf : SameFrame s s') : AppendCode s' where
  first := (hf.code 7 s.mem_first).trans h.first
  room := by
    rw [hf.maxAllocation_eq]
    exact h.room
  depth := by
    rw [hf.stackDepth_eq]
    exact h.depth
  accu := by
    rw [hf.accuType_eq]
    exact h.accu
  suffix := by
    have hdepth := h.depth
    rw [hf.stackDepth_eq, hf.slotType_eq (by omega)]
    exact h.suffix
  stack := by
    have hdepth := h.depth
    rw [hf.stackDepth_eq, hf.slotType_eq (by omega)]
    exact h.stack

/-- The state is found again in another frame with the same words on its stack
and the same lists. -/
theorem Appending.transfer (h : Appending xs ys s k) (hagree : AgreeOn s.Apart s.memory.words
    s'.memory.words) (hapart : ∀ a, s.Apart a → s'.Apart a) (haccu : s'.accu = s.accu)
    (hstack : s'.prefixStack = s.prefixStack) (hsuffix : s'.suffix = s.suffix) :
    Appending xs ys s' k := by
  cases h with
  | first hps hblocks hne hprefix hys =>
    refine .first (hstack ▸ hps.frame hagree hapart) (hblocks.frame hagree hapart)
      (haccu ▸ hne) (haccu ▸ hprefix.frame hagree hapart) (hsuffix ▸ hys.frame hagree hapart)
  | second hps hblocks hnull hle hdone hys =>
    exact .second (hstack ▸ hps.frame hagree hapart) (hblocks.frame hagree hapart)
      (haccu.trans hnull) hle hdone (hsuffix ▸ hys.frame hagree hapart)

/-- A commit moves the lists. -/
theorem Appending.moved {held : Held} {place : Nat → Nat} (h : Appending xs ys s k)
    (hs : s.Framed) (hcode : AppendCode s) (haway : Away place held s s') :
    Appending (xs.map (movedWord place .tagged)) (ys.map (movedWord place .tagged)) s' k := by
  have hdepth := hcode.depth
  obtain ⟨accuType, haccuType, haccuPoints⟩ := hcode.accu
  obtain ⟨suffixType, hsuffixType, hsuffixPoints⟩ := hcode.suffix
  obtain ⟨stackType, hstackType, hstackPoints⟩ := hcode.stack
  have hframe := haway.sameFrame hs
  have haccu := haway.accu accuType haccuType
  have hsuffix : s'.suffix = movedWord place suffixType s.suffix := by
    unfold Machine.suffix
    rw [hframe.stackDepth_eq]
    exact haway.pick_eq hs (by omega) hsuffixType hsuffixPoints
  have hstack : s'.prefixStack = movedWord place stackType s.prefixStack := by
    unfold Machine.prefixStack
    rw [hframe.stackDepth_eq]
    exact haway.pick_eq hs (by omega) hstackType hstackPoints
  have hsuffixReached : Reached s.memory.words (s.roots held) suffixType s.suffix :=
    hs.pick_reached (by omega) hsuffixType hsuffixPoints
  have hstackReached : Reached s.memory.words (s.roots held) stackType s.prefixStack :=
    hs.pick_reached (by omega) hstackType hstackPoints
  have hlists {ps : List Nat} (hps : ListAt s.memory.words s.Apart s.prefixStack ps)
      (hblocks : Blocks s.memory.words s.Apart xs ps) :
      ListAt s'.memory.words s'.Apart s'.prefixStack (ps.map (movedWord place .tagged)) ∧
        Blocks s'.memory.words s'.Apart (xs.map (movedWord place .tagged))
          (ps.map (movedWord place .tagged)) := by
    rw [hstack]
    exact ⟨hps.moved haway.cells hstackReached hstackPoints,
      hblocks.moved haway.cells (hps.items_reached hstackReached hstackPoints)⟩
  cases h with
  | @first ps hps hblocks hne hprefix hys =>
    obtain ⟨hps', hblocks'⟩ := hlists hps hblocks
    have hprefix' : ListAt s'.memory.words s'.Apart s'.accu
        ((xs.map (movedWord place .tagged)).drop
          (20 * (ps.map (movedWord place .tagged)).length)) := by
      rw [haccu, List.length_map, ← List.map_drop]
      exact hprefix.moved haway.cells (Machine.accu_reached haccuType) haccuPoints
    have hne' : s'.accu ≠ nullWord := by
      rw [Ne, hprefix'.eq_nullWord_iff, List.length_map, ← List.map_drop, List.map_eq_nil_iff,
        ← hprefix.eq_nullWord_iff]
      exact hne
    have hfirst := Appending.first hps' hblocks' hne' hprefix'
      (hsuffix ▸ hys.moved haway.cells hsuffixReached hsuffixPoints)
    rwa [List.length_map] at hfirst
  | @second ps hps hblocks hnull hle hdone hys =>
    obtain ⟨hps', hblocks'⟩ := hlists hps hblocks
    have hys' : ListAt s'.memory.words s'.Apart s'.suffix
        ((xs.map (movedWord place .tagged)).drop
          (20 * (ps.map (movedWord place .tagged)).length) ++ ys.map (movedWord place .tagged)) := by
      rw [hsuffix, List.length_map, ← List.map_drop, ← List.map_append]
      exact hys.moved haway.cells hsuffixReached hsuffixPoints
    have hcount : appendBlocks (xs.map (movedWord place .tagged)) = appendBlocks xs := by
      unfold appendBlocks
      rw [List.length_map]
    have hsecond := Appending.second hps' hblocks'
      (haccu.trans (by rw [hnull, movedWord_nullWord]))
      (by rw [List.length_map, hcount]; exact hle)
      (fun h => by rw [hdone (List.map_eq_nil_iff.mp h), List.map_nil]) hys'
    rwa [List.length_map, hcount] at hsecond

/-! ## one run -/

/-- Where the words on the stack are. -/
theorem Machine.Entered.slot_words (hs : s.Entered) (hcode : AppendCode s) :
    s.memory.words (s.sp - 1) = s.suffix ∧ s.memory.words (s.sp - 2) = s.prefixStack ∧
      s.cont + 3 ≤ s.sp - 2 ∧ s.sp - 2 + 2 ≤ s.cont + s.frameSize ∧ s.sp - 1 = s.sp - 2 + 1 := by
  have hdepth := hcode.depth
  have hsize := hs.framed.depth_le
  have hsp := hs.sp
  unfold Machine.stackStart at hsp
  unfold Machine.suffix Machine.prefixStack Machine.pick Machine.stackStart
  rw [show s.cont + 3 + (s.stackDepth - 1) = s.sp - 1 by omega,
    show s.cont + 3 + (s.stackDepth - 2) = s.sp - 2 by omega]
  exact ⟨rfl, rfl, by omega, by omega, by omega⟩

/-- They belong to the frame. -/
theorem Machine.Entered.slot_live (hs : s.Entered) (hcode : AppendCode s) :
    s.memory.Live (s.sp - 1) ∧ s.memory.Live (s.sp - 2) := by
  obtain ⟨-, -, hlow, hhigh, hnext⟩ := hs.slot_words hcode
  constructor
  · have h := hs.framed.live (s.sp - 1 - s.cont) (by omega)
    rwa [show s.cont + (s.sp - 1 - s.cont) = s.sp - 1 by omega] at h
  · have h := hs.framed.live (s.sp - 2 - s.cont) (by omega)
    rwa [show s.cont + (s.sp - 2 - s.cont) = s.sp - 2 by omega] at h

/-- A run that allocates and writes to its two words on the stack. -/
theorem Machine.Entered.keeps (hs : s.Entered) (hcode : AppendCode s) (hcont : s'.cont = s.cont)
    (hlive : ∀ a, s.memory.Live a → s'.memory.Live a)
    (hagree : ∀ a, s.memory.Live a → a ≠ s.sp - 1 → a ≠ s.sp - 2 →
      s'.memory.words a = s.memory.words a) : Keeps s s' where
  cont := hcont
  live := hlive
  agree := by
    intro a ha hout
    obtain ⟨-, -, hlow, hhigh, hnext⟩ := hs.slot_words hcode
    exact hagree a ha (by omega) (by omega)

/-- The words on the stack after a run. -/
theorem Keeps.slot_words (h : Keeps s s') (hs : s.Entered) (hcode : AppendCode s) :
    s'.suffix = s'.memory.words (s.sp - 1) ∧ s'.prefixStack = s'.memory.words (s.sp - 2) := by
  have hdepth := hcode.depth
  have hsp := hs.sp
  have heq := (h.sameFrame hs.framed).stackDepth_eq
  unfold Machine.stackStart at hsp
  unfold Machine.suffix Machine.prefixStack Machine.pick Machine.stackStart
  rw [heq, h.cont, show s.cont + 3 + (s.stackDepth - 1) = s.sp - 1 by omega,
    show s.cont + 3 + (s.stackDepth - 2) = s.sp - 2 by omega]
  exact ⟨rfl, rfl⟩

/-- A run of the first pass. -/
theorem listAppend_first (hs : s.Entered) (hcode : AppendCode s) {ps : List Nat}
    (hstack : ListAt s.memory.words s.Apart s.prefixStack ps)
    (hblocks : Blocks s.memory.words s.Apart xs ps) (hne : s.accu ≠ nullWord)
    (haccu : ListAt s.memory.words s.Apart s.accu (xs.drop (20 * ps.length)))
    (hsuffix : ListAt s.memory.words s.Apart s.suffix ys) :
    ∃ s', listAppend s = some (.runCont s') ∧ Keeps s s' ∧ Appending xs ys s' (ps.length + 1) ∧
      ps.length + 1 < 2 * appendBlocks xs := by
  obtain ⟨hsuffixWord, hstackWord, hlow, hhigh, hnext⟩ := hs.slot_words hcode
  have hlive := hs.slot_live hcode
  have hcan : s.memory.canAllocate 3 :=
    Memory.canAllocate_mono hs.room (le_trans (by decide) hcode.room)
  obtain ⟨x, m, hcons⟩ : ∃ x m, wcons s.memory s.accu s.prefixStack = (x, m) := ⟨_, _, rfl⟩
  have hmlive {a : Nat} (ha : s.memory.Live a) : m.Live a := by
    rw [show m = (wcons s.memory s.accu s.prefixStack).2 by rw [hcons]]
    exact ha.imp_right fun ha => le_trans (Nat.sub_le _ _) ha
  have hspec := @wcons_region s.Apart (fun a => m.Live a ∧ (a < s.cont ∨ s.cont + s.frameSize ≤ a)) ps
    s.memory s.accu s.prefixStack hcan hstack (fun a ha => ⟨ha.1, hmlive ha.1, ha.2⟩)
    fun a ha ha' => by
      rw [hcons] at ha'
      refine ⟨ha', ?_⟩
      by_contra hin
      obtain ⟨i, rfl⟩ : ∃ i, a = s.cont + i := ⟨a - s.cont, by omega⟩
      exact ha (hs.framed.live i (by omega))
  rw [hcons] at hspec
  obtain ⟨hallocates, hap, hx, hlist⟩ := hspec
  have hextends := hallocates.extends (by
    unfold Memory.canAllocate at hcan
    rw [hallocates.firstGenerationEnd_eq, hap]
    omega)
  obtain ⟨m', hm'⟩ : ∃ m', m' = m.set (s.sp - 2) x := ⟨_, rfl⟩
  have hagree : ∀ a, s.memory.Live a → a ≠ s.sp - 2 → m'.words a = s.memory.words a := by
    intro a ha hne
    rw [hm', Memory.set_words, if_neg hne]
    exact hextends.agree a ha
  have hkeep (rest : Nat) : Keeps s { s with memory := m', accu := rest } :=
    hs.keeps hcode rfl (fun a ha => by rw [hm']; exact hmlive ha) fun a ha _ hne => hagree a ha hne
  have hagreeApart : AgreeOn s.Apart s.memory.words m'.words := (hkeep 0).agree_apart
  obtain ⟨rest, hpass, hrest⟩ := firstPass_eq (haccu.frame hagreeApart fun _ ha => ha) 20
  have hrun : listAppend s = some (.runCont { s with memory := m', accu := rest }) := by
    unfold listAppend
    rw [if_pos hne, hstackWord, hcons]
    dsimp only
    rw [← hm', listAppendStepLength, hpass]
    rfl
  obtain ⟨s', hs', hmem, haccu', hk⟩ : ∃ s', s' = { s with memory := m', accu := rest } ∧
      s'.memory = m' ∧ s'.accu = rest ∧ Keeps s s' := ⟨_, rfl, rfl, rfl, hkeep rest⟩
  rw [← hs'] at hrun
  rw [← hmem] at hagree hagreeApart hrest hm'
  rw [← haccu'] at hrest
  refine ⟨s', hrun, hk, ?_⟩
  obtain ⟨hsuffix', hstack'⟩ := hk.slot_words hs hcode
  have hapart : ∀ a, s.Apart a → s'.Apart a := fun a ha => hk.apart hs.framed ha
  have hnewApart : ∀ a, m.Live a ∧ (a < s.cont ∨ s.cont + s.frameSize ≤ a) → s'.Apart a := by
    intro a ha
    refine ⟨by rw [hm']; exact ha.1, ?_⟩
    rw [hk.cont, (hk.sameFrame hs.framed).frameSize_eq]
    exact ha.2
  have hps' : ListAt s'.memory.words s'.Apart s'.prefixStack (s.accu :: ps) := by
    rw [hstack', hm', Memory.set_words, if_pos rfl]
    refine ListAt.frame (hlist.set (a := s.sp - 2) (y := x) fun ha => ?_) (fun _ _ => rfl) hnewApart
    omega
  have hblocks' : Blocks s'.memory.words s'.Apart xs (s.accu :: ps) :=
    ⟨haccu.frame hagreeApart hapart, hblocks.frame hagreeApart hapart⟩
  have hys' : ListAt s'.memory.words s'.Apart s'.suffix ys := by
    rw [hsuffix', hagree _ hlive.1 (by omega), hsuffixWord]
    exact hsuffix.frame hagreeApart hapart
  rw [List.drop_drop, show 20 * ps.length + 20 = 20 * (s.accu :: ps).length by
    rw [List.length_cons]; omega] at hrest
  have hrest' := hrest.frame (fun _ _ => rfl) hapart
  have hmore : 20 * ps.length < xs.length := by
    by_contra hle
    exact hne (haccu.eq_nullWord_iff.mpr (List.drop_eq_nil_of_le (by omega)))
  have hcount : ps.length + 1 ≤ appendBlocks xs := by
    unfold appendBlocks
    omega
  refine ⟨?_, by omega⟩
  by_cases hend : s'.accu = nullWord
  · have hnil := hrest.eq_nullWord_iff.mp hend
    have hlast : appendBlocks xs = ps.length + 1 := by
      have hle := List.drop_eq_nil_iff.mp hnil
      rw [List.length_cons] at hle
      unfold appendBlocks at hcount ⊢
      omega
    have hsecond : Appending xs ys s' (2 * appendBlocks xs - (s.accu :: ps).length) := by
      refine .second hps' hblocks' hend (by rw [List.length_cons]; exact hcount) nofun ?_
      rw [hnil, List.nil_append]
      exact hys'
    rwa [List.length_cons, hlast, show 2 * (ps.length + 1) - (ps.length + 1) = ps.length + 1 by
      omega] at hsecond
  · exact .first hps' hblocks' hend hrest' hys'

/-- A run of the second pass. -/
theorem listAppend_second (hs : s.Entered) (hcode : AppendCode s) {p : Nat} {ps : List Nat}
    (hstack : ListAt s.memory.words s.Apart s.prefixStack (p :: ps))
    (hblocks : Blocks s.memory.words s.Apart xs (p :: ps)) (hnull : s.accu = nullWord)
    (hsuffix : ListAt s.memory.words s.Apart s.suffix (xs.drop (20 * (ps.length + 1)) ++ ys)) :
    ∃ s', listAppend s = some (if ps = [] then
        .next { s' with accu := s'.suffix, sp := s.sp - 2, pc := s.pc + 1 } else .runCont s') ∧
      Keeps s s' ∧ s'.accu = nullWord ∧
      ListAt s'.memory.words s'.Apart s'.prefixStack ps ∧
      Blocks s'.memory.words s'.Apart xs ps ∧
      ListAt s'.memory.words s'.Apart s'.suffix (xs.drop (20 * ps.length) ++ ys) := by
  obtain ⟨hsuffixWord, hstackWord, hlow, hhigh, hnext⟩ := hs.slot_words hcode
  have hlive := hs.slot_live hcode
  have hstackNe : s.prefixStack ≠ nullWord := by
    rw [Ne, hstack.eq_nullWord_iff]
    exact List.cons_ne_nil _ _
  have hcar := hstack.wcar_eq
  have hcan : s.memory.canAllocate (3 * listAppendStepLength) :=
    Memory.canAllocate_mono hs.room hcode.room
  obtain ⟨c, hpass, hcopied⟩ := @secondPass_spec s.Apart (xs.drop (20 * ps.length))
    listAppendStepLength (wordToPtr p) ⟨s.memory, nullWord, none⟩
    (by rw [hblocks.1.ptrToWord_wordToPtr]; exact hblocks.1)
    (fun a ha => ⟨ha.1, nofun⟩) nofun hcan
  have hclive {a : Nat} (ha : s.memory.Live a) : c.memory.Live a := by
    have hle := hcopied.allocationPtr_le
    have hend := hcopied.firstGenerationEnd_eq
    unfold Memory.Live at *
    dsimp only at hle hend
    omega
  have hcagree {a : Nat} (ha : s.memory.Live a) (x : Nat) :
      (c.assign x).memory.words a = s.memory.words a := by
    rw [CopyState.assign_words]
    · exact hcopied.agree a ha nofun
    · rcases hcopied.hole with heq | ⟨b, hb, hb', -⟩
      · rw [heq]
        exact nofun
      · rw [hb]
        exact fun heq => hb' (Option.some.inj heq ▸ ha)
  have hword : c.memory.words (s.sp - 1) = s.suffix := by
    rw [hcopied.agree _ hlive.1 nofun]
    exact hsuffixWord
  obtain ⟨d, hd⟩ : ∃ d, d = c.assign s.suffix := ⟨_, rfl⟩
  have hdlive {a : Nat} (ha : c.memory.Live a) : d.memory.Live a := by
    rw [hd]
    unfold Memory.Live at *
    rwa [CopyState.assign_allocationPtr, CopyState.assign_firstGenerationEnd]
  have hdagree {a : Nat} (ha : s.memory.Live a) : d.memory.words a = s.memory.words a := by
    rw [hd]
    exact hcagree ha _
  -- the copies lie outside the frame
  have hcopies : ListAt d.memory.words (fun a => d.memory.Live a ∧
      (a < s.cont ∨ s.cont + s.frameSize ≤ a)) d.firstNewP (xs.drop (20 * ps.length) ++ ys) := by
    have hresult := hcopied.result (fun a => d.memory.Live a ∧
      (a < s.cont ∨ s.cont + s.frameSize ≤ a)) s.suffix
      (xs.drop (20 * (ps.length + 1)) ++ ys) (fun a ha ha' => ?_) ?_
    · rwa [← hd, ← List.append_assoc, show 20 * (ps.length + 1) = 20 * ps.length + 20 by omega,
        ← List.drop_drop, listAppendStepLength, List.take_append_drop] at hresult
    · refine ⟨hdlive ha', ?_⟩
      by_contra hin
      obtain ⟨i, rfl⟩ : ∃ i, a = s.cont + i := ⟨a - s.cont, by omega⟩
      exact ha (hs.framed.live i (by omega))
    · rw [← hd]
      exact hsuffix.frame (fun a ha => hdagree ha.1) fun a ha => ⟨hdlive (hclive ha.1), ha.2⟩
  obtain ⟨m, hm⟩ : ∃ m, m = d.memory.set (s.sp - 1) d.firstNewP := ⟨_, rfl⟩
  have hmagree : AgreeOn s.Apart s.memory.words m.words := by
    intro a ha
    have hne : a ≠ s.sp - 1 := fun heq => by
      have hout := ha.2
      omega
    rw [hm, Memory.set_words, if_neg hne]
    exact hdagree ha.1
  have hmstack : m.words (s.sp - 2) = s.prefixStack := by
    have hne : s.sp - 2 ≠ s.sp - 1 := by omega
    rw [hm, Memory.set_words, if_neg hne, hdagree hlive.2, hstackWord]
  obtain ⟨rest, hcdr, hrest⟩ := (hstack.frame hmagree fun _ ha => ha).wcdr_eq
  obtain ⟨s', hs', hmem, hcont, haccu'⟩ : ∃ s', s' = { s with memory := m.set (s.sp - 2) rest } ∧
      s'.memory = m.set (s.sp - 2) rest ∧ s'.cont = s.cont ∧ s'.accu = s.accu :=
    ⟨_, rfl, rfl, rfl, rfl⟩
  have hk : Keeps s s' := by
    refine hs.keeps hcode hcont (fun a ha => ?_) fun a ha hne1 hne2 => ?_
    · rw [hmem, hm]
      exact hdlive (hclive ha)
    · rw [hmem, Memory.set_words, if_neg hne2, hm, Memory.set_words, if_neg hne1]
      exact hdagree ha
  obtain ⟨hsuffix', hstack'⟩ := hk.slot_words hs hcode
  have hne : s.sp - 1 ≠ s.sp - 2 := by omega
  have hapart : ∀ a, s.Apart a → s'.Apart a := fun a ha => hk.apart hs.framed ha
  have hps' : ListAt s'.memory.words s'.Apart s'.prefixStack ps := by
    rw [hstack', hmem, Memory.set_words, if_pos rfl]
    refine ListAt.frame (hrest.set (a := s.sp - 2) (y := rest) fun ha => ?_) (fun _ _ => rfl) hapart
    have hout := ha.2
    omega
  refine ⟨s', ?_, hk, haccu'.trans hnull, hps', hblocks.2.frame hk.agree_apart hapart, ?_⟩
  · have hrestNull : rest = nullWord ↔ ps = [] := hrest.eq_nullWord_iff
    unfold listAppend
    rw [if_neg (not_not.mpr hnull), hstackWord, if_neg hstackNe, hcar]
    simp only [Option.bind_eq_bind, Option.bind_some, hpass, hword, ← hd, ← hm, hmstack, hcdr]
    have hword2 : (m.set (s.sp - 2) rest).words (s.sp - 2) = rest := by
      rw [Memory.set_words, if_pos rfl]
    rw [hword2, hsuffix', hmem, hcont]
    by_cases hnil : ps = []
    · rw [if_neg (not_not.mpr (hrestNull.mpr hnil)), if_pos hnil]
    · rw [if_pos (mt hrestNull.mp hnil), if_neg hnil, hs']
  · rw [hsuffix', hmem, Memory.set_words, if_neg hne, hm, Memory.set_words, if_pos rfl]
    refine ListAt.frame ((hcopies.set (a := s.sp - 1) (y := d.firstNewP) fun ha => ?_).set
      (a := s.sp - 2) (y := rest) fun ha => ?_) (fun _ _ => rfl) fun a ha => ?_
    · omega
    · omega
    · refine ⟨by rw [hmem, hm]; exact ha.1, ?_⟩
      rw [hcont, (hk.sameFrame hs.framed).frameSize_eq]
      exact ha.2

/-- The number of runs for the list `xs`. -/
def appendRuns (xs : List Nat) : Nat := max 1 (2 * appendBlocks xs)

/-- A run either does one more step or is the last one. -/
theorem listAppend_step (hs : s.Entered) (hcode : AppendCode s) (h : Appending xs ys s k) :
    (k + 1 < appendRuns xs ∧ ∃ s', listAppend s = some (.runCont s') ∧ Keeps s s' ∧
      Appending xs ys s' (k + 1)) ∨
    (k + 1 = appendRuns xs ∧ ∃ s', listAppend s = some (.next s') ∧ Keeps s s' ∧
      s'.pc = s.pc + 1 ∧ s'.sp = s.sp - 2 ∧
      ListAt s'.memory.words s'.Apart s'.accu (xs ++ ys)) := by
  unfold appendRuns
  cases h with
  | first hps hblocks hne hprefix hys =>
    obtain ⟨s', hrun, hk, happending, hlt⟩ := listAppend_first hs hcode hps hblocks hne hprefix hys
    exact .inl ⟨by omega, s', hrun, hk, happending⟩
  | @second ps hps hblocks hnull hle hdone hys =>
    cases ps with
    | nil =>
      obtain rfl := hdone rfl
      obtain ⟨hsuffixWord, hstackWord, -⟩ := hs.slot_words hcode
      refine .inr ⟨rfl, { s with accu := s.suffix, sp := s.sp - 2, pc := s.pc + 1 }, ?_,
        ⟨rfl, fun _ ha => ha, fun _ _ _ => rfl⟩, rfl, rfl, hys⟩
      unfold listAppend
      rw [if_neg (not_not.mpr hnull), hstackWord, if_pos (hps.eq_nullWord_iff.mpr rfl), hsuffixWord]
    | cons p ps =>
      obtain ⟨s', hrun, hk, hnull', hps', hblocks', hys'⟩ :=
        listAppend_second hs hcode hps hblocks hnull hys
      rw [List.length_cons] at hle
      cases ps with
      | nil =>
        rw [if_pos rfl] at hrun
        refine .inr ⟨?_, _, hrun, ⟨hk.cont, hk.live, hk.agree⟩, rfl, rfl, hys'⟩
        simp only [List.length_cons, List.length_nil] at hle ⊢
        omega
      | cons p' ps =>
        rw [if_neg (List.cons_ne_nil _ _)] at hrun
        simp only [List.length_cons] at hle ⊢
        have hsecond := Appending.second hps' hblocks' hnull' (by rw [List.length_cons]; omega)
          nofun hys'
        rw [List.length_cons] at hsecond
        refine .inl ⟨by omega, s', hrun, hk, ?_⟩
        rwa [show 2 * appendBlocks xs - (ps.length + 1 + 1) + 1 =
          2 * appendBlocks xs - (ps.length + 1) by omega]

end machine

/-! ## all runs -/

/-- The instruction has started its byte code over `k` times, and `f` says what
became of words in the meantime. -/
inductive AppendRun (s : Machine) (held : Held) : Nat → Machine → Held → (Nat → Nat) → Prop
  | start : AppendRun s held 0 s held id
  | again {k : Nat} {s₁ s₂ s₃ : Machine} {held₁ held₂ : Held} {f g : Nat → Nat}
      (h : AppendRun s held k s₁ held₁ f) (hrun : listAppend s₁ = some (.runCont s₂))
      (hrestart : Restart s₂ held₁ s₃ held₂ g) : AppendRun s held (k + 1) s₃ held₂ (g ∘ f)

/-- The lists that others held are still there, with the items that have become
of theirs. -/
def ListsKept (s : Machine) (held : Held) (s' : Machine) (held' : Held) (f : Nat → Nat) : Prop :=
  ∀ (i : Nat) (type : WordType) (x : Nat) (zs : List Nat), held[i]? = some (type, x) →
    type.points = true →
    ListAt s.memory.words s.Apart x zs →
      ∃ x', held'[i]? = some (type, x') ∧ ListAt s'.memory.words s'.Apart x' (zs.map f)

section runs

variable {s s' s'' : Machine} {held held' : Held} {xs ys : List Nat} {f place : Nat → Nat}

theorem ListsKept.transfer (h : ListsKept s held s' held' f)
    (hagree : AgreeOn s'.Apart s'.memory.words s''.memory.words)
    (hapart : ∀ a, s'.Apart a → s''.Apart a) : ListsKept s held s'' held' f := by
  intro i type x zs hi hpoints hx
  obtain ⟨x', hx', hlist⟩ := h i type x zs hi hpoints hx
  exact ⟨x', hx', hlist.frame hagree hapart⟩

theorem ListsKept.moved (h : ListsKept s held s' held' f) (haway : Away place held' s' s'') :
    ListsKept s held s'' (held'.move place) (movedWord place .tagged ∘ f) := by
  intro i type x zs hi hpoints hx
  obtain ⟨x', hx', hlist⟩ := h i type x zs hi hpoints hx
  refine ⟨movedWord place type x', ?_, ?_⟩
  · unfold Held.move
    rw [List.getElem?_map, hx', Option.map_some]
  · rw [← List.map_map]
    exact hlist.moved haway.cells (Machine.held_reached (List.mem_of_getElem? hx')) hpoints

/-- What every run of the instruction finds. -/
structure AppendState (s : Machine) (held : Held) (xs ys : List Nat) (k : Nat) (s' : Machine)
    (held' : Held) (f : Nat → Nat) : Prop where
  code : AppendCode s'
  appending : Appending (xs.map f) (ys.map f) s' k
  kept : ListsKept s held s' held' f

theorem appendRuns_map (f : Nat → Nat) : appendRuns (xs.map f) = appendRuns xs := by
  unfold appendRuns appendBlocks
  rw [List.length_map]

/-- Starting the byte code over keeps the state. -/
theorem AppendState.restart {k : Nat} {held'' : Held} {g : Nat → Nat}
    (h : AppendState s held xs ys k s' held' f) (hs : s'.Framed)
    (hrestart : Restart s' held' s'' held'' g) :
    s''.Entered ∧ AppendState s held xs ys k s'' held'' (g ∘ f) := by
  refine Restart.preserves (P := AppendState s held xs ys k) ?_ ?_ ?_ hrestart hs h
  · intro s₁ s₂ held₁ place f hs₁ h haway
    refine ⟨h.code.sameFrame (haway.sameFrame hs₁), ?_, h.kept.moved haway⟩
    rw [← List.map_map, ← List.map_map]
    exact h.appending.moved hs₁ h.code haway
  · intro s₁ held₁ f hs₁ hcan h
    have hframe := copyCont_sameFrame hs₁ hcan
    have hdepth := h.code.depth
    have hagree : AgreeOn s₁.Apart s₁.memory.words s₁.copyCont.memory.words :=
      fun a ha => Machine.copyCont_live hs₁ hcan ha.1
    have hapart : ∀ a, s₁.Apart a → s₁.copyCont.Apart a :=
      fun a ha => Machine.copyCont_apart hs₁ hcan ha.1
    refine ⟨h.code.sameFrame hframe, h.appending.transfer hagree hapart rfl ?_ ?_,
      h.kept.transfer hagree hapart⟩
    · unfold Machine.prefixStack
      rw [hframe.stackDepth_eq]
      exact Machine.copyCont_pick hs₁ hcan (by omega)
    · unfold Machine.suffix
      rw [hframe.stackDepth_eq]
      exact Machine.copyCont_pick hs₁ hcan (by omega)
  · intro s₁ held₁ f h
    exact ⟨⟨h.code.first, h.code.room, h.code.depth, h.code.accu, h.code.suffix, h.code.stack⟩,
      h.appending.transfer (fun _ _ => rfl) (fun _ ha => ha) rfl rfl rfl,
      h.kept.transfer (fun _ _ => rfl) fun _ ha => ha⟩

/-- The state after any number of runs. -/
theorem AppendRun.state {k : Nat} (h : AppendRun s held k s' held' f) (hs : s.Entered)
    (hstate : AppendState s held xs ys 0 s held id) :
    s'.Entered ∧ AppendState s held xs ys k s' held' f := by
  induction h with
  | start => exact ⟨hs, hstate⟩
  | again _ hrun hrestart ih =>
    obtain ⟨hs₁, h₁⟩ := ih
    rcases listAppend_step hs₁ h₁.code h₁.appending with
      ⟨-, s', hrun', hk, happending⟩ | ⟨-, s', hrun', -⟩
    · obtain rfl := Outcome.runCont.inj (Option.some.inj (hrun.symm.trans hrun'))
      have h₂ : AppendState s held xs ys _ _ _ _ :=
        ⟨h₁.code.sameFrame (hk.sameFrame hs₁.framed), happending,
          h₁.kept.transfer hk.agree_apart fun _ ha => hk.apart hs₁.framed ha⟩
      exact h₂.restart (hk.framed hs₁.framed) hrestart
    · exact absurd (hrun.symm.trans hrun') (by simp)

/-- `list_append` starts its byte code over until it has run `appendRuns xs`
times, and then has `xs` followed by `ys` in `accu`.  Lists that others held, such
as `xs` and `ys`, are as they were. -/
def Appends (s : Machine) (held : Held) (xs ys : List Nat) : Prop :=
  ∀ k s' held' f, AppendRun s held k s' held' f →
    s'.memory.words s'.pc = Insn.listAppend.code ∧ k < appendRuns xs ∧
    (k + 1 < appendRuns xs → ∃ s'', listAppend s' = some (.runCont s'')) ∧
    (k + 1 = appendRuns xs → ∃ s'', listAppend s' = some (.next s'') ∧
      s''.pc = s'.pc + 1 ∧ s''.sp = s'.sp - 2 ∧
      ListAt s''.memory.words s''.Apart s''.accu ((xs ++ ys).map f) ∧
      ListsKept s held s'' held' f)

theorem list_append_appends (hs : s.Entered) (hcode : AppendCode s)
    (hxs : ListAt s.memory.words s.Apart s.accu xs)
    (hys : ListAt s.memory.words s.Apart (s.memory.words (s.sp - 1)) ys)
    (hstack : s.memory.words (s.sp - 2) = nullWord) : Appends s held xs ys := by
  obtain ⟨hsuffixWord, hstackWord, -⟩ := hs.slot_words hcode
  rw [hsuffixWord] at hys
  rw [hstackWord] at hstack
  have hnil : ListAt s.memory.words s.Apart s.prefixStack [] := hstack ▸ .nil
  have happending : Appending xs ys s 0 := by
    by_cases hne : s.accu = nullWord
    · obtain rfl := hxs.eq_nullWord_iff.mp hne
      exact .second hnil trivial hne (Nat.zero_le _) (fun _ => rfl) hys
    · exact .first hnil trivial hne hxs hys
  have hstate : AppendState s held xs ys 0 s held id := by
    refine ⟨hcode, by rwa [List.map_id, List.map_id], fun i type x zs hi _ hx => ⟨x, hi, ?_⟩⟩
    rwa [List.map_id]
  intro k s' held' f hruns
  obtain ⟨hs', h⟩ := hruns.state hs hstate
  refine ⟨by rw [hs'.pc, h.code.first], ?_⟩
  rw [← appendRuns_map f]
  rcases listAppend_step hs' h.code h.appending with
    ⟨hlt, s'', hrun, -⟩ | ⟨heq, s'', hrun, hk, hpc, hsp, hlist⟩
  · exact ⟨by omega, fun _ => ⟨s'', hrun⟩, fun heq => by omega⟩
  · refine ⟨by omega, fun hlt => by omega, fun _ => ⟨s'', hrun, hpc, hsp, ?_, ?_⟩⟩
    · rw [List.map_append]
      exact hlist
    · exact h.kept.transfer hk.agree_apart fun _ ha => hk.apart hs'.framed ha

end runs

/-- Byte code at `10` that begins with `list_append`, its frame at `30`, the list
`(5)` at `40` and the list `(9)` at `50`. -/
def appendMachine : Machine where
  memory := smallMemory
    [(10, CellType.bcode.header), (11, 3), (12, 2), (13, 1), (15, 60), (16, 5),
      (17, Insn.listAppend.code), (18, 3), (19, 3),
      (30, CellType.cont.header + 0x5FFF), (31, ptrToWord 10), (34, ptrToWord 50),
      (40, CellType.list.header), (41, 5), (50, CellType.list.header), (51, 9)]
  cont := 30
  pc := 17
  sp := 35
  accu := ptrToWord 40

theorem appendMachine_code : bcodeDecls appendMachine.memory.words 10 =
    (List.range 9).map fun i => .field .word (i + 1) := by
  decide

theorem appendMachine_apart {a : Nat} (ha : a < 30 ∨ 35 ≤ a ∧ a < 100) : appendMachine.Apart a := by
  have hsize : appendMachine.frameSize = 5 := by decide
  refine ⟨.inl ?_, ?_⟩
  · change a < 100
    omega
  · rw [hsize]
    change a < 30 ∨ 30 + 5 ≤ a
    omega

theorem appendMachine_entered : appendMachine.Entered where
  framed :=
    { type := by decide
      full := by decide
      bcode_ne := by decide
      bcode_type := by decide
      size_eq := by decide
      depth_le := by decide
      live := fun i hi => .inl (by
        have hsize : appendMachine.frameSize = 5 := by decide
        change 30 + i < 100
        omega)
      bcode_apart := appendMachine_apart (.inl (by decide))
      code_apart := by
        intro i hi
        have hbcode : appendMachine.bcode = 10 := by decide
        rw [hbcode, appendMachine_code] at hi
        obtain ⟨j, hj, heq⟩ := List.mem_map.mp hi
        have hj := List.mem_range.mp hj
        have hi := (Decl.field.inj heq).2
        rw [hbcode]
        exact appendMachine_apart (.inl (by omega)) }
  pc := by decide
  sp := by decide
  room := by decide

theorem appendMachine_appendCode : AppendCode appendMachine where
  first := by decide
  room := by decide
  depth := by decide
  accu := ⟨.tagged, by decide, rfl⟩
  suffix := ⟨.tagged, by decide, rfl⟩
  stack := ⟨.tagged, by decide, rfl⟩

/-- A list of one item, in a cell apart from the frame. -/
theorem appendMachine_list {p : Nat} (hp : p = 40 ∨ p = 50) :
    ListAt appendMachine.memory.words appendMachine.Apart (ptrToWord p)
      [appendMachine.memory.words (p + 1)] := by
  have hend : appendMachine.memory.words (p + 2) = nullWord := by
    rcases hp with rfl | rfl <;> decide
  have hne : p ≠ nullPtr := by rcases hp with rfl | rfl <;> decide
  have htype : cellType (appendMachine.memory.words p) = CellType.list.code := by
    rcases hp with rfl | rfl <;> decide
  exact .cons hne htype (fun i hi => appendMachine_apart (by omega)) rfl hend .nil

/-- `(5)` and `(9)` are appended in two runs. -/
theorem list_append_appends_machine :
    Appends appendMachine [(.tagged, ptrToWord 40), (.tagged, ptrToWord 50)] [5] [9] :=
  list_append_appends appendMachine_entered appendMachine_appendCode
    (appendMachine_list (.inl rfl)) (appendMachine_list (.inr rfl)) (by decide)

end Shades
