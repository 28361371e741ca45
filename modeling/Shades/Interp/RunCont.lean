import Shades.Interp.Calls
import Shades.Moved

/-!
# Shades.Interp.RunCont

The label `run_cont` of `interp`, where byte code starts, and the macro
`RUN_CONT` that goes there.

An instruction that is the first of its byte code may leave its state in the
frame and in `accu` and start the byte code over.  In between the thread may
have to wait for others, and a commit may move the frame and everything it
leads to.  `Restart` says what the instruction then finds.
-/

namespace Shades

namespace Machine

/-! ## frames -/

/-- `CONT_BCODE(cont)`. -/
def bcode (s : Machine) : Nat := wordToPtr (s.memory.words (s.cont + 1))

/-- `BCODE_ACCU_TYPE(bcode)`. -/
def accuType (s : Machine) : Option WordType := wordTypeOf (s.memory.words (s.bcode + 1))

/-- `BCODE_CUR_STACK_DEPTH(bcode)`. -/
def stackDepth (s : Machine) : Nat := s.memory.words (s.bcode + 2)

/-- `BCODE_CONT_IS_REUSABLE(bcode)`. -/
def contIsReusable (s : Machine) : Nat := s.memory.words (s.bcode + 4)

/-- `BCODE_MAX_ALLOCATION(bcode)`. -/
def maxAllocation (s : Machine) : Nat := s.memory.words (s.bcode + 5)

/-- `BCODE_NUMBER_OF_WORDS_IN_CONT(bcode)`. -/
def numberOfWordsInCont (s : Machine) : Nat := s.memory.words (s.bcode + 6)

/-- The type of a word on the stack, as byte code describes it. -/
def slotType (s : Machine) (i : Nat) : Option WordType :=
  wordTypeOf (s.memory.words (s.bcode + (7 + s.memory.words (s.bcode + 3) + i)))

/-- The words of the frame. -/
def frameSize (s : Machine) : Nat := contSize (s.memory.words s.cont)

/-! ## the label `run_cont` -/

/-- `pc` and `sp` at the beginning of the byte code. -/
def enter (s : Machine) : Machine :=
  { s with pc := s.bcode + 7, sp := s.stackStart + s.stackDepth }

/-- `cont = cell_copy(cont);` -/
def copyCont (s : Machine) : Machine :=
  let (p, m) := s.memory.allocate s.frameSize .cont
  { s with memory := copyArguments m p s.cont s.frameSize, cont := p }

/-- The words that are in use, outside the frame. -/
def Apart (s : Machine) (a : Nat) : Prop :=
  s.memory.Live a ∧ (a < s.cont ∨ s.cont + s.frameSize ≤ a)

/-- A frame that is being executed, with its byte code. -/
structure Framed (s : Machine) : Prop where
  type : cellType (s.memory.words s.cont) = CellType.cont.code
  full : s.memory.words s.cont &&& 0xFFF = 0xFFF
  bcode_ne : s.bcode ≠ nullPtr
  bcode_type : cellType (s.memory.words s.bcode) = CellType.bcode.code
  size_eq : s.frameSize = s.numberOfWordsInCont
  depth_le : 3 + s.stackDepth ≤ s.frameSize
  live : ∀ i < s.frameSize, s.memory.Live (s.cont + i)
  bcode_apart : s.Apart s.bcode
  code_apart : ∀ i, Decl.field .word i ∈ bcodeDecls s.memory.words s.bcode → s.Apart (s.bcode + i)

end Machine

/-! ## what happens to a frame -/

/-- Words that somebody else holds, with their types. -/
abbrev Held := List (WordType × Nat)

/-- The words held after a move. -/
def Held.move (place : Nat → Nat) (held : Held) : Held :=
  held.map fun (type, x) => (type, movedWord place type x)

/-- The words that a thread leads to: the declared words of its frame and
`accu`; and the words that others hold. -/
def Machine.roots (s : Machine) (held : Held) (type : WordType) (x : Nat) : Prop :=
  (∃ i, Decl.field type i ∈ cellDecls s.memory.words s.cont ∧ x = s.memory.words (s.cont + i)) ∨
    (s.accuType = some type ∧ x = s.accu) ∨ (type, x) ∈ held

/-- The thread after a commit, or after other threads have run. -/
structure Away (place : Nat → Nat) (held : Held) (s s' : Machine) : Prop where
  header : s'.memory.words s'.cont = s.memory.words s.cont
  fields : ∀ type i, Decl.field type i ∈ cellDecls s.memory.words s.cont →
    s'.memory.words (s'.cont + i) = movedWord place type (s.memory.words (s.cont + i))
  accu : ∀ type, s.accuType = some type → s'.accu = movedWord place type s.accu
  cells : Moved place (s.roots held) s.memory.words s'.memory.words s'.Apart
  live : ∀ i < s'.frameSize, s'.memory.Live (s'.cont + i)

/-- The loop of `run_cont` that flushes until there is room for the frame and
for what its byte code allocates.  The function says what became of words. -/
inductive MakesRoom : Machine → Held → Machine → Held → (Nat → Nat) → Prop
  | done {s : Machine} {held : Held}
      (hcan : s.memory.canAllocate (s.numberOfWordsInCont + s.maxAllocation)) :
      MakesRoom s held s held id
  | flush {s s₁ s₂ : Machine} {held held₂ : Held} {place g : Nat → Nat}
      (hcan : ¬ s.memory.canAllocate (s.numberOfWordsInCont + s.maxAllocation))
      (haway : Away place held s s₁) (hrest : MakesRoom s₁ (held.move place) s₂ held₂ g) :
      MakesRoom s held s₂ held₂ (g ∘ movedWord place .tagged)

/-- `run_cont`, up to the first instruction. -/
inductive RunCont : Machine → Held → Machine → Held → (Nat → Nat) → Prop
  | keep {s : Machine} {held : Held} (hfirst : s.memory.allocationPtr ≤ s.cont)
      (hreusable : s.contIsReusable = 0) (hcan : s.memory.canAllocate s.maxAllocation) :
      RunCont s held s.enter held id
  | copy {s s₁ : Machine} {held held₁ : Held} {g : Nat → Nat}
      (hcond : s.cont < s.memory.allocationPtr ∨ s.contIsReusable ≠ 0 ∨
        ¬ s.memory.canAllocate s.maxAllocation)
      (hroom : MakesRoom s held s₁ held₁ g) : RunCont s held s₁.copyCont.enter held₁ g

/-- `RUN_CONT`: at once, or after other threads have run. -/
inductive Restart : Machine → Held → Machine → Held → (Nat → Nat) → Prop
  | run {s s' : Machine} {held held' : Held} {g : Nat → Nat} (h : RunCont s held s' held' g) :
      Restart s held s' held' g
  | yield {s s₁ s' : Machine} {held held' : Held} {place g : Nat → Nat}
      (haway : Away place held s s₁) (h : RunCont s₁ (held.move place) s' held' g) :
      Restart s held s' held' (g ∘ movedWord place .tagged)

open Machine

variable {s s' : Machine} {held : Held} {place : Nat → Nat}

/-! ## the declared words of a frame -/

theorem Machine.Framed.bcodeDecls_eq (h : s.Framed) :
    cellDecls s.memory.words s.bcode = bcodeDecls s.memory.words s.bcode := by
  simp only [cellDecls, cellTypeOf_eq_some.mpr h.bcode_type]

theorem Machine.Framed.contDecls_eq (h : s.Framed) :
    cellDecls s.memory.words s.cont = contDecls s.memory.words s.cont := by
  simp only [cellDecls, cellTypeOf_eq_some.mpr h.type]

theorem Machine.Framed.mem_bcode (h : s.Framed) :
    Decl.field .nonnullPtr 1 ∈ cellDecls s.memory.words s.cont := by
  rw [h.contDecls_eq]
  exact List.mem_cons_self

/-- The words on the stack are declared with their types. -/
theorem Machine.Framed.mem_slot (h : s.Framed) {i : Nat} {type : WordType} (hi : i < s.stackDepth)
    (htype : s.slotType i = some type) (hpoints : type.points = true) :
    Decl.field type (3 + i) ∈ cellDecls s.memory.words s.cont := by
  have hne : CellType.bcode.code ≠ CellType.forwardPointer.code := by decide
  have hbcode : cellType (s.memory.words (wordToPtr (s.memory.words (s.cont + 1)))) =
      CellType.bcode.code := h.bcode_type
  rw [h.contDecls_eq]
  unfold contDecls
  simp only [hbcode, if_neg hne, if_pos h.full, le_refl, if_true]
  refine List.mem_cons_of_mem _ (List.mem_cons_of_mem _ (List.mem_flatMap.mpr
    ⟨i, List.mem_range.mpr hi, ?_⟩))
  have haddr : s.bcode + (7 + s.memory.words (s.bcode + 3) + i) =
      s.bcode + 7 + s.memory.words (s.bcode + 3) + i := by omega
  rw [slotType, haddr] at htype
  change Decl.field type (3 + i) ∈
    declareAs (s.memory.words (s.bcode + 7 + s.memory.words (s.bcode + 3) + i)) (3 + i)
  rw [declareAs, htype]
  cases type <;> first | exact List.mem_singleton_self _ | cases hpoints

/-! ## the same byte code -/

/-- Two frames of the same byte code. -/
structure SameFrame (s s' : Machine) : Prop where
  header : s'.memory.words s'.cont = s.memory.words s.cont
  code : ∀ i, Decl.field .word i ∈ bcodeDecls s.memory.words s.bcode →
    s'.memory.words (s'.bcode + i) = s.memory.words (s.bcode + i)

section sameFrame

variable (h : SameFrame s s')

include h

theorem SameFrame.frameSize_eq : s'.frameSize = s.frameSize := congrArg contSize h.header

theorem SameFrame.accuType_eq : s'.accuType = s.accuType :=
  congrArg wordTypeOf (h.code 1 (mem_bcodeDecls (by omega)))

theorem SameFrame.stackDepth_eq : s'.stackDepth = s.stackDepth :=
  h.code 2 (mem_bcodeDecls (by omega))

theorem SameFrame.maxAllocation_eq : s'.maxAllocation = s.maxAllocation :=
  h.code 5 (mem_bcodeDecls (by omega))

theorem SameFrame.numberOfWordsInCont_eq : s'.numberOfWordsInCont = s.numberOfWordsInCont :=
  h.code 6 (mem_bcodeDecls (by omega))

theorem SameFrame.slotType_eq {i : Nat} (hi : i < s.stackDepth) : s'.slotType i = s.slotType i := by
  unfold slotType
  rw [h.code 3 (mem_bcodeDecls (by omega)),
    h.code _ (mem_bcodeDecls (.inr ⟨by omega, Nat.add_lt_add_left hi _⟩))]

theorem SameFrame.bcodeDecls_eq :
    bcodeDecls s'.memory.words s'.bcode = bcodeDecls s.memory.words s.bcode := by
  have hfollows : Follows (fun d => ∀ i, d = .field .word i →
      s.memory.words (s.bcode + i) = s'.memory.words (s'.bcode + i))
      (bcodeDecls s.memory.words s.bcode) (bcodeDecls s'.memory.words s'.bcode) :=
    bcodeDecls_follows fun i hagree => hagree i rfl
  exact hfollows.eq fun d hd i hdi => (h.code i (hdi ▸ hd)).symm

end sameFrame

/-- The first instruction belongs to the code. -/
theorem Machine.mem_first (s : Machine) : Decl.field .word 7 ∈ bcodeDecls s.memory.words s.bcode := by
  unfold bcodeDecls
  dsimp only
  rw [codeDecls, List.mem_append, List.mem_append]
  exact .inl (.inr List.mem_cons_self)

/-- A frame of the same byte code elsewhere. -/
theorem SameFrame.framed (h : SameFrame s s') (hs : s.Framed)
    (hbcode : s'.bcode ≠ nullPtr ∧ s'.memory.words s'.bcode = s.memory.words s.bcode)
    (hlive : ∀ i < s.frameSize, s'.memory.Live (s'.cont + i)) (hapart : s'.Apart s'.bcode)
    (hcode : ∀ i, Decl.field .word i ∈ bcodeDecls s.memory.words s.bcode →
      s'.Apart (s'.bcode + i)) : s'.Framed where
  type := by rw [h.header, hs.type]
  full := by rw [h.header, hs.full]
  bcode_ne := hbcode.1
  bcode_type := by rw [hbcode.2, hs.bcode_type]
  size_eq := by rw [h.frameSize_eq, h.numberOfWordsInCont_eq, hs.size_eq]
  depth_le := by
    rw [h.frameSize_eq, h.stackDepth_eq]
    exact hs.depth_le
  live := by
    rw [h.frameSize_eq]
    exact hlive
  bcode_apart := hapart
  code_apart := by
    rw [h.bcodeDecls_eq]
    exact hcode

/-! ## a move -/

/-- The byte code of the frame is reached. -/
theorem Machine.Framed.bcode_reached (hs : s.Framed) :
    CellReached s.memory.words (s.roots held) s.bcode where
  reached := ⟨.nonnullPtr, _, .root (.inl ⟨1, hs.mem_bcode, rfl⟩), .nonnullPtr⟩
  ne_null := hs.bcode_ne
  not_cont := by
    rw [hs.bcode_type]
    decide

section away

variable (hs : s.Framed) (h : Away place held s s')

include hs h

theorem Away.bcode_eq : s'.bcode = place s.bcode := by
  have hword := h.fields .nonnullPtr 1 hs.mem_bcode
  have hne : wordToPtr (s.memory.words (s.cont + 1)) ≠ nullPtr := hs.bcode_ne
  unfold bcode
  rw [hword, movedWord, movedPtr, if_neg hne, wordToPtr_ptrToWord]

/-- The byte code of the frame has moved. -/
theorem Away.sameFrame : SameFrame s s' where
  header := h.header
  code := by
    intro i hi
    rw [h.bcode_eq hs]
    exact (h.cells.field s.bcode .word i hs.bcode_reached (hs.bcodeDecls_eq ▸ hi)).1

theorem Away.framed : s'.Framed := by
  have hbcode := h.cells.header s.bcode hs.bcode_reached
  refine (h.sameFrame hs).framed hs ?_ ?_ ?_ ?_
  · rw [h.bcode_eq hs]
    exact ⟨h.cells.ne_null s.bcode hs.bcode_reached, hbcode.1⟩
  · rw [← (h.sameFrame hs).frameSize_eq]
    exact h.live
  · rw [h.bcode_eq hs]
    exact hbcode.2
  · intro i hi
    rw [h.bcode_eq hs]
    exact (h.cells.field s.bcode .word i hs.bcode_reached (hs.bcodeDecls_eq ▸ hi)).2

/-- The words on the stack have moved. -/
theorem Away.pick_eq {i : Nat} {type : WordType} (hi : i < s.stackDepth)
    (htype : s.slotType i = some type) (hpoints : type.points = true) :
    s'.pick i = movedWord place type (s.pick i) := by
  have hfield := h.fields type (3 + i) (hs.mem_slot hi htype hpoints)
  simp only [pick, stackStart, Nat.add_assoc]
  exact hfield

end away

/-- The words on the stack are reached. -/
theorem Machine.Framed.pick_reached (hs : s.Framed) {i : Nat} {type : WordType} (hi : i < s.stackDepth)
    (htype : s.slotType i = some type) (hpoints : type.points = true) :
    Reached s.memory.words (s.roots held) type (s.pick i) := by
  refine .root (.inl ⟨3 + i, hs.mem_slot hi htype hpoints, ?_⟩)
  simp only [pick, stackStart, Nat.add_assoc]

theorem Machine.accu_reached {type : WordType} (htype : s.accuType = some type) :
    Reached s.memory.words (s.roots held) type s.accu := .root (.inr (.inl ⟨htype, rfl⟩))

theorem Machine.held_reached {type : WordType} {x : Nat} (h : (type, x) ∈ held) :
    Reached s.memory.words (s.roots held) type x := .root (.inr (.inr h))

/-! ## the copy of a frame -/

section copy

variable (hs : s.Framed) (hcan : s.memory.canAllocate s.frameSize)

theorem Machine.copyCont_cont : s.copyCont.cont = s.memory.allocationPtr - s.frameSize := rfl

theorem Machine.copyCont_allocationPtr :
    s.copyCont.memory.allocationPtr = s.copyCont.cont :=
  copyArguments_allocationPtr _ _ _ _

theorem Machine.copyCont_firstGenerationEnd :
    s.copyCont.memory.firstGenerationEnd = s.memory.firstGenerationEnd :=
  copyArguments_firstGenerationEnd _ _ _ _

theorem Machine.copyCont_words (a : Nat) : s.copyCont.memory.words a =
    (copyArguments (s.memory.allocate s.frameSize .cont).2 s.copyCont.cont s.cont
      s.frameSize).words a := rfl

include hcan

/-- Words in use are not below the new allocation pointer. -/
theorem Machine.not_fresh {a : Nat} (ha : s.memory.Live a) :
    a < s.copyCont.cont ∨ s.copyCont.cont + s.frameSize ≤ a := by
  unfold Memory.canAllocate at hcan
  rw [copyCont_cont]
  rcases ha with ha | ha
  · exact .inl (by omega)
  · exact .inr (by omega)

include hs

/-- Words in use are kept. -/
theorem Machine.copyCont_live {a : Nat} (ha : s.memory.Live a) :
    s.copyCont.memory.words a = s.memory.words a := by
  have hfresh := not_fresh hcan ha
  have hsize := hs.depth_le
  rw [copyCont_words, copyArguments_outside hfresh, Memory.allocate_words, if_neg]
  rw [copyCont_cont] at hfresh
  omega

/-- The words of the copy. -/
theorem Machine.copyCont_copied {i : Nat} (hi : i < s.frameSize) :
    s.copyCont.memory.words (s.copyCont.cont + i) = s.memory.words (s.cont + i) := by
  have happart (j : Nat) (hj : j < s.frameSize) := not_fresh hcan (hs.live j hj)
  have hdisjoint : ∀ i < s.frameSize, ∀ j < s.frameSize,
      s.cont + j ≠ s.memory.allocationPtr - s.frameSize + i := by
    intro i hi j hj
    have := happart j hj
    rw [copyCont_cont] at this
    omega
  have hne := hdisjoint 0 (by omega) i hi
  rw [Nat.add_zero] at hne
  rw [copyCont_words, copyCont_cont, copyArguments_words hdisjoint, if_pos (by omega),
    Nat.add_sub_cancel_left, Memory.allocate_words, if_neg hne]

theorem Machine.copyCont_bcode : s.copyCont.bcode = s.bcode := by
  have hsize := hs.depth_le
  exact congrArg wordToPtr (copyCont_copied hs hcan (by omega))

theorem copyCont_sameFrame : SameFrame s s.copyCont where
  header := by
    have hsize := hs.depth_le
    exact copyCont_copied hs hcan (i := 0) (by omega)
  code := by
    intro i hi
    rw [copyCont_bcode hs hcan]
    exact copyCont_live hs hcan (hs.code_apart i hi).1

theorem Machine.copyCont_apart {a : Nat} (ha : s.memory.Live a) : s.copyCont.Apart a := by
  refine ⟨?_, ?_⟩
  · unfold Memory.canAllocate at hcan
    rcases ha with ha | ha
    · exact .inl (copyCont_firstGenerationEnd.symm ▸ ha)
    · refine .inr (le_trans ?_ ha)
      rw [copyCont_allocationPtr, copyCont_cont]
      exact Nat.sub_le _ _
  · rw [(copyCont_sameFrame hs hcan).frameSize_eq]
    exact not_fresh hcan ha

theorem Machine.copyCont_framed : s.copyCont.Framed := by
  have hlive {a : Nat} (ha : s.memory.Live a) := copyCont_live hs hcan ha
  refine (copyCont_sameFrame hs hcan).framed hs ?_ ?_ ?_ ?_
  · rw [copyCont_bcode hs hcan]
    exact ⟨hs.bcode_ne, hlive hs.bcode_apart.1⟩
  · intro i _
    exact .inr (copyCont_allocationPtr ▸ Nat.le_add_right _ _)
  · rw [copyCont_bcode hs hcan]
    exact copyCont_apart hs hcan hs.bcode_apart.1
  · intro i hi
    rw [copyCont_bcode hs hcan]
    exact copyCont_apart hs hcan (hs.code_apart i hi).1

theorem Machine.copyCont_pick {i : Nat} (hi : i < s.stackDepth) :
    s.copyCont.pick i = s.pick i := by
  have hsize := hs.depth_le
  have hcopied := copyCont_copied hs hcan (i := 3 + i) (by omega)
  simp only [pick, stackStart, Nat.add_assoc]
  exact hcopied

end copy

theorem Machine.copyCont_canAllocate {n : Nat} (hcan : s.memory.canAllocate (s.frameSize + n)) :
    s.copyCont.memory.canAllocate n := by
  unfold Memory.canAllocate at *
  rw [copyCont_allocationPtr, copyCont_firstGenerationEnd, copyCont_cont]
  omega

/-! ## instructions that keep the frame -/

/-- An instruction has allocated cells and changed words on the stack. -/
structure Keeps (s s' : Machine) : Prop where
  cont : s'.cont = s.cont
  live : ∀ a, s.memory.Live a → s'.memory.Live a
  agree : ∀ a, s.memory.Live a → a < s.cont + 3 ∨ s.cont + s.frameSize ≤ a →
    s'.memory.words a = s.memory.words a

section keeps

variable (hs : s.Framed) (h : Keeps s s')

include h

theorem Keeps.agree_apart : AgreeOn s.Apart s.memory.words s'.memory.words :=
  fun a ha => h.agree a ha.1 (ha.2.imp_left fun ha => by omega)

include hs

theorem Keeps.head_eq {i : Nat} (hi : i < 3) :
    s'.memory.words (s'.cont + i) = s.memory.words (s.cont + i) := by
  have hdepth := hs.depth_le
  rw [h.cont]
  exact h.agree _ (hs.live i (by omega)) (.inl (by omega))

theorem Keeps.bcode_eq : s'.bcode = s.bcode :=
  congrArg wordToPtr (h.head_eq hs (by decide))

theorem Keeps.sameFrame : SameFrame s s' where
  header := h.head_eq hs (i := 0) (by decide)
  code := by
    intro i hi
    rw [h.bcode_eq hs]
    exact h.agree_apart _ (hs.code_apart i hi)

theorem Keeps.apart {a : Nat} (ha : s.Apart a) : s'.Apart a := by
  refine ⟨h.live a ha.1, ?_⟩
  rw [h.cont, (h.sameFrame hs).frameSize_eq]
  exact ha.2

theorem Keeps.framed : s'.Framed := by
  refine (h.sameFrame hs).framed hs ?_ ?_ ?_ ?_
  · rw [h.bcode_eq hs]
    exact ⟨hs.bcode_ne, h.agree_apart _ hs.bcode_apart⟩
  · intro i hi
    rw [h.cont]
    exact h.live _ (hs.live i hi)
  · rw [h.bcode_eq hs]
    exact h.apart hs hs.bcode_apart
  · intro i hi
    rw [h.bcode_eq hs]
    exact h.apart hs (hs.code_apart i hi)

end keeps

/-! ## what an instruction finds when it is started again -/

/-- Nothing that counts for a frame depends on the registers. -/
theorem Machine.Framed.congr (hs : s.Framed) (hm : s'.memory = s.memory) (hc : s'.cont = s.cont) :
    s'.Framed := by
  cases s
  cases s'
  subst hm hc
  exact ⟨hs.type, hs.full, hs.bcode_ne, hs.bcode_type, hs.size_eq, hs.depth_le, hs.live,
    hs.bcode_apart, hs.code_apart⟩

/-- The machine stands at the first instruction, with the stack of the frame. -/
structure Machine.Entered (s : Machine) : Prop where
  framed : s.Framed
  pc : s.pc = s.bcode + 7
  sp : s.sp = s.stackStart + s.stackDepth
  room : s.memory.canAllocate s.maxAllocation

theorem Machine.Framed.entered (hs : s.Framed) (hroom : s.memory.canAllocate s.maxAllocation) :
    s.enter.Entered := ⟨hs.congr rfl rfl, rfl, rfl, hroom⟩

section preserves

variable {P : Machine → Held → (Nat → Nat) → Prop}
  (haway : ∀ {s s' : Machine} {held : Held} {place f : Nat → Nat}, s.Framed → P s held f →
    Away place held s s' → P s' (held.move place) (movedWord place .tagged ∘ f))
  (hcopy : ∀ {s : Machine} {held : Held} {f : Nat → Nat}, s.Framed →
    s.memory.canAllocate s.frameSize → P s held f → P s.copyCont held f)
  (henter : ∀ {s : Machine} {held : Held} {f : Nat → Nat}, P s held f → P s.enter held f)

variable {held' : Held} {f g : Nat → Nat}

include haway

theorem MakesRoom.preserves (h : MakesRoom s held s' held' g) (hs : s.Framed) (hp : P s held f) :
    s'.Framed ∧ s'.memory.canAllocate (s'.numberOfWordsInCont + s'.maxAllocation) ∧
      P s' held' (g ∘ f) := by
  induction h generalizing f with
  | done hcan => exact ⟨hs, hcan, hp⟩
  | flush _ h _ ih => exact ih (h.framed hs) (haway hs hp h)

include hcopy henter

theorem RunCont.preserves (h : RunCont s held s' held' g) (hs : s.Framed) (hp : P s held f) :
    s'.Entered ∧ P s' held' (g ∘ f) := by
  cases h with
  | keep _ _ hcan => exact ⟨hs.entered hcan, henter hp⟩
  | copy _ hroom =>
    rename_i s₁ _
    obtain ⟨hs₁, hcan, hp₁⟩ := MakesRoom.preserves (P := P) haway hroom hs hp
    rw [← hs₁.size_eq] at hcan
    have hcan₁ : s₁.memory.canAllocate s₁.frameSize := Memory.canAllocate_mono hcan (by omega)
    have hroom₁ := copyCont_canAllocate hcan
    rw [← (copyCont_sameFrame hs₁ hcan₁).maxAllocation_eq] at hroom₁
    exact ⟨(copyCont_framed hs₁ hcan₁).entered hroom₁, henter (hcopy hs₁ hcan₁ hp₁)⟩

/-- What a commit, the copy of the frame and the start of the byte code keep is
found again by an instruction that starts its byte code over. -/
theorem Restart.preserves (h : Restart s held s' held' g) (hs : s.Framed) (hp : P s held f) :
    s'.Entered ∧ P s' held' (g ∘ f) := by
  cases h with
  | run h => exact RunCont.preserves (P := P) haway hcopy henter h hs hp
  | yield h hrun =>
    have hpreserved :=
      RunCont.preserves (P := P) haway hcopy henter hrun (h.framed hs) (haway hs hp h)
    exact hpreserved

end preserves

end Shades
