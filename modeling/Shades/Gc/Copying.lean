import Shades.CellSlots
import Shades.Tiling
import Shades.Traversal
import Shades.Gc.GenerationSteps

/-!
# Shades.Gc.Copying

What the memory looks like while cells are copied.

A collection goes through the graph of the cells that are collected: their slots are
the edges.  `FromSpace` has what is assumed of the memory before, and `Copying` is the
invariant.  In it `move` says where a word of a copied cell has gone.  A slot that has
been followed refers to where its cell has gone, and all other words are as before;
the copies lie one behind the other in the pages of the new generation.
-/

namespace Shades

/-- The address is inside of the cell. -/
def InsideCell (words : Nat → Nat) (p a : Nat) : Prop :=
  p ≤ a ∧ a < p + cellGetNumberOfWords words p

/-- The addresses of the words of a cell. -/
def cellAddresses (words : Nat → Nat) (p : Nat) : List Nat :=
  List.range' p (cellGetNumberOfWords words p)

theorem mem_cellAddresses {words : Nat → Nat} {p a : Nat} :
    a ∈ cellAddresses words p ↔ InsideCell words p a := List.mem_range'_1

open Classical in
/-- The cells that are collected, with their slots. -/
noncomputable def cellGraph (words : Nat → Nat) (B : Nat → Prop) : EdgeGraph Nat Nat where
  edges := slots words
  target b := if B (wordToPtr (words b)) then some (wordToPtr (words b)) else none

theorem cellGraph_target {words : Nat → Nat} {B : Nat → Prop} {b q : Nat} :
    (cellGraph words B).target b = some q ↔ B q ∧ q = wordToPtr (words b) := by
  unfold cellGraph
  dsimp only
  split
  case isTrue h =>
    rw [Option.some.injEq]
    exact ⟨fun heq => ⟨heq ▸ h, heq.symm⟩, fun heq => heq.2.symm⟩
  case isFalse h => simp only [reduceCtorEq, false_iff, not_and]; rintro hq rfl; exact h hq

namespace Heap

/-! ## before the collection -/

section static

variable (params : HeapParams)

/-- The address is not in a page that cells may be copied to. -/
def Elsewhere (s : Heap) (a : Nat) : Prop :=
  params.firstGenerationEnd ≤ a ∨ ∃ gn, gn ≠ s.gens.toGn ∧ (s.gens.status gn).IsLive ∧
    params.ptrToPageNumber a ∈ s.gens.page gn

/-- The address is in a page of a generation with the status, and the generation is not
the one that is copied to. -/
def InStatus (s : Heap) (status : GenerationStatus) (p : Nat) : Prop :=
  p < params.firstGenerationEnd ∧ ∃ gn, gn ≠ s.gens.toGn ∧ s.gens.status gn = status ∧
    params.ptrToPageNumber p ∈ s.gens.page gn

/-- The slot refers to a generation that is to be collected later. -/
def refersTo (s : Heap) (gn b : Nat) : Bool :=
  decide (s.gens.status gn = .toBeCollected ∧
    params.ptrToPageNumber (wordToPtr (s.words b)) ∈ s.gens.page gn)

/-- The cells `B` can be collected from the slots `roots`.  No other slots refer to them
but their own. -/
structure FromSpace (s : Heap) (B : Nat → Prop) (roots : List Nat) : Prop where
  gens : ∃ ages froms twice, s.gens.Sound params.numberOfPages True ages froms twice
  normal : s.gens.status s.gens.toGn = .normal
  recovering : s.gens.isRecovering = false
  toPn : s.gens.toPn = none
  noPage : s.gens.page s.gens.toGn = []
  toPtr : s.toPtr = nullPtr ∧ s.toEnd = nullPtr
  copyStack : s.copyStack = []
  ok : ∀ {p}, B p → CellOk s.words p
  size_le : ∀ {p}, B p → cellGetNumberOfWords s.words p ≤ params.wordsPerPage - 2
  inside : ∀ {p a}, B p → InsideCell s.words p a → a < params.firstGenerationStart
  elsewhere : ∀ {p a}, B p → InsideCell s.words p a → s.Elsewhere params a
  apart : ∀ {p q a}, B p → B q → InsideCell s.words p a → InsideCell s.words q a → p = q
  fits : ∀ {ps : List Nat}, ps.Nodup → (∀ p ∈ ps, B p) →
    (ps.flatMap (cellAddresses s.words)).length ≤ params.numberOfWordsInFirstGeneration
  allocated : params.firstGenerationEnd ≤ s.allocationPtr
  collected : ∀ {p}, B p → s.allocationPtr ≤ p ∨ s.InStatus params .beingCollected p
  refs : ∀ {p b}, B p → b ∈ slots s.words p → B (wordToPtr (s.words b)) ∨
    (s.InStatus params .normal (wordToPtr (s.words b)) ∨
      s.InStatus params .toBeCollected (wordToPtr (s.words b))) ∧
    ∀ p', B p' → ¬ InsideCell s.words p' (wordToPtr (s.words b))
  rootsNodup : roots.Nodup
  rootsOk : ∀ {b}, b ∈ roots → s.words b ≠ nullWord ∧
    ptrToWord (wordToPtr (s.words b)) = s.words b ∧ B (wordToPtr (s.words b))
  rootsOutside : ∀ {b}, b ∈ roots → s.Elsewhere params b ∧ ∀ p, B p → ¬ InsideCell s.words p b
  bcode : ∀ {p i}, B p → cellType (s.words p) = CellType.cont.code →
    ¬ B (wordToPtr (s.words (p + 1))) →
    i = 0 ∨ Decl.field .word i ∈ bcodeDecls s.words (wordToPtr (s.words (p + 1))) →
    s.Elsewhere params (wordToPtr (s.words (p + 1)) + i) ∧
      wordToPtr (s.words (p + 1)) + i ∉ roots ∧
      ∀ p', B p' → ¬ InsideCell s.words p' (wordToPtr (s.words (p + 1)) + i)

end static

/-! ## the invariant -/

/-- How far a collection has come.  The cells `visited` have been copied.  The slots in
`stack` are on the copy stack, those in `left` are left of the root set or about to be
followed, and those in `done` have been followed, the last one first.  Slots and cells
are given by where they were before; `move` says where they are, and `olds` which cells
are in a page.  In `rems` are the remembered sets without what has been put in them. -/
structure CopyState where
  visited : List Nat
  stack : List Nat
  left : List Nat
  done : List Nat
  move : Nat → Nat
  olds : Nat → List Nat
  rems : Nat → List Nat

/-- What is in a slot. -/
def slotValue (words : Nat → Nat) (c : CopyState) (b : Nat) : Nat :=
  if b ∈ c.done then ptrToWord (c.move (wordToPtr (words b))) else words b

/-- The copies in the pages of the generation that is copied to. -/
structure LaidOut (params : HeapParams) (s₀ : Heap) (c : CopyState) (s : Heap) : Prop where
  full : ∃ full, s.gens.page s.gens.toGn = full ++ s.gens.toPn.toList ∧
    ∀ pn ∈ full, ∃ used ≤ params.wordsPerPage, s.words (params.pageNumberToPagePtr pn + 1) = used ∧
      Tiled c.move (cellGetNumberOfWords s₀.words) (params.pageNumberToPagePtr pn + 2) (c.olds pn)
        (params.pageNumberToPagePtr pn + used)
  current : ∀ pn, s.gens.toPn = some pn → s.toPtr ≤ s.toEnd ∧
    s.toEnd = params.pageNumberToPagePtr pn + params.wordsPerPage ∧
    Tiled c.move (cellGetNumberOfWords s₀.words) (params.pageNumberToPagePtr pn + 2) (c.olds pn)
      s.toPtr
  none : s.gens.toPn = none → s.toPtr = nullPtr ∧ s.toEnd = nullPtr
  visited : ((s.gens.page s.gens.toGn).flatMap c.olds).Perm c.visited

structure Copying (params : HeapParams) (s₀ : Heap) (B : Nat → Prop) (roots : List Nat)
    (c : CopyState) (s : Heap) : Prop where
  traversed : (cellGraph s₀.words B).Traversed roots c.visited (c.stack ++ c.left) c.done
  cells : ∀ p ∈ c.visited, B p
  declared : ∀ p ∈ c.visited, Decl.abort ∉ cellDecls s₀.words p
  pushed : ∀ b ∈ c.stack, ∃ p ∈ c.visited, b ∈ slots s₀.words p
  copyStack : s.copyStack = c.stack.map c.move
  allocationPtr : s.allocationPtr = s₀.allocationPtr
  smartPtrs : s.smartPtrs = s₀.smartPtrs
  filled : s₀.gens.Filled s.gens
  sound : ∀ {ages froms twice}, s₀.gens.Sound params.numberOfPages True ages froms twice →
    s.gens.Sound params.numberOfPages True ages froms twice
  move_eq : ∀ {p a}, p ∈ c.visited → InsideCell s₀.words p a → c.move a = c.move p + (a - p)
  move_of_not : ∀ {a}, (∀ p ∈ c.visited, ¬ InsideCell s₀.words p a) → c.move a = a
  forward : ∀ p ∈ c.visited, s.words p = CellType.forwardPointer.header ∧
    s.words (p + 1) = ptrToWord (c.move p)
  header : ∀ p ∈ c.visited, s.words (c.move p) = s₀.words p
  field : ∀ {p type i}, p ∈ c.visited → Decl.field type i ∈ cellDecls s₀.words p →
    s.words (c.move p + i) = slotValue s₀.words c (p + i)
  other : ∀ {a}, s₀.Elsewhere params a → (∀ p ∈ c.visited, ¬ InsideCell s₀.words p a) →
    s.words a = slotValue s₀.words c a
  laidOut : LaidOut params s₀ c s
  remSets : ∀ gn, s.remSets gn =
    (c.done.filter (s₀.refersTo params gn)).map c.move ++ c.rems gn

/-! ## pages and places -/

section facts

variable {params : HeapParams} {s₀ s : Heap} {B : Nat → Prop} {roots : List Nat} {c : CopyState}
  {p q a b pn gn : Nat}

theorem ptrToPageNumber_eq (hle : params.pageNumberToPagePtr pn ≤ a)
    (hlt : a < params.pageNumberToPagePtr pn + params.wordsPerPage) :
    params.ptrToPageNumber a = pn := by
  unfold HeapParams.pageNumberToPagePtr at hle hlt
  exact Nat.div_eq_of_lt_le hle (by rw [Nat.succ_mul]; exact hlt)

/-- The second word of a page is in it. -/
theorem ptrToPageNumber_succ (pn : Nat) :
    params.ptrToPageNumber (params.pageNumberToPagePtr pn + 1) = pn := by
  have hgt := params.wordsPerPage_gt
  simp only [numberOfRootBlockItems] at hgt
  exact ptrToPageNumber_eq (by omega) (by omega)

/-- Above the pages there are no pages. -/
theorem numberOfPages_le (h : params.firstGenerationEnd ≤ a) :
    params.numberOfPages ≤ params.ptrToPageNumber a := by
  have hpos : 0 < params.wordsPerPage := Nat.lt_of_le_of_lt (Nat.zero_le _) params.wordsPerPage_gt
  exact (Nat.le_div_iff_mul_le hpos).mpr (Nat.le_trans params.pages_le h)

/-- The pages of a generation refer to it while cells are copied to another one. -/
theorem Copying.page (h : Copying params s₀ B roots c s) (h₀ : s₀.FromSpace params B roots)
    (hgn : (s₀.gens.status gn).IsLive) (hpn : pn ∈ s₀.gens.page gn) :
    s.gens.pageIsAllocated pn ∧ s.gens.pageGeneration pn = s.gens.address gn := by
  obtain ⟨ages, froms, twice, hsound⟩ := h₀.gens
  have hpages := (h.sound hsound).pages
  obtain ⟨_, _, _, _, _, _, hs, -⟩ := h.filled
  refine hpages.allocated trivial (by rw [hs]; exact hgn) ?_
  rw [hs]
  by_cases heq : gn = s₀.gens.toGn
  · subst heq
    simp [h₀.noPage] at hpn
  · simpa only [Function.update_of_ne heq] using hpn

theorem Copying.toGn (h : Copying params s₀ B roots c s) : s.gens.toGn = s₀.gens.toGn := by
  obtain ⟨_, _, _, _, _, _, hs, -⟩ := h.filled
  rw [hs]

theorem Copying.status (h : Copying params s₀ B roots c s) : s.gens.status = s₀.gens.status := by
  obtain ⟨_, _, _, _, _, _, hs, -⟩ := h.filled
  rw [hs]

/-- The generation that is copied to is live. -/
theorem Copying.isLive (h : Copying params s₀ B roots c s) (h₀ : s₀.FromSpace params B roots) :
    (s.gens.status s.gens.toGn).IsLive := by
  rw [h.status, h.toGn, h₀.normal]
  exact isLive_normal

theorem Copying.page_nodup (h : Copying params s₀ B roots c s)
    (h₀ : s₀.FromSpace params B roots) : (s.gens.page s.gens.toGn).Nodup := by
  obtain ⟨ages, froms, twice, hsound⟩ := h₀.gens
  exact (h.sound hsound).pages.nodup trivial (h.isLive h₀)

/-- Such an address is neither in a page that is copied to nor in a free one. -/
theorem Copying.elsewhere (h : Copying params s₀ B roots c s) (h₀ : s₀.FromSpace params B roots)
    (ha : s₀.Elsewhere params a) : params.ptrToPageNumber a ∉ s.gens.page s.gens.toGn ∧
      params.ptrToPageNumber a ∉ s.gens.listOfFreePages := by
  obtain ⟨ages, froms, twice, hsound⟩ := h₀.gens
  have hpages := (h.sound hsound).pages
  have hto := h.isLive h₀
  rcases ha with ha | ⟨gn, hne, hlive, hmem⟩
  · have hge := numberOfPages_le ha
    constructor
    · intro hmem
      have hlt := (hpages.refers (hpages.allocated trivial hto hmem).1).1
      omega
    · intro hmem
      have hlt := hpages.free _ hmem
      omega
  · obtain ⟨hallocated, hgeneration⟩ := h.page h₀ hlive hmem
    constructor
    · intro hmem
      have heq := (hpages.allocated trivial hto hmem).2
      rw [hgeneration] at heq
      exact hne ((Generations.address_injective _ heq).trans h.toGn)
    · intro hmem
      rw [hpages.notAllocated trivial _ hmem] at hallocated
      exact Bool.false_ne_true hallocated

/-- The copies in a page lie one behind the other. -/
theorem LaidOut.tiled (h : LaidOut params s₀ c s) (hpn : pn ∈ s.gens.page s.gens.toGn) :
    ∃ stop ≤ params.pageNumberToPagePtr pn + params.wordsPerPage,
      Tiled c.move (cellGetNumberOfWords s₀.words) (params.pageNumberToPagePtr pn + 2) (c.olds pn)
        stop ∧ (s.gens.toPn = some pn → stop = s.toPtr) := by
  obtain ⟨full, hfull, hused⟩ := h.full
  by_cases hto : s.gens.toPn = some pn
  · obtain ⟨hptr, hend, hcurrent⟩ := h.current pn hto
    exact ⟨s.toPtr, hend ▸ hptr, hcurrent, fun _ => rfl⟩
  · rw [hfull, List.mem_append, Option.mem_toList] at hpn
    obtain ⟨used, hle, -, htiled⟩ := hused pn (hpn.resolve_right hto)
    exact ⟨_, Nat.add_le_add_left hle _, htiled, fun h => absurd h hto⟩

/-- A copy is in a page of the generation that is copied to, behind its first two words. -/
theorem Copying.place (h : Copying params s₀ B roots c s) (hp : p ∈ c.visited) :
    ∃ pn ∈ s.gens.page s.gens.toGn, params.pageNumberToPagePtr pn + 2 ≤ c.move p ∧
      c.move p + cellGetNumberOfWords s₀.words p ≤
        params.pageNumberToPagePtr pn + params.wordsPerPage ∧
      (s.gens.toPn = some pn → c.move p + cellGetNumberOfWords s₀.words p ≤ s.toPtr) := by
  obtain ⟨pn, hpn, hold⟩ := List.mem_flatMap.mp (h.laidOut.visited.mem_iff.mpr hp)
  obtain ⟨stop, hstop, htiled, hto⟩ := h.laidOut.tiled hpn
  obtain ⟨hle, hend⟩ := htiled.bounds hold
  exact ⟨pn, hpn, hle, hend.trans hstop, fun h => hto h ▸ hend⟩

/-- Two copies do not overlap. -/
theorem Copying.move_inj (h : Copying params s₀ B roots c s) (hp : p ∈ c.visited)
    (hq : q ∈ c.visited) {i j : Nat} (hi : i < cellGetNumberOfWords s₀.words p)
    (hj : j < cellGetNumberOfWords s₀.words q) (heq : c.move p + i = c.move q + j) :
    p = q ∧ i = j := by
  obtain ⟨pn, hpn, hold⟩ := List.mem_flatMap.mp (h.laidOut.visited.mem_iff.mpr hp)
  obtain ⟨pn', hpn', hold'⟩ := List.mem_flatMap.mp (h.laidOut.visited.mem_iff.mpr hq)
  obtain ⟨stop, hstop, htiled, -⟩ := h.laidOut.tiled hpn
  obtain ⟨stop', hstop', htiled', -⟩ := h.laidOut.tiled hpn'
  obtain ⟨hle, hend⟩ := htiled.bounds hold
  obtain ⟨hle', hend'⟩ := htiled'.bounds hold'
  have hpage : params.ptrToPageNumber (c.move p + i) = pn :=
    ptrToPageNumber_eq (by omega) (by omega)
  have hpage' : params.ptrToPageNumber (c.move p + i) = pn' :=
    ptrToPageNumber_eq (by omega) (by omega)
  obtain rfl := hpage.symm.trans hpage'
  have hnodup := (List.nodup_flatMap.mp (h.laidOut.visited.nodup_iff.mpr h.traversed.nodup)).1
  by_cases hne : p = q
  · subst hne
    exact ⟨rfl, Nat.add_left_cancel heq⟩
  · have := htiled.apart (hnodup pn hpn) hold hold' hne
    omega

/-- No slot is found twice. -/
theorem FromSpace.nodup (h₀ : s₀.FromSpace params B roots) {ps : List Nat} (hps : ps.Nodup)
    (hB : ∀ p ∈ ps, B p) : (roots ++ ps.flatMap (slots s₀.words)).Nodup := by
  have hin : ∀ {p b}, B p → b ∈ slots s₀.words p → InsideCell s₀.words p b := by
    intro p b hp hb
    obtain ⟨hlt, hlt'⟩ := (h₀.ok hp).slot_bounds hb
    exact ⟨Nat.le_of_lt hlt, hlt'⟩
  have hslots : (ps.flatMap (slots s₀.words)).Nodup := by
    rw [List.nodup_flatMap]
    refine ⟨fun p hp => (h₀.ok (hB p hp)).slots_nodup, ?_⟩
    refine hps.imp_of_mem fun {p q} hp hq hne b hb hb' => hne ?_
    exact h₀.apart (hB p hp) (hB q hq) (hin (hB p hp) hb) (hin (hB q hq) hb')
  rw [List.nodup_append]
  refine ⟨h₀.rootsNodup, hslots, ?_⟩
  rintro b hb c hc rfl
  obtain ⟨p, hp, hb'⟩ := List.mem_flatMap.mp hc
  exact (h₀.rootsOutside hb).2 p (hB p hp) (hin (hB p hp) hb')

theorem Copying.nodup (h : Copying params s₀ B roots c s) (h₀ : s₀.FromSpace params B roots) :
    (c.done ++ (c.stack ++ c.left)).Nodup :=
  h.traversed.account.nodup_iff.mpr (h₀.nodup h.traversed.nodup h.cells)

/-- The slots of a cell lie in it. -/
theorem FromSpace.slot_insideCell (h₀ : s₀.FromSpace params B roots) (hp : B p)
    (hb : b ∈ slots s₀.words p) : InsideCell s₀.words p b := by
  obtain ⟨hlt, hlt'⟩ := (h₀.ok hp).slot_bounds hb
  exact ⟨Nat.le_of_lt hlt, hlt'⟩

/-- A slot that is known, and where it is. -/
theorem Copying.slot (h : Copying params s₀ B roots c s) (h₀ : s₀.FromSpace params B roots)
    (hb : b ∈ c.done ++ (c.stack ++ c.left)) :
    s.words (c.move b) = slotValue s₀.words c b := by
  rcases h.traversed.mem_or hb with hb | ⟨p, hp, hb⟩
  · obtain ⟨helse, hout⟩ := h₀.rootsOutside hb
    have hnot : ∀ p ∈ c.visited, ¬ InsideCell s₀.words p b := fun p hp => hout p (h.cells p hp)
    rw [h.move_of_not hnot, h.other helse hnot]
  · have hin := h₀.slot_insideCell (h.cells p hp) hb
    obtain ⟨type, i, hmem, -, rfl⟩ := mem_slots.mp hb
    rw [h.move_eq hp hin, Nat.add_sub_cancel_left, h.field hp hmem]

/-- A slot that has not been followed is as before. -/
theorem Copying.pending (h : Copying params s₀ B roots c s) (h₀ : s₀.FromSpace params B roots)
    (hb : b ∈ c.stack ++ c.left) : s.words (c.move b) = s₀.words b := by
  rw [h.slot h₀ (List.mem_append_right _ hb), slotValue, if_neg]
  intro hdone
  exact (List.nodup_append.mp (h.nodup h₀)).2.2 b hdone b hb rfl

/-- What a slot that is known refers to. -/
theorem FromSpace.target (h₀ : s₀.FromSpace params B roots) {visited pending done : List Nat}
    (h : (cellGraph s₀.words B).Traversed roots visited pending done)
    (hcells : ∀ p ∈ visited, B p) (hb : b ∈ done ++ pending) :
    s₀.words b ≠ nullWord ∧ ptrToWord (wordToPtr (s₀.words b)) = s₀.words b ∧
      (B (wordToPtr (s₀.words b)) ∨ (s₀.InStatus params .normal (wordToPtr (s₀.words b)) ∨
        s₀.InStatus params .toBeCollected (wordToPtr (s₀.words b))) ∧
        ∀ p', B p' → ¬ InsideCell s₀.words p' (wordToPtr (s₀.words b))) := by
  rcases h.mem_or hb with hb | ⟨p, hp, hb⟩
  · obtain ⟨hne, haligned, hB⟩ := h₀.rootsOk hb
    exact ⟨hne, haligned, .inl hB⟩
  · exact ⟨CellOk.slot_ne_null hb, (h₀.ok (hcells p hp)).aligned b hb, h₀.refs (hcells p hp) hb⟩

/-- A slot that is known is not in a cell that has not been copied. -/
theorem FromSpace.outside (h₀ : s₀.FromSpace params B roots) {visited pending done : List Nat}
    (h : (cellGraph s₀.words B).Traversed roots visited pending done)
    (hcells : ∀ p ∈ visited, B p) (hb : b ∈ done ++ pending) (hp : B p) (hnew : p ∉ visited) :
    ¬ InsideCell s₀.words p b := by
  intro hin
  rcases h.mem_or hb with hb | ⟨q, hq, hb⟩
  · exact (h₀.rootsOutside hb).2 p hp hin
  · exact hnew (h₀.apart (hcells q hq) hp (h₀.slot_insideCell (hcells q hq) hb) hin ▸ hq)

/-- There is room on the copy stack. -/
theorem Copying.length_lt (h : Copying params s₀ B roots c s) (h₀ : s₀.FromSpace params B roots)
    (hp : p ∈ c.visited) : c.stack.length < params.numberOfWordsInFirstGeneration := by
  have htwo := (h₀.ok (h.cells p hp)).two_le
  have hnodup : (p :: c.stack).Nodup := by
    refine List.nodup_cons.mpr ⟨fun hmem => ?_, ?_⟩
    · obtain ⟨q, hq, hb⟩ := h.pushed p hmem
      have hin := h₀.slot_insideCell (h.cells q hq) hb
      obtain rfl := h₀.apart (h.cells q hq) (h.cells p hp) hin ⟨Nat.le_refl p, by omega⟩
      exact Nat.lt_irrefl q ((h₀.ok (h.cells q hq)).slot_bounds hb).1
    · exact (List.nodup_append.mp (List.nodup_append.mp (h.nodup h₀)).2.1).1
  have hsubset : p :: c.stack ⊆ c.visited.flatMap (cellAddresses s₀.words) := by
    refine List.cons_subset.mpr ⟨?_, fun b hb => ?_⟩
    · exact List.mem_flatMap.mpr ⟨p, hp, mem_cellAddresses.mpr ⟨Nat.le_refl p, by omega⟩⟩
    · obtain ⟨q, hq, hb⟩ := h.pushed b hb
      exact List.mem_flatMap.mpr
        ⟨q, hq, mem_cellAddresses.mpr (h₀.slot_insideCell (h.cells q hq) hb)⟩
  exact Nat.lt_of_lt_of_le (hnodup.subperm hsubset).length_le (h₀.fits h.traversed.nodup h.cells)

/-- A cell that has not been copied is as before. -/
theorem Copying.unvisited (h : Copying params s₀ B roots c s) (h₀ : s₀.FromSpace params B roots)
    (hp : B p) (hnew : p ∉ c.visited) (ha : InsideCell s₀.words p a) :
    s.words a = s₀.words a := by
  have hnot : ∀ q ∈ c.visited, ¬ InsideCell s₀.words q a := fun q hq hin =>
    hnew (h₀.apart hp (h.cells q hq) ha hin ▸ hq)
  rw [h.other (h₀.elsewhere hp ha) hnot, slotValue, if_neg]
  exact fun hdone =>
    h₀.outside h.traversed h.cells (List.mem_append_left _ hdone) hp hnew ha

/-- A word that is neither in a cell nor one of the roots is as before. -/
theorem Copying.untouched (h : Copying params s₀ B roots c s) (h₀ : s₀.FromSpace params B roots)
    (ha : s₀.Elsewhere params a) (hroots : a ∉ roots) (hout : ∀ p, B p → ¬ InsideCell s₀.words p a) :
    s.words a = s₀.words a := by
  rw [h.other ha fun p hp => hout p (h.cells p hp), slotValue, if_neg]
  intro hdone
  rcases h.traversed.mem_or (List.mem_append_left _ hdone) with hb | ⟨q, hq, hb⟩
  · exact hroots hb
  · exact hout q (h.cells q hq) (h₀.slot_insideCell (h.cells q hq) hb)

/-- A declared word that refers to no cell is never followed. -/
theorem Copying.not_done (h : Copying params s₀ B roots c s) (h₀ : s₀.FromSpace params B roots)
    {type : WordType} {i : Nat} (hp : B p) (hmem : Decl.field type i ∈ cellDecls s₀.words p)
    (hrefers : type.refers (s₀.words (p + i)) = false) : p + i ∉ c.done := by
  intro hdone
  have hin : InsideCell s₀.words p (p + i) :=
    ⟨Nat.le_add_right p i, Nat.add_lt_add_left ((h₀.ok hp).inside hmem) p⟩
  rcases h.traversed.mem_or (List.mem_append_left _ hdone) with hb | ⟨q, hq, hb⟩
  · exact (h₀.rootsOutside hb).2 p hp hin
  · obtain rfl := h₀.apart (h.cells q hq) hp (h₀.slot_insideCell (h.cells q hq) hb) hin
    obtain ⟨type', j, hmem', hrefers', hj⟩ := mem_slots.mp hb
    obtain rfl : i = j := by omega
    have hne : type' ≠ .word := by
      rintro rfl
      simp at hrefers'
    rw [(h₀.ok hp).type_eq hmem' hmem hne, hrefers'] at hrefers
    exact Bool.false_ne_true hrefers.symm

/-- The declarations of a cell that has not been copied are as before. -/
theorem Copying.decls (h : Copying params s₀ B roots c s) (h₀ : s₀.FromSpace params B roots)
    (hp : B p) (hnew : p ∉ c.visited) : cellDecls s.words p = cellDecls s₀.words p := by
  have hok := h₀.ok hp
  have htwo := hok.two_le
  have h0 : s.words p = s₀.words p := h.unvisited h₀ hp hnew ⟨Nat.le_refl p, by omega⟩
  have h1 : s.words (p + 1) = s₀.words (p + 1) :=
    h.unvisited h₀ hp hnew ⟨Nat.le_add_right p 1, by omega⟩
  refine cellDecls_congr h0 (fun i hi => ?_) fun hcont => ?_
  · exact h.unvisited h₀ hp hnew ⟨Nat.le_add_right p i, Nat.add_lt_add_left (hok.inside hi) p⟩
  · have htype := hok.bcode hcont
    have hr := contBcode_eq htype
    by_cases hB : B (wordToPtr (s₀.words (p + 1)))
    · have hrok := h₀.ok hB
      generalize hrdef : wordToPtr (s₀.words (p + 1)) = r at htype hr hB hrok
      have hrdecls := cellDecls_bcode htype
      have hrtwo := hrok.two_le
      by_cases hvisited : r ∈ c.visited
      · obtain ⟨hforward, hplace⟩ := h.forward r hvisited
        have hrforward : cellType (s.words r) = CellType.forwardPointer.code := by
          rw [hforward]
          decide
        refine contDecls_congr_bcode (c.move r) hr ?_ h0 fun i hi => ?_
        · rw [contBcode_forward (by rw [h1, hrdef, hrforward]), h1, hrdef, hplace,
            wordToPtr_ptrToWord]
        · rw [← hrdecls] at hi
          rw [h.field hvisited hi, slotValue, if_neg (h.not_done h₀ hB hi WordType.refers_word)]
      · have hrsame : s.words r = s₀.words r :=
          h.unvisited h₀ hB hvisited ⟨Nat.le_refl r, by omega⟩
        refine contDecls_congr_bcode r hr ?_ h0 fun i hi => ?_
        · rw [contBcode_eq (by rw [h1, hrdef, hrsame, htype]), h1, hrdef]
        · rw [← hrdecls] at hi
          exact h.unvisited h₀ hB hvisited
            ⟨Nat.le_add_right r i, Nat.add_lt_add_left (hrok.inside hi) r⟩
    · have hsame : ∀ i, i = 0 ∨ Decl.field .word i ∈ bcodeDecls s₀.words
          (wordToPtr (s₀.words (p + 1))) → s.words (wordToPtr (s₀.words (p + 1)) + i) =
            s₀.words (wordToPtr (s₀.words (p + 1)) + i) := by
        intro i hi
        obtain ⟨helse, hroots, hout⟩ := h₀.bcode hp hcont hB hi
        exact h.untouched h₀ helse hroots hout
      refine contDecls_congr_bcode (wordToPtr (s₀.words (p + 1))) hr ?_ h0
        fun i hi => hsame i (.inr hi)
      have hhead := hsame 0 (.inl rfl)
      rw [Nat.add_zero] at hhead
      rw [contBcode_eq (by rw [h1, hhead, htype]), h1]

end facts

end Heap

end Shades
