import Mathlib.Algebra.Order.Group.Nat
import Mathlib.Data.Finset.Card
import Mathlib.Data.Finset.Range
import Shades.DoublyLinked
import Shades.Gc.Generations

/-!
# Shades.Gc.GenerationInvariant

What holds of the table of generations.

The statuses, the three kinds of lists, the count of free entries, the pages and
the record of what happened say the same things in different ways, and each has
its own predicate here.  `Generations.Sound` is all of them; the lists it speaks
of are given, so that a function's effect on them can be told.

Pages are used by one generation each unless a database that was recovered says
otherwise.  `owned` tells whether that is known.
-/

namespace Shades

/-! ## the order of the statuses -/

/-- The status that comes next. -/
def GenerationStatus.next : GenerationStatus → GenerationStatus
  | .nonexistent => .normal
  | .normal => .toBeCollected
  | .toBeCollected => .beingCollected
  | .beingCollected => .collectedOnce
  | .collectedOnce => .collectedTwice
  | .collectedTwice => .nonexistent

/-- The next status; or a generation is read again during recovery, which treats it as
one that is being collected. -/
def GenerationStatus.MayBecome (isRecovering : Bool) (status status' : GenerationStatus) : Prop :=
  status' = status.next ∨ isRecovering = true ∧
    (status = .normal ∧ status' = .beingCollected ∨ status = .beingCollected ∧ status' = .normal)

instance (isRecovering : Bool) (status status' : GenerationStatus) :
    Decidable (status.MayBecome isRecovering status') :=
  inferInstanceAs (Decidable (_ ∨ _ ∧ (_ ∧ _ ∨ _ ∧ _)))

/-- The status that was assigned last, in a record with the newest event first. -/
def lastStatus (gn : Nat) : List GenerationEvent → GenerationStatus
  | [] => .nonexistent
  | .status g status _ :: older => if g = gn then status else lastStatus gn older
  | .diskPage _ _ :: older => lastStatus gn older
  | .freeDiskPage _ _ :: older => lastStatus gn older

/-- Each status that is assigned may come after the one before. -/
def Orderly : List GenerationEvent → Prop
  | [] => True
  | .status gn status isRecovering :: older =>
    (lastStatus gn older).MayBecome isRecovering status ∧ Orderly older
  | .diskPage _ _ :: older => Orderly older
  | .freeDiskPage _ _ :: older => Orderly older

/-- The disk pages that the generations with a number got, the oldest first. -/
def diskPagesGot (gn : Nat) : List GenerationEvent → List Nat
  | [] => []
  | .diskPage g dpn :: older =>
    if g = gn then diskPagesGot gn older ++ [dpn] else diskPagesGot gn older
  | .status _ _ _ :: older => diskPagesGot gn older
  | .freeDiskPage _ _ :: older => diskPagesGot gn older

/-- The disk pages that they gave back. -/
def diskPagesFreed (gn : Nat) : List GenerationEvent → List Nat
  | [] => []
  | .freeDiskPage g dpn :: older =>
    if g = gn then diskPagesFreed gn older ++ [dpn] else diskPagesFreed gn older
  | .status _ _ _ :: older => diskPagesFreed gn older
  | .diskPage _ _ :: older => diskPagesFreed gn older

/-! ## the predicates -/

/-- The entries in use are inside the table, and the free ones are counted. -/
structure TableSound (numberOfGenerations allocateGn count : Nat)
    (status : Nat → GenerationStatus) : Prop where
  pos : 0 < numberOfGenerations
  le : numberOfGenerations ≤ invalidGenerationNumber
  cursor_lt : allocateGn < numberOfGenerations
  inside : ∀ {gn}, status gn ≠ .nonexistent → gn < numberOfGenerations
  count : count = {gn ∈ Finset.range numberOfGenerations | status gn = .nonexistent}.card

/-- The list by age has live generations, and all that are to be collected. -/
structure AgesSound (older younger : Nat → Nat) (status : Nat → GenerationStatus)
    (ages : List Nat) : Prop where
  linked : DoublyLinked older younger invalidGenerationNumber invalidGenerationNumber
    (ages.headD invalidGenerationNumber) ages invalidGenerationNumber
  live : ∀ gn ∈ ages, (status gn).IsLive
  marked : ∀ {gn}, status gn = .toBeCollected → gn ∈ ages

/-- The generations that were collected into a live one; those that are being collected
into `to_gn` are among them. -/
structure FromsSound (status : Nat → GenerationStatus) (fromGn nextFrom : Nat → Nat) (toGn : Nat)
    (froms : Nat → List Nat) : Prop where
  linked : ∀ {gn}, (status gn).IsLive →
    Linked nextFrom invalidGenerationNumber (fromGn gn) (froms gn)
  collected : ∀ {gn x}, (status gn).IsLive → x ∈ froms gn →
    status x = .collectedOnce ∨ gn = toGn ∧ status x = .beingCollected
  unique : ∀ {gn gn' x}, (status gn).IsLive → (status gn').IsLive → x ∈ froms gn → x ∈ froms gn' →
    gn = gn'

structure TwiceSound (status : Nat → GenerationStatus) (nextCollectedTwice : Nat → Nat)
    (generationsCollectedTwice : Nat) (twice : List Nat) : Prop where
  linked : Linked nextCollectedTwice invalidGenerationNumber generationsCollectedTwice twice
  collected : ∀ gn ∈ twice, status gn = .collectedTwice

/-- An allocated page refers to the entry of a live generation that has it. -/
structure PagesSound (numberOfPages : Nat) (owned : Prop) (status : Nat → GenerationStatus)
    (page : Nat → List Nat) (address : Nat → Nat) (pageIsAllocated : Nat → Bool)
    (pageGeneration : Nat → Nat) (listOfFreePages : List Nat) : Prop where
  refers : ∀ {pn}, pageIsAllocated pn → pn < numberOfPages ∧
    ∃ gn, (status gn).IsLive ∧ pn ∈ page gn ∧ pageGeneration pn = address gn
  free : ∀ pn ∈ listOfFreePages, pn < numberOfPages
  allocated : owned → ∀ {gn pn}, (status gn).IsLive → pn ∈ page gn →
    pageIsAllocated pn ∧ pageGeneration pn = address gn
  nodup : owned → ∀ {gn}, (status gn).IsLive → (page gn).Nodup
  freeNodup : owned → listOfFreePages.Nodup
  notAllocated : owned → ∀ pn ∈ listOfFreePages, pageIsAllocated pn = false

/-- The record agrees with the table: the disk pages that a number got and did not give
back are those of the generation that has it now.  A database that was created was never
recovered. -/
structure HistorySound (owned : Prop) (isRecovering : Bool) (history : List GenerationEvent)
    (status : Nat → GenerationStatus) (diskPage : Nat → List Nat) : Prop where
  last : ∀ gn, lastStatus gn history = status gn
  orderly : Orderly history
  kept : ∀ gn, diskPagesGot gn history =
    diskPagesFreed gn history ++ if status gn = .nonexistent then [] else diskPage gn
  created : owned → isRecovering = false ∧ ∀ gn st, .status gn st true ∉ history

structure Generations.Sound (numberOfPages : Nat) (owned : Prop) (s : Generations)
    (ages : List Nat) (froms : Nat → List Nat) (twice : List Nat) : Prop where
  table : TableSound s.numberOfGenerations s.allocateGn s.numberOfNonexistentGenerations s.status
  ages : AgesSound s.older s.younger s.status ages
  froms : FromsSound s.status s.fromGn s.nextFrom s.toGn froms
  twice : TwiceSound s.status s.nextCollectedTwice s.generationsCollectedTwice twice
  pages : PagesSound numberOfPages owned s.status s.page s.address s.pageIsAllocated
    s.pageGeneration s.listOfFreePages
  history : HistorySound owned s.isRecovering s.history s.status s.diskPage

/-- The arrays of a generation have as many elements as it has pages, except perhaps
those of one generation. -/
structure Generations.ArraysSound (s : Generations) (except : Option Nat) : Prop where
  page : ∀ {gn}, (s.status gn).IsLive → gn ∉ except → (s.page gn).length = s.npages gn
  diskPage : ∀ {gn}, s.status gn ≠ .nonexistent → gn ∉ except →
    (s.diskPage gn).length = s.npages gn

/-! ## statuses -/

section status

variable {status : Nat → GenerationStatus} {st : GenerationStatus} {gn g : Nat}

@[simp] theorem isLive_normal : GenerationStatus.IsLive .normal := .inl rfl

@[simp] theorem isLive_toBeCollected : GenerationStatus.IsLive .toBeCollected := .inr (.inl rfl)

@[simp] theorem isLive_beingCollected : GenerationStatus.IsLive .beingCollected := .inr (.inr rfl)

@[simp] theorem not_isLive_nonexistent : ¬ GenerationStatus.IsLive .nonexistent := by decide

@[simp] theorem not_isLive_collectedOnce : ¬ GenerationStatus.IsLive .collectedOnce := by decide

@[simp] theorem not_isLive_collectedTwice : ¬ GenerationStatus.IsLive .collectedTwice := by decide

theorem GenerationStatus.IsLive.ne_nonexistent (h : st.IsLive) : st ≠ .nonexistent := by
  rintro rfl
  exact not_isLive_nonexistent h

/-- A live generation that stays live. -/
theorem isLive_update (hgn : (status gn).IsLive) (hst : st.IsLive) :
    (Function.update status gn st g).IsLive ↔ (status g).IsLive := by
  by_cases h : g = gn
  · subst h
    simp [hgn, hst]
  · rw [Function.update_of_ne h]

/-- A generation that is not live afterwards. -/
theorem isLive_update_of_not (hst : ¬ st.IsLive) :
    (Function.update status gn st g).IsLive ↔ g ≠ gn ∧ (status g).IsLive := by
  by_cases h : g = gn
  · subst h
    simp [hst]
  · rw [Function.update_of_ne h]
    exact (and_iff_right h).symm

end status

/-! ## the table -/

namespace TableSound

variable {n cursor count gn : Nat} {status : Nat → GenerationStatus} {st : GenerationStatus}

theorem ne_invalid (h : TableSound n cursor count status) (hgn : status gn ≠ .nonexistent) :
    gn ≠ invalidGenerationNumber :=
  Nat.ne_of_lt (Nat.lt_of_lt_of_le (h.inside hgn) h.le)

theorem change (h : TableSound n cursor count status) (hgn : status gn ≠ .nonexistent)
    (hst : st ≠ .nonexistent) : TableSound n cursor count (Function.update status gn st) where
  pos := h.pos
  le := h.le
  cursor_lt := h.cursor_lt
  inside := by
    intro g hg
    by_cases heq : g = gn
    · exact heq ▸ h.inside hgn
    · rw [Function.update_of_ne heq] at hg
      exact h.inside hg
  count := by
    rw [h.count]
    congr 1
    refine Finset.filter_congr fun g _ => ?_
    by_cases heq : g = gn
    · subst heq
      simp [hgn, hst]
    · rw [Function.update_of_ne heq]

/-- A free entry is taken. -/
theorem take (h : TableSound n cursor count status) (hlt : gn < n)
    (hgn : status gn = .nonexistent) (hst : st ≠ .nonexistent) :
    TableSound n cursor (count - 1) (Function.update status gn st) where
  pos := h.pos
  le := h.le
  cursor_lt := h.cursor_lt
  inside := by
    intro g hg
    by_cases heq : g = gn
    · exact heq ▸ hlt
    · rw [Function.update_of_ne heq] at hg
      exact h.inside hg
  count := by
    rw [h.count, ← Finset.card_erase_of_mem (a := gn) (by simp [hlt, hgn])]
    congr 1
    ext g
    by_cases heq : g = gn
    · subst heq
      simp [hst]
    · simp [heq]

/-- An entry is free again. -/
theorem release (h : TableSound n cursor count status) (hgn : status gn ≠ .nonexistent) :
    TableSound n cursor (count + 1) (Function.update status gn .nonexistent) where
  pos := h.pos
  le := h.le
  cursor_lt := h.cursor_lt
  inside := by
    intro g hg
    by_cases heq : g = gn
    · exact heq ▸ h.inside hgn
    · rw [Function.update_of_ne heq] at hg
      exact h.inside hg
  count := by
    rw [h.count, ← Finset.card_insert_of_notMem (a := gn) (by simp [hgn])]
    congr 1
    ext g
    by_cases heq : g = gn
    · subst heq
      simp [h.inside hgn]
    · simp [heq]

end TableSound

/-! ## the list by age -/

namespace AgesSound

variable {older younger older' younger' : Nat → Nat} {status status' : Nat → GenerationStatus}
  {ages : List Nat} {gn : Nat} {st : GenerationStatus}

theorem nodup (h : AgesSound older younger status ages) : ages.Nodup := h.linked.nodup

theorem length_le (h : AgesSound older younger status ages) {n : Nat}
    (hinside : ∀ {gn}, status gn ≠ .nonexistent → gn < n) : ages.length ≤ n := by
  have hsub : ages.toFinset ⊆ Finset.range n := by
    intro gn hgn
    simpa using hinside (h.live gn (List.mem_toFinset.mp hgn)).ne_nonexistent
  have hcard := Finset.card_le_card hsub
  rwa [List.toFinset_card_of_nodup h.nodup, Finset.card_range] at hcard

/-- The links of generations that are not in the list do not matter, nor does their
status. -/
theorem congr (h : AgesSound older younger status ages)
    (holder : ∀ g ∈ ages, older' g = older g) (hyounger : ∀ g ∈ ages, younger' g = younger g)
    (hlive : ∀ g ∈ ages, (status' g).IsLive)
    (hmarked : ∀ g, status' g = .toBeCollected → g ∈ ages) :
    AgesSound older' younger' status' ages where
  linked := h.linked.congr holder hyounger
  live := hlive
  marked := hmarked _

/-- The status of a generation that is in the list and stays there. -/
theorem change (h : AgesSound older younger status ages) (hgn : gn ∈ ages) (hst : st.IsLive) :
    AgesSound older younger (Function.update status gn st) ages := by
  refine h.congr (fun _ _ => rfl) (fun _ _ => rfl) (fun g hg => ?_) fun g hg => ?_
  · exact (isLive_update (h.live gn hgn) hst).mpr (h.live g hg)
  · by_cases heq : g = gn
    · exact heq ▸ hgn
    · rw [Function.update_of_ne heq] at hg
      exact h.marked hg

/-- The status of a generation that is not in the list. -/
theorem change_outside (h : AgesSound older younger status ages) (hgn : gn ∉ ages)
    (hst : st ≠ .toBeCollected) : AgesSound older younger (Function.update status gn st) ages := by
  refine h.congr (fun _ _ => rfl) (fun _ _ => rfl) (fun g hg => ?_) fun g hg => ?_
  · rw [Function.update_of_ne (ne_of_mem_of_not_mem hg hgn)]
    exact h.live g hg
  · by_cases heq : g = gn
    · subst heq
      rw [Function.update_self] at hg
      exact absurd hg hst
    · rw [Function.update_of_ne heq] at hg
      exact h.marked hg

end AgesSound

/-! ## the lists of collected generations -/

namespace FromsSound

variable {status : Nat → GenerationStatus} {fromGn nextFrom : Nat → Nat} {toGn gn : Nat}
  {froms : Nat → List Nat} {st : GenerationStatus}

theorem ne_nonexistent (h : FromsSound status fromGn nextFrom toGn froms)
    (hgn : (status gn).IsLive) {x : Nat} (hx : x ∈ froms gn) : status x ≠ .nonexistent := by
  intro hnone
  have := h.collected hgn hx
  simp [hnone] at this

/-- A live generation that stays live, and is not being collected before or after. -/
theorem change (h : FromsSound status fromGn nextFrom toGn froms) (hgn : (status gn).IsLive)
    (hnot : status gn ≠ .beingCollected) (hst : st.IsLive) :
    FromsSound (Function.update status gn st) fromGn nextFrom toGn froms where
  linked := fun hg => h.linked ((isLive_update hgn hst).mp hg)
  collected := by
    intro g x hg hx
    have hold := h.collected ((isLive_update hgn hst).mp hg) hx
    by_cases heq : x = gn
    · subst heq
      refine absurd hold fun hold => hold.elim (fun honce => ?_) fun hbeing => hnot hbeing.2
      simp [honce] at hgn
    · rwa [Function.update_of_ne heq]
  unique := fun hg hg' => h.unique ((isLive_update hgn hst).mp hg) ((isLive_update hgn hst).mp hg')

/-- A generation is collected into `to_gn`. -/
theorem begin (h : FromsSound status fromGn nextFrom toGn froms) (hto : (status toGn).IsLive)
    (hgn : status gn = .toBeCollected) (hvalid : gn ≠ invalidGenerationNumber) :
    FromsSound (Function.update status gn .beingCollected) (Function.update fromGn toGn gn)
      (Function.update nextFrom gn (fromGn toGn)) toGn
      (Function.update froms toGn (gn :: froms toGn)) := by
  have hlive : (status gn).IsLive := by simp [hgn]
  have hiff : ∀ {g}, (Function.update status gn .beingCollected g).IsLive ↔ (status g).IsLive :=
    isLive_update hlive isLive_beingCollected
  have hfresh : ∀ {g}, (status g).IsLive → gn ∉ froms g := by
    intro g hg hmem
    have := h.collected hg hmem
    simp [hgn] at this
  have hold : ∀ {g x}, x ≠ gn → x ∈ Function.update froms toGn (gn :: froms toGn) g →
      x ∈ froms g := by
    intro g x hxgn hx
    by_cases heq : g = toGn
    · subst heq
      rw [Function.update_self] at hx
      exact (List.mem_cons.mp hx).resolve_left hxgn
    · rwa [Function.update_of_ne heq] at hx
  have honly : ∀ {g}, (status g).IsLive →
      gn ∈ Function.update froms toGn (gn :: froms toGn) g → g = toGn := by
    intro g hg hx
    by_contra heq
    rw [Function.update_of_ne heq] at hx
    exact hfresh hg hx
  constructor
  case linked =>
    intro g hg
    rw [hiff] at hg
    by_cases heq : g = toGn
    · subst heq
      simp only [Function.update_self]
      exact (h.linked hg).push hvalid (hfresh hg)
    · simp only [Function.update_of_ne heq]
      exact (h.linked hg).congr fun x hx =>
        Function.update_of_ne (ne_of_mem_of_not_mem hx (hfresh hg)) _ _
  case collected =>
    intro g x hg hx
    rw [hiff] at hg
    by_cases hxgn : x = gn
    · subst hxgn
      exact .inr ⟨honly hg hx, Function.update_self ..⟩
    · rw [Function.update_of_ne hxgn]
      exact h.collected hg (hold hxgn hx)
  case unique =>
    intro g g' x hg hg' hx hx'
    rw [hiff] at hg hg'
    by_cases hxgn : x = gn
    · subst hxgn
      rw [honly hg hx, honly hg' hx']
    · exact h.unique hg hg' (hold hxgn hx) (hold hxgn hx')

/-- A generation was collected. -/
theorem finish (h : FromsSound status fromGn nextFrom toGn froms)
    (hgn : status gn = .beingCollected) :
    FromsSound (Function.update status gn .collectedOnce) fromGn nextFrom toGn froms := by
  have hlive : ∀ {g}, (Function.update status gn .collectedOnce g).IsLive → (status g).IsLive :=
    fun hg => ((isLive_update_of_not not_isLive_collectedOnce).mp hg).2
  constructor
  case linked => exact fun hg => h.linked (hlive hg)
  case collected =>
    intro g x hg hx
    by_cases hxgn : x = gn
    · subst hxgn
      exact .inl (Function.update_self ..)
    · rw [Function.update_of_ne hxgn]
      exact h.collected (hlive hg) hx
  case unique => exact fun hg hg' => h.unique (hlive hg) (hlive hg')

/-- A generation that no live one has in its list gets another status. -/
theorem change_outside (h : FromsSound status fromGn nextFrom toGn froms)
    (hst : ¬ st.IsLive) (hgn : ∀ {g}, (status g).IsLive → gn ∉ froms g) :
    FromsSound (Function.update status gn st) fromGn nextFrom toGn froms := by
  have hlive : ∀ {g}, (Function.update status gn st g).IsLive → (status g).IsLive :=
    fun hg => ((isLive_update_of_not hst).mp hg).2
  constructor
  case linked => exact fun hg => h.linked (hlive hg)
  case collected =>
    intro g x hg hx
    rw [Function.update_of_ne (ne_of_mem_of_not_mem hx (hgn (hlive hg)))]
    exact h.collected (hlive hg) hx
  case unique => exact fun hg hg' => h.unique (hlive hg) (hlive hg')

end FromsSound

namespace TwiceSound

variable {status : Nat → GenerationStatus} {nextCollectedTwice : Nat → Nat} {head gn : Nat}
  {twice : List Nat}

theorem change (h : TwiceSound status nextCollectedTwice head twice)
    (hgn : status gn ≠ .collectedTwice) (st : GenerationStatus) :
    TwiceSound (Function.update status gn st) nextCollectedTwice head twice where
  linked := h.linked
  collected := by
    intro g hg
    have hne : g ≠ gn := by
      rintro rfl
      exact hgn (h.collected g hg)
    rw [Function.update_of_ne hne]
    exact h.collected g hg

end TwiceSound

/-! ## pages -/

namespace PagesSound

variable {numberOfPages : Nat} {owned : Prop} {status : Nat → GenerationStatus}
  {page : Nat → List Nat} {address : Nat → Nat} {pageIsAllocated : Nat → Bool}
  {pageGeneration : Nat → Nat} {gn pn : Nat} {rest : List Nat}

/-- A free page becomes a page of the generation. -/
theorem add (h : PagesSound numberOfPages owned status page address pageIsAllocated
    pageGeneration (pn :: rest)) (hlive : (status gn).IsLive) (hpn : pageIsAllocated pn = false) :
    PagesSound numberOfPages owned status (Function.update page gn (page gn ++ [pn])) address
      (Function.update pageIsAllocated pn true) (Function.update pageGeneration pn (address gn))
      rest := by
  have hsub : ∀ g, page g ⊆ Function.update page gn (page gn ++ [pn]) g := by
    intro g
    by_cases heq : g = gn
    · subst heq
      simp
    · simp [Function.update_of_ne heq]
  have hold : ∀ {g p}, p ∈ Function.update page gn (page gn ++ [pn]) g →
      p ∈ page g ∨ g = gn ∧ p = pn := by
    intro g p hp
    by_cases heq : g = gn
    · subst heq
      simpa using hp
    · rw [Function.update_of_ne heq] at hp
      exact .inl hp
  have hother : owned → ∀ {g p}, (status g).IsLive → p ∈ page g → p ≠ pn := by
    rintro ho g p hg hp rfl
    have := (h.allocated ho hg hp).1
    simp [hpn] at this
  constructor
  case refers =>
    intro p hp
    by_cases heq : p = pn
    · subst heq
      exact ⟨h.free p List.mem_cons_self, gn, hlive, by simp, by simp⟩
    · rw [Function.update_of_ne heq] at hp ⊢
      obtain ⟨hlt, g, hg, hmem, haddress⟩ := h.refers hp
      exact ⟨hlt, g, hg, hsub g hmem, haddress⟩
  case free => exact fun p hp => h.free p (List.mem_cons_of_mem _ hp)
  case allocated =>
    intro ho g p hg hp
    rcases hold hp with hp | ⟨rfl, rfl⟩
    · have hne := hother ho hg hp
      rw [Function.update_of_ne hne, Function.update_of_ne hne]
      exact h.allocated ho hg hp
    · simp
  case nodup =>
    intro ho g hg
    by_cases heq : g = gn
    · subst heq
      rw [Function.update_self]
      exact (h.nodup ho hg).append (List.nodup_singleton _)
        (by simpa using fun hmem => hother ho hg hmem rfl)
    · rw [Function.update_of_ne heq]
      exact h.nodup ho hg
  case freeNodup => exact fun ho => (h.freeNodup ho).of_cons
  case notAllocated =>
    intro ho p hp
    have hne : p ≠ pn := ne_of_mem_of_not_mem hp (List.nodup_cons.mp (h.freeNodup ho)).1
    rw [Function.update_of_ne hne]
    exact h.notAllocated ho p (List.mem_cons_of_mem _ hp)

/-- A page of the generation is free again. -/
theorem remove (h : PagesSound numberOfPages owned status page address pageIsAllocated
    pageGeneration rest) (hinj : Function.Injective address) (hlive : (status gn).IsLive)
    {pns : List Nat} (hpage : page gn = pn :: pns) (hpn : pageIsAllocated pn = true)
    (isRecovering : Bool) :
    PagesSound numberOfPages owned status (Function.update page gn pns) address
      (Function.update pageIsAllocated pn false) (Function.update pageGeneration pn 0)
      (if isRecovering then rest else pn :: rest) := by
  have hsub : ∀ g, Function.update page gn pns g ⊆ page g := by
    intro g
    by_cases heq : g = gn
    · subst heq
      simp [hpage]
    · simp [Function.update_of_ne heq]
  have hother : owned → ∀ {g p}, (status g).IsLive → p ∈ Function.update page gn pns g →
      p ≠ pn := by
    rintro ho g p hg hp rfl
    by_cases heq : g = gn
    · -- no page is twice in a generation
      subst heq
      have hnodup := h.nodup ho hg
      rw [Function.update_self] at hp
      rw [hpage] at hnodup
      exact (List.nodup_cons.mp hnodup).1 hp
    · -- or in two of them
      have hmine := (h.allocated ho hlive (hpage ▸ List.mem_cons_self)).2
      rw [(h.allocated ho hg (hsub g hp)).2] at hmine
      exact heq (hinj hmine)
  constructor
  case refers =>
    intro p hp
    by_cases heq : p = pn
    · subst heq
      simp at hp
    · rw [Function.update_of_ne heq] at hp ⊢
      obtain ⟨hlt, g, hg, hmem, haddress⟩ := h.refers hp
      refine ⟨hlt, g, hg, ?_, haddress⟩
      by_cases hggn : g = gn
      · subst hggn
        rw [hpage] at hmem
        simpa using (List.mem_cons.mp hmem).resolve_left heq
      · rwa [Function.update_of_ne hggn]
  case free =>
    intro p hp
    cases isRecovering with
    | true => exact h.free p hp
    | false =>
      rcases List.mem_cons.mp hp with rfl | hp
      · exact (h.refers hpn).1
      · exact h.free p hp
  case allocated =>
    intro ho g p hg hp
    have hne := hother ho hg hp
    rw [Function.update_of_ne hne, Function.update_of_ne hne]
    exact h.allocated ho hg (hsub g hp)
  case nodup =>
    intro ho g hg
    by_cases heq : g = gn
    · subst heq
      have hnodup := h.nodup ho hg
      rw [hpage] at hnodup
      rw [Function.update_self]
      exact hnodup.of_cons
    · rw [Function.update_of_ne heq]
      exact h.nodup ho hg
  case freeNodup =>
    intro ho
    cases isRecovering with
    | true => exact h.freeNodup ho
    | false =>
      exact List.nodup_cons.mpr ⟨fun hmem => by simp [h.notAllocated ho pn hmem] at hpn,
        h.freeNodup ho⟩
  case notAllocated =>
    intro ho p hp
    by_cases heq : p = pn
    · subst heq
      simp
    · rw [Function.update_of_ne heq]
      refine h.notAllocated ho p ?_
      cases isRecovering with
      | true => exact hp
      | false => exact (List.mem_cons.mp hp).resolve_left heq

/-- Only the live generations matter, and of these the ones with pages. -/
theorem congr (h : PagesSound numberOfPages owned status page address pageIsAllocated
    pageGeneration rest) {status' : Nat → GenerationStatus}
    (hlive : ∀ g, page g ≠ [] → ((status' g).IsLive ↔ (status g).IsLive)) :
    PagesSound numberOfPages owned status' page address pageIsAllocated pageGeneration rest where
  refers := by
    intro p hp
    obtain ⟨hlt, g, hg, hmem, haddress⟩ := h.refers hp
    exact ⟨hlt, g, (hlive g (List.ne_nil_of_mem hmem)).mpr hg, hmem, haddress⟩
  free := h.free
  allocated := fun ho {g p} hg hp =>
    h.allocated ho ((hlive g (List.ne_nil_of_mem hp)).mp hg) hp
  nodup := by
    intro ho g hg
    by_cases hnil : page g = []
    · simp [hnil]
    · exact h.nodup ho ((hlive g hnil).mp hg)
  freeNodup := h.freeNodup
  notAllocated := h.notAllocated

end PagesSound

/-! ## the record -/

section history

variable {owned : Prop} {history : List GenerationEvent} {status : Nat → GenerationStatus}
  {diskPage : Nat → List Nat} {gn g : Nat} {st : GenerationStatus} {isRecovering : Bool}
  {dpns : List Nat}

theorem lastStatus_append_diskPage :
    lastStatus g ((dpns.map (.diskPage gn)).reverse ++ history) = lastStatus g history := by
  induction dpns using List.reverseRecOn with
  | nil => rfl
  | append_singleton dpns dpn ih => simpa [lastStatus] using ih

theorem lastStatus_append_freeDiskPage :
    lastStatus g ((dpns.map (.freeDiskPage gn)).reverse ++ history) = lastStatus g history := by
  induction dpns using List.reverseRecOn with
  | nil => rfl
  | append_singleton dpns dpn ih => simpa [lastStatus] using ih

theorem orderly_append_diskPage :
    Orderly ((dpns.map (.diskPage gn)).reverse ++ history) ↔ Orderly history := by
  induction dpns using List.reverseRecOn with
  | nil => rfl
  | append_singleton dpns dpn ih => simpa [Orderly] using ih

theorem orderly_append_freeDiskPage :
    Orderly ((dpns.map (.freeDiskPage gn)).reverse ++ history) ↔ Orderly history := by
  induction dpns using List.reverseRecOn with
  | nil => rfl
  | append_singleton dpns dpn ih => simpa [Orderly] using ih

theorem diskPagesGot_append_diskPage :
    diskPagesGot g ((dpns.map (.diskPage gn)).reverse ++ history) =
      diskPagesGot g history ++ if gn = g then dpns else [] := by
  induction dpns using List.reverseRecOn with
  | nil => simp
  | append_singleton dpns dpn ih =>
    by_cases h : gn = g <;> simp [diskPagesGot, h] at ih ⊢ <;> simp [ih]

theorem diskPagesGot_append_freeDiskPage :
    diskPagesGot g ((dpns.map (.freeDiskPage gn)).reverse ++ history) = diskPagesGot g history := by
  induction dpns using List.reverseRecOn with
  | nil => rfl
  | append_singleton dpns dpn ih => simpa [diskPagesGot] using ih

theorem diskPagesFreed_append_diskPage :
    diskPagesFreed g ((dpns.map (.diskPage gn)).reverse ++ history) = diskPagesFreed g history := by
  induction dpns using List.reverseRecOn with
  | nil => rfl
  | append_singleton dpns dpn ih => simpa [diskPagesFreed] using ih

theorem diskPagesFreed_append_freeDiskPage :
    diskPagesFreed g ((dpns.map (.freeDiskPage gn)).reverse ++ history) =
      diskPagesFreed g history ++ if gn = g then dpns else [] := by
  induction dpns using List.reverseRecOn with
  | nil => simp
  | append_singleton dpns dpn ih =>
    by_cases h : gn = g <;> simp [diskPagesFreed, h] at ih ⊢ <;> simp [ih]

namespace HistorySound

theorem last_cons (h : HistorySound owned isRecovering history status diskPage) (g : Nat) :
    lastStatus g (.status gn st isRecovering :: history) = Function.update status gn st g := by
  by_cases heq : gn = g
  · subst heq
    simp [lastStatus]
  · rw [Function.update_of_ne (Ne.symm heq), ← h.last g]
    simp [lastStatus, heq]

theorem orderly_cons (h : HistorySound owned isRecovering history status diskPage)
    (hstep : (status gn).MayBecome isRecovering st) :
    Orderly (.status gn st isRecovering :: history) :=
  ⟨by rwa [h.last gn], h.orderly⟩

theorem created_cons (h : HistorySound owned isRecovering history status diskPage) (ho : owned) :
    isRecovering = false ∧ ∀ g st', .status g st' true ∉
      GenerationEvent.status gn st isRecovering :: history := by
  obtain ⟨hnot, hnone⟩ := h.created ho
  exact ⟨hnot, by simp [hnot, hnone]⟩

/-- A generation gets another status, and keeps its disk pages. -/
theorem change (h : HistorySound owned isRecovering history status diskPage)
    (hstep : (status gn).MayBecome isRecovering st) (hgn : status gn ≠ .nonexistent)
    (hst : st ≠ .nonexistent) :
    HistorySound owned isRecovering (.status gn st isRecovering :: history) (Function.update status gn st)
      diskPage where
  last := h.last_cons
  orderly := h.orderly_cons hstep
  kept := by
    intro g
    have hkept := h.kept g
    by_cases heq : g = gn
    · subst heq
      simpa [hgn, hst, diskPagesGot, diskPagesFreed] using hkept
    · rwa [Function.update_of_ne heq]
  created := h.created_cons

/-- A number is taken to use, without disk pages. -/
theorem take (h : HistorySound owned isRecovering history status diskPage) (hgn : status gn = .nonexistent) :
    HistorySound owned isRecovering (.status gn .normal isRecovering :: history)
      (Function.update status gn .normal) (Function.update diskPage gn []) where
  last := h.last_cons
  orderly := h.orderly_cons (.inl (by rw [hgn]; rfl))
  kept := by
    intro g
    have hkept := h.kept g
    by_cases heq : g = gn
    · subst heq
      simpa [hgn, diskPagesGot, diskPagesFreed] using hkept
    · rwa [Function.update_of_ne heq, Function.update_of_ne heq]
  created := h.created_cons

/-- A generation that was collected twice is gone, and its disk pages are freed. -/
theorem release (h : HistorySound owned isRecovering history status diskPage) (hgn : status gn = .collectedTwice) :
    HistorySound owned isRecovering
      (((diskPage gn).map (.freeDiskPage gn)).reverse ++
        .status gn .nonexistent isRecovering :: history)
      (Function.update status gn .nonexistent) diskPage where
  last := fun g => by rw [lastStatus_append_freeDiskPage, h.last_cons]
  orderly := orderly_append_freeDiskPage.mpr (h.orderly_cons (.inl (by rw [hgn]; rfl)))
  kept := by
    intro g
    have hkept := h.kept g
    rw [diskPagesGot_append_freeDiskPage, diskPagesFreed_append_freeDiskPage]
    by_cases heq : g = gn
    · subst heq
      simpa [hgn, diskPagesGot, diskPagesFreed] using hkept
    · simpa [Function.update_of_ne heq, Ne.symm heq, diskPagesGot, diskPagesFreed] using hkept
  created := fun ho => by simpa using h.created_cons ho

/-- A generation gets its disk pages. -/
theorem set (h : HistorySound owned isRecovering history status diskPage) (hgn : status gn ≠ .nonexistent)
    (hempty : diskPage gn = []) :
    HistorySound owned isRecovering ((dpns.map (.diskPage gn)).reverse ++ history) status
      (Function.update diskPage gn dpns) where
  last := fun g => by rw [lastStatus_append_diskPage, h.last]
  orderly := orderly_append_diskPage.mpr h.orderly
  kept := by
    intro g
    have hkept := h.kept g
    rw [diskPagesGot_append_diskPage, diskPagesFreed_append_diskPage]
    by_cases heq : g = gn
    · subst heq
      rw [hempty] at hkept
      simp [hgn, hkept]
    · rw [Function.update_of_ne heq, if_neg (Ne.symm heq), List.append_nil, hkept]
  created := fun ho => by simpa using h.created ho

end HistorySound

end history

end Shades
