import Shades.Gc.HeapInvariant

/-!
# Shades.Gc.Replaced

Some generations, or the first generation, are replaced by a new one.

`Replacing` is what both kinds of collections have in common.  The new generation comes
after the generations `pre`, which may refer to what is collected, and before the
generations `rest`, which what is collected may refer to.  All cells of `pre` and `rest`
are found again where they were, and those that were collected where their copies are.
-/

namespace Shades

namespace Heap

/-- The cells `B` are collected into `to_gn`, from the slots `roots`, instead of all cells of
the generations `gns`. -/
structure Replacing (params : HeapParams) (s₀ : Heap) (cells : Nat → List Nat) (B : Nat → Prop)
    (roots pre gns rest : List Nat) : Prop where
  collects : s₀.FromSpace params B roots
  mature : MatureSound params s₀ cells (pre ++ (gns ++ rest))
  fresh : s₀.gens.toGn ∉ pre ++ (gns ++ rest)
  arrays : s₀.gens.ArraysSound none
  diskPage : s₀.gens.diskPage s₀.gens.toGn = []
  reached : ∀ {p}, B p → (cellGraph s₀.words B).Reached roots p
  refs : ∀ {p b}, B p → b ∈ slots s₀.words p →
    B (wordToPtr (s₀.words b)) ∨ wordToPtr (s₀.words b) ∈ s₀.cellsIn cells rest
  nodup : (pre ++ (gns ++ rest)).Nodup
  source : ∀ {p}, B p → p ∈ s₀.cellsIn cells gns ∨ params.firstGenerationEnd ≤ p
  remembered : ∀ {p b}, p ∈ s₀.cellsIn cells pre → b ∈ slots s₀.words p →
    wordToPtr (s₀.words b) ∈ s₀.cellsIn cells gns → b ∈ roots
  roots : ∀ {b}, b ∈ roots → (∃ p ∈ s₀.cellsIn cells pre, b ∈ slots s₀.words p) ∨
    params.firstGenerationEnd ≤ b

section replacing

variable {params : HeapParams} {s₀ t : Heap} {B : Nat → Prop} {cells rems : Nat → List Nat}
  {roots pre gns rest : List Nat} {c : CopyState} {p q a b gn pn : Nat}

/-- The cells in the pages after the collection. -/
def cellsAfter (cells : Nat → List Nat) (c : CopyState) (t : Heap) (pn : Nat) : List Nat :=
  if pn ∈ t.gens.page t.gens.toGn then (c.olds pn).map c.move else cells pn

namespace Replacing

theorem visited_iff (h : Replacing params s₀ cells B roots pre gns rest)
    (hc : Collected params s₀ B roots rems c t) : p ∈ c.visited ↔ B p :=
  ⟨hc.cells p, fun hp => hc.visited_iff.mpr (h.reached hp)⟩

theorem mem_all (gns : List Nat) (hp : p ∈ s₀.cellsIn cells (pre ++ rest)) :
    p ∈ s₀.cellsIn cells (pre ++ (gns ++ rest)) := by
  refine cellsIn_subset ?_ hp
  intro gn hgn
  simp only [List.mem_append] at hgn ⊢
  exact hgn.imp_right .inr

/-- A cell that is collected is apart from those of the other generations. -/
theorem outside (h : Replacing params s₀ cells B roots pre gns rest) (hp : B p)
    (hq : q ∈ s₀.cellsIn cells (pre ++ rest)) (ha : InsideCell s₀.words p a) :
    ¬ InsideCell s₀.words q a := by
  intro ha'
  rcases h.source hp with hp | hle
  · obtain ⟨gn, hgn, hp⟩ := mem_single hp
    obtain ⟨gn', hgn', hq⟩ := mem_single hq
    have hall : gn' ∈ pre ++ (gns ++ rest) := by
      simp only [List.mem_append] at hgn' ⊢
      exact hgn'.imp_right .inr
    obtain ⟨-, rfl⟩ := h.mature.apart (by simp [hgn]) hall hp hq ha ha'
    have hnodup := List.perm_append_comm_assoc pre gns rest |>.nodup_iff.mp h.nodup
    exact (List.nodup_append.mp hnodup).2.2 gn hgn gn hgn' rfl
  · exact absurd (h.mature.lt_end (mem_all _ hq) ha') (Nat.not_lt.mpr (hle.trans ha.1))

/-- The cells of the other generations stay where they are. -/
theorem move_eq_self (h : Replacing params s₀ cells B roots pre gns rest)
    (hc : Collected params s₀ B roots rems c t) (hp : p ∈ s₀.cellsIn cells (pre ++ rest))
    (ha : InsideCell s₀.words p a) : c.move a = a :=
  hc.move_of_not fun q hq hin => h.outside (hc.cells q hq) hp hin ha

theorem self_inside (h : Replacing params s₀ cells B roots pre gns rest)
    (hp : p ∈ s₀.cellsIn cells (pre ++ rest)) : InsideCell s₀.words p p :=
  h.mature.self_inside (mem_all _ hp)

theorem move_self (h : Replacing params s₀ cells B roots pre gns rest)
    (hc : Collected params s₀ B roots rems c t) (hp : p ∈ s₀.cellsIn cells (pre ++ rest)) :
    c.move p = p :=
  h.move_eq_self hc hp (h.self_inside hp)

/-- Only slots of the cells in `pre` are changed. -/
theorem slot_of_root (h : Replacing params s₀ cells B roots pre gns rest)
    (hp : p ∈ s₀.cellsIn cells (pre ++ rest)) (ha : InsideCell s₀.words p a) (hroot : a ∈ roots) :
    p ∈ s₀.cellsIn cells pre ∧ a ∈ slots s₀.words p := by
  have hall := mem_all gns hp
  rcases h.roots hroot with ⟨q, hq, hslot⟩ | hle
  · have hq' : q ∈ s₀.cellsIn cells (pre ++ (gns ++ rest)) := mem_cellsIn_append.mpr (.inl hq)
    obtain ⟨hlt, hlt'⟩ := (h.mature.ok hq').slot_bounds hslot
    obtain rfl := h.mature.eq_of_inside hall hq' ha ⟨Nat.le_of_lt hlt, hlt'⟩
    exact ⟨hq, hslot⟩
  · exact absurd (h.mature.lt_end hall ha) (Nat.not_lt.mpr hle)

theorem word_eq (h : Replacing params s₀ cells B roots pre gns rest)
    (hc : Collected params s₀ B roots rems c t) (hp : p ∈ s₀.cellsIn cells (pre ++ rest))
    (ha : InsideCell s₀.words p a) (hroot : a ∉ roots) : t.words a = s₀.words a :=
  hc.other (h.mature.elsewhere h.fresh (mem_all _ hp) ha) hroot fun q hq hin =>
    h.outside (hc.cells q hq) hp hin ha

/-- What a cell of another generation refers to is not collected, or the slot is a root. -/
theorem target (h : Replacing params s₀ cells B roots pre gns rest)
    (hp : p ∈ s₀.cellsIn cells (pre ++ rest)) (hb : b ∈ slots s₀.words p) :
    b ∈ roots ∨ wordToPtr (s₀.words b) ∈ s₀.cellsIn cells (pre ++ rest) := by
  rcases mem_cellsIn_append.mp hp with hpre | hrest
  · have htarget := h.mature.closed (List.nil_append _).symm (mem_cellsIn_append.mpr (.inl hpre)) hb
    rw [mem_cellsIn_append, mem_cellsIn_append] at htarget
    rcases htarget with htarget | htarget | htarget
    · exact .inr (mem_cellsIn_append.mpr (.inl htarget))
    · exact .inl (h.remembered hpre hb htarget)
    · exact .inr (mem_cellsIn_append.mpr (.inr htarget))
  · have hsplit : pre ++ (gns ++ rest) = (pre ++ gns) ++ rest := (List.append_assoc ..).symm
    exact .inr (mem_cellsIn_append.mpr (.inr (h.mature.closed hsplit hrest hb)))

/-- The cells that there are after the collection. -/
def Live (s₀ : Heap) (cells : Nat → List Nat) (B : Nat → Prop) (pre rest : List Nat) (p : Nat) :
    Prop :=
  B p ∨ p ∈ s₀.cellsIn cells (pre ++ rest)

theorem cellMoved (h : Replacing params s₀ cells B roots pre gns rest)
    (hc : Collected params s₀ B roots rems c t) (hp : p ∈ s₀.cellsIn cells (pre ++ rest)) :
    CellMoved c.move s₀.words t.words p := by
  have hok := h.mature.ok (mem_all gns hp)
  have hself := h.self_inside hp
  have hmove := h.move_self hc hp
  refine ⟨?_, fun {type i} hmem => ?_⟩
  · rw [hmove]
    refine h.word_eq hc hp hself fun hroot => ?_
    exact Nat.lt_irrefl p (hok.slot_bounds (h.slot_of_root hp hself hroot).2).1
  · have hin : InsideCell s₀.words p (p + i) :=
      ⟨Nat.le_add_right p i, Nat.add_lt_add_left (hok.inside hmem) p⟩
    rw [hmove]
    cases hrefers : type.refers (s₀.words (p + i)) with
    | false =>
      rw [movedWord_of_not_refers hrefers]
      refine h.word_eq hc hp hin fun hroot => ?_
      obtain ⟨-, hslot⟩ := h.slot_of_root hp hin hroot
      obtain ⟨type', j, hmem', hrefers', hj⟩ := mem_slots.mp hslot
      obtain rfl : i = j := by omega
      have hne : type' ≠ .word := by
        rintro rfl
        simp at hrefers'
      rw [hok.type_eq hmem' hmem hne, hrefers'] at hrefers
      cases hrefers
    | true =>
      have hslot : p + i ∈ slots s₀.words p := mem_slots.mpr ⟨type, i, hmem, hrefers, rfl⟩
      rw [movedWord_of_refers hrefers (hok.aligned _ hslot)]
      by_cases hroot : p + i ∈ roots
      · exact hc.root hroot
      · rw [h.word_eq hc hp hin hroot, h.move_self hc ((h.target hp hslot).resolve_left hroot),
          hok.aligned _ hslot]

theorem relocated (h : Replacing params s₀ cells B roots pre gns rest)
    (hc : Collected params s₀ B roots rems c t) :
    Relocated c.move s₀.words t.words (Live s₀ cells B pre rest) where
  moved := by
    rintro p (hp | hp)
    · exact hc.moved ((h.visited_iff hc).mpr hp)
    · exact h.cellMoved hc hp
  ok := by
    rintro p (hp | hp)
    · exact h.collects.ok hp
    · exact h.mature.ok (mem_all _ hp)
  closed := by
    rintro p b (hp | hp) hb
    · exact (h.refs hp hb).imp_right fun htarget => mem_cellsIn_append.mpr (.inr htarget)
    · exact (h.target hp hb).imp_left fun hroot => (h.collects.rootsOk hroot).2.2
  ne_null := by
    rintro p (hp | hp)
    · obtain ⟨pn, hpn, hmem⟩ :=
        List.mem_flatMap.mp (hc.olds.mem_iff.mpr ((h.visited_iff hc).mpr hp))
      obtain ⟨used, -, -, htiled⟩ := hc.page hpn
      have := (htiled.bounds hmem).1
      rw [nullPtr]
      omega
    · have := h.mature.two_le (mem_all gns hp)
      rw [h.move_self hc hp, nullPtr]
      omega

/-! ## the pages afterwards -/

theorem toGn (hc : Collected params s₀ B roots rems c t) : t.gens.toGn = s₀.gens.toGn :=
  hc.course.toGn

theorem ne_toGn (h : Replacing params s₀ cells B roots pre gns rest)
    (hc : Collected params s₀ B roots rems c t) (hgn : gn ∈ pre ++ rest) : gn ≠ t.gens.toGn := by
  rintro rfl
  rw [hc.course.toGn] at hgn
  refine h.fresh ?_
  simp only [List.mem_append] at hgn ⊢
  exact hgn.imp_right .inr

theorem live (h : Replacing params s₀ cells B roots pre gns rest)
    (hc : Collected params s₀ B roots rems c t) (hgn : gn ∈ pre ++ t.gens.toGn :: rest) :
    (t.gens.status gn).IsLive := by
  rw [hc.status]
  by_cases hto : gn = t.gens.toGn
  · rw [hto, hc.course.toGn, h.collects.normal]
    exact isLive_normal
  · refine h.mature.live gn ?_
    simp only [List.mem_append, List.mem_cons, hto, false_or] at hgn ⊢
    exact hgn.imp_right .inr

/-- The pages of the other generations are not among the new ones. -/
theorem page_notMem (h : Replacing params s₀ cells B roots pre gns rest)
    (hc : Collected params s₀ B roots rems c t) (hgn : gn ∈ pre ++ rest)
    (hpn : pn ∈ t.gens.page gn) : pn ∉ t.gens.page t.gens.toGn := by
  obtain ⟨ages, froms, twice, hgens⟩ := h.collects.gens
  have hpages := (hc.sound hgens).pages
  have hlive : ∀ {g}, g ∈ pre ++ t.gens.toGn :: rest → (t.gens.status g).IsLive := h.live hc
  have hmem : gn ∈ pre ++ t.gens.toGn :: rest := by
    simp only [List.mem_append, List.mem_cons] at hgn ⊢
    exact hgn.imp_right .inr
  intro hpn'
  have hgeneration := (hpages.allocated trivial (hlive hmem) hpn).2
  have hgeneration' := (hpages.allocated trivial (hlive (by simp)) hpn').2
  exact h.ne_toGn hc hgn
    (Generations.address_injective _ (hgeneration.symm.trans hgeneration'))

theorem pageOf (h : Replacing params s₀ cells B roots pre gns rest)
    (hc : Collected params s₀ B roots rems c t) (hgn : gn ∈ pre ++ rest) :
    t.gens.page gn = s₀.gens.page gn :=
  hc.pageOf (hc.course.toGn ▸ h.ne_toGn hc hgn)

theorem cellsAfter_eq (h : Replacing params s₀ cells B roots pre gns rest)
    (hc : Collected params s₀ B roots rems c t) (hgn : gn ∈ pre ++ rest)
    (hpn : pn ∈ s₀.gens.page gn) : cellsAfter cells c t pn = cells pn :=
  if_neg (h.page_notMem hc hgn (h.pageOf hc hgn ▸ hpn))

/-- The other generations have the cells that they had. -/
theorem cellsIn_eq (h : Replacing params s₀ cells B roots pre gns rest)
    (hc : Collected params s₀ B roots rems c t) {gns' : List Nat} (hgns : gns' ⊆ pre ++ rest) :
    t.cellsIn (cellsAfter cells c t) gns' = s₀.cellsIn cells gns' := by
  refine List.flatMap_congr fun gn hgn => ?_
  rw [h.pageOf hc (hgns hgn)]
  exact List.flatMap_congr fun pn hpn => h.cellsAfter_eq hc (hgns hgn) hpn

/-- The new generation has the copies. -/
theorem cellsIn_toGn (t : Heap) (cells : Nat → List Nat) (c : CopyState) :
    t.cellsIn (cellsAfter cells c t) [t.gens.toGn] =
      ((t.gens.page t.gens.toGn).flatMap c.olds).map c.move := by
  rw [cellsIn, List.flatMap_singleton, List.map_flatMap]
  exact List.flatMap_congr fun pn hpn => if_pos hpn

theorem mem_toGn (h : Replacing params s₀ cells B roots pre gns rest)
    (hc : Collected params s₀ B roots rems c t) :
    p ∈ t.cellsIn (cellsAfter cells c t) [t.gens.toGn] ↔ ∃ q, B q ∧ p = c.move q := by
  rw [cellsIn_toGn, List.mem_map]
  simp only [hc.olds.mem_iff, h.visited_iff hc, eq_comm]

/-- The cells that there are after the collection are those that were live. -/
theorem mem_iff (h : Replacing params s₀ cells B roots pre gns rest)
    (hc : Collected params s₀ B roots rems c t) :
    p ∈ t.cellsIn (cellsAfter cells c t) (pre ++ t.gens.toGn :: rest) ↔
      ∃ q, Live s₀ cells B pre rest q ∧ p = c.move q := by
  have hperm : p ∈ t.cellsIn (cellsAfter cells c t) (pre ++ t.gens.toGn :: rest) ↔
      p ∈ t.cellsIn (cellsAfter cells c t) [t.gens.toGn] ∨
        p ∈ t.cellsIn (cellsAfter cells c t) (pre ++ rest) := by
    rw [← mem_cellsIn_append]
    exact (List.perm_middle.flatMap_right _).mem_iff
  rw [hperm, h.mem_toGn hc, h.cellsIn_eq hc (List.Subset.refl _)]
  constructor
  · rintro (⟨q, hq, rfl⟩ | hp)
    · exact ⟨q, .inl hq, rfl⟩
    · exact ⟨p, .inr hp, (h.move_self hc hp).symm⟩
  · rintro ⟨q, hq | hq, rfl⟩
    · exact .inl ⟨q, hq, rfl⟩
    · exact .inr ((h.move_self hc hq).symm ▸ hq)

/-- The second word of a page of another generation. -/
theorem used_eq (h : Replacing params s₀ cells B roots pre gns rest)
    (hc : Collected params s₀ B roots rems c t) (hgn : gn ∈ pre ++ rest)
    (hpn : pn ∈ s₀.gens.page gn) :
    t.words (params.pageNumberToPagePtr pn + 1) = s₀.words (params.pageNumberToPagePtr pn + 1) := by
  have hpage : params.ptrToPageNumber (params.pageNumberToPagePtr pn + 1) = pn :=
    ptrToPageNumber_succ pn
  have hages : ∀ {g}, g ∈ pre ++ rest → g ∈ pre ++ (gns ++ rest) := by
    intro g hg
    simp only [List.mem_append] at hg ⊢
    exact hg.imp_right .inr
  -- cells begin behind it
  have hout : ∀ {g q}, g ∈ pre ++ (gns ++ rest) → q ∈ s₀.cellsIn cells [g] →
      ¬ InsideCell s₀.words q (params.pageNumberToPagePtr pn + 1) := by
    intro g q hg hq ha
    obtain ⟨pn', hpn', hmem⟩ := mem_cellsIn_singleton.mp hq
    obtain rfl := (h.mature.pageNumber hg hpn' hmem ha).symm.trans hpage
    have := (h.mature.bounds hg hpn' hmem).1
    have := ha.1
    omega
  have hlt : params.pageNumberToPagePtr pn + 1 < params.firstGenerationEnd := by
    have hlt := (h.mature.allocated (hages hgn) hpn).1
    rw [← hpage] at hlt
    exact Nat.not_le.mp fun hle => Nat.not_lt.mpr (numberOfPages_le hle) hlt
  refine hc.other ?_ (fun hroot => ?_) fun q hq hin => ?_
  · exact .inr ⟨gn, toGn hc ▸ h.ne_toGn hc hgn, h.mature.live gn (hages hgn), hpage.symm ▸ hpn⟩
  · rcases h.roots hroot with ⟨q, hq, hslot⟩ | hle
    · obtain ⟨g, hg, hq⟩ := mem_single hq
      have hok := h.mature.ok (cellsIn_of_mem (by simp [hg]) hq)
      obtain ⟨hlt, hlt'⟩ := hok.slot_bounds hslot
      exact hout (List.mem_append_left _ hg) hq ⟨Nat.le_of_lt hlt, hlt'⟩
    · exact Nat.not_lt.mpr hle hlt
  · rcases h.source (hc.cells q hq) with hq | hle
    · obtain ⟨g, hg, hq⟩ := mem_single hq
      exact hout (by simp [hg]) hq hin
    · exact Nat.not_lt.mpr (hle.trans hin.1) hlt

theorem page (h : Replacing params s₀ cells B roots pre gns rest)
    (hc : Collected params s₀ B roots rems c t) (hgn : gn ∈ pre ++ t.gens.toGn :: rest)
    (hpn : pn ∈ t.gens.page gn) : ∃ used ≤ params.wordsPerPage,
      t.words (params.pageNumberToPagePtr pn + 1) = used ∧
        Tiled id (cellGetNumberOfWords t.words) (params.pageNumberToPagePtr pn + 2)
          (cellsAfter cells c t pn) (params.pageNumberToPagePtr pn + used) := by
  have hsize : ∀ {q}, Live s₀ cells B pre rest q →
      cellGetNumberOfWords t.words (c.move q) = cellGetNumberOfWords s₀.words q := fun hq =>
    ((h.relocated hc).moved hq).numberOfWords
  by_cases hto : gn = t.gens.toGn
  · subst hto
    obtain ⟨used, hle, hword, htiled⟩ := hc.page hpn
    refine ⟨used, hle, hword, ?_⟩
    rw [cellsAfter, if_pos hpn]
    refine htiled.map (fun _ _ => rfl) fun q hq => hsize (.inl ?_)
    exact (h.visited_iff hc).mp (hc.olds.mem_iff.mp (List.mem_flatMap.mpr ⟨pn, hpn, hq⟩))
  · have hgn : gn ∈ pre ++ rest := by
      simpa only [List.mem_append, List.mem_cons, hto, false_or] using hgn
    rw [h.pageOf hc hgn] at hpn
    have hages : gn ∈ pre ++ (gns ++ rest) := by
      simp only [List.mem_append] at hgn ⊢
      exact hgn.imp_right .inr
    obtain ⟨used, hle, hword, htiled⟩ := h.mature.page hages hpn
    refine ⟨used, hle, (h.used_eq hc hgn hpn).trans hword, ?_⟩
    rw [h.cellsAfter_eq hc hgn hpn]
    refine htiled.congr (fun _ _ => rfl) fun q hq => ?_
    have hq : q ∈ s₀.cellsIn cells (pre ++ rest) := mem_cellsIn.mpr ⟨gn, hgn, pn, hpn, hq⟩
    have hsize := hsize (.inr hq)
    rwa [h.move_self hc hq] at hsize

/-- What a copy refers to. -/
theorem closed_copy (h : Replacing params s₀ cells B roots pre gns rest)
    (hc : Collected params s₀ B roots rems c t) (hq : B q) (hb : b ∈ slots t.words (c.move q)) :
    wordToPtr (t.words b) ∈ t.cellsIn (cellsAfter cells c t) (t.gens.toGn :: rest) := by
  obtain ⟨b', hb', -, htarget⟩ := ((h.relocated hc).mem_slots_iff (.inl hq)).mp hb
  rw [htarget]
  rcases h.refs hq hb' with hB | hmem
  · exact cellsIn_subset (by simp) ((h.mem_toGn hc).mpr ⟨_, hB, rfl⟩)
  · rw [h.move_self hc (cellsIn_subset (by simp) hmem)]
    refine cellsIn_subset (List.subset_cons_self _ _) ?_
    rwa [h.cellsIn_eq hc (List.subset_append_right _ _)]

/-- The slots of a cell that was not collected. -/
theorem slot_other (h : Replacing params s₀ cells B roots pre gns rest)
    (hc : Collected params s₀ B roots rems c t) (hp : p ∈ s₀.cellsIn cells (pre ++ rest)) :
    slots t.words p = slots s₀.words p ∧ ∀ b ∈ slots s₀.words p,
      wordToPtr (t.words b) = c.move (wordToPtr (s₀.words b)) := by
  have hmove := h.move_self hc hp
  have hslots := (h.relocated hc).slots_eq (.inr hp)
  have hle : ∀ b ∈ slots s₀.words p, p + (b - p) = b := fun b hb =>
    Nat.add_sub_cancel' (Nat.le_of_lt ((h.mature.ok (mem_all gns hp)).slot_bounds hb).1)
  constructor
  · rw [hmove, List.map_congr_left hle, List.map_id'] at hslots
    exact hslots
  · intro b hb
    have htarget := (h.relocated hc).target (.inr hp) hb
    rw [hmove, hle b hb] at htarget
    rw [htarget, wordToPtr_ptrToWord]

/-- What a cell in `pre` or `rest` refers to, where `older` has the generations from some point
of `pre` on. -/
theorem closed_other (h : Replacing params s₀ cells B roots pre gns rest)
    (hc : Collected params s₀ B roots rems c t) {younger older : List Nat}
    (hpre : pre = younger ++ older) (hp : p ∈ s₀.cellsIn cells (older ++ rest))
    (hb : b ∈ slots t.words p) :
    wordToPtr (t.words b) ∈
      t.cellsIn (cellsAfter cells c t) (older ++ t.gens.toGn :: rest) := by
  have hsub : older ++ rest ⊆ pre ++ rest := by simp [hpre]
  have hall : p ∈ s₀.cellsIn cells (pre ++ rest) := cellsIn_subset hsub hp
  obtain ⟨hslots, htarget⟩ := h.slot_other hc hall
  rw [hslots] at hb
  rw [htarget b hb]
  have hstay : wordToPtr (s₀.words b) ∈ s₀.cellsIn cells (older ++ rest) →
      c.move (wordToPtr (s₀.words b)) ∈
        t.cellsIn (cellsAfter cells c t) (older ++ t.gens.toGn :: rest) := by
    intro hmem
    rw [h.move_self hc (cellsIn_subset hsub hmem)]
    rw [← h.cellsIn_eq hc hsub] at hmem
    exact cellsIn_subset (by simp) hmem
  rcases mem_cellsIn_append.mp hp with hold | hrest
  · have hclosed := h.mature.closed (show _ = younger ++ (older ++ (gns ++ rest)) by simp [hpre])
      (mem_cellsIn_append.mpr (.inl hold)) hb
    rw [mem_cellsIn_append, mem_cellsIn_append] at hclosed
    rcases hclosed with hmem | hmem | hmem
    · exact hstay (mem_cellsIn_append.mpr (.inl hmem))
    · have hroot := h.remembered (cellsIn_subset (by simp [hpre]) hold) hb hmem
      refine cellsIn_of_mem (by simp) ((h.mem_toGn hc).mpr ?_)
      exact ⟨_, (h.collects.rootsOk hroot).2.2, rfl⟩
    · exact hstay (mem_cellsIn_append.mpr (.inr hmem))
  · have hclosed := h.mature.closed (List.append_assoc ..).symm hrest hb
    exact hstay (mem_cellsIn_append.mpr (.inr hclosed))

theorem closed (h : Replacing params s₀ cells B roots pre gns rest)
    (hc : Collected params s₀ B roots rems c t) {younger older : List Nat}
    (hages : pre ++ t.gens.toGn :: rest = younger ++ older)
    (hp : p ∈ t.cellsIn (cellsAfter cells c t) older) (hb : b ∈ slots t.words p) :
    wordToPtr (t.words b) ∈ t.cellsIn (cellsAfter cells c t) older := by
  rcases List.append_eq_append_iff.mp hages with ⟨as, rfl, hrest⟩ | ⟨bs, rfl, rfl⟩
  · cases as with
    | nil =>
      obtain rfl : t.gens.toGn :: rest = older := hrest
      rw [← List.singleton_append, mem_cellsIn_append] at hp
      rcases hp with hp | hp
      · obtain ⟨q, hq, rfl⟩ := (h.mem_toGn hc).mp hp
        exact h.closed_copy hc hq hb
      · rw [h.cellsIn_eq hc (List.subset_append_right _ _)] at hp
        exact h.closed_other hc (List.append_nil _).symm hp hb
    | cons g as =>
      obtain ⟨-, rfl⟩ := List.cons.inj hrest
      -- these generations are older than the new one
      have hsub : older ⊆ pre ++ (as ++ older) := by simp
      have hmem := hp
      rw [h.cellsIn_eq hc hsub] at hmem ⊢
      have hall := cellsIn_subset hsub hmem
      obtain ⟨hslots, htarget⟩ := h.slot_other hc hall
      rw [hslots] at hb
      rw [htarget b hb]
      have hclosed := h.mature.closed (show _ = pre ++ (gns ++ as) ++ older by simp)
        hmem hb
      rwa [h.move_self hc (cellsIn_subset hsub hclosed)]
  · rw [mem_cellsIn_append, ← List.singleton_append, mem_cellsIn_append] at hp
    have hother : p ∈ t.cellsIn (cellsAfter cells c t) (bs ++ rest) → wordToPtr (t.words b) ∈
        t.cellsIn (cellsAfter cells c t) (bs ++ t.gens.toGn :: rest) := by
      intro hp
      rw [h.cellsIn_eq hc (by simp)] at hp
      exact h.closed_other hc rfl hp hb
    rcases hp with hp | hp | hp
    · exact hother (mem_cellsIn_append.mpr (.inl hp))
    · obtain ⟨q, hq, rfl⟩ := (h.mem_toGn hc).mp hp
      exact cellsIn_subset (List.subset_append_right _ _) (h.closed_copy hc hq hb)
    · exact hother (mem_cellsIn_append.mpr (.inr hp))

theorem fits (h : Replacing params s₀ cells B roots pre gns rest)
    (hc : Collected params s₀ B roots rems c t) (hgn : gn ∈ pre ++ t.gens.toGn :: rest) :
    ((t.cellsIn (cellsAfter cells c t) [gn]).flatMap (cellAddresses t.words)).length ≤
      params.numberOfWordsInFirstGeneration := by
  have hsize : ∀ {q}, Live s₀ cells B pre rest q →
      (cellAddresses t.words (c.move q)).length = (cellAddresses s₀.words q).length := by
    intro q hq
    rw [cellAddresses, cellAddresses, List.length_range', List.length_range',
      ((h.relocated hc).moved hq).numberOfWords]
  by_cases hto : gn = t.gens.toGn
  · subst hto
    have hfits := h.collects.fits hc.nodup hc.cells
    rw [← (hc.olds.flatMap_right _).length_eq] at hfits
    rw [cellsIn_toGn, List.flatMap_map]
    refine le_of_eq_of_le ?_ hfits
    rw [List.length_flatMap, List.length_flatMap]
    refine congrArg _ (List.map_congr_left fun q hq => hsize (.inl ?_))
    exact (h.visited_iff hc).mp (hc.olds.mem_iff.mp hq)
  · have hgn : gn ∈ pre ++ rest := by
      simpa only [List.mem_append, List.mem_cons, hto, false_or] using hgn
    have hages : gn ∈ pre ++ (gns ++ rest) := by
      simp only [List.mem_append] at hgn ⊢
      exact hgn.imp_right .inr
    have hsub : [gn] ⊆ pre ++ rest := by simpa using hgn
    rw [h.cellsIn_eq hc hsub]
    refine le_of_eq_of_le ?_ (h.mature.fits gn hages)
    rw [List.length_flatMap, List.length_flatMap]
    refine congrArg _ (List.map_congr_left fun q hq => ?_)
    have hq : q ∈ s₀.cellsIn cells (pre ++ rest) :=
      cellsIn_subset hsub hq
    have hsize := hsize (.inr hq)
    rwa [h.move_self hc hq] at hsize

/-- The new generation is in its place, and all is as it should be. -/
theorem matureSound (h : Replacing params s₀ cells B roots pre gns rest)
    (hc : Collected params s₀ B roots rems c t) :
    MatureSound params t (cellsAfter cells c t) (pre ++ t.gens.toGn :: rest) where
  gens := by
    obtain ⟨ages, froms, twice, hgens⟩ := h.collects.gens
    exact ⟨ages, froms, twice, hc.sound hgens⟩
  live := fun _ => h.live hc
  page := h.page hc
  ok := by
    intro p hp
    obtain ⟨q, hq, rfl⟩ := (h.mem_iff hc).mp hp
    exact (h.relocated hc).cellOk hq
  declared := by
    intro p hp
    obtain ⟨q, hq, rfl⟩ := (h.mem_iff hc).mp hp
    rw [(h.relocated hc).decls hq]
    rcases hq with hq | hq
    · exact hc.declared _ ((h.visited_iff hc).mpr hq)
    · exact h.mature.declared (cellsIn_subset (by simp) hq)
  closed := fun hages => h.closed hc hages
  fits := fun _ => h.fits hc

/-! ## remembered sets afterwards -/

/-- Different cells have different copies, and these do not overlap. -/
theorem copy_inj (h : Replacing params s₀ cells B roots pre gns rest)
    (hc : Collected params s₀ B roots rems c t) (hp : B p) (hq : B q)
    (ha : InsideCell s₀.words p a) (hb : InsideCell s₀.words q b) (heq : c.move a = c.move b) :
    p = q ∧ a = b := by
  have hm := h.matureSound hc
  have hvisited : ∀ {p}, B p → ∃ pn ∈ t.gens.page t.gens.toGn, p ∈ c.olds pn := fun hp =>
    List.mem_flatMap.mp (hc.olds.mem_iff.mpr ((h.visited_iff hc).mpr hp))
  have hinside : ∀ {p a}, B p → InsideCell s₀.words p a →
      InsideCell t.words (c.move p) (c.move a) := by
    rintro p a hp ⟨hle, hlt⟩
    rw [hc.move_eq ((h.visited_iff hc).mpr hp) ⟨hle, hlt⟩, InsideCell,
      ((h.relocated hc).moved (.inl hp)).numberOfWords]
    omega
  obtain ⟨pn, hpn, hold⟩ := hvisited hp
  obtain ⟨pn', hpn', hold'⟩ := hvisited hq
  have hcell : ∀ {pn p}, pn ∈ t.gens.page t.gens.toGn → p ∈ c.olds pn →
      c.move p ∈ cellsAfter cells c t pn := fun hpn hold => by
    rw [cellsAfter, if_pos hpn]
    exact List.mem_map_of_mem hold
  have hto : t.gens.toGn ∈ pre ++ t.gens.toGn :: rest := by simp
  have hmove := (hm.apart hto hto (mem_cellsIn_singleton.mpr ⟨pn, hpn, hcell hpn hold⟩)
    (mem_cellsIn_singleton.mpr ⟨pn', hpn', hcell hpn' hold'⟩) (hinside hp ha)
    (heq ▸ hinside hq hb)).1
  obtain rfl := (hm.pageNumber hto hpn (hcell hpn hold) (hinside hp ha)).symm.trans
    (hm.pageNumber hto hpn' (hcell hpn' hold') (heq ▸ hinside hq hb))
  have hnodup := hm.cells_nodup hto hpn
  rw [cellsAfter, if_pos hpn] at hnodup
  obtain rfl := List.inj_on_of_nodup_map hnodup hold hold' hmove
  refine ⟨rfl, ?_⟩
  rw [hc.move_eq ((h.visited_iff hc).mpr hp) ha, hc.move_eq ((h.visited_iff hc).mpr hp) hb] at heq
  obtain ⟨hle, -⟩ := ha
  obtain ⟨hle', -⟩ := hb
  omega

/-- The slots of a copy are the copies of the slots. -/
theorem mem_slots_copy (h : Replacing params s₀ cells B roots pre gns rest)
    (hc : Collected params s₀ B roots rems c t) (hq : B q) :
    b ∈ slots t.words (c.move q) ↔ ∃ b' ∈ slots s₀.words q, b = c.move b' ∧
      wordToPtr (t.words b) = c.move (wordToPtr (s₀.words b')) := by
  rw [(h.relocated hc).mem_slots_iff (.inl hq)]
  refine exists_congr fun b' => and_congr_right fun hb' => ?_
  rw [hc.move_eq ((h.visited_iff hc).mpr hq) (h.collects.slot_insideCell hq hb')]

/-- A slot of a cell that is collected, and a generation that is collected later. -/
theorem refersTo_iff (h : Replacing params s₀ cells B roots pre gns rest)
    (hgn : gn ∈ rest) (hmarked : s₀.gens.status gn = .toBeCollected) (hq : B q)
    (hb : b ∈ slots s₀.words q) : s₀.refersTo params gn b = true ↔
      ¬ B (wordToPtr (s₀.words b)) ∧ wordToPtr (s₀.words b) ∈ s₀.cellsIn cells [gn] := by
  have hages : gn ∈ pre ++ (gns ++ rest) := by simp [hgn]
  constructor
  · intro hrefers
    have hB : ¬ B (wordToPtr (s₀.words b)) := fun hB => by
      rw [h.collects.not_refersTo hB] at hrefers
      cases hrefers
    refine ⟨hB, ?_⟩
    obtain ⟨g, hg, hmem⟩ := mem_single ((h.refs hq hb).resolve_left hB)
    obtain ⟨pn, hpn, hcell⟩ := mem_cellsIn_singleton.mp hmem
    have hgages : g ∈ pre ++ (gns ++ rest) := by simp [hg]
    have hpage := h.mature.pageNumber hgages hpn hcell
      (h.mature.self_inside (cellsIn_of_mem (by simp [hg]) hmem))
    rw [refersTo, decide_eq_true_iff, hpage] at hrefers
    obtain rfl := h.mature.page_unique hages hgages hrefers.2 hpn
    exact hmem
  · rintro ⟨-, hmem⟩
    obtain ⟨pn, hpn, hcell⟩ := mem_cellsIn_singleton.mp hmem
    have hpage := h.mature.pageNumber hages hpn hcell
      (h.mature.self_inside (cellsIn_of_mem (by simp [hgn]) hmem))
    rw [refersTo, decide_eq_true_iff, hpage]
    exact ⟨hmarked, hpn⟩

/-- A copy is in no other generation. -/
theorem copy_notMem (h : Replacing params s₀ cells B roots pre gns rest)
    (hc : Collected params s₀ B roots rems c t) (hgn : gn ∈ pre ++ rest) (hq : B q) :
    c.move q ∉ t.cellsIn (cellsAfter cells c t) [gn] := by
  intro hmem
  have hm := h.matureSound hc
  have hcopy := (h.mem_toGn hc).mpr ⟨q, hq, rfl⟩
  have hself := hm.self_inside (cellsIn_of_mem (by simp) hcopy)
  have hages : gn ∈ pre ++ t.gens.toGn :: rest := by
    simp only [List.mem_append, List.mem_cons] at hgn ⊢
    exact hgn.imp_right .inr
  exact h.ne_toGn hc hgn (hm.apart hages (by simp) hmem hcopy hself hself).2

/-- The slots of the generations `others`, and of the new one, are remembered from now on. -/
theorem rememberedAfter (h : Replacing params s₀ cells B roots pre gns rest)
    (hc : Collected params s₀ B roots rems c t) {others others' marked : List Nat}
    (hothers : others ⊆ pre ++ rest)
    (hothers' : ∀ g, g ∈ others' ↔ g = t.gens.toGn ∨ g ∈ others) (hsub : marked ⊆ rest)
    (hmarked : ∀ {gn}, s₀.gens.status gn = .toBeCollected ↔ gn ∈ marked)
    (hnodup : ∀ gn, (rems gn).Nodup)
    (hmem : ∀ {gn}, gn ∈ marked → ∀ {b}, b ∈ rems gn ↔ (∃ p ∈ s₀.cellsIn cells others,
      b ∈ slots s₀.words p) ∧ wordToPtr (s₀.words b) ∈ s₀.cellsIn cells [gn])
    (hnone : ∀ gn ∉ marked, rems gn = []) :
    Remembered t (cellsAfter cells c t) others' marked := by
  have hm := h.matureSound hc
  have hrefersTo : ∀ {gn b}, s₀.refersTo params gn b = true → gn ∈ marked := by
    intro gn b hrefers
    rw [refersTo, decide_eq_true_iff] at hrefers
    exact hmarked.mp hrefers.1
  have hafter : ∀ {p}, p ∈ t.cellsIn (cellsAfter cells c t) others' ↔
      p ∈ t.cellsIn (cellsAfter cells c t) [t.gens.toGn] ∨ p ∈ s₀.cellsIn cells others := by
    intro p
    rw [← h.cellsIn_eq hc hothers, ← mem_cellsIn_append, mem_cellsIn, mem_cellsIn]
    refine exists_congr fun g => and_congr_left fun _ => ?_
    rw [hothers', List.singleton_append, List.mem_cons]
  have hold : ∀ {gn}, gn ∈ marked →
      t.cellsIn (cellsAfter cells c t) [gn] = s₀.cellsIn cells [gn] := fun hgn =>
    h.cellsIn_eq hc (by simp [hsub hgn])
  have hrest : ∀ {gn}, gn ∈ marked → gn ∈ pre ++ rest := fun hgn =>
    List.mem_append_right _ (hsub hgn)
  have hstay : ∀ {gn p}, gn ∈ marked → p ∈ s₀.cellsIn cells [gn] → c.move p = p :=
    fun {gn p} hgn hp => h.move_self hc (cellsIn_of_mem (by simp [hsub hgn]) hp)
  refine ⟨fun gn => ?_, fun {gn} hgn {b} => ?_, fun gn hgn => ?_⟩
  · obtain ⟨bs, hset, hbs, hiff⟩ := hc.remSet gn
    rw [hset, List.nodup_append]
    refine ⟨hbs.map_on ?_, hnodup gn, ?_⟩
    · intro b hb b' hb' heq
      obtain ⟨-, p, hp, hslot⟩ := (hiff b).mp hb
      obtain ⟨-, p', hp', hslot'⟩ := (hiff b').mp hb'
      have hB := (h.visited_iff hc).mp hp
      have hB' := (h.visited_iff hc).mp hp'
      exact (h.copy_inj hc hB hB' (h.collects.slot_insideCell hB hslot)
        (h.collects.slot_insideCell hB' hslot') heq).2
    · rintro _ hb a ha rfl
      obtain ⟨b, hbs, rfl⟩ := List.mem_map.mp hb
      obtain ⟨hrefers, p, hp, hslot⟩ := (hiff b).mp hbs
      have hgn := hrefersTo hrefers
      have hB := (h.visited_iff hc).mp hp
      obtain ⟨⟨q, hq, hslot'⟩, -⟩ := (hmem hgn).mp ha
      -- a copy and a cell of another generation do not overlap
      have hcopy : c.move b ∈ slots t.words (c.move p) :=
        (h.mem_slots_copy hc hB).mpr ⟨b, hslot, rfl, by
          rw [hc.move_eq hp (h.collects.slot_insideCell hB hslot),
            (h.relocated hc).target (.inl hB) hslot, wordToPtr_ptrToWord]⟩
      have hall := cellsIn_subset hothers hq
      rw [← (h.slot_other hc hall).1] at hslot'
      obtain ⟨g, hg, hqg⟩ := mem_single hq
      have hgpre := hothers hg
      rw [← h.cellsIn_eq hc (by simpa using hgpre)] at hqg
      have hages : g ∈ pre ++ t.gens.toGn :: rest := by
        simp only [List.mem_append, List.mem_cons] at hgpre ⊢
        exact hgpre.imp_right .inr
      have hpto := (h.mem_toGn hc).mpr ⟨p, hB, rfl⟩
      have hbounds := (hm.ok (cellsIn_of_mem (by simp) hpto)).slot_bounds
        hcopy
      have hbounds' := (hm.ok (cellsIn_of_mem (by simpa using hages) hqg)).slot_bounds
        hslot'
      exact h.ne_toGn hc hgpre (hm.apart hages (by simp) hqg hpto
        ⟨Nat.le_of_lt hbounds'.1, hbounds'.2⟩ ⟨Nat.le_of_lt hbounds.1, hbounds.2⟩).2
  · obtain ⟨bs, hset, -, hiff⟩ := hc.remSet gn
    rw [hset, List.mem_append, hmem hgn, hold hgn]
    constructor
    · rintro (hb | ⟨⟨p, hp, hslot⟩, htarget⟩)
      · obtain ⟨b, hbs, rfl⟩ := List.mem_map.mp hb
        obtain ⟨hrefers, p, hp, hslot⟩ := (hiff b).mp hbs
        have hB := (h.visited_iff hc).mp hp
        have hmove := hc.move_eq hp (h.collects.slot_insideCell hB hslot)
        have htarget := (h.relocated hc).target (.inl hB) hslot
        rw [← hmove] at htarget
        have hmem := ((h.refersTo_iff (hsub hgn) (hmarked.mpr hgn) hB hslot).mp hrefers).2
        refine ⟨⟨c.move p, hafter.mpr (.inl ((h.mem_toGn hc).mpr ⟨p, hB, rfl⟩)), ?_⟩, ?_⟩
        · exact (h.mem_slots_copy hc hB).mpr
            ⟨b, hslot, rfl, by rw [htarget, wordToPtr_ptrToWord]⟩
        · rwa [htarget, wordToPtr_ptrToWord, hstay hgn hmem]
      · obtain ⟨hslots, htargets⟩ := h.slot_other hc (cellsIn_subset hothers hp)
        refine ⟨⟨p, hafter.mpr (.inr hp), hslots ▸ hslot⟩, ?_⟩
        rwa [htargets b hslot, hstay hgn htarget]
    · rintro ⟨⟨p, hp, hslot⟩, htarget⟩
      rcases hafter.mp hp with hp | hp
      · obtain ⟨q, hq, rfl⟩ := (h.mem_toGn hc).mp hp
        obtain ⟨b', hb', rfl, heq⟩ := (h.mem_slots_copy hc hq).mp hslot
        rw [heq] at htarget
        have hB : ¬ B (wordToPtr (s₀.words b')) := fun hB =>
          h.copy_notMem hc (hrest hgn) hB (hold hgn ▸ htarget)
        have hmem := (h.refs hq hb').resolve_left hB
        rw [h.move_self hc (cellsIn_subset (List.subset_append_right _ _) hmem)] at htarget
        refine .inl (List.mem_map_of_mem ((hiff b').mpr ⟨?_, q, (h.visited_iff hc).mpr hq, hb'⟩))
        exact (h.refersTo_iff (hsub hgn) (hmarked.mpr hgn) hq hb').mpr ⟨hB, htarget⟩
      · have hall := cellsIn_subset hothers hp
        obtain ⟨hslots, htargets⟩ := h.slot_other hc hall
        rw [hslots] at hslot
        rw [htargets b hslot] at htarget
        refine .inr ⟨⟨p, hp, hslot⟩, ?_⟩
        rcases h.target hall hslot with hroot | hother
        · exact absurd (hold hgn ▸ htarget)
            (h.copy_notMem hc (hrest hgn) (h.collects.rootsOk hroot).2.2)
        · rwa [h.move_self hc hother] at htarget
  · obtain ⟨bs, hset, -, hiff⟩ := hc.remSet gn
    rw [hset, hnone gn hgn, List.append_nil, List.map_eq_nil_iff, List.eq_nil_iff_forall_not_mem]
    exact fun b hb => hgn (hrefersTo ((hiff b).mp hb).1)

end Replacing

end replacing

end Heap

end Shades
