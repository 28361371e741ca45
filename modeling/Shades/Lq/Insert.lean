import Shades.Lq.Rep

/-!
# Shades.Lq.Insert

`lq_insert_last` refines the insertion in a queue of trees.  New items are
allocated in front of the tail; two trees that are linked are copied, because
their brothers change.
-/

namespace Shades

open Memory Lq SkewForest

variable {m₀ m m' : Memory} {cells : List (Nat × Nat)} {xs : (Nat → Nat) → List Nat}
variable {p q b s h x n data : Nat} {type : CellType} {ws : List Nat}
variable {t u : SkewTree Nat} {ts rest : List (SkewTree Nat)} {Q : SkewQueue Nat}

/-! ## new cells -/

/-- The words of a new cell that are filled. -/
structure FilledCell (m : Memory) (q : Nat) (type : CellType) (h : Nat) (ws : List Nat) : Prop where
  ne_null : q ≠ nullPtr
  header : m.words q = type.header ||| h
  words : slice m.words (q + 1) ws.length = ws

/-- A new cell is open. -/
theorem newItem_open (type : CellType) (h : Nat) (ws : List Nat) (hf : m₀.Filling cells m)
    (hn : ws.length < n) (hcan : m.canAllocate n)
    (hxs : ∀ words, AgreeOn m.Live m.words words → xs words = ws) :
    ∃ q m', newItem m n type h xs = (q, m') ∧ m₀.Filling ((q, n) :: cells) m' ∧ m.Took n m' ∧
      m'.allocationPtr = q ∧ FilledCell m' q type h ws := by
  obtain ⟨q, m₁, hnew⟩ := exists_newCell type (by omega) hcan
  have hf₁ : m₀.Filling ((q, n) :: cells) m₁ := hf.newCell hnew
  have hnull := hnew.ne_nullPtr
  obtain ⟨halloc, hsize, hfits, hheader, hwords, hptr, hend, -⟩ := hnew
  have hlive : ∀ a, m.Live a → a < q ∨ q + n ≤ a := by
    intro a ha
    unfold Live at ha
    omega
  have hws : xs m₁.words = ws := hxs _ fun a ha => hwords a (by have := hlive a ha; omega)
  have hf₂ := (hf₁.set List.mem_cons_self (i := 0) (by omega) (m₁.words q ||| h)).fill
    List.mem_cons_self (i := 1) ws (by omega)
  refine ⟨q, _, by simp only [newItem, halloc, hws]; rfl, hf₂,
    ⟨fun a ha => ?_, by simp; omega, by simpa⟩, by simpa, hnull, ?_, ?_⟩
  · have hout := hlive a ha
    rw [← hwords a (by omega)]
    rcases hout with hlt | hge
    · rw [fillCell_words_of_lt _ _ (by omega), Memory.set_words, if_neg (by omega)]
    · rw [fillCell_words_of_ge _ _ (by omega), Memory.set_words, if_neg (by omega)]
  · rw [fillCell_words_of_lt _ _ (by omega), Memory.set_words, if_pos (Nat.add_zero q).symm,
      hheader]
  · exact slice_fillCell q 1 ws _

theorem FilledCell.frame (hcell : FilledCell m q type h ws) (htook : m.Took n m')
    (hq : m.allocationPtr ≤ q) : FilledCell m' q type h ws where
  ne_null := hcell.ne_null
  header := (htook.words q (.inr hq)).trans hcell.header
  words := by
    rw [slice_congr fun i _ => htook.words _ (.inr (by omega)), hcell.words]

/-- Another word is filled. -/
theorem FilledCell.snoc (hcell : FilledCell m q type h ws) (hn : n = q + (ws.length + 1))
    (w : Nat) :
    FilledCell (m.set n w) q type h (ws ++ [w]) where
  ne_null := hcell.ne_null
  header := by
    rw [Memory.set_words, if_neg (by omega)]
    exact hcell.header
  words := by
    have hold : slice (m.set n w).words (q + 1) ws.length = ws := by
      rw [slice_congr fun i hi => ?_, hcell.words]
      rw [Memory.set_words, if_neg (by omega)]
    rw [List.length_append, List.length_singleton, slice_add, hold, hn]
    simp [slice, Nat.add_assoc, Nat.add_comm 1]

/-- A word of another cell is written. -/
theorem FilledCell.set (hcell : FilledCell m q type h ws) (hn : n < q ∨ q + ws.length < n)
    (w : Nat) : FilledCell (m.set n w) q type h ws where
  ne_null := hcell.ne_null
  header := by
    rw [Memory.set_words, if_neg (by omega)]
    exact hcell.header
  words := by
    rw [slice_congr fun i hi => ?_, hcell.words]
    rw [Memory.set_words, if_neg (by omega)]

/-- A cell with all its words is an item. -/
theorem FilledCell.item (hcell : FilledCell m q (itemType b s) h (ptrToWord x :: itemLinks b s))
    (hf : m₀.Filling ((q, (itemLinks b s).length + 2) :: cells) m) (hh : h < 2 ^ 24) :
    ItemCell m.words (m.Closed cells) q b s h x := by
  obtain ⟨hnull, hheader, hwords⟩ := hcell
  rw [List.length_cons, slice] at hwords
  obtain ⟨hitem, hlinks⟩ := List.cons.inj hwords
  exact ⟨hnull, hheader, hh, fun i hi => hf.closed_first hi, hitem, hlinks⟩

/-- A new item. -/
theorem newItem_spec (type : CellType) (n h : Nat) (xs : (Nat → Nat) → List Nat) (b s x : Nat)
    (hf : m₀.Filling cells m) (htype : itemType b s = type)
    (hn : (itemLinks b s).length + 2 = n) (hcan : m.canAllocate n) (hh : h < 2 ^ 24)
    (hxs : ∀ words, AgreeOn m.Live m.words words → xs words = ptrToWord x :: itemLinks b s) :
    ∃ q m', newItem m n type h xs = (q, m') ∧ m₀.Filling cells m' ∧ m.Took n m' ∧
      ItemCell m'.words (m'.Closed cells) q b s h x := by
  obtain ⟨q, m', hnew, hf', htook, -, hcell⟩ :=
    newItem_open type h _ hf (by rw [List.length_cons]; omega) hcan hxs
  subst hn
  subst htype
  exact ⟨q, m', hnew, hf'.close (List.sublist_cons_self _ _), htook, hcell.item hf' hh⟩

/-! ## the new tree -/

/-- The words that are read for a new cell. -/
theorem ItemCell.read_item (hcell : ItemCell m.words (m.Closed cells) p b s h x)
    {words : Nat → Nat} (hagree : AgreeOn m.Live m.words words) : words (p + 1) = ptrToWord x :=
  (hagree _ (hcell.cell 1 (by omega)).1).trans hcell.item

theorem ItemCell.read_brother (hcell : ItemCell m.words (m.Closed cells) p b s h x)
    (hb : b ≠ nullPtr) {words : Nat → Nat} (hagree : AgreeOn m.Live m.words words) :
    words (p + 2) = ptrToWord b := by
  have hlive := (hcell.cell 2 (by simp [itemLinks, hb])).1
  exact (hagree _ hlive).trans (hcell.brother hb)

theorem ItemCell.read_son (hcell : ItemCell m.words (m.Closed cells) p nullPtr s h x)
    (hs : s ≠ nullPtr) {words : Nat → Nat} (hagree : AgreeOn m.Live m.words words) :
    words (p + 2) = ptrToWord s := by
  have hlive := (hcell.cell 2 (by simp [itemLinks, hs])).1
  exact (hagree _ hlive).trans (hcell.son hs)

theorem ItemCell.read_son_of_brother (hcell : ItemCell m.words (m.Closed cells) p b s h x)
    (hb : b ≠ nullPtr) (hs : s ≠ nullPtr) {words : Nat → Nat}
    (hagree : AgreeOn m.Live m.words words) : words (p + 3) = ptrToWord s := by
  have hlive := (hcell.cell 3 (by simp [itemLinks, hb, hs])).1
  exact (hagree _ hlive).trans (hcell.son_of_brother hb hs)

theorem LqTreeAt.keeps {cells' : List (Nat × Nat)} (ht : LqTreeAt m.words (m.Closed cells) t b p)
    (hk : Keeps m cells m' cells') : LqTreeAt m'.words (m'.Closed cells') t b p :=
  ht.frame hk.agree hk.closed

/-- The sons of two single items. -/
theorem singletonSons_spec {p' b' x' : Nat} (hf : m₀.Filling cells m)
    (hfirst : ItemCell m.words (m.Closed cells) p b nullPtr 0 x)
    (hsecond : ItemCell m.words (m.Closed cells) p' b' nullPtr 0 x') (hcan : m.canAllocate 5) :
    ∃ s l m', singletonSons m p p' = (s, m') ∧ m₀.Filling cells m' ∧ m.Took 5 m' ∧
      LqTreeAt m'.words (m'.Closed cells) (.single x') l s ∧
      LqTreeAt m'.words (m'.Closed cells) (.single x) nullPtr l := by
  obtain ⟨l, m₁, hleft, hf₁, htook₁, hl⟩ := newItem_spec .lqItem00 2 0
    (fun words => [words (p + 1)]) nullPtr nullPtr x hf rfl rfl
    (canAllocate_mono hcan (by decide)) (by decide)
    fun words hagree => by rw [hfirst.read_item hagree]; rfl
  have hlnull : l ≠ nullPtr := hl.ne_null
  have hsecond₁ := hsecond.frame (htook₁.keeps cells).agree (htook₁.keeps cells).closed
  obtain ⟨s, m₂, hright, hf₂, htook₂, hs⟩ := newItem_spec .lqItem01 3 0
    (fun words => [words (p' + 1), ptrToWord l]) l nullPtr x' hf₁
    (by simp [itemType, hlnull]) (by simp [itemLinks, hlnull]) (htook₁.canAllocate hcan)
    (by decide) fun words hagree => by
      rw [hsecond₁.read_item hagree]
      simp [itemLinks, hlnull]
  refine ⟨s, l, m₂, ?_, hf₂, htook₁.trans htook₂, hs, LqTreeAt.keeps hl (htook₂.keeps cells)⟩
  unfold singletonSons
  rw [hleft]
  exact hright

/-- The root of two linked trees is complete: its last word is the right son. -/
theorem FilledCell.link {s' n' : Nat} {t u : SkewTree Nat}
    (hcell : FilledCell m q (itemType b s) (t.height + 1) (ptrToWord data :: ws))
    (hlinks : ws ++ [ptrToWord s] = itemLinks b s)
    (hf : m₀.Filling ((q, n) :: cells) m) (hn : n = ws.length + 3) (hheight : t.height + 1 < 2 ^ 24)
    (hu : LqTreeAt m.words (m.Closed ((q, n) :: cells)) u n' s)
    (ht : LqTreeAt m.words (m.Closed ((q, n) :: cells)) t nullPtr n')
    (hs' : s' = q + (n - 1)) :
    m₀.Filling cells (m.set s' (ptrToWord s)) ∧
      LqTreeAt (m.set s' (ptrToWord s)).words ((m.set s' (ptrToWord s)).Closed cells)
        (.node data t u) b q := by
  subst hs'
  have hf' := hf.set List.mem_cons_self (i := n - 1) (by omega) (ptrToWord s)
  have hk : Keeps m ((q, n) :: cells) (m.set (q + (n - 1)) (ptrToWord s)) cells :=
    (Keeps.set m List.mem_cons_self (by omega) _).trans
      (.close _ fun c hc => List.mem_cons_of_mem _ hc)
  have hcell' := hcell.snoc (n := q + (n - 1)) (by rw [List.length_cons]; omega) (ptrToWord s)
  rw [List.cons_append, hlinks] at hcell'
  have hlen := congrArg List.length hlinks
  rw [List.length_append, List.length_singleton] at hlen
  have hclosed : m₀.Filling ((q, (itemLinks b s).length + 2) :: cells)
      (m.set (q + (n - 1)) (ptrToWord s)) := by
    rwa [show (itemLinks b s).length + 2 = n by omega]
  exact ⟨hf'.close (List.sublist_cons_self _ _), s, n', hcell'.item hclosed hheight, hu.keeps hk,
    ht.keeps hk⟩

/-- The new item is allocated before its sons, and the right son is set last. -/
theorem linkSingletons_aux {p' b' x' : Nat} (type : CellType) (xs : (Nat → Nat) → List Nat)
    (hf : m₀.Filling cells m) (hfirst : ItemCell m.words (m.Closed cells) p b nullPtr 0 x)
    (hsecond : ItemCell m.words (m.Closed cells) p' b' nullPtr 0 x')
    (hcan : m.canAllocate (n + 5)) (hn : n = ws.length + 3)
    (hxs : ∀ words, AgreeOn m.Live m.words words → xs words = ptrToWord data :: ws)
    (htype : ∀ s, s ≠ nullPtr → itemType b' s = type)
    (hlinks : ∀ s, s ≠ nullPtr → ws ++ [ptrToWord s] = itemLinks b' s) :
    ∃ q m₁ s m₂, newItem m n type 1 xs = (q, m₁) ∧ singletonSons m₁ p p' = (s, m₂) ∧
      m₀.Filling cells (m₂.set (q + (n - 1)) (ptrToWord s)) ∧
      m.Took (n + 5) (m₂.set (q + (n - 1)) (ptrToWord s)) ∧
      LqTreeAt (m₂.set (q + (n - 1)) (ptrToWord s)).words
        ((m₂.set (q + (n - 1)) (ptrToWord s)).Closed cells)
        (.node data (.single x) (.single x')) b' q := by
  obtain ⟨q, m₁, hnew, hf₁, htook₁, hq, hcell⟩ := newItem_open (n := n) type 1 _ hf
    (by rw [List.length_cons]; omega) (canAllocate_mono hcan (by omega)) hxs
  have hkeeps₁ := htook₁.keeps_open hf₁.fits cells
  rw [hq] at hkeeps₁
  obtain ⟨s, l, m₂, hsons, hf₂, htook₂, hs, hl⟩ := singletonSons_spec hf₁
    (hfirst.frame hkeeps₁.agree hkeeps₁.closed) (hsecond.frame hkeeps₁.agree hkeeps₁.closed)
    (htook₁.canAllocate hcan)
  have hptr₁ := htook₁.allocationPtr_eq
  have hptr₂ := htook₂.allocationPtr_eq
  have hcell₂ := hcell.frame htook₂ (by omega)
  rw [← htype s hs.ne_null] at hcell₂
  obtain ⟨hf₃, htree⟩ := hcell₂.link (t := .single x) (hlinks s hs.ne_null) hf₂ hn
    (by rw [SkewTree.height_single]; decide) hs hl rfl
  exact ⟨q, m₁, s, m₂, hnew, hsons, hf₃,
    (htook₁.trans htook₂).set hf₂.fits (by omega) (by omega) _, htree⟩

/-- Two single items are linked. -/
theorem linkSingletons_spec {p' b' x' : Nat} (hf : m₀.Filling cells m)
    (hfirst : ItemCell m.words (m.Closed cells) p b nullPtr 0 x)
    (hsecond : ItemCell m.words (m.Closed cells) p' b' nullPtr 0 x') (hcan : m.canAllocate 9)
    (data : Nat) :
    ∃ q m' n, linkSingletons m data p p' = some (q, m') ∧ m₀.Filling cells m' ∧ m.Took n m' ∧
      n ≤ 9 ∧ LqTreeAt m'.words (m'.Closed cells) (.node data (.single x) (.single x')) b' q := by
  unfold linkSingletons
  rw [if_congr (hsecond.isType_iff _) rfl (if_congr (hsecond.isType_iff _) rfl rfl)]
  by_cases hb : b' = nullPtr
  · obtain ⟨q, m₁, s, m₂, hnew, hsons, hf', htook, htree⟩ := linkSingletons_aux (n := 3) .lqItem10
      (fun _ => [ptrToWord data]) hf hfirst hsecond (canAllocate_mono hcan (by decide)) rfl
      (fun _ _ => rfl) (fun s hs => by simp [itemType, hb, hs])
      (fun s hs => by simp [itemLinks, hb, hs])
    refine ⟨q, _, _, ?_, hf', htook, by decide, htree⟩
    rw [if_pos (by simp [itemType, hb]), hnew]
    dsimp only
    rw [hsons]
  · obtain ⟨q, m₁, s, m₂, hnew, hsons, hf', htook, htree⟩ := linkSingletons_aux (n := 4) .lqItem11
      (fun words => [ptrToWord data, words (p' + 2)]) hf hfirst hsecond hcan rfl
      (fun words hagree => by rw [hsecond.read_brother hb hagree])
      (fun s hs => by simp [itemType, hb, hs]) (fun s hs => by simp [itemLinks, hb, hs])
    refine ⟨q, _, _, ?_, hf', htook, by decide, htree⟩
    rw [if_neg (by simp [itemType, hb]), if_pos (by simp [itemType, hb]), hnew]
    dsimp only
    rw [hsons]

/-- The two trees are copied; the right son of the second copy is not set yet. -/
theorem linkCopies_spec {p' b' x' s' h' : Nat} {l r : SkewTree Nat} (hf : m₀.Filling cells m)
    (hfirst : LqTreeAt m.words (m.Closed cells) (.node x l r) p' p) (hp' : p' ≠ nullPtr)
    (hsecond : ItemCell m.words (m.Closed cells) p' b' s' h' x') (hcan : m.canAllocate 7) :
    ∃ a m₁ c m₂, newItem m 3 .lqItem10 (height m.words p)
        (fun words => [words (p + 1), words (p + 3)]) = (a, m₁) ∧
      newItem m₁ 4 .lqItem11 (height m₁.words p')
        (fun words => [words (p' + 1), ptrToWord a]) = (c, m₂) ∧
      m₀.Filling ((c, 4) :: cells) m₂ ∧ m.Took 7 m₂ ∧ Keeps m cells m₂ ((c, 4) :: cells) ∧
      m₂.allocationPtr = c ∧ FilledCell m₂ c .lqItem11 h' [ptrToWord x', ptrToWord a] ∧
      LqTreeAt m₂.words (m₂.Closed ((c, 4) :: cells)) (.node x l r) nullPtr a := by
  obtain ⟨s, n, hcell, hr, hl⟩ := hfirst
  obtain ⟨a, m₁, hleft, hf₁, htook₁, ha⟩ := newItem_spec .lqItem10 3 (height m.words p)
    (fun words => [words (p + 1), words (p + 3)]) nullPtr s x hf (by simp [itemType, hr.ne_null])
    (by simp [itemLinks, hr.ne_null]) (canAllocate_mono hcan (by decide))
    (hcell.height_eq ▸ hcell.height_lt) fun words hagree => by
      rw [hcell.read_item hagree, hcell.read_son_of_brother hp' hr.ne_null hagree]
      simp [itemLinks, hr.ne_null]
  rw [hcell.height_eq] at ha
  have hkeeps₁ := htook₁.keeps cells
  have hsecond₁ := hsecond.frame hkeeps₁.agree hkeeps₁.closed
  obtain ⟨c, m₂, hright, hf₂, htook₂, hc, hcell₂⟩ := newItem_open (n := 4) .lqItem11
    (height m₁.words p') [ptrToWord x', ptrToWord a] hf₁ (by simp) (htook₁.canAllocate hcan)
    (fun words hagree => show [words (p' + 1), ptrToWord a] = _ by
      rw [hsecond₁.read_item hagree])
  rw [hsecond₁.height_eq] at hcell₂
  have hkeeps₂ := htook₂.keeps_open hf₂.fits cells
  rw [hc] at hkeeps₂
  have htree : LqTreeAt m₁.words (m₁.Closed cells) (.node x l r) nullPtr a :=
    ⟨s, n, ha, hr.keeps hkeeps₁, hl.keeps hkeeps₁⟩
  exact ⟨a, m₁, c, m₂, hleft, hright, hf₂, htook₁.trans htook₂, hkeeps₁.trans hkeeps₂, hc, hcell₂,
    htree.keeps hkeeps₂⟩

/-- Copies of the two trees are the sons of the new item. -/
theorem linkTrees_aux {p' b' x' : Nat} {l r l' r' : SkewTree Nat} (data : Nat) (type : CellType)
    (xs : (Nat → Nat) → List Nat) (hf : m₀.Filling cells m)
    (hfirst : LqTreeAt m.words (m.Closed cells) (.node x l r) p' p) (hp' : p' ≠ nullPtr)
    (hsecond : LqTreeAt m.words (m.Closed cells) (.node x' l' r') b' p')
    (hheight : l.height + 1 + 1 < 2 ^ 24) (hcan : m.canAllocate (7 + n)) (hn : n = ws.length + 3)
    (hxs : ∀ words, AgreeOn m.Live m.words words → xs words = ptrToWord data :: ws)
    (htype : ∀ s, s ≠ nullPtr → itemType b' s = type)
    (hlinks : ∀ s, s ≠ nullPtr → ws ++ [ptrToWord s] = itemLinks b' s) :
    ∃ a m₁ c m₂ q m₃ w, newItem m 3 .lqItem10 (height m.words p)
        (fun words => [words (p + 1), words (p + 3)]) = (a, m₁) ∧
      newItem m₁ 4 .lqItem11 (height m₁.words p')
        (fun words => [words (p' + 1), ptrToWord a]) = (c, m₂) ∧
      (IsType m₂.words p' .lqItem10 ↔ b' = nullPtr) ∧
      newItem m₂ n type (height m₂.words p + 1) xs = (q, m₃) ∧
      m₃.words (p' + (if b' = nullPtr then 2 else 3)) = w ∧
      m₀.Filling cells ((m₃.set (c + 3) w).set (q + (n - 1)) (ptrToWord c)) ∧
      m.Took (7 + n) ((m₃.set (c + 3) w).set (q + (n - 1)) (ptrToWord c)) ∧
      LqTreeAt ((m₃.set (c + 3) w).set (q + (n - 1)) (ptrToWord c)).words
        (((m₃.set (c + 3) w).set (q + (n - 1)) (ptrToWord c)).Closed cells)
        (.node data (.node x l r) (.node x' l' r')) b' q := by
  have hfirst' := hfirst
  obtain ⟨s', n', hcell', hr', hl'⟩ := hsecond
  have hs' := hr'.ne_null
  obtain ⟨a, m₁, c, m₂, hleft, hright, hf₂, htook₂, hkeeps₂, hc, hcell₂, htree₂⟩ :=
    linkCopies_spec hf hfirst hp' hcell' (canAllocate_mono hcan (by omega))
  have hanull := htree₂.ne_null
  have hheight₂ : height m₂.words p = l.height + 1 := (hfirst.keeps hkeeps₂).height_eq
  have hsecond₂ := hcell'.frame hkeeps₂.agree hkeeps₂.closed
  obtain ⟨q, m₃, hnew, hf₃, htook₃, hq, hcell₃⟩ := newItem_open (n := n) type
    (height m₂.words p + 1) _ hf₂ (by rw [List.length_cons]; omega) (htook₂.canAllocate hcan)
    fun words hagree => hxs words (htook₂.agree hagree)
  have hkeeps₃ := htook₃.keeps_open hf₃.fits ((c, 4) :: cells)
  rw [hq] at hkeeps₃
  have hsecond₃ := hsecond₂.frame hkeeps₃.agree hkeeps₃.closed
  have hptr₂ := htook₂.allocationPtr_eq
  have hptr₃ := htook₃.allocationPtr_eq
  -- the right son of the second copy
  have hw : m₃.words (p' + (if b' = nullPtr then 2 else 3)) = ptrToWord s' := by
    by_cases hb : b' = nullPtr
    · subst hb
      rw [if_pos rfl, hsecond₃.son hs']
    · rw [if_neg hb, hsecond₃.son_of_brother hb hs']
  have hmem : (c, 4) ∈ (q, n) :: (c, 4) :: cells := List.mem_cons_of_mem _ List.mem_cons_self
  have hf₄ := hf₃.set hmem (i := 3) (by decide) (ptrToWord s')
  have hkeeps₄ : Keeps m₃ ((q, n) :: (c, 4) :: cells) (m₃.set (c + 3) (ptrToWord s'))
      ((q, n) :: cells) :=
    (Keeps.set m₃ hmem (by decide) _).trans (.close _ fun d hd =>
      (List.mem_cons.mp hd).elim (fun heq => heq ▸ List.mem_cons_self)
        fun hd => List.mem_cons_of_mem _ (List.mem_cons_of_mem _ hd))
  have hc₄ := (hcell₂.frame htook₃ (by omega)).snoc (n := c + 3) rfl (ptrToWord s')
  have hlinks' : itemLinks a s' = [ptrToWord a, ptrToWord s'] := by
    simp [itemLinks, hanull, hs']
  have hc₅ : ItemCell (m₃.set (c + 3) (ptrToWord s')).words
      ((m₃.set (c + 3) (ptrToWord s')).Closed ((q, n) :: cells)) c a s' (l'.height + 1) x' := by
    refine FilledCell.item ?_ (hf₄.perm ?_) hcell'.height_lt
    · rw [hlinks', show itemType a s' = .lqItem11 by simp [itemType, hanull, hs']]
      exact hc₄
    · rw [hlinks']
      exact List.Perm.swap _ _ _
  have hkeeps := hkeeps₂.trans (hkeeps₃.trans hkeeps₄)
  have hu : LqTreeAt (m₃.set (c + 3) (ptrToWord s')).words
      ((m₃.set (c + 3) (ptrToWord s')).Closed ((q, n) :: cells)) (.node x' l' r') a c :=
    ⟨s', n', hc₅, hr'.keeps hkeeps, hl'.keeps hkeeps⟩
  have hq₄ := hcell₃.set (n := c + 3) (by rw [List.length_cons]; omega) (ptrToWord s')
  rw [← htype c hcell₂.ne_null, hheight₂] at hq₄
  obtain ⟨hf₅, htree⟩ := hq₄.link (t := .node x l r) (hlinks c hcell₂.ne_null)
    (hf₄.close (List.Sublist.cons_cons _ (List.sublist_cons_self _ _))) hn hheight hu
    (htree₂.keeps (hkeeps₃.trans hkeeps₄)) rfl
  have htook₄ := (htook₂.trans htook₃).set (a := c + 3) hf₃.fits (by omega) (by omega)
    (ptrToWord s')
  exact ⟨a, m₁, c, m₂, q, m₃, _, hleft, hright, by
    rw [hsecond₂.isType_iff]
    by_cases hb : b' = nullPtr <;> simp [itemType, hb, hs'], hnew, hw, hf₅,
    htook₄.set hf₄.fits (by rw [Memory.set_allocationPtr]; omega) (by omega) _, htree⟩

/-- Two trees of the same height are linked. -/
theorem linkTrees_spec {p' b' x' : Nat} {l r l' r' : SkewTree Nat} (hf : m₀.Filling cells m)
    (hfirst : LqTreeAt m.words (m.Closed cells) (.node x l r) p' p) (hp' : p' ≠ nullPtr)
    (hsecond : LqTreeAt m.words (m.Closed cells) (.node x' l' r') b' p')
    (hheight : l.height + 1 + 1 < 2 ^ 24) (hcan : m.canAllocate 11) (data : Nat) :
    ∃ q m' n, linkTrees m data p p' = (q, m') ∧ m₀.Filling cells m' ∧ m.Took n m' ∧ n ≤ 11 ∧
      LqTreeAt m'.words (m'.Closed cells) (.node data (.node x l r) (.node x' l' r')) b' q := by
  unfold linkTrees
  by_cases hb : b' = nullPtr
  · obtain ⟨a, m₁, c, m₂, q, m₃, w, hleft, hright, htype, hnew, hw, hf', htook, htree⟩ :=
      linkTrees_aux (n := 3) data .lqItem10 (fun _ => [ptrToWord data]) hf hfirst hp'
        hsecond hheight (canAllocate_mono hcan (by decide)) rfl (fun _ _ => rfl)
        (fun s hs => by simp [itemType, hb, hs]) (fun s hs => by simp [itemLinks, hb, hs])
    refine ⟨q, _, _, ?_, hf', htook, by decide, htree⟩
    rw [if_pos hb] at hw
    simp only [hleft, hright, if_pos (htype.mpr hb), hnew, hw]
  · obtain ⟨s', n', hcell', hr', hl'⟩ := hsecond
    obtain ⟨a, m₁, c, m₂, q, m₃, w, hleft, hright, htype, hnew, hw, hf', htook, htree⟩ :=
      linkTrees_aux (n := 4) data .lqItem11
        (fun words => [ptrToWord data, words (p' + 2)]) hf hfirst hp' ⟨s', n', hcell', hr', hl'⟩
        hheight hcan rfl (fun words hagree => by rw [hcell'.read_brother hb hagree])
        (fun s hs => by simp [itemType, hb, hs]) (fun s hs => by simp [itemLinks, hb, hs])
    refine ⟨q, _, _, ?_, hf', htook, by decide, htree⟩
    rw [if_neg hb] at hw
    simp only [hleft, hright, if_neg (mt htype.mp hb), hnew, hw]

/-- The new item is a tree in front of the tail. -/
theorem insertFront_spec {queue : Nat} (hf : m₀.Filling cells m) (hp : p ≠ nullPtr)
    (hlive : m.Live (queue + 2)) (hword : m.words (queue + 2) = ptrToWord p)
    (hcan : m.canAllocate 3) (data : Nat) :
    ∃ q m', insertFront m queue data = (q, m') ∧ m₀.Filling cells m' ∧ m.Took 3 m' ∧
      LqTreeAt m'.words (m'.Closed cells) (.single data) p q :=
  newItem_spec .lqItem01 3 0 _ p nullPtr data hf (by simp [itemType, hp]) (by simp [itemLinks, hp])
    hcan (by decide) fun words hagree => by simp [hagree _ hlive, hword, itemLinks, hp]

/-- The tail with the new item. -/
theorem insertTree_spec {queue : Nat} (hf : m₀.Filling cells m)
    (hchain : ChainAt m.words (m.Closed cells) (t :: ts) p) (hlive : m.Live (queue + 2))
    (hword : m.words (queue + 2) = ptrToWord p) (hskew : Skew (t :: ts))
    (hperfect : ∀ u ∈ t :: ts, u.Perfect) (hheight : t.height + 1 < 2 ^ 24)
    (hcan : m.canAllocate 11) (data : Nat) :
    ∃ q m' n, insertTree m queue data = some (q, m') ∧ m₀.Filling cells m' ∧ m.Took n m' ∧
      n ≤ 11 ∧ ChainAt m'.words (m'.Closed cells) (insertTail data (t :: ts)) q := by
  obtain ⟨b, ht, hts⟩ := hchain
  obtain ⟨q, m', hfront, hf', htook, hq⟩ := insertFront_spec hf ht.ne_null hlive hword
    (canAllocate_mono hcan (by decide)) data
  -- the new item is a tree of its own
  have halone : insertTree m queue data = some (insertFront m queue data) →
      insertTail data (t :: ts) = .single data :: t :: ts →
      ∃ q m' n, insertTree m queue data = some (q, m') ∧ m₀.Filling cells m' ∧ m.Took n m' ∧
        n ≤ 11 ∧ ChainAt m'.words (m'.Closed cells) (insertTail data (t :: ts)) q := by
    intro hrun htail
    rw [htail]
    exact ⟨q, m', 3, by rw [hrun, hfront], hf', htook, by decide, p, hq, b,
      ht.keeps (htook.keeps cells), hts.frame (htook.keeps cells).agree (htook.keeps cells).closed⟩
  have hfirst : wordToPtr (m.words (queue + 2)) = p := by rw [hword, wordToPtr_ptrToWord]
  obtain ⟨s, x, hcell⟩ := ht.root
  cases ts with
  | nil =>
    have hb : b = nullPtr := hts
    refine halone ?_ rfl
    rw [insertTree, hfirst, if_pos]
    rw [hcell.isType_iff, hcell.isType_iff]
    by_cases hs : s = nullPtr <;> simp [itemType, hb, hs]
  | cons u rest =>
    obtain ⟨b', hu, hrest⟩ := hts
    have hb : b ≠ nullPtr := hu.ne_null
    have hsecond : next m.words p = b := by rw [next, hcell.brother hb, wordToPtr_ptrToWord]
    have hnot : ¬ (IsType m.words p .lqItem00 ∨ IsType m.words p .lqItem10) := by
      rw [hcell.isType_iff, hcell.isType_iff]
      by_cases hs : s = nullPtr <;> simp [itemType, hb, hs]
    have hkeeps : ∀ {n m'}, m.Took n m' → ChainAt m'.words (m'.Closed cells) rest b' :=
      fun htook => hrest.frame (htook.keeps cells).agree (htook.keeps cells).closed
    cases t with
    | single x =>
      have hcell : ItemCell m.words (m.Closed cells) p b nullPtr 0 x := ht
      have htype : IsType m.words p .lqItem01 := by
        rw [hcell.isType_iff]
        simp [itemType, hb]
      cases u with
      | single x' =>
        obtain ⟨q, m', n, hlink, hf', htook, hn, htree⟩ :=
          linkSingletons_spec hf hcell hu (canAllocate_mono hcan (by decide)) data
        refine ⟨q, m', n, ?_, hf', htook, Nat.le_trans hn (by decide), b', htree, hkeeps htook⟩
        have hcell' : ItemCell m.words (m.Closed cells) b b' nullPtr 0 x' := hu
        have hother : ¬ (IsType m.words b .lqItem10 ∨ IsType m.words b .lqItem11) := by
          rw [hcell'.isType_iff, hcell'.isType_iff]
          by_cases hb' : b' = nullPtr <;> simp [itemType, hb']
        rw [insertTree, hfirst, hsecond, if_neg hnot, if_pos htype, if_neg hother, hlink]
      | node x' l' r' =>
        obtain ⟨s', n', hcell', hr', -⟩ := hu
        have hhigher : IsType m.words b .lqItem10 ∨ IsType m.words b .lqItem11 := by
          rw [hcell'.isType_iff, hcell'.isType_iff]
          by_cases hb' : b' = nullPtr <;> simp [itemType, hb', hr'.ne_null]
        refine halone ?_ (by simp [insertTail])
        rw [insertTree, hfirst, hsecond, if_neg hnot, if_pos htype, if_pos hhigher]
    | node x l r =>
      have ht' := ht
      obtain ⟨s, n, hcell, hr, -⟩ := ht'
      have hs := hr.ne_null
      have htype : IsType m.words p .lqItem11 := by
        rw [hcell.isType_iff]
        simp [itemType, hb, hs]
      have hsingle : ¬ IsType m.words p .lqItem01 := by
        rw [hcell.isType_iff]
        simp [itemType, hb, hs]
      have hson : wordToPtr (m.words (p + 3)) = s := by
        rw [hcell.son_of_brother hb hs, wordToPtr_ptrToWord]
      have hlr : l.height = r.height := (hperfect _ List.mem_cons_self).1
      have hsub : sub32 (l.height + 1) 1 = l.height := by
        rw [SkewTree.height_node] at hheight
        rw [sub32_of_le (by omega) (by omega), Nat.add_sub_cancel]
      cases u with
      | single x' => exact absurd (hskew.1 _ List.mem_cons_self) (by simp)
      | node x' l' r' =>
        have hu' := hu
        obtain ⟨s', n', hcell', hr', -⟩ := hu'
        have hhigher : IsType m.words b .lqItem10 ∨ IsType m.words b .lqItem11 := by
          rw [hcell'.isType_iff, hcell'.isType_iff]
          by_cases hb' : b' = nullPtr <;> simp [itemType, hb', hr'.ne_null]
        have hle : l'.height + 1 ≥ l.height + 1 := hskew.1 _ List.mem_cons_self
        have hrun : insertTree m queue data =
            if l.height + 1 ≠ l'.height + 1 then some (insertFront m queue data)
            else some (linkTrees m data p b) := by
          rw [insertTree, hfirst, hsecond, if_neg hnot, if_neg hsingle, assert_true htype, hson,
            hr.height_eq, hcell.height_eq, hcell'.height_eq, hsub, assert_true hlr.symm,
            assert_true (Nat.succ_pos l.height), assert_true hhigher, assert_true hle]
          rfl
        by_cases heq : l.height = l'.height
        · obtain ⟨q, m', n, hlink, hf', htook, hn, htree⟩ :=
            linkTrees_spec hf ht hb hu hheight hcan data
          refine ⟨q, m', n, ?_, hf', htook, hn, ?_⟩
          · rw [hrun, if_neg (by simpa using heq), hlink]
          · rw [insertTail, if_pos (by simpa using heq)]
            exact ⟨b', htree, hkeeps htook⟩
        · refine halone ?_ (by simp [insertTail, heq])
          rw [hrun, if_pos (by simpa using heq)]

/-! ## the entry point -/

/-- A new entry point. -/
theorem newEntry_spec (xs : (Nat → Nat) → List Nat) (Q : SkewQueue Nat) (a b : Nat)
    (hf : m₀.Filling cells m) (hcan : m.canAllocate 3)
    (hxs : ∀ words, AgreeOn m.Live m.words words → xs words = [ptrToWord a, ptrToWord b])
    (hhead : ChainAt m.words (m.Closed cells) Q.head a)
    (htail : ChainAt m.words (m.Closed cells) Q.tail b) (hne : Q.head ≠ [] ∨ Q.tail ≠ []) :
    ∃ q m', newItem m 3 .lqEntryPoint 0 xs = (q, m') ∧ m₀.Filling cells m' ∧ m.Took 3 m' ∧
      EntryAt m'.words (m'.Closed cells) Q q a b := by
  obtain ⟨q, m', hnew, hf', htook, -, hnull, -, hwords⟩ :=
    newItem_open (n := 3) .lqEntryPoint 0 _ hf (by simp) hcan hxs
  have hkeeps := htook.keeps cells
  simp only [List.length_cons, List.length_nil, slice, List.cons.injEq, and_true] at hwords
  exact ⟨q, m', hnew, hf'.close (List.sublist_cons_self _ _), htook, hnull,
    fun i hi => hf'.closed_first hi, hwords.1, hwords.2,
    hhead.frame hkeeps.agree hkeeps.closed, htail.frame hkeeps.agree hkeeps.closed, hne⟩

theorem ChainAt.keeps {cells' : List (Nat × Nat)} (hts : ChainAt m.words (m.Closed cells) ts p)
    (hk : Keeps m cells m' cells') : ChainAt m'.words (m'.Closed cells') ts p :=
  hts.frame hk.agree hk.closed

/-- A single item without a brother. -/
theorem newSingle_spec (hf : m₀.Filling cells m) (hcan : m.canAllocate 2) (data : Nat) :
    ∃ q m', newItem m 2 .lqItem00 0 (fun _ => [ptrToWord data]) = (q, m') ∧ m₀.Filling cells m' ∧
      m.Took 2 m' ∧ ChainAt m'.words (m'.Closed cells) [.single data] q := by
  obtain ⟨q, m', hnew, hf', htook, hq⟩ := newItem_spec .lqItem00 2 0 (fun _ => [ptrToWord data])
    nullPtr nullPtr data hf rfl rfl hcan (by decide) fun _ _ => rfl
  exact ⟨q, m', hnew, hf', htook, nullPtr, hq, rfl⟩

/-- `lq_insert_last`. -/
theorem lqInsertLast_spec (hf : m₀.Filling cells m) (hQ : LqAt m.words (m.Closed cells) Q p)
    (hord : Q.Ordered) (hheight : ∀ t ∈ Q.tail, t.height + 1 < 2 ^ 24)
    (hcan : m.canAllocate lqInsertMaxAllocation) (data : Nat) :
    ∃ q m' n, lqInsertLast m p data = some (q, m') ∧ m₀.Filling cells m' ∧
      m.Took (n + 2) m' ∧ n + 2 ≤ lqInsertMaxAllocation ∧
      LqAt m'.words (m'.Closed cells) (Q.insertLast data) q := by
  have hmax : lqInsertMaxAllocation = 14 := rfl
  rw [hmax] at hcan ⊢
  rcases hQ with ⟨rfl, hhead, htail⟩ | ⟨a, b, hQ⟩
  · obtain ⟨i, m₁, hitem, hf₁, htook₁, hi⟩ := newSingle_spec hf (canAllocate_mono hcan (by decide))
      data
    obtain ⟨q, m', hnew, hf', htook', hq⟩ := newEntry_spec (fun _ => [ptrToWord i, nullWord])
      ⟨[.single data], []⟩ i nullPtr hf₁ (htook₁.canAllocate (canAllocate_mono hcan (by decide)))
      (fun _ _ => rfl) hi rfl (by simp)
    refine ⟨q, m', 3, ?_, hf', htook₁.trans htook', by decide, ?_⟩
    · rw [lqInsertLast, if_pos rfl, hitem]
      exact congrArg some hnew
    · rw [SkewQueue.insertLast, if_pos ⟨hhead, htail⟩]
      exact .inr ⟨_, _, hq⟩
  · rw [SkewQueue.insertLast, if_neg (not_and_or.mpr hQ.nonempty)]
    -- the new entry point has the old head and the new tail
    have hentry : ∀ {i m₁ k}, m₀.Filling cells m₁ → m.Took k m₁ → m₁.canAllocate 3 →
        ChainAt m₁.words (m₁.Closed cells) (insertTail data Q.tail) i →
        ∃ q m', newItem m₁ 3 .lqEntryPoint 0 (fun words => [words (p + 1), ptrToWord i]) = (q, m') ∧
          m₀.Filling cells m' ∧ m.Took (k + 3) m' ∧
          LqAt m'.words (m'.Closed cells) ⟨Q.head, insertTail data Q.tail⟩ q := by
      intro i m₁ k hf₁ htook₁ hcan₁ hi
      have hQ₁ := hQ.frame (htook₁.keeps cells).agree (htook₁.keeps cells).closed
      have hword : ∀ words, AgreeOn m₁.Live m₁.words words →
          [words (p + 1), ptrToWord i] = [ptrToWord a, ptrToWord i] := fun words hagree => by
        rw [hagree _ (hQ₁.cell 1 (by decide)).1, hQ₁.head_word]
      obtain ⟨q, m', hnew, hf', htook', hq⟩ := newEntry_spec _ ⟨Q.head, insertTail data Q.tail⟩ a i
        hf₁ hcan₁ hword hQ₁.head hi (.inr (insertTail_ne_nil data _))
      exact ⟨q, m', hnew, hf', htook₁.trans htook', .inr ⟨_, _, hq⟩⟩
    cases htail : Q.tail with
    | nil =>
      have hb : b = nullPtr := hQ.tail.eq_nullPtr_iff.mpr htail
      obtain ⟨i, m₁, hitem, hf₁, htook₁, hi⟩ :=
        newSingle_spec hf (canAllocate_mono hcan (by decide)) data
      obtain ⟨q, m', hnew, hf', htook', hq⟩ := hentry hf₁ htook₁
        (htook₁.canAllocate (canAllocate_mono hcan (by decide))) (by rwa [htail])
      have hhead : a ≠ nullPtr := mt hQ.head.eq_nullPtr_iff.mp
        (hQ.nonempty.resolve_right fun hne => hne htail)
      rw [htail] at hq
      refine ⟨q, m', 3, ?_, hf', htook', by decide, hq⟩
      rw [lqInsertLast, if_neg hQ.ne_null, if_pos (by rw [hQ.tail_word, hb]; rfl),
        assert_true (by rwa [hQ.head_word, ne_eq, ptrToWord_eq_nullWord]), hitem]
      exact congrArg some hnew
    | cons t ts =>
      have hchain := hQ.tail
      rw [htail] at hchain
      have hb : b ≠ nullPtr := mt hchain.eq_nullPtr_iff.mp (by simp)
      obtain ⟨i, m₁, n, hitem, hf₁, htook₁, hn, hi⟩ := insertTree_spec hf hchain
        (hQ.cell 2 (by decide)).1 hQ.tail_word (htail ▸ hord.skew) (htail ▸ hord.tail)
        (hheight t (htail ▸ List.mem_cons_self)) (canAllocate_mono hcan (by decide)) data
      obtain ⟨q, m', hnew, hf', htook', hq⟩ := hentry hf₁ htook₁
        (htook₁.canAllocate (canAllocate_mono hcan (by omega))) (by rwa [htail])
      rw [htail] at hq
      refine ⟨q, m', n + 1, ?_, hf', htook', by omega, hq⟩
      rw [lqInsertLast, if_neg hQ.ne_null,
        if_neg (by rwa [hQ.tail_word, ptrToWord_eq_nullWord]), hitem]
      exact congrArg some hnew

end Shades
