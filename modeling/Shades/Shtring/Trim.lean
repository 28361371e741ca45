import Shades.Shtring.Build

/-!
# Shades.Shtring.Trim

`trim_ends` where it works: nothing is to be cut off, or what is to be cut off
ends between two children of a node of height three or more which keeps two
children at least, so that no chunk is copied and no level of the tree is
skipped.  A chunk on its own is copied rightly if the text starts within a word
and the words written are those of the new chunk.
-/

namespace Shades

/-! ## where it works -/

/-- The first `start` characters below `p`, at height `h`, can be cut off. -/
def trimsFront (words : Nat → Nat) : Nat → Nat → Nat → Bool
  | 0, _, start => start == 0
  | h + 1, p, start =>
    start == 0 || decide (2 ≤ h) &&
      match skipLeft words p (shtringNodeChildren words p + 2) 1 start with
      | some (i, start) =>
        decide (i < shtringNodeChildren words p) &&
          trimsFront words h (shtringNodeChild words p i) start
      | none => false

/-- The last `fin` characters below `p`, at height `h`, can be cut off. -/
def trimsBack (words : Nat → Nat) : Nat → Nat → Nat → Bool
  | 0, _, fin => fin == 0
  | h + 1, p, fin =>
    fin == 0 || decide (2 ≤ h) &&
      let (j, fin) := skipRight words p 1 (shtringNodeChildren words p) fin
      decide (1 < j) && trimsBack words h (shtringNodeChild words p j) fin

/-- The numbers of children of the nodes on the left edge, from the root down,
after the first `start` characters were cut off. -/
def frontSpine (words : Nat → Nat) : Nat → Nat → Nat → List Nat
  | 0, _, _ => []
  | h + 1, p, start =>
    if h = 0 then []
    else
      match skipLeft words p (shtringNodeChildren words p + 2) 1 start with
      | some (i, start) =>
        (shtringNodeChildren words p + 1 - i) :: frontSpine words h (shtringNodeChild words p i) start
      | none => []

/-- The numbers of children of the nodes on the right edge, from the root down,
after the last `fin` characters were cut off. -/
def backSpine (words : Nat → Nat) : Nat → Nat → Nat → List Nat
  | 0, _, _ => []
  | h + 1, p, fin =>
    if h = 0 then []
    else
      let (j, fin) := skipRight words p 1 (shtringNodeChildren words p) fin
      j :: backSpine words h (shtringNodeChild words p j) fin

/-- The text of the chunk `p` from `start` on can be copied: it starts within a
word, and the words that the loop of `copy_chunk_text` writes are those of the
new chunk. -/
def CopiesShifted (words : Nat → Nat) (p start : Nat) : Prop :=
  isShtringNode words p = false ∧ start < shtringChunkLength words p ∧ start % 4 ≠ 0 ∧
    (shtringChunkLength words p - start) % 4 ≠ 0 ∧
    (shtringChunkLength words p - start) % 4 + start % 4 ≤ 4

instance (words : Nat → Nat) (p start : Nat) : Decidable (CopiesShifted words p start) :=
  inferInstanceAs (Decidable (_ ∧ _))

/-! ## the loops over the children -/

section skip

variable {words words' : Nat → Nat} {S : Nat → Prop} {h p : Nat}
  {kids : List (Nat × List Chunk)}

theorem skipLeft_spec (hn : ShtringNodeAt words S h p kids)
    (ht : ∀ kid ∈ kids, TreeAt words S h kid.1 kid.2) {fuel i start i' start' : Nat}
    (hi : i ≤ kids.length) (hskip : skipLeft words p fuel (i + 1) start = some (i', start')) :
    ∃ d, i' = i + d + 1 ∧ i + d ≤ kids.length ∧
      start = (kidsText ((kids.drop i).take d)).length + start' ∧
      (start' = 0 ∨ ∃ hlt : i + d < kids.length, start' < (textOf kids[i + d].2).length) := by
  induction fuel generalizing i start with
  | zero => cases hskip
  | succ fuel ih =>
    rw [skipLeft] at hskip
    by_cases hstart : start = 0
    · rw [if_pos hstart] at hskip
      obtain ⟨rfl, rfl⟩ := Prod.mk.inj (Option.some.inj hskip)
      exact ⟨0, rfl, hi, by simp, .inl hstart⟩
    · rw [if_neg hstart, hn.count] at hskip
      by_cases hlt : i < kids.length
      · have hlen := (ht _ (List.getElem_mem hlt)).treeLength
        rw [assert_true (by omega), hn.child hlt, hlen] at hskip
        simp only [Option.bind_eq_bind, Option.bind_some] at hskip
        by_cases hless : start < (textOf kids[i].2).length
        · rw [if_pos hless] at hskip
          obtain ⟨rfl, rfl⟩ := Prod.mk.inj (Option.some.inj hskip)
          exact ⟨0, rfl, hi, by simp, .inr ⟨hlt, hless⟩⟩
        · rw [if_neg hless] at hskip
          obtain ⟨d, rfl, hle, hsum, hrest⟩ := ih (i := i + 1) hlt hskip
          refine ⟨d + 1, by omega, by omega, ?_, ?_⟩
          · rw [List.drop_eq_getElem_cons hlt, List.take_succ_cons, kidsText_cons,
              List.length_append]
            generalize (textOf kids[i].2).length = len at hless hsum ⊢
            omega
          · simpa only [show i + (d + 1) = i + 1 + d by omega] using hrest
      · rw [assert, if_neg (by omega)] at hskip
        cases hskip

theorem skipRight_spec (hn : ShtringNodeAt words S h p kids)
    (ht : ∀ kid ∈ kids, TreeAt words S h kid.1 kid.2) {j : Nat} (fin : Nat) (hpos : 0 < j)
    (hj : j ≤ kids.length) :
    ∃ j' fin', skipRight words p 1 j fin = (j' + 1, fin') ∧ j' < j ∧
      fin = (kidsText ((kids.drop (j' + 1)).take (j - (j' + 1)))).length + fin' ∧
      (fin' = 0 ∨ j' = 0 ∨ ∃ hlt : j' < kids.length, fin' < (textOf kids[j'].2).length) := by
  induction j generalizing fin with
  | zero => exact absurd hpos (Nat.lt_irrefl 0)
  | succ j ih =>
    have hlt : j < kids.length := hj
    rw [skipRight, hn.child hlt, (ht _ (List.getElem_mem hlt)).treeLength]
    by_cases hin : 0 < fin ∧ 1 < j + 1
    · rw [if_pos hin]
      by_cases hless : fin < (textOf kids[j].2).length
      · simp only [if_pos hless]
        exact ⟨j, fin, rfl, by omega, by simp, .inr (.inr ⟨hlt, hless⟩)⟩
      · simp only [if_neg hless]
        obtain ⟨j', fin', hskip, hj', hsum, hrest⟩ :=
          ih (fin - (textOf kids[j].2).length) (by omega) (by omega)
        refine ⟨j', fin', hskip, by omega, ?_, hrest⟩
        have hsplit : (kids.drop (j' + 1)).take (j + 1 - (j' + 1)) =
            (kids.drop (j' + 1)).take (j - (j' + 1)) ++ [kids[j]] := by
          rw [show j + 1 - (j' + 1) = j - (j' + 1) + 1 by omega, List.take_add_one, List.getElem?_drop,
            show j' + 1 + (j - (j' + 1)) = j by omega, List.getElem?_eq_getElem hlt]
          rfl
        rw [hsplit, kidsText_append, kidsText_cons, kidsText_nil, List.append_nil,
          List.length_append]
        generalize (textOf kids[j].2).length = len at hless hsum ⊢
        omega
    · rw [if_neg hin]
      exact ⟨j, fin, rfl, by omega, by simp, by omega⟩

theorem skipRight_zero (words : Nat → Nat) (p i j : Nat) : skipRight words p i j 0 = (j, 0) := by
  cases j with
  | zero => rfl
  | succ j => rw [skipRight, if_neg (by omega)]

variable (hn : ShtringNodeAt words S h p kids)
  (ht : ∀ kid ∈ kids, TreeAt words S h kid.1 kid.2) (hagree : AgreeOn S words words')

include hn ht hagree

/-- The first loop sees only the children. -/
theorem skipLeft_frame (fuel i start : Nat) :
    skipLeft words' p fuel (i + 1) start = skipLeft words p fuel (i + 1) start := by
  have hn' := hn.frame hagree fun _ ha => ha
  induction fuel generalizing i start with
  | zero => rfl
  | succ fuel ih =>
    rw [skipLeft, skipLeft, hn.count, hn'.count]
    by_cases hlt : i < kids.length
    · have hkid := ht _ (List.getElem_mem hlt)
      rw [hn.child hlt, hn'.child hlt, hkid.treeLength,
        (hkid.frame hagree fun _ ha => ha).treeLength]
      simp only [ih]
    · simp only [assert, if_neg (show ¬ i + 1 ≤ kids.length by omega)]
      rfl

/-- So does the second one. -/
theorem skipRight_frame {i j : Nat} (fin : Nat) (hj : j ≤ kids.length) :
    skipRight words' p i j fin = skipRight words p i j fin := by
  have hn' := hn.frame hagree fun _ ha => ha
  induction j generalizing fin with
  | zero => rfl
  | succ j ih =>
    have hkid := ht _ (List.getElem_mem hj)
    rw [skipRight, skipRight, hn.child hj, hn'.child hj, hkid.treeLength,
      (hkid.frame hagree fun _ ha => ha).treeLength]
    simp only [ih _ (Nat.le_of_succ_le hj)]

end skip

/-! ## the edges -/

section spine

variable {words words' : Nat → Nat} {S : Nat → Prop} {h p : Nat} {chunks : List Chunk}
  {kids : List (Nat × List Chunk)}

theorem frontSpine_cons {kid : Nat × List Chunk} (hn : ShtringNodeAt words S h p (kid :: kids))
    (hh : 0 < h) :
    frontSpine words (h + 1) p 0 = (kids.length + 1) :: frontSpine words h kid.1 0 := by
  have hskip : skipLeft words p (kids.length + 1 + 2) 1 0 = some (0 + 1, 0) := rfl
  have hchild := hn.child (i := 0) (Nat.succ_pos _)
  rw [frontSpine, if_neg (by omega), hn.count, List.length_cons, hskip]
  simp only [hchild, Nat.zero_add, Nat.add_sub_cancel, List.getElem_cons_zero]

theorem backSpine_concat {kid : Nat × List Chunk} (hn : ShtringNodeAt words S h p (kids ++ [kid]))
    (hh : 0 < h) :
    backSpine words (h + 1) p 0 = (kids.length + 1) :: backSpine words h kid.1 0 := by
  have hchild := hn.child (i := kids.length) (by simp)
  rw [backSpine, if_neg (by omega), hn.count, skipRight_zero, List.length_append,
    List.length_singleton]
  simp only [hchild, List.getElem_concat_length]

theorem frontSpine_head (hn : ShtringNodeAt words S h p kids) (hh : 0 < h) :
    ∃ t, frontSpine words (h + 1) p 0 = kids.length :: t := by
  obtain ⟨kid, kids, rfl⟩ := List.exists_cons_of_ne_nil hn.ne_nil
  exact ⟨_, frontSpine_cons hn hh⟩

theorem backSpine_head (hn : ShtringNodeAt words S h p kids) (hh : 0 < h) :
    ∃ t, backSpine words (h + 1) p 0 = kids.length :: t := by
  obtain ⟨kids, kid, rfl⟩ : ∃ l kid, kids = l ++ [kid] :=
    ⟨_, _, (List.dropLast_concat_getLast hn.ne_nil).symm⟩
  rw [List.length_append]
  exact ⟨_, backSpine_concat hn hh⟩

/-- The edges of a tree are as long as it is high. -/
theorem TreeAt.length_frontSpine (ht : TreeAt words S h p chunks) :
    (frontSpine words h p 0).length = h - 1 := by
  induction ht with
  | chunk => rfl
  | @node p h kids hn htrees ih =>
    obtain ⟨kid, kids, rfl⟩ := List.exists_cons_of_ne_nil hn.ne_nil
    have hh := (htrees _ List.mem_cons_self).height_pos
    rw [frontSpine_cons hn hh, List.length_cons, ih _ List.mem_cons_self]
    omega

theorem TreeAt.length_backSpine (ht : TreeAt words S h p chunks) :
    (backSpine words h p 0).length = h - 1 := by
  induction ht with
  | chunk => rfl
  | @node p h kids hn htrees ih =>
    obtain ⟨kids, kid, rfl⟩ : ∃ l kid, kids = l ++ [kid] :=
      ⟨_, _, (List.dropLast_concat_getLast hn.ne_nil).symm⟩
    have hmem : kid ∈ kids ++ [kid] := List.mem_concat_self
    have hh := (htrees _ hmem).height_pos
    rw [backSpine_concat hn hh, List.length_cons, ih _ hmem]
    omega

theorem TreeAt.frontSpine_frame (ht : TreeAt words S h p chunks)
    (hagree : AgreeOn S words words') :
    frontSpine words' h p 0 = frontSpine words h p 0 := by
  induction ht with
  | chunk => rfl
  | @node p h kids hn htrees ih =>
    obtain ⟨kid, kids, rfl⟩ := List.exists_cons_of_ne_nil hn.ne_nil
    have hh := (htrees _ List.mem_cons_self).height_pos
    rw [frontSpine_cons hn hh, frontSpine_cons (hn.frame hagree fun _ ha => ha) hh,
      ih _ List.mem_cons_self]

theorem TreeAt.backSpine_frame (ht : TreeAt words S h p chunks)
    (hagree : AgreeOn S words words') :
    backSpine words' h p 0 = backSpine words h p 0 := by
  induction ht with
  | chunk => rfl
  | @node p h kids hn htrees ih =>
    obtain ⟨kids, kid, rfl⟩ : ∃ l kid, kids = l ++ [kid] :=
      ⟨_, _, (List.dropLast_concat_getLast hn.ne_nil).symm⟩
    have hmem : kid ∈ kids ++ [kid] := List.mem_concat_self
    have hh := (htrees _ hmem).height_pos
    rw [backSpine_concat hn hh, backSpine_concat (hn.frame hagree fun _ ha => ha) hh, ih _ hmem]

end spine

/-! ## cutting off -/

/-- The region `S` with the cells allocated between two memories. -/
def WithFresh (S : Nat → Prop) (m m' : Memory) (a : Nat) : Prop :=
  S a ∨ m'.allocationPtr ≤ a ∧ a < m.allocationPtr

/-- In every memory with these words in `S`, cutting off `start` and `fin`
characters of the tree `p` of height `h` leaves a tree of that height with the
given text and the given edges, and takes `c` words at most. -/
def Trims (S : Nat → Prop) (words : Nat → Nat) (depth h p start fin c : Nat)
    (text front back : List Nat) : Prop :=
  ∀ (m : Memory) (k : Nat), (∀ a, S a → m.Live a) → AgreeOn S words m.words →
    m.canAllocate (c + k) →
    ∃ q m' chunks, trimEnds depth m p start fin = some (q, m') ∧ m.Extends m' ∧
      m'.canAllocate k ∧ TreeAt m'.words (WithFresh S m m') h q chunks ∧ textOf chunks = text ∧
      frontSpine m'.words h q 0 = front ∧ backSpine m'.words h q 0 = back

section trim

variable {S : Nat → Prop} {words : Nat → Nat} {h p depth : Nat} {chunks : List Chunk}
  {kids : List (Nat × List Chunk)}

/-- Nothing is cut off. -/
theorem trims_zero (depth : Nat) (ht : TreeAt words S h p chunks) :
    Trims S words (depth + 1) h p 0 0 0 (textOf chunks) (frontSpine words h p 0)
      (backSpine words h p 0) := by
  intro m k hS hagree hcan
  have ht' := ht.frame hagree fun _ ha => ha
  have hpos := ht.text_pos
  rw [Nat.zero_add] at hcan
  refine ⟨p, m, chunks, ?_, .refl m, hcan, ht'.frame (fun _ _ => rfl) fun a ha => .inl ha, rfl,
    ht.frontSpine_frame hagree, ht.backSpine_frame hagree⟩
  rw [trimEnds, assert_true ht.ne_null, assert_true (by rw [ht'.treeLength]; exact hpos)]
  rfl

/-- A node that keeps the children from `i` to `j`, of which the first and the
last are trimmed themselves. -/
theorem trims_node (hn : ShtringNodeAt words S h p kids)
    (ht : ∀ kid ∈ kids, TreeAt words S h kid.1 kid.2) (hh : 2 ≤ h)
    {i j start fin start' fin' c c' : Nat}
    {first last front back front' back' : List Nat} (hij : i < j) (hi : i < kids.length)
    (hj : j < kids.length) (hcut : start ≠ 0 ∨ fin ≠ 0)
    (hsum : add32 start fin < (kidsText kids).length)
    (hleft : skipLeft words p (kids.length + 2) 1 start = some (i + 1, start'))
    (hright : skipRight words p (i + 1) kids.length fin = (j + 1, fin'))
    (hfirst : Trims S words depth h kids[i].1 start' 0 c first front back')
    (hlast : Trims S words depth h kids[j].1 0 fin' c' last front' back)
    (hfit : (first ++ kidsText ((kids.drop (i + 1)).take (j - (i + 1))) ++ last).length < 2 ^ 32) :
    Trims S words (depth + 1) (h + 1) p start fin
      (shtringNodeWordsNeeded maxShtringNodeChildren + c + c')
      (first ++ kidsText ((kids.drop (i + 1)).take (j - (i + 1))) ++ last)
      ((j - i + 1) :: front) ((j - i + 1) :: back) := by
  intro m k hS hagree hcan
  have hmax := hn.le_max
  have hn₀ := hn.frame hagree fun _ ha => ha
  have ht₀ := fun kid hkid => (ht kid hkid).frame hagree fun _ ha => ha
  have hleft₀ := (skipLeft_frame hn ht hagree (kids.length + 2) 0 start).trans hleft
  have hright₀ := (skipRight_frame hn ht hagree (i := i + 1) fin (Nat.le_refl _)).trans hright
  -- the new node
  obtain ⟨q, m₁, hnew, hb, hcan₁, hq₁, hq⟩ := shtringNewNode_spec (n := j - i + 1) (h := h)
    (k := c + c' + k) (by omega) (by omega) (by omega) hS (by
      unfold Memory.canAllocate shtringNodeWordsNeeded at hcan ⊢
      omega)
  have hagree₁ : AgreeOn S words m₁.words := hagree.trans (hb.ext.agree.mono hS)
  -- the first and the last child
  obtain ⟨left, m₂, chunks₂, htrim₂, hext₂, hcan₂, htree₂, rfl, hfront₂, -⟩ :=
    hfirst m₁ (c' + k) (fun a ha => hb.ext.live (hS a ha)) hagree₁ (by rwa [← Nat.add_assoc])
  have hagree₂ := hagree₁.trans (hext₂.agree.mono fun a ha => hb.ext.live (hS a ha))
  obtain ⟨right, m₃, chunks₃, htrim₃, hext₃, hcan₃, htree₃, rfl, -, hback₃⟩ :=
    hlast m₂ k (fun a ha => hext₂.live (hb.ext.live (hS a ha))) hagree₂ hcan₂
  have hagree₃ := hagree₂.trans
    (hext₃.agree.mono fun a ha => hext₂.live (hb.ext.live (hS a ha)))
  have hle₂ := hext₂.allocationPtr_le
  have hle₃ := hext₃.allocationPtr_le
  -- both lie below the new node
  have hb₃ : NodeBuild (WithFresh S m₁ m₃) m m₃ q (j - i + 1) h [] := by
    refine hb.extend (hext₂.trans hext₃) (fun a ha => .inl ha) fun a ha => ?_
    rcases ha with ha | ⟨hge, hlt⟩
    · exact ⟨hext₃.live (hext₂.live (hb.region a ha).1), (hb.region a ha).2⟩
    · exact ⟨.inr hge, .inl (by omega)⟩
  have hn₃ : ShtringNodeAt m₃.words (WithFresh S m₁ m₃) h p kids := hn.frame hagree₃ fun a ha => .inl ha
  have ht₃ : ∀ kid ∈ kids, TreeAt m₃.words (WithFresh S m₁ m₃) h kid.1 kid.2 := fun kid hkid =>
    (ht kid hkid).frame hagree₃ fun a ha => .inl ha
  have hlive₂ : ∀ a, WithFresh S m₁ m₂ a → m₂.Live a := by
    rintro a (ha | ⟨hge, -⟩)
    · exact hext₂.live (hb.ext.live (hS a ha))
    · exact .inr hge
  have hleft₃ : TreeAt m₃.words (WithFresh S m₁ m₃) h left chunks₂ :=
    htree₂.frame (hext₃.agree.mono hlive₂) fun a ha => ha.imp_right fun h => ⟨by omega, h.2⟩
  have hright₃ : TreeAt m₃.words (WithFresh S m₁ m₃) h right chunks₃ :=
    htree₃.frame (fun _ _ => rfl) fun a ha => ha.imp_right fun h => ⟨h.1, by omega⟩
  -- the children are added
  simp only [List.length_append] at hfit
  obtain ⟨m₄, hadd₄, hb₄, hagree₄, hsame₄⟩ :=
    shtringAddChild_spec hb₃ hleft₃ (Nat.succ_pos _) (by simp; omega)
  rw [List.nil_append] at hb₄
  obtain ⟨m₅, hadd₅, hb₅, hagree₅, hsame₅⟩ :=
    addChildrenLoop_spec (hn₃.frame hagree₄ fun _ ha => ha)
      (fun kid hkid => (ht₃ kid hkid).frame hagree₄ fun _ ha => ha) hb₄ (i := i + 1)
      (c := j - (i + 1)) (by omega) (by simp; omega) (by simp; omega)
  have hlen₅ : ([(left, chunks₂)] ++ (kids.drop (i + 1)).take (j - (i + 1))).length = j - i := by
    simp
    omega
  obtain ⟨m₆, hadd₆, hb₆, hagree₆, hsame₆⟩ :=
    shtringAddChild_spec hb₅ ((hright₃.frame hagree₄ fun _ ha => ha).frame hagree₅ fun _ ha => ha)
      (by omega) (by simp; omega)
  have hsame := (hsame₄.trans hsame₅).trans hsame₆
  have hptr₆ := hsame.allocationPtr_eq
  have hlen₆ : ([(left, chunks₂)] ++ (kids.drop (i + 1)).take (j - (i + 1)) ++
      [(right, chunks₃)]).length = j - i + 1 := by
    rw [List.length_append, hlen₅, List.length_singleton]
  have hnode₆ := hb₆.node hlen₆ fun x hx => (hb₆.fresh x hx).2
  have hagree₃₆ := (hagree₄.trans hagree₅).trans hagree₆
  refine ⟨q, m₆, _, ?_, hb₆.ext, hsame.canAllocate hcan₃, hb₆.tree hlen₆ ?_ ?_, ?_, ?_, ?_⟩
  · have hkid : ∀ x (hx : x < kids.length), shtringNodeChild m₁.words p (x + 1) = kids[x].1 :=
      fun x hx => (hn.frame hagree₁ fun _ ha => ha).child hx
    have hkid₂ : shtringNodeChild m₂.words p (j + 1) = kids[j].1 :=
      (hn.frame hagree₂ fun _ ha => ha).child hj
    have hcount₆ : shtringNodeChildren m₆.words q ≠ 1 := by
      rw [hb₆.count]
      omega
    have hskip : ∀ x, skipSingle m₆.words x q = q := by
      intro x
      cases x with
      | zero => rfl
      | succ x => rw [skipSingle, if_neg fun h => hcount₆ h.2]
    rw [trimEnds, assert_true hn.ne_null,
      assert_true (by rw [(TreeAt.node hn₀ ht₀).treeLength]; exact hsum), if_neg (by omega),
      if_pos hn₀.node]
    simp only [Option.bind_eq_bind, Option.bind_some, hn₀.count, hn₀.height, hleft₀, hright₀,
      assert_true (show i + 1 ≤ j + 1 by omega), show j + 1 - (i + 1) + 1 = j - i + 1 by omega,
      hnew, if_pos (show 2 < h + 1 by omega), if_neg (show i + 1 ≠ j + 1 by omega), hkid i (by omega),
      htrim₂, hkid₂, htrim₃, hleft₃.treeLength]
    have hstep₄ : shtringAddChild m₃ q left 1 (textOf chunks₂).length = some (2, m₄) := hadd₄
    have hstep₅ : addChildrenLoop q p (j + 1 - (i + 1 + 1)) m₄ 2 (i + 1 + 1) =
        some (j - i + 1, m₅) := by
      rw [show j + 1 - (i + 1 + 1) = j - (i + 1) by omega]
      refine hadd₅.trans ?_
      rw [List.length_singleton, show 1 + (j - (i + 1)) + 1 = j - i + 1 by omega]
    have hlen₆ := ((hright₃.frame hagree₄ fun _ ha => ha).frame hagree₅ fun _ ha => ha).treeLength
    rw [hlen₅] at hadd₆
    simp only [hstep₄, hstep₅, Option.bind_some, if_neg hright₃.ne_null, hlen₆, hadd₆, hskip]
  · rintro a (ha | ⟨hge, hlt⟩)
    · exact .inl ha
    · exact .inr ⟨by omega, by omega⟩
  · intro x hx
    exact .inr ⟨by omega, by omega⟩
  · show kidsText _ = _
    simp
  · have hframe := hleft₃.frontSpine_frame hagree₃₆
    have hframe₂ := htree₂.frontSpine_frame (hext₃.agree.mono hlive₂)
    rw [List.append_assoc] at hnode₆ hlen₆
    rw [frontSpine_cons hnode₆ (by omega), hframe, hframe₂, hfront₂]
    exact congrArg (· :: front) hlen₆
  · have hframe := hright₃.backSpine_frame hagree₃₆
    rw [backSpine_concat hnode₆ (by omega), hlen₅, hframe, hback₃]

/-- The text of the children kept and of those dropped. -/
theorem kidsText_split (kids : List (Nat × List Chunk)) {i j : Nat} (hij : i < j)
    (hi : i < kids.length) (hj : j < kids.length) :
    kidsText kids = kidsText (kids.take i) ++ textOf kids[i].2 ++
      kidsText ((kids.drop (i + 1)).take (j - (i + 1))) ++ textOf kids[j].2 ++
      kidsText (kids.drop (j + 1)) := by
  have hsplit : kids = kids.take i ++ kids[i] ::
      ((kids.drop (i + 1)).take (j - (i + 1)) ++ kids[j] :: kids.drop (j + 1)) := by
    conv_lhs => rw [← List.take_append_drop i kids, List.drop_eq_getElem_cons hi,
      ← List.take_append_drop (j - (i + 1)) (kids.drop (i + 1)), List.drop_drop,
      show i + 1 + (j - (i + 1)) = j by omega, List.drop_eq_getElem_cons hj]
  refine (congrArg kidsText hsplit).trans ?_
  simp only [kidsText_append, kidsText_cons, List.append_assoc]

/-- `trim_ends` at the front. -/
theorem trims_front (ht : TreeAt words S h p chunks) {start : Nat} (hdepth : h ≤ depth)
    (hfront : trimsFront words h p start = true) :
    ∃ back, Trims S words depth h p start 0 (h * shtringNodeWordsNeeded maxShtringNodeChildren)
      ((textOf chunks).drop start) (frontSpine words h p start) back := by
  induction h generalizing depth p chunks start with
  | zero => exact absurd ht.height_pos (Nat.lt_irrefl 0)
  | succ h ih =>
    obtain ⟨depth, rfl⟩ : ∃ d, depth = d + 1 := ⟨depth - 1, by omega⟩
    by_cases hstart : start = 0
    · subst hstart
      refine ⟨backSpine words (h + 1) p 0, fun m k hS hagree hcan => ?_⟩
      refine trims_zero depth ht m k hS hagree ?_
      unfold Memory.canAllocate at hcan ⊢
      omega
    · rw [trimsFront] at hfront
      simp only [Bool.or_eq_true, beq_iff_eq, hstart, false_or, Bool.and_eq_true,
        decide_eq_true_eq] at hfront
      obtain ⟨hh, hfront⟩ := hfront
      obtain ⟨h', kids, heq, -, rfl, hn, htrees⟩ := ht.node_of_one_lt (by omega)
      obtain rfl : h = h' := Nat.succ.inj heq
      rw [hn.count] at hfront
      cases hskip : skipLeft words p (kids.length + 2) 1 start with
      | none => simp [hskip] at hfront
      | some r =>
        obtain ⟨i', start'⟩ := r
        simp only [hskip, Bool.and_eq_true, decide_eq_true_eq] at hfront
        obtain ⟨hi', hrest⟩ := hfront
        obtain ⟨i, rfl, -, hsum, hcase⟩ := skipLeft_spec hn htrees (Nat.zero_le _) hskip
        simp only [Nat.zero_add, List.drop_zero] at hi' hrest hsum hcase hskip
        have hi : i < kids.length := by omega
        obtain ⟨j, hj⟩ : ∃ j, j + 1 = kids.length := ⟨kids.length - 1, by omega⟩
        have hsplit := kidsText_split kids (i := i) (j := j) (by omega) hi (by omega)
        have hpos := (htrees _ (List.getElem_mem hi)).text_pos
        have hless : start' < (textOf kids[i].2).length := by
          rcases hcase with rfl | ⟨_, hless⟩
          · exact hpos
          · exact hless
        have htotal : (kidsText kids).length < 2 ^ 32 := hn.fit
        have hlength := congrArg List.length hsplit
        simp only [List.length_append] at hlength
        rw [hn.child hi] at hrest
        obtain ⟨depth, rfl⟩ : ∃ d, depth = d + 1 := ⟨depth - 1, by omega⟩
        obtain ⟨back, hfirst⟩ :=
          ih (htrees _ (List.getElem_mem hi)) (Nat.le_of_succ_le_succ hdepth) hrest
        have hlast := trims_zero depth
          (htrees _ (List.getElem_mem (by omega : j < kids.length)))
        have hcut : add32 start 0 < (kidsText kids).length := by
          rw [add32_of_lt (by omega)]
          omega
        have hnode := trims_node hn htrees hh (by omega) hi (by omega) (.inl hstart) hcut hskip
          (by rw [skipRight_zero, hj]) hfirst hlast
          (by simp only [List.length_append, List.length_drop]; omega)
        have htext : (textOf (kids.map Prod.snd).flatten).drop start =
            (textOf kids[i].2).drop start' ++ kidsText ((kids.drop (i + 1)).take (j - (i + 1))) ++
              textOf kids[j].2 := by
          have hend : kids.drop (j + 1) = [] := List.drop_of_length_le (by omega)
          rw [hend, kidsText_nil, List.append_nil] at hsplit
          change (kidsText kids).drop start = _
          rw [hsplit, hsum, List.append_assoc, List.append_assoc, ← List.drop_drop, List.drop_left,
            List.drop_append_of_le_length (Nat.le_of_lt hless), List.append_assoc]
        have hspine : frontSpine words (h + 1) p start =
            (j - i + 1) :: frontSpine words h kids[i].1 start' := by
          rw [frontSpine, if_neg (by omega), hn.count, hskip]
          simp only [hn.child hi]
          rw [show kids.length + 1 - (i + 1) = j - i + 1 by omega]
        rw [htext, hspine]
        refine ⟨_, fun m k hS hagree hcan => hnode m k hS hagree ?_⟩
        unfold Memory.canAllocate at hcan ⊢
        rw [Nat.succ_mul] at hcan
        omega

/-- `trim_ends` at the back. -/
theorem trims_back (ht : TreeAt words S h p chunks) {fin : Nat} (hdepth : h ≤ depth)
    (hback : trimsBack words h p fin = true) :
    ∃ front, Trims S words depth h p 0 fin (h * shtringNodeWordsNeeded maxShtringNodeChildren)
      ((textOf chunks).take ((textOf chunks).length - fin)) front (backSpine words h p fin) := by
  induction h generalizing depth p chunks fin with
  | zero => exact absurd ht.height_pos (Nat.lt_irrefl 0)
  | succ h ih =>
    obtain ⟨depth, rfl⟩ : ∃ d, depth = d + 1 := ⟨depth - 1, by omega⟩
    by_cases hfin : fin = 0
    · subst hfin
      rw [Nat.sub_zero, List.take_length]
      refine ⟨frontSpine words (h + 1) p 0, fun m k hS hagree hcan => ?_⟩
      refine trims_zero depth ht m k hS hagree ?_
      unfold Memory.canAllocate at hcan ⊢
      omega
    · rw [trimsBack] at hback
      simp only [Bool.or_eq_true, beq_iff_eq, hfin, false_or, Bool.and_eq_true,
        decide_eq_true_eq] at hback
      obtain ⟨hh, hback⟩ := hback
      obtain ⟨h', kids, heq, -, rfl, hn, htrees⟩ := ht.node_of_one_lt (by omega)
      obtain rfl : h = h' := Nat.succ.inj heq
      have hcount := List.length_pos_iff.mpr hn.ne_nil
      obtain ⟨j, fin', hskip, hj, hsum, hcase⟩ :=
        skipRight_spec hn htrees fin hcount (Nat.le_refl _)
      rw [hn.count, hskip] at hback
      obtain ⟨hj0, hrest⟩ := hback
      have hsplit := kidsText_split kids (i := 0) (j := j) (by omega) hcount hj
      have hpos := (htrees _ (List.getElem_mem hj)).text_pos
      have hpos₀ := (htrees _ (List.getElem_mem hcount)).text_pos
      have hless : fin' < (textOf kids[j].2).length := by
        rcases hcase with rfl | hzero | ⟨_, hless⟩
        · exact hpos
        · omega
        · exact hless
      have htake : (kids.drop (j + 1)).take (kids.length - (j + 1)) = kids.drop (j + 1) :=
        List.take_of_length_le (by rw [List.length_drop])
      rw [htake] at hsum
      have htotal : (kidsText kids).length < 2 ^ 32 := hn.fit
      rw [List.take_zero, kidsText_nil, List.nil_append, Nat.zero_add] at hsplit
      have hlength := congrArg List.length hsplit
      simp only [List.length_append] at hlength
      rw [hn.child hj] at hrest
      obtain ⟨depth, rfl⟩ : ∃ d, depth = d + 1 := ⟨depth - 1, by omega⟩
      have hfirst := trims_zero depth (htrees _ (List.getElem_mem hcount))
      obtain ⟨front, hlast⟩ :=
        ih (htrees _ (List.getElem_mem hj)) (Nat.le_of_succ_le_succ hdepth) hrest
      have hcut : add32 0 fin < (kidsText kids).length := by
        rw [add32_of_lt (by omega)]
        omega
      have hleft : skipLeft words p (kids.length + 2) 1 0 = some (0 + 1, 0) := rfl
      have hnode := trims_node hn htrees hh (by omega) hcount hj (.inr hfin) hcut hleft hskip hfirst hlast
        (by simp only [List.length_append, List.length_take, Nat.zero_add]; omega)
      have htext : (textOf (kids.map Prod.snd).flatten).take
          ((textOf (kids.map Prod.snd).flatten).length - fin) =
          textOf kids[0].2 ++ kidsText ((kids.drop (0 + 1)).take (j - (0 + 1))) ++
            (textOf kids[j].2).take ((textOf kids[j].2).length - fin') := by
        change (kidsText kids).take ((kidsText kids).length - fin) = _
        rw [Nat.zero_add]
        have hwhere : (kidsText kids).length - fin =
            (textOf kids[0].2 ++ kidsText ((kids.drop 1).take (j - 1))).length +
              ((textOf kids[j].2).length - fin') := by
          simp only [List.length_append]
          omega
        rw [hwhere, hsplit, List.append_assoc, List.take_length_add_append,
          List.take_append_of_le_length (Nat.sub_le _ _)]
      have hspine : backSpine words (h + 1) p fin =
          (j - 0 + 1) :: backSpine words h kids[j].1 fin' := by
        rw [backSpine, if_neg (by omega), hn.count, hskip]
        simp only [hn.child hj, Nat.sub_zero]
      rw [htext, hspine]
      refine ⟨_, fun m k hS hagree hcan => hnode m k hS hagree ?_⟩
      unfold Memory.canAllocate at hcan ⊢
      rw [Nat.succ_mul] at hcan
      omega

end trim

/-! ## copying a chunk -/

/-- `shtring_new_chunk`. -/
theorem shtringNewChunk_spec {m : Memory} {n k : Nat} (hn : 0 < n)
    (hcan : m.canAllocate (shtringChunkWordsNeeded n + k)) :
    ∃ q m', shtringNewChunk m n = some (q, m') ∧ m.Allocates m' ∧ q ≠ nullPtr ∧
      m'.canAllocate k ∧ m'.allocationPtr = q ∧
      m.allocationPtr = q + shtringChunkWordsNeeded n ∧
      m'.words q = CellType.shtringChunk.header ||| n := by
  obtain ⟨c, hc⟩ : ∃ c, c = shtringChunkWordsNeeded n := ⟨_, rfl⟩
  have hpos : 0 < c := by
    unfold shtringChunkWordsNeeded at hc
    omega
  rw [← hc] at hcan ⊢
  unfold Memory.canAllocate at hcan
  have hend := m.firstGenerationEnd_pos
  have halloc := Memory.allocates_allocate .shtringChunk hpos
    (show m.canAllocate c by unfold Memory.canAllocate; omega)
  refine ⟨m.allocationPtr - c, (m.allocate c .shtringChunk).2.set (m.allocationPtr - c)
    (CellType.shtringChunk.header ||| n), ?_, halloc.set ?_ (CellType.shtringChunk.header ||| n), ?_, ?_,
    rfl, by omega, ?_⟩
  · unfold shtringNewChunk
    rw [assert_true hn, ← hc]
    simp [Memory.allocate_fst]
  · rw [Memory.allocate_allocationPtr]
    omega
  · unfold nullPtr
    omega
  · show m.firstGenerationEnd + k ≤ m.allocationPtr - c
    omega
  · rw [Memory.set_words, if_pos rfl]

/-- The bytes of two words shifted together. -/
theorem wordByte_shifted (w w' : Nat) {o b : Nat} (ho : 0 < o) (ho4 : o < 4) (hb : b < 4)
    (hw' : w' < 2 ^ 32) :
    wordByte (lshift32 w (o * 8) ||| (w' >>> ((4 - o) * 8))) b =
      if o + b < 4 then wordByte w (o + b) else wordByte w' (o + b - 4) := by
  have hmask : (0xFF : Nat) = 2 ^ 8 - 1 := rfl
  have hlow : w' >>> ((4 - o) * 8) < 2 ^ (o * 8) := by
    rw [Nat.shiftRight_eq_div_pow]
    refine Nat.div_lt_of_lt_mul ?_
    rw [← Nat.pow_add, show (4 - o) * 8 + o * 8 = 32 by omega]
    exact hw'
  have hshift : lshift32 w (o * 8) = (w % 2 ^ (32 - o * 8)) <<< (o * 8) := by
    rw [lshift32_eq, Nat.shiftLeft_eq]
    rcases (by omega : o = 1 ∨ o = 2 ∨ o = 3) with rfl | rfl | rfl <;> omega
  rw [hshift, or_of_lt _ _ _ hlow]
  unfold wordByte
  rw [hmask, and_mask, and_mask, and_mask]
  simp only [Nat.shiftRight_eq_div_pow]
  rcases (by omega : o = 1 ∨ o = 2 ∨ o = 3) with rfl | rfl | rfl <;>
    rcases (by omega : b = 0 ∨ b = 1 ∨ b = 2 ∨ b = 3) with rfl | rfl | rfl | rfl <;>
    norm_num <;> omega

/-- The loop of `copy_chunk_text` writes `len / 4 + 1` words. -/
theorem copyShifted_spec {m : Memory} (off fuel q p len : Nat)
    (hlen : len % 4 ≠ 0) (hfit : len % 4 + off ≤ 4) (hmax : len ≤ shtringChunkMax)
    (hfuel : len / 4 < fuel) (hp : ∀ k ≤ len / 4, p + k < q ∨ q + len / 4 < p + k) :
    ∃ m', copyShifted off fuel m q p len = some m' ∧ m.SameBounds m' ∧
      m'.firstGenerationStart = m.firstGenerationStart ∧
      (∀ a, a < q ∨ q + len / 4 < a → m'.words a = m.words a) ∧
      ∀ k ≤ len / 4, m'.words (q + k) = if k < len / 4 then
          lshift32 (m.words (p + k)) (off * 8) ||| (m.words (p + k + 1) >>> ((4 - off) * 8))
        else lshift32 (m.words (p + k)) (off * 8) := by
  induction fuel generalizing m q p len with
  | zero => exact absurd hfuel (Nat.not_lt_zero _)
  | succ fuel ih =>
    unfold shtringChunkMax at hmax
    rw [copyShifted, add32_of_lt (by omega)]
    by_cases hmore : 4 < off + len
    · have hnext := sub32_of_le (by omega : 4 ≤ len) (by omega)
      obtain ⟨w, hw⟩ : ∃ w, w = lshift32 (m.words p) (off * 8) |||
          (m.words (p + 1) >>> ((4 - off) * 8)) := ⟨_, rfl⟩
      rw [if_pos hmore, hnext, ← hw]
      obtain ⟨m', hrun, hsame, hstart, hframe, hwords⟩ := ih (m := m.set q w) (q + 1) (p + 1)
        (len - 4) (by omega) (by omega) (by unfold shtringChunkMax; omega) (by omega)
        (fun k hk => by have := hp (k + 1) (by omega); omega)
      refine ⟨m', hrun, ⟨hsame.allocationPtr_eq, hsame.firstGenerationEnd_eq⟩, hstart, ?_, ?_⟩
      · intro a ha
        rw [hframe a (by omega), Memory.set_words, if_neg (by omega)]
      · intro k hk
        rcases Nat.eq_zero_or_pos k with rfl | hk0
        · rw [hframe _ (by omega), Nat.add_zero, Memory.set_words, if_pos rfl, hw,
            if_pos (by omega)]
          rfl
        · obtain ⟨k, rfl⟩ : ∃ x, k = x + 1 := ⟨k - 1, by omega⟩
          have hsource : ∀ x, x ≤ len / 4 → (m.set q w).words (p + x) = m.words (p + x) := by
            intro x hx
            have := hp x hx
            rw [Memory.set_words, if_neg (by omega)]
          have hk' := hwords k (by omega)
          rw [show q + 1 + k = q + (k + 1) by omega, show p + 1 + k = p + (k + 1) by omega,
            hsource _ hk] at hk'
          rw [hk']
          by_cases hlt : k < (len - 4) / 4
          · rw [if_pos hlt, if_pos (by omega), Nat.add_assoc p (k + 1) 1, hsource _ (by omega)]
          · rw [if_neg hlt, if_neg (by omega)]
    · rw [if_neg hmore]
      refine ⟨_, rfl, ⟨rfl, rfl⟩, rfl, ?_, ?_⟩
      · intro a ha
        rw [Memory.set_words, if_neg (by omega)]
      · intro k hk
        obtain rfl : k = 0 := by omega
        rw [Nat.add_zero, Memory.set_words, if_pos rfl, if_neg (by omega), Nat.add_zero]

/-- A chunk with the words of another one's end, shifted to the beginning of a word. -/
theorem ChunkAt.shifted {words words' : Nat → Nat} {S T : Nat → Prop} {p q start n : Nat}
    {bytes : List Nat} (hc : ChunkAt words S p bytes) (hn : n = bytes.length - start)
    (hoff : start % 4 ≠ 0) (hlen : n % 4 ≠ 0) (hfit : n % 4 + start % 4 ≤ 4) (hne : q ≠ nullPtr)
    (hhead : words' q = CellType.shtringChunk.header ||| n)
    (hT : ∀ x < shtringChunkWordsNeeded n, T (q + x))
    (hwords : ∀ x ≤ n / 4, words' (q + 1 + x) = if x < n / 4 then
        lshift32 (words (p + 1 + start / 4 + x)) (start % 4 * 8) |||
          (words (p + 1 + start / 4 + x + 1) >>> ((4 - start % 4) * 8))
      else lshift32 (words (p + 1 + start / 4 + x)) (start % 4 * 8)) :
    ChunkAt words' T q (bytes.drop start) := by
  have hmax := hc.le_max
  unfold shtringChunkMax at hmax
  have hlength : (bytes.drop start).length = n := by rw [List.length_drop, hn]
  have hbytes : bytes.drop start = chunkBytes words p start n := by
    rw [hc.chunkBytes_eq (by omega), List.take_of_length_le (by rw [List.length_drop, hn])]
  have hword : ∀ x < n / 4, words (p + 1 + start / 4 + x + 1) < 2 ^ 32 := fun x hx => by
    have hlt := hc.word_lt (1 + start / 4 + x + 1) (by unfold shtringChunkWordsNeeded; omega)
    rwa [show p + (1 + start / 4 + x + 1) = p + 1 + start / 4 + x + 1 by omega] at hlt
  refine
    { ne_null := hne
      type := by rw [hhead, cellType_header_or _ (by omega)]
      length := by rw [hlength, shtringChunkLength, hhead, header_or_and _ (by omega)]
      pos := by omega
      le_max := by unfold shtringChunkMax; omega
      region := by rwa [hlength]
      word_lt := fun x hx => ?_
      bytes_eq := ?_ }
  · -- the header, whole words and the last word
    rw [hlength] at hx
    unfold shtringChunkWordsNeeded at hx
    rcases x with _ | x
    · rw [Nat.add_zero, hhead, header_or _ (by omega)]
      show 23 * 2 ^ 24 + n < 2 ^ 32
      omega
    · rw [show q + (x + 1) = q + 1 + x by omega, hwords x (by omega)]
      split
      · next hlt =>
        exact Nat.or_lt_two_pow (Nat.mod_lt _ (by decide))
          (Nat.lt_of_le_of_lt (Nat.shiftRight_le _ _) (hword x hlt))
      · exact Nat.mod_lt _ (by decide)
  · rw [hlength, hbytes]
    unfold chunkBytes
    rw [List.range'_eq_map_range, List.range'_eq_map_range, List.map_map, List.map_map]
    refine List.map_congr_left fun x hx => ?_
    have hx := List.mem_range.mp hx
    simp only [Function.comp_apply, Nat.zero_add]
    rw [hwords _ (by omega)]
    by_cases hlt : x / 4 < n / 4
    · rw [if_pos hlt, wordByte_shifted _ _ (by omega) (by omega) (by omega) (hword _ hlt)]
      split
      · rw [show (start + x) / 4 = start / 4 + x / 4 by omega,
          show (start + x) % 4 = start % 4 + x % 4 by omega, Nat.add_assoc (p + 1)]
      · rw [show (start + x) / 4 = start / 4 + x / 4 + 1 by omega,
          show (start + x) % 4 = start % 4 + x % 4 - 4 by omega, Nat.add_assoc (p + 1),
          Nat.add_assoc (p + 1)]
    · have hshift := wordByte_shifted (words (p + 1 + start / 4 + x / 4)) 0
        (by omega : 0 < start % 4) (by omega) (by omega : x % 4 < 4) (by decide)
      rw [Nat.zero_shiftRight, Nat.or_zero] at hshift
      rw [if_neg hlt, hshift, if_pos (by omega), Nat.add_assoc (p + 1),
        show (start + x) / 4 = start / 4 + x / 4 by omega,
        show (start + x) % 4 = start % 4 + x % 4 by omega]

/-- `trim_ends` on a chunk of which the text from `start` on can be copied. -/
theorem trims_chunk {S : Nat → Prop} {words : Nat → Nat} {p start : Nat} {bytes : List Nat}
    (depth : Nat) (hc : ChunkAt words S p bytes) (hok : CopiesShifted words p start) :
    Trims S words (depth + 1) 1 p start 0 (shtringChunkWordsNeeded shtringChunkMax)
      (bytes.drop start) [] [] := by
  intro m k hS hagree hcan
  obtain ⟨-, hstart, hoff, hlen, hfit⟩ := hok
  rw [hc.length] at hstart hlen hfit
  have hmax := hc.le_max
  have hc₀ := hc.frame hagree fun _ ha => ha
  obtain ⟨n, hn⟩ : ∃ n, n = bytes.length - start := ⟨_, rfl⟩
  rw [← hn] at hlen hfit
  unfold shtringChunkMax at hmax
  unfold Memory.canAllocate shtringChunkWordsNeeded shtringChunkMax at hcan
  -- the new chunk
  obtain ⟨q, m₁, hnew, halloc, hne, hcan₁, hq₁, hq, hhead⟩ := shtringNewChunk_spec (m := m) (n := n)
    (k := k) (by omega) (by unfold Memory.canAllocate shtringChunkWordsNeeded; omega)
  unfold shtringChunkWordsNeeded at hq
  have hfits : m₁.firstGenerationEnd ≤ m₁.allocationPtr := by
    unfold Memory.canAllocate at hcan₁
    omega
  have hext₁ := halloc.extends hfits
  have hc₁ := hc₀.frame (hext₁.agree.mono hS) fun _ ha => ha
  have hlive : ∀ a, m.Live a → a < q ∨ q + (1 + (n + 4 - 1) / 4) ≤ a := by
    intro a ha
    unfold Memory.Live at ha
    have := halloc.firstGenerationEnd_eq
    omega
  have hlen₁ : shtringChunkLength m₁.words q = n := by
    rw [shtringChunkLength, hhead, header_or_and _ (by omega)]
  -- its text
  have hregion : ∀ x ≤ n / 4, m.Live (p + 1 + start / 4 + x) := by
    intro x hx
    have hin := hc.region (1 + start / 4 + x) (by unfold shtringChunkWordsNeeded; omega)
    rw [← Nat.add_assoc, ← Nat.add_assoc] at hin
    exact hS _ hin
  obtain ⟨m₂, hcopy, hsame, hstart₂, hframe, hwords⟩ := copyShifted_spec (m := m₁)
    (start % 4) (n + 1) (q + 1) (p + 1 + start / 4) n hlen hfit (by unfold shtringChunkMax; omega)
    (by omega) (fun x hx => by have := hlive _ (hregion x hx); omega)
  have hptr₂ := hsame.allocationPtr_eq
  have hend₂ := hsame.firstGenerationEnd_eq
  have hword : ∀ a, m.Live a → m₂.words a = m.words a := by
    intro a ha
    have := hlive a ha
    rw [hframe a (by omega), hext₁.agree a ha]
  have hhead₂ : m₂.words q = CellType.shtringChunk.header ||| n := by
    rw [hframe q (by omega), hhead]
  have hchunk : ChunkAt m₂.words (WithFresh S m m₂) q (bytes.drop start) :=
    hc₁.shifted hn hoff hlen hfit hne hhead₂ (fun x hx => .inr (by
      unfold shtringChunkWordsNeeded at hx
      omega)) hwords
  refine ⟨q, m₂, [(q, bytes.drop start)], ?_, ?_, hsame.canAllocate hcan₁, .chunk hchunk,
    by simp, rfl, rfl⟩
  · have hsub : sub32 (sub32 bytes.length start) 0 = n := by
      rw [sub32_of_le (Nat.le_of_lt hstart) (by omega), sub32_of_le (by omega) (by omega)]
      omega
    have hcopied : copyChunkText m₁ q p start = some m₂ := by
      unfold copyChunkText
      rw [hc₁.length, assert_true (by omega), hlen₁]
      simp only [Option.bind_eq_bind, Option.bind_some, if_neg hoff, hcopy]
    have hlen₀ := (TreeAt.chunk hc₀).treeLength
    simp only [textOf_cons, textOf_nil, List.append_nil] at hlen₀
    rw [trimEnds, assert_true hc.ne_null, hlen₀,
      assert_true (by rw [add32_of_lt (by omega)]; omega), if_neg (by omega), hc₀.length, hsub]
    simp only [Option.bind_eq_bind, Option.bind_some, hc₀.not_node, Bool.false_eq_true, if_false,
      copyChunk, hnew, hcopied]
  · exact
      { allocationPtr_le := by omega
        firstGenerationEnd_eq := hend₂.trans hext₁.firstGenerationEnd_eq
        firstGenerationStart_eq := hstart₂.trans hext₁.firstGenerationStart_eq
        agree := hword }

end Shades
