import Shades.Shtring.Text
import Shades.Shtring.Trim

/-!
# Shades.Shtring.Cat

Joining two trees, and `shtring_cat` as a whole.
-/

namespace Shades

/-! ## new nodes over whole trees -/

section nodes

variable {m : Memory} {h k : Nat}

/-- `p1` and then the last children of `p2`. -/
theorem consNode_spec {p1 p2 i : Nat} {chunks : List Chunk} {kids : List (Nat × List Chunk)}
    (h1 : TreeAt m.words m.Live h p1 chunks) (h2 : ShtringNodeAt m.words m.Live h p2 kids)
    (ht : ∀ kid ∈ kids, TreeAt m.words m.Live h kid.1 kid.2) (hi : i < kids.length)
    (hmax : 1 + (kids.length - i) ≤ maxShtringNodeChildren)
    (hfit : (textOf chunks).length + (kidsText (kids.drop i)).length < 2 ^ 32)
    (hcan : m.canAllocate (shtringNodeWordsNeeded maxShtringNodeChildren + k)) :
    ∃ q m', consNode m (1 + (kids.length - i)) (h + 1) p1 p2 (i + 1) kids.length = some (q, m') ∧
      m.Extends m' ∧ m'.canAllocate k ∧ TreeAt m'.words m'.Live (h + 1) q
        (chunks ++ ((kids.drop i).map Prod.snd).flatten) := by
  unfold Memory.canAllocate shtringNodeWordsNeeded at hcan
  obtain ⟨q, m₁, hnew, hb, hcan₁, -, -⟩ := shtringNewNode_spec (S := m.Live)
    (m := m) (n := 1 + (kids.length - i)) (k := k) (by omega) hmax h1.height_pos (fun _ ha => ha)
    (by unfold Memory.canAllocate shtringNodeWordsNeeded; omega)
  have hlive : ∀ a, m.Live a → m₁.Live a := fun a ha => (hb.region a ha).1
  have h1₁ : TreeAt m₁.words m.Live h p1 chunks := h1.frame hb.ext.agree fun _ ha => ha
  obtain ⟨m₂, hadd₂, hb₂, hagree₂, hsame₂⟩ :=
    shtringAddChild_spec hb h1₁ (by rw [List.length_nil]; omega)
      (by rw [kidsText_nil, List.length_nil]; omega)
  have hall : (kids.drop i).take (kids.length - i) = kids.drop i :=
    List.take_of_length_le (by rw [List.length_drop])
  obtain ⟨m₃, hadd₃, hb₃, -, hsame₃⟩ :=
    shtringAddChildren_spec ((h2.frame hb.ext.agree fun _ ha => ha).frame hagree₂ fun _ ha => ha)
      (fun kid hkid => ((ht kid hkid).frame hb.ext.agree fun _ ha => ha).frame hagree₂ fun _ ha => ha)
      hb₂ hi (Nat.le_refl _) (by simp) (by rw [hall]; simp; omega)
  rw [hall] at hb₃
  refine ⟨q, m₃, ?_, hb₃.ext, (hsame₂.trans hsame₃).canAllocate hcan₁, ?_⟩
  · have hstep₂ : shtringAddChild m₁ q p1 1 (textOf chunks).length = some (2, m₂) := hadd₂
    have hstep₃ : shtringAddChildren m₂ q 2 p2 (i + 1) kids.length =
        some (1 + (kids.length - i) + 1, m₃) := hadd₃
    unfold consNode
    simp only [hnew, h1₁.treeLength, hstep₂, hstep₃, Option.bind_eq_bind, Option.bind_some]
  · have htree := hb₃.tree (by simp; omega) (fun a ha => (hb₃.region a ha).1)
      fun x hx => (hb₃.fresh x hx).2
    simpa using htree

/-- The first children of `p1` and then `p2`. -/
theorem snocNode_spec {p1 p2 j : Nat} {chunks : List Chunk} {kids : List (Nat × List Chunk)}
    (h1 : ShtringNodeAt m.words m.Live h p1 kids)
    (ht : ∀ kid ∈ kids, TreeAt m.words m.Live h kid.1 kid.2)
    (h2 : TreeAt m.words m.Live h p2 chunks) (hj0 : 0 < j) (hj : j ≤ kids.length)
    (hmax : j + 1 ≤ maxShtringNodeChildren)
    (hfit : (kidsText (kids.take j)).length + (textOf chunks).length < 2 ^ 32)
    (hcan : m.canAllocate (shtringNodeWordsNeeded maxShtringNodeChildren + k)) :
    ∃ q m', snocNode m (j + 1) (h + 1) p1 j p2 = some (q, m') ∧ m.Extends m' ∧
      m'.canAllocate k ∧ TreeAt m'.words m'.Live (h + 1) q
        (((kids.take j).map Prod.snd).flatten ++ chunks) := by
  unfold Memory.canAllocate shtringNodeWordsNeeded at hcan
  obtain ⟨q, m₁, hnew, hb, hcan₁, -, -⟩ := shtringNewNode_spec (S := m.Live) (m := m) (n := j + 1)
    (k := k) (by omega) hmax h2.height_pos (fun _ ha => ha)
    (by unfold Memory.canAllocate shtringNodeWordsNeeded; omega)
  obtain ⟨m₂, hadd₂, hb₂, hagree₂, hsame₂⟩ :=
    shtringAddChildren_spec (i := 0) (j := j) (h1.frame hb.ext.agree fun _ ha => ha)
      (fun kid hkid => (ht kid hkid).frame hb.ext.agree fun _ ha => ha) hb hj0 hj (by simp)
      (by simp; omega)
  have hlen : ([] ++ (kids.drop 0).take (j - 0)).length = j := by
    simp
    omega
  have h2₂ : TreeAt m₂.words m.Live h p2 chunks :=
    (h2.frame hb.ext.agree fun _ ha => ha).frame hagree₂ fun _ ha => ha
  obtain ⟨m₃, hadd₃, hb₃, -, hsame₃⟩ :=
    shtringAddChild_spec hb₂ h2₂ (by omega) (by simpa using hfit)
  rw [hlen] at hadd₃
  refine ⟨q, m₃, ?_, hb₃.ext, (hsame₂.trans hsame₃).canAllocate hcan₁, ?_⟩
  · have hstep₂ : shtringAddChildren m₁ q 1 p1 1 j = some (j + 1, m₂) := by
      refine hadd₂.trans ?_
      rw [List.length_nil, Nat.zero_add, Nat.sub_zero]
    unfold snocNode
    simp only [hnew, hstep₂, h2₂.treeLength, hadd₃, Option.bind_eq_bind, Option.bind_some]
  · have htree := hb₃.tree (by rw [List.length_append, hlen, List.length_singleton])
      (fun a ha => (hb₃.region a ha).1) fun x hx => (hb₃.fresh x hx).2
    simpa using htree

/-- All the children of two nodes. -/
theorem joinNode_spec {p1 p2 : Nat} {kids1 kids2 : List (Nat × List Chunk)}
    (h1 : ShtringNodeAt m.words m.Live h p1 kids1)
    (ht1 : ∀ kid ∈ kids1, TreeAt m.words m.Live h kid.1 kid.2)
    (h2 : ShtringNodeAt m.words m.Live h p2 kids2)
    (ht2 : ∀ kid ∈ kids2, TreeAt m.words m.Live h kid.1 kid.2)
    (hmax : kids1.length + kids2.length ≤ maxShtringNodeChildren)
    (hfit : (kidsText kids1).length + (kidsText kids2).length < 2 ^ 32)
    (hcan : m.canAllocate (shtringNodeWordsNeeded maxShtringNodeChildren + k)) :
    ∃ q m', ((shtringNewNode m (kids1.length + kids2.length) (h + 1)).bind fun x =>
        (shtringAddChildren x.2 x.1 1 p1 1 kids1.length).bind fun y =>
          (shtringAddChildren y.2 x.1 y.1 p2 1 kids2.length).bind fun z => some (x.1, z.2)) =
        some (q, m') ∧ m.Extends m' ∧ m'.canAllocate k ∧ TreeAt m'.words m'.Live (h + 1) q
          ((kids1.map Prod.snd).flatten ++ (kids2.map Prod.snd).flatten) := by
  have hpos1 := List.length_pos_iff.mpr h1.ne_nil
  have hpos2 := List.length_pos_iff.mpr h2.ne_nil
  have hh := (ht1 _ (List.getElem_mem hpos1)).height_pos
  unfold Memory.canAllocate shtringNodeWordsNeeded at hcan
  obtain ⟨q, m₁, hnew, hb, hcan₁, -, -⟩ := shtringNewNode_spec (S := m.Live) (m := m)
    (n := kids1.length + kids2.length) (k := k) (by omega) hmax hh (fun _ ha => ha)
    (by unfold Memory.canAllocate shtringNodeWordsNeeded; omega)
  have hall1 : (kids1.drop 0).take (kids1.length - 0) = kids1 := by simp
  have hall2 : (kids2.drop 0).take (kids2.length - 0) = kids2 := by simp
  obtain ⟨m₂, hadd₂, hb₂, hagree₂, hsame₂⟩ :=
    shtringAddChildren_spec (i := 0) (h1.frame hb.ext.agree fun _ ha => ha)
      (fun kid hkid => (ht1 kid hkid).frame hb.ext.agree fun _ ha => ha) hb hpos1 (Nat.le_refl _)
      (by simp) (by rw [hall1, kidsText_nil, List.length_nil]; omega)
  rw [hall1, List.nil_append] at hb₂
  have hstep₂ : shtringAddChildren m₁ q 1 p1 1 kids1.length = some (kids1.length + 1, m₂) := by
    refine hadd₂.trans ?_
    rw [List.length_nil, Nat.zero_add, Nat.sub_zero]
  obtain ⟨m₃, hadd₃, hb₃, -, hsame₃⟩ :=
    shtringAddChildren_spec (i := 0) ((h2.frame hb.ext.agree fun _ ha => ha).frame hagree₂ fun _ ha => ha)
      (fun kid hkid => ((ht2 kid hkid).frame hb.ext.agree fun _ ha => ha).frame hagree₂ fun _ ha => ha)
      hb₂ hpos2 (Nat.le_refl _) (Nat.le_refl _) (by rw [hall2]; exact hfit)
  rw [hall2] at hb₃
  refine ⟨q, m₃, ?_, hb₃.ext, (hsame₂.trans hsame₃).canAllocate hcan₁, ?_⟩
  · simp only [hnew, hstep₂, hadd₃, Option.bind_some]
  · have htree := hb₃.tree List.length_append (fun a ha => (hb₃.region a ha).1)
      fun x hx => (hb₃.fresh x hx).2
    simpa using htree

/-- A root over two trees. -/
theorem newRoot_spec {p1 p2 : Nat} {chunks chunks' : List Chunk}
    (h1 : TreeAt m.words m.Live h p1 chunks) (h2 : TreeAt m.words m.Live h p2 chunks')
    (hfit : (textOf chunks).length + (textOf chunks').length < 2 ^ 32)
    (hcan : m.canAllocate (shtringNodeWordsNeeded maxShtringNodeChildren + k)) :
    ∃ q m', newRoot m (h + 1) p1 p2 = some (q, m') ∧ m.Extends m' ∧ m'.canAllocate k ∧
      TreeAt m'.words m'.Live (h + 1) q (chunks ++ chunks') := by
  unfold Memory.canAllocate shtringNodeWordsNeeded maxShtringNodeChildren at hcan
  obtain ⟨q, m₁, hnew, hb, hcan₁, -, -⟩ := shtringNewNode_spec (S := m.Live) (m := m) (n := 2)
    (k := k) (by decide) (by decide) h1.height_pos (fun _ ha => ha)
    (by unfold Memory.canAllocate shtringNodeWordsNeeded; omega)
  have h1₁ : TreeAt m₁.words m.Live h p1 chunks := h1.frame hb.ext.agree fun _ ha => ha
  obtain ⟨m₂, hadd₂, hb₂, hagree₂, hsame₂⟩ := shtringAddChild_spec hb h1₁ (by decide)
    (by rw [kidsText_nil, List.length_nil]; omega)
  have h2₂ : TreeAt m₂.words m.Live h p2 chunks' :=
    (h2.frame hb.ext.agree fun _ ha => ha).frame hagree₂ fun _ ha => ha
  obtain ⟨m₃, hadd₃, hb₃, -, hsame₃⟩ := shtringAddChild_spec hb₂ h2₂ (by simp)
    (by simpa using hfit)
  refine ⟨q, m₃, ?_, hb₃.ext, (hsame₂.trans hsame₃).canAllocate hcan₁, ?_⟩
  · have hstep₂ : shtringAddChild m₁ q p1 1 (textOf chunks).length = some (2, m₂) := hadd₂
    have hstep₃ : shtringAddChild m₂ q p2 2 (textOf chunks').length = some (3, m₃) := hadd₃
    unfold newRoot
    simp only [hnew, h1₁.treeLength, hstep₂, h2₂.treeLength, hstep₃, Option.bind_eq_bind,
      Option.bind_some]
  · have htree := hb₃.tree (by simp) (fun a ha => (hb₃.region a ha).1) fun x hx => (hb₃.fresh x hx).2
    simpa using htree

/-- The loop of `make_of_height`. -/
theorem raiseLoop_spec {n p : Nat} {chunks : List Chunk} (ht : TreeAt m.words m.Live h p chunks)
    (hfit : (textOf chunks).length < 2 ^ 32)
    (hcan : m.canAllocate (n * shtringNodeWordsNeeded 1 + k)) :
    ∃ q m', raiseLoop (textOf chunks).length n m p h = some (q, m') ∧ m.Extends m' ∧
      m'.canAllocate k ∧ TreeAt m'.words m'.Live (h + n) q chunks := by
  induction n generalizing m h p with
  | zero =>
    rw [Nat.zero_mul, Nat.zero_add] at hcan
    exact ⟨p, m, rfl, .refl m, hcan, ht⟩
  | succ n ih =>
    rw [Nat.succ_mul] at hcan
    obtain ⟨q, m₁, hnew, hb, hcan₁, -, -⟩ := shtringNewNode_spec (S := m.Live) (m := m) (n := 1)
      (k := n * shtringNodeWordsNeeded 1 + k) (by decide) (by decide) ht.height_pos
      (fun _ ha => ha) (by unfold Memory.canAllocate at hcan ⊢; omega)
    obtain ⟨m₂, hadd₂, hb₂, -, hsame₂⟩ :=
      shtringAddChild_spec hb (ht.frame hb.ext.agree fun _ ha => ha) (by decide)
        (by rw [kidsText_nil, List.length_nil]; omega)
    have htree : TreeAt m₂.words m₂.Live (h + 1) q chunks := by
      have := hb₂.tree (by simp) (fun a ha => (hb₂.region a ha).1) fun x hx => (hb₂.fresh x hx).2
      simpa using this
    obtain ⟨q', m₃, hrest, hext₃, hcan₃, htree₃⟩ := ih htree (hsame₂.canAllocate hcan₁)
    refine ⟨q', m₃, ?_, hb₂.ext.trans hext₃, hcan₃, by rwa [Nat.add_assoc, Nat.add_comm 1] at htree₃⟩
    have hstep₂ : shtringAddChild m₁ q p 1 (textOf chunks).length = some (2, m₂) := hadd₂
    rw [raiseLoop]
    simp only [hnew, hstep₂, Option.bind_eq_bind, Option.bind_some, hrest]

/-- `make_of_height`. -/
theorem makeOfHeight_spec {p H : Nat} {chunks : List Chunk}
    (ht : TreeAt m.words m.Live h p chunks) (hfit : (textOf chunks).length < 2 ^ 32) (hH : h ≤ H)
    (hcan : m.canAllocate ((H - h) * shtringNodeWordsNeeded 1 + k)) :
    ∃ q m', makeOfHeight m p H = some (q, m') ∧ m.Extends m' ∧ m'.canAllocate k ∧
      TreeAt m'.words m'.Live H q chunks := by
  obtain ⟨q, m', hrun, hext, hcan', htree⟩ := raiseLoop_spec ht hfit hcan
  refine ⟨q, m', ?_, hext, hcan', by rwa [show h + (H - h) = H by omega] at htree⟩
  unfold makeOfHeight
  simp only [ht.treeHeight, ht.treeLength, assert_true hH, Option.bind_eq_bind, Option.bind_some,
    hrun]

end nodes

/-! ## joining -/

/-- Whether `cat_recursive` joins two trees with these edges: the nodes at the
level of the lower tree's root have room for each other. -/
def joinsAt (back front : List Nat) : Bool :=
  match back.drop (back.length - front.length), front.drop (front.length - back.length) with
  | n1 :: _, n2 :: _ => decide (n1 + n2 ≤ maxShtringNodeChildren)
  | _, _ => false

/-- Where `cat_recursive` joins two trees, every node above on the edge has two
children at least. -/
def EdgesOk (back front : List Nat) : Prop :=
  joinsAt back front = true →
    (∀ n ∈ back.take (back.length - front.length), 2 ≤ n) ∧
    ∀ n ∈ front.take (front.length - back.length), 2 ≤ n

instance (back front : List Nat) : Decidable (EdgesOk back front) :=
  inferInstanceAs (Decidable (_ → _))

theorem joinsAt_front {back front : List Nat} (n : Nat) (h : back.length ≤ front.length) :
    joinsAt back (n :: front) = joinsAt back front := by
  unfold joinsAt
  rw [List.length_cons, show back.length - (front.length + 1) = back.length - front.length by omega,
    show front.length + 1 - back.length = front.length - back.length + 1 by omega,
    List.drop_succ_cons]

theorem joinsAt_back {back front : List Nat} (n : Nat) (h : front.length ≤ back.length) :
    joinsAt (n :: back) front = joinsAt back front := by
  unfold joinsAt
  rw [List.length_cons, show front.length - (back.length + 1) = front.length - back.length by omega,
    show back.length + 1 - front.length = back.length - front.length + 1 by omega,
    List.drop_succ_cons]

theorem EdgesOk.front {back front : List Nat} {n : Nat} (h : back.length ≤ front.length)
    (hok : EdgesOk back (n :: front)) :
    EdgesOk back front ∧ (joinsAt back front = true → 2 ≤ n) := by
  unfold EdgesOk at hok
  rw [joinsAt_front n h, List.length_cons,
    show back.length - (front.length + 1) = back.length - front.length by omega,
    show front.length + 1 - back.length = front.length - back.length + 1 by omega,
    List.take_succ_cons] at hok
  exact ⟨fun hj => ⟨(hok hj).1, fun x hx => (hok hj).2 x (List.mem_cons_of_mem _ hx)⟩,
    fun hj => (hok hj).2 n List.mem_cons_self⟩

theorem EdgesOk.back {back front : List Nat} {n : Nat} (h : front.length ≤ back.length)
    (hok : EdgesOk (n :: back) front) :
    EdgesOk back front ∧ (joinsAt back front = true → 2 ≤ n) := by
  unfold EdgesOk at hok
  rw [joinsAt_back n h, List.length_cons,
    show front.length - (back.length + 1) = front.length - back.length by omega,
    show back.length + 1 - front.length = back.length - front.length + 1 by omega,
    List.take_succ_cons] at hok
  exact ⟨fun hj => ⟨fun x hx => (hok hj).1 x (List.mem_cons_of_mem _ hx), (hok hj).2⟩,
    fun hj => (hok hj).1 n List.mem_cons_self⟩

section join

variable {m : Memory} {h1 h2 k : Nat}

/-- `cat_recursive` either finds no room or joins the trees. -/
theorem catRecursive_spec {depth p1 p2 : Nat} {chunks1 chunks2 : List Chunk}
    (hdepth : max h1 h2 ≤ depth) (ht1 : TreeAt m.words m.Live h1 p1 chunks1)
    (ht2 : TreeAt m.words m.Live h2 p2 chunks2)
    (hfit : (textOf chunks1).length + (textOf chunks2).length < 2 ^ 32)
    (hok : EdgesOk (backSpine m.words h1 p1 0) (frontSpine m.words h2 p2 0))
    (hcan : m.canAllocate ((max h1 h2 - min h1 h2 + 1) *
      shtringNodeWordsNeeded maxShtringNodeChildren + k)) :
    (joinsAt (backSpine m.words h1 p1 0) (frontSpine m.words h2 p2 0) = false ∧
      catRecursive depth m p1 h1 p2 h2 = some (nullPtr, m)) ∨
    (joinsAt (backSpine m.words h1 p1 0) (frontSpine m.words h2 p2 0) = true ∧
      ∃ q m', catRecursive depth m p1 h1 p2 h2 = some (q, m') ∧ m.Extends m' ∧
        m'.canAllocate k ∧ TreeAt m'.words m'.Live (max h1 h2) q (chunks1 ++ chunks2)) := by
  induction depth generalizing h1 h2 p1 p2 chunks1 chunks2 k with
  | zero =>
    have := ht1.height_pos
    omega
  | succ depth ih =>
    have hl1 := ht1.length_backSpine
    have hl2 := ht2.length_frontSpine
    have hpos1 := ht1.height_pos
    have hpos2 := ht2.height_pos
    rw [catRecursive, assert_true hpos1, assert_true hpos2, assert_true ht1.treeHeight.symm,
      assert_true ht2.treeHeight.symm]
    simp only [Option.bind_eq_bind, Option.bind_some]
    rcases Nat.lt_trichotomy h1 h2 with hlt | rfl | hgt
    · -- down the left edge of the second tree
      obtain ⟨h', kids, rfl, hh', rfl, hn, htrees⟩ := ht2.node_of_one_lt (by omega)
      obtain ⟨kid, kids, rfl⟩ := List.exists_cons_of_ne_nil hn.ne_nil
      have hkid := htrees kid List.mem_cons_self
      have hl2' := hkid.length_frontSpine
      have hle : (backSpine m.words h1 p1 0).length ≤ (frontSpine m.words h' kid.1 0).length := by
        omega
      rw [frontSpine_cons hn hh'] at hok ⊢
      rw [joinsAt_front _ hle]
      obtain ⟨hok', htwo⟩ := hok.front hle
      have hfit2 : (textOf chunks1).length +
          ((textOf kid.2).length + (kidsText kids).length) < 2 ^ 32 := by
        simpa [kidsText] using hfit
      have hsize : max h1 (h' + 1) - min h1 (h' + 1) + 1 = max h1 h' - min h1 h' + 1 + 1 := by
        omega
      rw [hsize, Nat.succ_mul, Nat.add_assoc] at hcan
      have hrec := ih (by omega) ht1 hkid (by omega) hok' hcan
      rw [if_neg (by omega), if_pos hlt, hn.child (Nat.succ_pos _), List.getElem_cons_zero,
        Nat.add_sub_cancel, hn.count]
      rcases hrec with ⟨hj, hnull⟩ | ⟨hj, q, m₁, hrun, hext, hcan₁, htree⟩
      · exact .inl ⟨hj, by simp [hnull]⟩
      · rw [Nat.max_eq_right (by omega : h1 ≤ h')] at htree
        have hcount := htwo hj
        have hmax := hn.le_max
        rw [List.length_cons] at hmax
        obtain ⟨q', m₂, hcons, hext₂, hcan₂, htree₂⟩ := consNode_spec (i := 1) htree
          (hn.frame hext.agree fun _ ha => hext.live ha)
          (fun kid hkid => (htrees kid hkid).frame hext.agree fun _ ha => hext.live ha)
          (by rw [List.length_cons]; omega) (by rw [List.length_cons]; omega)
          (by simp; omega) hcan₁
        rw [List.length_cons, show 1 + (kids.length + 1 - 1) = kids.length + 1 by omega] at hcons
        refine .inr ⟨hj, q', m₂, ?_, hext.trans hext₂, hcan₂, ?_⟩
        · simp only [hrun, Option.bind_some, if_neg htree.ne_null, List.length_cons, hcons]
        · rw [Nat.max_eq_right (by omega)]
          simpa using htree₂
    · -- the roots are at the same level
      rw [if_pos rfl]
      by_cases hone : h1 = 1
      · subst hone
        refine .inl ⟨?_, by rw [if_pos (.inl rfl)]⟩
        rw [List.length_eq_zero_iff.mp hl1, List.length_eq_zero_iff.mp hl2]
        rfl
      · obtain ⟨h', kids1, rfl, hh', rfl, hn1, htrees1⟩ := ht1.node_of_one_lt (by omega)
        obtain ⟨h'', kids2, heq, -, rfl, hn2, htrees2⟩ := ht2.node_of_one_lt (by omega)
        obtain rfl : h' = h'' := Nat.succ.inj heq
        have hjoins : joinsAt (backSpine m.words (h' + 1) p1 0) (frontSpine m.words (h' + 1) p2 0) =
            decide (kids1.length + kids2.length ≤ maxShtringNodeChildren) := by
          obtain ⟨t1, ht1⟩ := backSpine_head hn1 hh'
          obtain ⟨t2, ht2⟩ := frontSpine_head hn2 hh'
          unfold joinsAt
          rw [hl1, hl2, Nat.sub_self, List.drop_zero, List.drop_zero, ht1, ht2]
        rw [hjoins, hn1.count, hn2.count]
        by_cases hroom : kids1.length + kids2.length ≤ maxShtringNodeChildren
        · obtain ⟨q, m', hstep₁, hext, hcan', htree⟩ := joinNode_spec (k := k) hn1 htrees1 hn2 htrees2
            hroom hfit (by
              rw [Nat.max_self, Nat.min_self, Nat.sub_self, Nat.one_mul] at hcan
              exact hcan)
          refine .inr ⟨decide_eq_true hroom, q, m', ?_, hext, hcan', by rwa [Nat.max_self]⟩
          rw [if_neg (by omega)]
          exact hstep₁
        · exact .inl ⟨decide_eq_false hroom, by rw [if_pos (.inr (by omega))]⟩
    · -- down the right edge of the first tree
      obtain ⟨h', kids, rfl, hh', rfl, hn, htrees⟩ := ht1.node_of_one_lt (by omega)
      obtain ⟨kids, kid, rfl⟩ : ∃ l kid, kids = l ++ [kid] :=
        ⟨_, _, (List.dropLast_concat_getLast hn.ne_nil).symm⟩
      have hkid := htrees kid List.mem_concat_self
      have hl1' := hkid.length_backSpine
      have hle : (frontSpine m.words h2 p2 0).length ≤ (backSpine m.words h' kid.1 0).length := by
        omega
      rw [backSpine_concat hn hh'] at hok ⊢
      rw [joinsAt_back _ hle]
      obtain ⟨hok', htwo⟩ := hok.back hle
      have hfit2 : (kidsText kids).length + (textOf kid.2).length +
          (textOf chunks2).length < 2 ^ 32 := by
        simpa [kidsText] using hfit
      have hsize : max (h' + 1) h2 - min (h' + 1) h2 + 1 = max h' h2 - min h' h2 + 1 + 1 := by
        omega
      rw [hsize, Nat.succ_mul, Nat.add_assoc] at hcan
      have hrec := ih (by omega) hkid ht2 (by omega) hok' hcan
      have hchild := hn.child (i := kids.length) (by simp)
      rw [List.getElem_concat_length rfl] at hchild
      have hlen : (kids ++ [kid]).length = kids.length + 1 := by
        rw [List.length_append, List.length_singleton]
      rw [if_neg (by omega), if_neg (by omega), hn.count, hlen, hchild, Nat.add_sub_cancel]
      rcases hrec with ⟨hj, hnull⟩ | ⟨hj, q, m₁, hrun, hext, hcan₁, htree⟩
      · exact .inl ⟨hj, by simp [hnull]⟩
      · rw [Nat.max_eq_left (by omega : h2 ≤ h')] at htree
        have hcount := htwo hj
        have hmax := hn.le_max
        rw [hlen] at hmax
        have htake : (kids ++ [kid]).take kids.length = kids := List.take_left
        obtain ⟨q', m₂, hsnoc, hext₂, hcan₂, htree₂⟩ := snocNode_spec (j := kids.length)
          (hn.frame hext.agree fun _ ha => hext.live ha)
          (fun kid hkid => (htrees kid hkid).frame hext.agree fun _ ha => hext.live ha) htree
          (by omega) (by omega) hmax (by rw [htake]; simp; omega) hcan₁
        rw [htake] at htree₂
        refine .inr ⟨hj, q', m₂, ?_, hext.trans hext₂, hcan₂, ?_⟩
        · simp only [hrun, Option.bind_some, if_neg htree.ne_null, Nat.add_sub_cancel, hsnoc]
        · rw [Nat.max_eq_left (by omega)]
          simpa using htree₂

/-- `cat_trees`. -/
theorem catTrees_spec {p1 p2 : Nat} {chunks1 chunks2 : List Chunk}
    (ht1 : TreeAt m.words m.Live h1 p1 chunks1) (ht2 : TreeAt m.words m.Live h2 p2 chunks2)
    (hfit : (textOf chunks1).length + (textOf chunks2).length < 2 ^ 32)
    (hok : EdgesOk (backSpine m.words h1 p1 0) (frontSpine m.words h2 p2 0))
    (hcan : m.canAllocate ((max h1 h2 - min h1 h2 + 1) *
      shtringNodeWordsNeeded maxShtringNodeChildren + k)) :
    ∃ H q m', catTrees m p1 h1 p2 h2 = some (q, m') ∧ m.Extends m' ∧ m'.canAllocate k ∧ 1 < H ∧
      TreeAt m'.words m'.Live H q (chunks1 ++ chunks2) := by
  have hpos1 := ht1.height_pos
  have hpos2 := ht2.height_pos
  have hfit1 : (textOf chunks1).length < 2 ^ 32 := by omega
  have hfit2 : (textOf chunks2).length < 2 ^ 32 := by omega
  unfold catTrees
  rcases catRecursive_spec (Nat.le_refl _) ht1 ht2 hfit hok hcan with
    ⟨-, hnull⟩ | ⟨hj, q, m', hrun, hext, hcan', htree⟩
  · simp only [hnull, Option.bind_eq_bind, Option.bind_some, ne_eq, not_true_eq_false, if_false]
    rcases Nat.lt_trichotomy h1 h2 with hlt | rfl | hgt
    · obtain ⟨h', kids, rfl, hh', rfl, hn, htrees⟩ := ht2.node_of_one_lt (by omega)
      rw [if_neg (by omega), if_pos hlt, hn.count]
      have hsize : max h1 (h' + 1) - min h1 (h' + 1) + 1 = (h' - h1) + 1 + 1 := by omega
      rw [hsize] at hcan
      unfold Memory.canAllocate at hcan
      by_cases hroom : kids.length < maxShtringNodeChildren
      · obtain ⟨p1', m₁, hraise, hext₁, hcan₁, ht1'⟩ := makeOfHeight_spec ht1 hfit1
          (by omega : h1 ≤ h' + 1 - 1) (k := shtringNodeWordsNeeded maxShtringNodeChildren + k)
          (by
            unfold Memory.canAllocate shtringNodeWordsNeeded maxShtringNodeChildren at *
            omega)
        obtain ⟨q, m₂, hcons, hext₂, hcan₂, htree⟩ := consNode_spec (i := 0) ht1'
          (hn.frame hext₁.agree fun _ ha => hext₁.live ha)
          (fun kid hkid => (htrees kid hkid).frame hext₁.agree fun _ ha => hext₁.live ha)
          (List.length_pos_iff.mpr hn.ne_nil) (by omega) hfit hcan₁
        rw [Nat.sub_zero, Nat.add_comm 1] at hcons
        refine ⟨h' + 1, q, m₂, ?_, hext₁.trans hext₂, hcan₂, by omega, htree⟩
        rw [if_pos hroom, hraise]
        exact hcons
      · obtain ⟨p1', m₁, hraise, hext₁, hcan₁, ht1'⟩ := makeOfHeight_spec ht1 hfit1
          (by omega : h1 ≤ h' + 1) (k := shtringNodeWordsNeeded maxShtringNodeChildren + k)
          (by
            unfold Memory.canAllocate shtringNodeWordsNeeded maxShtringNodeChildren at *
            omega)
        obtain ⟨q, m₂, hroot, hext₂, hcan₂, htree⟩ := newRoot_spec ht1'
          (ht2.frame hext₁.agree fun _ ha => hext₁.live ha) hfit hcan₁
        refine ⟨h' + 1 + 1, q, m₂, ?_, hext₁.trans hext₂, hcan₂, by omega, htree⟩
        rw [if_neg hroom, hraise]
        exact hroot
    · rw [if_pos rfl]
      rw [Nat.max_self, Nat.min_self, Nat.sub_self, Nat.one_mul] at hcan
      obtain ⟨q, m₁, hroot, hext, hcan', htree⟩ := newRoot_spec ht1 ht2 hfit hcan
      exact ⟨h1 + 1, q, m₁, hroot, hext, hcan', by omega, htree⟩
    · obtain ⟨h', kids, rfl, hh', rfl, hn, htrees⟩ := ht1.node_of_one_lt (by omega)
      rw [if_neg (by omega), if_neg (by omega), hn.count]
      have hsize : max (h' + 1) h2 - min (h' + 1) h2 + 1 = (h' - h2) + 1 + 1 := by omega
      rw [hsize] at hcan
      unfold Memory.canAllocate at hcan
      by_cases hroom : kids.length < maxShtringNodeChildren
      · obtain ⟨p2', m₁, hraise, hext₁, hcan₁, ht2'⟩ := makeOfHeight_spec ht2 hfit2
          (by omega : h2 ≤ h' + 1 - 1) (k := shtringNodeWordsNeeded maxShtringNodeChildren + k)
          (by
            unfold Memory.canAllocate shtringNodeWordsNeeded maxShtringNodeChildren at *
            omega)
        have hall : kids.take kids.length = kids := List.take_length
        obtain ⟨q, m₂, hsnoc, hext₂, hcan₂, htree⟩ := snocNode_spec (j := kids.length)
          (hn.frame hext₁.agree fun _ ha => hext₁.live ha)
          (fun kid hkid => (htrees kid hkid).frame hext₁.agree fun _ ha => hext₁.live ha) ht2'
          (List.length_pos_iff.mpr hn.ne_nil) (Nat.le_refl _) hroom (by rw [hall]; exact hfit) hcan₁
        rw [hall] at htree
        refine ⟨h' + 1, q, m₂, ?_, hext₁.trans hext₂, hcan₂, by omega, htree⟩
        rw [if_pos hroom, hraise]
        exact hsnoc
      · obtain ⟨p2', m₁, hraise, hext₁, hcan₁, ht2'⟩ := makeOfHeight_spec ht2 hfit2
          (by omega : h2 ≤ h' + 1) (k := shtringNodeWordsNeeded maxShtringNodeChildren + k)
          (by
            unfold Memory.canAllocate shtringNodeWordsNeeded maxShtringNodeChildren at *
            omega)
        obtain ⟨q, m₂, hroot, hext₂, hcan₂, htree⟩ := newRoot_spec
          (ht1.frame hext₁.agree fun _ ha => hext₁.live ha) ht2' hfit hcan₁
        refine ⟨h' + 1 + 1, q, m₂, ?_, hext₁.trans hext₂, hcan₂, by omega, htree⟩
        rw [if_neg hroom, hraise]
        exact hroot
  · refine ⟨max h1 h2, q, m', ?_, hext, hcan', ?_, htree⟩
    · simp only [hrun, Option.bind_eq_bind, Option.bind_some, if_pos htree.ne_null]
    · -- trees of height 1 are not joined
      have hl1 := ht1.length_backSpine
      have hl2 := ht2.length_frontSpine
      by_contra hle
      rw [List.length_eq_zero_iff.mp (by omega : (backSpine m.words h1 p1 0).length = 0),
        List.length_eq_zero_iff.mp (by omega : (frontSpine m.words h2 p2 0).length = 0)] at hj
      cases hj

end join

/-! ## catenation -/

/-- Where `shtring_cat` works.  If neither tree is empty, what is outside the
windows towards each other can be cut off, the text that is left fits a word,
and where `cat_recursive` joins the trees it does not come by nodes with one
child. -/
def CatOk (words : Nat → Nat) (shtr1 shtr2 : Nat) : Prop :=
  let p1 := shtringChunkTree words shtr1
  let p2 := shtringChunkTree words shtr2
  let h1 := shtringHeight words shtr1
  let h2 := shtringHeight words shtr2
  let fin := shtringTreeLength words p1 - shtringOffset words shtr1 - shtringLength words shtr1
  let start := shtringOffset words shtr2
  p1 = nullPtr ∨ p2 = nullPtr ∨
    trimsBack words h1 p1 fin = true ∧
    (trimsFront words h2 p2 start = true ∨ CopiesShifted words p2 start) ∧
    shtringTreeLength words p1 - fin + (shtringTreeLength words p2 - start) < 2 ^ 32 ∧
    EdgesOk (backSpine words h1 p1 fin) (frontSpine words h2 p2 start)

instance (words : Nat → Nat) (shtr1 shtr2 : Nat) : Decidable (CatOk words shtr1 shtr2) :=
  inferInstanceAs (Decidable (_ ∨ _))

/-- `shtring_new_shtring`. -/
theorem shtringNewShtring_spec {m : Memory} {h p : Nat} {chunks : List Chunk} (off len : Nat)
    (ht : (h = 0 ∧ p = nullPtr ∧ chunks = []) ∨ TreeAt m.words m.Live h p chunks)
    (hfit : (textOf chunks).length < 2 ^ 32) (hwindow : off + len ≤ (textOf chunks).length)
    (hcan : m.canAllocate shtringWords) :
    ∃ q m', shtringNewShtring m off len h p = some (q, m') ∧ m.Extends m' ∧
      ShtringAt m'.words m'.Live q chunks off len := by
  have hroot : h = shtringTreeHeight m.words p ∧
      shtringTreeLength m.words p = (textOf chunks).length := by
    rcases ht with ⟨rfl, rfl, rfl⟩ | ht
    · exact ⟨rfl, rfl⟩
    · exact ⟨ht.treeHeight.symm, ht.treeLength⟩
  unfold Memory.canAllocate shtringWords at hcan
  have hend := m.firstGenerationEnd_pos
  have halloc := Memory.allocates_allocate .shtring (by decide : 0 < 5)
    (show m.canAllocate 5 from hcan)
  obtain ⟨q, hq⟩ : ∃ q, q = m.allocationPtr - 5 := ⟨_, rfl⟩
  obtain ⟨m', hm'⟩ : ∃ m', m' = (((((m.allocate 5 .shtring).2.set (q + 1) off).set (q + 2)
      len).set (q + 3) h).set (q + 4) (ptrToWord p)) := ⟨_, rfl⟩
  have hset : m.Allocates m' := by
    rw [hm']
    refine (((halloc.set ?_ _).set ?_ _).set ?_ _).set ?_ _ <;> simp <;> omega
  have hptr : m'.allocationPtr = q := by rw [hm', hq]; rfl
  have hfirst : m'.firstGenerationEnd = m.firstGenerationEnd := by rw [hm']; rfl
  have hext : m.Extends m' := hset.extends (by omega)
  have hheight : shtringHeight m'.words q = h := by rw [hm']; simp [shtringHeight]
  have htree : shtringChunkTree m'.words q = p := by rw [hm']; simp [shtringChunkTree]
  refine ⟨q, m', ?_, hext, ?_⟩
  · unfold shtringNewShtring
    rw [assert_true hroot.1, hroot.2, assert_true (by omega),
      assert_true (by rw [add32_of_lt (by omega)]; exact hwindow), hm', hq]
    rfl
  · exact
      { ne_null := by unfold nullPtr; omega
        type := by
          rw [hm']
          simp only [Memory.set_words, Memory.allocate_words]
          rw [if_neg (by omega), if_neg (by omega), if_neg (by omega), if_neg (by omega), if_pos hq]
          decide
        offset := by rw [hm']; simp [shtringOffset]
        length := by rw [hm']; simp [shtringLength]
        region := fun i hi => .inr (by omega)
        window := hwindow
        fit := hfit
        tree := by
          rw [hheight, htree]
          exact ht.imp_right fun ht => ht.frame hext.agree fun _ ha => hext.live ha }

/-- `shtring_new_shtring` takes `SHTRING_WORDS`. -/
theorem shtringNewShtring_canAllocate {m m' : Memory} {off len height root q k : Nat}
    (hrun : shtringNewShtring m off len height root = some (q, m'))
    (hcan : m.canAllocate (k + shtringWords)) : m'.canAllocate k := by
  simp only [shtringNewShtring, Option.bind_eq_bind, Option.bind_eq_some_iff] at hrun
  obtain ⟨_, -, _, -, _, -, hrun⟩ := hrun
  cases hrun
  unfold Memory.canAllocate at hcan ⊢
  simp only [Memory.set_allocationPtr, Memory.set_firstGenerationEnd,
    Memory.allocate_allocationPtr, Memory.allocate_firstGenerationEnd]
  omega

/-- The window on the joined text. -/
theorem windowText_joined {chunks chunks1 chunks2 : List Chunk} {off1 len1 off2 : Nat} (len2 : Nat)
    (h1 : off1 + len1 ≤ (textOf chunks1).length)
    (htext : textOf chunks = (textOf chunks1).take (off1 + len1) ++ (textOf chunks2).drop off2) :
    windowText chunks off1 (len1 + len2) =
      windowText chunks1 off1 len1 ++ windowText chunks2 off2 len2 := by
  have hdrop : ((textOf chunks1).take (off1 + len1)).drop off1 =
      ((textOf chunks1).drop off1).take len1 := by
    rw [List.drop_take, Nat.add_sub_cancel_left]
  have hlen : (((textOf chunks1).drop off1).take len1).length = len1 := by
    rw [List.length_take, List.length_drop]
    omega
  unfold windowText
  rw [htext, List.drop_append_of_le_length (by rw [List.length_take]; omega), hdrop]
  generalize ((textOf chunks1).drop off1).take len1 = first at hlen ⊢
  rw [← hlen, List.take_length_add_append]

/-- Trimming where more words are left than it takes. -/
theorem Trims.mono {S : Nat → Prop} {words : Nat → Nat} {depth h p start fin c c' : Nat}
    {text front back : List Nat} (ht : Trims S words depth h p start fin c text front back)
    (hle : c ≤ c') : Trims S words depth h p start fin c' text front back :=
  fun m k hS hagree hcan => ht m k hS hagree (Memory.canAllocate_mono hcan (by omega))

/-- The second tree without its beginning: along its path, or by a copy of its chunk. -/
theorem trims_start {S : Nat → Prop} {words : Nat → Nat} {h p start : Nat} {chunks : List Chunk}
    (ht : TreeAt words S h p chunks)
    (hok : trimsFront words h p start = true ∨ CopiesShifted words p start) :
    ∃ back, Trims S words h h p start 0 (max (h * shtringNodeWordsNeeded maxShtringNodeChildren)
        (shtringChunkWordsNeeded shtringChunkMax)) ((textOf chunks).drop start)
      (frontSpine words h p start) back := by
  rcases hok with hfront | hcopy
  · obtain ⟨back, htrim⟩ := trims_front ht (Nat.le_refl _) hfront
    exact ⟨back, htrim.mono (Nat.le_max_left _ _)⟩
  · cases ht with
    | chunk hchunk =>
      rw [textOf_cons, textOf_nil, List.append_nil]
      exact ⟨[], (trims_chunk 0 hchunk hcopy).mono (Nat.le_max_right _ _)⟩
    | node hnode =>
      rw [CopiesShifted, hnode.node] at hcopy
      cases hcopy.1

/-- The words that `shtring_cat` asks for are enough for its steps: both trees are trimmed,
put side by side, and get a shtring. -/
theorem shtringCat_room {m : Memory} {s1 s2 h1 h2 p1 p2 : Nat} {chunks1 chunks2 : List Chunk}
    (hcan : m.canAllocate (shtringCatMaxAllocation m.words s1 s2))
    (hh1 : shtringHeight m.words s1 = h1) (hh2 : shtringHeight m.words s2 = h2)
    (hp1 : shtringChunkTree m.words s1 = p1) (hp2 : shtringChunkTree m.words s2 = p2)
    (ht1 : TreeAt m.words m.Live h1 p1 chunks1) (ht2 : TreeAt m.words m.Live h2 p2 chunks2) :
    m.canAllocate (h1 * shtringNodeWordsNeeded maxShtringNodeChildren +
      (max (h2 * shtringNodeWordsNeeded maxShtringNodeChildren)
          (shtringChunkWordsNeeded shtringChunkMax) +
        ((max h1 h2 - min h1 h2 + 1) * shtringNodeWordsNeeded maxShtringNodeChildren +
          shtringWords))) := by
  unfold shtringCatMaxAllocation neededForHeight neededForTrim at hcan
  simp only [hp1, hp2, hh1, hh2, ht1.treeHeight, ht2.treeHeight, if_neg ht1.ne_null,
    if_neg ht2.ne_null, Nat.one_ne_zero, and_false, if_false] at hcan
  unfold Memory.canAllocate shtringNodeWordsNeeded shtringChunkWordsNeeded shtringChunkMax
    maxShtringNodeChildren shtringWords at *
  omega

/-- `shtring_cat` where it works: the result has the text of the first shtring
followed by that of the second, and both are as they were. -/
theorem shtringCat_correct {m : Memory} {s1 s2 off1 len1 off2 len2 : Nat}
    {chunks1 chunks2 : List Chunk} (hs1 : ShtringAt m.words m.Live s1 chunks1 off1 len1)
    (hs2 : ShtringAt m.words m.Live s2 chunks2 off2 len2)
    (hcan : m.canAllocate (shtringCatMaxAllocation m.words s1 s2)) (hok : CatOk m.words s1 s2) :
    ∃ p m' chunks off len, shtringCat m s1 s2 = some (p, m') ∧ m.Extends m' ∧
      ShtringAt m'.words m'.Live p chunks off len ∧
      windowText chunks off len = windowText chunks1 off1 len1 ++ windowText chunks2 off2 len2 ∧
      ShtringAt m'.words m'.Live s1 chunks1 off1 len1 ∧
      ShtringAt m'.words m'.Live s2 chunks2 off2 len2 := by
  rcases hs1.tree with ⟨-, hnull1, rfl⟩ | ht1
  · refine ⟨s2, m, chunks2, off2, len2, ?_, .refl m, hs2, ?_, hs1, hs2⟩
    · unfold shtringCat
      simp only [hnull1, if_true]
    · simp [windowText]
  rcases hs2.tree with ⟨-, hnull2, rfl⟩ | ht2
  · refine ⟨s1, m, chunks1, off1, len1, ?_, .refl m, hs1, ?_, hs1, hs2⟩
    · unfold shtringCat
      simp only [hnull2, if_true, if_neg ht1.ne_null]
    · simp [windowText]
  obtain ⟨h1, hh1⟩ : ∃ h, shtringHeight m.words s1 = h := ⟨_, rfl⟩
  obtain ⟨h2, hh2⟩ : ∃ h, shtringHeight m.words s2 = h := ⟨_, rfl⟩
  obtain ⟨p1, hp1⟩ : ∃ p, shtringChunkTree m.words s1 = p := ⟨_, rfl⟩
  obtain ⟨p2, hp2⟩ : ∃ p, shtringChunkTree m.words s2 = p := ⟨_, rfl⟩
  rw [hh1, hp1] at ht1
  rw [hh2, hp2] at ht2
  have hfit1 := hs1.fit
  have hfit2 := hs2.fit
  have hwindow1 := hs1.window
  have hwindow2 := hs2.window
  unfold CatOk at hok
  simp only [hp1, hp2, hh1, hh2, hs1.offset, hs1.length, hs2.offset, ht1.treeLength, ht2.treeLength,
    ht1.ne_null, ht2.ne_null, false_or] at hok
  obtain ⟨hback, hfront, hfit, hedges⟩ := hok
  obtain ⟨fin, hfin⟩ : ∃ fin, fin = (textOf chunks1).length - off1 - len1 := ⟨_, rfl⟩
  rw [← hfin] at hback hfit hedges
  -- the first tree without its end
  obtain ⟨front, htrim1⟩ := trims_back ht1 (Nat.le_refl _) hback
  obtain ⟨q1, m₁, chunks1', hrun1, hext1, hcan1, htree1, htext1, -, hedge1⟩ :=
    htrim1 m _ (fun _ ha => ha) (fun _ _ => rfl) (shtringCat_room hcan hh1 hh2 hp1 hp2 ht1 ht2)
  -- the second tree without its beginning
  obtain ⟨back, htrim2⟩ := trims_start ht2 hfront
  obtain ⟨q2, m₂, chunks2', hrun2, hext2, hcan2, htree2, htext2, hedge2, -⟩ :=
    htrim2 m₁ _ (fun _ ha => hext1.live ha) hext1.agree hcan1
  -- both in the same memory
  have hlive1 : ∀ a, WithFresh m.Live m m₁ a → m₁.Live a := fun a ha =>
    ha.elim hext1.live fun h => .inr h.1
  have hlive2 : ∀ a, WithFresh m.Live m₁ m₂ a → m₂.Live a := fun a ha =>
    ha.elim (fun h => hext2.live (hext1.live h)) fun h => .inr h.1
  have htree1' : TreeAt m₂.words m₂.Live h1 q1 chunks1' :=
    htree1.frame (hext2.agree.mono hlive1) fun a ha => hext2.live (hlive1 a ha)
  have htree2' : TreeAt m₂.words m₂.Live h2 q2 chunks2' := htree2.frame (fun _ _ => rfl) hlive2
  have hlen1 : (textOf chunks1').length = (textOf chunks1).length - fin := by
    rw [htext1, List.length_take]
    omega
  have hlen2 : (textOf chunks2').length = (textOf chunks2).length - off2 := by
    rw [htext2, List.length_drop]
  have hedges' : EdgesOk (backSpine m₂.words h1 q1 0) (frontSpine m₂.words h2 q2 0) := by
    rw [htree1.backSpine_frame (hext2.agree.mono hlive1), hedge1, hedge2]
    exact hedges
  obtain ⟨H, q, m₃, hrun3, hext3, hcan3, hH, htree3⟩ :=
    catTrees_spec htree1' htree2' (by omega) hedges' hcan2
  have hlen3 : (textOf (chunks1' ++ chunks2')).length =
      (textOf chunks1').length + (textOf chunks2').length := by
    rw [textOf_append, List.length_append]
  have hheight : shtringNodeHeight m₃.words q = H := by
    obtain ⟨h', kids, rfl, -, -, hn, -⟩ := htree3.node_of_one_lt hH
    exact hn.height
  -- the new shtring
  obtain ⟨p, m₄, hrun4, hext4, hs⟩ := shtringNewShtring_spec off1 (len1 + len2)
    (.inr htree3) (by omega) (by omega) hcan3
  have hext := ((hext1.trans hext2).trans hext3).trans hext4
  refine ⟨p, m₄, _, off1, len1 + len2, ?_, hext, hs, ?_,
    hs1.frame hext.agree fun _ ha => hext.live ha, hs2.frame hext.agree fun _ ha => hext.live ha⟩
  · have hext12 := hext1.trans hext2
    have hext13 := hext12.trans hext3
    have hfin' : sub32 (sub32 (textOf chunks1).length off1) len1 = fin := by
      rw [sub32_of_le (by omega : off1 ≤ _) (by omega), sub32_of_le (by omega) (by omega), hfin]
    have hlen : add32 len1 len2 = len1 + len2 := add32_of_lt (by omega)
    unfold shtringCat
    simp only [hp1, hp2, if_neg ht1.ne_null, if_neg ht2.ne_null, hs1.offset, hs1.length,
      ht1.treeLength, hfin', hh1, hrun1, Option.bind_eq_bind, Option.bind_some,
      (hs2.height_frame hext1.agree).trans hh2,
      (hs2.frame hext1.agree fun _ ha => hext1.live ha).offset, hrun2,
      (hs1.height_frame hext12.agree).trans hh1, (hs2.height_frame hext12.agree).trans hh2, hrun3,
      (hs1.frame hext13.agree fun _ ha => hext13.live ha).offset,
      (hs1.frame hext13.agree fun _ ha => hext13.live ha).length,
      (hs2.frame hext13.agree fun _ ha => hext13.live ha).length, hlen, hheight, hrun4]
  · refine windowText_joined len2 hwindow1 ?_
    rw [textOf_append, htext1, htext2, show (textOf chunks1).length - fin = off1 + len1 by omega]

/-- A memory with the shtring at `20`, the first two bytes of the chunk "abcd" at
`10`, the shtring at `40`, the whole of the chunk "x" at `30`, and the shtring at
`50`, the last three bytes of "abcd". -/
def threeShtrings : Memory := smallMemory [
    (10, CellType.shtringChunk.header + 4),
    (11, 0x61626364),
    (20, CellType.shtring.header),
    (21, 0),
    (22, 2),
    (23, 1),
    (24, ptrToWord 10),
    (30, CellType.shtringChunk.header + 1),
    (31, 0x78000000),
    (40, CellType.shtring.header),
    (41, 0),
    (42, 1),
    (43, 1),
    (44, ptrToWord 30),
    (50, CellType.shtring.header),
    (51, 1),
    (52, 3),
    (53, 1),
    (54, ptrToWord 10)]

theorem threeShtrings_ab : ShtringAt threeShtrings.words threeShtrings.Live 20
    [(10, [0x61, 0x62, 0x63, 0x64])] 0 2 :=
  .of_chunk (e := 100) (fun _ ha => .inl ha) (by decide) (by decide) (by decide) (by decide)

theorem threeShtrings_x :
    ShtringAt threeShtrings.words threeShtrings.Live 40 [(30, [0x78])] 0 1 :=
  .of_chunk (e := 100) (fun _ ha => .inl ha) (by decide) (by decide) (by decide) (by decide)

theorem threeShtrings_bcd : ShtringAt threeShtrings.words threeShtrings.Live 50
    [(10, [0x61, 0x62, 0x63, 0x64])] 1 3 :=
  .of_chunk (e := 100) (fun _ ha => .inl ha) (by decide) (by decide) (by decide) (by decide)

/-- "x" and "bcd" make "xbcd". -/
theorem shtringCat_correct_xbcd : ∃ p m' chunks off len,
    shtringCat threeShtrings 40 50 = some (p, m') ∧
    ShtringAt m'.words m'.Live p chunks off len ∧
    windowText chunks off len = [0x78, 0x62, 0x63, 0x64] := by
  obtain ⟨p, m', chunks, off, len, hrun, -, hs, htext, -⟩ :=
    shtringCat_correct threeShtrings_x threeShtrings_bcd (by decide) (by decide)
  exact ⟨p, m', chunks, off, len, hrun, hs, htext⟩

/-- "ab", the beginning of a chunk, and "x" do not make "abx". -/
theorem shtringCat_ab_x :
    ShtringAt threeShtrings.words threeShtrings.Live 20 [(10, [0x61, 0x62, 0x63, 0x64])] 0 2 ∧
    ShtringAt threeShtrings.words threeShtrings.Live 40 [(30, [0x78])] 0 1 ∧
    threeShtrings.canAllocate (shtringCatMaxAllocation threeShtrings.words 20 40) ∧
    ¬ ∃ p m' chunks off len, shtringCat threeShtrings 20 40 = some (p, m') ∧
      ShtringAt m'.words m'.Live p chunks off len ∧
      windowText chunks off len = [0x61, 0x62, 0x78] := by
  refine ⟨threeShtrings_ab, threeShtrings_x, by decide, ?_⟩
  rintro ⟨p, m', chunks, off, len, hrun, hs, htext⟩
  have hlen : len = 3 := by
    rw [← length_windowText hs.window, htext]
    rfl
  subst hlen
  have hread : ((shtringCat threeShtrings 20 40).bind fun r => shtringStrat r.2.words r.1 0 3) =
      some [0, 0, 0x78] := by
    decide +kernel
  rw [hrun] at hread
  have hstrat := shtringStrat_eq hs (show 0 + 3 ≤ 3 by decide)
  rw [Nat.add_zero, htext] at hstrat
  exact absurd (hstrat.symm.trans hread) (by decide)

end Shades
