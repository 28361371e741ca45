import Shades.Shtring.CatCode
import Shades.Shtring.Rep

/-!
# Shades.Shtring.Build

New nodes.  `shtring_new_node` makes a node with room for its children, which
are then added one by one.  `NodeBuild` is the state in between: the node has
its first children, and nothing that was live before was touched.
-/

namespace Shades

/-! ## the code on trees -/

section tree

variable {words : Nat → Nat} {S : Nat → Prop} {h p : Nat} {chunks : List Chunk}
  {kids : List (Nat × List Chunk)}

/-- The text of the children of a node. -/
def kidsText (kids : List (Nat × List Chunk)) : List Nat := textOf (kids.map Prod.snd).flatten

@[simp] theorem kidsText_nil : kidsText [] = [] := rfl

@[simp] theorem kidsText_cons (kid : Nat × List Chunk) (kids : List (Nat × List Chunk)) :
    kidsText (kid :: kids) = textOf kid.2 ++ kidsText kids := by
  simp [kidsText]

@[simp] theorem kidsText_append (kids kids' : List (Nat × List Chunk)) :
    kidsText (kids ++ kids') = kidsText kids ++ kidsText kids' := by
  simp [kidsText]

theorem TreeAt.treeLength (ht : TreeAt words S h p chunks) :
    shtringTreeLength words p = (textOf chunks).length := by
  rw [shtringTreeLength, if_neg ht.ne_null]
  cases ht with
  | chunk hchunk => simpa [hchunk.not_node] using hchunk.length
  | node hnode _ => rw [if_pos hnode.node, hnode.length]

theorem TreeAt.treeHeight (ht : TreeAt words S h p chunks) : shtringTreeHeight words p = h := by
  rw [shtringTreeHeight, if_neg ht.ne_null]
  cases ht with
  | chunk hchunk => simp [hchunk.not_node]
  | node hnode _ => rw [if_pos hnode.node, hnode.height]

theorem ShtringNodeAt.child (hn : ShtringNodeAt words S h p kids) {i : Nat} (hi : i < kids.length) :
    shtringNodeChild words p (i + 1) = kids[i].1 := by
  have hget := congrArg (fun l => l[i]?) hn.ptrs
  simpa [hi] using hget

/-- A tree of height two or more. -/
theorem TreeAt.node_of_one_lt (ht : TreeAt words S h p chunks) (hh : 1 < h) :
    ∃ h' kids, h = h' + 1 ∧ 0 < h' ∧ chunks = (kids.map Prod.snd).flatten ∧
      ShtringNodeAt words S h' p kids ∧ ∀ kid ∈ kids, TreeAt words S h' kid.1 kid.2 := by
  cases ht with
  | chunk => exact absurd hh (Nat.lt_irrefl 1)
  | @node _ h' kids hnode htrees => exact ⟨h', kids, rfl, by omega, rfl, hnode, htrees⟩

end tree

/-! ## a new node and its children -/

/-- The node `q` of the region above `m₀`, with room for `n` children of height
`h`, has the first `kids`.  The trees lie in `S`, outside the node. -/
structure NodeBuild (S : Nat → Prop) (m₀ m : Memory) (q n h : Nat)
    (kids : List (Nat × List Chunk)) : Prop where
  ext : m₀.Extends m
  ne_null : q ≠ nullPtr
  fresh : ∀ i < 3 + n, ¬ m₀.Live (q + i) ∧ m.Live (q + i)
  region : ∀ a, S a → m.Live a ∧ (a < q ∨ q + (3 + n) ≤ a)
  pos : 0 < n
  le_max : n ≤ maxShtringNodeChildren
  type : cellType (m.words q) = CellType.shtringNode.code
  count : shtringNodeChildren m.words q = n
  height : shtringNodeHeight m.words q = h + 1
  length : shtringNodeLength m.words q = (kidsText kids).length
  fit : (kidsText kids).length < 2 ^ 32
  le : kids.length ≤ n
  ptrs : ∀ i (hi : i < kids.length), shtringNodeChild m.words q (i + 1) = kids[i].1
  trees : ∀ kid ∈ kids, TreeAt m.words S h kid.1 kid.2

section build

variable {S S' : Nat → Prop} {m₀ m m' : Memory} {q n h : Nat} {kids : List (Nat × List Chunk)}

/-- Other cells may be allocated in the meantime. -/
theorem NodeBuild.extend (hb : NodeBuild S m₀ m q n h kids) (hext : m.Extends m')
    (hS : ∀ a, S a → S' a) (hS' : ∀ a, S' a → m'.Live a ∧ (a < q ∨ q + (3 + n) ≤ a)) :
    NodeBuild S' m₀ m' q n h kids := by
  have hword : ∀ i < 3 + n, m'.words (q + i) = m.words (q + i) := fun i hi =>
    hext.agree _ (hb.fresh i hi).2
  have hword0 : m'.words q = m.words q := hword 0 (by omega)
  have hpos := hb.pos
  have hle := hb.le
  refine
    { ext := hb.ext.trans hext
      ne_null := hb.ne_null
      fresh := fun i hi => ⟨(hb.fresh i hi).1, hext.live (hb.fresh i hi).2⟩
      region := hS'
      pos := hb.pos
      le_max := hb.le_max
      type := by rw [hword0, hb.type]
      count := by rw [shtringNodeChildren, hword0]; exact hb.count
      height := by rw [shtringNodeHeight, hword 2 (by omega)]; exact hb.height
      length := by rw [shtringNodeLength, hword 1 (by omega)]; exact hb.length
      fit := hb.fit
      le := hb.le
      ptrs := fun i hi => ?_
      trees := fun kid hkid =>
        (hb.trees kid hkid).frame (hext.agree.mono fun a ha => (hb.region a ha).1) hS }
  rw [← hb.ptrs i hi, shtringNodeChild, shtringNodeChild, show q + 2 + (i + 1) = q + (3 + i) by omega,
    hword _ (by omega)]

/-- The node is complete. -/
theorem NodeBuild.node (hb : NodeBuild S m₀ m q n h kids) (hn : kids.length = n)
    (hq : ∀ i < 3 + n, S' (q + i)) : ShtringNodeAt m.words S' h q kids := by
  have hpos := hb.pos
  refine
    { ne_null := hb.ne_null
      type := hb.type
      ne_nil := List.ne_nil_of_length_pos (by omega)
      le_max := hn ▸ hb.le_max
      count := hn ▸ hb.count
      height := hb.height
      length := hb.length
      fit := hb.fit
      region := hn ▸ hq
      ptrs := ?_ }
  refine List.ext_getElem (by simp) fun i hi hi' => ?_
  rw [List.length_map, List.length_range] at hi
  simpa using hb.ptrs i hi

theorem NodeBuild.tree (hb : NodeBuild S m₀ m q n h kids) (hn : kids.length = n)
    (hS : ∀ a, S a → S' a) (hq : ∀ i < 3 + n, S' (q + i)) :
    TreeAt m.words S' (h + 1) q (kids.map Prod.snd).flatten :=
  .node (hb.node hn hq) fun kid hkid => (hb.trees kid hkid).frame (fun _ _ => rfl) hS

/-- `shtring_add_child`. -/
theorem shtringAddChild_spec (hb : NodeBuild S m₀ m q n h kids) {kid : Nat} {chunks : List Chunk}
    (ht : TreeAt m.words S h kid chunks) (hlt : kids.length < n)
    (hfit : (kidsText kids).length + (textOf chunks).length < 2 ^ 32) :
    ∃ m', shtringAddChild m q kid (kids.length + 1) (textOf chunks).length =
        some (kids.length + 2, m') ∧
      NodeBuild S m₀ m' q n h (kids ++ [(kid, chunks)]) ∧ AgreeOn S m.words m'.words ∧
      m.SameBounds m' := by
  have hh := ht.height_pos
  have hlen : m.words (q + 1) = (kidsText kids).length := hb.length
  refine ⟨(m.set (q + 2 + (kids.length + 1)) (ptrToWord kid)).set (q + 1)
    (kidsText (kids ++ [(kid, chunks)])).length, ?_, ?_, ?_, ⟨rfl, rfl⟩⟩
  · unfold shtringAddChild
    rw [assert_true hb.ne_null, assert_true ht.ne_null, assert_true (by rw [hb.height]; omega),
      assert_true (by rw [hb.height, ht.treeHeight]), assert_true (by rw [hb.count]; omega)]
    simp only [Option.bind_eq_bind, Option.bind_some, Memory.set_words,
      if_neg (show q + 1 ≠ q + 2 + (kids.length + 1) by omega), hlen, add32_of_lt hfit]
    simp
  · have hoff : ∀ a, S a → a ≠ q + 2 + (kids.length + 1) ∧ a ≠ q + 1 := by
      intro a ha
      have := (hb.region a ha).2
      omega
    have hagree : AgreeOn S m.words ((m.set (q + 2 + (kids.length + 1)) (ptrToWord kid)).set (q + 1)
        (kidsText (kids ++ [(kid, chunks)])).length).words := by
      intro a ha
      simp [hoff a ha]
    refine
      { ext := (hb.ext.set ?_ _).set (hb.fresh 1 (by omega)).1 _
        ne_null := hb.ne_null
        fresh := hb.fresh
        region := hb.region
        pos := hb.pos
        le_max := hb.le_max
        type := ?_
        count := ?_
        height := ?_
        length := ?_
        fit := ?_
        le := ?_
        ptrs := ?_
        trees := ?_ }
    · rw [show q + 2 + (kids.length + 1) = q + (3 + kids.length) by omega]
      exact (hb.fresh _ (by omega)).1
    · rw [← hb.type, Memory.set_words, Memory.set_words, if_neg (by omega), if_neg (by omega)]
    · rw [← hb.count, shtringNodeChildren, Memory.set_words, Memory.set_words, if_neg (by omega),
        if_neg (by omega), shtringNodeChildren]
    · rw [← hb.height, shtringNodeHeight, Memory.set_words, Memory.set_words, if_neg (by omega),
        if_neg (by omega), shtringNodeHeight]
    · rw [shtringNodeLength, Memory.set_words, if_pos rfl]
    · simpa using hfit
    · rw [List.length_append, List.length_singleton]
      omega
    · intro i hi
      rw [shtringNodeChild, Memory.set_words, if_neg (by omega), Memory.set_words]
      by_cases hi' : i = kids.length
      · subst hi'
        simp
      · rw [List.length_append, List.length_singleton] at hi
        rw [if_neg (by omega), List.getElem_append_left (by omega), ← hb.ptrs i (by omega),
          shtringNodeChild]
    · intro kid' hkid'
      rcases List.mem_append.mp hkid' with hkid' | hkid'
      · exact (hb.trees kid' hkid').frame hagree fun _ ha => ha
      · obtain rfl := List.mem_singleton.mp hkid'
        exact ht.frame hagree fun _ ha => ha
  · intro a ha
    have := (hb.region a ha).2
    simp only [Memory.set_words]
    rw [if_neg (by omega), if_neg (by omega)]

/-- The loop of `shtring_add_children`. -/
theorem addChildrenLoop_spec {p i : Nat} {more : List (Nat × List Chunk)}
    (hp : ShtringNodeAt m.words S h p more)
    (htrees : ∀ kid ∈ more, TreeAt m.words S h kid.1 kid.2) (hb : NodeBuild S m₀ m q n h kids)
    {c : Nat} (hc : i + c ≤ more.length) (hle : kids.length + c ≤ n)
    (hfit : (kidsText kids).length + (kidsText ((more.drop i).take c)).length < 2 ^ 32) :
    ∃ m', addChildrenLoop q p c m (kids.length + 1) (i + 1) =
        some (kids.length + c + 1, m') ∧
      NodeBuild S m₀ m' q n h (kids ++ (more.drop i).take c) ∧ AgreeOn S m.words m'.words ∧
      m.SameBounds m' := by
  induction c generalizing m kids i with
  | zero => exact ⟨m, rfl, by simpa using hb, fun _ _ => rfl, .refl m⟩
  | succ c ih =>
    have hi : i < more.length := by omega
    have hsplit : (more.drop i).take (c + 1) = more[i] :: (more.drop (i + 1)).take c := by
      rw [List.drop_eq_getElem_cons hi, List.take_succ_cons]
    rw [hsplit] at hfit ⊢
    rw [kidsText_cons, List.length_append] at hfit
    have hkid := htrees _ (List.getElem_mem hi)
    obtain ⟨m₁, hadd, hb₁, hagree₁, hcan₁⟩ :=
      shtringAddChild_spec hb hkid (by omega) (by omega)
    obtain ⟨m₂, hrest, hb₂, hagree₂, hcan₂⟩ := ih (i := i + 1) (hp.frame hagree₁ fun _ ha => ha)
      (fun kid hkid => (htrees kid hkid).frame hagree₁ fun _ ha => ha) hb₁ (by omega)
      (by rw [List.length_append, List.length_singleton]; omega)
      (by simp only [kidsText_append, kidsText_cons, kidsText_nil, List.length_append,
            List.length_nil]
          omega)
    rw [List.length_append, List.length_singleton] at hrest
    refine ⟨m₂, ?_, by simpa using hb₂, hagree₁.trans hagree₂, hcan₁.trans hcan₂⟩
    rw [addChildrenLoop, hp.child hi, hkid.treeLength, hadd]
    simp only [Option.bind_eq_bind, Option.bind_some]
    rw [hrest, show kids.length + 1 + c + 1 = kids.length + (c + 1) + 1 by omega]

/-- `shtring_add_children`. -/
theorem shtringAddChildren_spec {p i j : Nat} {more : List (Nat × List Chunk)}
    (hp : ShtringNodeAt m.words S h p more)
    (htrees : ∀ kid ∈ more, TreeAt m.words S h kid.1 kid.2) (hb : NodeBuild S m₀ m q n h kids)
    (hij : i < j) (hj : j ≤ more.length) (hle : kids.length + (j - i) ≤ n)
    (hfit : (kidsText kids).length + (kidsText ((more.drop i).take (j - i))).length < 2 ^ 32) :
    ∃ m', shtringAddChildren m q (kids.length + 1) p (i + 1) j =
        some (kids.length + (j - i) + 1, m') ∧
      NodeBuild S m₀ m' q n h (kids ++ (more.drop i).take (j - i)) ∧
      AgreeOn S m.words m'.words ∧ m.SameBounds m' := by
  obtain ⟨m', hloop, h⟩ := addChildrenLoop_spec hp htrees hb (by omega) hle hfit
  refine ⟨m', ?_, h⟩
  unfold shtringAddChildren
  rw [assert_true hp.ne_null, assert_true (by omega), assert_true (by omega),
    assert_true (by rw [hp.count]; exact hj), show j + 1 - (i + 1) = j - i by omega]
  exact hloop

end build

/-! ## new cells -/

theorem clearChildren_words (n : Nat) (m : Memory) {p a : Nat} (ha : a < p + 3 ∨ p + 3 + n ≤ a) :
    (clearChildren n m p).words a = m.words a := by
  induction n with
  | zero => rfl
  | succ n ih =>
    rw [clearChildren, Memory.set_words, if_neg (by omega), ih (by omega)]

theorem clearChildren_bounds (n : Nat) (m : Memory) (p : Nat) :
    (clearChildren n m p).allocationPtr = m.allocationPtr ∧
    (clearChildren n m p).firstGenerationEnd = m.firstGenerationEnd ∧
    (clearChildren n m p).firstGenerationStart = m.firstGenerationStart := by
  induction n with
  | zero => exact ⟨rfl, rfl, rfl⟩
  | succ n ih => exact ih

/-- `shtring_new_node`. -/
theorem shtringNewNode_spec {S : Nat → Prop} {m : Memory} {n h k : Nat} (hn : 0 < n)
    (hmax : n ≤ maxShtringNodeChildren) (hh : 0 < h) (hS : ∀ a, S a → m.Live a)
    (hcan : m.canAllocate (shtringNodeWordsNeeded n + k)) :
    ∃ q m', shtringNewNode m n (h + 1) = some (q, m') ∧ NodeBuild S m m' q n h [] ∧
      m'.canAllocate k ∧ m'.allocationPtr = q ∧ m.allocationPtr = q + (3 + n) := by
  unfold Memory.canAllocate shtringNodeWordsNeeded at hcan
  unfold maxShtringNodeChildren at hmax
  have hend := m.firstGenerationEnd_pos
  have halloc := Memory.allocates_allocate .shtringNode (by omega : 0 < 3 + n)
    (show m.canAllocate (3 + n) by unfold Memory.canAllocate; omega)
  obtain ⟨q, hq⟩ : ∃ q, q = m.allocationPtr - (3 + n) := ⟨_, rfl⟩
  have hptr : m.allocationPtr = q + (3 + n) := by omega
  obtain ⟨m₁, hm₁⟩ : ∃ m₁, m₁ = (((m.allocate (3 + n) .shtringNode).2.set q
      (CellType.shtringNode.header ||| n)).set (q + 1) 0).set (q + 2) (h + 1) := ⟨_, rfl⟩
  have hptr₁ : m₁.allocationPtr = q := by rw [hm₁, hq]; rfl
  have halloc₁ : m.Allocates m₁ := by
    rw [hm₁]
    refine ((halloc.set ?_ _).set ?_ 0).set ?_ _ <;> simp <;> omega
  obtain ⟨hb₁, hb₂, hb₃⟩ := clearChildren_bounds n m₁ q
  have halloc₂ : m.Allocates (clearChildren n m₁ q) :=
    { allocationPtr_le := by omega
      firstGenerationEnd_eq := hb₂.trans halloc₁.firstGenerationEnd_eq
      firstGenerationStart_eq := hb₃.trans halloc₁.firstGenerationStart_eq
      agree := fun a ha => by
        rw [clearChildren_words n m₁ (by omega), halloc₁.agree a (by omega)] }
  have hend₂ := halloc₂.firstGenerationEnd_eq
  have hword : ∀ a, a < q + 3 → (clearChildren n m₁ q).words a = m₁.words a := fun a ha =>
    clearChildren_words n m₁ (Or.inl ha)
  have hhead : (clearChildren n m₁ q).words q = CellType.shtringNode.header ||| n := by
    rw [hword q (by omega), hm₁]
    simp
  refine ⟨q, clearChildren n m₁ q, ?_, ?_, ?_, by omega, hptr⟩
  · unfold shtringNewNode
    rw [assert_true hn, assert_true (by omega : 1 < h + 1)]
    simp only [Option.bind_eq_bind, Option.bind_some]
    have hfst : (m.allocate (3 + n) .shtringNode).1 = q := hq.symm
    have hfirst : (m.allocate (3 + n) .shtringNode).2.words q = CellType.shtringNode.header := by
      rw [Memory.allocate_words, if_pos hq]
    rw [hfst, hfirst, ← hm₁]
  · refine
      { ext := halloc₂.extends (by omega)
        ne_null := by unfold nullPtr; omega
        fresh := fun i hi => ⟨by unfold Memory.Live; omega, .inr (by omega)⟩
        region := fun a ha => ?_
        pos := hn
        le_max := hmax
        type := ?_
        count := ?_
        height := ?_
        length := ?_
        fit := by decide
        le := Nat.zero_le _
        ptrs := fun i hi => absurd hi (Nat.not_lt_zero _)
        trees := nofun }
    · have hlive := hS a ha
      unfold Memory.Live at hlive ⊢
      omega
    · rw [hhead, cellType_header_or _ (by omega)]
    · have hmask : (0xFF : Nat) = 2 ^ 8 - 1 := rfl
      rw [shtringNodeChildren, hhead, header_or _ (by omega), hmask, and_mask]
      omega
    · rw [shtringNodeHeight, hword _ (by omega), hm₁]
      simp
    · rw [shtringNodeLength, hword _ (by omega), hm₁]
      simp
  · unfold Memory.canAllocate
    omega

end Shades
