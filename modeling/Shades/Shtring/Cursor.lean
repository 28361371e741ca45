import Mathlib.Data.List.Chain
import Shades.Shtring.CursorCode
import Shades.Shtring.Slice

/-!
# Shades.Shtring.Cursor

A cursor has a path from the chunk at its position down to the root of the tree.
The moves follow the path rightly.  `shtring_cursor_create` takes the first word of
the text of a chunk for the length of the chunk, so that it finds the chunk at the
start of the shtring only if these words happen to lead to it, and the moves assert
that two neighbours are not the same cell, which they may well be.
-/

namespace Shades

/-! ## paths -/

/-- The children of a node. -/
def childrenOf (words : Nat → Nat) (p : Nat) : List Nat :=
  (List.range (shtringNodeChildren words p)).map fun i => shtringNodeChild words p (i + 1)

/-- The nodes are a path to the root: each one is the child that the next one has the
number of. -/
def IsPath (words : Nat → Nat) (root : Nat) : List StackNode → Prop
  | [] => False
  | [top] => top.node = root
  | top :: next :: down =>
    1 ≤ next.childNumber ∧ next.childNumber ≤ shtringNodeChildren words next.node ∧
      shtringNodeChild words next.node next.childNumber = top.node ∧
      IsPath words root (next :: down)

/-- How many characters of the tree come before the child to which the nodes lead. -/
def pathStart (words : Nat → Nat) : List StackNode → Nat
  | [] => 0
  | top :: down =>
    pathStart words down +
      (((childrenOf words top.node).take (top.childNumber - 1)).map (shtringTreeLength words)).sum

/-- The subtree `p` of height `h`, with the chunks `here`, between the chunks `before`
and `after` of the whole tree; the nodes above it are `down`. -/
inductive PlaceAt (words : Nat → Nat) (S : Nat → Prop) (height root : Nat) (chunks : List Chunk) :
    Nat → Nat → List Chunk → List Chunk → List Chunk → List StackNode → Prop
  | root (ht : TreeAt words S height root chunks) :
      PlaceAt words S height root chunks height root [] chunks [] []
  | child {h p : Nat} {before after : List Chunk} {down : List StackNode}
      {pre post : List (Nat × List Chunk)} {kid : Nat × List Chunk}
      (hup : PlaceAt words S height root chunks (h + 1) p before
        ((pre ++ kid :: post).map Prod.snd).flatten after down)
      (hnode : ShtringNodeAt words S h p (pre ++ kid :: post))
      (htrees : ∀ k ∈ pre ++ kid :: post, TreeAt words S h k.1 k.2) :
      PlaceAt words S height root chunks h kid.1 (before ++ (pre.map Prod.snd).flatten) kid.2
        ((post.map Prod.snd).flatten ++ after) (⟨pre.length + 1, p⟩ :: down)

section place

variable {words : Nat → Nat} {S : Nat → Prop} {height root h p : Nat}
  {chunks before here after : List Chunk} {down : List StackNode}

theorem childrenOf_eq {kids : List (Nat × List Chunk)} (hn : ShtringNodeAt words S h p kids) :
    childrenOf words p = kids.map Prod.fst := by
  rw [childrenOf, hn.count, hn.ptrs]

theorem PlaceAt.tree (hp : PlaceAt words S height root chunks h p before here after down) :
    TreeAt words S h p here := by
  cases hp with
  | root ht => exact ht
  | child hup hnode htrees => exact htrees _ (by simp)

theorem PlaceAt.split (hp : PlaceAt words S height root chunks h p before here after down) :
    chunks = before ++ here ++ after := by
  induction hp with
  | root ht => simp
  | child hup hnode htrees ih => simp [ih]

theorem PlaceAt.isPath (hp : PlaceAt words S height root chunks h p before here after down)
    (k : Nat) : IsPath words root (⟨k, p⟩ :: down) := by
  induction hp generalizing k with
  | root ht => rfl
  | @child h p before after down pre post kid hup hnode htrees ih =>
    refine ⟨Nat.succ_pos _, ?_, ?_, ih _⟩
    · rw [hnode.count]
      simp
    · rw [hnode.child (by simp)]
      simp

theorem PlaceAt.pathStart_eq (hp : PlaceAt words S height root chunks h p before here after down) :
    pathStart words down = (textOf before).length := by
  induction hp with
  | root ht => rfl
  | @child h p before after down pre post kid hup hnode htrees ih =>
    have hpre : ∀ k ∈ pre, TreeAt words S h k.1 k.2 := fun k hk => htrees k (by simp [hk])
    have hsum : (pre.map fun k => shtringTreeLength words k.1).sum =
        (textOf (pre.map Prod.snd).flatten).length := by
      clear hup hnode htrees
      induction pre with
      | nil => rfl
      | cons k pre ih =>
        have hrest := ih fun k' hk' => hpre k' (List.mem_cons_of_mem _ hk')
        simp [(hpre k List.mem_cons_self).treeLength, hrest]
    rw [pathStart, ih, childrenOf_eq hnode, textOf_append, List.length_append, ← hsum]
    simp [Function.comp_def]

/-! ## the next chunk -/

theorem ShtringNodeAt.not_chunk {kids : List (Nat × List Chunk)}
    (hn : ShtringNodeAt words S h p kids) : isShtringChunk words p = false := by
  unfold isShtringChunk
  rw [hn.type]
  decide

theorem ChunkAt.isChunk {bytes : List Nat} (hc : ChunkAt words S p bytes) :
    isShtringChunk words p = true := by
  unfold isShtringChunk
  rw [hc.type]
  decide

/-- `move_to_next_chunk_in_place` for the nodes above a subtree: they lead to the next
subtree of the same height, if there is one. -/
theorem PlaceAt.move (hp : PlaceAt words S height root chunks h p before here after down) :
    (after = [] ∧ moveToNextChunk words down = some none) ∨
    ∃ down' p' here' after', moveToNextChunk words down = some (some down') ∧
      stackChild words down' = p' ∧ after = here' ++ after' ∧
      PlaceAt words S height root chunks h p' (before ++ here) here' after' down' := by
  induction hp with
  | root ht => exact .inl ⟨rfl, rfl⟩
  | @child h p before after down pre post kid hup hnode htrees ih =>
    rw [moveToNextChunk, assert_true (.inl hnode.node)]
    simp only [Option.bind_eq_bind, Option.bind_some, hnode.not_chunk, Bool.false_eq_true, if_false,
      hnode.count]
    cases post with
    | cons kid' post =>
      have hlist : pre ++ kid :: kid' :: post = (pre ++ [kid]) ++ kid' :: post := by simp
      rw [if_pos (by simp)]
      have hchild : shtringNodeChild words p (pre.length + 1 + 1) = kid'.1 := by
        rw [hnode.child (by simp)]
        simp
      refine .inr ⟨_, kid'.1, kid'.2, (post.map Prod.snd).flatten ++ after, rfl, hchild,
        by simp, ?_⟩
      rw [hlist] at hup hnode htrees
      have hnext := PlaceAt.child hup hnode htrees
      rw [List.length_append, List.map_append, List.flatten_append] at hnext
      simpa [List.append_assoc] using hnext
    | nil =>
      rw [if_neg (by simp)]
      rcases ih with ⟨rfl, hnone⟩ | ⟨down', p', here', after', hsome, hchild, rfl, hplace⟩
      · rw [hnone]
        exact .inl ⟨rfl, rfl⟩
      · -- the first child of the next node
        have hpos := (htrees kid (by simp)).height_pos
        obtain ⟨h', kids, hheight, -, rfl, hnode', htrees'⟩ :=
          hplace.tree.node_of_one_lt (by omega : 1 < h + 1)
        obtain rfl : h = h' := Nat.succ.inj hheight
        obtain ⟨first, rest, rfl⟩ := List.exists_cons_of_ne_nil hnode'.ne_nil
        have hfirst : shtringNodeChild words p' 1 = first.1 := hnode'.child (i := 0) (by simp)
        have hnext := @PlaceAt.child words S height root chunks h p' _ after' down' [] rest first
          hplace hnode' htrees'
        rw [hsome, Option.bind_some, Option.map_some, hchild]
        refine .inr ⟨_, first.1, first.2, (rest.map Prod.snd).flatten ++ after', rfl, hfirst,
          by simp, ?_⟩
        simpa [List.append_assoc] using hnext

/-! ## moving forward -/

/-- The chunk list of a tree that is a chunk. -/
theorem TreeAt.chunk_of_height_one (ht : TreeAt words S 1 p here) :
    ∃ bytes, here = [(p, bytes)] ∧ ChunkAt words S p bytes := by
  cases ht with
  | chunk hchunk => exact ⟨_, rfl, hchunk⟩
  | node hnode htrees =>
    obtain ⟨kid, rest, rfl⟩ := List.exists_cons_of_ne_nil hnode.ne_nil
    exact absurd (htrees kid List.mem_cons_self).height_pos (Nat.lt_irrefl _)

/-- The item with a position of the joined text. -/
theorem exists_item_at {β : Type} {text : β → List Nat} {items : List β} {x : Nat}
    (hx : x < (items.flatMap text).length) :
    ∃ mid item post, items = mid ++ item :: post ∧ (mid.flatMap text).length ≤ x ∧
      x < (mid.flatMap text).length + (text item).length := by
  induction items generalizing x with
  | nil => exact absurd hx (Nat.not_lt_zero _)
  | cons item items ih =>
    rw [List.flatMap_cons, List.length_append] at hx
    by_cases hfirst : x < (text item).length
    · exact ⟨[], item, items, rfl, Nat.zero_le _, by simpa using hfirst⟩
    · obtain ⟨mid, item', post, rfl, hlow, hhigh⟩ := @ih (x - (text item).length) (by omega)
      refine ⟨item :: mid, item', post, rfl, ?_, ?_⟩ <;>
        rw [List.flatMap_cons, List.length_append] <;> omega

theorem kidsText_eq_flatMap (kids : List (Nat × List Chunk)) :
    kidsText kids = kids.flatMap fun kid => textOf kid.2 := by
  induction kids with
  | nil => rfl
  | cons kid kids ih => rw [kidsText_cons, List.flatMap_cons, ih]

/-- A round of the loop of `move_forward_in_place` that does not end it. -/
theorem moveForwardLoop_move {stack stack' : List StackNode} {d rounds pos : Nat} (hpos : pos ≤ d)
    (hpast : ¬ d < add32 pos (shtringChunkLength words (stackNode stack)))
    (hmove : moveToNextChunk words stack = some (some stack')) :
    moveForwardLoop words d (rounds + 1) stack pos =
      if stackNode stack ≠ stackNode stack' then
        moveForwardLoop words d rounds stack'
          (add32 pos (shtringChunkLength words (stackNode stack)))
      else none := by
  rw [moveForwardLoop]
  simp only [Option.bind_eq_bind]
  rw [assert_true hpos, Option.bind_some, if_neg hpast, hmove]
  by_cases hne : stackNode stack ≠ stackNode stack' <;> simp [assert, hne]

/-- The loop of `move_forward_in_place` goes from chunk to chunk up to the one with the
desired position, unless two that follow one another are the same cell. -/
theorem moveForwardLoop_spec {c c' : Chunk} {mid after' : List Chunk} {d rounds k : Nat}
    (hp : PlaceAt words S height root chunks 1 c.1 before [c] after down)
    (hfit : (textOf chunks).length < 2 ^ 32) (hmid : c :: after = mid ++ c' :: after')
    (hlow : (textOf before).length + (textOf mid).length ≤ d)
    (hhigh : d < (textOf before).length + (textOf mid).length + c'.2.length)
    (hrounds : mid.length < rounds) :
    ∃ down', PlaceAt words S height root chunks 1 c'.1 (before ++ mid) [c'] after' down' ∧
      moveForwardLoop words d rounds (⟨k, c.1⟩ :: down) (textOf before).length =
        if (mid ++ [c']).IsChain (fun a b => a.1 ≠ b.1) then
          some (some ((textOf (before ++ mid)).length, ⟨k, c'.1⟩ :: down'))
        else none := by
  induction mid generalizing c before after down rounds with
  | nil =>
    obtain ⟨rfl, rfl⟩ := List.cons.inj hmid
    obtain ⟨rounds, rfl⟩ : ∃ r, rounds = r + 1 := ⟨rounds - 1, by omega⟩
    obtain ⟨bytes, hc, hchunk⟩ := hp.tree.chunk_of_height_one
    have hlen : shtringChunkLength words c.1 = c.2.length := by
      rw [List.singleton_inj.mp hc]
      exact hchunk.length
    have htotal := congrArg (fun cs => (textOf cs).length) hp.split
    simp only [textOf_append, List.length_append, textOf_cons, textOf_nil, List.length_nil]
      at htotal hlow hhigh
    refine ⟨down, by simpa using hp, ?_⟩
    rw [moveForwardLoop]
    simp only [stackNode, hlen, Option.bind_eq_bind]
    rw [assert_true (by omega), Option.bind_some, add32_of_lt (by omega), if_pos (by omega),
      List.append_nil, if_pos (by simp)]
  | cons c₁ mid ih =>
    obtain ⟨rfl, rfl⟩ := List.cons.inj hmid
    obtain ⟨rounds, rfl⟩ : ∃ r, rounds = r + 1 := ⟨rounds - 1, by omega⟩
    obtain ⟨bytes, hc, hchunk⟩ := hp.tree.chunk_of_height_one
    have hlen : shtringChunkLength words c.1 = c.2.length := by
      rw [List.singleton_inj.mp hc]
      exact hchunk.length
    obtain ⟨hnil, -⟩ | ⟨down₁, p', here', after₁, hmove, hchild, hafter, hplace⟩ := hp.move
    · simp at hnil
    obtain ⟨bytes', rfl, hchunk'⟩ := hplace.tree.chunk_of_height_one
    have htotal := congrArg (fun cs => (textOf cs).length) hp.split
    simp only [textOf_append, List.length_append, textOf_cons, textOf_nil, List.length_nil]
      at htotal hlow hhigh
    obtain ⟨down', hplace', hloop⟩ := ih hplace hafter.symm (by simp; omega) (by simp; omega)
      (Nat.lt_of_succ_lt_succ hrounds)
    -- the chunk after `c` is the first of the others
    have hhead : (mid ++ [c']).head? = some (p', bytes') := by
      have hfirst := congrArg List.head? hafter
      cases mid <;> simpa using hfirst
    refine ⟨down', by simpa using hplace', ?_⟩
    have hnext : moveToNextChunk words (⟨k, c.1⟩ :: down) = some (some (⟨k, p'⟩ :: down₁)) := by
      rw [moveToNextChunk, assert_true (.inr hchunk.isChunk)]
      simp only [Option.bind_eq_bind, Option.bind_some, hchunk.isChunk, if_true, hmove,
        Option.map_some, hchild]
    have hround := @moveForwardLoop_move words _ _ d rounds (textOf before).length (by omega)
      (by rw [stackNode, hlen, add32_of_lt (by omega)]; omega) hnext
    rw [stackNode, stackNode, hlen, add32_of_lt (by omega)] at hround
    have hchain : (c :: mid ++ [c']).IsChain (fun a b => a.1 ≠ b.1) ↔
        c.1 ≠ p' ∧ (mid ++ [c']).IsChain (fun a b => a.1 ≠ b.1) := by
      rw [List.cons_append, List.isChain_cons, hhead]
      simp
    have hsum : (textOf before).length + c.2.length = (textOf (before ++ [c])).length := by simp
    rw [hround, hsum, hloop, List.append_assoc, if_congr hchain rfl rfl]
    by_cases hne : c.1 = p'
    · rw [if_neg fun h => h hne, if_neg fun h => h.1 hne]
    · rw [if_pos hne, if_congr (and_iff_right hne) rfl rfl]
      rfl

end place

/-! ## the search in `shtring_cursor_create` -/

/-- The lengths that `shtring_cursor_create` adds up for the children that it goes
past: for a chunk this is the first word of its text. -/
def lengthSum (words : Nat → Nat) (sum : Nat) (children : List Nat) : Nat :=
  children.foldl (fun sum p => add32 sum (shtringNodeLength words p)) sum

/-- The search goes past some children and stops at `p`, which is the last child or
takes the sum over the offset. -/
def StopsAt (words : Nat → Nat) (off p : Nat) (post : List Nat) : Nat → List Nat → Prop
  | sum, [] => post = [] ∨ off < add32 sum (shtringNodeLength words p)
  | sum, child :: pre =>
    add32 sum (shtringNodeLength words child) ≤ off ∧
      StopsAt words off p post (add32 sum (shtringNodeLength words child)) pre

/-- The child that has a position, and where it starts. -/
def childOver (length : Nat → Nat) (pos : Nat) : List Nat → Nat → Option (Nat × Nat)
  | [], _ => none
  | child :: children, start =>
    if pos < start + length child then some (child, start)
    else childOver length pos children (start + length child)

/-- The node of height 2 that has a position of the tree, and where it starts. -/
def nodeOver (words : Nat → Nat) (pos : Nat) : Nat → Nat → Nat → Option (Nat × Nat)
  | h + 3, p, start =>
    (childOver (shtringTreeLength words) pos (childrenOf words p) start).bind fun (child, start) =>
      nodeOver words pos (h + 2) child start
  | _, p, start => some (p, start)

/-- In the node that starts at `start` the search stops at the chunk with the offset,
with the right sum. -/
def FirstWordsLead (words : Nat → Nat) (off node start : Nat) : Prop :=
  ∃ pre chunk post, childrenOf words node = pre ++ chunk :: post ∧
    StopsAt words off chunk post start pre ∧
    lengthSum words start pre = start + (pre.map (shtringChunkLength words)).sum ∧
    off < start + (pre.map (shtringChunkLength words)).sum + shtringChunkLength words chunk

/-- When `shtring_cursor_create` finds the chunk at the start of the shtring. -/
def CreatesRight (words : Nat → Nat) (s : Nat) : Prop :=
  shtringHeight words s ≤ 1 ∨
    ∃ node start, nodeOver words (shtringOffset words s) (shtringHeight words s)
        (shtringChunkTree words s) 0 = some (node, start) ∧
      FirstWordsLead words (shtringOffset words s) node start

section create

variable {words : Nat → Nat} {S : Nat → Prop} {height root h p off : Nat}
  {chunks before here after : List Chunk} {down : List StackNode}

/-- The search stops at one child only. -/
theorem StopsAt.unique {c c' sum : Nat} {pre pre' post post' : List Nat}
    (h : StopsAt words off c post sum pre) (h' : StopsAt words off c' post' sum pre')
    (heq : pre ++ c :: post = pre' ++ c' :: post') : pre = pre' ∧ c = c' ∧ post = post' := by
  induction pre generalizing pre' sum with
  | nil =>
    cases pre' with
    | nil => simpa using heq
    | cons a pre' =>
      obtain ⟨rfl, rfl⟩ := List.cons.inj heq
      rcases h with hnil | hlt
      · simp at hnil
      · exact absurd h'.1 (Nat.not_le.mpr hlt)
  | cons a pre ih =>
    cases pre' with
    | nil =>
      obtain ⟨rfl, rfl⟩ := List.cons.inj heq
      rcases h' with hnil | hlt
      · simp at hnil
      · exact absurd h.1 (Nat.not_le.mpr hlt)
    | cons a' pre' =>
      obtain ⟨rfl, htail⟩ := List.cons.inj heq
      obtain ⟨rfl, hrest⟩ := ih h.2 h'.2 htail
      exact ⟨rfl, hrest⟩

/-- The sum does not pass the offset. -/
theorem StopsAt.lengthSum_le {c sum : Nat} {pre post : List Nat}
    (h : StopsAt words off c post sum pre) (hsum : sum ≤ off) : lengthSum words sum pre ≤ off := by
  induction pre generalizing sum with
  | nil => exact hsum
  | cons a pre ih => exact ih h.2 h.1

/-- The inner loop of `shtring_cursor_create`. -/
theorem cursorChild_stops {children : List Nat} {k sum : Nat} (hne : children ≠ [])
    (hchild : ∀ i (hi : i < children.length), shtringNodeChild words p (k + i) = children[i]) :
    ∃ pre c post, children = pre ++ c :: post ∧ StopsAt words off c post sum pre ∧
      cursorChild words p off (children.length - 1) k sum =
        (k + pre.length, lengthSum words sum pre) := by
  induction children generalizing k sum with
  | nil => exact absurd rfl hne
  | cons c children ih =>
    cases children with
    | nil => exact ⟨[], c, [], rfl, .inl rfl, rfl⟩
    | cons c' children =>
      have hfirst : shtringNodeChild words p k = c := hchild 0 (by simp)
      rw [List.length_cons, Nat.add_sub_cancel, List.length_cons, cursorChild, hfirst]
      by_cases hstop : off < add32 sum (shtringNodeLength words c)
      · simp only [if_pos hstop]
        exact ⟨[], c, c' :: children, rfl, .inr hstop, rfl⟩
      · obtain ⟨pre, d, post, heq, hstops, hrun⟩ := @ih (k + 1)
          (add32 sum (shtringNodeLength words c)) (List.cons_ne_nil _ _) fun i hi => by
            rw [Nat.add_right_comm, Nat.add_assoc]
            exact hchild (i + 1) (by simpa using hi)
        rw [List.length_cons, Nat.add_sub_cancel] at hrun
        simp only [if_neg hstop, hrun]
        refine ⟨c :: pre, d, post, by rw [heq]; rfl, ⟨Nat.not_lt.mp hstop, hstops⟩, ?_⟩
        rw [List.length_cons, Nat.add_right_comm, Nat.add_assoc]
        rfl

/-- Among trees of which the lengths are read rightly, the search stops at the one that
has the offset. -/
theorem stopsAt_trees {pre post : List (Nat × List Chunk)} {kid : Nat × List Chunk} {base : Nat}
    (hlengths : ∀ k ∈ pre ++ kid :: post, shtringNodeLength words k.1 = (textOf k.2).length)
    (hlow : base + (kidsText pre).length ≤ off)
    (hhigh : off < base + (kidsText pre).length + (textOf kid.2).length)
    (hfit : base + (kidsText (pre ++ kid :: post)).length < 2 ^ 32) :
    StopsAt words off kid.1 (post.map Prod.fst) base (pre.map Prod.fst) ∧
      lengthSum words base (pre.map Prod.fst) = base + (kidsText pre).length := by
  induction pre generalizing base with
  | nil =>
    have hlen := hlengths kid (by simp)
    simp only [List.nil_append, kidsText_cons, kidsText_nil, List.length_append, List.length_nil]
      at hfit hhigh
    refine ⟨.inr ?_, rfl⟩
    rw [hlen, add32_of_lt (by omega)]
    omega
  | cons k pre ih =>
    have hlen := hlengths k (by simp)
    simp only [List.cons_append, kidsText_cons, List.length_append] at hlow hhigh hfit
    have hsum : add32 base (shtringNodeLength words k.1) = base + (textOf k.2).length := by
      rw [hlen, add32_of_lt (by omega)]
    obtain ⟨hstops, hlength⟩ := @ih (base + (textOf k.2).length)
      (fun k' hk' => hlengths k' (List.mem_cons_of_mem _ hk')) (by omega) (by omega) (by omega)
    refine ⟨⟨?_, ?_⟩, ?_⟩
    · rw [hsum]
      omega
    · rw [hsum]
      exact hstops
    · rw [kidsText_cons, List.length_append, ← Nat.add_assoc, ← hlength, ← hsum]
      rfl

/-- The child that has the offset. -/
theorem childOver_trees {pre post : List (Nat × List Chunk)} {kid : Nat × List Chunk} {base : Nat}
    {length : Nat → Nat} (hlengths : ∀ k ∈ pre ++ kid :: post, length k.1 = (textOf k.2).length)
    (hlow : base + (kidsText pre).length ≤ off)
    (hhigh : off < base + (kidsText pre).length + (textOf kid.2).length) :
    childOver length off ((pre ++ kid :: post).map Prod.fst) base =
      some (kid.1, base + (kidsText pre).length) := by
  induction pre generalizing base with
  | nil =>
    rw [List.nil_append, List.map_cons, childOver, hlengths kid (by simp), if_pos]
    · rfl
    · simpa using hhigh
  | cons k pre ih =>
    rw [kidsText_cons, List.length_append] at hlow hhigh ⊢
    rw [List.cons_append, List.map_cons, childOver, hlengths k (by simp), if_neg (by omega),
      ih (fun k' hk' => hlengths k' (List.mem_cons_of_mem _ hk')) (by omega) (by omega),
      Nat.add_assoc]

/-- The levels of the tree above the node over the chunks. -/
theorem cursorStack_nodeOver (hp : PlaceAt words S height root chunks h p before here after down)
    (hh : 2 ≤ h) (hfit : (textOf chunks).length < 2 ^ 32) (hlow : (textOf before).length ≤ off)
    (hhigh : off < (textOf before).length + (textOf here).length) :
    ∃ node before' here' after' down',
      nodeOver words off h p (textOf before).length = some (node, (textOf before').length) ∧
      PlaceAt words S height root chunks 2 node before' here' after' down' ∧
      (textOf before').length ≤ off ∧ off < (textOf before').length + (textOf here').length ∧
      cursorStack words off h p (textOf before).length down =
        cursorStack words off 2 node (textOf before').length down' := by
  induction h generalizing p before here after down with
  | zero => omega
  | succ h ih =>
    by_cases htwo : h = 1
    · subst htwo
      exact ⟨p, before, here, after, down, rfl, hp, hlow, hhigh, rfl⟩
    · obtain ⟨h', kids, hheight, -, rfl, hnode, htrees⟩ := hp.tree.node_of_one_lt (by omega)
      obtain rfl : h = h' := Nat.succ.inj hheight
      obtain ⟨h, rfl⟩ : ∃ k, h = k + 2 := ⟨h - 2, by omega⟩
      have htext : (textOf (kids.map Prod.snd).flatten).length =
          (kids.flatMap fun kid => textOf kid.2).length :=
        congrArg List.length (kidsText_eq_flatMap kids)
      obtain ⟨pre, kid, post, rfl, hpre, hkid⟩ := exists_item_at
        (show off - (textOf before).length < (kids.flatMap fun kid => textOf kid.2).length by omega)
      rw [← kidsText_eq_flatMap] at hpre hkid
      have htotal := congrArg (fun cs => (textOf cs).length) hp.split
      simp only [textOf_append, List.length_append] at htotal
      have hbase : (textOf (before ++ (pre.map Prod.snd).flatten)).length =
          (textOf before).length + (kidsText pre).length := by
        rw [textOf_append, List.length_append]
        rfl
      have hkids : (kidsText (pre ++ kid :: post)).length =
          (textOf ((pre ++ kid :: post).map Prod.snd).flatten).length := rfl
      -- the code finds the child that has the offset
      have hlengths : ∀ k ∈ pre ++ kid :: post,
          shtringNodeLength words k.1 = (textOf k.2).length := fun k hk => (htrees k hk).kidLength
      obtain ⟨hstops, hsum⟩ := @stopsAt_trees words off pre post kid (textOf before).length hlengths
        (by omega) (by omega) (by omega)
      obtain ⟨pre', c, post', hlist, hstops', hrun⟩ := @cursorChild_stops words p off
        ((pre ++ kid :: post).map Prod.fst) 1 (textOf before).length (by simp) (fun i hi => by
          rw [Nat.add_comm, hnode.child (by simpa using hi), List.getElem_map])
      rw [List.map_append, List.map_cons] at hlist
      obtain ⟨rfl, rfl, rfl⟩ := hstops.unique hstops' hlist
      obtain ⟨node, before', here', after', down', hover, hplace', hlow', hhigh', hstack⟩ :=
        ih (hp.child hnode htrees) (by omega) (by omega) (by omega)
      refine ⟨node, before', here', after', down', ?_, hplace', hlow', hhigh', ?_⟩
      · rw [nodeOver, childrenOf_eq hnode, childOver_trees
          (fun k hk => (htrees k hk).treeLength) (by omega) (by omega), Option.bind_some, ← hbase]
        exact hover
      · rw [List.length_map] at hrun
        have hcount := hnode.count
        have hchild : shtringNodeChild words p (1 + (pre.map Prod.fst).length) = kid.1 := by
          rw [List.length_map, Nat.add_comm, hnode.child (by simp)]
          simp
        rw [cursorStack, assert_true hnode.node]
        simp only [Option.bind_eq_bind, Option.bind_some, hcount, hrun, hchild, hsum]
        rw [← hbase, ← hstack, List.length_map, Nat.add_comm 1]

/-- The children of a node of height 2. -/
theorem exists_chunks {kids : List (Nat × List Chunk)}
    (htrees : ∀ kid ∈ kids, TreeAt words S 1 kid.1 kid.2) :
    ∃ cs : List Chunk, kids = cs.map fun c => (c.1, [c]) := by
  induction kids with
  | nil => exact ⟨[], rfl⟩
  | cons kid kids ih =>
    obtain ⟨cs, rfl⟩ := ih fun kid' hkid' => htrees kid' (List.mem_cons_of_mem _ hkid')
    obtain ⟨bytes, hkid, -⟩ := (htrees kid List.mem_cons_self).chunk_of_height_one
    refine ⟨(kid.1, bytes) :: cs, ?_⟩
    rw [List.map_cons, ← hkid]

theorem sum_chunkLength {cs : List Chunk} (hchunks : ∀ c ∈ cs, ChunkAt words S c.1 c.2) :
    ((cs.map Prod.fst).map (shtringChunkLength words)).sum = (textOf cs).length := by
  induction cs with
  | nil => rfl
  | cons c cs ih =>
    have hrest := ih fun c' hc' => hchunks c' (List.mem_cons_of_mem _ hc')
    rw [List.map_cons, List.map_cons, List.sum_cons, hrest, (hchunks c List.mem_cons_self).length,
      textOf_cons, List.length_append]

theorem PlaceAt.chunkAt (hp : PlaceAt words S height root chunks h p before here after down) :
    ∀ c ∈ here, ChunkAt words S c.1 c.2 :=
  hp.tree.chunkAt

/-- The node over the chunks. -/
theorem cursorStack_chunk (hp : PlaceAt words S height root chunks 2 p before here after down) :
    ∃ pre c post, here = pre ++ c :: post ∧ childrenOf words p = here.map Prod.fst ∧
      StopsAt words off c.1 (post.map Prod.fst) (textOf before).length (pre.map Prod.fst) ∧
      cursorStack words off 2 p (textOf before).length down =
        some (c.1, lengthSum words (textOf before).length (pre.map Prod.fst),
          ⟨pre.length + 1, p⟩ :: down) ∧
      PlaceAt words S height root chunks 1 c.1 (before ++ pre) [c] (post ++ after)
        (⟨pre.length + 1, p⟩ :: down) := by
  obtain ⟨h', kids, hheight, -, rfl, hnode, htrees⟩ := hp.tree.node_of_one_lt (by decide)
  obtain rfl : 1 = h' := Nat.succ.inj hheight
  obtain ⟨cs, rfl⟩ := exists_chunks htrees
  have hflat : ∀ cs : List Chunk,
      ((cs.map fun c => (c.1, [c])).map Prod.snd).flatten = cs := fun cs => by
    induction cs with
    | nil => rfl
    | cons c cs ih => rw [List.map_cons, List.map_cons, List.flatten_cons, ih]; rfl
  have hfst : (cs.map fun c => (c.1, [c])).map Prod.fst = cs.map Prod.fst := by
    rw [List.map_map]
    rfl
  obtain ⟨pre', c', post', hlist, hstops, hrun⟩ := @cursorChild_stops words p off
    (cs.map Prod.fst) 1 (textOf before).length
    (by simpa using hnode.ne_nil) (fun i hi => by
      rw [Nat.add_comm, hnode.child (by simpa using hi)]
      simp)
  obtain ⟨pre, rest, rfl, rfl, hrest⟩ := List.map_eq_append_iff.mp hlist
  obtain ⟨c, post, rfl, rfl, rfl⟩ := List.map_eq_cons_iff.mp hrest
  have hchild : shtringNodeChild words p (1 + (pre.map Prod.fst).length) = c.1 := by
    rw [List.length_map, Nat.add_comm, hnode.child (by simp)]
    simp
  have hcount := hnode.count
  rw [List.length_map] at hcount hrun
  refine ⟨pre, c, post, hflat _, ?_, hstops, ?_, ?_⟩
  · rw [childrenOf_eq hnode, hfst, hflat]
  · rw [cursorStack, assert_true hnode.node]
    simp only [Option.bind_eq_bind, Option.bind_some, hcount, hrun, hchild, cursorStack]
    rw [List.length_map, Nat.add_comm 1]
  · rw [List.map_append, List.map_cons] at hp hnode htrees
    have hplace := hp.child hnode htrees
    rwa [hflat, hflat, List.length_map] at hplace

theorem firstWordsLead_iff {pre post : List Chunk} {c : Chunk} {start : Nat}
    (hchunks : ∀ c' ∈ pre ++ c :: post, ChunkAt words S c'.1 c'.2)
    (hchildren : childrenOf words p = (pre ++ c :: post).map Prod.fst)
    (hstops : StopsAt words off c.1 (post.map Prod.fst) start (pre.map Prod.fst)) :
    FirstWordsLead words off p start ↔
      lengthSum words start (pre.map Prod.fst) = start + (textOf pre).length ∧
        off < start + (textOf pre).length + c.2.length := by
  have hsum := sum_chunkLength fun c' hc' => hchunks c' (List.mem_append_left _ hc')
  have hlen := (hchunks c (by simp)).length
  rw [List.map_append, List.map_cons] at hchildren
  constructor
  · rintro ⟨pre', c', post', hchildren', hstops', hlead⟩
    obtain ⟨rfl, rfl, rfl⟩ := hstops'.unique hstops (hchildren'.symm.trans hchildren)
    rwa [hsum, hlen] at hlead
  · intro hlead
    refine ⟨_, _, _, hchildren, hstops, ?_⟩
    rwa [hsum, hlen]

/-- The cursor that `shtring_cursor_create` makes. -/
theorem shtringCursorCreate_spec {s len : Nat} (hs : ShtringAt words S s chunks off len)
    (hlen : 0 < len) :
    ∃ cur c before after down, shtringCursorCreate words s = some (some cur) ∧ cur.shtring = s ∧
      cur.stack = ⟨0, c.1⟩ :: down ∧ PlaceAt words S (shtringHeight words s)
        (shtringChunkTree words s) chunks 1 c.1 before [c] after down ∧
      cur.posOfChunk ≤ off ∧ cur.offsetIntoChunk = off - cur.posOfChunk ∧
      (CreatesRight words s ↔ cur.posOfChunk = (textOf before).length ∧
        off < (textOf before).length + c.2.length) := by
  have hwindow := hs.window
  have hfit := hs.fit
  have ht := hs.tree.resolve_left fun h => by
    obtain ⟨-, -, rfl⟩ := h
    rw [textOf_nil, List.length_nil] at hwindow
    omega
  have hroot := PlaceAt.root ht
  have hcreate : shtringCursorCreate words s =
      (cursorStack words off (shtringHeight words s) (shtringChunkTree words s) 0 []).map fun r =>
        some ⟨s, r.2.1, sub32 off r.2.1, ⟨0, r.1⟩ :: r.2.2⟩ := by
    unfold shtringCursorCreate
    rw [hs.length, if_neg (by omega)]
    simp only [hs.offset, ht.treeHeight]
    cases cursorStack words off (shtringHeight words s) (shtringChunkTree words s) 0 [] <;> rfl
  unfold CreatesRight
  rw [hcreate, hs.offset]
  by_cases hheight : shtringHeight words s ≤ 1
  · have hone : shtringHeight words s = 1 := Nat.le_antisymm hheight ht.height_pos
    rw [hone] at ht hroot ⊢
    obtain ⟨bytes, rfl, hchunk⟩ := ht.chunk_of_height_one
    refine ⟨_, (shtringChunkTree words s, bytes), [], [], [], rfl, rfl, rfl, hroot, Nat.zero_le _,
      sub32_of_le (Nat.zero_le _) (by omega), ?_⟩
    simp only [textOf_cons, textOf_nil, List.append_nil] at hwindow
    simp only [Nat.le_refl, true_or, textOf_nil, List.length_nil, true_iff, true_and]
    omega
  · obtain ⟨node, before', here', after', down', hover, hplace, hlow, hhigh, hstack⟩ :=
      @cursorStack_nodeOver words S _ _ _ _ off _ _ _ _ _ hroot (by omega) hfit (Nat.zero_le _)
        (by rw [textOf_nil, List.length_nil]; omega)
    obtain ⟨pre, c, post, rfl, hchildren, hstops, hrun, hchunk⟩ := @cursorStack_chunk words S _ _ _
      off _ _ _ _ _ hplace
    have hle := hstops.lengthSum_le hlow
    have hlead := firstWordsLead_iff hplace.chunkAt hchildren hstops
    rw [textOf_nil, List.length_nil] at hstack hover
    rw [hstack, hrun, Option.map_some]
    refine ⟨_, c, before' ++ pre, post ++ after', _, rfl, rfl, rfl, hchunk, hle,
      sub32_of_le hle (by omega), ?_⟩
    rw [textOf_append, List.length_append, ← hlead]
    constructor
    · rintro (hone | ⟨node', start, hover', hfirst⟩)
      · exact absurd hone hheight
      · cases hover.symm.trans hover'
        exact hfirst
    · exact fun hfirst => .inr ⟨node, _, hover, hfirst⟩

end create

/-! ## runs -/

/-- The moves, one after the other, as long as they stay in the shtring. -/
def cursorMoves (words : Nat → Nat) : List Nat → Cursor → Option Cursor
  | [], cur => some cur
  | nchars :: moves, cur =>
    (moveForwardInPlace words cur nchars).join.bind (cursorMoves words moves)

/-- The byte at the cursor, as a character. -/
def cursorChar (signed : Bool) (words : Nat → Nat) (cur : Cursor) : Int :=
  intOfChar signed ((copyChunkToCstr words cur.chunk cur.offsetIntoChunk 1).headD 0)

/-- The cursor is on the chunk with the position of the shtring, at the right place in
it. -/
structure CursorOn (words : Nat → Nat) (s pos : Nat) (cur : Cursor) : Prop where
  shtring : cur.shtring = s
  path : IsPath words (shtringChunkTree words s) cur.stack
  chunk : isShtringChunk words cur.chunk = true
  inside : cur.offsetIntoChunk < shtringChunkLength words cur.chunk
  start : pathStart words cur.stack.tail + cur.offsetIntoChunk = shtringOffset words s + pos
  position : shtringCursorGetPosition words cur = pos

/-- A new cursor is right after any moves that stay in the shtring, so that the byte at
it is the one that `shtring_charat` gives. -/
def CursorReads (signed : Bool) (words : Nat → Nat) (s : Nat) : Prop :=
  ∀ moves : List Nat, moves.sum < shtringLength words s →
    ∃ cur, (shtringCursorCreate words s).join.bind (cursorMoves words moves) = some cur ∧
      CursorOn words s moves.sum cur ∧
      shtringCharat signed words s moves.sum = some (cursorChar signed words cur)

/-- Two chunks that follow one another inside the window are two cells. -/
def DistinctNeighbours (chunks : List Chunk) (off len : Nat) : Prop :=
  ∀ pre c c' post, chunks = pre ++ c :: c' :: post → off < (textOf (pre ++ [c])).length →
    (textOf (pre ++ [c])).length < off + len → c.1 ≠ c'.1

section runs

variable {words : Nat → Nat} {S : Nat → Prop} {s off len x n : Nat} {chunks : List Chunk}
  {cur : Cursor}

/-- A cursor on the chunk `c`, at the position `x` of the tree. -/
def CursorAt (words : Nat → Nat) (S : Nat → Prop) (chunks : List Chunk) (s x : Nat)
    (before : List Chunk) (c : Chunk) (after : List Chunk) (cur : Cursor) : Prop :=
  ∃ k down, cur.shtring = s ∧ cur.stack = ⟨k, c.1⟩ :: down ∧
    PlaceAt words S (shtringHeight words s) (shtringChunkTree words s) chunks 1 c.1 before [c] after
      down ∧ cur.posOfChunk = (textOf before).length ∧ cur.posOfChunk + cur.offsetIntoChunk = x ∧
    x < (textOf before).length + c.2.length

theorem CursorAt.chunks_eq {before after : List Chunk} {c : Chunk}
    (hc : CursorAt words S chunks s x before c after cur) : chunks = before ++ c :: after := by
  obtain ⟨k, down, -, -, hplace, -⟩ := hc
  simpa using hplace.split

/-- Such a cursor is right. -/
theorem CursorAt.on {before after : List Chunk} {c : Chunk}
    (hs : ShtringAt words S s chunks off len)
    (hc : CursorAt words S chunks s (off + n) before c after cur) : CursorOn words s n cur := by
  have hfit := hs.fit
  have hwindow := hs.window
  have hchunks := hc.chunks_eq
  obtain ⟨k, down, hshtring, hstack, hplace, hpos, hx, hlt⟩ := hc
  have hchunk := hplace.chunkAt c List.mem_cons_self
  have htotal := congrArg (fun cs => (textOf cs).length) hchunks
  simp only [textOf_append, textOf_cons, List.length_append] at htotal
  have hnode : cur.chunk = c.1 := by rw [Cursor.chunk, hstack, stackNode]
  exact
    { shtring := hshtring
      path := by
        rw [hstack]
        exact hplace.isPath k
      chunk := by
        rw [hnode]
        exact hchunk.isChunk
      inside := by
        rw [hnode, hchunk.length]
        omega
      start := by
        rw [hstack, List.tail_cons, hplace.pathStart_eq, hs.offset]
        omega
      position := by
        rw [shtringCursorGetPosition, hshtring, hs.offset, add32_of_lt (by omega), hx,
          sub32_of_le (by omega) (by omega), Nat.add_sub_cancel_left] }

/-- Reading at the cursor. -/
theorem CursorAt.charat {before after : List Chunk} {c : Chunk} (signed : Bool)
    (hs : ShtringAt words S s chunks off len) (hn : n < len)
    (hc : CursorAt words S chunks s (off + n) before c after cur) :
    shtringCharat signed words s n = some (cursorChar signed words cur) := by
  have hchunks := hc.chunks_eq
  obtain ⟨k, down, hshtring, hstack, hplace, hpos, hx, hlt⟩ := hc
  have hchunk := hplace.chunkAt c List.mem_cons_self
  have hnode : cur.chunk = c.1 := by rw [Cursor.chunk, hstack, stackNode]
  have hin : cur.offsetIntoChunk < c.2.length := by omega
  have hcopy : copyChunkToCstr words cur.chunk cur.offsetIntoChunk 1 =
      [c.2[cur.offsetIntoChunk]] := by
    rw [hnode, copyChunkToCstr_eq, hchunk.chunkBytes_eq (by omega), List.drop_eq_getElem_cons hin]
    rfl
  rw [cursorChar, hcopy]
  refine shtringCharat_eq signed hs hn ?_
  rw [windowText, List.getElem?_take, if_pos hn, List.getElem?_drop, hchunks, textOf_append,
    textOf_cons, List.getElem?_append_right (by omega), List.getElem?_append_left (by omega),
    show off + n - (textOf before).length = cur.offsetIntoChunk by omega]
  exact List.getElem?_eq_getElem hin

/-- No chunk is empty. -/
theorem length_le_textOf {cs : List Chunk} (hcs : ∀ c ∈ cs, ChunkAt words S c.1 c.2) :
    cs.length ≤ (textOf cs).length := by
  induction cs with
  | nil => exact Nat.le_refl _
  | cons c cs ih =>
    have hrest := ih fun c' hc' => hcs c' (List.mem_cons_of_mem _ hc')
    have hpos := (hcs c List.mem_cons_self).pos
    rw [List.length_cons, textOf_cons, List.length_append]
    omega

/-- A move goes to the chunk with the position, unless two neighbours on the way are the
same cell. -/
theorem CursorAt.moveForward {before mid after after' : List Chunk} {c c' : Chunk} {nchars : Nat}
    (hs : ShtringAt words S s chunks off len)
    (hc : CursorAt words S chunks s x before c after cur) (hin : x + nchars < off + len)
    (hmid : c :: after = mid ++ c' :: after')
    (hlow : (textOf before).length + (textOf mid).length ≤ x + nchars)
    (hhigh : x + nchars < (textOf before).length + (textOf mid).length + c'.2.length) :
    ((mid ++ [c']).IsChain (fun a b => a.1 ≠ b.1) → ∃ cur', moveForwardInPlace words cur nchars =
        some (some cur') ∧ CursorAt words S chunks s (x + nchars) (before ++ mid) c' after' cur') ∧
      (¬ (mid ++ [c']).IsChain (fun a b => a.1 ≠ b.1) →
        moveForwardInPlace words cur nchars = none) := by
  have hfit := hs.fit
  have hwindow := hs.window
  have hchunks := hc.chunks_eq
  obtain ⟨k, down, hshtring, hstack, hplace, hpos, hcur, hlt⟩ := hc
  have ht := hs.tree.resolve_left fun h => by
    rw [h.2.2] at hchunks
    simp at hchunks
  have hsplit : chunks = before ++ (mid ++ c' :: after') := by rw [hchunks, hmid]
  have hrounds : mid.length < (textOf chunks).length + 1 := by
    have hle := @length_le_textOf words S mid fun c₁ hc₁ => hs.chunkAt c₁ (by
      rw [hsplit]
      simp [hc₁])
    rw [hsplit, textOf_append, textOf_append, List.length_append, List.length_append]
    omega
  obtain ⟨down', hplace', hloop⟩ := @moveForwardLoop_spec words S _ _ _ before after down c c' mid
    after' (x + nchars) _ k hplace hfit hmid hlow hhigh hrounds
  have hpresent : add32 cur.posOfChunk cur.offsetIntoChunk = x := by
    rw [add32_of_lt (by omega), hcur]
  have hrun : moveForwardInPlace words cur nchars =
      (moveForwardLoop words (x + nchars) ((textOf chunks).length + 1) cur.stack
        cur.posOfChunk).bind fun moved => some (moved.map fun r =>
          { cur with
            posOfChunk := r.1
            offsetIntoChunk := sub32 (x + nchars) r.1
            stack := r.2 }) := by
    unfold moveForwardInPlace
    rw [assert_true (by simp [hstack])]
    simp only [Option.bind_eq_bind, Option.bind_some, hshtring, hs.offset, hs.length, ht.treeLength]
    rw [hpresent, add32_of_lt (by omega), add32_of_lt (by omega), if_neg (by omega)]
  rw [hrun, hstack, hpos, hloop]
  constructor
  · intro hchain
    rw [if_pos hchain, Option.bind_some, Option.map_some]
    refine ⟨_, rfl, k, down', hshtring, rfl, hplace', rfl, ?_, ?_⟩
    · have hbefore : (textOf (before ++ mid)).length ≤ x + nchars := by
        rwa [textOf_append, List.length_append]
      simp only [sub32_of_le hbefore (show x + nchars < 2 ^ 32 by omega)]
      exact Nat.add_sub_cancel' hbefore
    · rw [textOf_append, List.length_append]
      exact hhigh
  · intro hchain
    rw [if_neg hchain]
    rfl

/-- The chunks on the way of a move in the window. -/
theorem DistinctNeighbours.isChain {before mid after : List Chunk} {c : Chunk}
    (hd : DistinctNeighbours chunks off len) (hchunks : chunks = before ++ (mid ++ c :: after))
    (hlow : ∀ c₁ ∈ mid.head?, off < (textOf before).length + c₁.2.length)
    (hhigh : (textOf before).length + (textOf mid).length < off + len) :
    (mid ++ [c]).IsChain (fun a b => a.1 ≠ b.1) := by
  induction mid generalizing before with
  | nil => simp
  | cons c₁ mid ih =>
    rw [textOf_cons, List.length_append] at hhigh
    have hlow₁ := hlow c₁ rfl
    have hrest := @ih (before ++ [c₁]) (by rw [hchunks]; simp) (fun c₂ hc₂ => by
      simp only [textOf_append, textOf_cons, textOf_nil, List.append_nil, List.length_append]
      omega) (by
      simp only [textOf_append, textOf_cons, textOf_nil, List.append_nil, List.length_append]
      omega)
    rw [List.cons_append, List.isChain_cons]
    refine ⟨fun c₂ hc₂ => ?_, hrest⟩
    obtain ⟨rest, hnext⟩ : ∃ rest, mid ++ c :: after = c₂ :: rest := by
      cases mid with
      | nil =>
        obtain rfl : c = c₂ := by simpa using hc₂
        exact ⟨after, rfl⟩
      | cons c₃ mid =>
        obtain rfl : c₃ = c₂ := by simpa using hc₂
        exact ⟨mid ++ c :: after, rfl⟩
    refine hd before c₁ c₂ rest (by rw [hchunks, List.cons_append, hnext]) ?_ ?_ <;>
      simp only [textOf_append, textOf_cons, textOf_nil, List.append_nil, List.length_append] <;>
      omega

/-- Moves where no neighbours in the window are the same cell. -/
theorem CursorAt.moves {before after : List Chunk} {c : Chunk} {moves : List Nat}
    (hs : ShtringAt words S s chunks off len) (hdistinct : DistinctNeighbours chunks off len)
    (hx : off ≤ x) (hc : CursorAt words S chunks s x before c after cur)
    (hin : x + moves.sum < off + len) :
    ∃ before' c' after' cur', cursorMoves words moves cur = some cur' ∧
      CursorAt words S chunks s (x + moves.sum) before' c' after' cur' := by
  induction moves generalizing x before c after cur with
  | nil => exact ⟨before, c, after, cur, rfl, hc⟩
  | cons nchars moves ih =>
    rw [List.sum_cons] at hin
    have hwindow := hs.window
    have hchunks := hc.chunks_eq
    obtain ⟨-, -, -, -, -, hpos, hcur, hchunk⟩ := id hc
    have htotal := congrArg (fun cs => (textOf cs).length) hchunks
    simp only [textOf_append, List.length_append] at htotal
    obtain ⟨y, hy⟩ : ∃ y, x + nchars = (textOf before).length + y :=
      ⟨x + nchars - (textOf before).length, by omega⟩
    obtain ⟨mid, c', after', hmid, hmidle, hlt⟩ := @exists_item_at Chunk Prod.snd (c :: after) y
      (show y < (textOf (c :: after)).length by omega)
    rw [← textOf] at hmidle hlt
    have hchain : (mid ++ [c']).IsChain (fun a b => a.1 ≠ b.1) := by
      refine @DistinctNeighbours.isChain off len chunks before mid after' c' hdistinct
        (by rw [hchunks, hmid]) (fun c₁ hc₁ => ?_) (by omega)
      obtain rfl : c = c₁ := by
        have hhead := congrArg List.head? hmid
        rw [List.head?_append, Option.mem_def.mp hc₁] at hhead
        simpa using hhead
      omega
    obtain ⟨cur₁, hmove, hc₁⟩ := (hc.moveForward hs
      (show x + nchars < off + len by omega) hmid (by omega) (by omega)).1 hchain
    obtain ⟨before', c'', after'', cur', hrun, hcur'⟩ := ih (by omega) hc₁ (by omega)
    refine ⟨before', c'', after'', cur', ?_, ?_⟩
    · rw [cursorMoves, hmove]
      exact hrun
    · rwa [List.sum_cons, ← Nat.add_assoc]

/-- A move to the second one of two neighbours that are the same cell. -/
theorem CursorAt.moveForward_same {before pre after post : List Chunk} {c c₁ c₂ : Chunk}
    (hs : ShtringAt words S s chunks off len)
    (hc : CursorAt words S chunks s off before c after cur)
    (hchunks : chunks = pre ++ c₁ :: c₂ :: post) (hlow : off < (textOf (pre ++ [c₁])).length)
    (hhigh : (textOf (pre ++ [c₁])).length < off + len) (hsame : c₁.1 = c₂.1) :
    moveForwardInPlace words cur ((textOf (pre ++ [c₁])).length - off) = none := by
  have hsplit := hc.chunks_eq
  obtain ⟨-, -, -, -, hplace, hpos, hcur, -⟩ := id hc
  have hlist : before ++ c :: after = (pre ++ [c₁]) ++ c₂ :: post := by
    rw [← hsplit, hchunks]
    simp
  rcases List.append_eq_append_iff.mp hlist with ⟨mid, hpre, hmid⟩ | ⟨rest, hbefore, -⟩
  · have hlength := congrArg (fun cs => (textOf cs).length) hpre
    simp only [textOf_append _ mid, List.length_append] at hlength
    have hne : mid ≠ [] := by
      rintro rfl
      simp only [textOf_nil, List.length_nil] at hlength
      omega
    have hlast : mid.dropLast ++ [c₁] = mid := by
      have h := congrArg List.getLast? hpre
      rw [List.getLast?_append_of_ne_nil _ hne, List.getLast?_concat,
        List.getLast?_eq_some_getLast hne] at h
      rw [Option.some.inj h]
      exact List.dropLast_append_getLast hne
    have hc₂ := (hs.chunkAt c₂ (by rw [hchunks]; simp)).pos
    refine (hc.moveForward hs (by omega) hmid (by omega) (by omega)).2 fun hchain => ?_
    rw [← hlast, List.append_assoc, List.singleton_append, List.isChain_append_cons_cons] at hchain
    exact hchain.2.1 hsame
  · have hlength := congrArg (fun cs => (textOf cs).length) hbefore
    simp only [textOf_append _ rest, List.length_append] at hlength
    omega

/-- The cursor reads the shtring if and only if the creation finds the first chunk and
no two neighbours are the same cell. -/
theorem shtring_cursor_reads (signed : Bool) (hs : ShtringAt words S s chunks off len)
    (hlen : 0 < len) :
    CursorReads signed words s ↔ CreatesRight words s ∧ DistinctNeighbours chunks off len := by
  obtain ⟨cur, c, before, after, down, hcreate, hshtring, hstack, hplace, hle, hoff, hright⟩ :=
    shtringCursorCreate_spec hs hlen
  have hjoin : (shtringCursorCreate words s).join = some cur := by
    rw [hcreate]
    rfl
  have hat : CreatesRight words s → CursorAt words S chunks s off before c after cur := fun h => by
    obtain ⟨hpos, hlt⟩ := hright.mp h
    exact ⟨0, down, hshtring, hstack, hplace, hpos, by omega, hlt⟩
  unfold CursorReads
  rw [hjoin, hs.length]
  constructor
  · intro hreads
    have hcreates : CreatesRight words s := by
      obtain ⟨cur', hrun, hon, -⟩ := hreads [] hlen
      cases Option.some.inj hrun
      have hstart := hon.start
      have hinside := hon.inside
      rw [hstack, List.tail_cons, hplace.pathStart_eq, hs.offset, hoff] at hstart
      rw [Cursor.chunk, hstack, stackNode, (hplace.chunkAt c List.mem_cons_self).length, hoff]
        at hinside
      exact hright.mpr ⟨by simp at hstart; omega, by simp at hstart; omega⟩
    refine ⟨hcreates, fun pre c₁ c₂ post hchunks hlow hhigh hsame => ?_⟩
    have hnone := (hat hcreates).moveForward_same hs hchunks hlow hhigh hsame
    obtain ⟨cur', hrun, -⟩ := hreads [(textOf (pre ++ [c₁])).length - off] (by
      rw [List.sum_singleton]
      omega)
    rw [Option.bind_some, cursorMoves, hnone] at hrun
    cases hrun
  · rintro ⟨hcreates, hdistinct⟩ moves hsum
    obtain ⟨before', c', after', cur', hrun, hcur'⟩ :=
      (hat hcreates).moves hs hdistinct (Nat.le_refl _) (Nat.add_lt_add_left hsum off)
    exact ⟨cur', hrun, hcur'.on hs, hcur'.charat signed hs hsum⟩

end runs

theorem twoChunks_distinct (off len : Nat) :
    DistinctNeighbours [(10, [0x61, 0x62]), (14, [0x63, 0x64])] off len := by
  intro pre c c' post hchunks _ _
  have hlength := congrArg List.length hchunks
  simp only [List.length_append, List.length_cons, List.length_nil] at hlength
  obtain rfl := List.eq_nil_of_length_eq_zero (show pre.length = 0 by omega)
  obtain ⟨rfl, hrest⟩ := List.cons.inj hchunks
  obtain ⟨rfl, -⟩ := List.cons.inj hrest
  decide

/-- The first word of "ab" is beyond the offset of "bc". -/
theorem twoChunks_creates : CreatesRight twoChunks.words 50 :=
  .inr ⟨20, 0, by decide, [], 10, [14], by decide, .inr (by decide), rfl, by decide⟩

/-- A cursor reads "bc" in "abcd". -/
theorem shtring_cursor_reads_bc : CursorReads true twoChunks.words 50 :=
  (shtring_cursor_reads true twoChunks_bc (by decide)).mpr
    ⟨twoChunks_creates, twoChunks_distinct _ _⟩

/-- A new cursor on "cd" in "abcd" is on the chunk "ab", past its end. -/
theorem shtring_cursor_create_cd :
    ShtringAt twoChunks.words twoChunks.Live 60 [(10, [0x61, 0x62]), (14, [0x63, 0x64])] 2 2 ∧
    shtringCursorCreate twoChunks.words 60 = some (some ⟨60, 0, 2, [⟨0, 10⟩, ⟨1, 20⟩]⟩) ∧
    ¬ CursorReads true twoChunks.words 60 := by
  have hcreate : shtringCursorCreate twoChunks.words 60 =
      some (some ⟨60, 0, 2, [⟨0, 10⟩, ⟨1, 20⟩]⟩) := by decide +kernel
  refine ⟨twoChunks_cd, hcreate, fun hreads => ?_⟩
  obtain ⟨cur, hrun, hon, -⟩ := hreads [] (by decide)
  rw [hcreate] at hrun
  cases Option.some.inj hrun
  exact absurd hon.inside (by decide)

end Shades
