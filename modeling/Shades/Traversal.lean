import Mathlib.Data.List.Nodup
import Mathlib.Data.List.Count
import Mathlib.Data.List.Perm.Basic

/-!
# Shades.Traversal

Traversals of a graph, in whatever order.

A traversal has visited some nodes, has followed some edges and has others left.
An edge that it follows leads to a node that has been visited, or nowhere.  Before, the
node may have to be visited, and its edges are left to follow from then on.  `Traversed` is the
invariant.  In the end, when no edge is left, the nodes visited are those that can be
reached, and each of their edges has been followed once.
-/

namespace Shades

/-- The edges of each node, and where an edge leads. -/
structure EdgeGraph (α β : Type) where
  edges : α → List β
  target : β → Option α

namespace EdgeGraph

variable {α β : Type} {G : EdgeGraph α β} {roots pending done rest next : List β}
  {visited : List α} {a : α} {b : β}

/-- The nodes that can be reached from some edges. -/
inductive Reached (G : EdgeGraph α β) (roots : List β) : α → Prop
  | root {a : α} {b : β} (hb : b ∈ roots) (ha : G.target b = some a) : Reached G roots a
  | edge {a a' : α} {b : β} (h : Reached G roots a) (hb : b ∈ G.edges a)
      (ha : G.target b = some a') : Reached G roots a'

/-- A traversal from the edges `roots`.  The edges `done` have been followed, and those in
`pending` are left. -/
structure Traversed (G : EdgeGraph α β) (roots : List β) (visited : List α)
    (pending done : List β) : Prop where
  nodup : visited.Nodup
  account : (done ++ pending).Perm (roots ++ visited.flatMap G.edges)
  reached : ∀ a ∈ visited, G.Reached roots a
  closed : ∀ b ∈ done, ∀ a, G.target b = some a → a ∈ visited

theorem Traversed.start (G : EdgeGraph α β) (roots : List β) : G.Traversed roots [] roots [] where
  nodup := List.nodup_nil
  account := by simp
  reached := by simp
  closed := by simp

/-- An edge that is known is one of the roots or belongs to a node that was visited. -/
theorem Traversed.mem_or (h : G.Traversed roots visited pending done) (hb : b ∈ done ++ pending) :
    b ∈ roots ∨ ∃ a ∈ visited, b ∈ G.edges a := by
  simpa using h.account.subset hb

theorem Traversed.target_reached (h : G.Traversed roots visited pending done)
    (hb : b ∈ done ++ pending) (ha : G.target b = some a) : G.Reached roots a := by
  rcases h.mem_or hb with hb | ⟨a', ha', hb⟩
  · exact .root hb ha
  · exact .edge (h.reached a' ha') hb ha

/-- An edge is followed to a node that was visited before, or nowhere. -/
theorem Traversed.follow (h : G.Traversed roots visited pending done)
    (hpending : pending.Perm (b :: rest)) (hb : ∀ a, G.target b = some a → a ∈ visited) :
    G.Traversed roots visited rest (b :: done) where
  nodup := h.nodup
  account := by
    refine List.Perm.trans ?_ ((hpending.append_left done).symm.trans h.account)
    simpa using List.perm_middle.symm
  reached := h.reached
  closed := by
    rintro c hc a ha
    cases hc with
    | head => exact hb a ha
    | tail _ hc => exact h.closed c hc a ha

/-- A node that an edge leads to is visited. -/
theorem Traversed.enter (h : G.Traversed roots visited pending done) (hb : b ∈ done ++ pending)
    (ha : G.target b = some a) (hnew : a ∉ visited) (hnext : next.Perm (G.edges a ++ pending)) :
    G.Traversed roots (a :: visited) next done where
  nodup := List.nodup_cons.mpr ⟨hnew, h.nodup⟩
  account := by
    classical
    rw [List.perm_iff_count] at hnext ⊢
    have haccount := List.perm_iff_count.mp h.account
    intro c
    have h1 := hnext c
    have h2 := haccount c
    simp only [List.count_append, List.flatMap_cons] at h1 h2 ⊢
    omega
  reached := by
    rw [List.forall_mem_cons]
    exact ⟨h.target_reached hb ha, h.reached⟩
  closed := fun c hc a' ha' => List.mem_cons_of_mem a (h.closed c hc a' ha')

/-- Only the edges that are left count, not their order. -/
theorem Traversed.perm (h : G.Traversed roots visited pending done)
    (hnext : next.Perm pending) : G.Traversed roots visited next done where
  nodup := h.nodup
  account := (hnext.append_left done).trans h.account
  reached := h.reached
  closed := h.closed

/-- A traversal that has come to its end has visited what can be reached. -/
theorem Traversed.mem_iff (h : G.Traversed roots visited [] done) :
    a ∈ visited ↔ G.Reached roots a := by
  have hall : (roots ++ visited.flatMap G.edges).Perm done := by simpa using h.account.symm
  refine ⟨h.reached a, fun hreached => ?_⟩
  induction hreached with
  | root hb ha => exact h.closed _ (hall.subset (List.mem_append_left _ hb)) _ ha
  | edge _ hb ha ih =>
    exact h.closed _ (hall.subset (List.mem_append_right _ (List.mem_flatMap.mpr ⟨_, ih, hb⟩))) _ ha

/-- There are no more edges to follow than those of the nodes. -/
theorem Traversed.length_eq (h : G.Traversed roots visited pending done) :
    done.length + pending.length = roots.length + (visited.flatMap G.edges).length := by
  simpa only [List.length_append] using h.account.length_eq

end EdgeGraph

end Shades
