import Mathlib.Data.List.Chain
import Mathlib.Data.List.Nodup
import Shades.Linked

/-!
# Shades.DoublyLinked

Doubly linked lists whose links are two functions.

`DoublyLinked next prev stop q p as r` says that from `p` on one meets the nodes
`as` before one comes to `r`, and that the links back lead the same way, from the
first node to `q`.  So a list can be cut anywhere, and a part of it keeps being a
part when only the links at its two ends change.
-/

namespace Shades

/-- The nodes from `p` on up to the link `r`, and from the first one back to `q`. -/
def DoublyLinked {α : Type} (next prev : α → α) (stop : α) : α → α → List α → α → Prop
  | _, p, [], r => p = r
  | q, p, a :: as, r => p = a ∧ a ≠ stop ∧ prev a = q ∧ DoublyLinked next prev stop a (next a) as r

section doublyLinked

variable {α : Type} {next prev next' prev' : α → α} {stop q p r a b : α} {as bs : List α}

@[simp] theorem doublyLinked_nil : DoublyLinked next prev stop q p [] r ↔ p = r := Iff.rfl

@[simp] theorem doublyLinked_cons : DoublyLinked next prev stop q p (a :: as) r ↔
    p = a ∧ a ≠ stop ∧ prev a = q ∧ DoublyLinked next prev stop a (next a) as r := Iff.rfl

/-- Forward it is a list. -/
theorem DoublyLinked.linked (h : DoublyLinked next prev stop q p as stop) :
    Linked next stop p as := by
  induction as generalizing q p with
  | nil => exact h
  | cons a as ih =>
    obtain ⟨rfl, hne, -, hrest⟩ := h
    exact ⟨rfl, hne, ih hrest⟩

theorem DoublyLinked.nodup (h : DoublyLinked next prev stop q p as stop) : as.Nodup :=
  h.linked.nodup

theorem DoublyLinked.ne_stop (h : DoublyLinked next prev stop q p as stop) (ha : a ∈ as) :
    a ≠ stop :=
  h.linked.ne_stop ha

/-- The node that one starts from. -/
theorem DoublyLinked.eq_head (h : DoublyLinked next prev stop q p as r) : p = as.headD r := by
  cases as with
  | nil => exact h
  | cons a as => exact h.1

/-- A list is cut. -/
theorem doublyLinked_append : DoublyLinked next prev stop q p (as ++ bs) r ↔
    DoublyLinked next prev stop q p as (bs.headD r) ∧
      DoublyLinked next prev stop (as.getLastD q) (bs.headD r) bs r := by
  induction as generalizing q p with
  | nil =>
    constructor
    · intro h
      rw [List.nil_append] at h
      rw [← h.eq_head]
      exact ⟨rfl, h⟩
    · rintro ⟨rfl, h⟩
      exact h
  | cons a as ih =>
    rw [List.cons_append, doublyLinked_cons, doublyLinked_cons, ih, List.getLastD_cons]
    simp only [and_assoc]

/-- The links of other nodes do not matter. -/
theorem DoublyLinked.congr (h : DoublyLinked next prev stop q p as r)
    (hnext : ∀ a ∈ as, next' a = next a) (hprev : ∀ a ∈ as, prev' a = prev a) :
    DoublyLinked next' prev' stop q p as r := by
  induction as generalizing q p with
  | nil => exact h
  | cons a as ih =>
    obtain ⟨rfl, hne, rfl, hrest⟩ := h
    have hsame := ih hrest (fun b hb => hnext b (List.mem_cons_of_mem _ hb))
      fun b hb => hprev b (List.mem_cons_of_mem _ hb)
    rw [← hnext p List.mem_cons_self] at hsame
    exact ⟨rfl, hne, hprev p List.mem_cons_self, hsame⟩

theorem DoublyLinked.next_eq (h : DoublyLinked next prev stop q p (as ++ a :: bs) r) :
    next a = bs.headD r :=
  (doublyLinked_append.mp h).2.2.2.2.eq_head

theorem DoublyLinked.prev_eq (h : DoublyLinked next prev stop q p (as ++ a :: bs) r) :
    prev a = as.getLastD q :=
  (doublyLinked_append.mp h).2.2.2.1

/-- Each node of a part of the list leads to the next one. -/
theorem DoublyLinked.isChain (h : DoublyLinked next prev stop q p as r) :
    as.IsChain fun a b => next a = b := by
  induction as generalizing p q with
  | nil => exact .nil
  | cons a as ih =>
    obtain ⟨-, -, -, hrest⟩ := doublyLinked_cons.mp h
    refine List.isChain_cons.mpr ⟨fun b hb => ?_, ih hrest⟩
    rw [hrest.eq_head, List.headD_eq_head?_getD, Option.mem_def.mp hb, Option.getD_some]

/-- Only the link of the last node changes. -/
theorem DoublyLinked.relast {r' : α} (h : DoublyLinked next prev stop q p as r)
    (hnodup : as.Nodup) (hnext : ∀ b ∈ as, b ∉ as.getLast? → next' b = next b)
    (hlast : ∀ b ∈ as.getLast?, next' b = r') (hprev : ∀ b ∈ as, prev' b = prev b) :
    DoublyLinked next' prev' stop q (as.headD r') as r' := by
  induction as generalizing q p with
  | nil => rfl
  | cons a as ih =>
    obtain ⟨rfl, hne, rfl, hrest⟩ := h
    refine ⟨rfl, hne, hprev p List.mem_cons_self, ?_⟩
    cases as with
    | nil => exact hlast p rfl
    | cons b as =>
      obtain ⟨hmem, hnodup⟩ := List.nodup_cons.mp hnodup
      have htail := ih hrest hnodup
        (fun c hc hc' => hnext c (List.mem_cons_of_mem _ hc) (by simpa using hc'))
        (fun c hc => hlast c (by simpa using hc)) fun c hc => hprev c (List.mem_cons_of_mem _ hc)
      have hp : next' p = next p := hnext p List.mem_cons_self fun hlast => by
        rw [List.getLast?_cons_cons] at hlast
        exact hmem (List.mem_of_getLast? hlast)
      rw [hp, hrest.1]
      exact htail

/-- Only the link back of the first node changes. -/
theorem DoublyLinked.rehead {q' : α} (h : DoublyLinked next prev stop q p as r)
    (hnodup : as.Nodup) (hnext : ∀ b ∈ as, next' b = next b)
    (hprev : ∀ b ∈ as, b ∉ as.head? → prev' b = prev b) (hhead : ∀ b ∈ as.head?, prev' b = q') :
    DoublyLinked next' prev' stop q' p as r := by
  cases as with
  | nil => exact h
  | cons a as =>
    obtain ⟨rfl, hne, -, hrest⟩ := h
    obtain ⟨hmem, -⟩ := List.nodup_cons.mp hnodup
    refine ⟨rfl, hne, hhead p rfl, ?_⟩
    rw [hnext p List.mem_cons_self]
    refine hrest.congr (fun b hb => hnext b (List.mem_cons_of_mem _ hb)) fun b hb => ?_
    refine hprev b (List.mem_cons_of_mem _ hb) fun hhead => ?_
    rw [List.head?_cons, Option.mem_some_iff] at hhead
    exact hmem (hhead ▸ hb)

/-- A node comes between two parts of a list. -/
theorem DoublyLinked.insert (h : DoublyLinked next prev stop stop p (as ++ bs) stop)
    (hne : a ≠ stop)
    (hnext : ∀ b ∈ as ++ bs, b ∉ as.getLast? → next' b = next b)
    (hprev : ∀ b ∈ as ++ bs, b ∉ bs.head? → prev' b = prev b)
    (hlast : ∀ b ∈ as.getLast?, next' b = a) (hhead : ∀ b ∈ bs.head?, prev' b = a)
    (ha : next' a = bs.headD stop) (ha' : prev' a = as.getLastD stop) :
    DoublyLinked next' prev' stop stop ((as ++ a :: bs).headD stop) (as ++ a :: bs) stop := by
  obtain ⟨hnodupAs, hnodupBs, hdisjoint⟩ := List.nodup_append'.mp h.nodup
  obtain ⟨has, hbs⟩ := doublyLinked_append.mp h
  rw [doublyLinked_append]
  refine ⟨?_, rfl, hne, ha', ?_⟩
  · have hfirst := has.relast hnodupAs (fun b hb => hnext b (List.mem_append_left _ hb)) hlast
      fun b hb => hprev b (List.mem_append_left _ hb) fun hhead =>
        hdisjoint hb (List.mem_of_mem_head? hhead)
    cases as with
    | nil => rfl
    | cons b as => exact hfirst
  · rw [ha]
    exact hbs.rehead hnodupBs (fun b hb => hnext b (List.mem_append_right _ hb) fun hlast =>
      hdisjoint (List.mem_of_getLast? hlast) hb)
      (fun b hb => hprev b (List.mem_append_right _ hb)) hhead

/-- A node is taken out of a list. -/
theorem DoublyLinked.remove (h : DoublyLinked next prev stop stop p (as ++ a :: bs) stop)
    (hnext : ∀ b ∈ as ++ bs, b ∉ as.getLast? → next' b = next b)
    (hprev : ∀ b ∈ as ++ bs, b ∉ bs.head? → prev' b = prev b)
    (hlast : ∀ b ∈ as.getLast?, next' b = next a) (hhead : ∀ b ∈ bs.head?, prev' b = prev a) :
    DoublyLinked next' prev' stop stop ((as ++ bs).headD stop) (as ++ bs) stop := by
  obtain ⟨hnodupAs, hnodupBs, hdisjoint⟩ :=
    List.nodup_append'.mp (List.nodup_middle.mp h.nodup).of_cons
  have hnextA := h.next_eq
  have hprevA := h.prev_eq
  obtain ⟨has, -, -, -, hbs⟩ := doublyLinked_append.mp h
  rw [hnextA] at hlast hbs
  rw [hprevA] at hhead
  rw [doublyLinked_append]
  refine ⟨?_, hbs.rehead hnodupBs (fun b hb => hnext b (List.mem_append_right _ hb) fun hlast =>
    hdisjoint (List.mem_of_getLast? hlast) hb)
    (fun b hb => hprev b (List.mem_append_right _ hb)) hhead⟩
  have hfirst := has.relast hnodupAs (fun b hb => hnext b (List.mem_append_left _ hb)) hlast
    fun b hb => hprev b (List.mem_append_left _ hb) fun hhead =>
      hdisjoint hb (List.mem_of_mem_head? hhead)
  cases as with
  | nil => rfl
  | cons b as => exact hfirst

end doublyLinked

end Shades
