import Mathlib.Data.List.Nodup
import Mathlib.Logic.Function.Basic

/-!
# Shades.Linked

Singly linked lists whose links are a function.

`Linked next stop p as` says that from `p` on one meets the nodes `as`, in this
order, before the link `stop`.  A node is met at most once, for nothing but its
link decides what comes after it.  One link may be the end of one list and inside
another: the end is a parameter, so that lists which end differently can lie in
the same nodes.
-/

namespace Shades

/-- The nodes from `p` on, in the order of the links, up to `stop`. -/
def Linked {α : Type} (next : α → α) (stop : α) : α → List α → Prop
  | p, [] => p = stop
  | p, a :: as => p = a ∧ a ≠ stop ∧ Linked next stop (next a) as

section linked

variable {α : Type} {next next' : α → α} {stop p q a : α} {as bs : List α}

@[simp] theorem linked_nil : Linked next stop p [] ↔ p = stop := Iff.rfl

@[simp] theorem linked_cons :
    Linked next stop p (a :: as) ↔ p = a ∧ a ≠ stop ∧ Linked next stop (next a) as := Iff.rfl

/-- The links of other nodes do not matter. -/
theorem Linked.congr (h : Linked next stop p as) (hnext : ∀ a ∈ as, next' a = next a) :
    Linked next' stop p as := by
  induction as generalizing p with
  | nil => exact h
  | cons a as ih =>
    obtain ⟨rfl, ha, hrest⟩ := h
    have hsame := ih hrest fun b hb => hnext b (List.mem_cons_of_mem _ hb)
    rw [← hnext p List.mem_cons_self] at hsame
    exact ⟨rfl, ha, hsame⟩

theorem Linked.ne_stop (h : Linked next stop p as) (ha : a ∈ as) : a ≠ stop := by
  induction as generalizing p with
  | nil => cases ha
  | cons b as ih =>
    obtain ⟨-, hb, hrest⟩ := h
    cases ha with
    | head => exact hb
    | tail _ ha => exact ih hrest ha

theorem Linked.unique (h : Linked next stop p as) (h' : Linked next stop p bs) : as = bs := by
  induction as generalizing p bs with
  | nil =>
    cases bs with
    | nil => rfl
    | cons b bs =>
      obtain ⟨rfl, hb, -⟩ := h'
      exact absurd h hb
  | cons a as ih =>
    obtain ⟨rfl, ha, hrest⟩ := h
    cases bs with
    | nil => exact absurd h' ha
    | cons b bs =>
      obtain ⟨rfl, -, hrest'⟩ := h'
      rw [ih hrest hrest']

/-- Behind a node of the list there is a shorter list. -/
theorem Linked.behind (h : Linked next stop p as) (ha : a ∈ as) :
    ∃ bs, Linked next stop a (a :: bs) ∧ bs.length < as.length := by
  induction as generalizing p with
  | nil => cases ha
  | cons b as ih =>
    obtain ⟨rfl, hb, hrest⟩ := h
    cases ha with
    | head => exact ⟨as, ⟨rfl, hb, hrest⟩, Nat.lt_succ_self _⟩
    | tail _ ha =>
      obtain ⟨bs, hbs, hlt⟩ := ih hrest ha
      exact ⟨bs, hbs, Nat.lt_succ_of_lt hlt⟩

theorem Linked.nodup (h : Linked next stop p as) : as.Nodup := by
  induction as generalizing p with
  | nil => exact List.nodup_nil
  | cons a as ih =>
    obtain ⟨rfl, ha, hrest⟩ := h
    refine List.nodup_cons.mpr ⟨fun hmem => ?_, ih hrest⟩
    -- the same list would be behind itself
    obtain ⟨bs, hbs, hlt⟩ := hrest.behind hmem
    have hall : Linked next stop p (p :: as) := ⟨rfl, ha, hrest⟩
    rw [(List.cons.inj (hall.unique hbs)).2] at hlt
    exact Nat.lt_irrefl _ hlt

/-- The node that one starts from. -/
theorem Linked.eq_head (h : Linked next stop p as) : p = as.headD stop := by
  cases as with
  | nil => exact h
  | cons a as => exact h.1

variable [DecidableEq α]

/-- A new node in front. -/
theorem Linked.push (h : Linked next stop p as) (hq : q ≠ stop) (hmem : q ∉ as) :
    Linked (Function.update next q p) stop q (q :: as) := by
  have hrest : Linked (Function.update next q p) stop p as :=
    h.congr fun a ha => Function.update_of_ne (ne_of_mem_of_not_mem ha hmem) _ _
  rw [linked_cons, Function.update_self]
  exact ⟨rfl, hq, hrest⟩

/-- A link that is no longer the end of its list but leads to another one. -/
theorem Linked.join {stop' : α} (h : Linked next stop p (as ++ [a])) (h' : Linked next stop' q bs)
    (hstop : ∀ b ∈ as ++ [a], b ≠ stop' ∧ b ∉ bs) :
    Linked (Function.update next a q) stop' p (as ++ a :: bs) := by
  have hnodup := h.nodup
  induction as generalizing p with
  | nil =>
    obtain ⟨hne, hmem⟩ := hstop a (List.mem_singleton_self a)
    obtain ⟨rfl, -, -⟩ := h
    exact h'.push hne hmem
  | cons b as ih =>
    obtain ⟨rfl, -, hrest⟩ := h
    obtain ⟨hne, -⟩ := hstop p List.mem_cons_self
    have hp : p ≠ a := by
      rintro rfl
      simp at hnodup
    have hjoin := ih hrest (fun b hb => hstop b (List.mem_cons_of_mem _ hb)) hrest.nodup
    rw [List.cons_append, linked_cons, Function.update_of_ne hp]
    exact ⟨rfl, hne, hjoin⟩

end linked

end Shades
