import Mathlib.Logic.Relation

/-!
# Shades.Persistent

Persistent structures.  A store holds many versions of a structure at the same
time; each version is known by its root and stands for an abstract value.  A
call takes any version and adds a new one, and the versions that were there
before still stand for their values.

The module is about any store and any structure.  `Call s v s' v'` says that a
call on the version `v` of the store `s` may give the version `v'` and the store
`s'`; `Grows s s'` says that the store was only added to.  Where the store is
compacted, `Moves s v s' v'` says that the version `v` of `s` has become `v'` in `s'`.
-/

namespace Persistent

/-- A root and the value that it stands for. -/
structure Version (ρ α : Type) where
  root : ρ
  value : α

/-- A store with all versions made so far, the latest first. -/
structure History (σ ρ α : Type) where
  store : σ
  versions : List (Version ρ α)

section runs

variable {σ ρ α : Type} (Grows : σ → σ → Prop)
  (Call : σ → Version ρ α → σ → Version ρ α → Prop)

/-- A call on any version of a history, or anything else that adds to the
store. -/
inductive Step : History σ ρ α → History σ ρ α → Prop
  | call {h : History σ ρ α} {v v' : Version ρ α} {s' : σ} (hv : v ∈ h.versions)
      (hcall : Call h.store v s' v') : Step h ⟨s', v' :: h.versions⟩
  | other {h : History σ ρ α} {s' : σ} (hgrows : Grows h.store s') : Step h ⟨s', h.versions⟩

/-- The histories that start with the versions `vs` in the store `s`. -/
def Run (s : σ) (vs : List (Version ρ α)) (h : History σ ρ α) : Prop :=
  Relation.ReflTransGen (Step Grows Call) ⟨s, vs⟩ h

variable (Holds : σ → Version ρ α → Prop)

/-- Every version of the history stands for its value. -/
def History.Sound (h : History σ ρ α) : Prop := ∀ v ∈ h.versions, Holds h.store v

/-- A representation is kept by everything a step can do: what is added to the
store leaves it alone, and a call adds to the store and makes a new version
that stands for its value. -/
structure Preserved : Prop where
  frame : ∀ {s s' : σ} {v : Version ρ α}, Grows s s' → Holds s v → Holds s' v
  call : ∀ {s s' : σ} {v v' : Version ρ α}, Call s v s' v' → Holds s v →
    Grows s s' ∧ Holds s' v'

variable {Grows Call Holds}

/-- What one step preserves. -/
theorem Preserved.step (hp : Preserved Grows Call Holds) {h h' : History σ ρ α}
    (hs : h.Sound Holds) (hstep : Step Grows Call h h') : h'.Sound Holds := by
  cases hstep with
  | call hv hcall =>
    obtain ⟨hgrows, hnew⟩ := hp.call hcall (hs _ hv)
    intro w hw
    rcases List.mem_cons.mp hw with rfl | hw
    · exact hnew
    · exact hp.frame hgrows (hs w hw)
  | other hgrows => exact fun w hw => hp.frame hgrows (hs w hw)

/-- What a whole run preserves. -/
theorem Preserved.run (hp : Preserved Grows Call Holds) {s : σ} {vs : List (Version ρ α)}
    {h : History σ ρ α} (hrun : Run Grows Call s vs h) (hs : ∀ v ∈ vs, Holds s v) :
    h.Sound Holds := by
  unfold Run at hrun
  induction hrun with
  | refl => exact hs
  | tail _ hstep ih => exact hp.step ih hstep

/-- The calls `ks` one after the other, each on the version that was made last. -/
def History.callAll {κ : Type} (call : κ → σ → ρ → Option (ρ × σ)) (value : κ → α → α) :
    List κ → History σ ρ α → Option (History σ ρ α)
  | [], h => some h
  | k :: ks, h => do
    let v ← h.versions.head?
    let (root, s) ← call k h.store v.root
    callAll call value ks ⟨s, ⟨root, value k v.value⟩ :: h.versions⟩

/-- They are a run if each of them is a call. -/
theorem Run.callAll {κ : Type} {call : κ → σ → ρ → Option (ρ × σ)} {value : κ → α → α} {s : σ}
    {vs : List (Version ρ α)} {ks : List κ} {h h' : History σ ρ α}
    (hcall : ∀ {k s v root s'}, call k s v.root = some (root, s') →
      Call s v s' ⟨root, value k v.value⟩)
    (hrun : Run Grows Call s vs h) (hall : h.callAll call value ks = some h') :
    Run Grows Call s vs h' := by
  induction ks generalizing h with
  | nil =>
    obtain rfl := Option.some.inj hall
    exact hrun
  | cons k ks ih =>
    obtain ⟨v, hv, hall⟩ := Option.bind_eq_some_iff.mp hall
    obtain ⟨⟨root, t⟩, hk, hall⟩ := Option.bind_eq_some_iff.mp hall
    exact ih (hrun.tail (.call (List.mem_of_head? hv) (hcall hk))) hall

end runs

section moving

variable {σ ρ α : Type} (Grows : σ → σ → Prop)
  (Call Moves : σ → Version ρ α → σ → Version ρ α → Prop)

/-- A step of a history, or one that puts its versions elsewhere and may forget some of
them. -/
inductive MovingStep : History σ ρ α → History σ ρ α → Prop
  | step {h h' : History σ ρ α} (hstep : Step Grows Call h h') : MovingStep h h'
  | move {h : History σ ρ α} {s' : σ} {vs : List (Version ρ α)}
      (hmoves : ∀ v' ∈ vs, ∃ v ∈ h.versions, Moves h.store v s' v') : MovingStep h ⟨s', vs⟩

/-- The histories that start with the versions `vs` in the store `s`, in which the versions
may be moved. -/
def MovingRun (s : σ) (vs : List (Version ρ α)) (h : History σ ρ α) : Prop :=
  Relation.ReflTransGen (MovingStep Grows Call Moves) ⟨s, vs⟩ h

variable {Grows Call Moves} {Holds : σ → Version ρ α → Prop}

/-- What a run preserves when a moved version stands for its value. -/
theorem Preserved.movingRun (hp : Preserved Grows Call Holds)
    (hmove : ∀ {s s' : σ} {v v' : Version ρ α}, Moves s v s' v' → Holds s v → Holds s' v')
    {s : σ} {vs : List (Version ρ α)} {h : History σ ρ α} (hrun : MovingRun Grows Call Moves s vs h)
    (hs : ∀ v ∈ vs, Holds s v) : h.Sound Holds := by
  unfold MovingRun at hrun
  induction hrun with
  | refl => exact hs
  | tail _ hstep ih =>
    cases hstep with
    | step hstep => exact hp.step ih hstep
    | move hmoves =>
      intro v' hv'
      obtain ⟨v, hv, hmoved⟩ := hmoves v' hv'
      exact hmove hmoved (ih v hv)

end moving

end Persistent
