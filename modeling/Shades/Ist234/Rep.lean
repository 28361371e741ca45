import Mathlib.Data.List.Basic
import Shades.Ist234.Code
import Shades.SortedItems

/-!
# Shades.Ist234.Rep

What a 2-3-4 tree in memory means.  `IstAt rank words C d w items` says that the
word `w` is a tree of `d` levels with the `items` in order; an item is a key and
its data, and `rank` gives the keys behind the pointers.

The words of a node are sons with a key and data between any two of them.
`Sons T fields items` says that the sons stand for parts of the items, as `T`
tells, and that the keys and data are the items between these parts.  A node is
taken apart at one son, and put together again around one son or more.

`C` is the set of the cells that the trees may be made of, each with its address
and its size.
-/

namespace Shades

open Memory SortedItems

/-! ## the words of a node -/

theorem exists_three {l : List Nat} (h : 3 ≤ l.length) : ∃ a b c r, l = a :: b :: c :: r := by
  rcases l with _ | ⟨a, _ | ⟨b, _ | ⟨c, r⟩⟩⟩
  all_goals simp at h ⊢

theorem exists_four {l : List Nat} (h : l.length = 4) : ∃ a b c d, l = [a, b, c, d] := by
  obtain ⟨a, b, c, r, rfl⟩ := exists_three (by omega : 3 ≤ l.length)
  obtain ⟨d, rfl⟩ := List.length_eq_one_iff.mp (by simpa using h : r.length = 1)
  exact ⟨a, b, c, d, rfl⟩

theorem exists_seven {l : List Nat} (h : l.length = 7) :
    ∃ a b c d e f g, l = [a, b, c, d, e, f, g] := by
  obtain ⟨a, b, c, r, rfl⟩ := exists_three (by omega : 3 ≤ l.length)
  obtain ⟨d, e, f, g, rfl⟩ := exists_four (by simpa using h : r.length = 4)
  exact ⟨a, b, c, d, e, f, g, rfl⟩

variable {κ : Type} (rank : Nat → κ)

/-! ## sons, keys and data -/

/-- The item of a key and its data. -/
def item (key data : Nat) : κ × Nat := (rank (wordToPtr key), wordToPtr data)

/-- Sons, each with the key and the data after it. -/
inductive SonsBefore (T : Nat → List (κ × Nat) → Prop) : List Nat → List (κ × Nat) → Prop
  | nil : SonsBefore T [] []
  | cons {c key data : Nat} {fields : List Nat} {X P : List (κ × Nat)} (hson : T c X)
      (hrest : SonsBefore T fields P) :
      SonsBefore T (c :: key :: data :: fields) (X ++ item rank key data :: P)

/-- Sons, each with the key and the data before it. -/
inductive SonsAfter (T : Nat → List (κ × Nat) → Prop) : List Nat → List (κ × Nat) → Prop
  | nil : SonsAfter T [] []
  | cons {c key data : Nat} {fields : List Nat} {X Q : List (κ × Nat)} (hson : T c X)
      (hrest : SonsAfter T fields Q) :
      SonsAfter T (key :: data :: c :: fields) (item rank key data :: X ++ Q)

/-- The words of a node from `1` on. -/
def Sons (T : Nat → List (κ × Nat) → Prop) (fields : List Nat) (items : List (κ × Nat)) : Prop :=
  ∃ c R X Q, fields = c :: R ∧ items = X ++ Q ∧ T c X ∧ SonsAfter rank T R Q

variable {rank}

section sons

variable {T T' : Nat → List (κ × Nat) → Prop} {L L' R R' F fields : List Nat}
variable {P P' Q Q' X items : List (κ × Nat)} {c key data : Nat}

theorem SonsBefore.mono (h : SonsBefore rank T L P) (hT : ∀ c X, T c X → T' c X) :
    SonsBefore rank T' L P := by
  induction h with
  | nil => exact .nil
  | cons hson _ ih => exact .cons (hT _ _ hson) ih

theorem SonsAfter.mono (h : SonsAfter rank T R Q) (hT : ∀ c X, T c X → T' c X) :
    SonsAfter rank T' R Q := by
  induction h with
  | nil => exact .nil
  | cons hson _ ih => exact .cons (hT _ _ hson) ih

theorem Sons.mono (h : Sons rank T fields items) (hT : ∀ c X, T c X → T' c X) :
    Sons rank T' fields items := by
  obtain ⟨c, R, X, Q, rfl, rfl, hson, hrest⟩ := h
  exact ⟨c, R, X, Q, rfl, rfl, hT _ _ hson, hrest.mono hT⟩

theorem SonsBefore.append (h : SonsBefore rank T L P) (h' : SonsBefore rank T L' P') :
    SonsBefore rank T (L ++ L') (P ++ P') := by
  induction h with
  | nil => exact h'
  | cons hson _ ih =>
    rw [List.append_assoc, List.cons_append]
    exact .cons hson ih

theorem SonsAfter.append (h : SonsAfter rank T R Q) (h' : SonsAfter rank T R' Q') :
    SonsAfter rank T (R ++ R') (Q ++ Q') := by
  induction h with
  | nil => exact h'
  | cons hson _ ih =>
    rw [List.append_assoc]
    exact .cons hson ih

/-- One son. -/
theorem Sons.single (h : T c X) : Sons rank T [c] X :=
  ⟨c, [], X, [], rfl, (List.append_nil X).symm, h, .nil⟩

theorem Sons.append (h : Sons rank T F X) (h' : SonsAfter rank T R Q) :
    Sons rank T (F ++ R) (X ++ Q) := by
  obtain ⟨c, R', X', Q', rfl, rfl, hson, hrest⟩ := h
  exact ⟨c, R' ++ R, X', Q' ++ Q, rfl, List.append_assoc .., hson, hrest.append h'⟩

theorem Sons.cons (hson : T c X) (h : Sons rank T F P) :
    Sons rank T (c :: key :: data :: F) (X ++ item rank key data :: P) := by
  obtain ⟨c', R', X', Q', rfl, rfl, hson', hrest⟩ := h
  exact ⟨c, _, X, _, rfl, rfl, hson, .cons hson' hrest⟩

theorem Sons.prepend (h : SonsBefore rank T L P) (h' : Sons rank T F X) :
    Sons rank T (L ++ F) (P ++ X) := by
  induction h with
  | nil => exact h'
  | cons hson _ ih =>
    rw [List.append_assoc, List.cons_append]
    exact ih.cons hson

/-- A node is put together around some of its sons. -/
theorem Sons.around (hL : SonsBefore rank T L P) (h : Sons rank T F X)
    (hR : SonsAfter rank T R Q) : Sons rank T (L ++ F ++ R) (P ++ X ++ Q) :=
  (Sons.prepend hL h).append hR

/-- Two nodes with a key between them. -/
theorem Sons.join {G : List Nat} {Y : List (κ × Nat)} (h : Sons rank T F X)
    (h' : Sons rank T G Y) (key data : Nat) :
    Sons rank T (F ++ key :: data :: G) (X ++ item rank key data :: Y) := by
  obtain ⟨c, R', Y', Q', rfl, rfl, hson, hrest⟩ := h'
  exact h.append (.cons hson hrest)

/-- A node is taken apart at one of its sons. -/
theorem Sons.focus (h : Sons rank T (L ++ c :: R) items) (hL : L.length % 3 = 0) :
    ∃ P X Q, items = P ++ X ++ Q ∧ SonsBefore rank T L P ∧ T c X ∧ SonsAfter rank T R Q := by
  obtain ⟨n, hn⟩ : ∃ n, L.length = 3 * n := ⟨L.length / 3, by omega⟩
  induction n generalizing L items with
  | zero =>
    obtain rfl := List.length_eq_zero_iff.mp hn
    obtain ⟨c', R', X, Q, hfields, rfl, hson, hrest⟩ := h
    obtain ⟨rfl, rfl⟩ := List.cons.inj hfields
    exact ⟨[], X, Q, rfl, .nil, hson, hrest⟩
  | succ n ih =>
    obtain ⟨c', key, data, L, rfl⟩ := exists_three (by omega : 3 ≤ L.length)
    · simp only [List.length_cons] at hn hL
      obtain ⟨c'', R', X', Q', hfields, rfl, hson', hrest⟩ := h
      simp only [List.cons_append, List.cons.injEq] at hfields
      obtain ⟨rfl, rfl⟩ := hfields
      have hsons : ∃ Y, Q' = item rank key data :: Y ∧ Sons rank T (L ++ c :: R) Y := by
        obtain ⟨fields, hfields⟩ : ∃ fields, fields = L ++ c :: R := ⟨_, rfl⟩
        rw [← hfields] at hrest ⊢
        cases hrest with
        | cons hson hafter => exact ⟨_, rfl, _, _, _, _, rfl, rfl, hson, hafter⟩
      obtain ⟨Y, rfl, hY⟩ := hsons
      obtain ⟨P, X, Q, rfl, hbefore, hson, hafter⟩ := ih hY (by omega) (by omega)
      exact ⟨_, X, Q, by simp, .cons hson' hbefore, hson, hafter⟩

/-- The numbers of words. -/
theorem SonsAfter.length (h : SonsAfter rank T R Q) : R.length % 3 = 0 := by
  induction h with
  | nil => rfl
  | cons _ _ ih =>
    simp only [List.length_cons]
    omega

theorem SonsBefore.length (h : SonsBefore rank T L P) : L.length % 3 = 0 := by
  induction h with
  | nil => rfl
  | cons _ _ ih =>
    simp only [List.length_cons]
    omega

/-- A key goes with every son but one. -/
theorem SonsBefore.eq_nil (h : SonsBefore rank T L []) : L = [] := by
  generalize hP : ([] : List (κ × Nat)) = P at h
  cases h with
  | nil => rfl
  | cons hson hrest => simp at hP

theorem SonsAfter.eq_nil (h : SonsAfter rank T R []) : R = [] := by
  generalize hQ : ([] : List (κ × Nat)) = Q at h
  cases h with
  | nil => rfl
  | cons hson hrest => simp at hQ

theorem Sons.uncons (h : Sons rank T (c :: R) items) :
    ∃ X Q, items = X ++ Q ∧ T c X ∧ SonsAfter rank T R Q := by
  obtain ⟨c', R', X, Q, hfields, rfl, hson, hrest⟩ := h
  obtain ⟨rfl, rfl⟩ := List.cons.inj hfields
  exact ⟨X, Q, rfl, hson, hrest⟩

/-- A node is taken apart at its first key. -/
theorem Sons.split {c kw d : Nat} {G : List Nat} (h : Sons rank T (c :: kw :: d :: G) items) :
    ∃ X Y, items = X ++ item rank kw d :: Y ∧ T c X ∧ Sons rank T G Y := by
  obtain ⟨X, Q, rfl, hson, hrest⟩ := h.uncons
  cases hrest with
  | cons hson' hrest' => exact ⟨X, _, rfl, hson, _, _, _, _, rfl, rfl, hson', hrest'⟩

/-- A node is taken apart at one of its keys. -/
theorem Sons.cut {G : List Nat} {kw dw : Nat} (h : Sons rank T (F ++ kw :: dw :: G) items)
    (hF : F.length % 3 = 1) :
    ∃ X Y, items = X ++ item rank kw dw :: Y ∧ Sons rank T F X ∧ Sons rank T G Y := by
  obtain ⟨L, c, rfl⟩ : ∃ L c, F = L ++ [c] := by
    rcases List.eq_nil_or_concat F with rfl | ⟨L, c, rfl⟩
    · simp at hF
    · exact ⟨L, c, by simp⟩
  rw [List.append_assoc, List.singleton_append] at h
  rw [List.length_append, List.length_singleton] at hF
  obtain ⟨P, X, Q, rfl, hL, hc, hR⟩ := h.focus (by omega)
  cases hR with
  | @cons c' _ _ R Y Q hc' hR =>
    exact ⟨P ++ X, Y ++ Q, by simp, Sons.prepend hL (.single hc), _, _, _, _, rfl, rfl, hc', hR⟩

/-- A node as the right part of another one. -/
theorem Sons.after {G : List Nat} {Y : List (κ × Nat)} (h : Sons rank T G Y) (kw dw : Nat) :
    SonsAfter rank T (kw :: dw :: G) (item rank kw dw :: Y) := by
  obtain ⟨c, R, X, Q, rfl, rfl, hson, hrest⟩ := h
  exact .cons hson hrest

/-- A node as the left part of another one. -/
theorem Sons.before (h : Sons rank T F X) (kw dw : Nat) :
    SonsBefore rank T (F ++ [kw, dw]) (X ++ [item rank kw dw]) := by
  obtain ⟨c, R, X, Q, rfl, rfl, hson, hrest⟩ := h
  induction hrest generalizing c X with
  | nil =>
    rw [List.append_nil]
    exact .cons hson .nil
  | @cons c' kw' dw' R X' Q' hson' _ ih =>
    rw [List.append_assoc]
    exact .cons hson (ih c' X' hson')

/-- The last son before a place. -/
theorem SonsBefore.unsnoc (h : SonsBefore rank T L P) (hne : L ≠ []) :
    ∃ L' c kw dw P' X, L = L' ++ [c, kw, dw] ∧ P = P' ++ (X ++ [item rank kw dw]) ∧
      SonsBefore rank T L' P' ∧ T c X := by
  induction h with
  | nil => exact absurd rfl hne
  | @cons c kw dw L X P hson hrest ih =>
    by_cases hL : L = []
    · subst hL
      cases hrest
      exact ⟨[], c, kw, dw, [], X, rfl, rfl, .nil, hson⟩
    · obtain ⟨L', c', kw', dw', P', X', rfl, rfl, hbefore, hlast⟩ := ih hL
      exact ⟨c :: kw :: dw :: L', c', kw', dw', X ++ item rank kw dw :: P', X', rfl, by simp,
        .cons hson hbefore, hlast⟩

/-- The sons of a node without levels below it. -/
theorem Sons.eq_null (h : Sons rank T fields items) (hT : ∀ c X, T c X → c = nullWord) (i : Nat) :
    fields[3 * i]?.getD nullWord = nullWord := by
  obtain ⟨c, R, X, Q, rfl, rfl, hson, hrest⟩ := h
  induction hrest generalizing c X i with
  | nil =>
    cases i with
    | zero => simpa using hT c X hson
    | succ i => simp [Nat.mul_succ]
  | @cons c' kw dw R X' Q hson' _ ih =>
    cases i with
    | zero => simpa using hT c X hson
    | succ i => simpa [Nat.mul_succ] using ih i c' X' hson'

end sons

/-! ## nodes -/

/-- A node in a cell of `C`. -/
structure IstNode (words : Nat → Nat) (C : Nat → Nat → Prop) (p : Nat) (fields : List Nat) :
    Prop where
  ne_null : p ≠ nullPtr
  length : fields.length = 4 ∨ fields.length = 7 ∨ fields.length = 10
  header : words p = CellType.ist234.header + (fields.length + 2) / 3
  fields_eq : slice words (p + 1) fields.length = fields
  cell : C p (fields.length + 1)

variable {words words' : Nat → Nat} {C C' : Nat → Nat → Prop} {p : Nat} {fields : List Nat}

theorem IstNode.frame (h : IstNode words C p fields) (hC : ∀ q n, C q n → C' q n)
    (hw : ∀ i ≤ fields.length, words' (p + i) = words (p + i)) : IstNode words' C' p fields where
  ne_null := h.ne_null
  length := h.length
  header := (hw 0 (Nat.zero_le _)).trans h.header
  fields_eq := by
    have hslice : slice words' (p + 1) fields.length = slice words (p + 1) fields.length := by
      refine slice_congr fun i hi => ?_
      rw [Nat.add_assoc]
      exact hw (1 + i) (by omega)
    rw [hslice, h.fields_eq]
  cell := hC _ _ h.cell

theorem IstNode.nodeType_eq (h : IstNode words C p fields) :
    nodeType words p = (fields.length + 2) / 3 := by
  unfold nodeType
  rw [h.header]
  rcases h.length with hlen | hlen | hlen
  all_goals
    rw [hlen]
    decide

theorem IstNode.cellType_eq (h : IstNode words C p fields) :
    cellType (words p) = CellType.ist234.code := by
  rw [h.header]
  rcases h.length with hlen | hlen | hlen
  all_goals
    rw [hlen]
    decide

/-- A word of a node. -/
theorem IstNode.word {L R : List Nat} {c : Nat} (h : IstNode words C p (L ++ c :: R)) :
    words (p + (L.length + 1)) = c := by
  have hfields := h.fields_eq
  rw [List.length_append, List.length_cons, slice_add, slice] at hfields
  have hdrop := congrArg (fun l => l[L.length]?) hfields
  simpa [Nat.add_comm, Nat.add_left_comm] using hdrop

theorem IstNode.get (h : IstNode words C p fields) {i : Nat} (hi : i < fields.length) :
    words (p + (i + 1)) = fields[i]?.getD nullWord := by
  have hsplit : fields = fields.take i ++ fields[i] :: fields.drop (i + 1) := by simp
  rw [hsplit] at h
  have hword := h.word
  rw [List.length_take, Nat.min_eq_left (by omega)] at hword
  rw [hword]
  simp [hi]

/-! ## trees -/

variable (rank)

/-- A tree of `d` levels. -/
def IstAt (words : Nat → Nat) (C : Nat → Nat → Prop) : Nat → Nat → List (κ × Nat) → Prop
  | 0, w, items => w = nullWord ∧ items = []
  | d + 1, w, items => ∃ p fields, w = ptrToWord p ∧ IstNode words C p fields ∧
      Sons rank (IstAt words C d) fields items

variable {rank}

/-- The words of the cells. -/
def Region (C : Nat → Nat → Prop) (a : Nat) : Prop := ∃ p n, C p n ∧ p ≤ a ∧ a < p + n

theorem IstAt.frame {d w : Nat} {items : List (κ × Nat)} (h : IstAt rank words C d w items)
    (hC : ∀ q n, C q n → C' q n) (hw : AgreeOn (Region C) words words') :
    IstAt rank words' C' d w items := by
  induction d generalizing w items with
  | zero => exact h
  | succ d ih =>
    obtain ⟨p, fields, rfl, hnode, hsons⟩ := h
    refine ⟨p, fields, rfl, hnode.frame hC fun i hi => ?_, hsons.mono fun c X hc => ih hc⟩
    exact hw _ ⟨p, _, hnode.cell, by omega, by omega⟩

/-- The root of a tree. -/
theorem IstAt.root {d p : Nat} {items : List (κ × Nat)}
    (h : IstAt rank words C (d + 1) (ptrToWord p) items) :
    ∃ fields, IstNode words C p fields ∧ Sons rank (IstAt rank words C d) fields items := by
  obtain ⟨q, fields, hpq, hnode, hsons⟩ := h
  obtain rfl : p = q := by simpa [ptrToWord] using hpq
  exact ⟨fields, hnode, hsons⟩

theorem IstAt.pointer {d w : Nat} {items : List (κ × Nat)} (h : IstAt rank words C d w items) :
    ∃ q, w = ptrToWord q := by
  cases d with
  | zero => exact ⟨nullPtr, h.1⟩
  | succ d =>
    obtain ⟨p, fields, rfl, -⟩ := h
    exact ⟨p, rfl⟩

/-- Only a tree without levels is null. -/
theorem IstAt.null_iff {d w : Nat} {items : List (κ × Nat)} (h : IstAt rank words C d w items) :
    w = nullWord ↔ d = 0 := by
  cases d with
  | zero => exact ⟨fun _ => rfl, fun _ => h.1⟩
  | succ d =>
    obtain ⟨p, fields, rfl, hnode, -⟩ := h
    simpa [nullWord, nullPtr] using hnode.ne_null

theorem Sons.ne_nil {T : Nat → List (κ × Nat) → Prop} {fields : List Nat}
    {items : List (κ × Nat)} (h : Sons rank T fields items) (hlen : 1 < fields.length) :
    items ≠ [] := by
  obtain ⟨c, R, X, Q, rfl, rfl, hson, hrest⟩ := h
  cases hrest with
  | nil => simp at hlen
  | cons hson hrest => simp

theorem IstAt.ne_nil {d w : Nat} {items : List (κ × Nat)}
    (h : IstAt rank words C (d + 1) w items) : items ≠ [] := by
  obtain ⟨p, fields, rfl, hnode, hsons⟩ := h
  exact hsons.ne_nil (by have := hnode.length; omega)

end Shades
