import Shades.CellDecls

/-!
# Shades.CellEqual

`cell_is_equal` of `cells.c` and the structural equality of cells.

The comparison goes through the declarations of a cell and returns 0 at the
first difference.  It also returns 0 at the end, where none was found, so that
only the same cell is ever equal.
-/

namespace Shades

/-! ## the comparison -/

/-- Compare the declared words of the cells at `p` and `q`, in order, up to the
first difference. -/
def declsEqual (same : WordType → Nat → Nat → Option Bool) (words : Nat → Nat) (p q : Nat) :
    List Decl → Option Bool
  | [] => some true
  | .abort :: _ => none
  | .field type i :: decls => do
    if ← same type (words (p + i)) (words (q + i)) then declsEqual same words p q decls
    else some false

/-- The comparison of two words: pointers by the cells behind them. -/
def wordsEqual (cells : Nat → Nat → Option Bool) (type : WordType) (x y : Nat) : Option Bool :=
  match type with
  | .word => some (x == y)
  | .ptr | .nonnullPtr => cells (wordToPtr x) (wordToPtr y)
  | .tagged =>
    if x &&& 0x3 ≠ y &&& 0x3 then some false
    else if taggedIsPtr x then cells (wordToPtr x) (wordToPtr y)
    else some (x == y)
  | .void => some true

/-- `cell_is_equal`.  The first argument bounds the depth of the recursion. -/
def cellIsEqual (words : Nat → Nat) : Nat → Nat → Nat → Option Bool
  | 0, _, _ => none
  | fuel + 1, p, q =>
    if p = q then some true
    else if p = nullPtr ∨ q = nullPtr then some false
    else if words p ≠ words q then some false
    else do
      let agree ← declsEqual (wordsEqual (cellIsEqual words fuel)) words p q (cellDecls words p)
      -- `return 0` stands where a difference is found, and again behind the switch.
      if agree then some false else some false

/-! ## structural equality -/

/-- The pointers that a word of a type holds. -/
inductive PointsTo : WordType → Nat → Nat → Prop
  | ptr {x : Nat} : PointsTo .ptr x (wordToPtr x)
  | nonnullPtr {x : Nat} : PointsTo .nonnullPtr x (wordToPtr x)
  | tagged {x : Nat} (hx : taggedIsPtr x = true) : PointsTo .tagged x (wordToPtr x)

/-- Words of these types may be pointers. -/
def WordType.points : WordType → Bool
  | .ptr | .nonnullPtr | .tagged => true
  | .word | .void => false

theorem pointsTo_ptrToWord {type : WordType} (htype : type.points = true) (p : Nat) :
    PointsTo type (ptrToWord p) p := by
  have h : PointsTo type (ptrToWord p) (wordToPtr (ptrToWord p)) := by
    cases type with
    | ptr => exact .ptr
    | nonnullPtr => exact .nonnullPtr
    | tagged => exact .tagged (taggedIsPtr_ptrToWord p)
    | word | void => cases htype
  rwa [wordToPtr_ptrToWord] at h

/-- A word holds one pointer at most. -/
theorem PointsTo.unique {type : WordType} {x son son' : Nat} (h : PointsTo type x son)
    (h' : PointsTo type x son') : son = son' := by
  cases h <;> cases h' <;> rfl

/-- A graph of cells without cycles, and with types that blocks know. -/
inductive CellGraph (words : Nat → Nat) : Nat → Prop
  | null : CellGraph words nullPtr
  | cell {p : Nat} (hp : p ≠ nullPtr) (hdecls : Decl.abort ∉ cellDecls words p)
      (hsons : ∀ type i son, Decl.field type i ∈ cellDecls words p →
        PointsTo type (words (p + i)) son → CellGraph words son) : CellGraph words p

/-- Cells with the same first word, whose declared words are the same, but for
pointers, which lead to equal cells again. -/
inductive CellEq (words : Nat → Nat) : Nat → Nat → Prop
  | null : CellEq words nullPtr nullPtr
  | cell {p q : Nat} (hp : p ≠ nullPtr) (hq : q ≠ nullPtr) (hheader : words p = words q)
      (hwords : ∀ type i, Decl.field type i ∈ cellDecls words p →
        (∀ son, ¬ PointsTo type (words (p + i)) son) → words (p + i) = words (q + i))
      (htags : ∀ type i son, Decl.field type i ∈ cellDecls words p →
        PointsTo type (words (p + i)) son → ∃ son', PointsTo type (words (q + i)) son')
      (hsons : ∀ type i son son', Decl.field type i ∈ cellDecls words p →
        PointsTo type (words (p + i)) son → PointsTo type (words (q + i)) son' →
        CellEq words son son') : CellEq words p q

variable {words : Nat → Nat}

/-- A graph is equal to itself. -/
theorem CellEq.refl {p : Nat} (hp : CellGraph words p) : CellEq words p p := by
  induction hp with
  | null => exact .null
  | cell hp hdecls hsons ih =>
    refine .cell hp hp rfl (fun _ _ _ _ => rfl) (fun _ _ son _ h => ⟨son, h⟩) ?_
    intro type i son son' hmem hson hson'
    exact hson.unique hson' ▸ ih type i son hmem hson

/-! ## the comparison returns -/

/-- Where every declared word is compared with some result, the comparison of
the cells returns. -/
theorem declsEqual_returns {same : WordType → Nat → Nat → Option Bool} {p q : Nat}
    {decls : List Decl} (habort : Decl.abort ∉ decls)
    (hsame : ∀ type i, Decl.field type i ∈ decls →
      ∃ b, same type (words (p + i)) (words (q + i)) = some b) :
    ∃ b, declsEqual same words p q decls = some b := by
  induction decls with
  | nil => exact ⟨true, rfl⟩
  | cons d decls ih =>
    rw [List.mem_cons, not_or] at habort
    cases d with
    | abort => exact absurd rfl habort.1
    | field type i =>
      obtain ⟨b, hb⟩ := hsame type i List.mem_cons_self
      obtain ⟨b', hb'⟩ := ih habort.2 fun type i hmem =>
        hsame type i (List.mem_cons_of_mem _ hmem)
      cases b with
      | true => exact ⟨b', by simpa [declsEqual, hb] using hb'⟩
      | false => exact ⟨false, by simp [declsEqual, hb]⟩

/-- One bound serves all the members of a list. -/
theorem exists_common_bound {α : Type} {P : α → Nat → Prop} (l : List α)
    (h : ∀ a ∈ l, ∃ n, ∀ k ≥ n, P a k) : ∃ n, ∀ k ≥ n, ∀ a ∈ l, P a k := by
  induction l with
  | nil => exact ⟨0, fun _ _ a ha => absurd ha List.not_mem_nil⟩
  | cons a l ih =>
    obtain ⟨n, hn⟩ := h a List.mem_cons_self
    obtain ⟨n', hn'⟩ := ih fun b hb => h b (List.mem_cons_of_mem a hb)
    refine ⟨max n n', fun k hk b hb => ?_⟩
    rcases List.mem_cons.mp hb with rfl | hb
    · exact hn k (le_trans (le_max_left n n') hk)
    · exact hn' k (le_trans (le_max_right n n') hk) b hb

/-- Two words are compared with some result when the pointers in the first one
are. -/
theorem wordsEqual_returns {cells : Nat → Nat → Option Bool} {type : WordType} {x : Nat}
    (hcells : ∀ son, PointsTo type x son → ∀ q, ∃ b, cells son q = some b) (y : Nat) :
    ∃ b, wordsEqual cells type x y = some b := by
  cases type with
  | word => exact ⟨_, rfl⟩
  | void => exact ⟨_, rfl⟩
  | ptr => exact hcells _ .ptr _
  | nonnullPtr => exact hcells _ .nonnullPtr _
  | tagged =>
    unfold wordsEqual
    dsimp only
    split_ifs with htags hptr
    · exact ⟨_, rfl⟩
    · exact hcells _ (.tagged hptr) _
    · exact ⟨_, rfl⟩

/-- `cell_is_equal` returns on a graph, and only the same cell is equal to it. -/
theorem cellIsEqual_eq {p : Nat} (hp : CellGraph words p) :
    ∃ n, ∀ fuel ≥ n, ∀ q, cellIsEqual words fuel p q = some (decide (p = q)) := by
  induction hp with
  | null =>
    refine ⟨1, fun fuel hfuel q => ?_⟩
    obtain ⟨fuel, rfl⟩ := Nat.exists_eq_add_of_le' hfuel
    by_cases hq : nullPtr = q <;> simp [cellIsEqual, hq]
  | @cell p hp hdecls hsons ih =>
    obtain ⟨n, hn⟩ := exists_common_bound
      (P := fun d k => ∀ type i son, d = Decl.field type i → PointsTo type (words (p + i)) son →
        ∀ q, cellIsEqual words k son q = some (decide (son = q)))
      (cellDecls words p) (by
        intro d hmem
        cases d with
        | abort => exact ⟨0, fun _ _ _ _ _ h => nomatch h⟩
        | field type i =>
          by_cases hson : ∃ son, PointsTo type (words (p + i)) son
          · obtain ⟨son, hson⟩ := hson
            obtain ⟨n, hn⟩ := ih type i son hmem hson
            refine ⟨n, fun k hk type' i' son' heq hson' => ?_⟩
            obtain ⟨rfl, rfl⟩ := Decl.field.inj heq
            exact hson.unique hson' ▸ hn k hk
          · refine ⟨0, fun k _ type' i' son' heq hson' => ?_⟩
            obtain ⟨rfl, rfl⟩ := Decl.field.inj heq
            exact absurd ⟨son', hson'⟩ hson)
    refine ⟨n + 1, fun fuel hfuel q => ?_⟩
    obtain ⟨k, hk, rfl⟩ : ∃ k ≥ n, fuel = k + 1 := ⟨fuel - 1, by omega, by omega⟩
    obtain ⟨b, hb⟩ : ∃ b, declsEqual (wordsEqual (cellIsEqual words k)) words p q
        (cellDecls words p) = some b :=
      declsEqual_returns hdecls fun type i hmem =>
        wordsEqual_returns (fun son hson q => ⟨_, hn k hk _ hmem type i son rfl hson q⟩) _
    by_cases hpq : p = q
    · simp [cellIsEqual, hpq]
    · simp only [cellIsEqual, hpq, hb, if_false, decide_false]
      split_ifs <;> simp

/-! ## the claim of `cells.h` -/

/-- On graphs, `cell_is_equal` tells structural equality when the cells are
the same or when they differ, and only then. -/
theorem cell_is_equal_structural {p : Nat} (hp : CellGraph words p) (q : Nat) :
    ∃ b, (∃ n, ∀ fuel ≥ n, cellIsEqual words fuel p q = some b) ∧
      ((b = true ↔ CellEq words p q) ↔ (p = q ∨ ¬ CellEq words p q)) := by
  obtain ⟨n, hn⟩ := cellIsEqual_eq hp
  refine ⟨decide (p = q), ⟨n, fun fuel hfuel => hn fuel hfuel q⟩, ?_⟩
  rw [decide_eq_true_iff]
  constructor
  · intro h
    by_cases hpq : p = q
    · exact .inl hpq
    · exact .inr fun heq => hpq (h.mpr heq)
  · rintro (rfl | hne)
    · exact iff_of_true rfl (.refl hp)
    · exact iff_of_false (fun hpq => hne (hpq ▸ .refl hp)) hne

/-- Two list cells with the same two small integers in them. -/
def twinCells : Nat → Nat :=
  wordsOf [(1, CellType.list.header), (2, 1), (3, 5), (4, CellType.list.header), (5, 1), (6, 5)]

theorem cellDecls_twinCells : cellDecls twinCells 1 = [.field .tagged 1, .field .tagged 2] ∧
    cellDecls twinCells 4 = [.field .tagged 1, .field .tagged 2] := by
  decide

/-- No word of the twins is a pointer. -/
theorem not_pointsTo_twinCells {type : WordType} {i son : Nat}
    (hmem : Decl.field type i ∈ [Decl.field .tagged 1, Decl.field .tagged 2]) :
    ¬ PointsTo type (twinCells (1 + i)) son ∧ ¬ PointsTo type (twinCells (4 + i)) son := by
  simp only [List.mem_cons, Decl.field.injEq, List.not_mem_nil, or_false] at hmem
  rcases hmem with ⟨rfl, rfl⟩ | ⟨rfl, rfl⟩ <;>
    exact ⟨fun h => by cases h with | tagged h => revert h; decide,
      fun h => by cases h with | tagged h => revert h; decide⟩

theorem twinCells_graph : CellGraph twinCells 1 ∧ CellGraph twinCells 4 := by
  refine ⟨.cell (by decide) (by rw [cellDecls_twinCells.1]; decide) ?_,
    .cell (by decide) (by rw [cellDecls_twinCells.2]; decide) ?_⟩
  · intro type i son hmem hson
    rw [cellDecls_twinCells.1] at hmem
    exact absurd hson (not_pointsTo_twinCells hmem).1
  · intro type i son hmem hson
    rw [cellDecls_twinCells.2] at hmem
    exact absurd hson (not_pointsTo_twinCells hmem).2

theorem twinCells_eq : CellEq twinCells 1 4 := by
  have hmem {type : WordType} {i : Nat} (h : Decl.field type i ∈ cellDecls twinCells 1) :
      Decl.field type i ∈ [Decl.field .tagged 1, Decl.field .tagged 2] :=
    cellDecls_twinCells.1 ▸ h
  refine .cell (by decide) (by decide) (by decide) ?_
    (fun type i son h hson => absurd hson (not_pointsTo_twinCells (hmem h)).1)
    (fun type i son _ h hson => absurd hson (not_pointsTo_twinCells (hmem h)).1)
  intro type i h _
  have h := hmem h
  simp only [List.mem_cons, Decl.field.injEq, List.not_mem_nil, or_false] at h
  rcases h with ⟨rfl, rfl⟩ | ⟨rfl, rfl⟩ <;> decide

/-- The twins are equal, and `cell_is_equal` tells them apart. -/
theorem cell_is_equal_structural_twins :
    CellEq twinCells 1 4 ∧ ∃ b, (∃ n, ∀ fuel ≥ n, cellIsEqual twinCells fuel 1 4 = some b) ∧
      ((b = true ↔ CellEq twinCells 1 4) ↔ (1 = 4 ∨ ¬ CellEq twinCells 1 4)) :=
  ⟨twinCells_eq, cell_is_equal_structural twinCells_graph.1 4⟩

/-- The comparison does not decide structural equality. -/
theorem cell_is_equal_twins : ¬ ∀ (words : Nat → Nat) (p q : Nat), CellGraph words p →
    CellGraph words q → ∃ b, (∃ n, ∀ fuel ≥ n, cellIsEqual words fuel p q = some b) ∧
      (b = true ↔ CellEq words p q) := by
  intro h
  obtain ⟨b, ⟨n, hn⟩, hb⟩ := h twinCells 1 4 twinCells_graph.1 twinCells_graph.2
  obtain ⟨n', hn'⟩ := cellIsEqual_eq twinCells_graph.1
  have hfalse : some b = some (decide (1 = 4)) :=
    (hn (max n n') (le_max_left n n')).symm.trans (hn' (max n n') (le_max_right n n') 4)
  have hb' : b = false := Option.some.inj hfalse
  exact absurd (hb.mpr twinCells_eq) (by simp [hb'])

end Shades
