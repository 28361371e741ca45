import Shades.CellEqual
import Shades.Shtring.Compare

/-!
# Shades.TaggedEqual

`tagged_is_equal` and `TAGGED_IS_EQUAL` of `tagged.c` and `tagged.h`, the
comparison of the values that byte code works on.

The function is made from the same blocks as `cell_is_equal`.  Shtrings are
compared by their bytes, whatever their trees look like, and everything else by
the declared words.  The relation `WordEq` says which values are equal, and the
comparison decides it as long as it meets no pair of shtrings too long for
`shtring_cmp_without_allocating`.
-/

namespace Shades

/-! ## the comparison -/

/-- `TAGGED_IS_EQUAL`, where `cells` compares the cells behind two pointers. -/
def taggedWordsEqual (cells : Nat → Nat → Option Bool) (a b : Nat) : Option Bool :=
  if a = b then some true
  else if taggedIsPtr a ∧ taggedIsPtr b then cells (wordToPtr a) (wordToPtr b)
  else some false

/-- The comparison of two words of a type. -/
def fieldsEqual (cells : Nat → Nat → Option Bool) (type : WordType) (x y : Nat) : Option Bool :=
  match type with
  | .word => some (x == y)
  | .ptr | .nonnullPtr => if x = y then some true else cells (wordToPtr x) (wordToPtr y)
  | .tagged => taggedWordsEqual cells x y
  | .void => some true

/-- `tagged_is_equal`, for different cells.  The first argument bounds the depth
of the recursion. -/
def taggedIsEqual (words : Nat → Nat) : Nat → Nat → Nat → Option Bool
  | 0, _, _ => none
  | fuel + 1, p, q =>
    if p = q then none
    else if p = nullPtr ∨ q = nullPtr then some false
    else if words p ≠ words q then some false
    else if cellType (words p) = CellType.shtring.code then
      (shtringCmpWithoutAllocating words p q).map fun cmp => cmp == .equal
    else declsEqual (fieldsEqual (taggedIsEqual words fuel)) words p q (cellDecls words p)

/-! ## values -/

/-- Shtrings are found everywhere in the memory. -/
abbrev TextAt (words : Nat → Nat) (p : Nat) (chunks : List Chunk) (off len : Nat) : Prop :=
  ShtringAt words (fun _ => True) p chunks off len

/-- A word of a type, with everything it leads to. -/
inductive ValueAt (words : Nat → Nat) : WordType → Nat → Prop
  | word {x : Nat} : ValueAt words .word x
  | int {x : Nat} (hx : taggedIsPtr x = false) : ValueAt words .tagged x
  | null {type : WordType} (htype : type.points = true) : ValueAt words type (ptrToWord nullPtr)
  | shtring {type : WordType} {p off len : Nat} {chunks : List Chunk} (htype : type.points = true)
      (hp : TextAt words p chunks off len) (hheader : words p = CellType.shtring.header) :
      ValueAt words type (ptrToWord p)
  | cell {type : WordType} {p : Nat} (htype : type.points = true) (hp : p ≠ nullPtr)
      (hshtring : cellType (words p) ≠ CellType.shtring.code)
      (hcont : cellType (words p) = CellType.cont.code → wordToPtr (words (p + 1)) ≠ nullPtr ∧
        cellType (words (wordToPtr (words (p + 1)))) = CellType.bcode.code)
      (hdecls : Decl.abort ∉ cellDecls words p)
      (hfields : ∀ type' i, Decl.field type' i ∈ cellDecls words p →
        ValueAt words type' (words (p + i))) : ValueAt words type (ptrToWord p)

/-- Equal values: shtrings with the same text, and cells with the same first
word and equal fields. -/
inductive ValueEq (words : Nat → Nat) : WordType → Nat → Nat → Prop
  | word {x : Nat} : ValueEq words .word x x
  | int {x : Nat} (hx : taggedIsPtr x = false) : ValueEq words .tagged x x
  | null {type : WordType} (htype : type.points = true) :
      ValueEq words type (ptrToWord nullPtr) (ptrToWord nullPtr)
  | shtring {type : WordType} {p q off off' len len' : Nat} {chunks chunks' : List Chunk}
      (htype : type.points = true) (hp : TextAt words p chunks off len)
      (hq : TextAt words q chunks' off' len')
      (htext : windowText chunks off len = windowText chunks' off' len') :
      ValueEq words type (ptrToWord p) (ptrToWord q)
  | cell {type : WordType} {p q : Nat} (htype : type.points = true) (hp : p ≠ nullPtr)
      (hq : q ≠ nullPtr) (hshtring : cellType (words p) ≠ CellType.shtring.code)
      (hheader : words p = words q)
      (hfields : ∀ type' i, Decl.field type' i ∈ cellDecls words p →
        ValueEq words type' (words (p + i)) (words (q + i))) :
      ValueEq words type (ptrToWord p) (ptrToWord q)

/-- The cells at `p` and `q` agree on a declared word. -/
def FieldEq (words : Nat → Nat) (p q : Nat) : Decl → Prop
  | .field type i => ValueEq words type (words (p + i)) (words (q + i))
  | .abort => False

/-- Two shtrings that `shtring_cmp_without_allocating` can compare. -/
def Comparable (text text' : List Nat) : Prop :=
  min text.length text'.length ≤ cmpLimit ∨ text.take cmpLimit ≠ text'.take cmpLimit

/-- Every pair of shtrings that the comparison of two words meets up to the
first difference can be compared. -/
inductive Settled (words : Nat → Nat) : WordType → Nat → Nat → Prop
  | same {type : WordType} {x : Nat} : Settled words type x x
  | word {type : WordType} {x y : Nat} (htype : type.points = false) : Settled words type x y
  | int {x y : Nat} (h : taggedIsPtr x = false ∨ taggedIsPtr y = false) : Settled words .tagged x y
  | differ {type : WordType} {p q : Nat} (h : p = nullPtr ∨ q = nullPtr ∨ words p ≠ words q) :
      Settled words type (ptrToWord p) (ptrToWord q)
  | shtring {type : WordType} {p q off off' len len' : Nat} {chunks chunks' : List Chunk}
      (hp : TextAt words p chunks off len) (hq : TextAt words q chunks' off' len')
      (htext : Comparable (windowText chunks off len) (windowText chunks' off' len')) :
      Settled words type (ptrToWord p) (ptrToWord q)
  | cell {type : WordType} {p q : Nat} (hshtring : cellType (words p) ≠ CellType.shtring.code)
      (hfields : ∀ pre type' i post, cellDecls words p = pre ++ Decl.field type' i :: post →
        (∀ d ∈ pre, FieldEq words p q d) → Settled words type' (words (p + i)) (words (q + i))) :
      Settled words type (ptrToWord p) (ptrToWord q)

variable {words : Nat → Nat}

/-! ## words of values -/

/-- The cell at `p`, as a part of a value. -/
structure CellAt (words : Nat → Nat) (p : Nat) : Prop where
  ne_null : p ≠ nullPtr
  not_shtring : cellType (words p) ≠ CellType.shtring.code
  cont : cellType (words p) = CellType.cont.code → wordToPtr (words (p + 1)) ≠ nullPtr ∧
    cellType (words (wordToPtr (words (p + 1)))) = CellType.bcode.code
  not_abort : Decl.abort ∉ cellDecls words p
  fields : ∀ type i, Decl.field type i ∈ cellDecls words p → ValueAt words type (words (p + i))

section inversion

variable {type : WordType} {x y p q : Nat}

/-- A word that may be a pointer is one, or an integer. -/
theorem ValueAt.ptr_or_int (h : ValueAt words type x) (htype : type.points = true) :
    (∃ p, x = ptrToWord p) ∨ type = .tagged ∧ taggedIsPtr x = false := by
  cases h with
  | word => cases htype
  | int hx => exact .inr ⟨rfl, hx⟩
  | null => exact .inl ⟨nullPtr, rfl⟩
  | @shtring _ p => exact .inl ⟨p, rfl⟩
  | @cell _ p => exact .inl ⟨p, rfl⟩

/-- What a pointer leads to. -/
theorem ValueAt.target (h : ValueAt words type (ptrToWord p)) (htype : type.points = true) :
    p = nullPtr ∨
    (words p = CellType.shtring.header ∧ ∃ chunks off len, TextAt words p chunks off len) ∨
    CellAt words p := by
  generalize hx : ptrToWord p = x at h
  cases h with
  | word => cases htype
  | int h =>
    rw [← hx, taggedIsPtr_ptrToWord] at h
    cases h
  | null => exact .inl (ptrToWord_inj.mp hx)
  | shtring _ hp hheader =>
    obtain rfl := ptrToWord_inj.mp hx
    exact .inr (.inl ⟨hheader, _, _, _, hp⟩)
  | cell _ hp hshtring hcont hdecls hfields =>
    obtain rfl := ptrToWord_inj.mp hx
    exact .inr (.inr ⟨hp, hshtring, hcont, hdecls, hfields⟩)

theorem ValueEq.word_eq (h : ValueEq words .word x y) : x = y := by
  cases h with
  | word => rfl
  | null htype => cases htype
  | shtring htype => cases htype
  | cell htype => cases htype

/-- An integer is equal to itself only. -/
theorem ValueEq.int_eq (h : ValueEq words .tagged x y)
    (hint : taggedIsPtr x = false ∨ taggedIsPtr y = false) : x = y := by
  cases h with
  | int => rfl
  | null => rfl
  | shtring => simp [taggedIsPtr_ptrToWord] at hint
  | cell => simp [taggedIsPtr_ptrToWord] at hint

/-- What the pointers in equal words lead to. -/
theorem ValueEq.target (h : ValueEq words type (ptrToWord p) y) (htype : type.points = true) :
    ∃ q, y = ptrToWord q ∧ (p = nullPtr ∧ q = nullPtr ∨
      (∃ chunks chunks' off off' len len', TextAt words p chunks off len ∧
        TextAt words q chunks' off' len' ∧
        windowText chunks off len = windowText chunks' off' len') ∨
      p ≠ nullPtr ∧ q ≠ nullPtr ∧ cellType (words p) ≠ CellType.shtring.code ∧
        words p = words q ∧ ∀ d ∈ cellDecls words p, d ≠ .abort → FieldEq words p q d) := by
  generalize hx : ptrToWord p = x at h
  cases h with
  | word => cases htype
  | int h =>
    rw [← hx, taggedIsPtr_ptrToWord] at h
    cases h
  | null => exact ⟨nullPtr, rfl, .inl ⟨ptrToWord_inj.mp hx, rfl⟩⟩
  | shtring _ hp hq htext =>
    obtain rfl := ptrToWord_inj.mp hx
    exact ⟨_, rfl, .inr (.inl ⟨_, _, _, _, _, _, hp, hq, htext⟩)⟩
  | cell _ hp hq hshtring hheader hfields =>
    obtain rfl := ptrToWord_inj.mp hx
    refine ⟨_, rfl, .inr (.inr ⟨hp, hq, hshtring, hheader, fun d hd hne => ?_⟩)⟩
    cases d with
    | field type' i => exact hfields type' i hd
    | abort => exact absurd rfl hne

end inversion

/-! ## the same declarations -/

section decls

variable {p q : Nat}

theorem bcodeDecls_fieldEq :
    Follows (FieldEq words p q) (bcodeDecls words p) (bcodeDecls words q) :=
  bcodeDecls_follows fun _ h => ValueEq.word_eq h

/-- Frames with the same byte code declare the same words. -/
theorem CellAt.cont_follows (hp : CellAt words p) (hq : CellAt words q)
    (hheader : words p = words q) (hcont : cellTypeOf (words p) = some .cont) :
    Follows (FieldEq words p q) (contDecls words p) (contDecls words q) := by
  have hbcodep := hp.cont (cellTypeOf_eq_some.mp hcont)
  have hbcodeq := hq.cont (cellTypeOf_eq_some.mp (hheader ▸ hcont))
  have hdecls : cellDecls words p = contDecls words p := by simp only [cellDecls, hcont]
  have hcons (p : Nat) : ∃ l, contDecls words p = .field .nonnullPtr 1 :: l := ⟨_, rfl⟩
  obtain ⟨l, hl⟩ := hcons p
  obtain ⟨l', hl'⟩ := hcons q
  rw [hl, hl']
  refine .cons fun h => ?_
  replace h : ValueEq words .nonnullPtr (words (p + 1)) (words (q + 1)) := h
  have hcongr : contDecls words q = contDecls words p := by
    refine contDecls_congr hheader hbcodep.2 hbcodeq.2 fun i hi => ?_
    obtain ⟨r, hr⟩ := ((hp.fields .nonnullPtr 1 (by rw [hdecls, hl]; simp)).ptr_or_int
      rfl).resolve_right nofun
    rw [hr] at h hbcodep hi ⊢
    rw [wordToPtr_ptrToWord] at hbcodep hi ⊢
    obtain ⟨r', hr', ⟨hnull, -⟩ | ⟨_, _, _, _, _, _, htext, -⟩ |
      ⟨-, -, -, -, hfields⟩⟩ := h.target rfl
    · exact absurd hnull hbcodep.1
    · exact absurd (htext.type.symm.trans hbcodep.2) (by decide)
    · have hbcode : cellDecls words r = bcodeDecls words r := by
        simp only [cellDecls, cellTypeOf_eq_some.mpr hbcodep.2]
      rw [hr', wordToPtr_ptrToWord]
      exact ValueEq.word_eq (hfields (.field .word i) (hbcode ▸ hi) nofun)
  rw [hl, hl'] at hcongr
  obtain rfl := (List.cons.inj hcongr).2
  exact .refl _

/-- The declarations of a cell are read off its words. -/
theorem CellAt.follows (hp : CellAt words p) (hq : CellAt words q)
    (hheader : words p = words q) :
    Follows (FieldEq words p q) (cellDecls words p) (cellDecls words q) := by
  have htype : cellTypeOf (words q) = cellTypeOf (words p) := by rw [hheader]
  by_cases hbcode : cellTypeOf (words p) = some .bcode
  · simp only [cellDecls, htype, hbcode]
    exact bcodeDecls_fieldEq
  by_cases hcont : cellTypeOf (words p) = some .cont
  · simp only [cellDecls, htype, hcont]
    exact hp.cont_follows hq hheader hcont
  · have hsame : cellDecls words q = cellDecls words p := by
      unfold cellDecls
      simp only [← hheader]
      split <;> first | rfl | contradiction
    rw [hsame]
    exact .refl _

end decls

/-! ## an equivalence -/

section equivalence

variable {type : WordType} {x y z p q : Nat}

theorem ValueEq.refl (hx : ValueAt words type x) : ValueEq words type x x := by
  induction hx with
  | word => exact .word
  | int hx => exact .int hx
  | null htype => exact .null htype
  | shtring htype hp _ => exact .shtring htype hp hp rfl
  | cell htype hp hshtring _ _ _ ih => exact .cell htype hp hp hshtring rfl ih

/-- Cells with equal fields declare the same words. -/
theorem CellAt.decls_eq (hp : CellAt words p) (hq : CellAt words q) (hheader : words p = words q)
    (hfields : ∀ type i, Decl.field type i ∈ cellDecls words p →
      ValueEq words type (words (p + i)) (words (q + i))) :
    cellDecls words q = cellDecls words p := by
  refine (hp.follows hq hheader).eq fun d hd => ?_
  cases d with
  | field type i => exact hfields type i hd
  | abort => exact absurd hd hp.not_abort

/-- What a pointer to a cell leads to. -/
theorem ValueAt.cellAt (h : ValueAt words type (ptrToWord p)) (htype : type.points = true)
    (hp : p ≠ nullPtr) (hshtring : cellType (words p) ≠ CellType.shtring.code) :
    CellAt words p := by
  rcases h.target htype with hnull | ⟨hheader, -⟩ | hcell
  · exact absurd hnull hp
  · exact absurd (by rw [hheader]; decide) hshtring
  · exact hcell

theorem ValueEq.symm (h : ValueEq words type x y) (hx : ValueAt words type x)
    (hy : ValueAt words type y) : ValueEq words type y x := by
  induction h with
  | word => exact .word
  | int h => exact .int h
  | null htype => exact .null htype
  | shtring htype hp hq htext => exact .shtring htype hq hp htext.symm
  | cell htype hp hq hshtring hheader hfields ih =>
    have hcellp := hx.cellAt htype hp hshtring
    have hcellq := hy.cellAt htype hq (hheader ▸ hshtring)
    have hdecls := hcellp.decls_eq hcellq hheader hfields
    refine .cell htype hq hp (hheader ▸ hshtring) hheader.symm fun type' i hmem => ?_
    exact ih type' i (hdecls ▸ hmem) (hcellp.fields type' i (hdecls ▸ hmem))
      (hcellq.fields type' i hmem)

theorem ValueEq.trans (h : ValueEq words type x y) (h' : ValueEq words type y z)
    (hx : ValueAt words type x) (hy : ValueAt words type y) : ValueEq words type x z := by
  induction h generalizing z with
  | word => exact h'
  | int h => exact h'
  | null htype => exact h'
  | shtring htype hp hq htext =>
    obtain ⟨r, rfl, ⟨hnull, -⟩ | ⟨_, _, _, _, _, _, hq', hr, htext'⟩ |
      ⟨-, -, hshtring, -, -⟩⟩ := h'.target htype
    · exact absurd hnull hq.ne_null
    · exact .shtring htype hp hr (htext.trans ((hq.text_unique hq').trans htext'))
    · exact absurd hq.type hshtring
  | cell htype hp hq hshtring hheader hfields ih =>
    have hcellp := hx.cellAt htype hp hshtring
    have hcellq := hy.cellAt htype hq (hheader ▸ hshtring)
    have hdecls := hcellp.decls_eq hcellq hheader hfields
    obtain ⟨r, rfl, ⟨hnull, -⟩ | ⟨_, _, _, _, _, _, htext, -⟩ |
      ⟨-, hr, -, hheader', hfields'⟩⟩ := h'.target htype
    · exact absurd hnull hq
    · exact absurd (hheader ▸ htext.type) hshtring
    · refine .cell htype hp hr hshtring (hheader.trans hheader') fun type' i hmem => ?_
      exact ih type' i hmem (hfields' (.field type' i) (hdecls ▸ hmem) nofun) (hcellp.fields type' i hmem)
        (hcellq.fields type' i (hdecls ▸ hmem))

end equivalence

/-! ## what the comparison finds -/

section sound

variable {type : WordType} {x y p q : Nat} {b : Bool} {cells : Nat → Nat → Option Bool}

/-- The answers on cells are right, and only settled pairs get one. -/
def CellsSound (words : Nat → Nat) (cells : Nat → Nat → Option Bool) : Prop :=
  ∀ type p q b, type.points = true → ValueAt words type (ptrToWord p) →
    ValueAt words type (ptrToWord q) → cells p q = some b →
      (b = true ↔ ValueEq words type (ptrToWord p) (ptrToWord q)) ∧
        Settled words type (ptrToWord p) (ptrToWord q)

theorem fieldsEqual_sound (hcells : CellsSound words cells) (hx : ValueAt words type x)
    (hy : ValueAt words type y) (h : fieldsEqual cells type x y = some b) :
    (b = true ↔ ValueEq words type x y) ∧ Settled words type x y := by
  by_cases hxy : x = y
  · subst hxy
    have hb : b = true := by
      cases type <;> simpa [fieldsEqual, taggedWordsEqual] using h.symm
    exact ⟨iff_of_true hb (.refl hx), .same⟩
  by_cases htype : type.points = true
  · by_cases hint : type = .tagged ∧ (taggedIsPtr x = false ∨ taggedIsPtr y = false)
    · obtain ⟨rfl, hint⟩ := hint
      have hb : b = false := by
        have hptrs : ¬ (taggedIsPtr x = true ∧ taggedIsPtr y = true) := by
          rcases hint with hint | hint <;> simp [hint]
        rw [fieldsEqual, taggedWordsEqual, if_neg hxy, if_neg hptrs] at h
        exact (Option.some.inj h).symm
      exact ⟨iff_of_false (by simp [hb]) fun heq => hxy (heq.int_eq hint), .int hint⟩
    · obtain ⟨p, rfl⟩ := (hx.ptr_or_int htype).resolve_right fun h => hint ⟨h.1, .inl h.2⟩
      obtain ⟨q, rfl⟩ := (hy.ptr_or_int htype).resolve_right fun h => hint ⟨h.1, .inr h.2⟩
      refine hcells type p q b htype hx hy ?_
      cases type <;> simp_all [fieldsEqual, taggedWordsEqual, taggedIsPtr_ptrToWord,
        WordType.points]
  · cases hx with
    | word =>
      have hb : b = false := by
        rw [fieldsEqual, beq_false_of_ne hxy] at h
        exact (Option.some.inj h).symm
      exact ⟨iff_of_false (by simp [hb]) fun heq => hxy heq.word_eq, .word rfl⟩
    | int => exact absurd rfl htype
    | null htype' => exact absurd htype' htype
    | shtring htype' => exact absurd htype' htype
    | cell htype' => exact absurd htype' htype

/-- The comparison of the fields of two cells. -/
theorem declsEqual_sound {l l' : List Decl} (hcells : CellsSound words cells)
    (hfollows : Follows (FieldEq words p q) l l') (habort : Decl.abort ∉ l)
    (hp : ∀ type i, Decl.field type i ∈ l → ValueAt words type (words (p + i)))
    (hq : ∀ type i, Decl.field type i ∈ l' → ValueAt words type (words (q + i)))
    (h : declsEqual (fieldsEqual cells) words p q l = some b) :
    (b = true ↔ ∀ d ∈ l, FieldEq words p q d) ∧
      ∀ pre type i post, l = pre ++ Decl.field type i :: post →
        (∀ d ∈ pre, FieldEq words p q d) →
          Settled words type (words (p + i)) (words (q + i)) := by
  induction hfollows with
  | nil => exact ⟨by simpa [declsEqual] using h.symm, fun pre _ _ _ hsplit => by simp at hsplit⟩
  | @cons d l l' _ ih =>
    rw [List.mem_cons, not_or] at habort
    cases d with
    | abort => exact absurd rfl habort.1
    | field type i =>
      rw [declsEqual] at h
      obtain ⟨b', hb', h⟩ := Option.bind_eq_some_iff.mp h
      obtain ⟨heq, hsettled⟩ := fieldsEqual_sound hcells (hp type i List.mem_cons_self)
        (hq type i List.mem_cons_self) hb'
      cases b' with
      | false =>
        have hb : b = false := (Option.some.inj h).symm
        have hne : ¬ FieldEq words p q (.field type i) := fun hfield => by simpa using heq.mpr hfield
        refine ⟨iff_of_false (by simp [hb]) fun hall => hne (hall _ List.mem_cons_self), ?_⟩
        intro pre type' i' post hsplit hpre
        cases pre with
        | nil =>
          obtain ⟨rfl, rfl⟩ := Decl.field.inj (List.cons.inj hsplit).1
          exact hsettled
        | cons d pre =>
          obtain rfl := (List.cons.inj hsplit).1
          exact absurd (hpre _ List.mem_cons_self) hne
      | true =>
        have hfield : FieldEq words p q (.field type i) := heq.mp rfl
        obtain ⟨heq', hsettled'⟩ := ih hfield habort.2
          (fun type i hmem => hp type i (List.mem_cons_of_mem _ hmem))
          (fun type i hmem => hq type i (List.mem_cons_of_mem _ hmem)) h
        rw [List.forall_mem_cons]
        refine ⟨heq'.trans ⟨fun hall => ⟨hfield, hall⟩, fun hall => hall.2⟩, ?_⟩
        intro pre type' i' post hsplit hpre
        cases pre with
        | nil =>
          obtain ⟨rfl, rfl⟩ := Decl.field.inj (List.cons.inj hsplit).1
          exact hsettled
        | cons d pre =>
          obtain ⟨rfl, rfl⟩ := List.cons.inj hsplit
          exact hsettled' pre type' i' post rfl (List.forall_mem_cons.mp hpre).2

/-- Shtrings are compared by their texts. -/
theorem shtringCmp_sound {off off' len len' : Nat} {chunks chunks' : List Chunk}
    (hp : TextAt words p chunks off len) (hq : TextAt words q chunks' off' len') :
    (Comparable (windowText chunks off len) (windowText chunks' off' len') →
      (shtringCmpWithoutAllocating words p q).map (fun cmp => cmp == .equal) =
        some (windowText chunks off len == windowText chunks' off' len')) ∧
    (¬ Comparable (windowText chunks off len) (windowText chunks' off' len') →
      shtringCmpWithoutAllocating words p q = none) := by
  have hlen := length_windowText hp.window
  have hlen' := length_windowText hq.window
  unfold Comparable
  rw [hlen, hlen']
  refine ⟨fun h => ?_, fun h => ?_⟩
  · rw [shtringCmpWithoutAllocating_eq hp hq h, Option.map_some]
    congr 1
    rw [Bool.eq_iff_iff, beq_iff_eq, beq_iff_eq, textCmp_eq_equal]
  · rw [not_or, not_le, not_not] at h
    exact shtringCmpWithoutAllocating_stuck hp hq h.1 h.2

/-- Only NULL is equal to NULL. -/
theorem ValueEq.null_iff (h : ValueEq words type (ptrToWord p) (ptrToWord q))
    (htype : type.points = true) : p = nullPtr ↔ q = nullPtr := by
  obtain ⟨q', hq', ⟨rfl, rfl⟩ | ⟨_, _, _, _, _, _, hp, hq, -⟩ | ⟨hp, hq, -⟩⟩ := h.target htype
  · rw [ptrToWord_inj.mp hq']
  · exact iff_of_false hp.ne_null (ptrToWord_inj.mp hq' ▸ hq.ne_null)
  · exact iff_of_false hp (ptrToWord_inj.mp hq' ▸ hq)

/-- Equal cells have the same first word. -/
theorem ValueEq.header_eq (h : ValueEq words type (ptrToWord p) (ptrToWord q))
    (htype : type.points = true) (hp : ValueAt words type (ptrToWord p))
    (hq : ValueAt words type (ptrToWord q)) : words p = words q := by
  have hheader {r : Nat} {chunks : List Chunk} {off len : Nat}
      (hr : ValueAt words type (ptrToWord r)) (htext : TextAt words r chunks off len) :
      words r = CellType.shtring.header := by
    rcases hr.target htype with hnull | ⟨hheader, -⟩ | hcell
    · exact absurd hnull htext.ne_null
    · exact hheader
    · exact absurd htext.type hcell.not_shtring
  obtain ⟨q', hq', ⟨rfl, rfl⟩ | ⟨_, _, _, _, _, _, htext, htext', -⟩ | ⟨-, -, -, hsame, -⟩⟩ :=
    h.target htype
  · rw [ptrToWord_inj.mp hq']
  · obtain rfl := ptrToWord_inj.mp hq'
    rw [hheader hp htext, hheader hq htext']
  · exact ptrToWord_inj.mp hq' ▸ hsame

/-- Equal cells that are no shtrings have equal fields. -/
theorem ValueEq.fields (h : ValueEq words type (ptrToWord p) (ptrToWord q))
    (htype : type.points = true) (hp : CellAt words p) :
    ∀ d ∈ cellDecls words p, FieldEq words p q d := by
  intro d hd
  obtain ⟨q', hq', ⟨hnull, -⟩ | ⟨_, _, _, _, _, _, htext, -⟩ | ⟨-, -, -, -, hfields⟩⟩ :=
    h.target htype
  · exact absurd hnull hp.ne_null
  · exact absurd htext.type hp.not_shtring
  · exact ptrToWord_inj.mp hq' ▸ hfields d hd fun habort => hp.not_abort (habort ▸ hd)

/-- The text of a value that is a shtring. -/
theorem ValueAt.textAt (h : ValueAt words type (ptrToWord p)) (htype : type.points = true)
    (hp : p ≠ nullPtr) (hshtring : cellType (words p) = CellType.shtring.code) :
    ∃ chunks off len, TextAt words p chunks off len := by
  rcases h.target htype with hnull | ⟨-, htext⟩ | hcell
  · exact absurd hnull hp
  · exact htext
  · exact absurd hshtring hcell.not_shtring

/-- Shtrings are equal when their texts are the same. -/
theorem ValueEq.text_iff {off off' len len' : Nat} {chunks chunks' : List Chunk}
    (htype : type.points = true) (hp : TextAt words p chunks off len)
    (hq : TextAt words q chunks' off' len') :
    ValueEq words type (ptrToWord p) (ptrToWord q) ↔
      windowText chunks off len = windowText chunks' off' len' := by
  refine ⟨fun h => ?_, fun h => .shtring htype hp hq h⟩
  obtain ⟨q', hq', ⟨hnull, -⟩ | ⟨_, _, _, _, _, _, hp', hq'', htext⟩ | ⟨-, -, hshtring, -⟩⟩ :=
    h.target htype
  · exact absurd hnull hp.ne_null
  · obtain rfl := ptrToWord_inj.mp hq'
    exact (hp.text_unique hp').trans (htext.trans (hq''.text_unique hq))
  · exact absurd hp.type hshtring

/-- The answers of `tagged_is_equal` are right. -/
theorem taggedIsEqual_sound (fuel : Nat) : CellsSound words (taggedIsEqual words fuel) := by
  induction fuel with
  | zero => exact fun _ _ _ _ _ _ _ h => nomatch h
  | succ fuel ih =>
    intro type p q b htype hp hq h
    rw [taggedIsEqual] at h
    split_ifs at h with hpq hnull hheader hshtring
    · have hb := (Option.some.inj h).symm
      refine ⟨iff_of_false (by simp [hb]) fun heq => ?_, .differ (hnull.imp_right .inl)⟩
      have hiff := heq.null_iff htype
      rcases hnull with hnull | hnull
      · exact hpq (hnull.trans (hiff.mp hnull).symm)
      · exact hpq ((hiff.mpr hnull).trans hnull.symm)
    · have hb := (Option.some.inj h).symm
      exact ⟨iff_of_false (by simp [hb]) fun heq => hheader (heq.header_eq htype hp hq),
        .differ (.inr (.inr hheader))⟩
    · rw [not_or] at hnull
      rw [not_not] at hheader
      obtain ⟨chunks, off, len, htext⟩ := hp.textAt htype hnull.1 hshtring
      obtain ⟨chunks', off', len', htext'⟩ := hq.textAt htype hnull.2 (hheader ▸ hshtring)
      have hcmp := shtringCmp_sound htext htext'
      by_cases hcomparable : Comparable (windowText chunks off len) (windowText chunks' off' len')
      · rw [hcmp.1 hcomparable] at h
        rw [← Option.some.inj h, beq_iff_eq, ValueEq.text_iff htype htext htext']
        exact ⟨Iff.rfl, .shtring htext htext' hcomparable⟩
      · rw [hcmp.2 hcomparable] at h
        cases h
    · rw [not_or] at hnull
      rw [not_not] at hheader
      have hcellp := hp.cellAt htype hnull.1 hshtring
      have hcellq := hq.cellAt htype hnull.2 (hheader ▸ hshtring)
      obtain ⟨heq, hsettled⟩ := declsEqual_sound ih (hcellp.follows hcellq hheader)
        hcellp.not_abort hcellp.fields hcellq.fields h
      refine ⟨heq.trans ⟨fun hall => ?_, fun hvalue => hvalue.fields htype hcellp⟩,
        .cell hshtring hsettled⟩
      exact .cell htype hnull.1 hnull.2 hshtring hheader fun type' i hmem => hall _ hmem

/-! ## when the comparison returns -/

theorem fieldsEqual_returns_ptr {n : Nat} (htype : type.points = true)
    (h : p ≠ q → ∀ fuel ≥ n, ∃ b, taggedIsEqual words fuel p q = some b) :
    ∀ fuel ≥ n, ∃ b, fieldsEqual (taggedIsEqual words fuel) type (ptrToWord p) (ptrToWord q) =
      some b := by
  intro fuel hfuel
  by_cases hpq : p = q
  · exact ⟨true, by cases type <;> simp_all [fieldsEqual, taggedWordsEqual, WordType.points]⟩
  · obtain ⟨b, hb⟩ := h hpq fuel hfuel
    have hne : ptrToWord p ≠ ptrToWord q := fun heq => hpq (ptrToWord_inj.mp heq)
    refine ⟨b, ?_⟩
    cases type <;> simp_all [fieldsEqual, taggedWordsEqual, taggedIsPtr_ptrToWord,
      WordType.points]

/-- The comparison of the fields returns when the fields it gets to are settled. -/
theorem declsEqual_settled {l l' : List Decl}
    (hfollows : Follows (FieldEq words p q) l l') (habort : Decl.abort ∉ l)
    (hp : ∀ type i, Decl.field type i ∈ l → ValueAt words type (words (p + i)))
    (hq : ∀ type i, Decl.field type i ∈ l' → ValueAt words type (words (q + i)))
    (hsettled : ∀ pre type i post, l = pre ++ Decl.field type i :: post →
      (∀ d ∈ pre, FieldEq words p q d) → Decl.field type i ∈ l' →
        ∃ n, ∀ fuel ≥ n, ∃ b,
          fieldsEqual (taggedIsEqual words fuel) type (words (p + i)) (words (q + i)) = some b) :
    ∃ n, ∀ fuel ≥ n, ∃ b,
      declsEqual (fieldsEqual (taggedIsEqual words fuel)) words p q l = some b := by
  induction hfollows with
  | nil => exact ⟨0, fun _ _ => ⟨true, rfl⟩⟩
  | @cons d l l' _ ih =>
    rw [List.mem_cons, not_or] at habort
    cases d with
    | abort => exact absurd rfl habort.1
    | field type i =>
      obtain ⟨n, hn⟩ := hsettled [] type i l rfl nofun List.mem_cons_self
      by_cases hfield : FieldEq words p q (.field type i)
      · obtain ⟨n', hn'⟩ := ih hfield habort.2
          (fun type i hmem => hp type i (List.mem_cons_of_mem _ hmem))
          (fun type i hmem => hq type i (List.mem_cons_of_mem _ hmem))
          (fun pre type' i' post hsplit hpre hmem =>
            hsettled (.field type i :: pre) type' i' post (by rw [hsplit, List.cons_append])
              (List.forall_mem_cons.mpr ⟨hfield, hpre⟩) (List.mem_cons_of_mem _ hmem))
        refine ⟨max n n', fun fuel hfuel => ?_⟩
        obtain ⟨b, hb⟩ := hn fuel (le_trans (le_max_left n n') hfuel)
        obtain ⟨b', hb'⟩ := hn' fuel (le_trans (le_max_right n n') hfuel)
        cases b with
        | true => exact ⟨b', by simpa [declsEqual, hb] using hb'⟩
        | false => exact ⟨false, by simp [declsEqual, hb]⟩
      · refine ⟨n, fun fuel hfuel => ?_⟩
        obtain ⟨b, hb⟩ := hn fuel hfuel
        obtain ⟨heq, -⟩ := fieldsEqual_sound (taggedIsEqual_sound fuel)
          (hp type i List.mem_cons_self) (hq type i List.mem_cons_self) hb
        cases b with
        | true => exact absurd (heq.mp rfl) hfield
        | false => exact ⟨false, by simp [declsEqual, hb]⟩

/-- Cells that are told apart by their first words, or by NULL. -/
theorem taggedIsEqual_differ (hpq : p ≠ q) (h : p = nullPtr ∨ q = nullPtr ∨ words p ≠ words q)
    {fuel : Nat} (hfuel : fuel ≥ 1) : ∃ b, taggedIsEqual words fuel p q = some b := by
  obtain ⟨fuel, rfl⟩ := Nat.exists_eq_add_of_le' hfuel
  refine ⟨false, ?_⟩
  rw [taggedIsEqual, if_neg hpq]
  by_cases hnull : p = nullPtr ∨ q = nullPtr
  · rw [if_pos hnull]
  · rw [← or_assoc] at h
    rw [if_neg hnull, if_pos (h.resolve_left hnull)]

/-- A settled comparison returns. -/
theorem Settled.returns (h : Settled words type x y) (hx : ValueAt words type x)
    (hy : ValueAt words type y) :
    ∃ n, ∀ fuel ≥ n, ∃ b, fieldsEqual (taggedIsEqual words fuel) type x y = some b := by
  induction h with
  | @same type x =>
    exact ⟨0, fun _ _ => ⟨true, by cases type <;> simp [fieldsEqual, taggedWordsEqual]⟩⟩
  | @word type x y htype =>
    refine ⟨0, fun fuel _ => ?_⟩
    cases type with
    | word => exact ⟨_, rfl⟩
    | void => exact ⟨_, rfl⟩
    | ptr | nonnullPtr | tagged => cases htype
  | @int x y hint =>
    refine ⟨0, fun fuel _ => ?_⟩
    have hptrs : ¬ (taggedIsPtr x = true ∧ taggedIsPtr y = true) := by
      rcases hint with hint | hint <;> simp [hint]
    rw [fieldsEqual, taggedWordsEqual, if_neg hptrs]
    split_ifs <;> exact ⟨_, rfl⟩
  | @differ type p q h =>
    by_cases htype : type.points = true
    · exact ⟨1, fieldsEqual_returns_ptr htype fun hpq _ hfuel => taggedIsEqual_differ hpq h hfuel⟩
    · cases type <;> first | exact ⟨0, fun _ _ => ⟨_, rfl⟩⟩ | exact absurd rfl htype
  | @shtring type p q _ _ _ _ _ _ hp hq htext =>
    by_cases htype : type.points = true
    · refine ⟨1, fieldsEqual_returns_ptr htype fun hpq fuel hfuel => ?_⟩
      by_cases hdiffer : p = nullPtr ∨ q = nullPtr ∨ words p ≠ words q
      · exact taggedIsEqual_differ hpq hdiffer hfuel
      · obtain ⟨fuel, rfl⟩ := Nat.exists_eq_add_of_le' hfuel
        rw [← or_assoc, not_or, not_not] at hdiffer
        rw [taggedIsEqual, if_neg hpq, if_neg hdiffer.1, if_neg (not_not.mpr hdiffer.2),
          if_pos hp.type]
        exact ⟨_, (shtringCmp_sound hp hq).1 htext⟩
    · cases type <;> first | exact ⟨0, fun _ _ => ⟨_, rfl⟩⟩ | exact absurd rfl htype
  | @cell type p q hshtring hfields ih =>
    by_cases htype : type.points = true
    · by_cases hdiffer : p = nullPtr ∨ q = nullPtr ∨ words p ≠ words q
      · exact ⟨1, fieldsEqual_returns_ptr htype fun hpq _ hfuel =>
          taggedIsEqual_differ hpq hdiffer hfuel⟩
      · rw [not_or, not_or, not_not] at hdiffer
        obtain ⟨hp, hq, hheader⟩ := hdiffer
        have hcellp := hx.cellAt htype hp hshtring
        have hcellq := hy.cellAt htype hq (hheader ▸ hshtring)
        obtain ⟨n, hn⟩ := declsEqual_settled (hcellp.follows hcellq hheader) hcellp.not_abort
          hcellp.fields hcellq.fields fun pre type' i post hsplit hpre hmem =>
            ih pre type' i post hsplit hpre
              (hcellp.fields type' i (by rw [hsplit]; simp)) (hcellq.fields type' i hmem)
        refine ⟨n + 1, fieldsEqual_returns_ptr htype fun hpq fuel hfuel => ?_⟩
        obtain ⟨k, hk, rfl⟩ : ∃ k ≥ n, fuel = k + 1 := ⟨fuel - 1, by omega, by omega⟩
        obtain ⟨b, hb⟩ := hn k hk
        have hnull : ¬ (p = nullPtr ∨ q = nullPtr) := not_or.mpr ⟨hp, hq⟩
        exact ⟨b, by rw [taggedIsEqual, if_neg hpq, if_neg hnull, if_neg (not_not.mpr hheader),
          if_neg hshtring, hb]⟩
    · cases type <;> first | exact ⟨0, fun _ _ => ⟨_, rfl⟩⟩ | exact absurd rfl htype

end sound

/-! ## tagged words -/

/-- The equality of values is an equivalence, and `TAGGED_IS_EQUAL` decides it
for the words whose comparison is settled, and only for those.  For pointers to
different cells it is `tagged_is_equal`. -/
theorem tagged_is_equal_values (words : Nat → Nat) :
    Equivalence (fun x y : {x // ValueAt words .tagged x} =>
      ValueEq words .tagged x.val y.val) ∧
    (∀ x y, ValueAt words .tagged x → ValueAt words .tagged y →
      ((∃ b, (∃ n, ∀ fuel ≥ n, taggedWordsEqual (taggedIsEqual words fuel) x y = some b) ∧
        (b = true ↔ ValueEq words .tagged x y)) ↔ Settled words .tagged x y)) ∧
    ∀ p q, ValueAt words .tagged (ptrToWord p) → ValueAt words .tagged (ptrToWord q) → p ≠ q →
      ((∃ b, (∃ n, ∀ fuel ≥ n, taggedIsEqual words fuel p q = some b) ∧
        (b = true ↔ ValueEq words .tagged (ptrToWord p) (ptrToWord q))) ↔
          Settled words .tagged (ptrToWord p) (ptrToWord q)) := by
  have hdecides : ∀ x y, ValueAt words .tagged x → ValueAt words .tagged y →
      ((∃ b, (∃ n, ∀ fuel ≥ n, taggedWordsEqual (taggedIsEqual words fuel) x y = some b) ∧
        (b = true ↔ ValueEq words .tagged x y)) ↔ Settled words .tagged x y) := by
    intro x y hx hy
    have hsound (fuel : Nat) {b : Bool}
        (h : taggedWordsEqual (taggedIsEqual words fuel) x y = some b) :
        (b = true ↔ ValueEq words .tagged x y) ∧ Settled words .tagged x y :=
      fieldsEqual_sound (taggedIsEqual_sound fuel) hx hy h
    constructor
    · rintro ⟨b, ⟨n, hn⟩, -⟩
      exact (hsound n (hn n le_rfl)).2
    · intro hsettled
      obtain ⟨n, hn⟩ := hsettled.returns hx hy
      by_cases heq : ValueEq words .tagged x y
      · refine ⟨true, ⟨n, fun fuel hfuel => ?_⟩, iff_of_true rfl heq⟩
        obtain ⟨b, hb⟩ := hn fuel hfuel
        rwa [(hsound fuel hb).1.mpr heq] at hb
      · refine ⟨false, ⟨n, fun fuel hfuel => ?_⟩, iff_of_false nofun heq⟩
        obtain ⟨b, hb⟩ := hn fuel hfuel
        cases b with
        | true => exact absurd ((hsound fuel hb).1.mp rfl) heq
        | false => exact hb
  refine ⟨⟨fun x => .refl x.property, fun {x y} h => h.symm x.property y.property,
    fun {x y _} h h' => h.trans h' x.property y.property⟩, hdecides, ?_⟩
  intro p q hp hq hpq
  have hcells (fuel : Nat) : taggedWordsEqual (taggedIsEqual words fuel) (ptrToWord p)
      (ptrToWord q) = taggedIsEqual words fuel p q := by
    have hne : ptrToWord p ≠ ptrToWord q := fun heq => hpq (ptrToWord_inj.mp heq)
    simp [taggedWordsEqual, hne, taggedIsPtr_ptrToWord]
  simpa only [hcells] using hdecides _ _ hp hq

theorem twinCells_value {p : Nat} (hp : p = 1 ∨ p = 4) :
    ValueAt twinCells .tagged (ptrToWord p) := by
  have hdecls : cellDecls twinCells p = [.field .tagged 1, .field .tagged 2] := by
    rcases hp with rfl | rfl
    · exact cellDecls_twinCells.1
    · exact cellDecls_twinCells.2
  refine .cell rfl (by rcases hp with rfl | rfl <;> decide) (by rcases hp with rfl | rfl <;> decide)
    (fun h => absurd h (by rcases hp with rfl | rfl <;> decide)) (by rw [hdecls]; decide) ?_
  intro type i hmem
  rw [hdecls] at hmem
  simp only [List.mem_cons, Decl.field.injEq, List.not_mem_nil, or_false] at hmem
  rcases hmem with ⟨rfl, rfl⟩ | ⟨rfl, rfl⟩ <;> rcases hp with rfl | rfl <;>
    exact .int (by decide)

/-- The twins, which `cell_is_equal` tells apart, are the same here. -/
theorem tagged_is_equal_values_twins :
    Settled twinCells .tagged (ptrToWord 1) (ptrToWord 4) ∧
    ∃ b, (∃ n, ∀ fuel ≥ n, taggedWordsEqual (taggedIsEqual twinCells fuel) (ptrToWord 1)
      (ptrToWord 4) = some b) ∧
      (b = true ↔ ValueEq twinCells .tagged (ptrToWord 1) (ptrToWord 4)) := by
  have hsettled : Settled twinCells .tagged (ptrToWord 1) (ptrToWord 4) := by
    refine .cell (by decide) fun pre type' i post hsplit _ => ?_
    have hmem : Decl.field type' i ∈ cellDecls twinCells 1 := by rw [hsplit]; simp
    rw [cellDecls_twinCells.1] at hmem
    simp only [List.mem_cons, Decl.field.injEq, List.not_mem_nil, or_false] at hmem
    rcases hmem with ⟨rfl, rfl⟩ | ⟨rfl, rfl⟩ <;> exact .int (by decide)
  exact ⟨hsettled, ((tagged_is_equal_values twinCells).2.1 _ _ (twinCells_value (.inl rfl))
    (twinCells_value (.inr rfl))).mpr hsettled⟩

/-- The memory of `longWords` with the same shtring once more, in another cell. -/
def longTwins (a : Nat) : Nat := if a / 16 = 41 then longWords (a - 16) else longWords a

theorem longTwins_shtring {p : Nat} (hp : p = 640 ∨ p = 656) :
    TextAt longTwins p (longChunks 6) 0 (32 * 8 ^ 9 - 2048) := by
  have hfirst : TextAt longTwins 640 (longChunks 6) 0 (32 * 8 ^ 9 - 2048) := by
    refine (longWords_shtring (S := (· < 656)) fun _ h => h).frame (fun a ha => ?_) fun _ _ => trivial
    have ha : a < 656 := ha
    rw [longTwins, if_neg (by omega)]
  rcases hp with rfl | rfl
  · exact hfirst
  · have hheight : shtringHeight longTwins 656 = shtringHeight longTwins 640 := by decide
    have htree : shtringChunkTree longTwins 656 = shtringChunkTree longTwins 640 := by decide
    exact
      { ne_null := by decide
        type := by decide
        offset := by decide
        length := by decide
        region := fun _ _ => trivial
        window := hfirst.window
        fit := hfirst.fit
        tree := by rw [hheight, htree]; exact hfirst.tree }

/-- Two shtrings of `2 ^ 32 - 2048` zeros are not compared. -/
theorem tagged_is_equal_long : ¬ ∀ (words : Nat → Nat) (x y : Nat), ValueAt words .tagged x →
    ValueAt words .tagged y →
      ∃ b, (∃ n, ∀ fuel ≥ n, taggedWordsEqual (taggedIsEqual words fuel) x y = some b) ∧
        (b = true ↔ ValueEq words .tagged x y) := by
  intro h
  have hfirst := longTwins_shtring (.inl rfl)
  have hsecond := longTwins_shtring (.inr rfl)
  obtain ⟨b, ⟨n, hn⟩, -⟩ := h longTwins (ptrToWord 640) (ptrToWord 656)
    (.shtring rfl hfirst (by decide)) (.shtring rfl hsecond (by decide))
  have hstuck : shtringCmpWithoutAllocating longTwins 640 656 = none := by
    refine (shtringCmp_sound hfirst hsecond).2 fun hcomparable => ?_
    rcases hcomparable with hle | hne
    · rw [length_windowText hfirst.window, Nat.min_self] at hle
      exact absurd hle (by decide)
    · exact hne rfl
  have hrun : taggedWordsEqual (taggedIsEqual longTwins (n + 1)) (ptrToWord 640) (ptrToWord 656) =
      none := by
    have hcells : taggedIsEqual longTwins (n + 1) 640 656 = none := by
      rw [taggedIsEqual, if_neg (by decide), if_neg (by decide), if_neg (by decide),
        if_pos (by decide), hstuck]
      rfl
    rw [taggedWordsEqual, if_neg (by decide), if_pos (by decide), wordToPtr_ptrToWord,
      wordToPtr_ptrToWord, hcells]
  rw [hn (n + 1) (Nat.le_succ n)] at hrun
  cases hrun

end Shades
