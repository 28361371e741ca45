import Mathlib.Data.List.Pairwise
import Shades.Gc.Heap
import Shades.Moved

/-!
# Shades.CellSlots

The slots of a cell: its words that refer to other cells.

The collector finds the slots of a cell while it copies it, and by then some words of
other cells are forward pointers.  The declarations of a cell depend on its first word,
on words that are declared as raw data and, in a continuation frame, on the byte code.
So they are the same wherever those words are the same.
-/

namespace Shades

/-! ## slots -/

/-- A word of a type is a pointer to a cell. -/
def WordType.refers (type : WordType) (x : Nat) : Bool :=
  x != nullWord && (type == .ptr || type == .nonnullPtr || type == .tagged && taggedIsPtr x)

theorem WordType.refers_eq_true {type : WordType} {x : Nat} :
    type.refers x = true ↔ x ≠ nullWord ∧ PointsTo type x (wordToPtr x) := by
  constructor
  · intro h
    cases type with
    | ptr => exact ⟨by simpa [refers] using h, .ptr⟩
    | nonnullPtr => exact ⟨by simpa [refers] using h, .nonnullPtr⟩
    | tagged =>
      have h : x ≠ nullWord ∧ taggedIsPtr x = true := by simpa [refers] using h
      exact ⟨h.1, .tagged h.2⟩
    | word | void => simp [refers] at h
  · rintro ⟨hne, hpoints⟩
    cases hpoints <;> simp_all [refers]

@[simp] theorem WordType.refers_word {x : Nat} : WordType.word.refers x = false := by
  simp [refers]

@[simp] theorem WordType.refers_nullWord {type : WordType} : type.refers nullWord = false := by
  simp [refers]

/-- The address of a declared word that refers to a cell. -/
def declSlot (words : Nat → Nat) (p : Nat) : Decl → Option Nat
  | .abort => none
  | .field type i => if type.refers (words (p + i)) then some (p + i) else none

/-- The addresses of the words of a cell that refer to cells, as they are declared. -/
def slots (words : Nat → Nat) (p : Nat) : List Nat :=
  (cellDecls words p).filterMap (declSlot words p)

section slots

variable {words words' : Nat → Nat} {p q b i : Nat} {type : WordType}

theorem mem_slots : b ∈ slots words p ↔ ∃ type i, Decl.field type i ∈ cellDecls words p ∧
    type.refers (words (p + i)) = true ∧ b = p + i := by
  unfold slots
  rw [List.mem_filterMap]
  constructor
  · rintro ⟨d, hd, hb⟩
    cases d with
    | abort => cases hb
    | field type i =>
      simp only [declSlot, Option.ite_none_right_eq_some] at hb
      exact ⟨type, i, hd, hb.1, (Option.some.inj hb.2).symm⟩
  · rintro ⟨type, i, hd, hrefers, rfl⟩
    exact ⟨_, hd, if_pos hrefers⟩

theorem codeDecls_le {last fuel pc : Nat} (h : Decl.field type i ∈ codeDecls words p last fuel pc) :
    pc ≤ i := by
  induction fuel generalizing pc with
  | zero => simp [codeDecls] at h
  | succ fuel ih =>
    rw [codeDecls, List.mem_cons, Decl.field.injEq] at h
    rcases h with h | h
    · omega
    · cases hinsn : insnOfCode (words (p + pc)) with
      | none => simp [hinsn] at h
      | some insn =>
        simp only [hinsn, List.mem_append, List.mem_mapIdx] at h
        rcases h with ⟨k, hk, h⟩ | h
        · injection h
          omega
        · split at h
          · exact Nat.le_trans (Nat.le_add_right _ _) (ih h)
          · simp at h

theorem mem_declareAs {x j : Nat} (h : Decl.field type i ∈ declareAs x j) : i = j := by
  unfold declareAs at h
  split at h <;> simp_all

/-- The byte code of a frame, where it is now. -/
def contBcode (words : Nat → Nat) (p : Nat) : Nat :=
  let bcode := wordToPtr (words (p + 1))
  if cellType (words bcode) = CellType.forwardPointer.code then wordToPtr (words (bcode + 1))
  else bcode

/-- The depth of the stack in a frame. -/
def contDepth (words : Nat → Nat) (p : Nat) : Nat :=
  if words p &&& 0xFFF = 0xFFF then words (contBcode words p + 2) else words p &&& 0xFFF

theorem contDecls_eq (words : Nat → Nat) (p : Nat) :
    contDecls words p = .field .nonnullPtr 1 :: .field .ptr 2 ::
      if contDepth words p ≤ words (contBcode words p + 2) then
        (List.range (contDepth words p)).flatMap fun i =>
          declareAs (words (contBcode words p + 7 + words (contBcode words p + 3) + i)) (3 + i)
      else [.abort] := rfl

/-- The first word is never declared. -/
theorem cellDecls_pos (h : Decl.field type i ∈ cellDecls words p) : 1 ≤ i := by
  unfold cellDecls at h
  cases hcell : cellTypeOf (words p) with
  | none => simp [hcell] at h
  | some t =>
    cases t
    case bcode =>
      simp only [hcell, bcodeDecls, List.mem_append, mem_declare] at h
      rcases h with (h | h) | h
      · exact h.2.1
      · exact Nat.le_trans (by decide) (codeDecls_le h)
      · omega
    case cont =>
      simp only [hcell, contDecls_eq, List.mem_cons, Decl.field.injEq] at h
      rcases h with h | h | h
      · omega
      · omega
      · split at h
        · obtain ⟨k, -, hk⟩ := List.mem_flatMap.mp h
          have := mem_declareAs hk
          omega
        · simp at h
    case context =>
      simp only [hcell, contextDecls, List.cons_append, List.mem_cons, List.mem_append,
        mem_declare, Decl.field.injEq] at h
      rcases h with h | (h | h)
      · omega
      · have := mem_declareAs h
        omega
      · omega
    case generationPinfo =>
      simp only [hcell, List.cons_append, List.mem_cons, List.mem_append, mem_declare,
        Decl.field.injEq] at h
      rcases h with h | (h | h) | h
      · omega
      · omega
      · omega
      · split at h <;> simp at h
    case leaf =>
      simp only [hcell, List.mem_flatMap, List.mem_cons, Decl.field.injEq, List.not_mem_nil,
        or_false] at h
      omega
    all_goals
      simp only [hcell, List.cons_append, List.mem_cons, List.mem_append, mem_declare,
        Decl.field.injEq, List.not_mem_nil, or_false, reduceCtorEq] at h
      try omega

/-! ## the same declarations elsewhere -/

/-- The declarations of a frame are read off its byte code, wherever that is. -/
theorem contDecls_congr_bcode {r : Nat} (r' : Nat) (hr : contBcode words p = r)
    (hr' : contBcode words' q = r') (h0 : words' q = words p)
    (hword : ∀ i, Decl.field .word i ∈ bcodeDecls words r → words' (r' + i) = words (r + i)) :
    contDecls words' q = contDecls words p := by
  have h2 : words' (r' + 2) = words (r + 2) := hword 2 (mem_bcodeDecls (by omega))
  have h3 : words' (r' + 3) = words (r + 3) := hword 3 (mem_bcodeDecls (by omega))
  rw [contDecls_eq, contDecls_eq, contDepth, contDepth, hr, hr', h0, h2, h3]
  generalize (if words p &&& 0xFFF = 0xFFF then words (r + 2) else words p &&& 0xFFF) = depth
  split_ifs with hdepth
  · refine congrArg _ (congrArg _ (List.flatMap_congr fun i hi => ?_))
    have hlt := List.mem_range.mp hi
    have htype := hword (7 + words (r + 3) + i) (mem_bcodeDecls (by omega))
    rw [show r' + 7 + words (r + 3) + i = r' + (7 + words (r + 3) + i) by omega, htype,
      show r + (7 + words (r + 3) + i) = r + 7 + words (r + 3) + i by omega]
  · rfl

theorem contBcode_eq (h : cellType (words (wordToPtr (words (p + 1)))) = CellType.bcode.code) :
    contBcode words p = wordToPtr (words (p + 1)) := by
  rw [contBcode, h]
  exact if_neg (by decide)

theorem contBcode_forward
    (h : cellType (words (wordToPtr (words (p + 1)))) = CellType.forwardPointer.code) :
    contBcode words p = wordToPtr (words (wordToPtr (words (p + 1)) + 1)) := if_pos h

theorem cellDecls_bcode (h : cellType (words p) = CellType.bcode.code) :
    cellDecls words p = bcodeDecls words p := by
  simp only [cellDecls, cellTypeOf_eq_some.mpr h]

theorem cellDecls_cont (h : cellType (words p) = CellType.cont.code) :
    cellDecls words p = contDecls words p := by
  simp only [cellDecls, cellTypeOf_eq_some.mpr h]

/-- Cells with the same first word and the same raw words have the same declarations. -/
theorem cellDecls_congr (h0 : words' q = words p)
    (hword : ∀ i, Decl.field .word i ∈ cellDecls words p → words' (q + i) = words (p + i))
    (hcont : cellType (words p) = CellType.cont.code → contDecls words' q = contDecls words p) :
    cellDecls words' q = cellDecls words p := by
  by_cases hbcode : cellType (words p) = CellType.bcode.code
  · rw [cellDecls_bcode hbcode] at hword ⊢
    rw [cellDecls_bcode (h0 ▸ hbcode)]
    have hfollows : Follows (fun d => ∀ i, d = .field .word i → words (p + i) = words' (q + i))
        (bcodeDecls words p) (bcodeDecls words' q) := bcodeDecls_follows fun i hi => hi i rfl
    exact hfollows.eq fun d hd i hi => (hword i (hi ▸ hd)).symm
  by_cases hframe : cellType (words p) = CellType.cont.code
  · rw [cellDecls_cont hframe, cellDecls_cont (h0 ▸ hframe), hcont hframe]
  · cases hcell : cellTypeOf (words p) with
    | none => simp only [cellDecls, h0, hcell]
    | some t =>
      have htype := cellTypeOf_eq_some.mp hcell
      cases t
      case bcode => exact absurd htype hbcode
      case cont => exact absurd htype hframe
      all_goals simp only [cellDecls, h0, hcell]

/-- And they are as large. -/
theorem cellGetNumberOfWords_congr (h0 : words' q = words p)
    (hword : ∀ i, Decl.field .word i ∈ cellDecls words p → words' (q + i) = words (p + i)) :
    cellGetNumberOfWords words' q = cellGetNumberOfWords words p := by
  cases hcell : cellTypeOf (words p) with
  | none => simp only [cellGetNumberOfWords, h0, hcell]
  | some t =>
    have htype := cellTypeOf_eq_some.mp hcell
    cases t
    case bcode =>
      rw [cellDecls_bcode htype] at hword
      simp only [cellGetNumberOfWords, h0, hcell, hword 2 (mem_bcodeDecls (by omega)),
        hword 3 (mem_bcodeDecls (by omega))]
    all_goals simp only [cellGetNumberOfWords, h0, hcell]

/-! ## cells -/

/-- Only raw data is declared twice. -/
def Decl.Apart (d d' : Decl) : Prop :=
  ∀ type type' i, d = .field type i → d' = .field type' i → type = .word ∧ type' = .word

instance : Std.Symm Decl.Apart :=
  ⟨fun _ _ h type type' i hd hd' => (h type' type i hd' hd).symm⟩

/-- A cell as the collector expects it. -/
structure CellOk (words : Nat → Nat) (p : Nat) : Prop where
  two_le : 2 ≤ cellGetNumberOfWords words p
  inside : ∀ {type i}, Decl.field type i ∈ cellDecls words p → i < cellGetNumberOfWords words p
  apart : (cellDecls words p).Pairwise Decl.Apart
  nonnull : ∀ {i}, Decl.field .nonnullPtr i ∈ cellDecls words p → words (p + i) ≠ nullWord
  not_forward : cellType (words p) ≠ CellType.forwardPointer.code
  aligned : ∀ b ∈ slots words p, ptrToWord (wordToPtr (words b)) = words b
  bcode : cellType (words p) = CellType.cont.code →
    cellType (words (wordToPtr (words (p + 1)))) = CellType.bcode.code

namespace CellOk

/-- The type of a word that refers to a cell. -/
theorem type_eq {type' : WordType} (h : CellOk words p)
    (hmem : Decl.field type i ∈ cellDecls words p) (hmem' : Decl.field type' i ∈ cellDecls words p)
    (hne : type ≠ .word) : type' = type := by
  by_contra hdiff
  have hne' : Decl.field type i ≠ .field type' i := by
    rintro ⟨⟩
    exact hdiff rfl
  have hapart := h.apart.forall hmem hmem' hne'
  exact hne (hapart type type' i rfl rfl).1

theorem slots_nodup (h : CellOk words p) : (slots words p).Nodup := by
  refine h.apart.filterMap _ fun d d' hapart b hb b' hb' heq => ?_
  cases d with
  | abort => cases hb
  | field type i =>
    cases d' with
    | abort => cases hb'
    | field type' j =>
      simp only [declSlot, Option.ite_none_right_eq_some, Option.some.injEq] at hb hb'
      obtain ⟨hrefers, rfl⟩ := hb
      obtain ⟨-, rfl⟩ := hb'
      obtain rfl : i = j := by omega
      rw [(hapart type type' i rfl rfl).1, WordType.refers_word] at hrefers
      cases hrefers

theorem slot_bounds (h : CellOk words p) (hb : b ∈ slots words p) :
    p < b ∧ b < p + cellGetNumberOfWords words p := by
  obtain ⟨type, i, hmem, -, rfl⟩ := mem_slots.mp hb
  have := cellDecls_pos hmem
  have := h.inside hmem
  omega

theorem slot_ne_null (hb : b ∈ slots words p) : words b ≠ nullWord := by
  obtain ⟨type, i, -, hrefers, rfl⟩ := mem_slots.mp hb
  exact (WordType.refers_eq_true.mp hrefers).1

/-- A frame refers to its byte code. -/
theorem bcode_slot (h : CellOk words p) (hcont : cellType (words p) = CellType.cont.code) :
    p + 1 ∈ slots words p := by
  have hmem : Decl.field .nonnullPtr 1 ∈ cellDecls words p := by
    rw [cellDecls_cont hcont, contDecls_eq]
    exact List.mem_cons_self
  refine mem_slots.mpr ⟨.nonnullPtr, 1, hmem, ?_, rfl⟩
  exact WordType.refers_eq_true.mpr ⟨h.nonnull hmem, .nonnullPtr⟩

end CellOk

/-! ## cells after a move -/

variable {move : Nat → Nat} {x : Nat}

theorem movedWord_of_not_refers (h : type.refers x = false) : movedWord move type x = x := by
  by_cases hx : x = nullWord
  · rw [hx, movedWord_nullWord]
  · cases type <;> simp_all [WordType.refers, movedWord]

theorem movedWord_of_refers (h : type.refers x = true)
    (haligned : ptrToWord (wordToPtr x) = x) :
    movedWord move type x = ptrToWord (move (wordToPtr x)) := by
  obtain ⟨hne, hpoints⟩ := WordType.refers_eq_true.mp h
  have htype : type.points = true := by cases hpoints <;> rfl
  rw [← haligned] at hne ⊢
  rw [movedWord_ptrToWord htype (mt ptrToWord_eq_nullWord.mpr hne), wordToPtr_ptrToWord]

theorem refers_ptrToWord (h : type.refers x = true) {r : Nat} (hr : r ≠ nullPtr) :
    type.refers (ptrToWord r) = true := by
  obtain ⟨-, hpoints⟩ := WordType.refers_eq_true.mp h
  have htype : type.points = true := by cases hpoints <;> rfl
  refine WordType.refers_eq_true.mpr ⟨mt ptrToWord_eq_nullWord.mp hr, ?_⟩
  rw [wordToPtr_ptrToWord]
  exact pointsTo_ptrToWord htype r

/-- The cell at `p` is found at `move p`, and its words have moved. -/
structure CellMoved (move : Nat → Nat) (words words' : Nat → Nat) (p : Nat) : Prop where
  header : words' (move p) = words p
  field : ∀ {type i}, Decl.field type i ∈ cellDecls words p →
    words' (move p + i) = movedWord move type (words (p + i))

namespace CellMoved

theorem word (h : CellMoved move words words' p) {i : Nat}
    (hi : Decl.field .word i ∈ cellDecls words p) : words' (move p + i) = words (p + i) :=
  h.field hi

theorem numberOfWords (h : CellMoved move words words' p) :
    cellGetNumberOfWords words' (move p) = cellGetNumberOfWords words p :=
  cellGetNumberOfWords_congr h.header fun _ => h.word

/-- The word that refers to the byte code of a frame. -/
theorem bcode (h : CellMoved move words words' p) (hok : CellOk words p)
    (hcont : cellType (words p) = CellType.cont.code) :
    words' (move p + 1) = ptrToWord (move (wordToPtr (words (p + 1)))) := by
  have hmem : Decl.field .nonnullPtr 1 ∈ cellDecls words p := by
    rw [cellDecls_cont hcont, contDecls_eq]
    exact List.mem_cons_self
  rw [h.field hmem]
  exact movedWord_of_refers (WordType.refers_eq_true.mpr ⟨hok.nonnull hmem, .nonnullPtr⟩)
    (hok.aligned _ (hok.bcode_slot hcont))

/-- The byte code of a frame has to be found again, too. -/
theorem decls (h : CellMoved move words words' p) (hok : CellOk words p)
    (hcode : cellType (words p) = CellType.cont.code →
      CellMoved move words words' (wordToPtr (words (p + 1)))) :
    cellDecls words' (move p) = cellDecls words p := by
  refine cellDecls_congr h.header (fun _ => h.word) fun hcont => ?_
  have hbcode := hcode hcont
  have htype := hok.bcode hcont
  have hslot := h.bcode hok hcont
  refine contDecls_congr_bcode (move (wordToPtr (words (p + 1)))) (contBcode_eq htype) ?_
    h.header fun i hi => hbcode.word (cellDecls_bcode htype ▸ hi)
  rw [contBcode_eq (by rw [hslot, wordToPtr_ptrToWord, hbcode.header, htype]), hslot,
    wordToPtr_ptrToWord]

/-- The slots have moved with the cell. -/
theorem slots (h : CellMoved move words words' p) (hok : CellOk words p)
    (hdecls : cellDecls words' (move p) = cellDecls words p)
    (hne : ∀ b ∈ Shades.slots words p, move (wordToPtr (words b)) ≠ nullPtr) :
    Shades.slots words' (move p) = (Shades.slots words p).map fun b => move p + (b - p) := by
  unfold Shades.slots
  rw [hdecls, List.map_filterMap]
  refine List.filterMap_congr fun d hd => ?_
  cases d with
  | abort => rfl
  | field type i =>
    cases hrefers : type.refers (words (p + i)) with
    | false =>
      have hword := h.field hd
      rw [movedWord_of_not_refers hrefers] at hword
      simp [declSlot, hword, hrefers]
    | true =>
      have hmem : p + i ∈ Shades.slots words p := mem_slots.mpr ⟨type, i, hd, hrefers, rfl⟩
      have hword := h.field hd
      rw [movedWord_of_refers hrefers (hok.aligned _ hmem)] at hword
      simp [declSlot, hword, hrefers, refers_ptrToWord hrefers (hne _ hmem)]

theorem cellOk (h : CellMoved move words words' p) (hok : CellOk words p)
    (hcode : cellType (words p) = CellType.cont.code →
      CellMoved move words words' (wordToPtr (words (p + 1))))
    (hne : ∀ b ∈ Shades.slots words p, move (wordToPtr (words b)) ≠ nullPtr) :
    CellOk words' (move p) := by
  have hdecls := h.decls hok hcode
  refine {
    two_le := h.numberOfWords ▸ hok.two_le
    inside := fun hmem => h.numberOfWords ▸ hok.inside (hdecls ▸ hmem)
    apart := hdecls ▸ hok.apart
    nonnull := fun {i} hmem => ?_
    not_forward := h.header ▸ hok.not_forward
    aligned := fun b hb => ?_
    bcode := fun hcont => ?_ }
  · rw [hdecls] at hmem
    have hrefers : WordType.refers .nonnullPtr (words (p + i)) = true :=
      WordType.refers_eq_true.mpr ⟨hok.nonnull hmem, .nonnullPtr⟩
    have hslot : p + i ∈ Shades.slots words p := mem_slots.mpr ⟨_, i, hmem, hrefers, rfl⟩
    rw [h.field hmem, movedWord_of_refers hrefers (hok.aligned _ hslot)]
    exact mt ptrToWord_eq_nullWord.mp (hne _ hslot)
  · rw [h.slots hok hdecls hne] at hb
    obtain ⟨c, hc, rfl⟩ := List.mem_map.mp hb
    obtain ⟨type, i, hmem, hrefers, rfl⟩ := mem_slots.mp hc
    rw [Nat.add_sub_cancel_left, h.field hmem, movedWord_of_refers hrefers (hok.aligned _ hc),
      wordToPtr_ptrToWord]
  · rw [h.header] at hcont
    rw [h.bcode hok hcont, wordToPtr_ptrToWord, (hcode hcont).header]
    exact hok.bcode hcont

end CellMoved

/-- The cells `L`, which refer to each other only, are found where `move` says. -/
structure Relocated (move : Nat → Nat) (words words' : Nat → Nat) (L : Nat → Prop) : Prop where
  moved : ∀ {p}, L p → CellMoved move words words' p
  ok : ∀ {p}, L p → CellOk words p
  closed : ∀ {p b}, L p → b ∈ slots words p → L (wordToPtr (words b))
  ne_null : ∀ {p}, L p → move p ≠ nullPtr

namespace Relocated

variable {L L' : Nat → Prop} {move' : Nat → Nat} {words'' : Nat → Nat}

/-- Cells stay where they are if their words do not change. -/
theorem of_words (hok : ∀ {p}, L p → CellOk words p)
    (hclosed : ∀ {p b}, L p → b ∈ slots words p → L (wordToPtr (words b)))
    (hne : ∀ {p}, L p → p ≠ nullPtr)
    (hwords : ∀ {p i}, L p → i < cellGetNumberOfWords words p → words' (p + i) = words (p + i)) :
    Relocated id words words' L where
  moved := by
    intro p hp
    have hpos : 0 < cellGetNumberOfWords words p := Nat.lt_of_lt_of_le (by decide) (hok hp).two_le
    refine ⟨hwords hp hpos, fun {type i} hmem => ?_⟩
    rw [id, hwords hp ((hok hp).inside hmem)]
    cases hrefers : type.refers (words (p + i)) with
    | false => rw [movedWord_of_not_refers hrefers]
    | true =>
      have hslot : p + i ∈ slots words p := mem_slots.mpr ⟨type, i, hmem, hrefers, rfl⟩
      have haligned := (hok hp).aligned _ hslot
      rw [movedWord_of_refers hrefers haligned, id, haligned]
  ok := hok
  closed := hclosed
  ne_null := hne

theorem bcode (h : Relocated move words words' L) (hp : L p)
    (hcont : cellType (words p) = CellType.cont.code) :
    CellMoved move words words' (wordToPtr (words (p + 1))) :=
  h.moved (h.closed hp ((h.ok hp).bcode_slot hcont))

theorem decls (h : Relocated move words words' L) (hp : L p) :
    cellDecls words' (move p) = cellDecls words p :=
  (h.moved hp).decls (h.ok hp) (h.bcode hp)

theorem slots_eq (h : Relocated move words words' L) (hp : L p) :
    slots words' (move p) = (slots words p).map fun b => move p + (b - p) :=
  (h.moved hp).slots (h.ok hp) (h.decls hp) fun _ hb => h.ne_null (h.closed hp hb)

theorem cellOk (h : Relocated move words words' L) (hp : L p) : CellOk words' (move p) :=
  (h.moved hp).cellOk (h.ok hp) (h.bcode hp) fun _ hb => h.ne_null (h.closed hp hb)

/-- What a slot refers to after the move. -/
theorem target (h : Relocated move words words' L) (hp : L p) (hb : b ∈ slots words p) :
    words' (move p + (b - p)) = ptrToWord (move (wordToPtr (words b))) := by
  have haligned := (h.ok hp).aligned b hb
  obtain ⟨type, i, hmem, hrefers, rfl⟩ := mem_slots.mp hb
  rw [Nat.add_sub_cancel_left, (h.moved hp).field hmem, movedWord_of_refers hrefers haligned]

/-- The slots of a cell that has moved are where they were in it. -/
theorem mem_slots_iff (h : Relocated move words words' L) (hp : L p) {b' : Nat} :
    b' ∈ slots words' (move p) ↔ ∃ b ∈ slots words p, b' = move p + (b - p) ∧
      wordToPtr (words' b') = move (wordToPtr (words b)) := by
  rw [h.slots_eq hp, List.mem_map]
  constructor
  · rintro ⟨b, hb, rfl⟩
    exact ⟨b, hb, rfl, by rw [h.target hp hb, wordToPtr_ptrToWord]⟩
  · rintro ⟨b, hb, rfl, -⟩
    exact ⟨b, hb, rfl⟩

theorem mono (h : Relocated move words words' L) (hL : ∀ {p}, L' p → L p)
    (hclosed : ∀ {p b}, L' p → b ∈ slots words p → L' (wordToPtr (words b))) :
    Relocated move words words' L' where
  moved := fun hp => h.moved (hL hp)
  ok := fun hp => h.ok (hL hp)
  closed := hclosed
  ne_null := fun hp => h.ne_null (hL hp)

/-- One move after the other. -/
theorem trans (h : Relocated move words words' L) (h' : Relocated move' words' words'' L')
    (hL : ∀ {p}, L p → L' (move p)) : Relocated (move' ∘ move) words words'' L where
  moved := by
    intro p hp
    refine ⟨((h'.moved (hL hp)).header).trans (h.moved hp).header, fun {type i} hmem => ?_⟩
    have hfield := (h'.moved (hL hp)).field (h.decls hp ▸ hmem)
    rw [Function.comp_apply, hfield, (h.moved hp).field hmem]
    cases hrefers : type.refers (words (p + i)) with
    | false => simp only [movedWord_of_not_refers hrefers]
    | true =>
      have hslot : p + i ∈ slots words p := mem_slots.mpr ⟨type, i, hmem, hrefers, rfl⟩
      have haligned := (h.ok hp).aligned _ hslot
      have hne := h.ne_null (h.closed hp hslot)
      rw [movedWord_of_refers hrefers haligned, movedWord_of_refers hrefers haligned,
        movedWord_of_refers (refers_ptrToWord hrefers hne) (by rw [wordToPtr_ptrToWord]),
        wordToPtr_ptrToWord]
      rfl
  ok := h.ok
  closed := h.closed
  ne_null := fun hp => h'.ne_null (hL hp)

end Relocated

end slots

end Shades
