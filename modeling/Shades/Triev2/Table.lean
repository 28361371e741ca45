import Mathlib.Tactic.IntervalCases
import Shades.Moved
import Shades.Triev2.AtMost
import Shades.Triev2.Quick

/-!
# Shades.Triev2.Table

Tries with the numbers of names as keys.

`TableAt` relates a root to what the trie has for each number.  `NULL_WORD` may
be among the words: having it is not the same as having nothing.  When a commit
moves the cells, a table that is reached is found again with its words moved.
-/

namespace Shades

namespace KeyMap

/-- The words, coded by their successors, so that `0` stands for no word. -/
def codes (t : KeyMap) (k : Nat) : Nat := (t k).elim 0 Nat.succ

/-- The words after something has become of them. -/
def move (g : Nat → Nat) (t : KeyMap) : KeyMap := fun k => (t k).map g

variable {t t' : KeyMap} {g : Nat → Nat} {k x : Nat}

@[simp] theorem codes_eq_zero : t.codes k = 0 ↔ t k = none := by
  unfold codes
  cases t k <;> simp

theorem codes_update (t : KeyMap) (k x : Nat) :
    KeyMap.codes (Function.update t k (some x)) = Function.update t.codes k x.succ := by
  funext i
  unfold codes
  by_cases hi : i = k
  · subst hi
    rw [Function.update_self, Function.update_self, Option.elim_some]
  · rw [Function.update_of_ne hi, Function.update_of_ne hi]

@[simp] theorem move_eq_none : t.move g k = none ↔ t k = none := Option.map_eq_none_iff

@[simp] theorem move_id : t.move id = t := funext fun _ => Option.map_id_apply

end KeyMap

/-- The words of a table, read back from their codes. -/
theorem reads_codes {t : KeyMap} {k x : Nat} (h : Reads Nat.succ (t.codes k) x) :
    x = (t k).getD nullWord := by
  unfold Reads KeyMap.codes at h
  cases ht : t k <;> simp [ht] at h ⊢
  · exact h
  · omega

/-- The root of a trie whose items are those of a table. -/
def TableAt (words : Nat → Nat) (S : Nat → Prop) (root : Nat) (t : KeyMap) : Prop :=
  CodedRootAt Nat.succ words S 16 root t.codes

section table

variable {words words' : Nat → Nat} {S S' : Nat → Prop} {root k x : Nat} {t t' : KeyMap}

theorem TableAt.frame (h : TableAt words S root t) (hagree : AgreeOn S words words')
    (hS : ∀ a, S a → S' a) : TableAt words' S' root t := CodedRootAt.frame h hagree hS

/-- Only numbers that fit in a word matter. -/
theorem TableAt.congr (h : TableAt words S root t) (ht : ∀ k < 2 ^ 32, t' k = t k) :
    TableAt words S root t' := by
  have hcodes : ∀ k < 4 ^ 16, t'.codes k = t.codes k := fun k hk => by
    unfold KeyMap.codes
    rw [ht k hk]
  refine Or.imp (fun h => ⟨h.1, fun k hk => (hcodes k hk).trans (h.2 k hk)⟩) (fun h => ?_) h
  exact CodedTrieAt.congr h hcodes

/-- The empty table. -/
theorem tableAt_empty (words : Nat → Nat) (S : Nat → Prop) :
    TableAt words S nullPtr fun _ => none := .inl ⟨rfl, fun _ _ => rfl⟩

section lookup

variable (h : TableAt words S root t) (hk : k < 2 ^ 32)

include h

include hk in
/-- `triev2_find`. -/
theorem TableAt.find : triev2Find words root k 32 = some ((t k).getD nullWord) := by
  obtain ⟨x, hfind, hreads⟩ := triev2Find_reads h (by decide) (Nat.le_refl 16) k
  rw [Nat.mod_eq_of_lt (show k < 4 ^ 16 by omega)] at hreads
  rw [hfind, reads_codes hreads]

include hk in
/-- `triev2_contains`. -/
theorem TableAt.contains : triev2Contains words root k 32 = some (t k).isSome := by
  have hcontains := triev2Contains_eq h (by decide) (Nat.le_refl 16) k
  rw [Nat.mod_eq_of_lt (show k < 4 ^ 16 by omega)] at hcontains
  rw [hcontains]
  cases ht : t k <;> simp [ht]

include hk in
/-- `triev2_find_quick` on a number that the table has. -/
theorem TableAt.findQuick (hx : t k = some x) : triev2FindQuick words root k 32 = some x := by
  have hmod : k % 4 ^ 16 = k := Nat.mod_eq_of_lt (by omega)
  obtain ⟨y, hfind, hreads⟩ := triev2FindQuick_reads h (by decide) (Nat.le_refl 16)
    (show t.codes (k % 4 ^ 16) ≠ 0 by rw [hmod]; simp [hx])
  rw [hmod] at hreads
  rw [hfind, reads_codes hreads, hx, Option.getD_some]

/-- `triev2_find_max`: no number of the table is greater. -/
theorem TableAt.findMax : ∃ last, triev2FindMax words root 32 = some last ∧
    (∀ k < 2 ^ 32, t k ≠ none → k ≤ last) ∧ (last = 0 ∨ last < 2 ^ 32 ∧ t last ≠ none) := by
  obtain ⟨last, hmax, hgreatest | ⟨hempty, hlast⟩⟩ :=
    triev2FindMax_spec h (by decide) (Nat.le_refl 16)
  · refine ⟨last, hmax, fun k hk hne => hgreatest.2 ⟨hk, ?_⟩, .inr ⟨hgreatest.1.1, ?_⟩⟩
    · rwa [Ne, KeyMap.codes_eq_zero]
    · exact mt KeyMap.codes_eq_zero.mpr hgreatest.1.2
  · refine ⟨last, hmax, fun k hk hne => ?_, .inl hlast⟩
    have hmem : k ∈ keySet t.codes 16 := ⟨hk, by rwa [Ne, KeyMap.codes_eq_zero]⟩
    rw [hempty] at hmem
    exact hmem.elim

end lookup

/-- `triev2_insert`. -/
theorem TableAt.insert {m : Memory} {l : Nat} (h : TableAt m.words S root t)
    (hS : ∀ a, S a → m.Live a) (k x : Nat) (hcan : m.canAllocate (triev2MaxAllocation + l)) :
    ∃ root' m', triev2Insert m root k 32 none x = some (root', m') ∧ m.Extends m' ∧
      m'.canAllocate l ∧
      TableAt m'.words (Memory.grow S m m') root' (Function.update t (k % 2 ^ 32) (some x)) := by
  obtain ⟨root', m', hinsert, hext, hcan', hroot⟩ :=
    triev2Insert_coded k (by decide) (Nat.le_refl 16) hS h hcan (Nat.succ_ne_zero x)
  unfold TableAt
  rw [KeyMap.codes_update]
  exact ⟨root', m', hinsert, hext, hcan', hroot⟩

end table

/-! ## moves -/

section moved

variable {words words' : Nat → Nat} {S S' : Nat → Prop} {roots : WordType → Nat → Prop}
  {place : Nat → Nat} {type : WordType} {root n w p t j pre : Nat} {f : Nat → Nat}

/-- The children of a node are declared. -/
theorem cellDecls_trie (hp : NodeAt words S p t j pre) :
    cellDecls words p = declare .tagged 1 (cellSize t - 1) ∧
      cellType (words p) ≠ CellType.cont.code := by
  have hlt := hp.index_lt
  have hle := hp.prefix_le
  have hpre := prefix_lt hle hp.prefix_lt
  have htype : cellType (words p) = 33 + t := by
    rw [cellType_eq, hp.header, trieHeader, code_trie1234]
    omega
  have hcell : ∀ t < 15, (CellType.ofNat (33 + t)).code = 33 + t ∧ 33 + t ≠ CellType.cont.code := by
    decide
  obtain ⟨hcode, hcont⟩ := hcell t hlt
  refine ⟨?_, htype ▸ hcont⟩
  simp only [cellDecls, cellTypeOf_eq_some.mpr (htype.trans hcode.symm)]
  interval_cases t <;> rfl

/-- The field of a node. -/
theorem NodeAt.mem_field (hp : NodeAt words S p t j pre) {i : Nat} (hi : i < cellSize t)
    (hne : i ≠ 0) : Decl.field .tagged i ∈ cellDecls words p := by
  rw [(cellDecls_trie hp).1]
  refine List.mem_map.mpr ⟨i - 1, List.mem_range.mpr (by omega), ?_⟩
  rw [Nat.add_sub_cancel' (by omega)]

/-- The child of a node is reached. -/
theorem NodeAt.child_reached (hp : NodeAt words S p t j pre)
    (hx : Reached words roots type (ptrToWord p)) (htype : type.points = true) {d : Nat}
    (hd : d < 4) (hoff : offset t d ≠ 0) : Reached words roots .tagged (words (p + offset t d)) :=
  .field hx (pointsTo_ptrToWord htype p) hp.ne_zero (cellDecls_trie hp).2
    (hp.mem_field (offset_lt_cellSize t hp.index_lt d hd) hoff)

/-- The codes of words that were moved. -/
def movedCode (place : Nat → Nat) (y : Nat) : Nat :=
  if y = 0 then 0 else (movedWord place .tagged (y - 1)).succ

/-- A trie that is reached is found again. -/
theorem CodedTrieAt.moved (h : CodedTrieAt Nat.succ words S n w f)
    (hmoved : Moved place roots words words' S') (hx : Reached words roots type w)
    (htype : type.points = true) (hdata : n = 0 → type = .tagged) :
    CodedTrieAt Nat.succ words' S' n (movedWord place type w) fun k => movedCode place (f k) := by
  induction h generalizing type with
  | @data w f hw hf =>
    obtain rfl := hdata rfl
    refine .data (Nat.succ_ne_zero _) ?_
    rw [hf, movedCode, if_neg hw, Nat.succ_sub_one]
  | @node p t j pre n kids f hp hkids hf ih =>
    have hcell : CellReached words roots p :=
      ⟨⟨type, _, hx, pointsTo_ptrToWord htype p⟩, hp.ne_zero, (cellDecls_trie hp).2⟩
    obtain ⟨hheader, h0⟩ := hmoved.header p hcell
    rw [movedWord_ptrToWord htype hp.ne_zero]
    refine @CodedTrieAt.node Nat.succ words' S' _ t j pre n
      (fun d k => movedCode place (kids d k)) _
      ⟨hmoved.ne_null p hcell, hp.index_lt, hp.prefix_le, hp.prefix_lt, hheader.trans hp.header, ?_⟩
      (fun d hd hoff => ?_) fun k hk => ?_
    · intro i hi
      rcases Nat.eq_zero_or_pos i with rfl | hpos
      · exact h0
      · exact (hmoved.field p .tagged i hcell (hp.mem_field hi (by omega))).2
    · rw [(hmoved.field p .tagged _ hcell
        (hp.mem_field (offset_lt_cellSize t hp.index_lt d hd) hoff)).1]
      exact ih d hd hoff (hp.child_reached hx htype hd hoff) rfl fun _ => rfl
    · rw [hf k hk]
      unfold nodeMap
      split_ifs
      · rfl
      · rfl

/-- The words of a trie that is reached are reached. -/
theorem CodedTrieAt.reached (h : CodedTrieAt Nat.succ words S n w f)
    (hx : Reached words roots type w) (htype : type.points = true) (hdata : n = 0 → type = .tagged)
    {k : Nat} (hk : k < 4 ^ n) (hne : f k ≠ 0) : Reached words roots .tagged (f k - 1) := by
  induction h generalizing type k with
  | @data w f hw hf =>
    obtain rfl := hdata rfl
    obtain rfl : k = 0 := by simpa using hk
    rwa [hf, Nat.succ_sub_one]
  | @node p t j pre n kids f hp hkids hf ih =>
    have hk' := hf k hk
    unfold nodeMap at hk'
    split_ifs at hk' with hcond
    · rw [hk'] at hne ⊢
      have hd : k / 4 ^ n % 4 < 4 := Nat.mod_lt _ (by decide)
      exact ih _ hd hcond.2 (hp.child_reached hx htype hd hcond.2) rfl (fun _ => rfl)
        (Nat.mod_lt _ (Nat.pow_pos (by decide))) hne
    · exact absurd hk' hne

/-- A table that is reached is found again with its words moved. -/
theorem TableAt.moved {t : KeyMap} (h : TableAt words S root t)
    (hmoved : Moved place roots words words' S') (hx : Reached words roots type (ptrToWord root))
    (htype : type.points = true) :
    ∃ root', movedWord place type (ptrToWord root) = ptrToWord root' ∧
      TableAt words' S' root' (t.move (movedWord place .tagged)) := by
  have hcodes (k : Nat) : KeyMap.codes (t.move (movedWord place .tagged)) k =
      movedCode place (t.codes k) := by
    unfold KeyMap.codes KeyMap.move movedCode
    cases t k <;> simp
  by_cases hroot : root = nullPtr
  · subst hroot
    have hempty := h.resolve_right fun h => h.node_ne_zero (by decide) rfl
    refine ⟨nullPtr, movedWord_nullWord, .inl ⟨rfl, fun k hk => ?_⟩⟩
    rw [hcodes, hempty.2 k hk]
    rfl
  · have hfull := h.resolve_left fun h => hroot ((ptrToWord_eq_zero root).mp h.1)
    have htrie := hfull.moved hmoved hx htype nofun
    refine ⟨place root, movedWord_ptrToWord htype hroot, .inr ?_⟩
    rw [movedWord_ptrToWord htype hroot] at htrie
    exact htrie.congr fun k _ => hcodes k

/-- The words of a table that is reached are reached. -/
theorem TableAt.reached {t : KeyMap} (h : TableAt words S root t)
    (hx : Reached words roots type (ptrToWord root)) (htype : type.points = true) {k x : Nat}
    (hk : k < 2 ^ 32) (hitem : t k = some x) : Reached words roots .tagged x := by
  have hcode : t.codes k = x + 1 := by
    unfold KeyMap.codes
    rw [hitem, Option.elim_some]
  rcases h with ⟨-, hempty⟩ | h
  · rw [hempty k hk] at hcode
    cases hcode
  · have hreached := h.reached hx htype nofun hk (by rw [hcode]; exact Nat.succ_ne_zero x)
    rwa [hcode, Nat.add_sub_cancel] at hreached

end moved

end Shades
