import Mathlib.Order.Bounds.Basic
import Shades.Dh.Update

/-!
# Shades.Dh.Minimum

`dh_find_min`.  The way to the left leads to the first leaf, whose keys are
smaller than all the others, and the loop over its entries finds the smallest
one.  But the data that are returned are always those of the second entry.
-/

namespace Shades

open DigitTree Dh

variable {words : Nat → Nat} {S : Nat → Prop} {m : Memory} {p key n i : Nat}
variable {entries : List (Nat × Nat)} {t : Trie internalNodeSize Nat Nat}

/-! ## the loops -/

/-- The smallest of a key and the keys of some entries. -/
theorem smallestLoop_spec (words : Nat → Nat) (p n i key : Nat) :
    IsLeast {k | k = key ∨ k ∈ (entriesFrom words p n i).map Prod.fst}
      (smallestLoop words p n i key) := by
  induction n generalizing i key with
  | zero => exact ⟨.inl rfl, by simp [entriesFrom, lowerBounds, smallestLoop]⟩
  | succ n ih =>
    rw [smallestLoop, entriesFrom, List.map_cons]
    by_cases hlt : words (p + i) < key
    · rw [if_pos hlt]
      obtain ⟨hmem, hle⟩ := ih (i + 2) (words (p + i))
      have hfirst : smallestLoop words p n (i + 2) (words (p + i)) ≤ words (p + i) := hle (.inl rfl)
      refine ⟨.inr (List.mem_cons.mpr hmem), ?_⟩
      rintro k (rfl | hk)
      · omega
      · exact hle (List.mem_cons.mp hk)
    · rw [if_neg hlt]
      obtain ⟨hmem, hle⟩ := ih (i + 2) key
      have hfirst : smallestLoop words p n (i + 2) key ≤ key := hle (.inl rfl)
      refine ⟨hmem.imp_right fun h => List.mem_cons.mpr (.inr h), ?_⟩
      rintro k (rfl | hk)
      · exact hfirst
      · rcases List.mem_cons.mp hk with rfl | hk
        · omega
        · exact hle (.inr hk)

/-- The smallest key of a leaf. -/
theorem LeafCell.smallest (hleaf : LeafCell words S p entries) (hne : entries ≠ []) :
    IsLeast {k | k ∈ entries.map Prod.fst}
      (smallestLoop words p (numberOfKeys words p - 1) 3 (words (p + 1))) := by
  obtain ⟨e, rest, rfl⟩ := List.exists_cons_of_ne_nil hne
  have hentries := hleaf.entries_eq
  rw [List.length_cons, entriesFrom, List.map_cons] at hentries
  obtain ⟨hhead, htail⟩ := List.cons.inj hentries
  have hfirst : words (p + 1) = e.1 := (Prod.mk.inj hhead).1
  have hspec := smallestLoop_spec words p rest.length 3 e.1
  have hkeys : (rest.map fun e => (e.1, ptrToWord e.2)).map Prod.fst = rest.map Prod.fst := by
    rw [List.map_map]
    rfl
  rw [htail, hkeys] at hspec
  rw [hleaf.numberOfKeys_eq, List.length_cons, Nat.add_sub_cancel, hfirst]
  simpa using hspec

/-- The first son that is there. -/
theorem firstSon_spec {j : Nat} (hj : i ≤ j) (hjn : j < i + n) (hword : words (p + j) ≠ nullWord) :
    ∃ k, firstSon words p n i = some k ∧ k ≤ j ∧ i ≤ k ∧ words (p + k) ≠ nullWord ∧
      ∀ l, i ≤ l → l < k → words (p + l) = nullWord := by
  induction n generalizing i with
  | zero => omega
  | succ n ih =>
    rw [firstSon]
    by_cases hnull : words (p + i) = nullWord
    · have hne : i ≠ j := fun heq => hword (heq ▸ hnull)
      obtain ⟨k, hson, hk, hik, hk', hbefore⟩ := ih (i := i + 1) (by omega) (by omega)
      rw [if_pos hnull]
      refine ⟨k, hson, hk, by omega, hk', fun l hl hlk => ?_⟩
      rcases Nat.eq_or_lt_of_le hl with rfl | hl
      · exact hnull
      · exact hbefore l hl hlk
    · rw [if_neg hnull]
      exact ⟨i, rfl, hj, Nat.le_refl i, hnull, fun l hl hl' => by omega⟩

/-! ## the way to the left -/

/-- The loop of `dh_find_min` comes to the first leaf. -/
theorem dhFindMinLoop_spec {room depth level : Nat} {path : Nat → Fin internalNodeSize}
    (h : DhAt words S t p) (ht : Valid digit room depth path level t) (hlevel : level ≤ depth)
    (hn : depth < n + level) (hnodes : NoEmptyNode t) (hne : t ≠ .nil) :
    ∃ q entries, FirstLeaf t entries ∧ LeafCell words S q entries ∧ entries ≠ [] ∧
      findMinLoop words n p = some (wordToPtr (words (q + 4)),
        smallestLoop words q (numberOfKeys words q - 1) 3 (words (q + 1))) := by
  induction t generalizing p path level n with
  | nil => exact absurd rfl hne
  | leaf entries =>
    obtain ⟨n, rfl⟩ : ∃ k, n = k + 1 := ⟨n - 1, by omega⟩
    have hleaf : LeafCell words S p entries := h
    exact ⟨p, entries, .leaf, hleaf, hnodes, by rw [findMinLoop, if_pos hleaf.cellType_eq]⟩
  | node sons ih =>
    obtain ⟨n, rfl⟩ : ∃ k, n = k + 1 := ⟨n - 1, by omega⟩
    obtain ⟨-, -, htype, hsons⟩ := h
    obtain ⟨hnode, hvalid⟩ := ht
    obtain ⟨⟨j, hj⟩, hrest⟩ := hnodes
    have hnull : ∀ j : Fin internalNodeSize, words (p + (j + 1)) = nullWord ↔ sons j = .nil := by
      intro j
      obtain ⟨q, hword, hq⟩ := hsons j
      rw [hword, ptrToWord_eq_nullWord, hq.eq_nullPtr_iff]
    obtain ⟨k, hson, hkj, hk, hword, hbefore⟩ :=
      firstSon_spec (i := 1) (n := internalNodeSize) (j := j + 1) (by omega) (by omega)
        (mt (hnull j).mp hj)
    obtain ⟨l, rfl⟩ : ∃ l, k = l + 1 := ⟨k - 1, by omega⟩
    have hl : l < internalNodeSize := by omega
    obtain ⟨q, hq, hqAt⟩ := hsons ⟨l, hl⟩
    obtain ⟨q', entries, hfirst, hleaf, hentries, hrun⟩ := ih ⟨l, hl⟩ hqAt (hvalid _) hnode
      (by omega : depth < n + (level + 1)) (hrest _) (mt (hnull ⟨l, hl⟩).mpr hword)
    refine ⟨q', entries, .node ⟨l, hl⟩ (fun i hi => (hnull i).mp ?_) hfirst, hleaf, hentries, ?_⟩
    · exact hbefore (i + 1) (by omega) (Nat.succ_lt_succ hi)
    · have hleaf' : ¬ cellType (words p) = CellType.leaf.code := by
        rw [htype]
        decide
      have hq' : words (p + (l + 1)) = ptrToWord q := hq
      rw [findMinLoop, if_neg hleaf', assert_true htype, hson]
      dsimp only [bind, Option.bind]
      rw [hq', wordToPtr_ptrToWord, hrun]

/-! ## the data -/

/-- The data of the key `key` are the second ones of the leaf at `p`.  When the
leaf has only one key these are the word behind it. -/
def SecondData (words : Nat → Nat) (p : Nat) (entries : List (Nat × Nat)) (key : Nat) : Prop :=
  (∃ e e' rest, entries = e :: e' :: rest ∧ entries.lookup key = some e'.2) ∨
    ∃ e, entries = [e] ∧ wordToPtr (words (p + 4)) = e.2

theorem secondData_iff (hleaf : LeafCell words S p entries) (hkey : key ∈ entries.map Prod.fst) :
    entries.lookup key = some (wordToPtr (words (p + 4))) ↔ SecondData words p entries key := by
  cases entries with
  | nil => cases hkey
  | cons e rest =>
    cases rest with
    | nil =>
      obtain rfl : key = e.1 := by simpa using hkey
      have hone : [e].lookup e.1 = some e.2 := by
        obtain ⟨k, x⟩ := e
        simp
      rw [hone]
      constructor
      · intro h
        exact .inr ⟨e, rfl, (Option.some.inj h).symm⟩
      · rintro (⟨_, _, _, heq, -⟩ | ⟨e', heq, hword⟩)
        · cases heq
        · rw [hword, (List.cons.inj heq).1]
    | cons e' rest =>
      have hentries := hleaf.entries_eq
      rw [List.length_cons, List.length_cons, entriesFrom, entriesFrom, List.map_cons,
        List.map_cons] at hentries
      obtain ⟨-, htail⟩ := List.cons.inj hentries
      obtain ⟨hsecond, -⟩ := List.cons.inj htail
      have hword : words (p + 4) = ptrToWord e'.2 := (Prod.mk.inj hsecond).2
      rw [hword, wordToPtr_ptrToWord]
      constructor
      · intro h
        exact .inl ⟨e, e', rest, rfl, h⟩
      · rintro (⟨_, _, _, heq, hlookup⟩ | ⟨_, heq, -⟩)
        · obtain ⟨-, heq⟩ := List.cons.inj heq
          rw [hlookup, (List.cons.inj heq).1]
        · cases heq

/-- `dh_find_min` returns the smallest key of a version with its data. -/
def DhFindsMin (words : Nat → Nat) (v : DhVersion) (keyP : Nat) : Prop :=
  ∃ x k, dhFindMin words v.root keyP = some (x, k) ∧ IsLeast {key | v.value key ≠ none} k ∧
    dhFind words v.root k = some x

/-- In every history of insertions with update functions, `dh_find_min` comes to
the first leaf of a hash that has keys and gives its smallest key, the smallest
one of the hash; the data are those of this key exactly when they are the second
ones of the leaf. -/
theorem dh_find_min_smallest {h : Persistent.History Memory Nat (Nat → Option Nat)}
    (hrun : DhUpdateRun m h) :
    ∀ v ∈ h.versions, (∃ key, v.value key ≠ none) → ∀ keyP,
      ∃ t p entries k, HashAt h.store t v.root ∧ FirstLeaf t entries ∧
        LeafCell h.store.words h.store.Live p entries ∧
        dhFindMin h.store.words v.root keyP = some (wordToPtr (h.store.words (p + 4)), k) ∧
        IsLeast {key | v.value key ≠ none} k ∧
        (DhFindsMin h.store.words v keyP ↔ SecondData h.store.words p entries k) := by
  rintro v hv ⟨key₀, hkey₀⟩ keyP
  obtain ⟨t, ht, hnodes, hvalue⟩ := hrun.reached v hv
  have hnil : t ≠ .nil := by
    rintro rfl
    rw [← hvalue] at hkey₀
    exact hkey₀ rfl
  obtain ⟨p, entries, hfirst, hleaf, hne, hmin⟩ :=
    dhFindMinLoop_spec (n := rounds) ht.1 ht.2 (Nat.zero_le _) (by decide) hnodes hnil
  obtain ⟨hmem, hle⟩ := hleaf.smallest hne
  obtain ⟨k, hk⟩ : ∃ k, k = smallestLoop h.store.words p (numberOfKeys h.store.words p - 1) 3
    (h.store.words (p + 1)) := ⟨_, rfl⟩
  rw [← hk] at hmin hmem hle
  have hlookup : lookup digit 0 t k = entries.lookup k := hfirst.lookup_eq ht.2 hmem
  have hsome : entries.lookup k ≠ none := mt lookup_eq_none.mp (not_not.mpr hmem)
  have hleast : IsLeast {key | v.value key ≠ none} k := by
    rw [← hvalue]
    refine ⟨fun hnone => hsome (hlookup.symm.trans hnone), fun key hkey => ?_⟩
    rcases hfirst.mem_or_lt (fun k k' level hk hk' => lt_of_digit_lt k k' level hk hk') ht.2
      ht.1.allKeys (fun j hj => by omega) hkey with hin | hlt
    · exact hle hin
    · obtain ⟨e, he, heq⟩ := List.mem_map.mp hmem
      exact heq ▸ Nat.le_of_lt (hlt e he)
  have hrun : dhFindMin h.store.words v.root keyP =
      some (wordToPtr (h.store.words (p + 4)), k) := by
    rw [dhFindMin, if_neg (mt ht.1.eq_nullPtr_iff.mp hnil), hmin]
  have hfind : dhFind h.store.words v.root k = some (wordToPtr (h.store.words (p + 4))) ↔
      SecondData h.store.words p entries k := by
    rw [dhFind_spec ht, hlookup, ← secondData_iff hleaf hmem]
    obtain ⟨x, hx⟩ := Option.ne_none_iff_exists'.mp hsome
    rw [hx]
    rfl
  refine ⟨t, p, entries, k, ht, hfirst, hleaf, hrun, hleast, ?_⟩
  rw [← hfind]
  constructor
  · rintro ⟨x, k', hrun', -, hx⟩
    rw [hrun] at hrun'
    obtain ⟨rfl, rfl⟩ := Prod.mk.inj (Option.some.inj hrun')
    exact hx
  · intro hx
    exact ⟨_, k, hrun, hleast, hx⟩

/-- The keys `1` and `2` are inserted in the empty hash. -/
theorem dhUpdateRun_two : ∃ q m q' m',
    dhInsertWith (roomyMemory []) nullPtr 1 none 10 = some (q, m) ∧
    dhInsertWith m q 2 none 20 = some (q', m') ∧
    DhUpdateRun (roomyMemory []) ⟨m', [
      ⟨q', Function.update (Function.update (fun _ => none) 1 (some 10)) 2 (some 20)⟩,
      ⟨q, Function.update (fun _ => none) 1 (some 10)⟩, ⟨nullPtr, fun _ => none⟩]⟩ := by
  have hfind : ((dhInsertWith (roomyMemory []) nullPtr 1 none 10).bind fun r =>
      dhFind r.2.words r.1 1) = some 10 := rfl
  have hroom : ((dhInsertWith (roomyMemory []) nullPtr 1 none 10).map fun r =>
      decide (r.2.canAllocate (dhWords 0 + UpdateFunction.cost none))) = some true := rfl
  have hfind' : ((dhInsertWith (roomyMemory []) nullPtr 1 none 10).bind fun r =>
      (dhInsertWith r.2 r.1 2 none 20).bind fun r' => dhFind r'.2.words r'.1 2) = some 20 := rfl
  obtain ⟨⟨q, m⟩, hfirst⟩ : ∃ r, dhInsertWith (roomyMemory []) nullPtr 1 none 10 = some r :=
    ⟨_, rfl⟩
  rw [hfirst] at hfind hroom hfind'
  rw [Option.bind_some] at hfind'
  obtain ⟨⟨q', m'⟩, hsecond, -⟩ := Option.bind_eq_some_iff.mp hfind'
  rw [hsecond] at hfind'
  have hcan : m.canAllocate (dhWords 0 + UpdateFunction.cost none) :=
    of_decide_eq_true (Option.some.inj hroom)
  refine ⟨q, m, q', m', hfirst, hsecond, ?_⟩
  have hrun : DhUpdateRun (roomyMemory []) ⟨m, [⟨q, Function.update (fun _ => none) 1 (some 10)⟩,
      ⟨nullPtr, fun _ => none⟩]⟩ :=
    .single (.step (.call List.mem_cons_self (.insert (by decide) (by decide) hfirst hfind)))
  exact hrun.tail (.step (.call List.mem_cons_self
    (.insert (by decide) hcan hsecond hfind')))

theorem dh_find_min_smallest_two : ∃ h v, v ∈ Persistent.History.versions h ∧
    DhUpdateRun (roomyMemory []) h ∧ ∃ x k, dhFindMin h.store.words v.root 0 = some (x, k) ∧
      IsLeast {key | v.value key ≠ none} k := by
  obtain ⟨q, m, q', m', -, -, hrun⟩ := dhUpdateRun_two
  obtain ⟨t, p, entries, k, -, -, -, hmin, hleast, -⟩ :=
    dh_find_min_smallest hrun _ List.mem_cons_self ⟨2, by simp⟩ 0
  exact ⟨_, _, List.mem_cons_self, hrun, _, k, hmin, hleast⟩

/-- The smallest key is the first one of the leaf, and the data of the second one
are returned. -/
theorem dhFindMin_second : ∃ h v, v ∈ Persistent.History.versions h ∧
    DhUpdateRun (roomyMemory []) h ∧ v.value 1 = some 10 ∧
    dhFindMin h.store.words v.root 0 = some (20, 1) ∧ ¬ DhFindsMin h.store.words v 0 := by
  obtain ⟨q, m, q', m', hfirst, hsecond, hrun⟩ := dhUpdateRun_two
  have hmin : ((dhInsertWith (roomyMemory []) nullPtr 1 none 10).bind fun r =>
      (dhInsertWith r.2 r.1 2 none 20).bind fun r' => dhFindMin r'.2.words r'.1 0) =
        some (20, 1) := rfl
  have hfind : ((dhInsertWith (roomyMemory []) nullPtr 1 none 10).bind fun r =>
      (dhInsertWith r.2 r.1 2 none 20).bind fun r' => dhFind r'.2.words r'.1 1) = some 10 := rfl
  rw [hfirst, Option.bind_some, hsecond, Option.bind_some] at hmin hfind
  refine ⟨_, _, List.mem_cons_self, hrun, rfl, hmin, ?_⟩
  rintro ⟨x, k, hmin', -, hx⟩
  rw [hmin] at hmin'
  obtain ⟨rfl, rfl⟩ := Prod.mk.inj (Option.some.inj hmin')
  rw [hfind] at hx
  cases hx

end Shades
