import Shades.Ist234.Rep

/-!
# Shades.Ist234.Search

The comparisons in a node, and `ist234_find` and `ist234_find_min` on trees in
memory.

`Located` says what the comparisons find out: a key of the node, or the son
that stands for the part of the items where the key belongs.  A node is walked
from the left; `L` are the words that were passed and `P` the items before the
place that was reached.
-/

namespace Shades

open Memory SortedItems

variable {κ : Type} {rank : Nat → κ}

theorem SonsBefore.snoc {T : Nat → List (κ × Nat) → Prop} {L : List Nat} {P X : List (κ × Nat)}
    {c : Nat} (hL : SonsBefore rank T L P) (hc : T c X) (kw d : Nat) :
    SonsBefore rank T (L ++ [c, kw, d]) (P ++ (X ++ [item rank kw d])) :=
  hL.append (.cons hc .nil)

/-! ## the smallest key -/

section findMin

variable {words : Nat → Nat} {C : Nat → Nat → Prop} {d n p : Nat} {items : List (κ × Nat)}

theorem ist234FindMinLoop_spec (ht : IstAt rank words C (d + 1) (ptrToWord p) items)
    (hn : d ≤ n) :
    ist234FindMinLoop words n p = some ((items.head?.map Prod.snd).getD nullPtr) := by
  induction d generalizing n p items with
  | zero =>
    obtain ⟨fields, hnode, c, R, X, Q, rfl, rfl, ⟨rfl, rfl⟩, hrest⟩ := ht.root
    cases hrest with
    | nil =>
      have hlen := hnode.length
      simp at hlen
    | @cons c kw dw R X Q hson hrest =>
      have hzero : words (p + 1) = nullWord := IstNode.word (L := []) hnode
      have hdata : words (p + 3) = dw := IstNode.word (L := [_, _]) hnode
      unfold ist234FindMinLoop
      rw [if_pos hzero, hdata]
      rfl
  | succ d ih =>
    obtain ⟨n, rfl⟩ : ∃ j, n = j + 1 := ⟨n - 1, by omega⟩
    obtain ⟨fields, hnode, c, R, X, Q, rfl, rfl, hson, hrest⟩ := ht.root
    have hword : words (p + 1) = c := IstNode.word (L := []) hnode
    obtain ⟨q, rfl⟩ := hson.pointer
    have hne := hson.null_iff.not.mpr (Nat.succ_ne_zero d)
    unfold ist234FindMinLoop
    rw [hword, if_neg hne, assert_true hnode.cellType_eq, wordToPtr_ptrToWord]
    simp only [Option.bind_eq_bind, Option.bind_some]
    rw [ih hson (by omega), List.head?_append_of_ne_nil _ hson.ne_nil]

/-- `ist234_find_min` returns the data of the smallest key, or `NULL_PTR`. -/
theorem ist234FindMin_spec (ht : IstAt rank words C d (ptrToWord p) items)
    (hd : d ≤ ist234PathSize) :
    ist234FindMin words p = some ((items.head?.map Prod.snd).getD nullPtr) := by
  unfold ist234FindMin
  cases d with
  | zero =>
    obtain ⟨hp, rfl⟩ := ht
    obtain rfl : p = nullPtr := by simpa [nullWord, nullPtr] using hp
    rfl
  | succ d =>
    have hne : p ≠ nullPtr := by
      obtain ⟨fields, hnode, -⟩ := ht.root
      exact hnode.ne_null
    rw [if_neg hne]
    exact ist234FindMinLoop_spec ht (by omega)

end findMin

variable [LinearOrder κ]

/-! ## the comparisons in a node -/

/-- The place of a key among the words of a node. -/
inductive Located (rank : Nat → κ) (T : Nat → List (κ × Nat) → Prop) (k : κ) :
    List Nat → List (κ × Nat) → IstSearch → Prop
  | key {L R : List Nat} {c kw d c' : Nat} {P X Y Q : List (κ × Nat)}
      (hkey : rank (wordToPtr kw) = k) (hL : SonsBefore rank T L P) (hc : T c X) (hc' : T c' Y)
      (hR : SonsAfter rank T R Q) (hbelow : KeysBelow (P ++ X) k) (habove : KeysAbove (Y ++ Q) k) :
      Located rank T k (L ++ c :: kw :: d :: c' :: R) (P ++ X ++ item rank kw d :: (Y ++ Q))
        (.key (L.length + 2))
  | son {L R : List Nat} {c : Nat} {P X Q : List (κ × Nat)}
      (hL : SonsBefore rank T L P) (hc : T c X) (hR : SonsAfter rank T R Q)
      (hbelow : KeysBelow P k) (habove : KeysAbove Q k) :
      Located rank T k (L ++ c :: R) (P ++ X ++ Q) (.son (L.length + 1))

section walk

variable {T : Nat → List (κ × Nat) → Prop} {L G : List Nat} {c kw d : Nat} {k : κ}
variable {P X Y : List (κ × Nat)}

theorem Located.of_less (hL : SonsBefore rank T L P) (hc : T c X) (hG : Sons rank T G Y)
    (hsorted : Sorted (P ++ (X ++ item rank kw d :: Y))) (hP : KeysBelow P k)
    (hlt : k < rank (wordToPtr kw)) :
    Located rank T k (L ++ c :: kw :: d :: G) (P ++ (X ++ item rank kw d :: Y))
      (.son (L.length + 1)) := by
  obtain ⟨c', R, X', Q, rfl, rfl, hc', hR⟩ := hG
  rw [← List.append_assoc] at hsorted ⊢
  have hmiddle := (sorted_middle.mp hsorted).2.2.2
  refine .son hL hc (.cons hc' hR) hP ?_
  exact above_cons.mpr ⟨hlt, hmiddle.mono hlt.le⟩

theorem Located.of_equal (hL : SonsBefore rank T L P) (hc : T c X) (hG : Sons rank T G Y)
    (hsorted : Sorted (P ++ (X ++ item rank kw d :: Y))) (heq : k = rank (wordToPtr kw)) :
    Located rank T k (L ++ c :: kw :: d :: G) (P ++ (X ++ item rank kw d :: Y))
      (.key (L.length + 2)) := by
  obtain ⟨c', R, X', Q, rfl, rfl, hc', hR⟩ := hG
  rw [← List.append_assoc] at hsorted ⊢
  obtain ⟨-, -, hbelow, habove⟩ := sorted_middle.mp hsorted
  subst heq
  exact .key rfl hL hc hc' hR hbelow habove

/-- What was passed comes before the key. -/
theorem below_passed (hsorted : Sorted (P ++ (X ++ item rank kw d :: Y)))
    (hgt : rank (wordToPtr kw) < k) : KeysBelow (P ++ (X ++ [item rank kw d])) k := by
  rw [← List.append_assoc] at hsorted ⊢
  have hmiddle := (sorted_middle.mp hsorted).2.2.1
  exact below_append.mpr ⟨hmiddle.mono hgt.le, by simpa [item] using hgt⟩

end walk

/-- The comparisons find the place of a key. -/
theorem compareKeys_located {words : Nat → Nat} {C : Nat → Nat → Prop} {p : Nat}
    {fields : List Nat} {items : List (κ × Nat)} {T : Nat → List (κ × Nat) → Prop}
    (hnode : IstNode words C p fields) (hsons : Sons rank T fields items) (hsorted : Sorted items)
    (key : Nat) :
    Located rank T (rank key) fields items (compareKeys words (rankCmp rank) key p) := by
  have htype := hnode.nodeType_eq
  -- the first key
  have hlen₀ := hnode.length
  obtain ⟨c₀, k₀, d₀, G, rfl⟩ := exists_three (by omega : 3 ≤ fields.length)
  have hk₀ : words (p + 2) = k₀ := IstNode.word (L := [c₀]) hnode
  obtain ⟨X₀, Y₀, rfl, hc₀, hG⟩ := hsons.split
  unfold compareKeys
  rw [hk₀]
  rcases rankCmp_trichotomy rank key (wordToPtr k₀) with ⟨h₀, hcmp⟩ | ⟨h₀, hcmp⟩ | ⟨h₀, hcmp⟩
  · rw [hcmp]
    exact .of_less (P := []) .nil hc₀ hG hsorted below_nil h₀
  · rw [hcmp]
    exact .of_equal (P := []) .nil hc₀ hG hsorted h₀
  rw [hcmp]
  have hL₁ : SonsBefore rank T [c₀, k₀, d₀] (X₀ ++ [item rank k₀ d₀]) :=
    SonsBefore.snoc (P := []) .nil hc₀ k₀ d₀
  have hP₁ : KeysBelow (X₀ ++ [item rank k₀ d₀]) (rank key) := below_passed (P := []) hsorted h₀
  rw [List.append_cons] at hsorted ⊢
  by_cases htwo : G.length = 1
  · -- a 2-node
    obtain ⟨c₁, rfl⟩ := List.length_eq_one_iff.mp htwo
    simp only [htype, List.length_cons, List.length_nil]
    obtain ⟨X₁, Q, rfl, hc₁, hR⟩ := hG.uncons
    cases hR
    rw [← List.append_assoc]
    exact .son hL₁ hc₁ .nil hP₁ above_nil
  -- the second key
  have hlen := hnode.length
  simp only [List.length_cons] at hlen htype
  rw [if_neg (by omega)]
  obtain ⟨c₁, k₁, d₁, G, rfl⟩ := exists_three (by omega : 3 ≤ G.length)
  have hk₁ : words (p + 5) = k₁ := IstNode.word (L := [c₀, k₀, d₀, c₁]) hnode
  obtain ⟨X₁, Y₁, rfl, hc₁, hG⟩ := hG.split
  rw [hk₁]
  rcases rankCmp_trichotomy rank key (wordToPtr k₁) with ⟨h₁, hcmp⟩ | ⟨h₁, hcmp⟩ | ⟨h₁, hcmp⟩
  · rw [hcmp]
    exact .of_less (L := [c₀, k₀, d₀]) hL₁ hc₁ hG hsorted hP₁ h₁
  · rw [hcmp]
    exact .of_equal (L := [c₀, k₀, d₀]) hL₁ hc₁ hG hsorted h₁
  rw [hcmp]
  have hL₂ := hL₁.snoc hc₁ k₁ d₁
  have hP₂ := below_passed hsorted h₁
  rw [List.append_cons X₁, ← List.append_assoc] at hsorted ⊢
  by_cases hthree : G.length = 1
  · -- a 3-node
    obtain ⟨c₂, rfl⟩ := List.length_eq_one_iff.mp hthree
    simp only [htype, List.length_cons, List.length_nil]
    obtain ⟨X₂, Q, rfl, hc₂, hR⟩ := hG.uncons
    cases hR
    rw [← List.append_assoc]
    exact .son hL₂ hc₂ .nil hP₂ above_nil
  -- the third key
  simp only [List.length_cons] at hlen htype
  rw [if_neg (by omega)]
  obtain ⟨c₂, k₂, d₂, c₃, rfl⟩ := exists_four (by omega : G.length = 4)
  have hk₂ : words (p + 8) = k₂ := IstNode.word (L := [c₀, k₀, d₀, c₁, k₁, d₁, c₂]) hnode
  obtain ⟨X₂, Y₂, rfl, hc₂, hG⟩ := hG.split
  rw [hk₂]
  rcases rankCmp_trichotomy rank key (wordToPtr k₂) with ⟨h₂, hcmp⟩ | ⟨h₂, hcmp⟩ | ⟨h₂, hcmp⟩
  · rw [hcmp]
    exact .of_less (L := [c₀, k₀, d₀, c₁, k₁, d₁]) hL₂ hc₂ hG hsorted hP₂ h₂
  · rw [hcmp]
    exact .of_equal (L := [c₀, k₀, d₀, c₁, k₁, d₁]) hL₂ hc₂ hG hsorted h₂
  rw [hcmp]
  have hL₃ := hL₂.snoc hc₂ k₂ d₂
  have hP₃ := below_passed hsorted h₂
  rw [List.append_cons X₂, ← List.append_assoc]
  obtain ⟨X₃, Q, rfl, hc₃, hR⟩ := hG.uncons
  cases hR
  rw [← List.append_assoc]
  exact .son (L := [c₀, k₀, d₀, c₁, k₁, d₁, c₂, k₂, d₂]) hL₃ hc₃ .nil hP₃ above_nil

/-! ## searching in a tree -/

section find

variable {words : Nat → Nat} {C : Nat → Nat → Prop} {d n p : Nat} {items : List (κ × Nat)}

theorem ist234FindLoop_spec (ht : IstAt rank words C d (ptrToWord p) items)
    (hsorted : Sorted items) (hn : d ≤ n) (key : Nat) :
    ist234FindLoop words (rankCmp rank) key n p =
      some ((items.lookup (rank key)).getD nullPtr) := by
  induction d generalizing n p items with
  | zero =>
    obtain ⟨hp, rfl⟩ := ht
    obtain rfl : p = nullPtr := by simpa [nullWord, nullPtr] using hp
    unfold ist234FindLoop
    rw [if_pos rfl]
    rfl
  | succ d ih =>
    obtain ⟨n, rfl⟩ : ∃ j, n = j + 1 := ⟨n - 1, by omega⟩
    obtain ⟨fields, hnode, hsons⟩ := ht.root
    have hlocated := compareKeys_located hnode hsons hsorted key
    unfold ist234FindLoop
    rw [if_neg hnode.ne_null, assert_true hnode.cellType_eq]
    simp only [Option.bind_eq_bind, Option.bind_some]
    obtain ⟨s, hs⟩ : ∃ s, s = compareKeys words (rankCmp rank) key p := ⟨_, rfl⟩
    rw [← hs] at hlocated ⊢
    cases hlocated with
    | @key L R c kw dw c' P X Y Q hkey hL hc hc' hR hbelow habove =>
      have hword : words (p + (L.length + 3)) = dw := by
        have hnode' : IstNode words C p ((L ++ [c, kw]) ++ dw :: c' :: R) := by
          simpa using hnode
        simpa using hnode'.word
      have hlookup : (P ++ X ++ item rank kw dw :: (Y ++ Q)).lookup (rank key) =
          some (wordToPtr dw) := by
        rw [item, hkey]
        exact lookup_self hbelow
      rw [hlookup]
      exact congrArg _ (congrArg _ hword)
    | @son L R c P X Q hL hc hR hbelow habove =>
      dsimp only
      obtain ⟨q, rfl⟩ := hc.pointer
      rw [hnode.word, lookup_middle hbelow habove, wordToPtr_ptrToWord]
      exact ih hc hsorted.part (by omega)

/-- `ist234_find` returns the data of the key, or `NULL_PTR`. -/
theorem ist234Find_spec (ht : IstAt rank words C d (ptrToWord p) items) (hsorted : Sorted items)
    (hd : d ≤ ist234PathSize) (key : Nat) :
    ist234Find words p key (rankCmp rank) = some ((items.lookup (rank key)).getD nullPtr) :=
  ist234FindLoop_spec ht hsorted hd key

end find

end Shades
