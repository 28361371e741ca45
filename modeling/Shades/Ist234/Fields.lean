import Shades.Ist234.Nodes

/-!
# Shades.Ist234.Fields

The tables of words in `ist234.c`, one for each type of node and each index,
are all the same: a part of the words of a node is replaced and what stands
before and after it is kept.
-/

namespace Shades

/-- The words before a son, or after it. -/
theorem triples_cases {L : List Nat} (h : L.length % 3 = 0) (hle : L.length ≤ 9) :
    L = [] ∨ (∃ a b c, L = [a, b, c]) ∨ (∃ a b c d e f, L = [a, b, c, d, e, f]) ∨
      ∃ a b c d e f g h i, L = [a, b, c, d, e, f, g, h, i] := by
  obtain hlen | hlen | hlen | hlen :
      L.length = 0 ∨ L.length = 3 ∨ L.length = 6 ∨ L.length = 9 := by omega
  · exact .inl (List.length_eq_zero_iff.mp hlen)
  · obtain ⟨a, b, c, r, rfl⟩ := exists_three hlen.ge
    obtain rfl := List.length_eq_zero_iff.mp (by simpa using hlen)
    exact .inr (.inl ⟨a, b, c, rfl⟩)
  · obtain ⟨a, b, c, r, rfl⟩ := exists_three (by omega : 3 ≤ L.length)
    obtain ⟨d, e, f, r, rfl⟩ := exists_three (by simpa using hlen.ge : 3 ≤ r.length)
    obtain rfl := List.length_eq_zero_iff.mp (by simpa using hlen)
    exact .inr (.inr (.inl ⟨a, b, c, d, e, f, rfl⟩))
  · obtain ⟨a, b, c, r, rfl⟩ := exists_three (by omega : 3 ≤ L.length)
    simp only [List.length_cons] at hlen
    obtain ⟨d, e, f, r, rfl⟩ := exists_three (by omega : 3 ≤ r.length)
    simp only [List.length_cons] at hlen
    obtain ⟨g, x, i, r, rfl⟩ := exists_three (by omega : 3 ≤ r.length)
    obtain rfl := List.length_eq_zero_iff.mp (by simpa using hlen)
    exact .inr (.inr (.inr ⟨a, b, c, d, e, f, g, x, i, rfl⟩))

variable {words : Nat → Nat} {C : Nat → Nat → Prop} {p c c' kw dw : Nat} {L R : List Nat}

/-! ## insertion -/

theorem grownNode_eq (hn : IstNode words C p (L ++ c :: R)) (hL : L.length % 3 = 0)
    (hlen : (L ++ c :: R).length ≠ 10) (p1 key data p2 : Nat) :
    grownNode (fun i => words (p + i)) p1 key data p2 (((L ++ c :: R).length + 2) / 3)
      (L.length + 1) = L ++ [p1, key, data, p2] ++ R := by
  have hlength := hn.length
  have hfields := hn.fields_eq
  simp only [List.length_append, List.length_cons] at hlen hlength
  have hR : R.length % 3 = 0 := by omega
  obtain rfl | ⟨a, b, d, rfl⟩ | ⟨a, b, d, e, f, g, rfl⟩ | ⟨a, b, d, e, f, g, h, i, j, rfl⟩ :=
    triples_cases hL (by omega)
  all_goals
    obtain rfl | ⟨a', b', d', rfl⟩ | ⟨a', b', d', e', f', g', rfl⟩ |
      ⟨a', b', d', e', f', g', h', i', j', rfl⟩ := triples_cases hR (by omega)
  all_goals simp at hlength hlen
  all_goals simp [slice, Nat.add_assoc] at hfields
  all_goals simp [grownNode, hfields]

/-- The words of the two new nodes, with the key and the data between them. -/
theorem splitNode_eq (hn : IstNode words C p (L ++ c :: R)) (hL : L.length % 3 = 0)
    (hlen : (L ++ c :: R).length = 10) (p1 key data p2 : Nat) :
    ∃ F kw dw G, L ++ [p1, ptrToWord key, ptrToWord data, p2] ++ R = F ++ kw :: dw :: G ∧
      F.length = 7 ∧ G.length = 4 ∧
      splitNode (fun i => words (p + i)) p1 (ptrToWord key) (ptrToWord data) p2 (L.length + 1) =
        (F, G) ∧
      passedKey (fun i => words (p + i)) key data (L.length + 1) =
        (wordToPtr kw, wordToPtr dw) := by
  have hfields := hn.fields_eq
  simp only [List.length_append, List.length_cons] at hlen
  have hR : R.length % 3 = 0 := by omega
  obtain rfl | ⟨a, b, d, rfl⟩ | ⟨a, b, d, e, f, g, rfl⟩ | ⟨a, b, d, e, f, g, h, i, j, rfl⟩ :=
    triples_cases hL (by omega)
  all_goals
    obtain rfl | ⟨a', b', d', rfl⟩ | ⟨a', b', d', e', f', g', rfl⟩ |
      ⟨a', b', d', e', f', g', h', i', j', rfl⟩ := triples_cases hR (by omega)
  all_goals simp at hlen
  all_goals simp [slice, Nat.add_assoc] at hfields
  · exact ⟨[p1, ptrToWord key, ptrToWord data, p2, a', b', d'], e', f', [g', h', i', j'], rfl, rfl,
      rfl, by simp [splitNode, hfields], by simp [passedKey, hfields]⟩
  · exact ⟨[a, b, d, p1, ptrToWord key, ptrToWord data, p2], a', b', [d', e', f', g'], rfl, rfl,
      rfl, by simp [splitNode, hfields], by simp [passedKey, hfields]⟩
  · exact ⟨[a, b, d, e, f, g, p1], ptrToWord key, ptrToWord data, [p2, a', b', d'], rfl, rfl, rfl,
      by simp [splitNode, hfields], by simp [passedKey]⟩
  · exact ⟨[a, b, d, e, f, g, h], i, j, [p1, ptrToWord key, ptrToWord data, p2], rfl, rfl, rfl,
      by simp [splitNode, hfields], by simp [passedKey, hfields]⟩

/-! ## borrowing and merging -/

/-- A son takes the place of two sons; `ix` is the index of the second one. -/
theorem mergedNode_eq (hn : IstNode words C p (L ++ c :: kw :: dw :: c' :: R))
    (hL : L.length % 3 = 0) (hlen : (L ++ c :: kw :: dw :: c' :: R).length ≠ 4) (newP : Nat) :
    mergedNode (fun i => words (p + i)) newP
      (((L ++ c :: kw :: dw :: c' :: R).length + 2) / 3) (L.length + 4) = L ++ newP :: R := by
  have hlength := hn.length
  have hfields := hn.fields_eq
  simp only [List.length_append, List.length_cons] at hlen hlength
  have hR : R.length % 3 = 0 := by omega
  obtain rfl | ⟨a, b, d, rfl⟩ | ⟨a, b, d, e, f, g, rfl⟩ | ⟨a, b, d, e, f, g, h, i, j, rfl⟩ :=
    triples_cases hL (by omega)
  all_goals
    obtain rfl | ⟨a', b', d', rfl⟩ | ⟨a', b', d', e', f', g', rfl⟩ |
      ⟨a', b', d', e', f', g', h', i', j', rfl⟩ := triples_cases hR (by omega)
  all_goals simp at hlength hlen
  all_goals simp [slice, Nat.add_assoc] at hfields
  all_goals simp [mergedNode, hfields]

/-- The first two sons are treated alike. -/
theorem mergedNode_one (node : Nat → Nat) (newP type : Nat) :
    mergedNode node newP type 1 = mergedNode node newP type 4 := by
  unfold mergedNode
  split <;> simp_all

theorem balancedNode_eq (hn : IstNode words C p (L ++ c :: kw :: dw :: c' :: R))
    (hL : L.length % 3 = 0) (left key data right : Nat) :
    balancedNode (fun i => words (p + i)) left key data right
      (((L ++ c :: kw :: dw :: c' :: R).length + 2) / 3) (L.length + 4) =
        L ++ [left, key, data, right] ++ R := by
  have hlength := hn.length
  have hfields := hn.fields_eq
  simp only [List.length_append, List.length_cons] at hlength
  have hR : R.length % 3 = 0 := by omega
  obtain rfl | ⟨a, b, d, rfl⟩ | ⟨a, b, d, e, f, g, rfl⟩ | ⟨a, b, d, e, f, g, h, i, j, rfl⟩ :=
    triples_cases hL (by omega)
  all_goals
    obtain rfl | ⟨a', b', d', rfl⟩ | ⟨a', b', d', e', f', g', rfl⟩ |
      ⟨a', b', d', e', f', g', h', i', j', rfl⟩ := triples_cases hR (by omega)
  all_goals simp at hlength
  all_goals simp [slice, Nat.add_assoc] at hfields
  all_goals simp [balancedNode, hfields]

/-! ## deletion -/

/-- A leaf loses a key; all sons of a leaf are `NULL_WORD`. -/
theorem smallerLeaf_eq (hn : IstNode words C p (L ++ nullWord :: kw :: dw :: nullWord :: R))
    (hL : L.length % 3 = 0)
    (hlen : (L ++ nullWord :: kw :: dw :: nullWord :: R).length ≠ 4)
    (hnull : ∀ i, (L ++ nullWord :: kw :: dw :: nullWord :: R)[3 * i]?.getD nullWord = nullWord) :
    smallerLeaf (fun i => words (p + i))
      (((L ++ nullWord :: kw :: dw :: nullWord :: R).length + 2) / 3) (L.length + 2) =
        L ++ nullWord :: R := by
  have hlength := hn.length
  have hfields := hn.fields_eq
  have h₀ := hnull 0
  have h₁ := hnull 1
  have h₂ := hnull 2
  have h₃ := hnull 3
  simp only [List.length_append, List.length_cons] at hlen hlength
  have hR : R.length % 3 = 0 := by omega
  obtain rfl | ⟨a, b, d, rfl⟩ | ⟨a, b, d, e, f, g, rfl⟩ | ⟨a, b, d, e, f, g, h, i, j, rfl⟩ :=
    triples_cases hL (by omega)
  all_goals
    obtain rfl | ⟨a', b', d', rfl⟩ | ⟨a', b', d', e', f', g', rfl⟩ |
      ⟨a', b', d', e', f', g', h', i', j', rfl⟩ := triples_cases hR (by omega)
  all_goals simp at hlength hlen
  all_goals simp [slice, Nat.add_assoc] at hfields
  all_goals simp at h₀ h₁ h₂ h₃
  all_goals simp [smallerLeaf, *]

/-- The words around the joint of the two sons of a removed key. -/
theorem nodeWithoutKey_eq (hn : IstNode words C p (L ++ c :: kw :: dw :: c' :: R))
    (hL : L.length % 3 = 0) (hlen : (L ++ c :: kw :: dw :: c' :: R).length ≠ 4) :
    nodeWithoutKey (fun i => words (p + i)) (((L ++ c :: kw :: dw :: c' :: R).length + 2) / 3)
      (L.length + 2) = (L, R) := by
  have hlength := hn.length
  have hfields := hn.fields_eq
  simp only [List.length_append, List.length_cons] at hlen hlength
  have hR : R.length % 3 = 0 := by omega
  obtain rfl | ⟨a, b, d, rfl⟩ | ⟨a, b, d, e, f, g, rfl⟩ | ⟨a, b, d, e, f, g, h, i, j, rfl⟩ :=
    triples_cases hL (by omega)
  all_goals
    obtain rfl | ⟨a', b', d', rfl⟩ | ⟨a', b', d', e', f', g', rfl⟩ |
      ⟨a', b', d', e', f', g', h', i', j', rfl⟩ := triples_cases hR (by omega)
  all_goals simp at hlength hlen
  all_goals simp [slice, Nat.add_assoc] at hfields
  all_goals simp [nodeWithoutKey, hfields]

end Shades
