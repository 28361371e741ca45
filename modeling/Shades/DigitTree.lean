import Mathlib.Data.Fintype.Pi
import Mathlib.Data.Fintype.BigOperators

/-!
# Shades.DigitTree

Trees that are searched by the digits of a key.  A node of the level `l` has `d`
sons, and a key goes to the son of its digit `l`.  The keys are in the leaves,
each of which has room for some of them; a full leaf is replaced by nodes until
the keys go to different leaves.

The module is about any keys and any digits.
-/

namespace DigitTree

inductive Trie (d : Nat) (κ ν : Type) where
  | nil
  | leaf (entries : List (κ × ν))
  | node (sons : Fin d → Trie d κ ν)

variable {d : Nat} {κ ν : Type} (digit : Nat → κ → Fin d)

/-- A leaf of the level `level` that is reached by the digits `path`: it has some
keys, not more than `room` and no key twice, and these are the digits of all of
them. -/
structure LeafAt (room : Nat) (path : Nat → Fin d) (level : Nat) (entries : List (κ × ν)) :
    Prop where
  nonempty : entries ≠ []
  length_le : entries.length ≤ room
  nodup : (entries.map Prod.fst).Nodup
  digits : ∀ e ∈ entries, ∀ j < level, digit j e.1 = path j

/-- Every key is in the leaf that its digits select, and nodes are of levels less
than `depth`. -/
def Valid (room depth : Nat) : (Nat → Fin d) → Nat → Trie d κ ν → Prop
  | _, _, .nil => True
  | path, level, .leaf entries => LeafAt digit room path level entries
  | path, level, .node sons =>
    level < depth ∧ ∀ i, Valid room depth (Function.update path level i) (level + 1) (sons i)

variable {digit} {room depth level levels : Nat} {path path' : Nat → Fin d} {key : κ} {value : ν}
variable {entries before after : List (κ × ν)} {sons : Fin d → Trie d κ ν} {t t' : Trie d κ ν}

/-- The digits that lead to a son. -/
theorem digits_update {i : Fin d} (hdigits : ∀ j < level, digit j key = path j)
    (hi : digit level key = i) : ∀ j < level + 1, digit j key = Function.update path level i j := by
  intro j hj
  rcases Nat.lt_succ_iff_lt_or_eq.mp hj with hlt | rfl
  · rw [Function.update_of_ne hlt.ne, hdigits j hlt]
  · rw [Function.update_self, hi]

/-- The keys of a leaf that all go to the same son. -/
theorem LeafAt.son {i : Fin d} (ht : LeafAt digit room path level entries)
    (hsame : ∀ e ∈ entries, digit level e.1 = i) :
    LeafAt digit room (Function.update path level i) (level + 1) entries where
  nonempty := ht.nonempty
  length_le := ht.length_le
  nodup := ht.nodup
  digits e he := digits_update (ht.digits e he) (hsame e he)

/-- Keys that agree in all digits are equal, so few keys agree in many of them. -/
theorem length_le_pow (hnodup : (entries.map Prod.fst).Nodup)
    (hdigits : ∀ e ∈ entries, ∀ j < level, digit j e.1 = path j)
    (hseparated : ∀ e ∈ entries, ∀ e' ∈ entries, (∀ j < levels, digit j e.1 = digit j e'.1) →
      e.1 = e'.1) :
    entries.length ≤ d ^ (levels - level) := by
  have hmap : ((entries.map Prod.fst).map fun k => fun j : Fin (levels - level) =>
      digit (level + j) k).Nodup := by
    refine List.Nodup.map_on (fun k hk k' hk' heq => ?_) hnodup
    obtain ⟨e, he, rfl⟩ := List.mem_map.mp hk
    obtain ⟨e', he', rfl⟩ := List.mem_map.mp hk'
    refine hseparated e he e' he' fun j hj => ?_
    by_cases hlevel : j < level
    · rw [hdigits e he j hlevel, hdigits e' he' j hlevel]
    · have hj' := congrFun heq ⟨j - level, by omega⟩
      rwa [show level + (j - level) = j by omega] at hj'
  have hcard := hmap.length_le_card
  rwa [List.length_map, List.length_map, Fintype.card_fun, Fintype.card_fin,
    Fintype.card_fin] at hcard

/-! ## nodes for a full leaf -/

/-- The leaf of some entries. -/
def leafOf : List (κ × ν) → Trie d κ ν
  | [] => .nil
  | entries => .leaf entries

variable (digit) in
/-- The entries in the leaves of a node. -/
def distribute (level : Nat) (entries : List (κ × ν)) : Trie d κ ν :=
  .node fun i => leafOf (entries.filter fun e => digit level e.1 = i)

theorem valid_leafOf (h : entries ≠ [] → LeafAt digit room path level entries) :
    Valid digit room depth path level (leafOf entries) := by
  cases entries with
  | nil => trivial
  | cons e entries => exact h (List.cons_ne_nil e entries)

section searching

variable [DecidableEq κ]

/-! ## the tree with a new value -/

variable (digit) in
/-- The nodes for a full leaf and one more key, when `n` levels of nodes are left. -/
def splitLeaf (key : κ) (value : ν) (entries : List (κ × ν)) : Nat → Nat → Trie d κ ν
  | 0, level => distribute digit level ((key, value) :: entries)
  | n + 1, level =>
    if ∀ e ∈ entries, digit level e.1 = digit level key then
      .node (Function.update (fun _ => .nil) (digit level key)
        (splitLeaf key value entries n (level + 1)))
    else distribute digit level ((key, value) :: entries)

/-- Another value for a key in a list of entries. -/
def replaceValue (key : κ) (value : ν) (entries : List (κ × ν)) : List (κ × ν) :=
  entries.map fun e => if e.1 = key then (key, value) else e

variable (digit) in
/-- The tree of the given level with the value `value` for the key `key`. -/
def insertAt (room depth : Nat) (key : κ) (value : ν) : Nat → Trie d κ ν → Trie d κ ν
  | _, .nil => .leaf [(key, value)]
  | level, .leaf entries =>
    if key ∈ entries.map Prod.fst then .leaf (replaceValue key value entries)
    else if entries.length < room then .leaf (entries ++ [(key, value)])
    else splitLeaf digit key value entries (depth - level) level
  | level, .node sons =>
    .node (Function.update sons (digit level key)
      (insertAt room depth key value (level + 1) (sons (digit level key))))

variable (digit) in
/-- The key is not in the tree, and goes to a leaf with room for it. -/
def hasRoom (room : Nat) (key : κ) : Nat → Trie d κ ν → Bool
  | _, .nil => false
  | _, .leaf entries => key ∉ entries.map Prod.fst ∧ entries.length < room
  | level, .node sons => hasRoom room key (level + 1) (sons (digit level key))

/-- Only one entry has the key. -/
theorem replaceValue_eq {old : ν} (hnodup : ((before ++ (key, old) :: after).map Prod.fst).Nodup) :
    replaceValue key value (before ++ (key, old) :: after) = before ++ (key, value) :: after := by
  have hsame : ∀ es : List (κ × ν), key ∉ es.map Prod.fst → replaceValue key value es = es := by
    intro es hnot
    have hid : ∀ e ∈ es, (if e.1 = key then (key, value) else e) = id e := by
      rintro e he
      refine if_neg ?_
      rintro rfl
      exact hnot (List.mem_map_of_mem he)
    rw [replaceValue, List.map_congr_left hid, List.map_id]
  rw [List.map_append, List.map_cons, List.nodup_append', List.nodup_cons] at hnodup
  obtain ⟨-, ⟨hafter, -⟩, hdisjoint⟩ := hnodup
  have hbefore : key ∉ before.map Prod.fst := fun hmem => hdisjoint hmem List.mem_cons_self
  have happend : replaceValue key value (before ++ (key, old) :: after) =
      replaceValue key value before ++ (key, value) :: replaceValue key value after := by
    simp [replaceValue]
  rw [happend, hsame before hbefore, hsame after hafter]

variable (digit) in
/-- The value of a key in a tree of the given level. -/
def lookup : Nat → Trie d κ ν → κ → Option ν
  | _, .nil, _ => none
  | _, .leaf entries, key => entries.lookup key
  | level, .node sons, key => lookup (level + 1) (sons (digit level key)) key

variable (digit) in
/-- `t'` is `t` with the value `value` for the key `key`. -/
structure Inserted (room depth : Nat) (path : Nat → Fin d) (level : Nat) (t : Trie d κ ν)
    (key : κ) (value : ν) (t' : Trie d κ ν) : Prop where
  valid : Valid digit room depth path level t'
  lookup_eq : lookup digit level t' = Function.update (lookup digit level t) key (some value)

/-! ## lists of entries -/

theorem lookup_eq_none : entries.lookup key = none ↔ key ∉ entries.map Prod.fst := by
  induction entries with
  | nil => simp
  | cons e entries ih =>
    obtain ⟨k, v⟩ := e
    by_cases hk : key = k
    · simp [hk]
    · have hbeq : (key == k) = false := by simpa using hk
      simp [List.lookup_cons, hbeq, ih, hk]

/-- A new entry at the end. -/
theorem lookup_snoc (hkey : key ∉ entries.map Prod.fst) :
    (fun k => (entries ++ [(key, value)]).lookup k) =
      Function.update (fun k => entries.lookup k) key (some value) := by
  funext k
  rw [List.lookup_append]
  by_cases hk : k = key
  · subst hk
    rw [lookup_eq_none.mpr hkey, Function.update_self]
    simp
  · have hbeq : (k == key) = false := by simpa using hk
    rw [Function.update_of_ne hk]
    simp [List.lookup_cons, hbeq]

/-- A new entry in front. -/
theorem lookup_cons_update :
    (fun k => ((key, value) :: entries).lookup k) =
      Function.update (fun k => entries.lookup k) key (some value) := by
  funext k
  by_cases hk : k = key
  · subst hk
    simp
  · have hbeq : (k == key) = false := by simpa using hk
    rw [Function.update_of_ne hk]
    simp [List.lookup_cons, hbeq]

/-- The value of an entry is replaced. -/
theorem lookup_replace {old : ν} (hkey : key ∉ before.map Prod.fst) :
    (fun k => (before ++ (key, value) :: after).lookup k) =
      Function.update (fun k => (before ++ (key, old) :: after).lookup k) key (some value) := by
  funext k
  rw [List.lookup_append]
  by_cases hk : k = key
  · subst hk
    rw [lookup_eq_none.mpr hkey, Function.update_self]
    simp
  · have hbeq : (k == key) = false := by simpa using hk
    rw [Function.update_of_ne hk, List.lookup_append]
    simp [List.lookup_cons, hbeq]

/-- The entries that a condition on the key selects. -/
theorem lookup_filter {c : κ → Bool} {k : κ} (hk : c k) :
    (entries.filter fun e => c e.1).lookup k = entries.lookup k := by
  induction entries with
  | nil => rfl
  | cons e entries ih =>
    obtain ⟨k', v⟩ := e
    by_cases hc : c k'
    · simp [hc, List.lookup_cons, ih]
    · have hbeq : (k == k') = false := by
        simp only [beq_eq_false_iff_ne]
        rintro rfl
        exact hc hk
      simp [hc, List.lookup_cons, hbeq, ih]

/-! ## insertions -/

/-- A key in a son. -/
theorem Inserted.node (ht : Valid digit room depth path level (.node sons))
    (hson : Inserted digit room depth (Function.update path level (digit level key)) (level + 1)
      (sons (digit level key)) key value t') :
    Inserted digit room depth path level (.node sons) key value
      (.node (Function.update sons (digit level key) t')) where
  valid := by
    refine ⟨ht.1, fun i => ?_⟩
    by_cases hi : i = digit level key
    · subst hi
      rw [Function.update_self]
      exact hson.valid
    · rw [Function.update_of_ne hi]
      exact ht.2 i
  lookup_eq := by
    funext k
    by_cases hk : k = key
    · subst hk
      rw [Function.update_self, lookup, Function.update_self, hson.lookup_eq, Function.update_self]
    · rw [Function.update_of_ne hk, lookup, lookup]
      by_cases hdigit : digit level k = digit level key
      · rw [hdigit, Function.update_self, hson.lookup_eq, Function.update_of_ne hk]
      · rw [Function.update_of_ne hdigit]

/-- A key in the empty tree. -/
theorem Inserted.single (hroom : 0 < room) (hdigits : ∀ j < level, digit j key = path j) :
    Inserted digit room depth path level .nil key value (.leaf [(key, value)]) where
  valid := ⟨by simp, hroom, by simp, by simpa using hdigits⟩
  lookup_eq := lookup_cons_update

/-- A new key in a leaf with room. -/
theorem Inserted.snoc (ht : LeafAt digit room path level entries) (hroom : entries.length < room)
    (hkey : key ∉ entries.map Prod.fst) (hdigits : ∀ j < level, digit j key = path j) :
    Inserted digit room depth path level (.leaf entries) key value
      (.leaf (entries ++ [(key, value)])) where
  valid := by
    refine ⟨by simp, by simpa using Nat.succ_le_of_lt hroom, ?_, fun e he => ?_⟩
    · rw [List.map_append, List.nodup_append']
      exact ⟨ht.nodup, by simp, by simpa using hkey⟩
    · rcases List.mem_append.mp he with he | he
      · exact ht.digits e he
      · obtain rfl := List.mem_singleton.mp he
        exact hdigits
  lookup_eq := lookup_snoc hkey

/-- A key that is in the leaf. -/
theorem Inserted.replace {old : ν}
    (ht : LeafAt digit room path level (before ++ (key, old) :: after)) :
    Inserted digit room depth path level (.leaf (before ++ (key, old) :: after)) key value
      (.leaf (before ++ (key, value) :: after)) where
  valid := by
    refine ⟨by simp, by simpa using ht.length_le, by simpa using ht.nodup, fun e he => ?_⟩
    have hkeys : e.1 ∈ (before ++ (key, old) :: after).map Prod.fst := by
      have hmem := List.mem_map_of_mem (f := Prod.fst) he
      simpa using hmem
    obtain ⟨e', he', heq⟩ := List.mem_map.mp hkeys
    rw [← heq]
    exact ht.digits e' he'
  lookup_eq := lookup_replace (by
    have hnodup := ht.nodup
    rw [List.map_append, List.nodup_append'] at hnodup
    exact fun hmem => hnodup.2.2 hmem (by simp))

/-- All keys of a full leaf go to the same son of the new node. -/
theorem Inserted.push (hlevel : level < depth)
    (hsame : ∀ e ∈ entries, digit level e.1 = digit level key)
    (hson : Inserted digit room depth (Function.update path level (digit level key)) (level + 1)
      (.leaf entries) key value t') :
    Inserted digit room depth path level (.leaf entries) key value
      (.node (Function.update (fun _ => .nil) (digit level key) t')) where
  valid := by
    refine ⟨hlevel, fun i => ?_⟩
    by_cases hi : i = digit level key
    · subst hi
      rw [Function.update_self]
      exact hson.valid
    · rw [Function.update_of_ne hi]
      trivial
  lookup_eq := by
    funext k
    rw [lookup]
    by_cases hdigit : digit level k = digit level key
    · rw [hdigit, Function.update_self, hson.lookup_eq]
      rfl
    · have hk : k ≠ key := fun heq => hdigit (heq ▸ rfl)
      rw [Function.update_of_ne hdigit, Function.update_of_ne hk]
      refine (lookup_eq_none.mpr fun hmem => ?_).symm
      obtain ⟨e, he, rfl⟩ := List.mem_map.mp hmem
      exact hdigit (hsame e he)

theorem lookup_leafOf : lookup digit level (leafOf entries) = fun k => entries.lookup k := by
  cases entries <;> rfl

theorem lookup_distribute :
    lookup digit level (distribute digit level entries) = fun k => entries.lookup k := by
  funext k
  rw [distribute, lookup, lookup_leafOf]
  exact lookup_filter (c := fun k' => digit level k' = digit level k) (by simp)

/-- The keys of a full leaf and the new key go to the sons of the new node. -/
theorem Inserted.distribute (ht : LeafAt digit room path level entries) (hlevel : level < depth)
    (hkey : key ∉ entries.map Prod.fst) (hdigits : ∀ j < level, digit j key = path j)
    (hdiffer : ∃ e ∈ entries, digit level e.1 ≠ digit level key) :
    Inserted digit room depth path level (.leaf entries) key value
      (distribute digit level ((key, value) :: entries)) where
  valid := by
    refine ⟨hlevel, fun i => valid_leafOf fun hne => ⟨hne, ?_, ?_, fun e he => ?_⟩⟩
    · -- one of the keys goes to another son
      have hlt : (((key, value) :: entries).filter fun e => digit level e.1 = i).length <
          entries.length + 1 := by
        refine List.length_filter_lt_length_iff_exists.mpr ?_
        obtain ⟨e, he, hne⟩ := hdiffer
        by_cases hi : digit level key = i
        · exact ⟨e, List.mem_cons_of_mem _ he, by simpa [← hi] using hne⟩
        · exact ⟨(key, value), List.mem_cons_self, by simpa using hi⟩
      have hroom := ht.length_le
      omega
    · refine List.Nodup.sublist (List.filter_sublist.map _) ?_
      rw [List.map_cons, List.nodup_cons]
      exact ⟨hkey, ht.nodup⟩
    · obtain ⟨hin, hdigit⟩ := List.mem_filter.mp he
      refine digits_update ?_ (by simpa using hdigit)
      rcases List.mem_cons.mp hin with rfl | hin
      · exact hdigits
      · exact ht.digits e hin
  lookup_eq := lookup_distribute.trans lookup_cons_update

/-- Every node has a key below it. -/
def NoEmptyNode : Trie d κ ν → Prop
  | .nil => True
  | .leaf entries => entries ≠ []
  | .node sons => (∃ i, sons i ≠ .nil) ∧ ∀ i, NoEmptyNode (sons i)

omit [DecidableEq κ] in
theorem noEmptyNode_leafOf : NoEmptyNode (leafOf entries : Trie d κ ν) := by
  cases entries with
  | nil => trivial
  | cons e entries => exact List.cons_ne_nil e entries

omit [DecidableEq κ] in
theorem noEmptyNode_distribute :
    NoEmptyNode (distribute digit level ((key, value) :: entries)) := by
  refine ⟨⟨digit level key, ?_⟩, fun i => noEmptyNode_leafOf⟩
  simp [leafOf]

omit [DecidableEq κ] in
/-- One son of a node is replaced by a tree with keys. -/
theorem NoEmptyNode.update (hsons : ∀ i, NoEmptyNode (sons i)) (i : Fin d) (ht : NoEmptyNode t)
    (hne : t ≠ .nil) : NoEmptyNode (.node (Function.update sons i t)) := by
  refine ⟨⟨i, by rwa [Function.update_self]⟩, fun j => ?_⟩
  by_cases hj : j = i
  · subst hj
    rwa [Function.update_self]
  · rw [Function.update_of_ne hj]
    exact hsons j

omit [DecidableEq κ] in
theorem splitLeaf_ne_nil (n : Nat) : splitLeaf digit key value entries n level ≠ .nil := by
  cases n with
  | zero => nofun
  | succ n =>
    rw [splitLeaf]
    split <;> nofun

omit [DecidableEq κ] in
theorem noEmptyNode_splitLeaf (n : Nat) :
    NoEmptyNode (splitLeaf digit key value entries n level) := by
  induction n generalizing level with
  | zero => exact noEmptyNode_distribute
  | succ n ih =>
    rw [splitLeaf]
    split
    · exact .update (fun _ => show NoEmptyNode (.nil : Trie d κ ν) from trivial) _ ih
        (splitLeaf_ne_nil n)
    · exact noEmptyNode_distribute

theorem insertAt_ne_nil : insertAt digit room depth key value level t ≠ .nil := by
  cases t with
  | nil => nofun
  | leaf entries =>
    rw [insertAt]
    split
    · nofun
    · split
      · nofun
      · exact splitLeaf_ne_nil _
  | node sons => nofun

theorem NoEmptyNode.insertAt (ht : NoEmptyNode t) :
    NoEmptyNode (insertAt digit room depth key value level t) := by
  induction t generalizing level with
  | nil => exact List.cons_ne_nil _ _
  | leaf entries =>
    rw [DigitTree.insertAt]
    split
    · exact mt List.map_eq_nil_iff.mp ht
    · split
      · simp [NoEmptyNode]
      · exact noEmptyNode_splitLeaf _
  | node sons ih => exact .update ht.2 _ (ih _ (ht.2 _)) insertAt_ne_nil

/-! ## other values -/

/-- The tree with what `g` makes of its values. -/
def Trie.map (g : ν → ν) : Trie d κ ν → Trie d κ ν
  | .nil => .nil
  | .leaf entries => .leaf (entries.map fun e => (e.1, g e.2))
  | .node sons => .node fun i => (sons i).map g

variable {g : ν → ν}

omit [DecidableEq κ] in
theorem map_fst_map : (entries.map fun e => (e.1, g e.2)).map Prod.fst = entries.map Prod.fst := by
  rw [List.map_map]
  rfl

theorem lookup_map (t : Trie d κ ν) :
    lookup digit level (t.map g) key = (lookup digit level t key).map g := by
  induction t generalizing level with
  | nil => rfl
  | leaf entries =>
    simp only [Trie.map, lookup]
    induction entries with
    | nil => rfl
    | cons e entries ih =>
      rw [List.map_cons, List.lookup_cons, List.lookup_cons]
      split
      · rfl
      · exact ih
  | node sons ih => exact ih _

omit [DecidableEq κ] in
theorem Valid.map (ht : Valid digit room depth path level t) :
    Valid digit room depth path level (t.map g) := by
  induction t generalizing path level with
  | nil => trivial
  | leaf entries =>
    obtain ⟨hne, hlen, hnodup, hdigits⟩ := ht
    refine ⟨mt List.map_eq_nil_iff.mp hne, by rwa [List.length_map], by rwa [map_fst_map],
      fun e he j hj => ?_⟩
    obtain ⟨e', he', rfl⟩ := List.mem_map.mp he
    exact hdigits e' he' j hj
  | node sons ih => exact ⟨ht.1, fun i => ih i (ht.2 i)⟩

omit [DecidableEq κ] in
theorem map_eq_nil : t.map g = .nil ↔ t = .nil := by
  cases t <;> simp [Trie.map]

omit [DecidableEq κ] in
theorem NoEmptyNode.map (ht : NoEmptyNode t) : NoEmptyNode (t.map g) := by
  induction t with
  | nil => trivial
  | leaf entries => exact mt List.map_eq_nil_iff.mp ht
  | node sons ih =>
    obtain ⟨⟨i, hi⟩, hsons⟩ := ht
    exact ⟨⟨i, mt map_eq_nil.mp hi⟩, fun i => ih i (hsons i)⟩

/-! ## the first leaf -/

/-- `entries` are those of the first leaf of a tree. -/
inductive FirstLeaf : Trie d κ ν → List (κ × ν) → Prop
  | leaf {entries : List (κ × ν)} : FirstLeaf (.leaf entries) entries
  | node {sons : Fin d → Trie d κ ν} {entries : List (κ × ν)} (i : Fin d)
      (hbefore : ∀ j < i, sons j = .nil) (hson : FirstLeaf (sons i) entries) :
      FirstLeaf (.node sons) entries

/-- A condition on all keys of a tree. -/
def AllKeys (P : κ → Prop) : Trie d κ ν → Prop
  | .nil => True
  | .leaf entries => ∀ e ∈ entries, P e.1
  | .node sons => ∀ i, AllKeys P (sons i)

theorem AllKeys.of_lookup {P : κ → Prop} (ht : AllKeys P t)
    (hkey : lookup digit level t key ≠ none) : P key := by
  induction t generalizing level with
  | nil => exact absurd rfl hkey
  | leaf entries =>
    obtain ⟨e, he, rfl⟩ := List.mem_map.mp (not_not.mp (mt lookup_eq_none.mpr hkey))
    exact ht e he
  | node sons ih => exact ih _ (ht _) hkey

namespace FirstLeaf

variable {P : κ → Prop}

omit [DecidableEq κ] in
theorem digits (h : FirstLeaf t entries) (ht : Valid digit room depth path level t) :
    ∀ e ∈ entries, ∀ j < level, digit j e.1 = path j := by
  induction h generalizing path level with
  | leaf => exact LeafAt.digits ht
  | node i _ _ ih =>
    intro e he j hj
    rw [ih (ht.2 i) e he j (Nat.lt_succ_of_lt hj), Function.update_of_ne hj.ne]

omit [DecidableEq κ] in
theorem allKeys (h : FirstLeaf t entries) (ht : AllKeys P t) : ∀ e ∈ entries, P e.1 := by
  induction h with
  | leaf => exact ht
  | node i _ _ ih => exact ih (ht i)

/-- The keys of the first leaf have their values there. -/
theorem lookup_eq (h : FirstLeaf t entries) (ht : Valid digit room depth path level t)
    (hkey : key ∈ entries.map Prod.fst) : lookup digit level t key = entries.lookup key := by
  induction h generalizing path level with
  | leaf => rfl
  | @node sons entries i _ hson ih =>
    obtain ⟨e, he, rfl⟩ := List.mem_map.mp hkey
    have hdigit := hson.digits (ht.2 i) e he level (Nat.lt_succ_self level)
    rw [Function.update_self] at hdigit
    rw [lookup, hdigit]
    exact ih (ht.2 i) hkey

/-- When the keys are ordered like their digits, the other keys of the tree are
greater than those of the first leaf. -/
theorem mem_or_lt [LT κ]
    (hlt : ∀ k k' level, P k → P k' → (∀ j < level, digit j k = digit j k') →
      digit level k < digit level k' → k < k')
    (h : FirstLeaf t entries) (ht : Valid digit room depth path level t) (hP : AllKeys P t)
    (hpath : ∀ j < level, digit j key = path j) (hkey : lookup digit level t key ≠ none) :
    key ∈ entries.map Prod.fst ∨ ∀ e ∈ entries, e.1 < key := by
  induction h generalizing path level with
  | leaf => exact .inl (not_not.mp (mt lookup_eq_none.mpr hkey))
  | @node sons entries i hbefore hson ih =>
    have hPkey : P key := AllKeys.of_lookup hP hkey
    rcases lt_trichotomy (digit level key) i with hless | heq | hgreater
    · rw [lookup, hbefore _ hless] at hkey
      exact absurd rfl hkey
    · rw [lookup, heq] at hkey
      exact ih (ht.2 i) (hP i) (digits_update hpath heq) hkey
    · refine .inr fun e he => hlt e.1 key level (hson.allKeys (hP i) e he) hPkey (fun j hj => ?_) ?_
      · rw [hson.digits (ht.2 i) e he j (Nat.lt_succ_of_lt hj), Function.update_of_ne hj.ne,
          hpath j hj]
      · rw [hson.digits (ht.2 i) e he level (Nat.lt_succ_self level), Function.update_self]
        exact hgreater

end FirstLeaf

end searching

end DigitTree
