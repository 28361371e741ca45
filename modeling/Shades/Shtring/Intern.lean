import Shades.Shtring.Text
import Shades.Triev2.Insert

/-!
# Shades.Shtring.Intern

`shtring_intern` gives every shtring a number such that shtrings with the same
text get the same number.  The shtrings interned so far are kept in a trie
under the hash of their text, where those with the same hash form a list, and
in a second trie under their number.

`InternAt` relates an intern root to the list of the shtrings interned so far;
the number of a shtring is its position in that list.
-/

namespace Shades

/-! ## the code -/

/-- `SHTRING_HASH_BITS`. -/
def shtringHashBits : Nat := 32

/-- `SHTRING_INTERN_MAX_ALLOCATION`. -/
def shtringInternMaxAllocation : Nat := 4 + 2 * triev2MaxAllocation + 4

/-- `struct shtring_intern_result`. -/
structure ShtringInternResult where
  newInternRoot : Nat
  internedShtring : Nat
  internedShtringId : Nat
  wasNew : Bool
  deriving DecidableEq, Repr

/-- `new_intern_node`. -/
def newInternNode (m : Memory) (next shtr id : Nat) : Nat × Memory :=
  let (p, m) := m.allocate 4 .shtringInternNode
  (p, ((m.set (p + 1) (ptrToWord next)).set (p + 2) (ptrToWord shtr)).set (p + 3) id)

/-- `new_intern_root`. -/
def newInternRoot (m : Memory) (hashTrie idTrie count : Nat) : Nat × Memory :=
  let (p, m) := m.allocate 4 .shtringInternRoot
  (p, ((m.set (p + 1) (ptrToWord hashTrie)).set (p + 2) (ptrToWord idTrie)).set (p + 3) count)

/-- The loop of `shtring_intern` over the shtrings with the same hash; the
result is the node of a shtring that compares as equal. -/
def internSearch (words : Nat → Nat) (shtr : Nat) : Nat → Nat → Option (Option Nat)
  | 0, _ => none
  | fuel + 1, q =>
    if q = nullPtr then some none
    else
      (shtringCmpWithoutAllocating words (wordToPtr (words (q + 2))) shtr).bind fun r =>
        if r = .equal then some (some q)
        else internSearch words shtr fuel (wordToPtr (words (q + 1)))

/-- The part of `shtring_intern` for a shtring that is new.  It asserts that
there is a number left. -/
def internNew (m : Memory) (oldHashTrie oldIdTrie oldCount list hash shtr : Nat) :
    Option (ShtringInternResult × Memory) :=
  if oldCount < 2 ^ 32 - 1 then
    let newId := oldCount + 1
    let (newNode, m) := newInternNode m list shtr newId
    (triev2Insert m oldHashTrie hash shtringHashBits none (ptrToWord newNode)).bind
      fun (newHashTrie, m) =>
        (triev2Insert m oldIdTrie newId 32 none (ptrToWord shtr)).map fun (newIdTrie, m) =>
          let (root, m) := newInternRoot m newHashTrie newIdTrie newId
          (⟨root, shtr, newId, true⟩, m)
  else none

/-- `shtring_intern`. -/
def shtringIntern (m : Memory) (root shtr : Nat) : Option (ShtringInternResult × Memory) :=
  (shtringHash m.words shtr).bind fun hash =>
    if root = nullPtr then internNew m nullPtr nullPtr 0 nullPtr hash shtr
    else
      let oldHashTrie := wordToPtr (m.words (root + 1))
      let oldIdTrie := wordToPtr (m.words (root + 2))
      let oldCount := m.words (root + 3)
      (triev2Find m.words oldHashTrie hash shtringHashBits).bind fun w =>
        let list := wordToPtr w
        (internSearch m.words shtr (oldCount + 1) list).bind fun found =>
          match found with
          | some q =>
            some (⟨root, wordToPtr (m.words (q + 2)), m.words (q + 3), false⟩, m)
          | none => internNew m oldHashTrie oldIdTrie oldCount list hash shtr

/-- `shtring_lookup_by_intern_id`. -/
def shtringLookupByInternId (words : Nat → Nat) (root id : Nat) : Option Nat :=
  (triev2Find words (wordToPtr (words (root + 2))) id 32).map wordToPtr

/-- The number of shtrings interned so far. -/
def internCount (words : Nat → Nat) (root : Nat) : Nat :=
  if root = nullPtr then 0 else words (root + 3)

/-! ## what an intern root means -/

/-- A shtring that was interned: where it is and its window on its chunks. -/
structure Interned where
  shtr : Nat
  chunks : List Chunk
  off : Nat
  len : Nat

/-- The text of an interned shtring. -/
def Interned.text (s : Interned) : List Nat := windowText s.chunks s.off s.len

/-- The shtrings for which the hash and the comparison are right: `hash_chunk`
counts the bytes of every part rightly, and the length leaves room for
`CMP_BUF` in a word. -/
structure Internable (chunks : List Chunk) (off len : Nat) : Prop where
  aligned : VisitedParts HashAligned off len chunks 0
  le_max : len ≤ 2 ^ 32 - 4096

/-- The shtrings with a given hash and their numbers, the latest first. -/
def collisions (entries : List Interned) (hash : Nat) : List (Interned × Nat) :=
  ((entries.zipIdx 1).filter fun e => textHash e.1.text == hash).reverse

/-- The list of nodes at `q` with the given shtrings and numbers. -/
inductive InternListAt (words : Nat → Nat) (S : Nat → Prop) : Nat → List (Interned × Nat) → Prop
  | nil : InternListAt words S nullPtr []
  | cons {q next : Nat} {e : Interned × Nat} {l : List (Interned × Nat)} (hne : q ≠ nullPtr)
      (hregion : ∀ i < 4, S (q + i)) (hnext : words (q + 1) = ptrToWord next)
      (hshtr : words (q + 2) = ptrToWord e.1.shtr) (hid : words (q + 3) = e.2)
      (hrest : InternListAt words S next l) : InternListAt words S q (e :: l)

/-- The word for a number in the second trie. -/
def idWord (entries : List Interned) : Nat → Nat
  | 0 => 0
  | i + 1 => (entries[i]?.map fun e => ptrToWord e.shtr).getD 0

/-- A shtring that can be compared and hashed. -/
structure InternableAt (words : Nat → Nat) (S : Nat → Prop) (s : Interned) : Prop where
  shtring : ShtringAt words S s.shtr s.chunks s.off s.len
  internable : Internable s.chunks s.off s.len

/-- The two tries and the count that an intern root holds. -/
structure InternTables (words : Nat → Nat) (S : Nat → Prop) (hashTrie idTrie count : Nat)
    (entries : List Interned) : Prop where
  count : count = entries.length
  hash : ∃ g : Nat → Nat, RootAt words S 16 hashTrie g ∧
    ∀ k < 4 ^ 16, ∃ q, g k = ptrToWord q ∧ InternListAt words S q (collisions entries k)
  id : RootAt words S 16 idTrie (idWord entries)
  shtrings : ∀ e ∈ entries, InternableAt words S e
  distinct : (entries.map Interned.text).Nodup

/-- The intern root `root` of the given shtrings. -/
def InternAt (words : Nat → Nat) (S : Nat → Prop) (root : Nat) (entries : List Interned) : Prop :=
  (root = nullPtr ∧ entries = []) ∨
  (root ≠ nullPtr ∧ (∀ i < 4, S (root + i)) ∧
    InternTables words S (wordToPtr (words (root + 1))) (wordToPtr (words (root + 2)))
      (words (root + 3)) entries)

/-! ## the same words elsewhere -/

section frame

variable {words words' : Nat → Nat} {S S' : Nat → Prop} (hagree : AgreeOn S words words')
  (hS : ∀ a, S a → S' a)

include hagree hS

theorem InternListAt.frame {q : Nat} {l : List (Interned × Nat)}
    (h : InternListAt words S q l) : InternListAt words' S' q l := by
  induction h with
  | nil => exact .nil
  | cons hne hregion hnext hshtr hid _ ih =>
    have hword := fun i hi => hagree _ (hregion i hi)
    refine .cons hne (fun i hi => hS _ (hregion i hi)) ?_ ?_ ?_ ih
    · rw [hword 1 (by decide), hnext]
    · rw [hword 2 (by decide), hshtr]
    · rw [hword 3 (by decide), hid]

theorem InternableAt.frame {s : Interned} (h : InternableAt words S s) :
    InternableAt words' S' s :=
  ⟨h.shtring.frame hagree hS, h.internable⟩

theorem InternTables.frame {hashTrie idTrie count : Nat} {entries : List Interned}
    (h : InternTables words S hashTrie idTrie count entries) :
    InternTables words' S' hashTrie idTrie count entries where
  count := h.count
  hash := by
    obtain ⟨g, hg, hlists⟩ := h.hash
    refine ⟨g, hg.frame hagree hS, fun k hk => ?_⟩
    obtain ⟨q, hq, hl⟩ := hlists k hk
    exact ⟨q, hq, hl.frame hagree hS⟩
  id := h.id.frame hagree hS
  shtrings := fun e he => (h.shtrings e he).frame hagree hS
  distinct := h.distinct

theorem InternAt.frame {root : Nat} {entries : List Interned}
    (h : InternAt words S root entries) : InternAt words' S' root entries := by
  rcases h with h | ⟨hne, hregion, ht⟩
  · exact .inl h
  · have hword := fun i hi => hagree _ (hregion i hi)
    refine .inr ⟨hne, fun i hi => hS _ (hregion i hi), ?_⟩
    rw [hword 1 (by decide), hword 2 (by decide), hword 3 (by decide)]
    exact ht.frame hagree hS

end frame

/-! ## collisions -/

theorem mem_collisions {entries : List Interned} {k : Nat} {e : Interned × Nat} :
    e ∈ collisions entries k ↔
      ∃ i, e.2 = i + 1 ∧ entries[i]? = some e.1 ∧ textHash e.1.text = k := by
  obtain ⟨e, id⟩ := e
  simp only [collisions, List.mem_reverse, List.mem_filter, List.mem_zipIdx_iff_le_and_getElem?_sub,
    beq_iff_eq]
  constructor
  · rintro ⟨⟨hle, hget⟩, hhash⟩
    exact ⟨id - 1, by omega, hget, hhash⟩
  · rintro ⟨i, rfl, hget, hhash⟩
    exact ⟨⟨by omega, by simpa using hget⟩, hhash⟩

theorem length_collisions_le (entries : List Interned) (k : Nat) :
    (collisions entries k).length ≤ entries.length := by
  rw [collisions, List.length_reverse]
  exact (List.length_filter_le _ _).trans (by rw [List.length_zipIdx])

/-- A new shtring joins the list of its hash. -/
theorem collisions_append (entries : List Interned) (s : Interned) (k : Nat) :
    collisions (entries ++ [s]) k =
      if textHash s.text = k then (s, entries.length + 1) :: collisions entries k
      else collisions entries k := by
  unfold collisions
  rw [List.zipIdx_append, List.filter_append, List.reverse_append, Nat.add_comm 1]
  by_cases h : textHash s.text = k <;> simp [h]

theorem idWord_append (entries : List Interned) (s : Interned) :
    idWord (entries ++ [s]) = Function.update (idWord entries) (entries.length + 1)
      (ptrToWord s.shtr) := by
  funext id
  obtain _ | i := id
  · rw [Function.update_of_ne (by omega)]
    rfl
  · by_cases h : i = entries.length
    · rw [h, Function.update_self, idWord, List.getElem?_concat_length]
      rfl
    · rw [Function.update_of_ne (by omega), idWord, idWord]
      rcases Nat.lt_or_gt_of_ne h with hlt | hgt
      · rw [List.getElem?_append_left hlt]
      · rw [List.getElem?_eq_none (by simp; omega), List.getElem?_eq_none (by omega)]

/-! ## the operations -/

theorem InternableAt.hash {words : Nat → Nat} {S : Nat → Prop} {s : Interned}
    (hs : InternableAt words S s) : shtringHash words s.shtr = some (textHash s.text) :=
  shtringHash_eq hs.shtring hs.internable.aligned

theorem InternableAt.cmp {words : Nat → Nat} {S : Nat → Prop} {e s : Interned}
    (he : InternableAt words S e) (hs : InternableAt words S s) :
    shtringCmpWithoutAllocating words e.shtr s.shtr = some (textCmp e.text s.text) := by
  have hmax := hs.internable.le_max
  exact shtringCmpWithoutAllocating_eq he.shtring hs.shtring (.inl (by unfold cmpLimit; omega))

/-- The search finds a shtring with the same text, or there is none. -/
theorem internSearch_spec {words : Nat → Nat} {S : Nat → Prop} {q : Nat}
    {l : List (Interned × Nat)} {s : Interned} (hl : InternListAt words S q l)
    (hentries : ∀ e ∈ l, InternableAt words S e.1) (hs : InternableAt words S s) :
    ∀ {fuel : Nat}, l.length < fuel →
      (∃ q', ∃ e ∈ l, e.1.text = s.text ∧
        internSearch words s.shtr fuel q = some (some q') ∧
        words (q' + 2) = ptrToWord e.1.shtr ∧ words (q' + 3) = e.2) ∨
      ((∀ e ∈ l, e.1.text ≠ s.text) ∧ internSearch words s.shtr fuel q = some none) := by
  induction hl with
  | nil =>
    intro fuel hfuel
    obtain ⟨fuel, rfl⟩ : ∃ f, fuel = f + 1 := ⟨fuel - 1, by omega⟩
    exact .inr ⟨nofun, if_pos rfl⟩
  | @cons q next e l hne hregion hnext hshtr hid _ ih =>
    intro fuel hfuel
    obtain ⟨fuel, rfl⟩ : ∃ f, fuel = f + 1 := ⟨fuel - 1, by omega⟩
    have he := hentries e List.mem_cons_self
    rw [internSearch, if_neg hne, hshtr, wordToPtr_ptrToWord, he.cmp hs, hnext, wordToPtr_ptrToWord,
      Option.bind_some]
    by_cases heq : e.1.text = s.text
    · refine .inl ⟨q, e, List.mem_cons_self, heq, ?_, hshtr, hid⟩
      rw [if_pos ((textCmp_eq_equal _ _).mpr heq)]
    · rw [if_neg fun h => heq ((textCmp_eq_equal _ _).mp h)]
      rcases ih (fun e he => hentries e (List.mem_cons_of_mem _ he))
        (show l.length < fuel by simpa using hfuel) with ⟨q', e', he', h⟩ | ⟨hnone, h⟩
      · exact .inl ⟨q', e', List.mem_cons_of_mem _ he', h⟩
      · refine .inr ⟨fun e' he' => ?_, h⟩
        rcases List.mem_cons.mp he' with rfl | he'
        · exact heq
        · exact hnone e' he'

/-- A fresh cell of four words, as both kinds of cell here are. -/
theorem allocate_four {m m' : Memory} {n p x y z : Nat} {t : CellType}
    (hcan : m.canAllocate (4 + n))
    (h : (let (p, m) := m.allocate 4 t
      (p, ((m.set (p + 1) x).set (p + 2) y).set (p + 3) z)) = (p, m')) :
    p ≠ nullPtr ∧ m.Extends m' ∧ m'.canAllocate n ∧ (∀ i < 4, m'.Live (p + i)) ∧
      m'.words (p + 1) = x ∧ m'.words (p + 2) = y ∧ m'.words (p + 3) = z := by
  obtain ⟨hp, hm⟩ := Prod.mk.inj h
  have hp : p = m.allocationPtr - 4 := hp.symm
  have hm' : m' = (((m.allocate 4 t).2.set (p + 1) x).set (p + 2) y).set (p + 3) z := by
    rw [← hm, hp]
    rfl
  have hend := m.firstGenerationEnd_pos
  unfold Memory.canAllocate at hcan
  have halloc := Memory.allocates_allocate t (by decide : 0 < 4)
    (show m.canAllocate 4 by unfold Memory.canAllocate; omega)
  have hset : m.Allocates m' := by
    rw [hm']
    refine ((halloc.set ?_ x).set ?_ y).set ?_ z <;> simp <;> omega
  have hptr : m'.allocationPtr = m.allocationPtr - 4 := by rw [hm']; rfl
  have hfirst : m'.firstGenerationEnd = m.firstGenerationEnd := by rw [hm']; rfl
  refine ⟨by unfold nullPtr; omega, hset.extends (by omega), ?_, fun i hi => .inr (by omega), ?_, ?_, ?_⟩
  · unfold Memory.canAllocate
    omega
  all_goals rw [hm']; simp

theorem hashByte_lt (h c : Nat) : hashByte h c < 2 ^ 32 := Nat.mod_lt _ (by decide)

theorem textHash_lt (text : List Nat) : textHash text < 2 ^ 32 := by
  have hfold : ∀ (text : List Nat) (h : Nat), h < 2 ^ 32 → text.foldl hashByte h < 2 ^ 32 := by
    intro text
    induction text with
    | nil => exact fun _ h => h
    | cons c text ih => exact fun h _ => ih _ (hashByte_lt h c)
  exact hfold text _ (by decide)

/-- An insertion without an update function. -/
theorem triev2Insert_data {m : Memory} {n root k : Nat} {g : Nat → Nat} (key data : Nat)
    (hroot : RootAt m.words m.Live 16 root g) (hkey : key < 2 ^ 32)
    (hcan : m.canAllocate (triev2MaxAllocation + n)) (hdata : data ≠ 0) (hk : k = 32) :
    ∃ root' m', triev2Insert m root key k none data = some (root', m') ∧ m.Extends m' ∧
      m'.canAllocate n ∧ RootAt m'.words m'.Live 16 root' (Function.update g key data) := by
  subst hk
  unfold Memory.canAllocate at hcan
  obtain ⟨root', m', x, hrun, hext, hptr, hx, hroot', -⟩ :=
    triev2Insert_spec key (by decide) (Nat.le_refl 16) hroot
      (show m.canAllocate (triev2MaxAllocation + UpdateFunction.cost none) by
        unfold Memory.canAllocate UpdateFunction.cost
        simp only [Option.elim]
        omega) hdata (f := none) (fun u hu => by cases hu)
  obtain rfl : x = data := by
    unfold InsertValue at hx
    split at hx
    · exact hx
    · obtain ⟨_, -, hx⟩ := hx
      exact hx
  rw [Nat.mod_eq_of_lt (show key < 4 ^ 16 from hkey)] at hroot'
  refine ⟨root', m', hrun, hext, ?_, hroot'⟩
  unfold Memory.canAllocate
  unfold UpdateFunction.cost at hptr
  simp only [Option.elim] at hptr
  have hend := hext.firstGenerationEnd_eq
  omega

/-- A new shtring gets the next number. -/
theorem internNew_spec {m : Memory} {hashTrie idTrie count list : Nat} {entries : List Interned}
    {s : Interned} (ht : InternTables m.words m.Live hashTrie idTrie count entries)
    (hlist : InternListAt m.words m.Live list (collisions entries (textHash s.text)))
    (hs : InternableAt m.words m.Live s) (hnew : ∀ e ∈ entries, e.text ≠ s.text)
    (hcan : m.canAllocate shtringInternMaxAllocation) (hcount : entries.length < 2 ^ 32 - 1) :
    ∃ root' m', internNew m hashTrie idTrie count list (textHash s.text) s.shtr =
        some (⟨root', s.shtr, entries.length + 1, true⟩, m') ∧
      m.Extends m' ∧ InternAt m'.words m'.Live root' (entries ++ [s]) := by
  obtain ⟨g, hg, hlists⟩ := ht.hash
  -- the node in the list of the hash
  obtain ⟨node, m₁, hnode⟩ : ∃ node m₁, newInternNode m list s.shtr (entries.length + 1) = (node, m₁) :=
    ⟨_, _, rfl⟩
  obtain ⟨hne₁, hext₁, hcan₁, hlive₁, hnext₁, hshtr₁, hid₁⟩ :=
    allocate_four (n := triev2MaxAllocation + (triev2MaxAllocation + (4 + 0))) hcan hnode
  -- the two tries
  obtain ⟨hashTrie', m₂, hinsert₂, hext₂, hcan₂, hroot₂⟩ :=
    triev2Insert_data (textHash s.text) (ptrToWord node)
      (hg.frame hext₁.agree fun _ => hext₁.live) (textHash_lt _) hcan₁
      (fun h => hne₁ ((ptrToWord_eq_zero _).mp h)) rfl
  obtain ⟨idTrie', m₃, hinsert₃, hext₃, hcan₃, hroot₃⟩ :=
    triev2Insert_data (entries.length + 1) (ptrToWord s.shtr)
      (ht.id.frame (hext₁.trans hext₂).agree fun _ => (hext₁.trans hext₂).live) (by omega) hcan₂
      (fun h => hs.shtring.ne_null ((ptrToWord_eq_zero _).mp h)) rfl
  obtain ⟨root', m₄, hroot⟩ : ∃ root' m₄,
      newInternRoot m₃ hashTrie' idTrie' (entries.length + 1) = (root', m₄) := ⟨_, _, rfl⟩
  obtain ⟨hne₄, hext₄, -, hlive₄, hhash₄, hidt₄, hcount₄⟩ :=
    allocate_four hcan₃ hroot
  have hext₁₄ := (hext₂.trans hext₃).trans hext₄
  have hext := hext₁.trans hext₁₄
  refine ⟨root', m₄, ?_, hext, .inr ⟨hne₄, hlive₄, ?_⟩⟩
  · unfold internNew shtringHashBits
    simp only [ht.count, if_pos hcount, hnode, hinsert₂, hinsert₃, hroot, Option.bind_some,
      Option.map_some]
  rw [hhash₄, hidt₄, hcount₄, wordToPtr_ptrToWord, wordToPtr_ptrToWord]
  refine
    { count := by rw [List.length_append, List.length_singleton]
      hash := ⟨_, hroot₂.frame (hext₃.trans hext₄).agree fun _ => (hext₃.trans hext₄).live, ?_⟩
      id := by
        rw [idWord_append]
        exact hroot₃.frame hext₄.agree fun _ => hext₄.live
      shtrings := ?_
      distinct := ?_ }
  · intro k hk
    rw [collisions_append]
    by_cases hkey : k = textHash s.text
    · subst hkey
      rw [Function.update_self, if_pos rfl]
      have hcell : InternListAt m₁.words m₁.Live node
          ((s, entries.length + 1) :: collisions entries (textHash s.text)) :=
        .cons hne₁ hlive₁ hnext₁ hshtr₁ hid₁ (hlist.frame hext₁.agree fun _ => hext₁.live)
      exact ⟨node, rfl, hcell.frame hext₁₄.agree fun _ => hext₁₄.live⟩
    · rw [Function.update_of_ne hkey, if_neg fun h => hkey h.symm]
      obtain ⟨q, hq, hl⟩ := hlists k hk
      exact ⟨q, hq, hl.frame hext.agree fun _ => hext.live⟩
  · intro e he
    rcases List.mem_append.mp he with he | he
    · exact (ht.shtrings e he).frame hext.agree fun _ => hext.live
    · obtain rfl := List.mem_singleton.mp he
      exact hs.frame hext.agree fun _ => hext.live
  · rw [List.map_append, List.nodup_append]
    refine ⟨ht.distinct, List.pairwise_singleton _ _, ?_⟩
    intro t ht' t' ht'' heq
    obtain ⟨e, he, rfl⟩ := List.mem_map.mp ht'
    obtain rfl := List.mem_singleton.mp ht''
    exact hnew e he heq

/-- The empty tables. -/
theorem internTables_nil (words : Nat → Nat) (S : Nat → Prop) :
    InternTables words S nullPtr nullPtr 0 [] where
  count := rfl
  hash := ⟨fun _ => 0, .inl ⟨rfl, fun _ _ => rfl⟩, fun k _ => ⟨nullPtr, rfl, .nil⟩⟩
  id := .inl ⟨rfl, fun k _ => by cases k <;> rfl⟩
  shtrings := nofun
  distinct := List.nodup_nil

/-- `shtring_intern` finds the text or gives it the next number. -/
theorem shtringIntern_spec {m : Memory} {root : Nat} {entries : List Interned} {s : Interned}
    (hroot : InternAt m.words m.Live root entries) (hs : InternableAt m.words m.Live s) :
    (∃ e i, entries[i]? = some e ∧ e.text = s.text ∧
      shtringIntern m root s.shtr = some (⟨root, e.shtr, i + 1, false⟩, m)) ∨
    ((∀ e ∈ entries, e.text ≠ s.text) ∧
      (2 ^ 32 - 1 ≤ entries.length → shtringIntern m root s.shtr = none) ∧
      (entries.length < 2 ^ 32 - 1 → m.canAllocate shtringInternMaxAllocation →
        ∃ root' m', shtringIntern m root s.shtr =
            some (⟨root', s.shtr, entries.length + 1, true⟩, m') ∧
          m.Extends m' ∧ InternAt m'.words m'.Live root' (entries ++ [s]))) := by
  unfold shtringIntern
  rw [hs.hash, Option.bind_some]
  rcases hroot with ⟨rfl, rfl⟩ | ⟨hne, -, ht⟩
  · rw [if_pos rfl]
    exact .inr ⟨nofun, fun h => absurd h (by decide), fun hcount hcan =>
      internNew_spec (internTables_nil _ _) .nil hs nofun hcan hcount⟩
  · obtain ⟨g, hg, hlists⟩ := ht.hash
    have hhash : textHash s.text < 4 ^ 16 := textHash_lt _
    obtain ⟨q, hq, hl⟩ := hlists _ hhash
    have hfind : triev2Find m.words (wordToPtr (m.words (root + 1))) (textHash s.text)
        shtringHashBits = some (ptrToWord q) := by
      have := triev2Find_eq hg (by decide) (Nat.le_refl 16) (textHash s.text)
      rw [Nat.mod_eq_of_lt hhash, hq] at this
      exact this
    have hlength := length_collisions_le entries (textHash s.text)
    have hsearch := internSearch_spec hl
      (fun e he => ht.shtrings e.1 (by
        obtain ⟨i, -, hget, -⟩ := mem_collisions.mp he
        exact List.mem_of_getElem? hget)) hs
      (show _ < m.words (root + 3) + 1 by rw [ht.count]; omega)
    simp only [if_neg hne, hfind, Option.bind_some, wordToPtr_ptrToWord]
    rcases hsearch with ⟨q', e, he, htext, hfound, hshtr, hid⟩ | ⟨hnone, hfound⟩
    · obtain ⟨i, hi, hget, -⟩ := mem_collisions.mp he
      refine .inl ⟨e.1, i, hget, htext, ?_⟩
      simp only [hfound, Option.bind_some, hshtr, wordToPtr_ptrToWord, hid, hi]
    · have hnew : ∀ e ∈ entries, e.text ≠ s.text := by
        intro e he htext
        obtain ⟨i, hget⟩ := List.getElem?_of_mem he
        exact hnone (e, i + 1) (mem_collisions.mpr ⟨i, rfl, hget, congrArg textHash htext⟩) htext
      simp only [hfound, Option.bind_some]
      refine .inr ⟨hnew, fun h => ?_, fun hcount hcan => internNew_spec ht hl hs hnew hcan hcount⟩
      rw [internNew, ht.count, if_neg (by omega)]

/-- `shtring_lookup_by_intern_id` for a number that was given out. -/
theorem shtringLookupByInternId_eq {words : Nat → Nat} {S : Nat → Prop} {root i : Nat}
    {entries : List Interned} {e : Interned} (hroot : InternAt words S root entries)
    (hget : entries[i]? = some e) (hi : i + 1 < 2 ^ 32) :
    shtringLookupByInternId words root (i + 1) = some e.shtr := by
  rcases hroot with ⟨-, rfl⟩ | ⟨-, -, ht⟩
  · cases hget
  · have hfind := triev2Find_eq ht.id (by decide) (Nat.le_refl 16) (i + 1)
    rw [Nat.mod_eq_of_lt (show i + 1 < 4 ^ 16 from hi), idWord, hget] at hfind
    unfold shtringLookupByInternId
    rw [show 32 = 2 * 16 from rfl, hfind]
    simp

theorem InternAt.shtrings {words : Nat → Nat} {S : Nat → Prop} {root : Nat}
    {entries : List Interned} (hroot : InternAt words S root entries) :
    ∀ e ∈ entries, InternableAt words S e := by
  rcases hroot with ⟨-, rfl⟩ | ⟨-, -, ht⟩
  · nofun
  · exact ht.shtrings

/-- No text is interned twice. -/
theorem InternAt.index_eq {words : Nat → Nat} {S : Nat → Prop} {root i j : Nat}
    {entries : List Interned} {e e' : Interned} (hroot : InternAt words S root entries)
    (hi : entries[i]? = some e) (hj : entries[j]? = some e') (htext : e.text = e'.text) :
    i = j := by
  rcases hroot with ⟨-, rfl⟩ | ⟨-, -, ht⟩
  · cases hi
  · have hlt : i < (entries.map Interned.text).length := by
      rw [List.length_map]
      exact (List.getElem?_eq_some_iff.mp hi).1
    refine (List.getElem?_inj hlt ht.distinct).mp ?_
    rw [List.getElem?_map, List.getElem?_map, hi, hj, Option.map_some, Option.map_some, htext]

/-- The count of an intern root. -/
theorem internCount_eq {words : Nat → Nat} {S : Nat → Prop} {root : Nat}
    {entries : List Interned} (hroot : InternAt words S root entries) :
    internCount words root = entries.length := by
  rcases hroot with ⟨rfl, rfl⟩ | ⟨hne, -, ht⟩
  · rfl
  · rw [internCount, if_neg hne, ht.count]

/-! ## intern roots of whose tables nothing else is known -/

/-- The two tables of the root are tries. -/
def InternRootAt (words : Nat → Nat) (S : Nat → Prop) (root : Nat) : Prop :=
  root = nullPtr ∨ (∀ i < 4, S (root + i)) ∧
    (∃ f, CodedRootAt Nat.succ words S 16 (wordToPtr (words (root + 1))) f) ∧
    ∃ f, CodedRootAt Nat.succ words S 16 (wordToPtr (words (root + 2))) f

theorem InternRootAt.frame {words words' : Nat → Nat} {S S' : Nat → Prop} {root : Nat}
    (h : InternRootAt words S root) (hagree : AgreeOn S words words') (hS : ∀ a, S a → S' a) :
    InternRootAt words' S' root := by
  rcases h with h | ⟨hregion, ⟨f, hf⟩, g, hg⟩
  · exact .inl h
  · have hword := fun i hi => hagree _ (hregion i hi)
    refine .inr ⟨fun i hi => hS _ (hregion i hi), ⟨f, ?_⟩, g, ?_⟩
    · rw [hword 1 (by decide)]
      exact hf.frame hagree hS
    · rw [hword 2 (by decide)]
      exact hg.frame hagree hS

section keeps

variable {S : Nat → Prop} {m m' : Memory} {l : Nat}

/-- A cell of four words lies where words were free. -/
theorem allocate_four_fresh {m m' : Memory} {n p x y z : Nat} {t : CellType}
    (hcan : m.canAllocate (4 + n))
    (h : (let (p, m) := m.allocate 4 t
      (p, ((m.set (p + 1) x).set (p + 2) y).set (p + 3) z)) = (p, m')) :
    m'.allocationPtr = p ∧ p + 4 = m.allocationPtr := by
  obtain ⟨hp, hm⟩ := Prod.mk.inj h
  have hp : p = m.allocationPtr - 4 := hp.symm
  subst hm
  unfold Memory.canAllocate at hcan
  exact ⟨hp.symm, by omega⟩

/-- The part for a new shtring only allocates, and makes a root of tries. -/
theorem internNew_keeps {hashTrie idTrie count list hash shtr : Nat} {r : ShtringInternResult}
    {f g : Nat → Nat} (hS : ∀ a, S a → m.Live a) (hf : CodedRootAt Nat.succ m.words S 16 hashTrie f)
    (hg : CodedRootAt Nat.succ m.words S 16 idTrie g)
    (hcan : m.canAllocate (shtringInternMaxAllocation + l))
    (hrun : internNew m hashTrie idTrie count list hash shtr = some (r, m')) :
    m.Extends m' ∧ m'.canAllocate l ∧
      InternRootAt m'.words (Memory.grow S m m') r.newInternRoot := by
  obtain ⟨node, m₁, hnode⟩ : ∃ node m₁, newInternNode m list shtr (count + 1) = (node, m₁) :=
    ⟨_, _, rfl⟩
  have hmax : 4 + (triev2MaxAllocation + (triev2MaxAllocation + (4 + l))) =
      shtringInternMaxAllocation + l := by
    unfold shtringInternMaxAllocation
    omega
  rw [← hmax] at hcan
  obtain ⟨-, hext₁, hcan₁, -⟩ := allocate_four hcan hnode
  obtain ⟨hashTrie', m₂, hinsert₂, hext₂, hcan₂, hroot₂⟩ :=
    triev2Insert_coded hash (by decide) (Nat.le_refl 16)
      (fun a ha => hext₁.live (hS a ha)) (hf.frame (hext₁.agree.mono hS) fun _ ha => ha) hcan₁
      (Nat.succ_ne_zero (ptrToWord node))
  have hS₂ : ∀ a, S a → m₂.Live a := fun a ha => (hext₁.trans hext₂).live (hS a ha)
  obtain ⟨idTrie', m₃, hinsert₃, hext₃, hcan₃, hroot₃⟩ :=
    triev2Insert_coded (count + 1) (by decide) (Nat.le_refl 16) hS₂
      (hg.frame ((hext₁.trans hext₂).agree.mono hS) fun _ ha => ha) hcan₂
      (Nat.succ_ne_zero (ptrToWord shtr))
  obtain ⟨root', m₄, hroot⟩ : ∃ root' m₄,
      newInternRoot m₃ hashTrie' idTrie' (count + 1) = (root', m₄) := ⟨_, _, rfl⟩
  obtain ⟨-, hext₄, hcan₄, -, hhash₄, hidt₄, -⟩ := allocate_four hcan₃ hroot
  obtain ⟨hptr₄, hsum₄⟩ := allocate_four_fresh hcan₃ hroot
  unfold internNew shtringHashBits at hrun
  split_ifs at hrun
  simp only [hnode, hinsert₂, hinsert₃, hroot, Option.bind_some, Option.map_some] at hrun
  obtain ⟨rfl, rfl⟩ := Prod.mk.inj (Option.some.inj hrun)
  have hext₁₂ := hext₁.trans hext₂
  have hext₁₃ := hext₁₂.trans hext₃
  have hle₁ := hext₁.allocationPtr_le
  have hle₂ := hext₂.allocationPtr_le
  have hle₃ := hext₃.allocationPtr_le
  have hroot' : ∀ i < 4, Memory.grow S m m₄ (root' + i) := fun i hi => .inr (by omega)
  have hhash' := hroot₂.frame
    (hext₂.agree_grow (hext₃.trans hext₄) fun a ha => hext₁.live (hS a ha))
    fun _ => Memory.grow_mono hle₁ (hext₃.trans hext₄).allocationPtr_le
  have hid' := hroot₃.frame (hext₃.agree_grow hext₄ hS₂)
    fun _ => Memory.grow_mono hext₁₂.allocationPtr_le hext₄.allocationPtr_le
  rw [← wordToPtr_ptrToWord hashTrie', ← hhash₄] at hhash'
  rw [← wordToPtr_ptrToWord idTrie', ← hidt₄] at hid'
  exact ⟨hext₁₃.trans hext₄, hcan₄, .inr ⟨hroot', ⟨_, hhash'⟩, _, hid'⟩⟩

/-- `shtring_intern` only allocates, whatever is in the tables. -/
theorem shtringIntern_keeps {root shtr : Nat} {r : ShtringInternResult}
    (hS : ∀ a, S a → m.Live a) (hroot : InternRootAt m.words S root)
    (hcan : m.canAllocate (shtringInternMaxAllocation + l))
    (hrun : shtringIntern m root shtr = some (r, m')) :
    m.Extends m' ∧ m'.canAllocate l ∧
      InternRootAt m'.words (Memory.grow S m m') r.newInternRoot := by
  unfold shtringIntern at hrun
  obtain ⟨hash, -, hrun⟩ := Option.bind_eq_some_iff.mp hrun
  by_cases hnull : root = nullPtr
  · rw [if_pos hnull] at hrun
    have hempty : CodedRootAt Nat.succ m.words S 16 nullPtr fun _ => 0 := .inl ⟨rfl, fun _ _ => rfl⟩
    exact internNew_keeps hS hempty hempty hcan hrun
  · obtain ⟨-, ⟨f, hf⟩, g, hg⟩ := hroot.resolve_left hnull
    simp only [if_neg hnull] at hrun
    obtain ⟨list, -, hrun⟩ := Option.bind_eq_some_iff.mp hrun
    obtain ⟨found, -, hrun⟩ := Option.bind_eq_some_iff.mp hrun
    cases found with
    | none => exact internNew_keeps hS hf hg hcan hrun
    | some q =>
      obtain ⟨rfl, rfl⟩ := Prod.mk.inj (Option.some.inj hrun)
      exact ⟨.refl m, Memory.canAllocate_mono hcan (Nat.le_add_left _ _),
        hroot.frame (fun _ _ => rfl) fun _ => .inl⟩

end keeps

end Shades
