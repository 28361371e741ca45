import Mathlib.Logic.Function.Basic

/-!
# Shades.TwoWayCache

Two-way associative caches of a function.

A key belongs to one line, and a line has room for two keys.  A key that is
looked up and not there takes the place that was not used last.  There is no
bit for an empty place: one key is set apart as invalid, and flushing a cache
puts it everywhere.

`Coherent` says that a cache holds values of a function.  A lookup is then the
function, whatever keys share a line; the cache stays coherent as long as it is
told about every change of the function, or flushed.
-/

namespace Shades

/-- The recency bit of a line.  For all its name it tells the entry that was used
last: the other one is filled next. -/
inductive Lru where
  | firstLeastRecentlyUsed
  | secondLeastRecentlyUsed
  deriving DecidableEq

structure CacheEntry (κ β : Type) where
  id : κ
  value : β

structure CacheLine (κ β : Type) where
  lru : Lru
  firstEntry : CacheEntry κ β
  secondEntry : CacheEntry κ β

/-- The lines of a cache. -/
abbrev TwoWayCache (ι κ β : Type) : Type := ι → CacheLine κ β

namespace CacheLine

variable {κ β : Type}

/-- Make both keys of the line invalid. -/
def flush (invalid : κ) (line : CacheLine κ β) : CacheLine κ β :=
  { line with
    firstEntry := { line.firstEntry with id := invalid }
    secondEntry := { line.secondEntry with id := invalid } }

/-- Put a key in the place that was not used last. -/
def fill (line : CacheLine κ β) (id : κ) (value : β) : CacheLine κ β :=
  match line.lru with
  | .firstLeastRecentlyUsed =>
    { line with secondEntry := ⟨id, value⟩, lru := .secondLeastRecentlyUsed }
  | .secondLeastRecentlyUsed =>
    { line with firstEntry := ⟨id, value⟩, lru := .firstLeastRecentlyUsed }

section lookup

variable [DecidableEq κ]

/-- Look up a key; `find` is what the function itself yields. -/
def get (line : CacheLine κ β) (id : κ) (find : Option β) : Option (β × CacheLine κ β) :=
  if line.firstEntry.id = id then
    some (line.firstEntry.value, { line with lru := .firstLeastRecentlyUsed })
  else if line.secondEntry.id = id then
    some (line.secondEntry.value, { line with lru := .secondLeastRecentlyUsed })
  else find.map fun value => (value, line.fill id value)

/-- Change the value of a key, if the line has it. -/
def set (line : CacheLine κ β) (id : κ) (value : β) : CacheLine κ β :=
  if line.firstEntry.id = id then
    { line with firstEntry := { line.firstEntry with value := value } }
  else if line.secondEntry.id = id then
    { line with secondEntry := { line.secondEntry with value := value } }
  else line

end lookup

/-! ## coherent lines -/

/-- The valid keys of the line satisfy `mine`, are different, and have the values
of the function. -/
structure Coherent (invalid : κ) (mine : κ → Prop) (f : κ → β) (line : CacheLine κ β) : Prop where
  first : line.firstEntry.id ≠ invalid →
    mine line.firstEntry.id ∧ line.firstEntry.value = f line.firstEntry.id
  second : line.secondEntry.id ≠ invalid →
    mine line.secondEntry.id ∧ line.secondEntry.value = f line.secondEntry.id
  distinct : line.firstEntry.id = line.secondEntry.id → line.firstEntry.id = invalid

variable {invalid id : κ} {mine : κ → Prop} {f : κ → β} {line : CacheLine κ β}

/-- A flushed line is coherent with every function. -/
theorem coherent_flush (invalid : κ) (mine : κ → Prop) (f : κ → β) (line : CacheLine κ β) :
    Coherent invalid mine f (line.flush invalid) :=
  ⟨fun h => absurd rfl h, fun h => absurd rfl h, fun _ => rfl⟩

/-- A key that is not in the line is put there. -/
theorem Coherent.fill (h : Coherent invalid mine f line) {value : β} (hmine : mine id)
    (hvalue : id ≠ invalid → value = f id) (hfirst : line.firstEntry.id ≠ id)
    (hsecond : line.secondEntry.id ≠ id) : Coherent invalid mine f (line.fill id value) := by
  unfold CacheLine.fill
  cases line.lru with
  | firstLeastRecentlyUsed =>
    exact ⟨h.first, fun hid => ⟨hmine, hvalue hid⟩, fun heq => absurd heq hfirst⟩
  | secondLeastRecentlyUsed =>
    exact ⟨fun hid => ⟨hmine, hvalue hid⟩, h.second, fun heq => absurd heq.symm hsecond⟩

section lookup

variable [DecidableEq κ]

/-- What a lookup finds, and that the line stays coherent. -/
theorem Coherent.get (h : Coherent invalid mine f line) {x : β} (hmine : mine id)
    (hx : id ≠ invalid → x = f id) : ∃ value line', line.get id (some x) = some (value, line') ∧
      (id ≠ invalid → value = f id) ∧ Coherent invalid mine f line' := by
  unfold CacheLine.get
  by_cases hfirst : line.firstEntry.id = id
  · refine ⟨_, _, if_pos hfirst, fun hid => ?_, ⟨h.first, h.second, h.distinct⟩⟩
    rw [(h.first (hfirst ▸ hid)).2, hfirst]
  · rw [if_neg hfirst]
    by_cases hsecond : line.secondEntry.id = id
    · refine ⟨_, _, if_pos hsecond, fun hid => ?_, ⟨h.first, h.second, h.distinct⟩⟩
      rw [(h.second (hsecond ▸ hid)).2, hsecond]
    · exact ⟨x, _, if_neg hsecond, hx, h.fill hmine hx hfirst hsecond⟩

/-- A change of the function at a key that the line may have. -/
theorem Coherent.set (h : Coherent invalid mine f line) (value : β) :
    Coherent invalid mine (Function.update f id value) (line.set id value) := by
  have hne {k : κ} {x : β} (hk : k ≠ id) (hx : mine k ∧ x = f k) :
      mine k ∧ x = Function.update f id value k :=
    ⟨hx.1, hx.2.trans (Function.update_of_ne hk _ _).symm⟩
  unfold CacheLine.set
  by_cases hfirst : line.firstEntry.id = id
  · rw [if_pos hfirst]
    refine ⟨fun hid => ⟨(h.first hid).1, ?_⟩, fun hid => hne (fun hsecond => ?_) (h.second hid),
      h.distinct⟩
    · exact (congrArg _ hfirst).trans (Function.update_self id value f) |>.symm
    · have heq := hfirst.trans hsecond.symm
      exact hid (heq.symm.trans (h.distinct heq))
  · rw [if_neg hfirst]
    by_cases hsecond : line.secondEntry.id = id
    · rw [if_pos hsecond]
      refine ⟨fun hid => hne hfirst (h.first hid), fun hid => ⟨(h.second hid).1, ?_⟩, h.distinct⟩
      exact (congrArg _ hsecond).trans (Function.update_self id value f) |>.symm
    · rw [if_neg hsecond]
      exact ⟨fun hid => hne hfirst (h.first hid), fun hid => hne hsecond (h.second hid), h.distinct⟩

/-- A change of the function at a key that belongs to another line. -/
theorem Coherent.update_of_not_mine (h : Coherent invalid mine f line) (hid : ¬ mine id)
    (value : β) : Coherent invalid mine (Function.update f id value) line := by
  have hkeep {k : κ} {x : β} (hx : mine k ∧ x = f k) :
      mine k ∧ x = Function.update f id value k :=
    ⟨hx.1, hx.2.trans (Function.update_of_ne (by rintro rfl; exact hid hx.1) _ _).symm⟩
  exact ⟨fun hne => hkeep (h.first hne), fun hne => hkeep (h.second hne), h.distinct⟩

end lookup

end CacheLine

namespace TwoWayCache

variable {ι κ β : Type} {invalid id : κ} {index : κ → ι} {f : κ → β} {cache : TwoWayCache ι κ β}

def flush (invalid : κ) (cache : TwoWayCache ι κ β) : TwoWayCache ι κ β :=
  fun i => (cache i).flush invalid

/-- The valid keys in the cache are in their lines, and have the values of the
function. -/
def Coherent (invalid : κ) (index : κ → ι) (f : κ → β) (cache : TwoWayCache ι κ β) : Prop :=
  ∀ i, (cache i).Coherent invalid (fun id => index id = i) f

theorem coherent_flush (invalid : κ) (index : κ → ι) (f : κ → β) (cache : TwoWayCache ι κ β) :
    Coherent invalid index f (cache.flush invalid) :=
  fun i => (cache i).coherent_flush invalid _ f

/-- Only what the function says about valid keys matters. -/
theorem Coherent.congr {g : κ → β} (h : Coherent invalid index f cache)
    (hfg : ∀ id, id ≠ invalid → g id = f id) : Coherent invalid index g cache :=
  fun i => ⟨fun hid => ⟨((h i).first hid).1, ((h i).first hid).2.trans (hfg _ hid).symm⟩,
    fun hid => ⟨((h i).second hid).1, ((h i).second hid).2.trans (hfg _ hid).symm⟩,
    (h i).distinct⟩

variable [DecidableEq ι] [DecidableEq κ]

def get (index : κ → ι) (cache : TwoWayCache ι κ β) (id : κ) (find : Option β) :
    Option (β × TwoWayCache ι κ β) :=
  ((cache (index id)).get id find).map fun (value, line) =>
    (value, Function.update cache (index id) line)

def set (index : κ → ι) (cache : TwoWayCache ι κ β) (id : κ) (value : β) : TwoWayCache ι κ β :=
  Function.update cache (index id) ((cache (index id)).set id value)

theorem Coherent.get (h : Coherent invalid index f cache) {x : β} (hx : id ≠ invalid → x = f id) :
    ∃ value cache', cache.get index id (some x) = some (value, cache') ∧
      (id ≠ invalid → value = f id) ∧ Coherent invalid index f cache' := by
  obtain ⟨value, line, hget, hvalue, hline⟩ :=
    (h (index id)).get (show index id = index id from rfl) hx
  refine ⟨value, _, by rw [TwoWayCache.get, hget]; rfl, hvalue, fun i => ?_⟩
  by_cases hi : i = index id
  · subst hi
    rw [Function.update_self]
    exact hline
  · rw [Function.update_of_ne hi]
    exact h i

theorem Coherent.set (h : Coherent invalid index f cache) (id : κ) (value : β) :
    Coherent invalid index (Function.update f id value) (cache.set index id value) := by
  intro i
  unfold TwoWayCache.set
  by_cases hi : i = index id
  · subst hi
    rw [Function.update_self]
    exact (h _).set value
  · rw [Function.update_of_ne hi]
    exact (h i).update_of_not_mine (fun heq => hi heq.symm) value

end TwoWayCache

end Shades
