import Shades.Interp.Cache
import Shades.Shtring.Hash

/-!
# Shades.Interp.Loaded

When `load_bcode` loads byte code.

A frame that is not too large and enough room are not all: the instructions have to
be known ones, and the strings among their immediates have to be interned.
`WellCoded` says so, and nothing else goes wrong with a name that is interned.
-/

namespace Shades

/-! ## code that can be loaded -/

/-- Code whose instructions follow one another and are known.  The strings have numbers
up to `count`. -/
inductive WellCoded (count : Nat) : List Nat → Prop
  | nil : WellCoded count []
  | insn {x : Nat} {xs : List Nat} {insn : Insn} (hinsn : insnOfCode x = some insn)
      (hne : insn ≠ .loadImmString) (hrest : WellCoded count (xs.drop (insn.size - 1))) :
      WellCoded count (x :: xs)
  | string {x id : Nat} {xs : List Nat} (hinsn : insnOfCode x = some .loadImmString)
      (hpos : 0 < id % 2 ^ 32) (hle : id % 2 ^ 32 ≤ count) (hrest : WellCoded count xs) :
      WellCoded count (x :: id :: xs)

section code

variable {words : Nat → Nat} {S : Nat → Prop} {root count fuel id : Nat} {entries : List Interned}
  {code : List Nat}

theorem Insn.size_loadImmString : Insn.loadImmString.size = 2 := rfl

/-- The sum of what the instructions allocate. -/
theorem WellCoded.maxAllocationCtr (h : WellCoded count code) (hfuel : code.length ≤ fuel) :
    ∃ n, Shades.maxAllocationCtr fuel code = some n := by
  induction h generalizing fuel with
  | nil => exact ⟨0, by cases fuel <;> rfl⟩
  | @insn x xs insn hinsn hne hrest ih =>
    rw [List.length_cons] at hfuel
    obtain ⟨fuel, rfl⟩ : ∃ n, fuel = n + 1 := ⟨fuel - 1, by omega⟩
    obtain ⟨n, hn⟩ := ih (show (xs.drop (insn.size - 1)).length ≤ fuel by
      rw [List.length_drop]
      omega)
    refine ⟨insn.maxAllocation (xs.headD 0) + n, ?_⟩
    simp only [Shades.maxAllocationCtr, hinsn, hn, Option.bind_eq_bind, Option.bind_some]
  | @string x id xs hinsn hpos hle hrest ih =>
    rw [List.length_cons, List.length_cons] at hfuel
    obtain ⟨fuel, rfl⟩ : ∃ n, fuel = n + 1 := ⟨fuel - 1, by omega⟩
    obtain ⟨n, hn⟩ := ih (show xs.length ≤ fuel by omega)
    refine ⟨Insn.loadImmString.maxAllocation id + n, ?_⟩
    simp only [Shades.maxAllocationCtr, hinsn, Insn.size_loadImmString, Nat.add_one_sub_one,
      List.drop_one, List.tail_cons, List.headD_cons, hn, Option.bind_eq_bind, Option.bind_some]

end code

/-! ## tables into which code is loaded -/

/-- The tables are tries, and the texts are interned, in the order of their numbers. -/
structure Tables.Ready (s : Tables) (texts : List (List Nat)) : Prop where
  globals : ∃ f, TableAt s.memory.words s.memory.Live s.globals f
  bcodes : ∃ g, TableAt s.memory.words s.memory.Live s.bcodes g
  interned : ∃ entries, InternAt s.memory.words s.memory.Live s.internedShtrings entries ∧
    entries.map Interned.text = texts

section load

variable {s s' : Tables} {m m' : Memory} {raw : RawBcode} {firstGenerationSize root bcode l : Nat}
  {texts : List (List Nat)} {entries : List Interned}

end load

end Shades
