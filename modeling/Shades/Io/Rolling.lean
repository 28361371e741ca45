import Shades.Io.Runs

/-!
# Shades.Io.Rolling

One file under the round robin.  The pages that were written come first, and
the time stamps of the roots increase from the cursor on, all the way round;
after a recovery the cursor may stand at the newest root itself.

A write takes the first free page.  It passes pages that are not free, and of
these only the newest root of all files is a root, so that the time stamps still
increase from the next page on.
-/

namespace Shades

open Rotated

variable {f : DiskFile} {page page' : List DiskPage} {i j k : Nat} {ts : TimeStamp}

/-! ## pages with other status -/

/-- The pages hold the same blocks. -/
def SameBlocks (page page' : List DiskPage) : Prop :=
  page'.map DiskPage.block = page.map DiskPage.block

section same

variable (h : SameBlocks page page')
include h

theorem SameBlocks.blockAt : blockAt page' = blockAt page := by
  funext i
  unfold Shades.blockAt
  rw [← List.getElem?_map, ← List.getElem?_map, h]

theorem SameBlocks.length : page'.length = page.length := by
  simpa using congrArg List.length h

theorem SameBlocks.rootValue : rootValue page' = rootValue page := by
  funext i
  unfold Shades.rootValue
  rw [h.blockAt]

theorem SameBlocks.written (hw : Written page k) : Written page' k where
  le := h.length ▸ hw.le
  used i hi := by
    unfold RootOn
    rw [h.blockAt]
    exact hw.used i hi
  unused i hi hlt := by
    rw [h.blockAt]
    exact hw.unused i hi (h.length ▸ hlt)

end same

theorem sameBlocks_modify (page : List DiskPage) (i : Nat) (status : DiskPageStatus) :
    SameBlocks page (page.modify i fun p => { p with status }) := by
  unfold SameBlocks
  induction page generalizing i with
  | nil => simp
  | cons p page ih =>
    cases i with
    | zero => rfl
    | succ i => simp only [List.modify_succ_cons, List.map_cons, ih]

/-! ## a page is written -/

/-- Another block is written to the page `i`. -/
structure WritesBlock (page page' : List DiskPage) (i : Nat) (block : DiskBlock) : Prop where
  length : page'.length = page.length
  self : blockAt page' i = some block
  other : ∀ j, j ≠ i → blockAt page' j = blockAt page j

theorem writesBlock_modify (hi : i < page.length) (block : DiskBlock) (status : DiskPageStatus) :
    WritesBlock page ((page.modify i fun p => { p with status }).modify i
      fun p => { p with block }) i block where
  length := by rw [List.length_modify, List.length_modify]
  self := by simp [blockAt, hi]
  other j hj := by simp [blockAt, hj.symm]

variable {block : DiskBlock}

/-- The pages that were written are still the first ones. -/
theorem WritesBlock.written (h : WritesBlock page page' i block) (hw : Written page k)
    (hik : i ≤ k) (hi : i < page.length)
    (hblock : block = .page ∨ ∃ ts, ts.Valid ∧ block = .root ts) :
    Written page' (max k (i + 1)) where
  le := by
    have hle := hw.le
    have hlen := h.length
    omega
  used j hj := by
    by_cases hji : j = i
    · subst hji
      unfold RootOn
      rw [h.self]
      rcases hblock with rfl | ⟨ts, hvalid, rfl⟩
      · exact .inl rfl
      · exact .inr ⟨ts, hvalid, rfl⟩
    · unfold RootOn
      rw [h.other j hji]
      exact hw.used j (by omega)
  unused j hj hlt := by
    rw [h.other j (by omega)]
    exact hw.unused j (by omega) (h.length ▸ hlt)

theorem WritesBlock.rootValue_other (h : WritesBlock page page' i block) (hj : j ≠ i) :
    rootValue page' j = rootValue page j := by
  unfold rootValue
  rw [h.other j hj]

/-! ## the file -/

/-- The state of a file under the round robin. -/
structure DiskFile.Rolls (f : DiskFile) : Prop where
  cursorOk : f.CursorOk
  written : ∃ k, f.cursor ≤ k ∧ Written f.page k
  rotated : From (rootValue f.page) f.cursor ∨ From (rootValue f.page) (f.cursor + 1)

/-- The pages that the round robin passes are not free. -/
theorem DiskFile.FirstFree.passed {p x : Nat} (h : f.FirstFree p) (hcursor : f.CursorOk)
    (hx : Passed f.numberOfPages f.cursor p x) : ¬ f.Free x := by
  obtain ⟨t, ht, rfl, -, hnone⟩ := h
  have hlt : f.cursor < f.numberOfPages := hcursor.resolve_right (by omega)
  by_cases hwrap : f.cursor + t < f.numberOfPages
  · rw [Nat.mod_eq_of_lt hwrap] at hx
    unfold Passed at hx
    have hpass := hnone (x - f.cursor) (by omega)
    rwa [show f.cursor + (x - f.cursor) = x by omega, Nat.mod_eq_of_lt (by omega)] at hpass
  · rw [Nat.mod_eq_sub_mod (by omega), Nat.mod_eq_of_lt (by omega)] at hx
    unfold Passed at hx
    by_cases hge : f.cursor ≤ x
    · have hpass := hnone (x - f.cursor) (by omega)
      rwa [show f.cursor + (x - f.cursor) = x by omega, Nat.mod_eq_of_lt (by omega)] at hpass
    · have hpass := hnone (x + f.numberOfPages - f.cursor) (by omega)
      rwa [show f.cursor + (x + f.numberOfPages - f.cursor) = x + f.numberOfPages by omega,
        Nat.add_mod_right, Nat.mod_eq_of_lt (by omega)] at hpass

/-- The first free page is written.  Unused pages are free, and only the
greatest root may stand on a page that is not free. -/
theorem DiskFile.Rolls.write (h : f.Rolls) {p : Nat} (hfirst : f.FirstFree p)
    (hunused : ∀ i, blockAt f.page i = some .unused → f.Free i)
    (hroot : ∀ i ts, RootOn f.page i ts → ¬ f.Free i → Greatest (rootValue f.page) i ts.value)
    (hw : WritesBlock f.page page' p block)
    (hblock : block = .page ∨ ∃ ts, ts.Valid ∧ block = .root ts ∧
      ∀ i ts', RootOn f.page i ts' → ts'.value < ts.value) (n : Nat) :
    DiskFile.Rolls ⟨page', n, (p + 1) % f.numberOfPages⟩ := by
  obtain ⟨hcursor, ⟨k, hck, hwritten⟩, hrot⟩ := h
  have hp : p < f.page.length := by
    obtain ⟨-, -, -, hfree, -⟩ := hfirst
    exact hfree.lt
  have hlt : f.cursor < f.numberOfPages := hcursor.resolve_right (by
    unfold DiskFile.numberOfPages
    omega)
  have hpages : f.numberOfPages = f.page.length := rfl
  -- unused pages are not passed
  have hpk : p ≤ k := by
    by_contra hgt
    have hpass : Passed f.numberOfPages f.cursor p k := by
      unfold Passed
      omega
    exact hfirst.passed hcursor hpass (hunused k (hwritten.unused k (Nat.le_refl k) (by omega)))
  have hwritten' := hw.written hwritten hpk hp (hblock.imp_right fun ⟨ts, hvalid, heq, _⟩ =>
    ⟨ts, hvalid, heq⟩)
  have hfrom : From (rootValue page') (p + 1) := by
    have hgo : ∀ c₀, c₀ = f.cursor ∨ c₀ = f.cursor + 1 → From (rootValue f.page) c₀ →
        From (rootValue page') (p + 1) := by
      intro c₀ hc₀ hfrom
      refine hfrom.write (n := f.numberOfPages) hc₀ (fun x a hx => ?_) (fun x a hpass hx => ?_)
        (fun x hx => hw.rootValue_other hx) fun a ha x b hx hb => ?_
      · obtain ⟨ts, hr, -⟩ := exists_root hx
        exact hr.lt
      · obtain ⟨ts, hr, rfl⟩ := exists_root hx
        exact hroot x ts hr (hfirst.passed hcursor hpass)
      · obtain ⟨ts, hr, rfl⟩ := exists_root ha
        obtain ⟨ts', hr', rfl⟩ := exists_root hb
        have hself := hw.self
        rw [hr] at hself
        rcases hblock with rfl | ⟨ts'', hvalid, rfl, hnewer⟩
        · cases hself
        · obtain ⟨rfl⟩ := Option.some.inj hself
          exact hnewer x ts' hr'
    exact hrot.elim (hgo _ (.inl rfl)) (hgo _ (.inr rfl))
  have hlen : page'.length = f.numberOfPages := hw.length
  by_cases hend : p + 1 = f.numberOfPages
  · -- the round is complete
    rw [hend, Nat.mod_self]
    refine ⟨.inl (by show 0 < page'.length; omega), ⟨_, Nat.zero_le _, hwritten'⟩, .inl ?_⟩
    intro i j a b hij hi hj
    have hbelow : j < f.numberOfPages := by
      obtain ⟨ts, hr, -⟩ := exists_root hj
      have hjlt : j < page'.length := hr.lt
      omega
    exact ⟨fun hpass => absurd hpass.1 (Nat.not_lt_zero i), fun _ =>
      (hfrom hij hi hj).2 fun hpass => by omega⟩
  · rw [Nat.mod_eq_of_lt (by omega)]
    exact ⟨.inl (by show p + 1 < page'.length; omega), ⟨_, Nat.le_max_right _ _, hwritten'⟩,
      .inl hfrom⟩

end Shades
