import Shades.Io.Rolling

/-!
# Shades.Io.Newest

The search of `io_read_root` on all files: the cursor of each file is set to its
newest root, and the newest root of all files is kept.  The search reads the
first page of each file, so a file without pages makes it fail.
-/

namespace Shades

open Rotated

variable {fs fs' : List DiskFile} {f f' : DiskFile} {io : Io} {i j n : Nat} {ts : TimeStamp}

/-! ## files that can be searched -/

/-- The roots of a file can be found by bisection. -/
structure DiskFile.Searchable (f : DiskFile) : Prop where
  written : ∃ k, Written f.page k
  rotated : ∃ c, From (rootValue f.page) c

theorem DiskFile.Rolls.searchable (h : f.Rolls) : f.Searchable where
  written := h.written.imp fun _ hk => hk.2
  rotated := h.rotated.elim (fun h => ⟨_, h⟩) fun h => ⟨_, h⟩

theorem DiskFile.Searchable.same (h : f.Searchable) (hsame : SameBlocks f.page f'.page) :
    f'.Searchable where
  written := h.written.imp fun _ hk => hsame.written hk
  rotated := by
    rw [hsame.rootValue]
    exact h.rotated

/-- The cursor stands at the newest root, if there is a root. -/
def AtNewest (f f' : DiskFile) : Prop :=
  (f' = f ∧ ∀ i ts, ¬ RootOn f.page i ts) ∨
  ∃ i ts, f' = f.atCursor i ∧ RootOn f.page i ts ∧ Greatest (rootValue f.page) i ts.value

theorem AtNewest.page (h : AtNewest f f') : f'.page = f.page := by
  rcases h with ⟨rfl, -⟩ | ⟨i, ts, rfl, -⟩ <;> rfl

/-- From the start of a file, the search sets the cursor for the round robin. -/
theorem AtNewest.rolls (h : AtNewest f f') (hf : f.Searchable) (hpos : 0 < f.page.length)
    (hcursor : f.cursor = 0) : f'.Rolls := by
  obtain ⟨⟨k, hk⟩, c, hc⟩ := hf
  rcases h with ⟨rfl, hnone⟩ | ⟨i, ts, rfl, hroot, hgreatest⟩
  · refine ⟨.inl (hcursor ▸ hpos), ⟨k, by omega, hk⟩, .inl fun x y a b _ hx => ?_⟩
    obtain ⟨ts, hroot, -⟩ := exists_root hx
    exact absurd hroot (hnone x ts)
  · exact ⟨.inl hroot.lt, ⟨k, (hk.root_lt hroot).le, hk⟩, .inr (hc.behind hgreatest)⟩

/-! ## the loop over the files -/

/-- No root in the files is newer. -/
def NoneNewer (fs : List DiskFile) (ts : TimeStamp) : Prop :=
  ∀ f ∈ fs, ∀ i ts', RootOn f.page i ts' → ts'.value ≤ ts.value

theorem NoneNewer.cons (h : NoneNewer fs ts)
    (hf : ∀ i ts', RootOn f.page i ts' → ts'.value ≤ ts.value) : NoneNewer (f :: fs) ts :=
  List.forall_mem_cons.mpr ⟨hf, h⟩

/-- What the loop returns: the root it was given, or a newer one. -/
def NewestOf (fs : List DiskFile) (n : Nat) (newest : Option (Nat × Nat)) (ts : TimeStamp)
    (root : Option (Nat × Nat)) : Prop :=
  (root = newest ∧ NoneNewer fs ts) ∨
  ∃ j f i ts', fs[j]? = some f ∧ RootOn f.page i ts' ∧ root = some (n + j, i) ∧
    ts.value < ts'.value ∧ NoneNewer fs ts'

/-- The root is found in the other files. -/
theorem NewestOf.cons {newest root : Option (Nat × Nat)} (h : NewestOf fs (n + 1) newest ts root)
    (hf : ∀ i ts', RootOn f.page i ts' → ts'.value ≤ ts.value) :
    NewestOf (f :: fs) n newest ts root := by
  rcases h with ⟨rfl, hnone⟩ | ⟨j, g, i, ts', hg, hroot, rfl, hlt, hnone⟩
  · exact .inl ⟨rfl, hnone.cons hf⟩
  · refine .inr ⟨j + 1, g, i, ts', by simpa using hg, hroot, ?_, hlt, hnone.cons fun x t hx => ?_⟩
    · rw [Nat.add_assoc, Nat.add_comm 1 j]
    · have hle := hf x t hx
      omega

/-- The file has the newest root so far. -/
theorem NewestOf.first {newest root : Option (Nat × Nat)} {ts₁ : TimeStamp}
    (h : NewestOf fs (n + 1) (some (n, i)) ts₁ root) (hroot : RootOn f.page i ts₁)
    (hf : ∀ i ts', RootOn f.page i ts' → ts'.value ≤ ts₁.value) (hlt : ts.value < ts₁.value) :
    NewestOf (f :: fs) n newest ts root := by
  rcases h with ⟨rfl, hnone⟩ | ⟨j, g, x, ts', hg, hroot', rfl, hlt', hnone⟩
  · exact .inr ⟨0, f, i, ts₁, rfl, hroot, rfl, hlt, hnone.cons hf⟩
  · refine .inr ⟨j + 1, g, x, ts', by simpa using hg, hroot', ?_, by omega,
      hnone.cons fun y t hy => ?_⟩
    · rw [Nat.add_assoc, Nat.add_comm 1 j]
    · have hle := hf y t hy
      omega

/-- The search finds the newest root of each file and of all files. -/
theorem searchFiles_spec (hfs : ∀ f ∈ fs, f.Searchable) (hpos : ∀ f ∈ fs, 0 < f.page.length)
    (n : Nat) (newest : Option (Nat × Nat)) (hts : ts.Valid) :
    ∃ fs' root, searchFiles n newest ts fs = .ok (fs', root) ∧
      List.Forall₂ AtNewest fs fs' ∧ NewestOf fs n newest ts root := by
  induction fs generalizing n newest ts with
  | nil => exact ⟨[], newest, rfl, .nil, .inl ⟨rfl, fun f hf => by cases hf⟩⟩
  | cons f fs ih =>
    obtain ⟨hf, hfs⟩ := List.forall_mem_cons.mp hfs
    obtain ⟨hpos₁, hpos⟩ := List.forall_mem_cons.mp hpos
    obtain ⟨k, hk⟩ := hf.written
    obtain ⟨c, hc⟩ := hf.rotated
    rcases searchFile_spec hk hc hpos₁ with ⟨hnone, hall⟩ | ⟨p, ts₁, hsome, hroot, hgreatest⟩
    · -- there is no root in this file
      obtain ⟨fs', root, hgo, hat, hnewest⟩ := ih hfs hpos (n + 1) newest hts
      refine ⟨f :: fs', root, ?_, .cons (.inl ⟨rfl, hall⟩) hat, hnewest.cons fun x t hx =>
        absurd hx (hall x t)⟩
      rw [searchFiles_none newest ts hnone, hgo]
      rfl
    · have hle : ∀ x t, RootOn f.page x t → t.value ≤ ts₁.value := fun x t hx =>
        hgreatest.2 hx.rootValue
      have hvalid := hk.valid hroot
      have hat₁ : AtNewest f (f.atCursor p) := .inr ⟨p, ts₁, rfl, hroot, hgreatest⟩
      by_cases hnewer : timeStampIsNewerThan ts₁ ts = true
      · obtain ⟨fs', root, hgo, hat, hnewest⟩ := ih hfs hpos (n + 1) (some (n, p)) hvalid
        refine ⟨f.atCursor p :: fs', root, ?_, .cons hat₁ hat, hnewest.first hroot hle
          ((timeStampIsNewerThan_iff hvalid hts).mp hnewer)⟩
        rw [searchFiles_some newest ts hsome, if_pos hnewer, hgo]
        rfl
      · obtain ⟨fs', root, hgo, hat, hnewest⟩ := ih hfs hpos (n + 1) newest hts
        refine ⟨f.atCursor p :: fs', root, ?_, .cons hat₁ hat, hnewest.cons fun x t hx => ?_⟩
        · rw [searchFiles_some newest ts hsome, if_neg hnewer, hgo]
          rfl
        · have hbound := hle x t hx
          rw [timeStampIsNewerThan_iff hvalid hts] at hnewer
          omega

/-- A file without pages makes the search fail. -/
theorem searchFiles_empty (hempty : ∃ f ∈ fs, f.page = []) (n : Nat) (newest : Option (Nat × Nat))
    (ts : TimeStamp) (r : List DiskFile × Option (Nat × Nat)) :
    searchFiles n newest ts fs ≠ .ok r := by
  induction fs generalizing n newest ts r with
  | nil =>
    obtain ⟨f, hf, -⟩ := hempty
    cases hf
  | cons f fs ih =>
    intro h
    cases hfile : searchFile f.page with
    | error e =>
      rw [searchFiles, hfile] at h
      cases h
    | ok found =>
      have hrest : ∃ g ∈ fs, g.page = [] := by
        obtain ⟨g, hg, hnil⟩ := hempty
        rcases List.mem_cons.mp hg with rfl | hg
        · rw [hnil] at hfile
          cases hfile
        · exact ⟨g, hg, hnil⟩
      cases found with
      | none =>
        rw [searchFiles_none newest ts hfile] at h
        obtain ⟨r', hgo, -⟩ := map_eq_ok h
        exact ih hrest _ _ _ _ hgo
      | some p =>
        rw [searchFiles_some newest ts hfile] at h
        obtain ⟨r', hgo, -⟩ := map_eq_ok h
        split at hgo
        · exact ih hrest _ _ _ _ hgo
        · exact ih hrest _ _ _ _ hgo

/-- The result of `io_read_root` with the root that the search has found. -/
theorem ioReadRoot_eq
    (hsearch : searchFiles 0 none ⟨0, 0⟩ io.file = .ok (fs', some (j, i)))
    (hf : fs'[j]? = some f) (hroot : RootOn f.page i ts) :
    ioReadRoot true io = .ok { io with
      file := fs'.modify j fun f =>
        { f.setStatus i .root with numberOfFreePages := ulongPred f.numberOfFreePages }
      prevRoot := some (j, i)
      timeStamp := incrementRootTimeStamp ts } := by
  have hblock : ((fs'[j]?.bind (·.page[i]?)).map DiskPage.block) = some (.root ts) := by
    rw [hf]
    exact hroot
  unfold ioReadRoot
  simp only [if_true, hsearch, bind, Except.bind, pure, Except.pure]
  rw [hblock]

end Shades
