import Shades.Io.Code

/-!
# Shades.Io.RoundRobin

The round robin of `io_write_page` and `io_write_root`: the loop over the pages
of a file stops at the first free page from the cursor on, and the loop over
the files at the first usable file with a free page.  A file without a free
page is left as it was.
-/

namespace Shades

/-! ## cyclic positions -/

/-- Every position comes within a round. -/
theorem exists_cyclic {n c i : Nat} (hc : c < n) (hi : i < n) : ∃ t < n, (c + t) % n = i := by
  by_cases hle : c ≤ i
  · exact ⟨i - c, by omega, by rw [Nat.add_sub_cancel' hle, Nat.mod_eq_of_lt hi]⟩
  · refine ⟨n - c + i, by omega, ?_⟩
    rw [show c + (n - c + i) = i + n by omega, Nat.add_mod_right, Nat.mod_eq_of_lt hi]

theorem mod_succ_add (n c t : Nat) : ((c + 1) % n + t) % n = (c + (t + 1)) % n := by
  rw [Nat.mod_add_mod, Nat.add_assoc, Nat.add_comm 1 t]

/-! ## the pages of a file -/

/-- The page `i` of the file is free. -/
def DiskFile.Free (f : DiskFile) (i : Nat) : Prop :=
  (f.page[i]?).map DiskPage.status = some .free

instance (f : DiskFile) (i : Nat) : Decidable (f.Free i) :=
  inferInstanceAs (Decidable (_ = _))

/-- The cursor stands at a page, if there is one. -/
def DiskFile.CursorOk (f : DiskFile) : Prop := f.cursor < f.numberOfPages ∨ f.numberOfPages = 0

/-- The cursor moves on. -/
def DiskFile.atCursor (f : DiskFile) (i : Nat) : DiskFile := { f with cursor := i }

/-- The page `i` is the first free one from the cursor on. -/
def DiskFile.FirstFree (f : DiskFile) (i : Nat) : Prop :=
  ∃ t < f.numberOfPages, i = (f.cursor + t) % f.numberOfPages ∧ f.Free i ∧
    ∀ s < t, ¬ f.Free ((f.cursor + s) % f.numberOfPages)

theorem DiskFile.Free.lt {f : DiskFile} {i : Nat} (h : f.Free i) : i < f.numberOfPages := by
  unfold DiskFile.Free at h
  by_contra hge
  rw [List.getElem?_eq_none (Nat.le_of_not_lt hge)] at h
  cases h

@[simp] theorem DiskFile.atCursor_cursor (f : DiskFile) : f.atCursor f.cursor = f := rfl

theorem seekFreePage_loop {k : Nat} (f : DiskFile) (hc : f.cursor < f.numberOfPages) :
    (∃ t < k, seekFreePage k f = (true, f.atCursor ((f.cursor + t) % f.numberOfPages)) ∧
      f.Free ((f.cursor + t) % f.numberOfPages) ∧
      ∀ s < t, ¬ f.Free ((f.cursor + s) % f.numberOfPages)) ∨
    (seekFreePage k f = (false, f.atCursor ((f.cursor + k) % f.numberOfPages)) ∧
      ∀ s < k, ¬ f.Free ((f.cursor + s) % f.numberOfPages)) := by
  have hhere : (f.cursor + 0) % f.numberOfPages = f.cursor := Nat.mod_eq_of_lt hc
  induction k generalizing f with
  | zero =>
    refine .inr ⟨?_, fun s hs => absurd hs (Nat.not_lt_zero s)⟩
    rw [hhere]
    rfl
  | succ k ih =>
    by_cases hfree : f.Free f.cursor
    · refine .inl ⟨0, Nat.succ_pos k, ?_, by rwa [hhere], fun s hs => absurd hs (Nat.not_lt_zero s)⟩
      rw [hhere]
      exact if_pos hfree
    · have hrun : seekFreePage (k + 1) f = seekFreePage k f.moveOn := if_neg hfree
      have hpos : 0 < f.numberOfPages := by omega
      have hpages : f.moveOn.numberOfPages = f.numberOfPages := rfl
      have hcursor : f.moveOn.cursor = (f.cursor + 1) % f.numberOfPages := rfl
      have hlt : f.moveOn.cursor < f.moveOn.numberOfPages := by
        rw [hcursor]
        exact Nat.mod_lt _ hpos
      -- the pages passed are the one at the cursor and those passed from the next one on
      have hpassed : ∀ t, (∀ s < t, ¬ f.moveOn.Free ((f.moveOn.cursor + s) % f.numberOfPages)) →
          ∀ s < t + 1, ¬ f.Free ((f.cursor + s) % f.numberOfPages) := by
        intro t hnone s hs
        cases s with
        | zero => rwa [hhere]
        | succ s =>
          rw [← mod_succ_add]
          exact hnone s (by omega)
      rcases ih f.moveOn hlt (Nat.mod_eq_of_lt hlt) with ⟨t, ht, hseek, hfree', hnone⟩ |
        ⟨hseek, hnone⟩
      · rw [hpages, hcursor, mod_succ_add] at hseek hfree'
        exact .inl ⟨t + 1, by omega, by rw [hrun, hseek]; rfl, hfree', hpassed t hnone⟩
      · rw [hpages, hcursor, mod_succ_add] at hseek
        exact .inr ⟨by rw [hrun, hseek]; rfl, hpassed k hnone⟩

/-- The loop over the pages of a file. -/
theorem seekFreePage_spec {f : DiskFile} (hc : f.CursorOk) :
    (∃ i, seekFreePage f.numberOfPages f = (true, f.atCursor i) ∧ f.FirstFree i) ∨
    (seekFreePage f.numberOfPages f = (false, f) ∧ ∀ i, ¬ f.Free i) := by
  rcases hc with hlt | hzero
  · rcases seekFreePage_loop (k := f.numberOfPages) f hlt with ⟨t, ht, hseek, hfree, hnone⟩ |
      ⟨hseek, hnone⟩
    · exact .inl ⟨_, hseek, t, ht, rfl, hfree, hnone⟩
    · refine .inr ⟨?_, fun i hi => ?_⟩
      · rwa [Nat.add_mod_right, Nat.mod_eq_of_lt hlt] at hseek
      · obtain ⟨t, ht, rfl⟩ := exists_cyclic hlt hi.lt
        exact hnone t ht hi
  · refine .inr ⟨by rw [hzero]; rfl, fun i hi => ?_⟩
    have hlt := hi.lt
    omega

/-! ## the files -/

/-- All cursors stand at pages. -/
structure Io.CursorsOk (io : Io) : Prop where
  file : ∀ f ∈ io.file, f.CursorOk
  fileCursor : io.fileCursor < io.numberOfFiles ∨ io.numberOfFiles = 0

/-- Both cursors are at the page `i` of the file `j`. -/
def Io.atPage (io : Io) (j i : Nat) : Io :=
  { io.modifyFile j (·.atCursor i) with fileCursor := j }

theorem Io.modifyFile_self {io : Io} {j : Nat} {f : DiskFile} (h : io.file[j]? = some f) :
    (io.modifyFile j fun _ => f) = io := by
  unfold Io.modifyFile
  congr 1
  apply List.ext_getElem?
  intro i
  rw [List.getElem?_modify]
  by_cases hij : j = i
  · subst hij
    simp [h]
  · simp [hij]

theorem Io.modifyFile_atCursor {io : Io} {j i : Nat} {f : DiskFile} (h : io.file[j]? = some f) :
    (io.modifyFile j fun _ => f.atCursor i) = io.modifyFile j (·.atCursor i) := by
  unfold Io.modifyFile
  congr 1
  apply List.ext_getElem?
  intro k
  rw [List.getElem?_modify, List.getElem?_modify]
  by_cases hjk : j = k
  · subst hjk
    simp [h]
  · simp [hjk]

/-- What the loop over `k` files finds: the first usable file that has a free
page, or nothing. -/
def Searched (usable : DiskFile → Bool) (k : Nat) (io : Io) : Prop :=
  (∃ t < k, ∃ j f i, j = (io.fileCursor + t) % io.numberOfFiles ∧ io.file[j]? = some f ∧
    usable f = true ∧ f.FirstFree i ∧ findDiskPage usable k io = some (io.atPage j i)) ∨
  (findDiskPage usable k io = none ∧ ∀ t < k, ∀ f,
    io.file[(io.fileCursor + t) % io.numberOfFiles]? = some f → usable f = true →
    ∀ i, ¬ f.Free i)

/-- The search goes on at the next file. -/
theorem Searched.next {usable : DiskFile → Bool} {k : Nat} {io : Io} {f : DiskFile}
    (h : Searched usable k io.nextFile) (hlt : io.fileCursor < io.numberOfFiles)
    (hf : io.file[io.fileCursor]? = some f) (hnone : usable f = true → ∀ i, ¬ f.Free i)
    (hrun : findDiskPage usable (k + 1) io = findDiskPage usable k io.nextFile) :
    Searched usable (k + 1) io := by
  have hcursor : io.nextFile.fileCursor = (io.fileCursor + 1) % io.numberOfFiles := rfl
  have hfiles : io.nextFile.numberOfFiles = io.numberOfFiles := rfl
  rcases h with ⟨t, ht, j, g, i, hj, hg, husable, hfirst, hfind⟩ | ⟨hfind, hall⟩
  · rw [hcursor, hfiles, mod_succ_add] at hj
    exact .inl ⟨t + 1, by omega, j, g, i, hj, hg, husable, hfirst, by rw [hrun, hfind]; rfl⟩
  · refine .inr ⟨by rw [hrun, hfind], fun t ht g hg husable => ?_⟩
    cases t with
    | zero =>
      rw [Nat.add_zero, Nat.mod_eq_of_lt hlt, hf, Option.some.injEq] at hg
      exact hg ▸ hnone (hg ▸ husable)
    | succ t =>
      rw [← mod_succ_add] at hg
      exact hall t (by omega) g hg husable

/-- The loop over the files. -/
theorem findDiskPage_spec (usable : DiskFile → Bool) (k : Nat) (io : Io) (h : io.CursorsOk) :
    Searched usable k io := by
  induction k generalizing io with
  | zero => exact .inr ⟨rfl, fun t ht => absurd ht (Nat.not_lt_zero t)⟩
  | succ k ih =>
    rcases h.fileCursor with hlt | hzero
    · have hhere : (io.fileCursor + 0) % io.numberOfFiles = io.fileCursor := Nat.mod_eq_of_lt hlt
      obtain ⟨f, hf⟩ : ∃ f, io.file[io.fileCursor]? = some f :=
        ⟨_, List.getElem?_eq_getElem hlt⟩
      have hnext : io.nextFile.CursorsOk :=
        ⟨h.file, .inl (Nat.mod_lt _ (Nat.zero_lt_of_lt hlt))⟩
      by_cases husable : usable f = true
      · rcases seekFreePage_spec (h.file f (List.mem_of_getElem? hf)) with ⟨i, hseek, hfirst⟩ |
          ⟨hseek, hnone⟩
        · refine .inl ⟨0, Nat.succ_pos k, io.fileCursor, f, i, hhere.symm, hf, husable, hfirst, ?_⟩
          simp only [findDiskPage, hf, husable, if_true, hseek, Io.modifyFile_atCursor hf]
          rfl
        · refine (ih io.nextFile hnext).next hlt hf (fun _ => hnone) ?_
          simp only [findDiskPage, hf, husable, if_true, hseek, Io.modifyFile_self hf]
          rfl
      · refine (ih io.nextFile hnext).next hlt hf (fun hu => absurd hu husable) ?_
        simp only [findDiskPage, hf, husable]
        rfl
    · have hnil : io.file = [] := List.eq_nil_of_length_eq_zero hzero
      refine .inr ⟨by simp [findDiskPage, hnil], fun t _ f hf => ?_⟩
      rw [hnil] at hf
      cases hf

/-- A whole round over the files. -/
theorem findDiskPage_round (usable : DiskFile → Bool) {io : Io} (h : io.CursorsOk) :
    (∃ j f i, io.file[j]? = some f ∧ usable f = true ∧ f.FirstFree i ∧
      findDiskPage usable io.numberOfFiles io = some (io.atPage j i)) ∨
    (findDiskPage usable io.numberOfFiles io = none ∧ ∀ f ∈ io.file, usable f = true →
      ∀ i, ¬ f.Free i) := by
  rcases findDiskPage_spec usable io.numberOfFiles io h with
    ⟨t, -, j, f, i, -, hf, husable, hfirst, hfind⟩ | ⟨hfind, hnone⟩
  · exact .inl ⟨j, f, i, hf, husable, hfirst, hfind⟩
  · refine .inr ⟨hfind, fun f hf husable i => ?_⟩
    obtain ⟨j, hlt, rfl⟩ := List.getElem_of_mem hf
    have hcursor : io.fileCursor < io.numberOfFiles := h.fileCursor.resolve_right fun hzero => by
      unfold Io.numberOfFiles at hzero
      omega
    obtain ⟨t, ht, hj⟩ := exists_cyclic hcursor hlt
    exact hnone t ht _ (by rw [hj, List.getElem?_eq_getElem hlt]) husable i

end Shades
