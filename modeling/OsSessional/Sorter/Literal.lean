import OsSessional.Sorter.Stages

/-!
# Trees without patterns

Where no path has a character that ends a word or makes it a pattern, the loops go over what `find`
lists: the script itself makes no other names.
-/

namespace OsSessional.Sorter

/-- No character means anything to the shell. -/
def Bare (n : Str) : Prop := ∀ ch ∈ n, ch ∉ special

instance (n : Str) : Decidable (Bare n) := inferInstanceAs (Decidable (∀ ch ∈ n, ch ∉ special))

section Bare

variable {n n' : Str}

private theorem Bare.append (h : Bare n) (h' : Bare n') : Bare (n ++ n') := by
  intro ch hch
  rcases List.mem_append.mp hch with hch | hch
  · exact h ch hch
  · exact h' ch hch

private theorem Bare.descName (h : Bare n) : Bare (descName n) :=
  (Bare.append (by decide) h).append (by decide)

end Bare

namespace Job

variable (j : Job)

/-- No path has a character that means anything to the shell. -/
structure Literal : Prop extends j.Paths where
  dir_bare : Bare j.dir
  tree_bare : ∀ l ∈ j.tree, ∀ n ∈ l.drop j.root.length, Bare n
  cwd_bare : j.root <+: j.cwd → ∀ n ∈ j.cwd.drop j.root.length, Bare n

instance : Decidable j.Literal :=
  decidable_of_iff (j.Paths ∧ Bare j.dir ∧ (∀ l ∈ j.tree, ∀ n ∈ l.drop j.root.length, Bare n) ∧
      (j.root <+: j.cwd → ∀ n ∈ j.cwd.drop j.root.length, Bare n))
    ⟨fun h => ⟨h.1, h.2.1, h.2.2.1, h.2.2.2⟩,
      fun h => ⟨h.toPaths, h.dir_bare, h.tree_bare, h.cwd_bare⟩⟩

/-- A location below the working directory whose names are bare. -/
def BareBelow (l : Loc) : Prop := j.Below l ∧ ∀ n ∈ l.drop j.root.length, Bare n

/-- All files that the loops may find have bare names. -/
def BareFiles (fs : Fs) : Prop := ∀ l ∈ fs.files, j.root <+: l → j.BareBelow l

variable {j} {fs : Fs} {l : Loc} {row desc e w : Str} {count : Nat}

namespace BareFiles

private theorem write {s : Str} (h : j.BareFiles fs) (hl : j.root <+: l → j.BareBelow l) :
    j.BareFiles (fs.write l s) := by
  intro l' hl' hunder
  by_cases heq : l' = l
  · subst heq
    exact hl hunder
  · apply h l' _ hunder
    rwa [← AList.lookup_isSome, Fs.lookup_write_of_ne heq, AList.lookup_isSome] at hl'

private theorem append {s : Str} (h : j.BareFiles fs) (hl : j.root <+: l → j.BareBelow l) :
    j.BareFiles (fs.append l s) := h.write hl

private theorem cp {src : Loc} (h : j.BareFiles fs) (hl : j.root <+: l → j.BareBelow l) :
    j.BareFiles (fs.cp src l) := by
  unfold Fs.cp
  split
  · exact h.write hl
  · exact h

end BareFiles

variable (hj : j.Literal)
include hj

private theorem bareBelow_append (hroot : j.root <+: j.cwd) {rel : Loc} (hne : rel ≠ [])
    (hrel : ∀ n ∈ rel, Plain n ∧ Bare n) : j.BareBelow (j.cwd ++ rel) := by
  refine ⟨below_append hj.toPaths hroot hne fun n hn => (hrel n hn).1, ?_⟩
  have hcwd := hj.cwd_bare hroot
  obtain ⟨rest, hrest⟩ := hroot
  rw [← hrest, List.drop_left] at hcwd
  intro n hn
  rw [← hrest, List.append_assoc, List.drop_left] at hn
  rcases List.mem_append.mp hn with hn | hn
  · exact hcwd n hn
  · exact (hrel n hn).2

private theorem bareBelow_csv (h : j.root <+: j.csv) : j.BareBelow j.csv := by
  have hroot := root_of_csv hj.toPaths h
  rw [csv_eq]
  apply bareBelow_append hj hroot (by simp)
  intro n hn
  rw [List.mem_singleton.mp hn]
  exact ⟨plain_csv, by decide⟩

private theorem bareBelow_place {n : Str} (hrow : Plain row ∧ Bare row) (hn : Plain n ∧ Bare n)
    (h : j.root <+: j.place row n) : j.BareBelow (j.place row n) := by
  apply bareBelow_append hj (root_of_place hj.toPaths h) (by simp)
  intro m hm
  simp only [List.mem_cons, List.not_mem_nil, or_false] at hm
  rcases hm with rfl | rfl | rfl
  · exact ⟨plain_outputDir, by decide⟩
  · exact hrow
  · exact hn

private theorem bareFiles_cleared : j.BareFiles j.cleared := by
  intro l hl hunder
  exact ⟨hj.below l hl hunder, hj.tree_bare l (mem_tree.mpr ⟨hl, hunder⟩)⟩

private theorem bare_word (h : j.BareBelow l) : Bare (j.word l) := by
  intro ch hch
  rcases List.mem_append.mp hch with hch | hch
  · unfold slashed at hch
    split at hch
    · exact hj.dir_bare ch hch
    · rcases List.mem_append.mp hch with hch | hch
      · exact hj.dir_bare ch hch
      · rw [List.mem_singleton.mp hch]
        decide
  · rcases mem_joined hch with rfl | ⟨n, hn, hch⟩
    · decide
    · exact h.2 n hn ch hch

private theorem glob_listed (h : j.BareFiles fs) {test : Str → Bool} :
    ∀ w ∈ fields (j.findText fs.files test), j.shell.glob fs j.cwd w = [w] := by
  intro w hw
  rw [fields_findText hj.toPaths fun l hl hunder _ => (h l hl hunder).1] at hw
  obtain ⟨l, hl, rfl⟩ := List.mem_map.mp hw
  obtain ⟨hmem, hunder, -⟩ := mem_find.mp hl
  exact j.shell.glob_plain fs j.cwd _ (bare_word hj (h l hmem hunder))

private theorem found_bare (h : j.BareFiles fs) {test : Str → Bool} (hw : w ∈ j.found fs test) :
    Plain (basename w) ∧ Bare (basename w) := by
  rw [found_eq hj.toPaths (fun l hl hunder _ => (h l hl hunder).1) (glob_listed hj h)] at hw
  obtain ⟨l, hl, rfl⟩ := List.mem_map.mp hw
  obtain ⟨hmem, hunder, -⟩ := mem_find.mp hl
  have hbelow := h l hmem hunder
  obtain ⟨rel, hsplit, hplain⟩ := hbelow.1.split
  rw [basename_word hbelow.1]
  exact ⟨hplain, hbelow.2 _ (by simp [hsplit])⟩

private theorem bareFiles_sortFile (hrow : Plain row ∧ Bare row) (hdesc : Plain desc ∧ Bare desc)
    (h : j.BareFiles fs) (hw : Plain (basename w) ∧ Bare (basename w)) :
    j.BareFiles (j.sortFile row desc (fs, count) w).1 := by
  simp only [sortFile, at_file hrow.1.toIsName hw.1.toIsName, at_file hrow.1.toIsName hdesc.1.toIsName,
    at_row hrow.1.toIsName]
  split
  · exact h
  · exact (h.cp (bareBelow_place hj hrow hw)).append (bareBelow_place hj hrow hdesc)

private theorem bareFiles_loop (hrow : Plain row ∧ Bare row) (hdesc : Plain desc ∧ Bare desc) (ws : List Str)
    (hws : ∀ w ∈ ws, Plain (basename w) ∧ Bare (basename w)) (fs : Fs) (h : j.BareFiles fs)
    (count : Nat) : j.BareFiles (ws.foldl (j.sortFile row desc) (fs, count)).1 := by
  induction ws generalizing fs count with
  | nil => exact h
  | cons w ws ih =>
    rw [List.foldl_cons]
    exact ih (fun x hx => hws x (List.mem_cons_of_mem _ hx)) _
      (bareFiles_sortFile hj hrow hdesc h (hws w List.mem_cons_self)) _

private theorem bare_type (he : e ∈ j.fileTypes) : Plain e ∧ Bare e := by
  refine ⟨(fileTypes_plain hj.toPaths he).1, fun ch hch => ?_⟩
  have hword := (fileTypes_word hj.toPaths he).2
  exact (j.shell.word_plain ch (List.all_eq_true.mp hword ch hch)).1

private theorem bareFiles_sortType (he : e ∈ j.fileTypes) (h : j.BareFiles fs) :
    j.BareFiles (j.sortType (fs, count) e).1 := by
  have hrow := bare_type hj he
  have hdir : j.BareFiles (fs.mkdirP (j.at' [outputDir, e])) := h
  have hloop := bareFiles_loop hj hrow ⟨hrow.1.descName, hrow.2.descName⟩
    (j.found (fs.mkdirP (j.at' [outputDir, e])) (hasType e)) (fun w hw => found_bare hj hdir hw) _ hdir 0
  simp only [sortType]
  split
  · exact hloop.append (bareBelow_csv hj)
  · exact h

private theorem bareFiles_types (types : List Str) (htypes : types ⊆ j.fileTypes) :
    j.BareFiles (types.foldl j.sortType (j.begun, 0)).1 := by
  induction types using List.reverseRecOn with
  | nil => exact BareFiles.append (bareFiles_cleared hj) (bareBelow_csv hj)
  | append_singleton types e ih =>
    rw [List.foldl_append, List.foldl_cons, List.foldl_nil]
    apply bareFiles_sortType hj (htypes (by simp))
    exact ih fun x hx => htypes (List.mem_append_left _ hx)

theorem Literal.clean : j.Clean := by
  refine ⟨hj.toPaths, fun e he => ?_, ?_⟩
  · have hbefore : j.BareFiles (j.before e).1 :=
      bareFiles_types hj _ (List.takeWhile_subset _)
    apply glob_listed hj
    intro l hl
    rw [start_files] at hl
    exact hbefore l hl
  · apply glob_listed hj
    exact bareFiles_types hj _ (List.Subset.refl _)

end Job

end OsSessional.Sorter
