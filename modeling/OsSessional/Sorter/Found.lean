import OsSessional.Sorter.Stages

/-!
# What the loops go over

Every file of the tree with the extension, and of the generated files at most two kinds: the table in
the row of `csv`, and description files of earlier rows in the row of `txt`.
-/

namespace OsSessional.Sorter

open Firsts

namespace Job

variable (j : Job)

/-- The first file called `n` that is found with extension `e` is the one at `l`. -/
def FirstFound (e n : Str) (l : Loc) : Prop :=
  (j.files e).find? (fun w => decide (basename w = n)) = some (j.word l)

instance (e n : Str) (l : Loc) : Decidable (j.FirstFound e n l) :=
  inferInstanceAs (Decidable ((j.files e).find? (fun w => decide (basename w = n)) = some (j.word l)))

variable {j} {done : List Str} {e n w : Str} {l : Loc} (hj : j.Clean)
include hj

theorem nodup_files (he : e ∈ j.fileTypes) : (j.files e).Nodup := by
  obtain ⟨done, -, hnext⟩ := exists_next hj he
  exact nodup_found hj.toPaths (hnext.below hj) (hj.types e he)

theorem nodup_othersFiles : j.othersFiles.Nodup :=
  nodup_found hj.toPaths (fun l hl hunder _ =>
    (typesEnd_stage hj).below hj (fun _ he => he) l hl hunder) hj.others

/-- A file of the tree is found with its extension. -/
theorem word_mem_files (he : e ∈ j.fileTypes) (hl : l ∈ j.tree) (htype : hasType e (nameOf l) = true) :
    j.word l ∈ j.files e := by
  obtain ⟨done, -, hnext⟩ := exists_next hj he
  obtain ⟨hmem, hunder⟩ := mem_tree.mp hl
  have hold : l ∈ (j.before e).1.files := by
    rw [← AList.lookup_isSome, hnext.stage.old l hmem, AList.lookup_isSome]
    exact hmem
  exact (hnext.mem_files hj).mpr ⟨l, hold, hunder, htype, tree_below hj.toPaths hl, rfl⟩

/-- A file of the tree without a dot is found as well. -/
theorem word_mem_othersFiles (hl : l ∈ j.tree) (hdot : '.' ∉ nameOf l) : j.word l ∈ j.othersFiles := by
  obtain ⟨hmem, hunder⟩ := mem_tree.mp hl
  have hold : l ∈ j.typesEnd.1.files := by
    rw [← AList.lookup_isSome, (typesEnd_stage hj).old l hmem, AList.lookup_isSome]
    exact hmem
  exact (mem_othersFiles hj).mpr ⟨l, hold, hunder, hdot, tree_below hj.toPaths hl, rfl⟩

/-- What is found without a dot is in the tree. -/
theorem mem_othersFiles_tree : w ∈ j.othersFiles ↔ ∃ l ∈ j.tree, '.' ∉ nameOf l ∧ w = j.word l := by
  constructor
  · intro h
    obtain ⟨l, hmem, hunder, hdot, -, rfl⟩ := (mem_othersFiles hj).mp h
    exact ⟨l, mem_tree.mpr ⟨others_old hj hmem hdot, hunder⟩, hdot, rfl⟩
  · intro h
    obtain ⟨l, hl, hdot, rfl⟩ := h
    exact word_mem_othersFiles hj hl hdot

theorem files_type (he : e ∈ j.fileTypes) (hw : w ∈ j.files e) : hasType e (basename w) = true := by
  obtain ⟨done, -, hnext⟩ := exists_next hj he
  obtain ⟨l, -, -, htype, hbelow, rfl⟩ := (hnext.mem_files hj).mp hw
  rwa [basename_word hbelow]

/-- Only the row of the text files can have its description file among the input. -/
theorem desc_mem_files (he : e ∈ j.fileTypes) (h : descName e ∈ (j.files e).map basename) :
    e = "txt".toList := by
  obtain ⟨w, hw, heq⟩ := List.mem_map.mp h
  have htype := files_type hj he hw
  rw [heq] at htype
  exact (hasType_descName (fileTypes_plain hj.toPaths he).2).mp htype

theorem others_type (hw : w ∈ j.othersFiles) : '.' ∉ basename w := by
  obtain ⟨l, -, -, hdot, hbelow, rfl⟩ := (mem_othersFiles hj).mp hw
  rwa [basename_word hbelow]

/-- A path that is found is the one of its location. -/
theorem word_resolve (he : e ∈ j.fileTypes) (hw : w ∈ j.files e) :
    j.word (resolve j.cwd w) = w ∧ nameOf (resolve j.cwd w) = basename w := by
  obtain ⟨done, -, hnext⟩ := exists_next hj he
  obtain ⟨l, -, -, -, hbelow, rfl⟩ := (hnext.mem_files hj).mp hw
  rw [resolve_word hj.toPaths hbelow, basename_word hbelow]
  exact ⟨rfl, rfl⟩

/-- A name has one extension. -/
theorem files_disjoint {e' : Str} (he : e ∈ j.fileTypes) (he' : e' ∈ j.fileTypes) (hne : e ≠ e') :
    List.Disjoint (j.files e) (j.files e') := by
  intro w hw hw'
  have htype := (fileTypes_iff hj.toPaths he _).mp (files_type hj he hw)
  have htype' := (fileTypes_iff hj.toPaths he' _).mp (files_type hj he' hw')
  rw [htype, Option.some.injEq, List.cons.injEq] at htype'
  exact hne htype'.2

theorem counted_eq_pick (he : e ∈ j.fileTypes) :
    j.counted e = pick basename (descName e) [] (j.files e) := by
  obtain ⟨done, -, hnext⟩ := exists_next hj he
  exact hnext.counted_eq hj

theorem counted_sublist (he : e ∈ j.fileTypes) : (j.counted e).Sublist (j.files e) := by
  rw [counted_eq_pick hj he]
  exact pick_sublist

theorem countedOthers_sublist : j.countedOthers.Sublist j.othersFiles := by
  rw [countedOthers_eq hj]
  exact pick_sublist

theorem counted_ne_nil (he : e ∈ j.fileTypes) : j.counted e ≠ [] := by
  obtain ⟨l, hl, hgrep⟩ := (mem_fileTypes hj.toPaths).mp he
  have hmem := word_mem_files hj he hl ((fileTypes_iff hj.toPaths he _).mpr hgrep)
  rw [counted_eq_pick hj he]
  intro hnil
  rw [pick_eq_nil hnil] at hmem
  contradiction

/-- What is counted under a name that is not the description file's. -/
theorem counted_iff_first (he : e ∈ j.fileTypes) (hn : n ≠ descName e) :
    (w ∈ j.counted e ∧ basename w = n) ↔
      (j.files e).find? (fun w => decide (basename w = n)) = some w := by
  rw [counted_eq_pick hj he]
  exact mem_pick_iff hn List.not_mem_nil

omit hj in
theorem basename_csv (hbelow : j.Below j.csv) : basename (j.word j.csv) = outputCsv := by
  rw [basename_word hbelow]
  simp [csv_eq, nameOf]

omit hj in
theorem basename_place {row : Str} (hbelow : j.Below (j.place row n)) :
    basename (j.word (j.place row n)) = n := by
  rw [basename_word hbelow]
  simp [nameOf, place]

/-- Where a file comes from that is found with an extension. -/
inductive Origin (j : Job) (done : List Str) (e w : Str) : Prop
  | input (hl : resolve j.cwd w ∈ j.tree)
  | table (hroot : j.root <+: j.cwd) (he : e = "csv".toList) (hw : w = j.word j.csv)
  | desc (e' : Str) (hroot : j.root <+: j.cwd) (he : e = "txt".toList) (he' : e' ∈ done)
    (hign : j.ignored e' = false) (hw : w = j.word (j.place e' (descName e')))

theorem Next.origin (h : j.Next done e) (hw : w ∈ j.files e) : Origin j done e w := by
  obtain ⟨l, hmem, hunder, htype, hbelow, rfl⟩ := (h.mem_files hj).mp hw
  have hdot := (fileTypes_plain hj.toPaths h.mem).2
  rcases h.stage.only l hmem with hold | rfl | ⟨e', he', hign, n, -, rfl, hn⟩
  · apply Origin.input
    rw [resolve_word hj.toPaths hbelow]
    exact mem_tree.mpr ⟨hold, hunder⟩
  · have hname : nameOf j.csv = outputCsv := by simp [csv_eq, nameOf]
    rw [hname] at htype
    exact .table (root_of_csv hj.toPaths hunder) ((hasType_csv hdot).mp htype) rfl
  · have hname : nameOf (j.place e' n) = n := by simp [nameOf, place]
    rw [hname] at htype
    rcases hn with hn | rfl
    · -- a copy has the extension of its row
      obtain ⟨v, hv, rfl⟩ := List.mem_map.mp hn
      have hcopy := files_type hj (h.done_mem e' he') ((counted_sublist hj (h.done_mem e' he')).subset hv)
      rw [fileTypes_iff hj.toPaths h.mem] at htype
      rw [fileTypes_iff hj.toPaths (h.done_mem e' he'), htype, Option.some.injEq, List.cons.injEq] at hcopy
      exact absurd (hcopy.2 ▸ he') h.new
    · exact .desc e' (root_of_place hj.toPaths hunder) ((hasType_descName hdot).mp htype) he' hign rfl

private theorem finish_desc (he : e ∈ j.fileTypes) : j.place e (descName e) ∈ (j.finish e).files := by
  obtain ⟨done, -, hnext⟩ := exists_next hj he
  rw [← AList.lookup_isSome]
  by_cases hmem : descName e ∈ (j.counted e).map basename
  · obtain ⟨w, -, -, hlookup⟩ := hnext.clash hj hmem
    rw [hlookup]
    rfl
  · rw [hnext.listing hj hmem (counted_ne_nil hj he)]
    rfl

/-- The table is there when the row of `csv` is done. -/
theorem csv_mem_files (hroot : j.root <+: j.cwd) (he : "csv".toList ∈ j.fileTypes) :
    j.word j.csv ∈ j.files "csv".toList ∧ j.Below j.csv := by
  obtain ⟨done, -, hnext⟩ := exists_next hj he
  have hunder : j.root <+: j.csv := by
    rw [csv_eq]
    exact hroot.trans (List.prefix_append _ _)
  have hbelow := below_csv hj.toPaths hunder
  have htype : hasType "csv".toList (nameOf j.csv) = true := by
    have hname : nameOf j.csv = outputCsv := by simp [csv_eq, nameOf]
    rw [hname]
    decide
  exact ⟨(hnext.mem_files hj).mpr ⟨_, hnext.stage.csv_mem, hunder, htype, hbelow, rfl⟩, hbelow⟩

/-- So are the description files of earlier rows when the row of `txt` is. -/
theorem desc_found (hroot : j.root <+: j.cwd) (hnext : j.Next done "txt".toList) (he : e ∈ done)
    (hign : j.ignored e = false) :
    j.word (j.place e (descName e)) ∈ j.files "txt".toList ∧ j.Below (j.place e (descName e)) := by
  have hplain := (fileTypes_plain hj.toPaths (hnext.done_mem e he)).1
  have hunder : j.root <+: j.place e (descName e) := hroot.trans (List.prefix_append _ _)
  have hbelow := below_place hj.toPaths hplain hplain.descName hunder
  have htype : hasType "txt".toList (nameOf (j.place e (descName e))) = true := by
    have hname : nameOf (j.place e (descName e)) = descName e := by simp [nameOf, place]
    rw [hname]
    exact (hasType_descName (by decide)).mpr rfl
  have hmem : j.place e (descName e) ∈ (j.before "txt".toList).1.files := by
    rw [← AList.lookup_isSome, hnext.stage.rows e he hign, AList.lookup_isSome]
    exact finish_desc hj (hnext.done_mem e he)
  exact ⟨(hnext.mem_files hj).mpr ⟨_, hmem, hunder, htype, hbelow, rfl⟩, hbelow⟩

end Job

end OsSessional.Sorter
