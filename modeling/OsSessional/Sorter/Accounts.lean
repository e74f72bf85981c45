import Mathlib.Algebra.BigOperators.Group.List.Basic
import OsSessional.Sorter.Found
import OsSessional.Sorter.Literal

/-!
# Every file is accounted for

For a working directory apart from the output: the files that the loops go over are the files of the
tree, each in one loop, except those whose name has a dot but no extension that `grep` takes.
-/

namespace OsSessional.Sorter

open Firsts

namespace Job

variable (j : Job)

/-- The extension is a line of the ignore list, up to the first blank. -/
def listed (e : Str) : Bool :=
  (fields (cutFirst (j.fs.content (resolve j.cwd j.input)))).any fun type =>
    decide (type.filter (· ≠ '\r') = e)

/-- The files of a row that are not counted. -/
def skipped (e : Str) : List Str := (j.files e).filter (· ∉ j.counted e)

def skippedOthers : List Str := j.othersFiles.filter (· ∉ j.countedOthers)

/-- What extension `e` adds to the counts and the duplicates of its row. -/
def rowFiles (e : Str) : Nat :=
  if j.ignored e then 0 else (j.counted e).length + (j.skipped e).length

/-- Every file of the tree is accounted for exactly once, and the table gives the numbers. -/
structure Accounted : Prop where
  once : (j.fileTypes.flatMap j.files ++ j.othersFiles).Perm (j.tree.map j.word)
  types : ∀ e ∈ j.fileTypes, ∀ w ∈ j.files e, hasType e (basename w) = true
  others : ∀ w ∈ j.othersFiles, '.' ∉ basename w
  ignores : ∀ e ∈ j.fileTypes, j.ignored e = j.listed e
  duplicates : ∀ e ∈ j.fileTypes, j.ignored e = false → ∀ ws w, ws ++ [w] <+: j.files e →
    w ∈ j.takes e (descName e) (ws ++ [w]) (j.start e) ∨
      basename w ∈ (j.takes e (descName e) ws (j.start e)).map basename
  othersDuplicates : ∀ ws w, ws ++ [w] <+: j.othersFiles →
    w ∈ j.takes othersName (descName j.lastType) (ws ++ [w]) j.othersStart ∨
      basename w ∈ (j.takes othersName (descName j.lastType) ws j.othersStart).map basename
  table : j.run.files.lookup j.csv = some (header ++ j.fileTypes.flatMap j.rowText ++
    csvLine othersName (Nat.toDigits 10 j.countedOthers.length) ++
    csvLine "ignored".toList (Nat.toDigits 10 (j.fileTypes.map j.ignoredFiles).sum))
  total : (j.fileTypes.map j.rowFiles).sum + (j.countedOthers.length + j.skippedOthers.length) +
    (j.fileTypes.map j.ignoredFiles).sum = j.tree.length

/-- The file named like the description file of the row, if there is one, comes first. -/
def DescFirst (e : Str) : Prop :=
  (∃ l ∈ j.tree, nameOf l = descName e) → (j.files e).head?.map basename = some (descName e)

/-- No file of the tree falls through. -/
structure Covered : Prop where
  dotted : ∀ l ∈ j.tree, '.' ∈ nameOf l → (grepType j.shell.isWord (nameOf l)).isSome
  expanded : ∀ e ∈ j.fileTypes, j.listed e = true ↔
    ∃ type ∈ fields j.ignoreVar, ∃ x ∈ j.shell.glob (j.before e).1 j.cwd type, substituted (x.filter (· ≠ '\r')) = e
  desc : "txt".toList ∈ j.fileTypes → j.ignored "txt".toList = false → j.DescFirst "txt".toList

variable {j} {done : List Str} {e w : Str} {l : Loc}

private theorem ignored_iff : j.ignored e = true ↔ ∃ type ∈ fields j.ignoreVar,
    ∃ x ∈ j.shell.glob (j.before e).1 j.cwd type, substituted (x.filter (· ≠ '\r')) = e := by
  simp only [ignored, containsElement, words, List.any_eq_true, List.mem_flatMap, decide_eq_true_eq]
  constructor
  · intro h
    obtain ⟨x, ⟨type, htype, hx⟩, heq⟩ := h
    exact ⟨type, htype, x, hx, heq⟩
  · intro h
    obtain ⟨type, htype, x, hx, heq⟩ := h
    exact ⟨x, ⟨type, htype, hx⟩, heq⟩

theorem ignores_iff : (∀ e ∈ j.fileTypes, j.ignored e = j.listed e) ↔
    ∀ e ∈ j.fileTypes, (j.listed e = true ↔ ∃ type ∈ fields j.ignoreVar,
      ∃ x ∈ j.shell.glob (j.before e).1 j.cwd type, substituted (x.filter (· ≠ '\r')) = e) := by
  apply forall₂_congr
  intro e _
  rw [← ignored_iff, Bool.eq_iff_iff]
  exact Iff.comm

private theorem length_skipped {as bs : List Str} (hsub : bs.Sublist as) (hnodup : as.Nodup) :
    bs.length + (as.filter (· ∉ bs)).length = as.length := by
  have hkept : (as.filter (· ∈ bs)).Perm bs := by
    rw [List.perm_ext_iff_of_nodup (hnodup.filter _) (hnodup.sublist hsub)]
    intro a
    simp only [List.mem_filter, decide_eq_true_eq, and_iff_right_iff_imp]
    exact fun ha => hsub.subset ha
  rw [← hkept.length_eq, @List.length_eq_length_filter_add _ as fun a => decide (a ∈ bs)]
  simp

variable (hj : j.Clean)
include hj

private theorem duplicates_iff (he : e ∈ j.fileTypes) :
    (∀ ws w, ws ++ [w] <+: j.files e → w ∈ j.takes e (descName e) (ws ++ [w]) (j.start e) ∨
      basename w ∈ (j.takes e (descName e) ws (j.start e)).map basename) ↔
    (descName e ∈ (j.files e).map basename → (j.files e).head?.map basename = some (descName e)) := by
  obtain ⟨done, -, hnext⟩ := exists_next hj he
  rw [← kept_or_before_iff]
  apply forall₂_congr
  intro ws w
  apply imp_congr_right
  intro hpre
  rw [hnext.takes_eq hj hpre, hnext.takes_eq hj ((List.prefix_append _ _).trans hpre)]

private theorem others_duplicates {ws : List Str} (hpre : ws ++ [w] <+: j.othersFiles) :
    w ∈ j.takes othersName (descName j.lastType) (ws ++ [w]) j.othersStart ∨
      basename w ∈ (j.takes othersName (descName j.lastType) ws j.othersStart).map basename := by
  rw [(others_part hj hpre).1, (others_part hj ((List.prefix_append _ _).trans hpre)).1]
  apply kept_or_before_iff.mpr _ ws w hpre
  intro hmem
  obtain ⟨x, hx, heq⟩ := List.mem_map.mp hmem
  exact absurd (heq ▸ dot_mem_descName j.lastType) (others_type hj hx)

section Apart

variable (hapart : ¬ j.root <+: j.cwd)
include hapart

private theorem mem_files_tree (he : e ∈ j.fileTypes) :
    w ∈ j.files e ↔ ∃ l ∈ j.tree, hasType e (nameOf l) = true ∧ w = j.word l := by
  obtain ⟨done, -, hnext⟩ := exists_next hj he
  constructor
  · intro hw
    obtain ⟨l, hmem, hunder, htype, -, rfl⟩ := (hnext.mem_files hj).mp hw
    rcases hnext.stage.only l hmem with hold | rfl | ⟨e', -, -, n, -, rfl, -⟩
    · exact ⟨l, mem_tree.mpr ⟨hold, hunder⟩, htype, rfl⟩
    · exact absurd (root_of_csv hj.toPaths hunder) hapart
    · exact absurd (root_of_place hj.toPaths hunder) hapart
  · intro h
    obtain ⟨l, hl, htype, rfl⟩ := h
    exact word_mem_files hj he hl htype

private theorem desc_mem_iff (he : "txt".toList ∈ j.fileTypes) :
    descName "txt".toList ∈ (j.files "txt".toList).map basename ↔
      ∃ l ∈ j.tree, nameOf l = descName "txt".toList := by
  constructor
  · intro h
    obtain ⟨w, hw, heq⟩ := List.mem_map.mp h
    obtain ⟨l, hl, -, rfl⟩ := (mem_files_tree hj hapart he).mp hw
    exact ⟨l, hl, by rw [← heq, basename_word (tree_below hj.toPaths hl)]⟩
  · intro h
    obtain ⟨l, hl, heq⟩ := h
    have htype : hasType "txt".toList (nameOf l) = true := by
      rw [heq]
      decide
    rw [← heq, ← basename_word (tree_below hj.toPaths hl)]
    exact List.mem_map_of_mem (word_mem_files hj he hl htype)

omit hapart in
private theorem nodup_all : (j.fileTypes.flatMap j.files ++ j.othersFiles).Nodup := by
  rw [List.nodup_append', List.nodup_flatMap]
  refine ⟨⟨fun e he => nodup_files hj he, ?_⟩, nodup_othersFiles hj, ?_⟩
  · exact nodup_fileTypes.pairwise_of_forall_ne fun e he e' he' hne => files_disjoint hj he he' hne
  · intro w hw hw'
    obtain ⟨e, he, hw⟩ := List.mem_flatMap.mp hw
    exact others_type hj hw' (hasType_dot (files_type hj he hw))

private theorem once_iff : (j.fileTypes.flatMap j.files ++ j.othersFiles).Perm (j.tree.map j.word) ↔
    ∀ l ∈ j.tree, '.' ∈ nameOf l → (grepType j.shell.isWord (nameOf l)).isSome := by
  have hinj : ∀ l ∈ j.tree, ∀ l' ∈ j.tree, j.word l = j.word l' → l = l' := fun l hl l' hl' heq =>
    word_inj hj.toPaths (tree_below hj.toPaths hl) (tree_below hj.toPaths hl') heq
  rw [List.perm_ext_iff_of_nodup (nodup_all hj) (nodup_tree.map_on hinj)]
  constructor
  · intro h l hl hdot
    have hmem := (h (j.word l)).mpr (List.mem_map_of_mem hl)
    rcases List.mem_append.mp hmem with hmem | hmem
    · obtain ⟨e, he, hw⟩ := List.mem_flatMap.mp hmem
      have htype := (fileTypes_iff hj.toPaths he _).mp (files_type hj he hw)
      rw [basename_word (tree_below hj.toPaths hl)] at htype
      rw [htype]
      rfl
    · have hnot := others_type hj hmem
      rw [basename_word (tree_below hj.toPaths hl)] at hnot
      contradiction
  · intro h w
    rw [List.mem_append, List.mem_flatMap, List.mem_map]
    constructor
    · intro hmem
      rcases hmem with hmem | hmem
      · obtain ⟨e, he, hw⟩ := hmem
        obtain ⟨l, hl, -, rfl⟩ := (mem_files_tree hj hapart he).mp hw
        exact ⟨l, hl, rfl⟩
      · obtain ⟨l, hl, -, rfl⟩ := (mem_othersFiles_tree hj).mp hmem
        exact ⟨l, hl, rfl⟩
    · intro hmem
      obtain ⟨l, hl, rfl⟩ := hmem
      by_cases hdot : '.' ∈ nameOf l
      · obtain ⟨t, ht⟩ := Option.isSome_iff_exists.mp (h l hl hdot)
        obtain ⟨e, rfl, -⟩ := (grepType_eq_some j.shell.word_dot).mp ht
        have he : e ∈ j.fileTypes := (mem_fileTypes hj.toPaths).mpr ⟨l, hl, ht⟩
        exact .inl ⟨e, he, word_mem_files hj he hl ((fileTypes_iff hj.toPaths he _).mpr ht)⟩
      · exact .inr (word_mem_othersFiles hj hl hdot)

end Apart

private theorem total_eq : (j.fileTypes.map j.rowFiles).sum +
    (j.countedOthers.length + j.skippedOthers.length) + (j.fileTypes.map j.ignoredFiles).sum =
    (j.fileTypes.flatMap j.files ++ j.othersFiles).length := by
  have hrow : ∀ e ∈ j.fileTypes, j.rowFiles e + j.ignoredFiles e = (j.files e).length := by
    intro e he
    obtain ⟨done, -, hnext⟩ := exists_next hj he
    have hsub : (j.counted e).Sublist (j.files e) := by
      rw [hnext.counted_eq hj]
      exact pick_sublist
    unfold rowFiles ignoredFiles
    split
    · simp
    · rw [skipped, length_skipped hsub (nodup_files hj he), Nat.add_zero]
  have hothers : j.countedOthers.length + j.skippedOthers.length = j.othersFiles.length := by
    apply length_skipped _ (nodup_othersFiles hj)
    rw [countedOthers_eq hj]
    exact pick_sublist
  rw [List.length_append, List.length_flatMap, ← List.map_congr_left hrow, List.sum_map_add, hothers]
  omega

omit hj in
private theorem Removed.accounted (h : j.Removed) : j.Accounted := by
  refine ⟨?_, fun e he => ?_, ?_, fun e he => ?_, fun e he => ?_, fun ws w hpre => ?_,
    h.finished.run_table, ?_⟩
  · simp [h.fileTypes_eq, h.othersFiles_eq, h.tree_eq]
  · simp [h.fileTypes_eq] at he
  · simp [h.othersFiles_eq]
  · simp [h.fileTypes_eq] at he
  · simp [h.fileTypes_eq] at he
  · simp [h.othersFiles_eq] at hpre
  · simp [h.fileTypes_eq, h.countedOthers_eq, skippedOthers, h.othersFiles_eq, h.tree_eq]

omit hj in
private theorem Removed.covered (h : j.Removed) : j.Covered := by
  refine ⟨fun l hl => ?_, fun e he => ?_, fun he => ?_⟩
  · simp [h.tree_eq] at hl
  · simp [h.fileTypes_eq] at he
  · simp [h.fileTypes_eq] at he

omit hj in
/-- The sorter accounts for every file of a tree apart from the output if and only if no name has a
dot without an extension behind it, the ignore list means what it says, and a file named like the
description file of the text files comes first. -/
theorem accounted_iff (hj : j.Removed ∨ j.Clean) (hapart : ¬ j.root <+: j.cwd) :
    j.Accounted ↔ j.Covered := by
  rcases hj with hremoved | hj
  · exact ⟨fun _ => hremoved.covered, fun _ => hremoved.accounted⟩
  constructor
  · intro h
    refine ⟨(once_iff hj hapart).mp h.once, ignores_iff.mp h.ignores, fun he hign hex => ?_⟩
    apply (duplicates_iff hj he).mp (h.duplicates _ he hign)
    exact (desc_mem_iff hj hapart he).mpr hex
  · intro h
    have honce := (once_iff hj hapart).mpr h.dotted
    refine ⟨honce, fun e he w hw => files_type hj he hw, fun w hw => others_type hj hw,
      ignores_iff.mpr h.expanded, fun e he hign => (duplicates_iff hj he).mpr fun hmem => ?_,
      fun ws w hpre => others_duplicates hj hpre, hj.finished.run_table, ?_⟩
    · obtain rfl := desc_mem_files hj he hmem
      exact h.desc he hign ((desc_mem_iff hj hapart he).mp hmem)
    · rw [total_eq hj, honce.length_eq, List.length_map]

end Job

def backup : Job := sampleJob "in" [(["w".toList, "ig".toList], []),
  (["w".toList, "in".toList, "notes.txt~".toList], "x".toList)]

def mixed : Job := sampleJob "in" [(["w".toList, "ig".toList], "o\r\n".toList),
  (["w".toList, "in".toList, "a.c".toList], "x".toList),
  (["w".toList, "in".toList, "old".toList, "a.c".toList], "y".toList),
  (["w".toList, "in".toList, "a.o".toList], "z".toList),
  (["w".toList, "in".toList, "README".toList], "r".toList),
  (["w".toList, "in".toList, "b.txt".toList], "t".toList)]

/-- A file `notes.txt~` is in no loop. -/
theorem backup_not_accounted : ∃ j : Job, j.Literal ∧ ¬ j.root <+: j.cwd ∧ ¬ j.Accounted := by
  have hliteral : backup.Literal := by decide +kernel
  have hapart : ¬ backup.root <+: backup.cwd := by decide
  refine ⟨backup, hliteral, hapart, fun h => ?_⟩
  have hdotted := (Job.once_iff hliteral.clean hapart).mp h.once
  revert hdotted
  decide +kernel

theorem mixed_accounted : mixed.Accounted := by
  have hignores : ∀ e ∈ mixed.fileTypes, mixed.ignored e = mixed.listed e := by decide +kernel
  have hliteral : mixed.Literal := by decide +kernel
  apply (Job.accounted_iff (.inr hliteral.clean) (by decide)).mpr
  refine ⟨by decide +kernel, Job.ignores_iff.mp hignores, fun _ _ hex => ?_⟩
  revert hex
  decide +kernel

end OsSessional.Sorter
