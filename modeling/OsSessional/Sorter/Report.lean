import OsSessional.Sorter.Accounts

/-!
# The report and the tree

When the counts are those of the tree as it was at the collection of the extensions. Every iteration
searches the working directory again, which may hold the table, the copies and the description files
written so far.
-/

namespace OsSessional.Sorter

open Firsts

namespace Job

variable (j : Job)

/-- The basenames with extension `e` in the tree. -/
def treeNames (e : Str) : List Str :=
  ((j.tree.filter fun l => hasType e (nameOf l)).map nameOf).dedup

/-- The files of the tree with an ignored extension. -/
def treeIgnored : List Loc :=
  j.tree.filter fun l => j.fileTypes.any fun e => j.ignored e && hasType e (nameOf l)

/-- The report is about the tree, and nothing generated is counted. -/
structure FromTree : Prop where
  ignores : ∀ e ∈ j.fileTypes, j.ignored e = j.listed e
  rows : ∀ e ∈ j.fileTypes, j.ignored e = false → (j.counted e).length = (j.treeNames e).length
  ignored : (j.fileTypes.map j.ignoredFiles).sum = j.treeIgnored.length
  counts : ∀ e ∈ j.fileTypes, j.ignored e = false → ∀ w ∈ j.counted e, resolve j.cwd w ∈ j.tree
  ignoredCounts : ∀ e ∈ j.fileTypes, j.ignored e = true → ∀ w ∈ j.files e, resolve j.cwd w ∈ j.tree
  othersCounts : ∀ w ∈ j.countedOthers, resolve j.cwd w ∈ j.tree
  table : j.run.files.lookup j.csv = some (header ++ j.fileTypes.flatMap j.rowText ++
    csvLine othersName (Nat.toDigits 10 j.countedOthers.length) ++
    csvLine "ignored".toList (Nat.toDigits 10 (j.fileTypes.map j.ignoredFiles).sum))

/-- Every generated file that is found is skipped for one of the tree. -/
structure Covert : Prop where
  expanded : ∀ e ∈ j.fileTypes, j.listed e = true ↔
    ∃ type ∈ fields j.ignoreVar, ∃ x ∈ j.shell.glob (j.before e).1 j.cwd type,
      substituted (x.filter (· ≠ '\r')) = e
  desc : "txt".toList ∈ j.fileTypes → j.ignored "txt".toList = false → j.DescFirst "txt".toList
  table : j.root <+: j.cwd → "csv".toList ∈ j.fileTypes →
    j.ignored "csv".toList = false ∧ ¬ j.FirstFound "csv".toList outputCsv j.csv
  listings : j.root <+: j.cwd → "txt".toList ∈ j.fileTypes →
    ∀ e ∈ j.fileTypes.takeWhile (· ≠ "txt".toList), j.ignored e = false →
      j.ignored "txt".toList = false ∧
        ¬ j.FirstFound "txt".toList (descName e) (j.place e (descName e))

variable {j} {done : List Str} {e n w : Str} {l : Loc}

private theorem mem_treeNames :
    n ∈ j.treeNames e ↔ ∃ l ∈ j.tree, hasType e (nameOf l) = true ∧ nameOf l = n := by
  simp only [treeNames, List.mem_dedup, List.mem_map, List.mem_filter, and_assoc]

private theorem nodup_treeNames : (j.treeNames e).Nodup := List.nodup_dedup _

private theorem desc_mem_treeNames (hdot : '.' ∉ e) : descName e ∈ j.treeNames e ↔
    e = "txt".toList ∧ ∃ l ∈ j.tree, nameOf l = descName e := by
  rw [mem_treeNames]
  constructor
  · intro h
    obtain ⟨l, hl, htype, hname⟩ := h
    rw [hname, hasType_descName hdot] at htype
    exact ⟨htype, l, hl, hname⟩
  · intro h
    obtain ⟨htxt, l, hl, hname⟩ := h
    refine ⟨l, hl, ?_, hname⟩
    rw [hname, hasType_descName hdot]
    exact htxt

variable (hj : j.Clean)
include hj

private theorem counted_names_subset (he : e ∈ j.fileTypes)
    (hcounts : ∀ w ∈ j.counted e, resolve j.cwd w ∈ j.tree) :
    (j.counted e).map basename ⊆ j.treeNames e := by
  intro n hn
  obtain ⟨w, hw, rfl⟩ := List.mem_map.mp hn
  have hmem := (counted_sublist hj he).subset hw
  have hname := (word_resolve hj he hmem).2
  apply mem_treeNames.mpr
  refine ⟨_, hcounts w hw, ?_, hname⟩
  rw [hname]
  exact files_type hj he hmem

private theorem counted_names_nodup (he : e ∈ j.fileTypes) : ((j.counted e).map basename).Nodup := by
  rw [counted_eq_pick hj he]
  exact pick_keys_nodup

private theorem treeNames_subset (he : e ∈ j.fileTypes) : j.treeNames e ⊆ (j.files e).map basename := by
  intro n hn
  obtain ⟨l, hl, htype, rfl⟩ := mem_treeNames.mp hn
  rw [← basename_word (tree_below hj.toPaths hl)]
  exact List.mem_map_of_mem (word_mem_files hj he hl htype)

private theorem length_counted (he : e ∈ j.fileTypes) (hcounts : ∀ w ∈ j.counted e, resolve j.cwd w ∈ j.tree)
    (hfirst : descName e ∈ j.treeNames e → (j.files e).head?.map basename = some (descName e)) :
    (j.counted e).length = (j.treeNames e).length := by
  rw [← List.length_map (f := basename)]
  apply List.Perm.length_eq
  rw [List.perm_ext_iff_of_nodup (counted_names_nodup hj he) nodup_treeNames]
  intro n
  constructor
  · exact fun hn => counted_names_subset hj he hcounts hn
  · intro hn
    rw [counted_eq_pick hj he]
    by_cases hmark : n = descName e
    · subst hmark
      exact mark_mem_pick.mpr (hfirst hn)
    · rw [key_mem_pick hmark List.not_mem_nil]
      exact treeNames_subset hj he hn

private theorem head_of_length_counted (he : e ∈ j.fileTypes)
    (hcounts : ∀ w ∈ j.counted e, resolve j.cwd w ∈ j.tree)
    (hlen : (j.counted e).length = (j.treeNames e).length) (hmem : descName e ∈ j.treeNames e) :
    (j.files e).head?.map basename = some (descName e) := by
  by_contra hhead
  have hnot : descName e ∉ (j.counted e).map basename := by
    rwa [counted_eq_pick hj he, mark_mem_pick]
  have hsub : descName e :: (j.counted e).map basename ⊆ j.treeNames e := by
    intro n hn
    rcases List.mem_cons.mp hn with rfl | hn
    · exact hmem
    · exact counted_names_subset hj he hcounts hn
  have hnodup := List.nodup_cons.mpr ⟨hnot, counted_names_nodup hj he⟩
  have hle := (List.subperm_of_subset hnodup hsub).length_le
  simp only [List.length_cons, List.length_map] at hle
  omega

private theorem sum_ignoredFiles (hcounts : ∀ e ∈ j.fileTypes, j.ignored e = true →
      ∀ w ∈ j.files e, resolve j.cwd w ∈ j.tree) :
    (j.fileTypes.map j.ignoredFiles).sum = j.treeIgnored.length := by
  have hsum : (j.fileTypes.map j.ignoredFiles).sum =
      (j.fileTypes.flatMap fun e => if j.ignored e then j.files e else []).length := by
    rw [List.length_flatMap]
    apply congrArg List.sum
    apply List.map_congr_left
    intro e _
    unfold ignoredFiles
    split <;> rfl
  rw [hsum, ← List.length_map (f := j.word)]
  apply List.Perm.length_eq
  have hinj : ∀ l ∈ j.treeIgnored, ∀ l' ∈ j.treeIgnored, j.word l = j.word l' → l = l' :=
    fun l hl l' hl' heq => word_inj hj.toPaths (tree_below hj.toPaths (List.mem_of_mem_filter hl))
      (tree_below hj.toPaths (List.mem_of_mem_filter hl')) heq
  have hnodup : (j.fileTypes.flatMap fun e => if j.ignored e then j.files e else []).Nodup := by
    rw [List.nodup_flatMap]
    refine ⟨fun e he => ?_, ?_⟩
    · split
      · exact nodup_files hj he
      · exact List.nodup_nil
    · apply nodup_fileTypes.pairwise_of_forall_ne
      intro e he e' he' hne w hw hw'
      dsimp only at hw hw'
      split at hw
      · split at hw'
        · exact files_disjoint hj he he' hne hw hw'
        · exact absurd hw' List.not_mem_nil
      · exact absurd hw List.not_mem_nil
  rw [List.perm_ext_iff_of_nodup hnodup ((nodup_tree.filter _).map_on hinj)]
  intro w
  simp only [List.mem_flatMap, List.mem_map, treeIgnored, List.mem_filter, List.any_eq_true,
    Bool.and_eq_true]
  constructor
  · intro h
    obtain ⟨e, he, hw⟩ := h
    split at hw
    · next hign =>
      obtain ⟨hword, hname⟩ := word_resolve hj he hw
      refine ⟨_, ⟨hcounts e he hign w hw, e, he, hign, ?_⟩, hword⟩
      rw [hname]
      exact files_type hj he hw
    · exact absurd hw List.not_mem_nil
  · intro h
    obtain ⟨l, ⟨hl, e, he, hign, htype⟩, rfl⟩ := h
    refine ⟨e, he, ?_⟩
    rw [if_pos hign]
    exact word_mem_files hj he hl htype

namespace Covert

variable (h : j.Covert)
include h

private theorem counts (he : e ∈ j.fileTypes) (hw : w ∈ j.files e)
    (hcounted : j.ignored e = false → w ∈ j.counted e) : resolve j.cwd w ∈ j.tree := by
  obtain ⟨done, hpre, hnext⟩ := exists_next hj he
  cases hnext.origin hj hw with
  | input hl => exact hl
  | table hroot htype heq =>
    subst htype heq
    obtain ⟨hign, hfirst⟩ := h.table hroot he
    have hname := basename_csv (csv_mem_files hj hroot he).2
    exact absurd ((counted_iff_first hj he (by decide)).mp ⟨hcounted hign, hname⟩) hfirst
  | desc e' hroot htype he' hign' heq =>
    subst htype heq
    have hbefore : e' ∈ j.fileTypes.takeWhile (· ≠ "txt".toList) := by
      rw [(takeWhile_done hpre).2]
      exact he'
    obtain ⟨hign, hfirst⟩ := h.listings hroot he e' hbefore hign'
    have hne : descName e' ≠ descName "txt".toList := fun h => hnext.new (descName_inj h ▸ he')
    have hname := basename_place (desc_found hj hroot hnext he' hign').2
    exact absurd ((counted_iff_first hj he hne).mp ⟨hcounted hign, hname⟩) hfirst

private theorem fromTree : j.FromTree := by
  have hcounts : ∀ e ∈ j.fileTypes, ∀ w ∈ j.counted e, j.ignored e = false → resolve j.cwd w ∈ j.tree :=
    fun e he w hw _ => h.counts hj he ((counted_sublist hj he).subset hw) fun _ => hw
  have hignored : ∀ e ∈ j.fileTypes, j.ignored e = true → ∀ w ∈ j.files e, resolve j.cwd w ∈ j.tree := by
    intro e he hign w hw
    apply h.counts hj he hw
    intro hign'
    rw [hign] at hign'
    contradiction
  refine ⟨ignores_iff.mpr h.expanded, fun e he hign => ?_, sum_ignoredFiles hj hignored,
    fun e he hign w hw => hcounts e he w hw hign, hignored, fun w hw => ?_, hj.finished.run_table⟩
  · apply length_counted hj he fun w hw => hcounts e he w hw hign
    intro hmem
    obtain ⟨rfl, hex⟩ := (desc_mem_treeNames (fileTypes_plain hj.toPaths he).2).mp hmem
    exact h.desc he hign hex
  · obtain ⟨l, hl, -, rfl⟩ := (mem_othersFiles_tree hj).mp ((countedOthers_sublist hj).subset hw)
    rwa [resolve_word hj.toPaths (tree_below hj.toPaths hl)]

end Covert

namespace FromTree

variable (h : j.FromTree)
include h

omit hj in
private theorem generated (he : e ∈ j.fileTypes) (hw : w ∈ j.files e) (hgen : resolve j.cwd w ∉ j.tree) :
    j.ignored e = false ∧ w ∉ j.counted e := by
  cases hign : j.ignored e with
  | true => exact absurd (h.ignoredCounts e he hign w hw) hgen
  | false => exact ⟨rfl, fun hmem => hgen (h.counts e he hign w hmem)⟩

private theorem desc_first (he : "txt".toList ∈ j.fileTypes) (hign : j.ignored "txt".toList = false) :
    j.DescFirst "txt".toList := by
  intro hex
  apply head_of_length_counted hj he (h.counts _ he hign) (h.rows _ he hign)
  exact (desc_mem_treeNames (by decide)).mpr ⟨rfl, hex⟩

private theorem table_skipped (hroot : j.root <+: j.cwd) (he : "csv".toList ∈ j.fileTypes) :
    j.ignored "csv".toList = false ∧ ¬ j.FirstFound "csv".toList outputCsv j.csv := by
  obtain ⟨hmem, hbelow⟩ := csv_mem_files hj hroot he
  have hgen : resolve j.cwd (j.word j.csv) ∉ j.tree := by
    rw [resolve_word hj.toPaths hbelow]
    exact fun hl => csv_not_cleared (mem_tree.mp hl).1
  obtain ⟨hign, hnot⟩ := h.generated he hmem hgen
  exact ⟨hign, fun hfirst => hnot ((counted_iff_first hj he (by decide)).mpr hfirst).1⟩

private theorem desc_skipped (hroot : j.root <+: j.cwd) (he : "txt".toList ∈ j.fileTypes)
    (hbefore : e ∈ j.fileTypes.takeWhile (· ≠ "txt".toList)) (hign' : j.ignored e = false) :
    j.ignored "txt".toList = false ∧
      ¬ j.FirstFound "txt".toList (descName e) (j.place e (descName e)) := by
  obtain ⟨done, hpre, hnext⟩ := exists_next hj he
  rw [(takeWhile_done hpre).2] at hbefore
  obtain ⟨hmem, hbelow⟩ := desc_found hj hroot hnext hbefore hign'
  have hgen : resolve j.cwd (j.word (j.place e (descName e))) ∉ j.tree := by
    rw [resolve_word hj.toPaths hbelow]
    exact fun hl => place_not_cleared _ _ (mem_tree.mp hl).1
  have hne : descName e ≠ descName "txt".toList := fun h => hnext.new (descName_inj h ▸ hbefore)
  obtain ⟨hign, hnot⟩ := h.generated he hmem hgen
  exact ⟨hign, fun hfirst => hnot ((counted_iff_first hj he hne).mpr hfirst).1⟩

end FromTree

omit hj in
private theorem Removed.fromTree (h : j.Removed) : j.FromTree := by
  refine ⟨fun e he => ?_, fun e he => ?_, ?_, fun e he => ?_, fun e he => ?_, ?_, h.finished.run_table⟩
  · simp [h.fileTypes_eq] at he
  · simp [h.fileTypes_eq] at he
  · simp [h.fileTypes_eq, treeIgnored, h.tree_eq]
  · simp [h.fileTypes_eq] at he
  · simp [h.fileTypes_eq] at he
  · simp [h.countedOthers_eq]

omit hj in
private theorem Removed.covert (h : j.Removed) : j.Covert := by
  refine ⟨fun e he => ?_, fun he => ?_, fun _ he => ?_, fun _ he => ?_⟩
  · simp [h.fileTypes_eq] at he
  · simp [h.fileTypes_eq] at he
  · simp [h.fileTypes_eq] at he
  · simp [h.fileTypes_eq] at he

end Job

def sheet : Job := sampleJob "." [(["w".toList, "ig".toList], []),
  (["w".toList, "a.csv".toList], "x".toList)]

def sources : Job := sampleJob "." [(["w".toList, "ig".toList], "o\n".toList),
  (["w".toList, "a.c".toList], "x".toList),
  (["w".toList, "old".toList, "a.c".toList], "y".toList),
  (["w".toList, "a.o".toList], "z".toList),
  (["w".toList, "README".toList], "r".toList)]

end OsSessional.Sorter
