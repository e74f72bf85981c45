import OsSessional.Sorter.Found
import OsSessional.Sorter.Literal

/-!
# Copies and description files

When every counted file has its copy at the end, every description file lists what is counted, and no
file of the tree is passed over because of a description file: copies and description files share the
names of a directory, and the directory of the files without a dot may be that of an extension.
-/

namespace OsSessional.Sorter

open Firsts

namespace Job

variable (j : Job)

/-- A description file that the script writes. -/
def IsDesc (l : Loc) : Prop :=
  (∃ e ∈ j.fileTypes, j.ignored e = false ∧ l = j.place e (descName e)) ∨
    l = j.place othersName (descName j.lastType)

/-- What a row is to leave at the end, for the files found and those of them that are counted. -/
structure FaithfulRow (row desc : Str) (found counted : List Str) : Prop where
  copies : ∀ w ∈ counted, ∃ s, j.run.files.lookup (j.place row (basename w)) = some s ∧
    j.run.files.lookup (resolve j.cwd w) = some s
  listing : counted ≠ [] → j.run.files.lookup (j.place row desc) = some (unlines counted)
  once : counted.Nodup
  duplicates : ∀ w ∈ found, resolve j.cwd w ∈ j.tree →
    ∃ v ∈ counted, basename v = basename w ∧ ¬ j.IsDesc (resolve j.cwd v)

structure Faithful : Prop where
  types : ∀ e ∈ j.fileTypes, j.ignored e = false →
    j.FaithfulRow e (descName e) (j.files e) (j.counted e)
  others : j.FaithfulRow othersName (descName j.lastType) j.othersFiles j.countedOthers
  kept : ∀ l ∈ j.cleared.files, j.run.files.lookup l = j.cleared.files.lookup l

/-- No file is in the way of a generated one, and no generated one in the way of a file. -/
structure Undisturbed : Prop where
  desc : "txt".toList ∈ j.fileTypes → j.ignored "txt".toList = false →
    ∀ l ∈ j.tree, nameOf l ≠ descName "txt".toList
  others : j.fileTypes.getLast? = some othersName → j.ignored othersName = false →
    ∀ l ∈ j.tree, '.' ∈ nameOf l
  table : j.root <+: j.cwd → "csv".toList ∈ j.fileTypes → j.ignored "csv".toList = false →
    ¬ j.FirstFound "csv".toList outputCsv j.csv
  listings : j.root <+: j.cwd → "txt".toList ∈ j.fileTypes → j.ignored "txt".toList = false →
    ∀ e ∈ j.fileTypes.takeWhile (· ≠ "txt".toList), j.ignored e = false →
      (∃ l ∈ j.tree, nameOf l = descName e) →
      ¬ j.FirstFound "txt".toList (descName e) (j.place e (descName e))

variable {j} {done : List Str} {e n w : Str} {l : Loc} (hj : j.Clean)
include hj

private theorem run_row (he : e ∈ j.fileTypes) (hign : j.ignored e = false) (hdot : '.' ∈ n)
    (hothers : e = othersName → n = descName j.lastType → j.countedOthers = []) :
    j.run.files.lookup (j.place e n) = (j.finish e).files.lookup (j.place e n) := by
  have hkept := (others_loop hj).2
  have hend : j.othersEnd.files.lookup (j.place e n) = j.othersStart.files.lookup (j.place e n) := by
    by_cases hrow : e = othersName
    · subst hrow
      by_cases hn : n = descName j.lastType
      · rw [hkept.idle (hothers rfl hn)]
      · apply hkept.other n _ hn
        intro hmem
        obtain ⟨w, hw, rfl⟩ := List.mem_map.mp hmem
        exact others_type hj ((countedOthers_sublist hj).subset hw) hdot
    · apply hkept.outside
      intro m heq
      exact hrow (place_inj heq).1
  rw [hj.finished.run_lookup (csv_ne_place e n).symm, hend]
  exact (typesEnd_stage hj).rows e he hign n

private theorem input_of_desc (he : e ∈ j.fileTypes) (hw : w ∈ j.files e) (hname : basename w = descName e) :
    e = "txt".toList ∧ resolve j.cwd w ∈ j.tree := by
  have htxt := desc_mem_files hj he (hname ▸ List.mem_map_of_mem hw)
  refine ⟨htxt, ?_⟩
  obtain ⟨done, -, hnext⟩ := exists_next hj he
  cases hnext.origin hj hw with
  | input hl => exact hl
  | table _ hcsv _ =>
    rw [htxt] at hcsv
    exact absurd hcsv (by decide)
  | desc e' hroot htype he' hign' heq =>
    subst htype
    have hbelow := (desc_found hj hroot hnext he' hign').2
    rw [heq, basename_word hbelow] at hname
    have hname' : descName e' = descName "txt".toList := by simpa [nameOf, place] using hname
    exact absurd (descName_inj hname' ▸ he') hnext.new

omit hj in
private theorem not_isDesc_of_mem_tree (h : l ∈ j.tree) : ¬ j.IsDesc l := by
  intro hdesc
  have hold := (mem_tree.mp h).1
  rcases hdesc with ⟨e, -, -, rfl⟩ | rfl
  · exact place_not_cleared _ _ hold
  · exact place_not_cleared _ _ hold

namespace Undisturbed

variable (h : j.Undisturbed) (he : e ∈ j.fileTypes) (hign : j.ignored e = false)
include h he hign

private theorem desc_not_found (hw : w ∈ j.files e) : basename w ≠ descName e := by
  intro hname
  obtain ⟨htxt, hl⟩ := input_of_desc hj he hw hname
  subst htxt
  apply h.desc he hign _ hl
  rw [(word_resolve hj he hw).2, hname]

private theorem desc_not_counted : descName e ∉ (j.counted e).map basename := by
  intro hmem
  obtain ⟨w, hw, heq⟩ := List.mem_map.mp hmem
  exact h.desc_not_found hj he hign ((counted_sublist hj he).subset hw) heq

private theorem others_idle (hn : n ∈ (j.counted e).map basename ∨ n = descName e) (hrow : e = othersName)
    (hlast : n = descName j.lastType) : j.countedOthers = [] := by
  subst hrow
  rcases hn with hn | hn
  · obtain ⟨w, hw, rfl⟩ := List.mem_map.mp hn
    have htype := files_type hj he ((counted_sublist hj he).subset hw)
    rw [hlast, hasType_descName (by decide)] at htype
    exact absurd htype (by decide)
  · have hname : j.lastType = othersName := descName_inj (hlast.symm.trans hn)
    have hget : j.fileTypes.getLast? = some othersName := by
      rw [lastType] at hname
      cases hlast? : j.fileTypes.getLast? with
      | none =>
        rw [hlast?] at hname
        exact absurd hname (by decide)
      | some e => rw [hlast?] at hname; rw [← hname]; rfl
    rw [List.eq_nil_iff_forall_not_mem]
    intro w hw
    obtain ⟨l, hl, hdot, -⟩ := (mem_othersFiles_tree hj).mp ((countedOthers_sublist hj).subset hw)
    exact hdot (h.others hget hign l hl)

private theorem run_row (hn : n ∈ (j.counted e).map basename ∨ n = descName e) :
    j.run.files.lookup (j.place e n) = (j.finish e).files.lookup (j.place e n) := by
  apply Job.run_row hj he hign _ (h.others_idle hj he hign hn)
  rcases hn with hn | rfl
  · obtain ⟨w, hw, rfl⟩ := List.mem_map.mp hn
    exact hasType_dot (files_type hj he ((counted_sublist hj he).subset hw))
  · exact dot_mem_descName e

private theorem source_stays (hw : w ∈ j.counted e) :
    j.run.files.lookup (resolve j.cwd w) = (j.start e).files.lookup (resolve j.cwd w) := by
  obtain ⟨done, -, hnext⟩ := exists_next hj he
  rw [start_files]
  have hmem := (counted_sublist hj he).subset hw
  cases hnext.origin hj hmem with
  | input hl =>
    have hold := (mem_tree.mp hl).1
    rw [hj.finished.run_old hold, hnext.stage.old _ hold]
  | table hroot htype heq =>
    subst htype heq
    have hname := basename_csv (csv_mem_files hj hroot he).2
    exact absurd ((counted_iff_first hj he (by decide)).mp ⟨hw, hname⟩) (h.table hroot he hign)
  | desc e' hroot htype he' hign' heq =>
    subst htype heq
    have hdone := hnext.done_mem e' he'
    rw [resolve_word hj.toPaths (desc_found hj hroot hnext he' hign').2,
      h.run_row hj hdone hign' (.inr rfl), hnext.stage.rows e' he' hign']

private theorem copies (hw : w ∈ j.counted e) : ∃ s,
    j.run.files.lookup (j.place e (basename w)) = some s ∧
    j.run.files.lookup (resolve j.cwd w) = some s := by
  obtain ⟨done, -, hnext⟩ := exists_next hj he
  have hmem := (counted_sublist hj he).subset hw
  obtain ⟨s, hs⟩ := Fs.isFile_iff.mp ((hnext.sources hj).file w hmem)
  refine ⟨s, ?_, by rw [h.source_stays hj he hign hw, hs]⟩
  rw [h.run_row hj he hign (.inl (List.mem_map_of_mem hw)),
    (hnext.loop hj).2.copy w hw (h.desc_not_found hj he hign hmem), hs]

private theorem listing : j.run.files.lookup (j.place e (descName e)) = some (unlines (j.counted e)) := by
  obtain ⟨done, -, hnext⟩ := exists_next hj he
  rw [h.run_row hj he hign (.inr rfl)]
  exact hnext.listing hj (h.desc_not_counted hj he hign) (counted_ne_nil hj he)

private theorem duplicates (hw : w ∈ j.files e) (hl : resolve j.cwd w ∈ j.tree) :
    ∃ v ∈ j.counted e, basename v = basename w ∧ ¬ j.IsDesc (resolve j.cwd v) := by
  have hmark := h.desc_not_found hj he hign hw
  have hkey : basename w ∈ (j.counted e).map basename := by
    rw [counted_eq_pick hj he, key_mem_pick hmark List.not_mem_nil]
    exact List.mem_map_of_mem hw
  obtain ⟨v, hv, hname⟩ := List.mem_map.mp hkey
  refine ⟨v, hv, hname, ?_⟩
  obtain ⟨done, hpre, hnext⟩ := exists_next hj he
  cases hnext.origin hj ((counted_sublist hj he).subset hv) with
  | input hl' => exact not_isDesc_of_mem_tree hl'
  | table hroot htype heq =>
    subst htype heq
    rw [resolve_word hj.toPaths (csv_mem_files hj hroot he).2]
    intro hdesc
    rcases hdesc with ⟨e', -, -, heq⟩ | heq
    · exact csv_ne_place _ _ heq
    · exact csv_ne_place _ _ heq
  | desc e' hroot htype he' hign' heq =>
    subst htype heq
    rw [basename_place (desc_found hj hroot hnext he' hign').2] at hname
    have hne : descName e' ≠ descName "txt".toList := fun h => hnext.new (descName_inj h ▸ he')
    have hfirst := (counted_iff_first hj he hne).mp
      ⟨hv, basename_place (desc_found hj hroot hnext he' hign').2⟩
    apply absurd hfirst
    apply h.listings hroot he hign e' _ hign' ⟨_, hl, by rw [(word_resolve hj he hw).2, hname]⟩
    rw [(takeWhile_done hpre).2]
    exact he'

end Undisturbed

private theorem Undisturbed.others_row (h : j.Undisturbed) :
    j.FaithfulRow othersName (descName j.lastType) j.othersFiles j.countedOthers := by
  have hkept := (others_loop hj).2
  have hsub := (countedOthers_sublist hj).subset
  have hmark : ∀ w ∈ j.othersFiles, basename w ≠ descName j.lastType := fun w hw heq =>
    others_type hj hw (heq ▸ dot_mem_descName j.lastType)
  have htree : ∀ w ∈ j.othersFiles, resolve j.cwd w ∈ j.tree := by
    intro w hw
    obtain ⟨l, hl, -, rfl⟩ := (mem_othersFiles_tree hj).mp hw
    rwa [resolve_word hj.toPaths (tree_below hj.toPaths hl)]
  refine ⟨?_, ?_, (nodup_othersFiles hj).sublist (countedOthers_sublist hj), ?_⟩
  · intro w hw
    have hold := (mem_tree.mp (htree w (hsub hw))).1
    obtain ⟨s, hs⟩ := Option.isSome_iff_exists.mp (AList.lookup_isSome.mpr hold)
    refine ⟨s, ?_, by rw [hj.finished.run_old hold, hs]⟩
    rw [hj.finished.run_lookup (csv_ne_place _ _).symm, hkept.copy w hw (hmark w (hsub hw)), ← hs]
    exact (typesEnd_stage hj).old _ hold
  · intro hne
    have hnone : j.othersStart.files.lookup (j.place othersName (descName j.lastType)) = none := by
      rw [AList.lookup_eq_none]
      intro hmem
      rcases (typesEnd_stage hj).only _ hmem with hold | hcsv | ⟨e, he, hign, n, -, heq, hn⟩
      · exact place_not_cleared _ _ hold
      · exact csv_ne_place _ _ hcsv.symm
      · obtain ⟨hrow, hname⟩ := place_inj heq
        exact hne (h.others_idle hj he hign hn hrow.symm hname.symm)
    have hnot : descName j.lastType ∉ j.countedOthers.map basename := by
      intro hmem
      obtain ⟨w, hw, heq⟩ := List.mem_map.mp hmem
      exact hmark w (hsub hw) heq
    rw [hj.finished.run_lookup (csv_ne_place _ _).symm, hkept.desc hnot hne, Fs.content, hnone]
    rfl
  · intro w hw _
    have hkey : basename w ∈ j.countedOthers.map basename := by
      rw [countedOthers_eq hj, key_mem_pick (hmark w hw) List.not_mem_nil]
      exact List.mem_map_of_mem hw
    obtain ⟨v, hv, hname⟩ := List.mem_map.mp hkey
    exact ⟨v, hv, hname, not_isDesc_of_mem_tree (htree v (hsub hv))⟩

private theorem Undisturbed.faithful (h : j.Undisturbed) : j.Faithful := by
  refine ⟨fun e he hign => ?_, h.others_row hj, fun l hl => hj.finished.run_old hl⟩
  refine ⟨fun w hw => h.copies hj he hign hw, fun _ => h.listing hj he hign, ?_,
    fun w hw hl => h.duplicates hj he hign hw hl⟩
  exact (nodup_files hj he).sublist (counted_sublist hj he)

private theorem files_plain (he : e ∈ j.fileTypes) (hw : w ∈ j.files e) : w ≠ [] ∧ '\n' ∉ w := by
  obtain ⟨done, -, hnext⟩ := exists_next hj he
  obtain ⟨l, -, -, -, hbelow, rfl⟩ := (hnext.mem_files hj).mp hw
  exact word_line hj.toPaths hbelow

private theorem othersFiles_plain (hw : w ∈ j.othersFiles) : w ≠ [] ∧ '\n' ∉ w := by
  obtain ⟨l, hl, -, rfl⟩ := (mem_othersFiles_tree hj).mp hw
  exact word_line hj.toPaths (tree_below hj.toPaths hl)

omit hj in
private theorem unlines_ne_nil {lines : List Str} (h : lines ≠ []) : unlines lines ≠ [] := by
  cases lines with
  | nil => contradiction
  | cons w ws => simp [unlines]

namespace Faithful

variable (h : j.Faithful)
include h

private theorem desc (he : "txt".toList ∈ j.fileTypes) (hign : j.ignored "txt".toList = false)
    (hl : l ∈ j.tree) : nameOf l ≠ descName "txt".toList := by
  intro hname
  have htype : hasType "txt".toList (nameOf l) = true := by
    rw [hname]
    decide
  have hw := word_mem_files hj he hl htype
  have hbelow := tree_below hj.toPaths hl
  have hrow := h.types _ he hign
  obtain ⟨v, hv, hname', -⟩ := hrow.duplicates _ hw (by rwa [resolve_word hj.toPaths hbelow])
  rw [basename_word hbelow, hname] at hname'
  obtain ⟨done, -, hnext⟩ := exists_next hj he
  obtain ⟨u, hu, hname'', hclash⟩ := hnext.clash hj (hname' ▸ List.mem_map_of_mem hv)
  have hsource := (input_of_desc hj he ((counted_sublist hj he).subset hu) hname'').2
  have hold := (mem_tree.mp hsource).1
  obtain ⟨s, hcopy, hs⟩ := hrow.copies u hu
  have hstart : (j.start "txt".toList).content (resolve j.cwd u) = s := by
    apply Fs.content_of_lookup
    rw [start_files, hnext.stage.old _ hold, ← hj.finished.run_old hold, hs]
  have hlookup := run_row hj he hign (dot_mem_descName "txt".toList) fun hrow => absurd hrow (by decide)
  rw [hname'', hlookup, hclash, hstart, Option.some.injEq] at hcopy
  exact unlines_ne_nil (counted_ne_nil hj he) (by simpa using hcopy)

private theorem others_dot (hlast : j.fileTypes.getLast? = some othersName)
    (hign : j.ignored othersName = false) (hl : l ∈ j.tree) : '.' ∈ nameOf l := by
  by_contra hdot
  have he := List.mem_of_getLast? hlast
  have hmem := word_mem_othersFiles hj hl hdot
  have hne : j.countedOthers ≠ [] := by
    rw [countedOthers_eq hj]
    intro hnil
    rw [pick_eq_nil hnil] at hmem
    contradiction
  have hname : j.lastType = othersName := by
    rw [lastType, hlast]
    rfl
  have hlisting := h.others.listing hne
  rw [hname, (h.types _ he hign).listing (counted_ne_nil hj he), Option.some.injEq] at hlisting
  have hfields := congrArg fields hlisting
  rw [fields_unlines fun w hw => files_plain hj he ((counted_sublist hj he).subset hw),
    fields_unlines fun w hw => othersFiles_plain hj ((countedOthers_sublist hj).subset hw)] at hfields
  obtain ⟨w, hw⟩ := List.exists_mem_of_ne_nil _ hne
  apply others_type hj ((countedOthers_sublist hj).subset hw)
  rw [← hfields] at hw
  exact hasType_dot (files_type hj he ((counted_sublist hj he).subset hw))

private theorem table (hroot : j.root <+: j.cwd) (he : "csv".toList ∈ j.fileTypes)
    (hign : j.ignored "csv".toList = false) : ¬ j.FirstFound "csv".toList outputCsv j.csv := by
  intro hfirst
  obtain ⟨hw, hname⟩ := (counted_iff_first hj he (by decide)).mpr hfirst
  obtain ⟨done, hpre, hnext⟩ := exists_next hj he
  obtain ⟨s, hcopy, hs⟩ := (h.types _ he hign).copies _ hw
  have hne : basename (j.word j.csv) ≠ descName "csv".toList := by
    rw [hname]
    decide
  rw [run_row hj he hign (by rw [hname]; decide) fun hrow => absurd hrow (by decide),
    (hnext.loop hj).2.copy _ hw hne, resolve_word hj.toPaths (csv_mem_files hj hroot he).2, start_files,
    hnext.stage.table] at hcopy
  rw [resolve_word hj.toPaths (csv_mem_files hj hroot he).2, hj.finished.run_table, ← hcopy] at hs
  obtain ⟨rest, hrest⟩ := hpre
  have hlen := congrArg List.length (Option.some.inj hs)
  rw [← hrest] at hlen
  simp [csvLine] at hlen

private theorem listings (hroot : j.root <+: j.cwd) (he : "txt".toList ∈ j.fileTypes)
    (hign : j.ignored "txt".toList = false)
    (hmem : e ∈ j.fileTypes.takeWhile (· ≠ "txt".toList)) (hign' : j.ignored e = false)
    (hex : ∃ l ∈ j.tree, nameOf l = descName e) :
    ¬ j.FirstFound "txt".toList (descName e) (j.place e (descName e)) := by
  intro hfirst
  obtain ⟨l, hl, hname⟩ := hex
  obtain ⟨done, hpre, hnext⟩ := exists_next hj he
  rw [(takeWhile_done hpre).2] at hmem
  have hne : descName e ≠ descName "txt".toList := fun h => hnext.new (descName_inj h ▸ hmem)
  have htype : hasType "txt".toList (nameOf l) = true := by
    rw [hname]
    exact (hasType_descName (by decide)).mpr rfl
  have hbelow := tree_below hj.toPaths hl
  obtain ⟨v, hv, hname', hdesc⟩ := (h.types _ he hign).duplicates _
    (word_mem_files hj he hl htype) (by rwa [resolve_word hj.toPaths hbelow])
  rw [basename_word hbelow, hname] at hname'
  have hv' := (counted_iff_first hj he hne).mp ⟨hv, hname'⟩
  rw [hfirst, Option.some.injEq] at hv'
  apply hdesc
  rw [← hv', resolve_word hj.toPaths (desc_found hj hroot hnext hmem hign').2]
  exact .inl ⟨e, hnext.done_mem e hmem, hign', rfl⟩

end Faithful

omit hj in
private theorem Removed.faithful (h : j.Removed) : j.Faithful := by
  refine ⟨fun e he => ?_, ⟨?_, ?_, ?_, ?_⟩, fun l hl => h.finished.run_old hl⟩
  · simp [h.fileTypes_eq] at he
  · simp [h.countedOthers_eq]
  · simp [h.countedOthers_eq]
  · simp [h.countedOthers_eq]
  · simp [h.othersFiles_eq]

omit hj in
private theorem Removed.undisturbed (h : j.Removed) : j.Undisturbed := by
  refine ⟨fun he => ?_, fun hlast => ?_, fun _ he => ?_, fun _ he => ?_⟩
  · simp [h.fileTypes_eq] at he
  · simp [h.fileTypes_eq] at hlast
  · simp [h.fileTypes_eq] at he
  · simp [h.fileTypes_eq] at he

end Job

def descFile : Job := sampleJob "in" [(["w".toList, "ig".toList], []),
  (["w".toList, "in".toList, "desc_txt.txt".toList], "x".toList)]

def here : Job := sampleJob "." [(["w".toList, "ig".toList], "o\n".toList),
  (["w".toList, "a.c".toList], "x".toList),
  (["w".toList, "old".toList, "a.c".toList], "y".toList),
  (["w".toList, "README".toList], "r".toList),
  (["w".toList, "b.txt".toList], "t".toList)]

end OsSessional.Sorter
