import Mathlib.Algebra.GroupWithZero.Nat
import OsSessional.Sorter.Tree

/-!
# The loop over the extensions

What is there when the loop comes to an extension: the files from before, the table of counts, and the
copies and description files of the rows done so far.
-/

namespace OsSessional.Sorter

open Firsts

namespace Job

variable (j : Job)

/-- The files found with extension `e` that are counted, if it is not ignored. -/
def counted (e : Str) : List Str := j.takes e (descName e) (j.files e) (j.start e)

/-- When the inner loop for `e` ends. -/
def finish (e : Str) : Fs := ((j.files e).foldl (j.sortFile e (descName e)) (j.start e, 0)).1

/-- The row of extension `e` in `output.csv`; an ignored one has none. -/
def rowText (e : Str) : Str :=
  if j.ignored e then [] else csvLine e (Nat.toDigits 10 (j.counted e).length)

/-- What extension `e` adds to `ignore_count`. -/
def ignoredFiles (e : Str) : Nat := if j.ignored e then (j.files e).length else 0

def header : Str := csvLine "file_type".toList "no_of_files".toList

/-- After the extensions `done`. -/
structure Stage (done : List Str) (fs : Fs) : Prop where
  old : ∀ l ∈ j.cleared.files, fs.files.lookup l = j.cleared.files.lookup l
  table : fs.files.lookup j.csv = some (header ++ done.flatMap j.rowText)
  rows : ∀ e ∈ done, j.ignored e = false → ∀ n,
    fs.files.lookup (j.place e n) = (j.finish e).files.lookup (j.place e n)
  only : ∀ l ∈ fs.files, l ∈ j.cleared.files ∨ l = j.csv ∨ ∃ e ∈ done, j.ignored e = false ∧
    ∃ n, Plain n ∧ l = j.place e n ∧ (n ∈ (j.counted e).map basename ∨ n = descName e)

/-- Where the loops search, pathname expansion leaves every path alone. -/
structure Clean : Prop extends j.Paths where
  types : ∀ e ∈ j.fileTypes, ∀ w ∈ fields (j.findText (j.start e).files (hasType e)),
    j.shell.glob (j.start e) j.cwd w = [w]
  others : ∀ w ∈ fields (j.findText j.othersStart.files hasNoDot),
    j.shell.glob j.othersStart j.cwd w = [w]

variable {j} {done : List Str} {fs : Fs} {e w : Str} {l : Loc}

theorem csv_eq : j.csv = j.cwd ++ [outputCsv] := by
  have hjoin : joined [outputCsv] = outputCsv := by simp [joined]
  rw [csv, ← hjoin]
  exact resolve_joined (fun n hn => by rw [List.mem_singleton.mp hn]; exact plain_csv.toIsName) (by simp)

private theorem output_eq : resolve j.cwd outputDir = j.cwd ++ [outputDir] := by
  have hjoin : joined [outputDir] = outputDir := by simp [joined]
  rw [← hjoin]
  apply resolve_joined _ (by simp)
  intro n hn
  rw [List.mem_singleton.mp hn]
  exact plain_outputDir.toIsName

theorem csv_ne_place (row n : Str) : j.csv ≠ j.place row n := by
  intro h
  rw [csv_eq, place] at h
  have := List.append_cancel_left h
  simp at this

private theorem mem_cleared : l ∈ j.cleared.files ↔
    l ∈ j.fs.files ∧ ¬ j.cwd ++ [outputDir] <+: l ∧ ¬ j.csv <+: l := by
  rw [← AList.lookup_isSome, ← AList.lookup_isSome, cleared, Fs.lookup_rmRf, Fs.lookup_rmRf, output_eq]
  by_cases h : j.csv <+: l
  · simp [h]
  · by_cases h' : j.cwd ++ [outputDir] <+: l
    · simp [h, h']
    · simp [h, h']

theorem csv_not_cleared : j.csv ∉ j.cleared.files := fun h => (mem_cleared.mp h).2.2 List.prefix_rfl

theorem place_not_cleared (row n : Str) : j.place row n ∉ j.cleared.files := by
  intro h
  apply (mem_cleared.mp h).2.1
  exact ⟨[row, n], by simp [place]⟩

private theorem not_isFile : fs.isFile l = false ↔ l ∉ fs.files := by
  rw [Fs.isFile, ← Bool.not_eq_true, AList.lookup_isSome]

section Below

variable (hj : j.Paths)
include hj

/-- The working directory holds what is generated only if it holds the current directory. -/
theorem root_of_csv (h : j.root <+: j.csv) : j.root <+: j.cwd := by
  rw [csv_eq] at h
  rcases List.prefix_concat_iff.mp h with heq | h
  · exact absurd (by rw [heq, csv_eq]) hj.dir_stays.2
  · exact h

theorem root_of_place {row n : Str} (h : j.root <+: j.place row n) : j.root <+: j.cwd := by
  have hdir : j.cwd ++ [outputDir] <+: j.place row n := ⟨[row, n], by simp [place]⟩
  have hstays := hj.dir_stays.1
  rw [output_eq] at hstays
  rcases List.prefix_or_prefix_of_prefix h hdir with h | h
  · rcases List.prefix_concat_iff.mp h with heq | h
    · exact absurd (by rw [heq]) hstays
    · exact h
  · exact absurd h hstays

theorem below_append (h : j.root <+: j.cwd) {rel : Loc} (hne : rel ≠ []) (hrel : ∀ n ∈ rel, Plain n) :
    j.Below (j.cwd ++ rel) := by
  have hcwd := hj.cwd h
  obtain ⟨rest, hrest⟩ := h
  rw [← hrest, List.drop_left] at hcwd
  rw [← hrest]
  refine ⟨⟨rest ++ rel, by simp⟩, ?_, ?_⟩
  · intro heq
    have hlen := congrArg List.length heq
    have hpos := List.length_pos_iff.mpr hne
    simp only [List.length_append] at hlen
    omega
  · intro n hn
    rw [List.append_assoc, List.drop_left] at hn
    rcases List.mem_append.mp hn with hn | hn
    · exact hcwd n hn
    · exact hrel n hn

theorem below_csv (h : j.root <+: j.csv) : j.Below j.csv := by
  rw [csv_eq]
  apply below_append hj (root_of_csv hj h) (by simp)
  intro n hn
  rw [List.mem_singleton.mp hn]
  exact plain_csv

theorem below_place {row n : Str} (hrow : Plain row) (hn : Plain n) (h : j.root <+: j.place row n) :
    j.Below (j.place row n) := by
  apply below_append hj (root_of_place hj h) (by simp)
  intro m hm
  simp only [List.mem_cons, List.not_mem_nil, or_false] at hm
  rcases hm with rfl | rfl | rfl
  · exact plain_outputDir
  · exact hrow
  · exact hn

end Below

theorem start_files (e : Str) : (j.start e).files = (j.before e).1.files := by
  unfold start
  split <;> rfl

namespace Stage

variable (hj : j.Clean) (h : j.Stage done fs) (hdone : ∀ e ∈ done, e ∈ j.fileTypes)
include hj h hdone

theorem below : ∀ l ∈ fs.files, j.root <+: l → j.Below l := by
  intro l hl hunder
  rcases h.only l hl with hold | rfl | ⟨e, he, -, n, hn, rfl, -⟩
  · exact hj.below l hold hunder
  · exact below_csv hj.toPaths hunder
  · exact below_place hj.toPaths (fileTypes_plain hj.toPaths (hdone e he)).1 hn hunder

omit hj hdone in
theorem csv_mem : j.csv ∈ fs.files := by
  rw [← AList.lookup_isSome, h.table]
  rfl

end Stage

/-- Extension `e` comes next, after the extensions `done`. -/
structure Next (j : Job) (done : List Str) (e : Str) : Prop where
  stage : j.Stage done (j.before e).1
  done_mem : ∀ e ∈ done, e ∈ j.fileTypes
  mem : e ∈ j.fileTypes
  new : e ∉ done

namespace Next

variable (hj : j.Clean) (h : j.Next done e)
include hj h

theorem below : ∀ l ∈ (j.start e).files, j.root <+: l → hasType e (nameOf l) = true → j.Below l := by
  intro l hl hunder _
  rw [start_files] at hl
  exact h.stage.below hj h.done_mem l hl hunder

private theorem files_eq : j.files e =
    (j.shell.find (j.start e).files j.root (hasType e)).map j.word :=
  found_eq hj.toPaths (h.below hj) (hj.types e h.mem)

theorem mem_files : w ∈ j.files e ↔ ∃ l ∈ (j.before e).1.files, j.root <+: l ∧
    hasType e (nameOf l) = true ∧ j.Below l ∧ w = j.word l := by
  rw [h.files_eq hj, List.mem_map]
  constructor
  · rintro ⟨l, hl, rfl⟩
    obtain ⟨hmem, hunder, htype⟩ := mem_find.mp hl
    rw [start_files] at hmem
    exact ⟨l, hmem, hunder, htype, h.stage.below hj h.done_mem l hmem hunder, rfl⟩
  · rintro ⟨l, hmem, hunder, htype, -, rfl⟩
    rw [← start_files] at hmem
    exact ⟨l, mem_find.mpr ⟨hmem, hunder, htype⟩, rfl⟩

omit hj in
private theorem empty (n : Str) : j.place e n ∉ (j.before e).1.files := by
  intro hmem
  rcases h.stage.only _ hmem with hold | hcsv | ⟨e', he', -, n', -, heq, -⟩
  · exact place_not_cleared e n hold
  · exact csv_ne_place e n hcsv.symm
  · obtain ⟨rfl, -⟩ := place_inj heq
    exact h.new he'

theorem sources : j.Sources e (j.start e) (j.files e) := by
  refine ⟨?_, ?_, ?_⟩
  · intro w hw
    obtain ⟨l, -, -, -, hbelow, rfl⟩ := (h.mem_files hj).mp hw
    obtain ⟨-, -, hplain⟩ := hbelow.split
    rw [basename_word hbelow]
    exact hplain.toIsName
  · intro w hw
    obtain ⟨l, hmem, -, -, hbelow, rfl⟩ := (h.mem_files hj).mp hw
    rw [resolve_word hj.toPaths hbelow, Fs.isFile, start_files, AList.lookup_isSome]
    exact hmem
  · intro w hw n heq
    obtain ⟨l, hmem, -, -, hbelow, rfl⟩ := (h.mem_files hj).mp hw
    rw [resolve_word hj.toPaths hbelow] at heq
    rw [heq] at hmem
    exact h.empty n hmem

private theorem plain : Plain e := (fileTypes_plain hj.toPaths h.mem).1

omit hj in
private theorem seen_none (n : Str) : (j.start e).isFile (j.place e n) = true ↔ n ∈ ([] : List Str) := by
  have hnot : (j.start e).isFile (j.place e n) = false := by
    rw [not_isFile, start_files]
    exact h.empty n
  simp [hnot]

theorem takes_eq {ws : List Str} (hws : ws <+: j.files e) :
    j.takes e (descName e) ws (j.start e) = pick basename (descName e) [] ws :=
  (sortLoop_kept (h.plain hj).toIsName (h.plain hj).descName.toIsName ws (j.start e) 0 []
    ((h.sources hj).subset hws.subset) h.seen_none).1

theorem counted_eq : j.counted e = pick basename (descName e) [] (j.files e) :=
  h.takes_eq hj List.prefix_rfl

theorem loop : (j.files e).foldl (j.sortFile e (descName e)) (j.start e, 0) =
      (j.finish e, (j.counted e).length) ∧
    j.Kept e (descName e) (j.counted e) (j.start e) (j.finish e) := by
  obtain ⟨-, fs', hloop, hkept⟩ := sortLoop_kept (h.plain hj).toIsName
    (h.plain hj).descName.toIsName (j.files e) (j.start e) 0 [] (h.sources hj) h.seen_none
  have hfinish : j.finish e = fs' := by rw [finish, hloop]
  rw [hfinish, hloop, Nat.zero_add, h.counted_eq hj]
  exact ⟨rfl, hkept⟩

/-- The description file lists what is counted, if no counted file has its name. -/
theorem listing (hnot : descName e ∉ (j.counted e).map basename) (hne : j.counted e ≠ []) :
    (j.finish e).files.lookup (j.place e (descName e)) = some (unlines (j.counted e)) := by
  have hnone : (j.start e).files.lookup (j.place e (descName e)) = none := by
    rw [AList.lookup_eq_none, start_files]
    exact h.empty _
  rw [(h.loop hj).2.desc hnot hne, Fs.content, hnone]
  rfl

/-- Otherwise it lists them behind the text of that file. -/
theorem clash (hmem : descName e ∈ (j.counted e).map basename) : ∃ w ∈ j.counted e,
    basename w = descName e ∧ (j.finish e).files.lookup (j.place e (descName e)) =
      some ((j.start e).content (resolve j.cwd w) ++ unlines (j.counted e)) := by
  rw [h.counted_eq hj, mark_mem_pick] at hmem
  cases hfiles : j.files e with
  | nil => simp [hfiles] at hmem
  | cons w ws =>
    rw [hfiles, List.head?_cons, Option.map_some, Option.some.injEq] at hmem
    have hsources := h.sources hj
    rw [hfiles] at hsources
    refine ⟨w, by simp [h.counted_eq hj, hfiles, pick], hmem, ?_⟩
    rw [h.counted_eq hj, finish, hfiles]
    exact sortLoop_clash (h.plain hj).toIsName (h.plain hj).descName.toIsName hsources h.seen_none hmem

private theorem finish_only {n : Str} (hn : j.place e n ∈ (j.finish e).files) :
    n ∈ (j.counted e).map basename ∨ n = descName e := by
  by_contra hnot
  simp only [not_or] at hnot
  rw [← AList.lookup_isSome, (h.loop hj).2.other n hnot.1 hnot.2, start_files, AList.lookup_isSome] at hn
  exact h.empty n hn

private theorem finish_plain {n : Str} (hn : j.place e n ∈ (j.finish e).files) : Plain n := by
  rcases h.finish_only hj hn with hn | rfl
  · obtain ⟨w, hw, rfl⟩ := List.mem_map.mp hn
    rw [h.counted_eq hj] at hw
    obtain ⟨l, -, -, -, hbelow, rfl⟩ := (h.mem_files hj).mp (mem_of_pick hw)
    obtain ⟨-, -, hplain⟩ := hbelow.split
    rwa [basename_word hbelow]
  · exact (h.plain hj).descName

private theorem sortType_eq (ign : Nat) : j.sortType ((j.before e).1, ign) e =
    (if j.ignored e then (j.before e).1 else j.report (j.finish e) e (j.counted e).length,
      ign + j.ignoredFiles e) := by
  have hloop := (h.loop hj).1
  have hfiles : j.found (j.start e) (hasType e) = j.files e := rfl
  have htest : j.containsElement (j.before e).1 e = j.ignored e := rfl
  simp only [sortType, ignoredFiles, htest]
  cases hign : j.ignored e with
  | true =>
    have hstart : j.start e = (j.before e).1 := by rw [start, if_pos hign]
    rw [hstart] at hfiles
    simp [hfiles]
  | false =>
    have hstart : j.start e = (j.before e).1.mkdirP (j.at' [outputDir, e]) := by
      rw [start, if_neg (by simp [hign])]
    rw [hstart] at hfiles hloop
    simp [hfiles, hloop]

private theorem next : j.Stage (done ++ [e]) (j.sortType (j.before e) e).1 := by
  have hstage := h.stage
  rw [show j.before e = ((j.before e).1, (j.before e).2) from rfl, h.sortType_eq hj]
  cases hign : j.ignored e with
  | true =>
    simp only [if_true]
    refine ⟨hstage.old, ?_, ?_, ?_⟩
    · rw [hstage.table]
      simp [rowText, hign]
    · intro e' he' hign'
      rcases List.mem_append.mp he' with he' | he'
      · exact hstage.rows e' he' hign'
      · rw [List.mem_singleton.mp he', hign] at hign'
        contradiction
    · intro l hl
      rcases hstage.only l hl with hold | hcsv | ⟨e', he', hrest⟩
      · exact .inl hold
      · exact .inr (.inl hcsv)
      · exact .inr (.inr ⟨e', List.mem_append_left _ he', hrest⟩)
  | false =>
    obtain ⟨-, hkept⟩ := h.loop hj
    simp only [Bool.false_eq_true, if_false]
    have hother : ∀ l, l ≠ j.csv → (j.report (j.finish e) e (j.counted e).length).files.lookup l =
        (j.finish e).files.lookup l := fun l hl => Fs.lookup_append_of_ne hl
    have hplace : ∀ l, l ≠ j.csv → (∀ n, l ≠ j.place e n) →
        (j.report (j.finish e) e (j.counted e).length).files.lookup l = (j.before e).1.files.lookup l := by
      intro l hl hl'
      rw [hother l hl, hkept.outside l hl', start_files]
    refine ⟨?_, ?_, ?_, ?_⟩
    · intro l hl
      rw [hplace l, hstage.old l hl]
      · rintro rfl
        exact csv_not_cleared hl
      · rintro n rfl
        exact place_not_cleared e n hl
    · rw [report, Fs.lookup_append_self, Fs.content, hkept.outside _ (csv_ne_place e), start_files,
        hstage.table]
      simp [rowText, hign]
    · intro e' he' hign' n
      rcases List.mem_append.mp he' with hmem | hlast
      · rw [hplace _ (csv_ne_place _ _).symm, hstage.rows e' hmem hign']
        intro n' heq
        exact h.new ((place_inj heq).1 ▸ hmem)
      · rw [List.mem_singleton.mp hlast]
        exact hother _ (csv_ne_place _ _).symm
    · intro l hl
      by_cases hcsv : l = j.csv
      · exact .inr (.inl hcsv)
      · by_cases hrow : ∃ n, l = j.place e n
        · obtain ⟨n, rfl⟩ := hrow
          rw [← AList.lookup_isSome, hother _ hcsv, AList.lookup_isSome] at hl
          exact .inr (.inr ⟨e, by simp, hign, n, h.finish_plain hj hl, rfl, h.finish_only hj hl⟩)
        · simp only [not_exists] at hrow
          rw [← AList.lookup_isSome, hplace l hcsv hrow, AList.lookup_isSome] at hl
          rcases hstage.only l hl with hold | hcsv' | ⟨e', he', hrest⟩
          · exact .inl hold
          · exact absurd hcsv' hcsv
          · exact .inr (.inr ⟨e', List.mem_append_left _ he', hrest⟩)

end Next

section Types

theorem takeWhile_done (h : done ++ [e] <+: j.fileTypes) :
    e ∉ done ∧ j.fileTypes.takeWhile (· ≠ e) = done := by
  have hnodup := nodup_fileTypes.sublist h.sublist
  rw [List.nodup_append] at hnodup
  have hnot : e ∉ done := fun hmem => hnodup.2.2 e hmem e List.mem_cons_self rfl
  obtain ⟨rest, hrest⟩ := h
  refine ⟨hnot, ?_⟩
  rw [← hrest, List.append_assoc, List.takeWhile_append_of_pos]
  · simp
  · intro x hx
    simpa using fun heq : x = e => hnot (heq ▸ hx)

private theorem before_of_done (h : done ++ [e] <+: j.fileTypes) :
    j.before e = done.foldl j.sortType (j.begun, 0) := by
  rw [before, (takeWhile_done h).2]

private theorem begun_stage : j.Stage [] j.begun := by
  have hnone : j.cleared.files.lookup j.csv = none := AList.lookup_eq_none.mpr csv_not_cleared
  refine ⟨?_, ?_, by simp, ?_⟩
  · intro l hl
    apply Fs.lookup_append_of_ne
    rintro rfl
    exact csv_not_cleared hl
  · rw [begun, Fs.lookup_append_self]
    simp [Fs.content, hnone, header]
  · intro l hl
    by_cases hcsv : l = j.csv
    · exact .inr (.inl hcsv)
    · left
      rw [← AList.lookup_isSome, begun, Fs.lookup_append_of_ne hcsv] at hl
      exact AList.lookup_isSome.mp hl

variable (hj : j.Clean)
include hj

private theorem stage_done (done : List Str) (h : done <+: j.fileTypes) :
    j.Stage done (done.foldl j.sortType (j.begun, 0)).1 ∧
      (done.foldl j.sortType (j.begun, 0)).2 = (done.map j.ignoredFiles).sum := by
  induction done using List.reverseRecOn with
  | nil => exact ⟨begun_stage, rfl⟩
  | append_singleton done e ih =>
    obtain ⟨hstage, hsum⟩ := ih ((List.prefix_append _ _).trans h)
    have hbefore := before_of_done h
    have hnext : j.Next done e :=
      ⟨by rwa [hbefore], fun x hx => h.subset (List.mem_append_left _ hx), h.subset (by simp),
        (takeWhile_done h).1⟩
    rw [List.foldl_append, List.foldl_cons, List.foldl_nil, ← hbefore]
    refine ⟨hnext.next hj, ?_⟩
    rw [show j.before e = ((j.before e).1, (j.before e).2) from rfl, hnext.sortType_eq hj, hbefore, hsum]
    simp

private theorem next_of_done (h : done ++ [e] <+: j.fileTypes) : j.Next done e := by
  refine ⟨?_, fun x hx => h.subset (List.mem_append_left _ hx), h.subset (by simp),
    (takeWhile_done h).1⟩
  rw [before_of_done h]
  exact (stage_done hj done ((List.prefix_append _ _).trans h)).1

theorem exists_next (he : e ∈ j.fileTypes) : ∃ done, done ++ [e] <+: j.fileTypes ∧ j.Next done e := by
  obtain ⟨done, rest, hsplit⟩ := List.append_of_mem he
  have hpre : done ++ [e] <+: j.fileTypes := ⟨rest, by simp [hsplit]⟩
  exact ⟨done, hpre, next_of_done hj hpre⟩

end Types

section Others

variable (j)

def countedOthers : List Str :=
  j.takes othersName (descName j.lastType) j.othersFiles j.othersStart

def othersEnd : Fs := (j.sortOthers j.typesEnd.1).1

variable {j} (hj : j.Clean)
include hj

theorem typesEnd_stage : j.Stage j.fileTypes j.typesEnd.1 := (stage_done hj _ List.prefix_rfl).1

theorem mem_othersFiles : w ∈ j.othersFiles ↔ ∃ l ∈ j.typesEnd.1.files, j.root <+: l ∧
    '.' ∉ nameOf l ∧ j.Below l ∧ w = j.word l := by
  have hbelow := (typesEnd_stage hj).below hj fun e he => he
  have heq : j.othersFiles = (j.shell.find j.othersStart.files j.root hasNoDot).map j.word :=
    found_eq hj.toPaths (fun l hl hunder _ => hbelow l hl hunder) hj.others
  rw [heq, List.mem_map]
  constructor
  · rintro ⟨l, hl, rfl⟩
    obtain ⟨hmem, hunder, hdot⟩ := mem_find.mp hl
    exact ⟨l, hmem, hunder, of_decide_eq_true hdot, hbelow l hmem hunder, rfl⟩
  · rintro ⟨l, hmem, hunder, hdot, -, rfl⟩
    exact ⟨l, mem_find.mpr ⟨hmem, hunder, decide_eq_true hdot⟩, rfl⟩

private theorem dot_of_place {row n : Str} (h : j.place row n ∈ j.typesEnd.1.files) : '.' ∈ n := by
  rcases (typesEnd_stage hj).only _ h with hold | hcsv | ⟨e, he, -, n', -, heq, hn⟩
  · exact absurd hold (place_not_cleared row n)
  · exact absurd hcsv.symm (csv_ne_place row n)
  · rw [(place_inj heq).2]
    rcases hn with hn | rfl
    · obtain ⟨w, hw, rfl⟩ := List.mem_map.mp hn
      obtain ⟨done, -, hnext⟩ := exists_next hj he
      rw [hnext.counted_eq hj] at hw
      obtain ⟨l, -, -, htype, hbelow, rfl⟩ := (hnext.mem_files hj).mp (mem_of_pick hw)
      rw [basename_word hbelow]
      exact hasType_dot htype
    · exact dot_mem_descName e

theorem others_old (hl : l ∈ j.typesEnd.1.files) (hdot : '.' ∉ nameOf l) : l ∈ j.cleared.files := by
  rcases (typesEnd_stage hj).only l hl with hold | rfl | ⟨e, -, -, n, -, rfl, -⟩
  · exact hold
  · rw [csv_eq] at hdot
    exact absurd (by simp [nameOf]; decide) hdot
  · have hname : nameOf (j.place e n) = n := by simp [nameOf, place]
    rw [hname] at hdot
    exact absurd (dot_of_place hj hl) hdot

private theorem plain_lastType : IsName (descName j.lastType) := by
  rw [lastType]
  cases hlast : j.fileTypes.getLast? with
  | none => exact (plain_descName (n := []) (by simp) (by simp) (by simp)).toIsName
  | some e => exact (fileTypes_plain hj.toPaths (List.mem_of_getLast? hlast)).1.descName.toIsName

private theorem others_sources : j.Sources othersName j.othersStart j.othersFiles := by
  refine ⟨?_, ?_, ?_⟩
  · intro w hw
    obtain ⟨l, -, -, -, hbelow, rfl⟩ := (mem_othersFiles hj).mp hw
    obtain ⟨-, -, hplain⟩ := hbelow.split
    rw [basename_word hbelow]
    exact hplain.toIsName
  · intro w hw
    obtain ⟨l, hmem, -, -, hbelow, rfl⟩ := (mem_othersFiles hj).mp hw
    rw [resolve_word hj.toPaths hbelow, Fs.isFile, AList.lookup_isSome]
    exact hmem
  · intro w hw n heq
    obtain ⟨l, hmem, -, hdot, hbelow, rfl⟩ := (mem_othersFiles hj).mp hw
    rw [resolve_word hj.toPaths hbelow] at heq
    exact place_not_cleared _ _ (heq ▸ others_old hj hmem hdot)

omit hj in
private theorem exists_seen (fs : Fs) (row : Str) :
    ∃ seen : List Str, ∀ n, fs.isFile (j.place row n) = true ↔ n ∈ seen := by
  refine ⟨(fs.files.keys.filter fun l => l = j.place row (nameOf l)).map nameOf, ?_⟩
  intro n
  have hname : nameOf (j.place row n) = n := by simp [nameOf, place]
  rw [Fs.isFile, AList.lookup_isSome, AList.mem_keys, List.mem_map]
  constructor
  · intro h
    exact ⟨_, List.mem_filter.mpr ⟨h, by simp [hname]⟩, hname⟩
  · rintro ⟨l, hl, rfl⟩
    obtain ⟨hmem, heq⟩ := List.mem_filter.mp hl
    rwa [← of_decide_eq_true heq]

/-- The loop over the files without a dot, or a part of it; what is in the directory already has a
dot in its name. -/
theorem others_part {ws : List Str} (hws : ws <+: j.othersFiles) :
    j.takes othersName (descName j.lastType) ws j.othersStart =
        pick basename (descName j.lastType) [] ws ∧
    ∃ fs', ws.foldl (j.sortFile othersName (descName j.lastType)) (j.othersStart, 0) =
        (fs', (pick basename (descName j.lastType) [] ws).length) ∧
      j.Kept othersName (descName j.lastType) (pick basename (descName j.lastType) [] ws) j.othersStart
        fs' := by
  obtain ⟨seen, hseen⟩ := exists_seen j.othersStart othersName
  have hpick : pick basename (descName j.lastType) seen ws = pick basename (descName j.lastType) [] ws := by
    apply pick_congr
    intro w hw
    obtain ⟨l, -, -, hdot, hbelow, rfl⟩ := (mem_othersFiles hj).mp (hws.subset hw)
    rw [basename_word hbelow]
    constructor
    · intro hmem
      have hfile := (hseen _).mpr hmem
      rw [Fs.isFile, AList.lookup_isSome] at hfile
      exact absurd (dot_of_place hj hfile) hdot
    · intro hmem
      contradiction
  have hloop := sortLoop_kept plain_others.toIsName (plain_lastType hj) ws j.othersStart 0 seen
    ((others_sources hj).subset hws.subset) hseen
  rwa [hpick, Nat.zero_add] at hloop

theorem countedOthers_eq : j.countedOthers = pick basename (descName j.lastType) [] j.othersFiles :=
  (others_part hj List.prefix_rfl).1

theorem others_loop : j.sortOthers j.typesEnd.1 = (j.othersEnd, j.countedOthers.length) ∧
    j.Kept othersName (descName j.lastType) j.countedOthers j.othersStart j.othersEnd := by
  obtain ⟨-, fs', hloop, hkept⟩ := others_part hj List.prefix_rfl
  rw [← countedOthers_eq hj] at hloop hkept
  have hsort : j.sortOthers j.typesEnd.1 = (fs', j.countedOthers.length) := hloop
  have hend : j.othersEnd = fs' := by rw [othersEnd, hsort]
  rw [hend, hsort]
  exact ⟨rfl, hkept⟩

omit hj in
/-- After the loops: the rows are done, and what was found without a dot is sorted. -/
structure Finished (j : Job) : Prop where
  stage : j.Stage j.fileTypes j.typesEnd.1
  sum : j.typesEnd.2 = (j.fileTypes.map j.ignoredFiles).sum
  loop : j.sortOthers j.typesEnd.1 = (j.othersEnd, j.countedOthers.length)
  kept : j.Kept othersName (descName j.lastType) j.countedOthers j.othersStart j.othersEnd

theorem Clean.finished : j.Finished where
  stage := typesEnd_stage hj
  sum := (stage_done hj _ List.prefix_rfl).2
  loop := (others_loop hj).1
  kept := (others_loop hj).2

end Others

namespace Finished

variable (h : j.Finished)
include h

private theorem run_eq : j.run = j.report (j.report j.othersEnd othersName j.countedOthers.length)
    "ignored".toList (j.fileTypes.map j.ignoredFiles).sum := by
  have htypes : j.fileTypes.foldl j.sortType (j.begun, 0) =
      (j.typesEnd.1, (j.fileTypes.map j.ignoredFiles).sum) := by
    rw [← h.sum]
    rfl
  simp only [run, htypes, h.loop]

theorem run_lookup (hl : l ≠ j.csv) : j.run.files.lookup l = j.othersEnd.files.lookup l := by
  rw [h.run_eq, report, Fs.lookup_append_of_ne hl, report, Fs.lookup_append_of_ne hl]

/-- `output.csv` at the end. -/
theorem run_table : j.run.files.lookup j.csv = some (header ++ j.fileTypes.flatMap j.rowText ++
    csvLine othersName (Nat.toDigits 10 j.countedOthers.length) ++
    csvLine "ignored".toList (Nat.toDigits 10 (j.fileTypes.map j.ignoredFiles).sum)) := by
  have hcsv : j.othersEnd.files.lookup j.csv = some (header ++ j.fileTypes.flatMap j.rowText) := by
    rw [h.kept.outside _ (csv_ne_place othersName)]
    exact h.stage.table
  rw [h.run_eq, report, Fs.lookup_append_self, report, Fs.content, Fs.lookup_append_self, Fs.content, hcsv]
  rfl

theorem run_old (hl : l ∈ j.cleared.files) : j.run.files.lookup l = j.cleared.files.lookup l := by
  have hne : l ≠ j.csv := by
    rintro rfl
    exact csv_not_cleared hl
  rw [h.run_lookup hne, h.kept.outside, ← h.stage.old l hl]
  · rfl
  · rintro n rfl
    exact place_not_cleared _ _ hl

end Finished

section Removed

variable (j)

/-- The script removes its working directory. -/
def Removed : Prop := resolve j.cwd outputDir <+: j.root ∨ j.csv <+: j.root

variable {j}

namespace Removed

variable (h : j.Removed)
include h

private theorem not_under (hl : l ∈ j.cleared.files) : ¬ j.root <+: l := by
  obtain ⟨-, hdir, hcsv⟩ := mem_cleared.mp hl
  intro hunder
  rcases h with h | h
  · rw [output_eq] at h
    exact hdir (h.trans hunder)
  · exact hcsv (h.trans hunder)

theorem tree_eq : j.tree = [] := by
  rw [List.eq_nil_iff_forall_not_mem]
  intro l hl
  obtain ⟨hmem, hunder⟩ := mem_tree.mp hl
  exact h.not_under hmem hunder

theorem fileTypes_eq : j.fileTypes = [] := by
  have hfind : j.shell.find j.cleared.files j.root (fun _ => true) = [] := by
    rw [List.eq_nil_iff_forall_not_mem]
    intro l hl
    obtain ⟨hmem, hunder, -⟩ := (@mem_find j l j.cleared _).mp hl
    exact h.not_under hmem hunder
  rw [fileTypes, findText, hfind]
  rfl

/-- The table has a dot in its name. -/
theorem othersFiles_eq : j.othersFiles = [] := by
  have hfind : j.shell.find j.othersStart.files j.root hasNoDot = [] := by
    rw [List.eq_nil_iff_forall_not_mem]
    intro l hl
    obtain ⟨hmem, hunder, hdot⟩ := mem_find.mp hl
    have htypes : j.othersStart.files = j.begun.files := by
      rw [othersStart, typesEnd, h.fileTypes_eq]
      rfl
    rw [htypes] at hmem
    rcases begun_stage.only l hmem with hold | rfl | ⟨e, he, -⟩
    · exact h.not_under hold hunder
    · rw [csv_eq] at hdot
      exact absurd hdot (by simp [nameOf]; decide)
    · contradiction
  rw [othersFiles, found, findText, hfind]
  rfl

theorem countedOthers_eq : j.countedOthers = [] := by
  rw [countedOthers, h.othersFiles_eq]
  rfl

theorem finished : j.Finished := by
  have hend : j.typesEnd = (j.begun, 0) := by
    rw [typesEnd, h.fileTypes_eq]
    rfl
  have hsort : j.sortOthers j.typesEnd.1 = (j.othersStart, 0) := by
    have hfiles : j.found (j.typesEnd.1.mkdirP (j.at' [outputDir, othersName])) hasNoDot = [] :=
      h.othersFiles_eq
    rw [sortOthers, hfiles]
    rfl
  have hlast : j.othersEnd = j.othersStart := by rw [othersEnd, hsort]
  refine ⟨?_, ?_, ?_, ?_⟩
  · rw [hend, h.fileTypes_eq]
    exact begun_stage
  · rw [hend, h.fileTypes_eq]
    rfl
  · rw [hsort, hlast, h.countedOthers_eq]
    rfl
  · rw [hlast, h.countedOthers_eq]
    exact ⟨fun _ => rfl, fun _ _ => rfl, fun _ _ _ => rfl, by simp, by simp⟩

end Removed

end Removed

end Job

end OsSessional.Sorter
