import OsSessional.Sorter.Rows

/-!
# What `find` and `grep` give

For a working directory without newlines in its paths: where pathname expansion leaves the paths alone,
the loops go over the files that `find` lists, one word a file, and the extensions are the parts of
names after the last dot, as far as they are made of word characters.
-/

namespace OsSessional.Sorter

section Grep

variable {isWord : Char → Bool} {line e t name : Str}

theorem grepType_eq_some (hdot : isWord '.' = false) : grepType isWord line = some t ↔
    ∃ e, t = '.' :: e ∧ e ≠ [] ∧ e.all isWord = true ∧ t <:+ line := by
  induction line with
  | nil =>
    constructor
    · intro h
      simp [grepType] at h
    · rintro ⟨e, rfl, -, -, hsuffix⟩
      simp at hsuffix
  | cons ch line ih =>
    unfold grepType
    split
    · next h =>
      obtain ⟨rfl, hne, hall⟩ := h
      constructor
      · intro heq
        obtain rfl : '.' :: line = t := Option.some.inj heq
        exact ⟨line, rfl, hne, hall, List.suffix_rfl⟩
      · rintro ⟨e, rfl, -, -, hsuffix⟩
        rcases List.suffix_cons_iff.mp hsuffix with heq | hsuffix
        · rw [heq]
        · -- a dot further on would be a word character
          have hmem : '.' ∈ line := hsuffix.subset List.mem_cons_self
          rw [List.all_eq_true.mp hall _ hmem] at hdot
          contradiction
    · next h =>
      rw [ih]
      constructor
      · rintro ⟨e, rfl, hne, hall, hsuffix⟩
        exact ⟨e, rfl, hne, hall, hsuffix.trans (List.suffix_cons ch line)⟩
      · rintro ⟨e, rfl, hne, hall, hsuffix⟩
        rcases List.suffix_cons_iff.mp hsuffix with heq | hsuffix
        · obtain ⟨rfl, rfl⟩ := List.cons.inj heq
          exact absurd ⟨rfl, hne, hall⟩ h
        · exact ⟨e, rfl, hne, hall, hsuffix⟩

private theorem grepType_path (hslash : isWord '/' = false) (init : Str) :
    grepType isWord (init ++ '/' :: name) = grepType isWord name := by
  induction init with
  | nil => simp [grepType]
  | cons ch init ih =>
    rw [List.cons_append, grepType, if_neg, ih]
    rintro ⟨-, -, hall⟩
    rw [List.all_append, List.all_cons, hslash] at hall
    simp at hall

private theorem hasType_iff (hdot : isWord '.' = false) (hne : e ≠ []) (hall : e.all isWord = true) :
    hasType e name = true ↔ grepType isWord name = some ('.' :: e) := by
  rw [grepType_eq_some hdot, hasType, List.isSuffixOf_iff_suffix]
  constructor
  · exact fun h => ⟨e, rfl, hne, hall, h⟩
  · exact fun h => h.choose_spec.2.2.2

theorem hasType_dot (h : hasType e name = true) : '.' ∈ name :=
  (List.isSuffixOf_iff_suffix.mp h).subset List.mem_cons_self

end Grep

section Fields

variable {lines : List Str} {text : Str}

theorem fields_unlines (h : ∀ l ∈ lines, l ≠ [] ∧ '\n' ∉ l) : fields (unlines lines) = lines := by
  induction lines with
  | nil => simp [fields, unlines]
  | cons l lines ih =>
    have hl := h l List.mem_cons_self
    have htext : unlines (l :: lines) = l ++ '\n' :: unlines lines := by simp [unlines]
    have htail := ih fun m hm => h m (List.mem_cons_of_mem _ hm)
    rw [fields] at htail ⊢
    rw [htext, List.splitOn_append_cons_self, List.splitOn_eq_singleton hl.2, List.filter_append, htail]
    simp [hl.1]

private theorem mem_sortU {le : Str → Str → Bool} {l : Str} : l ∈ sortU le lines ↔ l ∈ lines := by
  simp [sortU, (List.perm_insertionSort _ _).mem_iff]

private theorem nodup_sortU {le : Str → Str → Bool} : (sortU le lines).Nodup :=
  (List.perm_insertionSort _ _).nodup_iff.mpr (List.nodup_dedup _)

end Fields

theorem Shell.word_dot (shell : Shell) : shell.isWord '.' = false := by
  by_contra h
  exact (shell.word_plain '.' (by simpa using h)).2.1 rfl

private theorem Shell.word_slash (shell : Shell) : shell.isWord '/' = false := by
  by_contra h
  exact (shell.word_plain '/' (by simpa using h)).2.2 rfl

section Names

variable {n e : Str}

theorem plain_descName (hslash : '/' ∉ n) (hnul : '\x00' ∉ n) (hline : '\n' ∉ n) : Plain (descName n) := by
  have hmem : ∀ ch ∈ descName n, ch ∈ "desc_".toList ∨ ch ∈ n ∨ ch ∈ ".txt".toList := by
    intro ch hch
    rcases List.mem_append.mp hch with hch | hch
    · exact (List.mem_append.mp hch).imp_right .inl
    · exact .inr (.inr hch)
  have hd : 'd' ∈ descName n := List.mem_append_left _ (List.mem_append_left _ (by decide))
  refine ⟨⟨List.ne_nil_of_mem hd, fun hch => ?_, fun hch => ?_, ?_, ?_⟩, fun hch => ?_⟩
  · rcases hmem _ hch with h' | h' | h'
    · exact absurd h' (by decide)
    · exact hslash h'
    · exact absurd h' (by decide)
  · rcases hmem _ hch with h' | h' | h'
    · exact absurd h' (by decide)
    · exact hnul h'
    · exact absurd h' (by decide)
  · intro heq
    rw [heq] at hd
    exact absurd hd (by decide)
  · intro heq
    rw [heq] at hd
    exact absurd hd (by decide)
  · rcases hmem _ hch with h' | h' | h'
    · exact absurd h' (by decide)
    · exact hline h'
    · exact absurd h' (by decide)

theorem Plain.descName (h : Plain n) : Plain (descName n) := plain_descName h.slash h.nul h.line

theorem dot_mem_descName (n : Str) : '.' ∈ descName n := List.mem_append_right _ (by decide)

theorem plain_csv : Plain outputCsv := by decide

theorem plain_others : Plain othersName := by decide

theorem plain_outputDir : Plain outputDir := by decide

theorem descName_inj {n n' : Str} (h : descName n = descName n') : n = n' :=
  List.append_cancel_left (List.append_cancel_right h)

/-- A description file ends in `.txt`. -/
theorem hasType_descName (hdot : '.' ∉ e) : hasType e (descName n) = true ↔ e = "txt".toList := by
  rw [hasType, List.isSuffixOf_iff_suffix]
  constructor
  · intro h
    have hsuffix : '.' :: "txt".toList <:+ descName n := List.suffix_append _ _
    rcases List.suffix_or_suffix_of_suffix h hsuffix with h | h
    · rcases List.suffix_cons_iff.mp h with heq | h
      · exact (List.cons.inj heq).2
      · exact absurd (h.subset List.mem_cons_self) (by decide)
    · rcases List.suffix_cons_iff.mp h with heq | h
      · exact (List.cons.inj heq).2.symm
      · exact absurd (h.subset List.mem_cons_self) hdot
  · rintro rfl
    exact List.suffix_append _ _

theorem hasType_csv (hdot : '.' ∉ e) : hasType e outputCsv = true ↔ e = "csv".toList := by
  rw [hasType, List.isSuffixOf_iff_suffix]
  have hsuffix : '.' :: "csv".toList <:+ outputCsv := by decide
  constructor
  · intro h
    rcases List.suffix_or_suffix_of_suffix h hsuffix with h | h
    · rcases List.suffix_cons_iff.mp h with heq | h
      · exact (List.cons.inj heq).2
      · exact absurd (h.subset List.mem_cons_self) (by decide)
    · rcases List.suffix_cons_iff.mp h with heq | h
      · exact (List.cons.inj heq).2.symm
      · exact absurd (h.subset List.mem_cons_self) hdot
  · rintro rfl
    exact hsuffix

end Names

namespace Job

variable (j : Job)

/-- The path of a file below the working directory, as `find` prints it. -/
def word (l : Loc) : Str := printed j.dir (l.drop j.root.length)

/-- A location below the working directory, by names that are parts of a line. -/
structure Below (l : Loc) : Prop where
  under : j.root <+: l
  ne : l ≠ j.root
  plain : ∀ n ∈ l.drop j.root.length, Plain n

/-- What the arguments are like. `cut` and `find` take them as paths, no path leads out of a directory
that the script removes, the working directory is not removed, and its paths are lines. -/
structure Paths : Prop where
  input_path : j.input.head? ≠ some '-'
  dir_ne : j.dir ≠ []
  dir_line : '\n' ∉ j.dir ∧ '\x00' ∉ j.dir
  dir_path : j.dir.head? ≠ some '-' ∧ j.dir ≠ ['('] ∧ j.dir ≠ ['!']
  leaves_kept : ∀ l ∈ leaves j.cwd j.input ++ leaves j.cwd j.dir,
    j.fs.isDir l = true ∧ ¬ resolve j.cwd outputDir <+: l ∧ ¬ j.csv <+: l
  dir_stays : ¬ resolve j.cwd outputDir <+: j.root ∧ ¬ j.csv <+: j.root
  below : ∀ l ∈ j.cleared.files, j.root <+: l → j.Below l
  cwd : j.root <+: j.cwd → ∀ n ∈ j.cwd.drop j.root.length, Plain n

instance (l : Loc) : Decidable (j.Below l) :=
  decidable_of_iff (j.root <+: l ∧ l ≠ j.root ∧ ∀ n ∈ l.drop j.root.length, Plain n)
    ⟨fun h => ⟨h.1, h.2.1, h.2.2⟩, fun h => ⟨h.under, h.ne, h.plain⟩⟩

instance : Decidable j.Paths :=
  decidable_of_iff (j.input.head? ≠ some '-' ∧ j.dir ≠ [] ∧ ('\n' ∉ j.dir ∧ '\x00' ∉ j.dir) ∧
      (j.dir.head? ≠ some '-' ∧ j.dir ≠ ['('] ∧ j.dir ≠ ['!']) ∧
      (∀ l ∈ leaves j.cwd j.input ++ leaves j.cwd j.dir,
        j.fs.isDir l = true ∧ ¬ resolve j.cwd outputDir <+: l ∧ ¬ j.csv <+: l) ∧
      (¬ resolve j.cwd outputDir <+: j.root ∧ ¬ j.csv <+: j.root) ∧
      (∀ l ∈ j.cleared.files.keys, j.root <+: l → j.Below l) ∧
      (j.root <+: j.cwd → ∀ n ∈ j.cwd.drop j.root.length, Plain n))
    ⟨fun h => ⟨h.1, h.2.1, h.2.2.1, h.2.2.2.1, h.2.2.2.2.1, h.2.2.2.2.2.1,
        fun l hl => h.2.2.2.2.2.2.1 l (AList.mem_keys.mp hl), h.2.2.2.2.2.2.2⟩,
      fun h => ⟨h.input_path, h.dir_ne, h.dir_line, h.dir_path, h.leaves_kept, h.dir_stays,
        fun l hl => h.below l (AList.mem_keys.mpr hl), h.cwd⟩⟩

/-- The files of the working directory when the extensions are collected. -/
def tree : List Loc := j.cleared.files.keys.filter fun l => j.root.isPrefixOf l

variable {j} {l l' : Loc} {fs : Fs} {test : Str → Bool} {e w : Str}

private theorem Below.rel_ne (h : j.Below l) : l.drop j.root.length ≠ [] := by
  obtain ⟨rel, rfl⟩ := h.under
  rw [List.drop_left]
  intro hnil
  exact h.ne (by rw [hnil, List.append_nil])

private theorem Below.isName (h : j.Below l) : ∀ n ∈ l.drop j.root.length, IsName n :=
  fun n hn => (h.plain n hn).toIsName

/-- The last name of a file below the working directory. -/
theorem Below.split (h : j.Below l) : ∃ rel, l.drop j.root.length = rel ++ [nameOf l] ∧ Plain (nameOf l) := by
  obtain ⟨rel, n, hsplit⟩ := (List.eq_nil_or_concat _).resolve_left h.rel_ne
  rw [List.concat_eq_append] at hsplit
  have hl : l = j.root ++ (rel ++ [n]) := by
    rw [← hsplit]
    obtain ⟨rest, rfl⟩ := h.under
    rw [List.drop_left]
  have hname : nameOf l = n := by
    rw [hl, ← List.append_assoc]
    simp [nameOf]
  rw [hname]
  exact ⟨rel, hsplit, h.plain n (by simp [hsplit])⟩

theorem tree_below (hj : j.Paths) (h : l ∈ j.tree) : j.Below l := by
  obtain ⟨hmem, hunder⟩ := List.mem_filter.mp h
  exact hj.below l (AList.mem_keys.mpr hmem) (List.isPrefixOf_iff_prefix.mp hunder)

theorem mem_tree : l ∈ j.tree ↔ l ∈ j.cleared.files ∧ j.root <+: l := by
  simp [tree, AList.mem_keys, List.isPrefixOf_iff_prefix]

theorem nodup_tree : j.tree.Nodup := j.cleared.files.keys_nodup.filter _

section Words

variable (hj : j.Paths)
include hj

theorem resolve_word (h : j.Below l) : resolve j.cwd (j.word l) = l := by
  rw [word, resolve_printed h.isName h.rel_ne hj.dir_ne]
  obtain ⟨rest, rfl⟩ := h.under
  rw [List.drop_left, root]

theorem word_inj (h : j.Below l) (h' : j.Below l') (heq : j.word l = j.word l') : l = l' := by
  rw [← resolve_word hj h, heq, resolve_word hj h']

omit hj in
theorem basename_word (h : j.Below l) : basename (j.word l) = nameOf l := by
  obtain ⟨rel, hsplit, hname⟩ := h.split
  have hall := h.isName
  rw [word, hsplit]
  rw [hsplit] at hall
  exact basename_printed (fun m hm => hall m (List.mem_append_left _ hm)) hname.toIsName

theorem word_line (h : j.Below l) : j.word l ≠ [] ∧ '\n' ∉ j.word l := by
  constructor
  · intro hnil
    have hslash : slashed j.dir = [] := (List.append_eq_nil_iff.mp hnil).1
    obtain ⟨init, heq, -⟩ := slashed_eq j.dir
    simp [heq] at hslash
  · intro hch
    rcases List.mem_append.mp hch with hch | hch
    · unfold slashed at hch
      split at hch
      · exact hj.dir_line.1 hch
      · rcases List.mem_append.mp hch with hch | hch
        · exact hj.dir_line.1 hch
        · exact absurd hch (by decide)
    · rcases mem_joined hch with heq | ⟨n, hn, hch⟩
      · exact absurd heq (by decide)
      · exact (h.plain n hn).line hch

omit hj in
private theorem words_eq {text : Str} (h : ∀ w ∈ fields text, j.shell.glob fs j.cwd w = [w]) :
    j.words fs text = fields text := by
  rw [words, List.flatMap_congr h]
  simp

omit hj in
/-- What `find` lists below the working directory. -/
theorem mem_find : l ∈ j.shell.find fs.files j.root test ↔
    l ∈ fs.files ∧ j.root <+: l ∧ test (nameOf l) = true := by
  rw [(j.shell.find_perm fs.files j.root test).mem_iff]
  simp [AList.mem_keys, List.isPrefixOf_iff_prefix]

theorem fields_findText (hfs : ∀ l ∈ fs.files, j.root <+: l → test (nameOf l) = true → j.Below l) :
    fields (j.findText fs.files test) = (j.shell.find fs.files j.root test).map j.word := by
  apply fields_unlines
  intro w hw
  obtain ⟨l, hl, rfl⟩ := List.mem_map.mp hw
  obtain ⟨hmem, hunder, htest⟩ := mem_find.mp hl
  exact word_line hj (hfs l hmem hunder htest)

/-- The loops go over what `find` lists. -/
theorem found_eq (hfs : ∀ l ∈ fs.files, j.root <+: l → test (nameOf l) = true → j.Below l)
    (hglob : ∀ w ∈ fields (j.findText fs.files test), j.shell.glob fs j.cwd w = [w]) :
    j.found fs test = (j.shell.find fs.files j.root test).map j.word := by
  rw [found, words_eq hglob, fields_findText hj hfs]

theorem nodup_found (hfs : ∀ l ∈ fs.files, j.root <+: l → test (nameOf l) = true → j.Below l)
    (hglob : ∀ w ∈ fields (j.findText fs.files test), j.shell.glob fs j.cwd w = [w]) :
    (j.found fs test).Nodup := by
  rw [found_eq hj hfs hglob]
  apply List.Nodup.map_on
  · intro l hl l' hl' heq
    obtain ⟨hmem, hunder, htest⟩ := mem_find.mp hl
    obtain ⟨hmem', hunder', htest'⟩ := mem_find.mp hl'
    exact word_inj hj (hfs l hmem hunder htest) (hfs l' hmem' hunder' htest') heq
  · rw [(j.shell.find_perm fs.files j.root test).nodup_iff]
    exact fs.files.keys_nodup.filter _

/-- The extensions are those of the files in the tree. -/
theorem mem_fileTypes : e ∈ j.fileTypes ↔
    ∃ l ∈ j.tree, grepType j.shell.isWord (nameOf l) = some ('.' :: e) := by
  have hfields := @fields_findText j j.cleared (fun _ => true) hj fun l hl hunder _ =>
    hj.below l hl hunder
  have hgrep : ∀ l, j.Below l → grepType j.shell.isWord (j.word l) =
      grepType j.shell.isWord (nameOf l) := by
    intro l hl
    obtain ⟨rel, hsplit, -⟩ := hl.split
    obtain ⟨init, hinit⟩ := printed_name j.dir rel (nameOf l)
    rw [word, hsplit, hinit, grepType_path j.shell.word_slash]
  rw [fileTypes, hfields]
  constructor
  · intro h
    obtain ⟨t, ht, rfl⟩ := List.mem_map.mp h
    obtain ⟨w, hw, hgrepped⟩ := List.mem_filterMap.mp (mem_sortU.mp ht)
    obtain ⟨l, hl, rfl⟩ := List.mem_map.mp hw
    obtain ⟨hmem, hunder, -⟩ := (@mem_find j l j.cleared _).mp hl
    rw [hgrep l (hj.below l hmem hunder)] at hgrepped
    obtain ⟨e, rfl, -⟩ := (grepType_eq_some j.shell.word_dot).mp hgrepped
    exact ⟨l, mem_tree.mpr ⟨hmem, hunder⟩, hgrepped⟩
  · rintro ⟨l, hl, hgrepped⟩
    obtain ⟨hmem, hunder⟩ := mem_tree.mp hl
    refine List.mem_map.mpr ⟨'.' :: e, mem_sortU.mpr (List.mem_filterMap.mpr ⟨j.word l, ?_, ?_⟩), rfl⟩
    · exact List.mem_map_of_mem ((@mem_find j l j.cleared _).mpr ⟨hmem, hunder, rfl⟩)
    · rw [hgrep l (hj.below l hmem hunder), hgrepped]

theorem fileTypes_word (h : e ∈ j.fileTypes) : e ≠ [] ∧ e.all j.shell.isWord = true := by
  obtain ⟨l, -, hgrep⟩ := (mem_fileTypes hj).mp h
  obtain ⟨e', heq, hne, hall, -⟩ := (grepType_eq_some j.shell.word_dot).mp hgrep
  obtain rfl : e = e' := (List.cons.inj heq).2
  exact ⟨hne, hall⟩

theorem fileTypes_plain (h : e ∈ j.fileTypes) : Plain e ∧ '.' ∉ e := by
  obtain ⟨hne, hall⟩ := fileTypes_word hj h
  have hword : ∀ ch ∈ e, ch ∉ special ∧ ch ≠ '.' ∧ ch ≠ '/' := fun ch hch =>
    j.shell.word_plain ch (List.all_eq_true.mp hall ch hch)
  have hdot : '.' ∉ e := fun hmem => (hword _ hmem).2.1 rfl
  refine ⟨⟨⟨hne, fun hmem => (hword _ hmem).2.2 rfl, fun hmem => (hword _ hmem).1 (by decide), ?_, ?_⟩,
    fun hmem => (hword _ hmem).1 (by decide)⟩, hdot⟩
  · rintro rfl
    simp at hdot
  · rintro rfl
    simp at hdot

theorem fileTypes_iff (h : e ∈ j.fileTypes) (name : Str) :
    hasType e name = true ↔ grepType j.shell.isWord name = some ('.' :: e) :=
  hasType_iff j.shell.word_dot (fileTypes_word hj h).1 (fileTypes_word hj h).2

omit hj in
theorem nodup_fileTypes : j.fileTypes.Nodup := by
  apply List.Nodup.map_on _ nodup_sortU
  have hgrep : ∀ t ∈ sortU j.shell.le ((fields (j.findText j.cleared.files fun _ => true)).filterMap
      (grepType j.shell.isWord)), ∃ e, t = '.' :: e := by
    intro t ht
    obtain ⟨w, -, hw⟩ := List.mem_filterMap.mp (mem_sortU.mp ht)
    obtain ⟨e, heq, -⟩ := (grepType_eq_some j.shell.word_dot).mp hw
    exact ⟨e, heq⟩
  intro t ht t' ht' heq
  obtain ⟨e, rfl⟩ := hgrep t ht
  obtain ⟨e', rfl⟩ := hgrep t' ht'
  rw [List.drop_succ_cons, List.drop_succ_cons, List.drop_zero, List.drop_zero] at heq
  rw [heq]

end Words

end Job

end OsSessional.Sorter
