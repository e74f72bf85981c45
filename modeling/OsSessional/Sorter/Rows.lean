import OsSessional.Lib.Firsts
import OsSessional.Sorter.Script

/-!
# One row

What the inner loop does for one row: it keeps the first file of every basename, copies it, and
appends its path to the description file. From the first file on the description file is there as
well, under a name that an input file may have.
-/

namespace OsSessional.Sorter

open Firsts

/-- A name that is one line, or a part of one. -/
structure Plain (n : Str) : Prop extends IsName n where
  line : '\n' ∉ n

instance (n : Str) : Decidable (Plain n) :=
  decidable_of_iff (IsName n ∧ '\n' ∉ n) ⟨fun h => ⟨h.1, h.2⟩, fun h => ⟨h.toIsName, h.line⟩⟩

namespace Fs

variable {fs : Fs} {l l' : Loc} {s : Str}

theorem isFile_iff : fs.isFile l = true ↔ ∃ s, fs.files.lookup l = some s := Option.isSome_iff_exists

private theorem isFile_congr {fs' : Fs} (h : fs'.files.lookup l = fs.files.lookup l) :
    fs'.isFile l = fs.isFile l := by
  rw [isFile, isFile, h]

theorem content_of_lookup (h : fs.files.lookup l = some s) : fs.content l = s := by
  rw [content, h]
  rfl

private theorem lookup_of_isFile (h : fs.isFile l = true) : fs.files.lookup l = some (fs.content l) := by
  obtain ⟨s, hs⟩ := isFile_iff.mp h
  rw [content_of_lookup hs, hs]

end Fs

namespace Job

variable (j : Job)

/-- The file `n` in the directory of a row. -/
def place (row n : Str) : Loc := j.cwd ++ [outputDir, row, n]

/-- The files that the inner loop counts. -/
def takes (row desc : Str) : List Str → Fs → List Str
  | [], _ => []
  | name :: names, fs =>
    if fs.isFile (j.at' [outputDir, row, basename name]) then takes row desc names fs
    else name :: takes row desc names (j.sortFile row desc (fs, 0) name).1

variable {j} {row desc n : Str}

private theorem isName_outputDir : IsName outputDir := by decide

theorem at_file (hrow : IsName row) (hn : IsName n) : j.at' [outputDir, row, n] = j.place row n := by
  apply resolve_joined
  · intro m hm
    simp only [List.mem_cons, List.not_mem_nil, or_false] at hm
    rcases hm with rfl | rfl | rfl
    · exact isName_outputDir
    · exact hrow
    · exact hn
  · simp

theorem at_row (hrow : IsName row) : j.at' [outputDir, row] ++ [n] = j.place row n := by
  have hat : j.at' [outputDir, row] = j.cwd ++ [outputDir, row] := by
    apply resolve_joined
    · intro m hm
      simp only [List.mem_cons, List.not_mem_nil, or_false] at hm
      rcases hm with rfl | rfl
      · exact isName_outputDir
      · exact hrow
    · simp
  rw [hat, place, List.append_assoc]
  rfl

theorem place_inj {row' n' : Str} (h : j.place row n = j.place row' n') : row = row' ∧ n = n' := by
  have heq := List.append_cancel_left h
  simpa using heq

/-- The paths a loop goes over, in a state: files outside the row's directory. -/
structure Sources (j : Job) (row : Str) (fs : Fs) (ws : List Str) : Prop where
  name : ∀ w ∈ ws, IsName (basename w)
  file : ∀ w ∈ ws, fs.isFile (resolve j.cwd w) = true
  outside : ∀ w ∈ ws, ∀ n, resolve j.cwd w ≠ j.place row n

theorem Sources.subset {fs : Fs} {ws ws' : List Str} (h : j.Sources row fs ws) (hsub : ws' ⊆ ws) :
    j.Sources row fs ws' :=
  ⟨fun w hw => h.name w (hsub hw), fun w hw => h.file w (hsub hw), fun w hw => h.outside w (hsub hw)⟩

/-- What a loop over `ws` leaves, with the files `kept` counted. -/
structure Kept (j : Job) (row desc : Str) (kept : List Str) (fs fs' : Fs) : Prop where
  idle : kept = [] → fs' = fs
  outside : ∀ l, (∀ n, l ≠ j.place row n) → fs'.files.lookup l = fs.files.lookup l
  other : ∀ n, n ∉ kept.map basename → n ≠ desc →
    fs'.files.lookup (j.place row n) = fs.files.lookup (j.place row n)
  copy : ∀ w ∈ kept, basename w ≠ desc →
    fs'.files.lookup (j.place row (basename w)) = fs.files.lookup (resolve j.cwd w)
  desc : desc ∉ kept.map basename → kept ≠ [] →
    fs'.files.lookup (j.place row desc) = some (fs.content (j.place row desc) ++ unlines kept)

/-- What counting one file leaves. -/
structure Put (j : Job) (row desc w : Str) (fs fs' : Fs) : Prop where
  outside : ∀ l, (∀ n, l ≠ j.place row n) → fs'.files.lookup l = fs.files.lookup l
  other : ∀ n, n ≠ basename w → n ≠ desc →
    fs'.files.lookup (j.place row n) = fs.files.lookup (j.place row n)
  copy : basename w ≠ desc →
    fs'.files.lookup (j.place row (basename w)) = fs.files.lookup (resolve j.cwd w)
  listed : basename w ≠ desc →
    fs'.files.lookup (j.place row desc) = some (fs.content (j.place row desc) ++ (w ++ ['\n']))
  clash : basename w = desc →
    fs'.files.lookup (j.place row desc) = some (fs.content (resolve j.cwd w) ++ (w ++ ['\n']))

private theorem sortFile_put {fs : Fs} {w : Str} {count : Nat} (hrow : IsName row) (hdesc : IsName desc)
    (hname : IsName (basename w)) (hfile : fs.isFile (resolve j.cwd w) = true)
    (hnew : fs.isFile (j.place row (basename w)) = false) :
    ∃ fs', j.sortFile row desc (fs, count) w = (fs', count + 1) ∧
      (j.sortFile row desc (fs, 0) w).1 = fs' ∧ j.Put row desc w fs fs' := by
  have hsource := Fs.lookup_of_isFile hfile
  have hsort (count : Nat) : j.sortFile row desc (fs, count) w =
      ((fs.write (j.place row (basename w)) (fs.content (resolve j.cwd w))).append (j.place row desc)
        (w ++ ['\n']), count + 1) := by
    simp only [sortFile, at_file hrow hname, at_file hrow hdesc, at_row hrow, hnew, Fs.cp, hsource]
    rfl
  refine ⟨_, hsort count, by rw [hsort], ?_, ?_, ?_, ?_, ?_⟩
  · intro l hl
    rw [Fs.lookup_append_of_ne (hl _), Fs.lookup_write_of_ne (hl _)]
  · intro n hn hn'
    rw [Fs.lookup_append_of_ne fun h => hn' (place_inj h).2,
      Fs.lookup_write_of_ne fun h => hn (place_inj h).2]
  · intro hne
    rw [Fs.lookup_append_of_ne fun h => hne (place_inj h).2, Fs.lookup_write_self, hsource]
  · intro hne
    rw [Fs.lookup_append_self, Fs.content, Fs.lookup_write_of_ne fun h => hne (place_inj h).2.symm]
    rfl
  · intro heq
    rw [Fs.lookup_append_self, heq, Fs.content, Fs.lookup_write_self]
    rfl

private theorem sortFile_skipped {fs : Fs} {w : Str} {count : Nat} (hrow : IsName row)
    (hname : IsName (basename w)) (hold : fs.isFile (j.place row (basename w)) = true) :
    j.sortFile row desc (fs, count) w = (fs, count) := by
  simp [sortFile, at_file hrow hname, hold]

namespace Put

variable {fs fs' : Fs} {w : Str} {ws names : List Str} (h : j.Put row desc w fs fs')
include h

private theorem desc_mem : ∃ s, fs'.files.lookup (j.place row desc) = some s := by
  by_cases hw : basename w = desc
  · exact ⟨_, h.clash hw⟩
  · exact ⟨_, h.listed hw⟩

private theorem seen (hfile : fs.isFile (resolve j.cwd w) = true)
    (hnames : ∀ n, fs.isFile (j.place row n) = true ↔ n ∈ names) (n : Str) :
    fs'.isFile (j.place row n) = true ↔ n ∈ desc :: basename w :: names := by
  by_cases hn' : n = desc
  · subst hn'
    simpa using Fs.isFile_iff.mpr h.desc_mem
  · by_cases hn : n = basename w
    · subst hn
      simp [Fs.isFile, h.copy hn', Fs.lookup_of_isFile hfile]
    · rw [Fs.isFile_congr (h.other n hn hn'), hnames n]
      simp [hn, hn']

private theorem sources (hws : j.Sources row fs (w :: ws)) : j.Sources row fs' ws := by
  have htail := hws.subset (List.subset_cons_self w ws)
  refine ⟨htail.name, fun x hx => ?_, htail.outside⟩
  rw [Fs.isFile_congr (h.outside _ (htail.outside x hx))]
  exact htail.file x hx

end Put

private theorem unseen_of_mem {w : Str} {ws seen : List Str}
    (hn : n ∈ (pick basename desc (desc :: basename w :: seen) ws).map basename) :
    n ≠ desc ∧ n ≠ basename w := by
  obtain ⟨x, hx, rfl⟩ := List.mem_map.mp hn
  have hx' := pick_unseen hx
  simp only [List.mem_cons, not_or] at hx'
  exact ⟨hx'.1, hx'.2.1⟩

theorem sortLoop_kept (hrow : IsName row) (hdesc : IsName desc) (ws : List Str) (fs : Fs) (count : Nat)
    (seen : List Str) (hws : j.Sources row fs ws)
    (hseen : ∀ n, fs.isFile (j.place row n) = true ↔ n ∈ seen) :
    j.takes row desc ws fs = pick basename desc seen ws ∧
    ∃ fs', ws.foldl (j.sortFile row desc) (fs, count) =
        (fs', count + (pick basename desc seen ws).length) ∧
      j.Kept row desc (pick basename desc seen ws) fs fs' := by
  induction ws generalizing fs count seen with
  | nil => exact ⟨rfl, fs, rfl, fun _ => rfl, fun _ _ => rfl, fun _ _ _ => rfl, by simp [pick], by simp [pick]⟩
  | cons w ws ih =>
    have hname := hws.name w List.mem_cons_self
    have hfile := hws.file w List.mem_cons_self
    rw [List.foldl_cons, takes, at_file hrow hname]
    unfold pick
    by_cases hw : basename w ∈ seen
    · rw [if_pos hw, if_pos ((hseen _).mpr hw), sortFile_skipped hrow hname ((hseen _).mpr hw)]
      exact ih fs count seen (hws.subset (List.subset_cons_self w ws)) hseen
    · have hnew : fs.isFile (j.place row (basename w)) = false := by
        simpa using mt (hseen _).mp hw
      obtain ⟨fs₁, hsort, hsort₀, hput⟩ := @sortFile_put j row desc fs w count hrow hdesc hname hfile hnew
      rw [if_neg hw, hsort, hsort₀, hnew, if_neg Bool.false_ne_true]
      obtain ⟨htakes, fs', hloop, hkept⟩ :=
        ih fs₁ (count + 1) _ (hput.sources hws) (hput.seen hfile hseen)
      refine ⟨by rw [htakes], fs', ?_, ?_, ?_, ?_, ?_, ?_⟩
      · rw [hloop, List.length_cons]
        congr 1
        omega
      · intro hnil
        contradiction
      · intro l hl
        rw [hkept.outside l hl, hput.outside l hl]
      · intro n hn hn'
        simp only [List.map_cons, List.mem_cons, not_or] at hn
        rw [hkept.other n hn.2 hn', hput.other n hn.1 hn']
      · intro x hx hx'
        rcases List.mem_cons.mp hx with rfl | hx
        · rw [hkept.other _ (fun h => (unseen_of_mem h).2 rfl) hx', hput.copy hx']
        · rw [hkept.copy x hx hx', hput.outside _
            (hws.outside x (List.mem_cons_of_mem _ (mem_of_pick hx)))]
      · intro hnot _
        simp only [List.map_cons, List.mem_cons, not_or] at hnot
        have hs := hput.listed fun h => hnot.1 h.symm
        by_cases hrest : pick basename desc (desc :: basename w :: seen) ws = []
        · rw [hrest, hkept.idle hrest, hs]
          simp [unlines]
        · rw [hkept.desc hnot.2 hrest, Fs.content_of_lookup hs]
          simp [unlines]

theorem sortLoop_clash {w : Str} {ws : List Str} {fs : Fs} {count : Nat} (hrow : IsName row)
    (hdesc : IsName desc) (hws : j.Sources row fs (w :: ws))
    (hseen : ∀ n, fs.isFile (j.place row n) = true ↔ n ∈ ([] : List Str)) (hw : basename w = desc) :
    (((w :: ws).foldl (j.sortFile row desc) (fs, count)).1).files.lookup (j.place row desc) =
      some (fs.content (resolve j.cwd w) ++ unlines (pick basename desc [] (w :: ws))) := by
  have hfile := hws.file w List.mem_cons_self
  have hnew : fs.isFile (j.place row (basename w)) = false := by
    simpa using mt (hseen (basename w)).mp
  obtain ⟨fs₁, hsort, -, hput⟩ := @sortFile_put j row desc fs w count hrow hdesc
    (hws.name w List.mem_cons_self) hfile hnew
  obtain ⟨-, fs', hloop, hkept⟩ := sortLoop_kept hrow hdesc ws fs₁ (count + 1) _ (hput.sources hws)
    (hput.seen hfile hseen)
  have hs := hput.clash hw
  have hpick : pick basename desc [] (w :: ws) =
      w :: pick basename desc (desc :: basename w :: []) ws := by simp [pick]
  rw [List.foldl_cons, hsort, hloop, hpick]
  by_cases hrest : pick basename desc (desc :: basename w :: []) ws = []
  · rw [hrest, hkept.idle hrest, hs]
    simp [unlines]
  · rw [hkept.desc (fun hmem => (unseen_of_mem hmem).1 rfl) hrest, Fs.content_of_lookup hs]
    simp [unlines]

end Job

end OsSessional.Sorter
