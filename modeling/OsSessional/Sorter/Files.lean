import Mathlib.Data.List.AList
import Mathlib.Data.List.Infix

/-!
# Files and paths

The part of a file system that the sorter of the shell offline sees: regular files under their
absolute locations, directories, and path strings relative to a current directory. Names and contents
are sequences of characters; links are left out.
-/

namespace OsSessional.Sorter

abbrev Str := List Char

/-- Goes over the text, not over all characters. -/
instance (priority := 2000) (p : Char → Prop) [DecidablePred p] (s : Str) : Decidable (∀ ch ∈ s, p ch) :=
  List.decidableBAll p s

/-- The names on the way from the root directory. -/
abbrev Loc := List Str

/-- The last name of a location. -/
def nameOf (l : Loc) : Str := l.getLast?.getD []

/-- What regular files there are, with their contents. -/
abbrev Files := AList fun _ : Loc => Str

structure Fs where
  files : Files
  dirs : List Loc

section Paths

/-- One component of a path, from the directory reached so far. -/
def component (acc : Loc) (c : Str) : Loc :=
  if c = [] ∨ c = ['.'] then acc else if c = ['.', '.'] then acc.dropLast else acc ++ [c]

/-- The location a path string leads to. -/
def resolve (cwd : Loc) (path : Str) : Loc :=
  (path.splitOn '/').foldl component (if path.head? = some '/' then [] else cwd)

/-- The directories that a sequence of components leaves again by `..`. -/
def leftOf : Loc → List Str → List Loc
  | _, [] => []
  | acc, c :: cs =>
    if c = ['.', '.'] then acc :: leftOf (component acc c) cs else leftOf (component acc c) cs

/-- The directories that a path leaves again by `..`. -/
def leaves (cwd : Loc) (path : Str) : List Loc :=
  leftOf (if path.head? = some '/' then [] else cwd) (path.splitOn '/')

/-- `basename`. -/
def basename (path : Str) : Str :=
  match ((path.splitOn '/').filter (· ≠ [])).getLast? with
  | some n => n
  | none => path.take 1

/-- Names put together to a relative path. -/
def joined (rel : Loc) : Str := ['/'].intercalate rel

/-- The directory as given on the command line, ready for what comes after it. -/
def slashed (dir : Str) : Str := if dir.getLast? = some '/' then dir else dir ++ ['/']

/-- How `find dir` prints a file below the directory. -/
def printed (dir : Str) (rel : Loc) : Str := slashed dir ++ joined rel

/-- A name that a directory can hold. -/
structure IsName (n : Str) : Prop where
  nonempty : n ≠ []
  slash : '/' ∉ n
  nul : '\x00' ∉ n
  dot : n ≠ ['.']
  dots : n ≠ ['.', '.']

instance (n : Str) : Decidable (IsName n) :=
  decidable_of_iff (n ≠ [] ∧ '/' ∉ n ∧ '\x00' ∉ n ∧ n ≠ ['.'] ∧ n ≠ ['.', '.'])
    ⟨fun h => ⟨h.1, h.2.1, h.2.2.1, h.2.2.2.1, h.2.2.2.2⟩,
      fun h => ⟨h.nonempty, h.slash, h.nul, h.dot, h.dots⟩⟩

variable {cwd acc rel : Loc} {dir : Str}

private theorem foldl_component (h : ∀ n ∈ rel, IsName n) : rel.foldl component acc = acc ++ rel := by
  induction rel generalizing acc with
  | nil => simp
  | cons n rel ih =>
    have hn := h n List.mem_cons_self
    have hstep : component acc n = acc ++ [n] := by simp [component, hn.nonempty, hn.dot, hn.dots]
    rw [List.foldl_cons, hstep, ih fun m hm => h m (List.mem_cons_of_mem _ hm)]
    simp

private theorem splitOn_joined (h : ∀ n ∈ rel, IsName n) (hne : rel ≠ []) :
    (joined rel).splitOn '/' = rel :=
  List.splitOn_intercalate '/' (fun n hn => (h n hn).slash) hne

private theorem joined_cons {n : Str} (hne : rel ≠ []) : joined (n :: rel) = n ++ '/' :: joined rel := by
  simp [joined, List.intercalate_cons_of_ne_nil hne]

theorem mem_joined {ch : Char} (h : ch ∈ joined rel) : ch = '/' ∨ ∃ n ∈ rel, ch ∈ n := by
  induction rel with
  | nil => simp [joined] at h
  | cons n rel ih =>
    by_cases hne : rel = []
    · subst hne
      exact .inr ⟨n, List.mem_cons_self, by simpa [joined] using h⟩
    · rw [joined_cons hne] at h
      rcases List.mem_append.mp h with h | h
      · exact .inr ⟨n, List.mem_cons_self, h⟩
      · rcases List.mem_cons.mp h with h | h
        · exact .inl h
        · rcases ih h with h | ⟨m, hm, hch⟩
          · exact .inl h
          · exact .inr ⟨m, List.mem_cons_of_mem _ hm, hch⟩

private theorem joined_head (h : ∀ n ∈ rel, IsName n) : (joined rel).head? ≠ some '/' := by
  cases rel with
  | nil => simp [joined]
  | cons n rel =>
    have hn := h n List.mem_cons_self
    obtain ⟨ch, tail, rfl⟩ := List.exists_cons_of_ne_nil hn.nonempty
    have hch : ch ≠ '/' := by
      rintro rfl
      exact hn.slash List.mem_cons_self
    cases rel with
    | nil => simpa [joined] using hch
    | cons m rel => simpa [joined, List.intercalate_cons_of_ne_nil] using hch

theorem resolve_joined (h : ∀ n ∈ rel, IsName n) (hne : rel ≠ []) :
    resolve cwd (joined rel) = cwd ++ rel := by
  rw [resolve, if_neg (joined_head h), splitOn_joined h hne, foldl_component h]

theorem slashed_eq (dir : Str) : ∃ init, slashed dir = init ++ ['/'] ∧
    (dir = init ∨ dir = init ++ ['/']) := by
  unfold slashed
  by_cases hlast : dir.getLast? = some '/'
  · rw [if_pos hlast]
    obtain ⟨init, hinit⟩ := List.getLast?_eq_some_iff.mp hlast
    exact ⟨init, hinit, .inr hinit⟩
  · rw [if_neg hlast]
    exact ⟨dir, rfl, .inl rfl⟩

private theorem splitOn_printed (dir : Str) (h : ∀ n ∈ rel, IsName n) (hne : rel ≠ []) :
    ∃ init, (printed dir rel).splitOn '/' = init.splitOn '/' ++ rel ∧
      (dir = init ∨ dir = init ++ ['/']) := by
  obtain ⟨init, heq, hdir⟩ := slashed_eq dir
  refine ⟨init, ?_, hdir⟩
  rw [printed, heq, List.append_assoc, List.singleton_append, List.splitOn_append_cons_self,
    splitOn_joined h hne]

theorem resolve_printed (h : ∀ n ∈ rel, IsName n) (hne : rel ≠ []) (hdir : dir ≠ []) :
    resolve cwd (printed dir rel) = resolve cwd dir ++ rel := by
  obtain ⟨init, hsplit, hinit⟩ := splitOn_printed dir h hne
  have hhead : (printed dir rel).head? = dir.head? := by
    obtain ⟨ch, tail, rfl⟩ := List.exists_cons_of_ne_nil hdir
    simp only [printed, slashed]
    split <;> rfl
  have hroot (acc : Loc) : (dir.splitOn '/').foldl component acc =
      (init.splitOn '/').foldl component acc := by
    rcases hinit with rfl | rfl
    · rfl
    · rw [List.splitOn_append_cons_self, List.splitOn_nil, List.foldl_append]
      simp [component]
  rw [resolve, resolve, hsplit, hhead, List.foldl_append, foldl_component h, hroot]

theorem basename_printed {n : Str} (h : ∀ m ∈ rel, IsName m) (hn : IsName n) :
    basename (printed dir (rel ++ [n])) = n := by
  have hall : ∀ m ∈ rel ++ [n], IsName m := by
    intro m hm
    rcases List.mem_append.mp hm with hm | hm
    · exact h m hm
    · rwa [List.mem_singleton.mp hm]
  obtain ⟨init, hsplit, -⟩ := splitOn_printed dir hall (by simp)
  have hlast : (((printed dir (rel ++ [n])).splitOn '/').filter (· ≠ [])).getLast? = some n := by
    rw [hsplit, ← List.append_assoc, List.filter_append]
    simp [hn.nonempty]
  rw [basename, hlast]

theorem printed_name (dir : Str) (rel : Loc) (n : Str) :
    ∃ init, printed dir (rel ++ [n]) = init ++ '/' :: n := by
  obtain ⟨init, heq, -⟩ := slashed_eq dir
  cases rel with
  | nil => exact ⟨init, by simp [printed, joined, heq]⟩
  | cons m rel =>
    have hjoin : joined (m :: rel ++ [n]) = joined (m :: rel) ++ '/' :: n := by
      induction rel generalizing m with
      | nil => simp [joined]
      | cons p rel ih =>
        rw [List.cons_append, joined_cons (by simp), joined_cons (by simp), ih p]
        simp
    exact ⟨slashed dir ++ joined (m :: rel), by rw [printed, hjoin, List.append_assoc]⟩

end Paths

namespace Fs

variable (fs : Fs)

/-- `test -f`. -/
def isFile (l : Loc) : Bool := (fs.files.lookup l).isSome

/-- `test -d`. -/
def isDir (l : Loc) : Bool := decide (l ∈ fs.dirs)

/-- What reading the file gives. -/
def content (l : Loc) : Str := (fs.files.lookup l).getD []

def write (l : Loc) (s : Str) : Fs := { fs with files := fs.files.insert l s }

/-- `>>`. -/
def append (l : Loc) (s : Str) : Fs := fs.write l (fs.content l ++ s)

/-- `rm -rf`. -/
def rmRf (l : Loc) : Fs where
  files := ⟨fs.files.entries.filter fun e => !l.isPrefixOf e.1, fs.files.nodupKeys.sublist List.filter_sublist⟩
  dirs := fs.dirs.filter fun d => !l.isPrefixOf d

/-- `mkdir -p`. -/
def mkdirP (l : Loc) : Fs := { fs with dirs := l.inits ++ fs.dirs }

/-- `cp` of a file into a directory. -/
def cp (src : Loc) (dst : Loc) : Fs :=
  match fs.files.lookup src with
  | some s => fs.write dst s
  | none => fs

variable {fs} {l l' : Loc} {s : Str}

@[simp] theorem mkdirP_files : (fs.mkdirP l).files = fs.files := rfl

@[simp] theorem lookup_write_self : (fs.write l s).files.lookup l = some s := AList.lookup_insert _

theorem lookup_write_of_ne (h : l' ≠ l) : (fs.write l s).files.lookup l' = fs.files.lookup l' :=
  AList.lookup_insert_ne h

theorem lookup_append_of_ne (h : l' ≠ l) : (fs.append l s).files.lookup l' = fs.files.lookup l' :=
  lookup_write_of_ne h

@[simp] theorem lookup_append_self : (fs.append l s).files.lookup l = some (fs.content l ++ s) :=
  lookup_write_self

theorem lookup_rmRf : (fs.rmRf l).files.lookup l' = if l <+: l' then none else fs.files.lookup l' := by
  apply Option.ext
  intro s
  have hmem : s ∈ (fs.rmRf l).files.lookup l' ↔ ⟨l', s⟩ ∈ fs.files.entries ∧ ¬ l <+: l' := by
    rw [AList.mem_lookup_iff]
    simp [rmRf, ← Bool.not_eq_true, List.isPrefixOf_iff_prefix]
  rw [← Option.mem_def, hmem, ← AList.mem_lookup_iff]
  by_cases hl : l <+: l'
  · simp [hl]
  · simp [hl]

end Fs

end OsSessional.Sorter
