import Mathlib.Data.Char
import Mathlib.Data.List.Dedup
import Mathlib.Data.List.DropRight
import Mathlib.Data.List.Lex
import Mathlib.Data.List.Sort
import OsSessional.Sorter.Files

/-!
# The file sorter

The script `1705010.sh`: it copies the files below a working directory into one directory for each
extension, writes a description file next to the copies, and a table of counts. The utilities are here
as far as they depend on the locale, on the shell and on the order of a directory's entries.
-/

namespace OsSessional.Sorter

/-- Characters that end a word, make it a pattern or are in no word. -/
def special : Str := ['\n', '*', '?', '[', '\\', '\x00']

/-- What the script is run with. `isWord` is `\w` of `grep`, `le` the order of `sort`, `glob` pathname
expansion in a directory; `find` lists the files below a directory whose names pass a test. -/
structure Shell where
  isWord : Char → Bool
  le : Str → Str → Bool
  glob : Fs → Loc → Str → List Str
  find : Files → Loc → (Str → Bool) → List Loc
  word_plain : ∀ ch, isWord ch = true → ch ∉ special ∧ ch ≠ '.' ∧ ch ≠ '/'
  glob_plain : ∀ fs cwd w, (∀ ch ∈ w, ch ∉ special) → glob fs cwd w = [w]
  find_perm : ∀ files root test, (find files root test).Perm
    (files.keys.filter fun l => root.isPrefixOf l && test (nameOf l))

section Text

/-- Every line with its newline. -/
def unlines (lines : List Str) : Str := lines.flatMap (· ++ ['\n'])

/-- The words of a text for `IFS=$'\n'`. -/
def fields (text : Str) : List Str := (text.splitOn '\n').filter (· ≠ [])

/-- `$(...)` of what is printed: the shell drops zero bytes, and newlines at the end. -/
def substituted (text : Str) : Str := (text.filter (· ≠ '\x00')).rdropWhile (· = '\n')

/-- `cut -d' ' -f1`. -/
def cutFirst (text : Str) : Str := unlines ((text.splitOn '\n').map (·.takeWhile (· ≠ ' ')))

/-- `sort -u`. -/
def sortU (le : Str → Str → Bool) (lines : List Str) : List Str :=
  lines.dedup.insertionSort fun a b => le a b = true

/-- `paste -sd ','` of two lines. -/
def csvLine (a b : Str) : Str := a ++ [','] ++ b ++ ['\n']

def outputDir : Str := "output_dir".toList
def outputCsv : Str := "output.csv".toList
def othersName : Str := "others".toList

/-- `desc_$file.txt`. -/
def descName (file : Str) : Str := "desc_".toList ++ file ++ ".txt".toList

/-- `-name "*.$file"`. -/
def hasType (file : Str) (name : Str) : Bool := ('.' :: file).isSuffixOf name

/-- `! -name "*.*"`. -/
def hasNoDot (name : Str) : Bool := decide ('.' ∉ name)

end Text

/-- The first match of `\.(\w+)$` in a line, as `grep -o` prints it. -/
def grepType (isWord : Char → Bool) : Str → Option Str
  | [] => none
  | ch :: line =>
    if ch = '.' ∧ line ≠ [] ∧ line.all isWord = true then some (ch :: line) else grepType isWord line

/-- The script after its checks: `INPUT_FILE`, `DIR`, and the files it finds. -/
structure Job where
  shell : Shell
  cwd : Loc
  input : Str
  dir : Str
  fs : Fs

namespace Job

variable (j : Job)

/-- The working directory. -/
def root : Loc := resolve j.cwd j.dir

/-- The location of a path that is put together from names. -/
def at' (names : Loc) : Loc := resolve j.cwd (joined names)

def csv : Loc := resolve j.cwd outputCsv

/-- After `rm -rf "$OUTPUT_DIR"` and `rm -rf output.csv`. -/
def cleared : Fs := (j.fs.rmRf (resolve j.cwd outputDir)).rmRf j.csv

/-- `$(find "$DIR" -type f ...)`. -/
def findText (files : Files) (test : Str → Bool) : Str :=
  unlines ((j.shell.find files j.root test).map fun l => printed j.dir (l.drop j.root.length))

/-- An unquoted variable, split at newlines and expanded. -/
def words (fs : Fs) (text : Str) : List Str := (fields text).flatMap (j.shell.glob fs j.cwd)

/-- `IGNORE_VAR`. -/
def ignoreVar : Str := substituted (cutFirst (j.cleared.content (resolve j.cwd j.input)))

/-- `fileTypeArray`; its words hold no character that the shell would split or expand. -/
def fileTypes : List Str :=
  (sortU j.shell.le ((fields (j.findText j.cleared.files fun _ => true)).filterMap
    (grepType j.shell.isWord))).map (·.drop 1)

/-- `containsElement "$file" "$IGNORE_VAR"`. -/
def containsElement (fs : Fs) (file : Str) : Bool :=
  (j.words fs j.ignoreVar).any fun type => decide (substituted (type.filter (· ≠ '\r')) = file)

/-- The body of the inner loops, for directory `row` and description file `desc`. -/
def sortFile (row desc : Str) (st : Fs × Nat) (name : Str) : Fs × Nat :=
  let (fs, count) := st
  let bn := basename name
  if fs.isFile (j.at' [outputDir, row, bn]) then (fs, count)
  else
    let fs := fs.cp (resolve j.cwd name) (j.at' [outputDir, row] ++ [bn])
    (fs.append (j.at' [outputDir, row, desc]) (name ++ ['\n']), count + 1)

/-- A row of `output.csv`. -/
def report (fs : Fs) (label : Str) (count : Nat) : Fs :=
  fs.append j.csv (csvLine label (Nat.toDigits 10 count))

/-- The files below the working directory that pass the test, as the loops go over them. -/
def found (fs : Fs) (test : Str → Bool) : List Str := j.words fs (j.findText fs.files test)

/-- The body of the loop over the extensions, with `ignore_count`. -/
def sortType (st : Fs × Nat) (file : Str) : Fs × Nat :=
  let (fs, ignoreCount) := st
  if !j.containsElement fs file then
    let fs := fs.mkdirP (j.at' [outputDir, file])
    let (fs, count) := (j.found fs (hasType file)).foldl (j.sortFile file (descName file)) (fs, 0)
    (j.report fs file count, ignoreCount)
  else (fs, ignoreCount + (j.found fs (hasType file)).length)

/-- Before the loop over the extensions. -/
def begun : Fs :=
  (j.cleared.mkdirP (resolve j.cwd outputDir)).append j.csv
    (csvLine "file_type".toList "no_of_files".toList)

/-- The variable `file` after the loop. -/
def lastType : Str := j.fileTypes.getLast?.getD []

/-- The loop over the files without a dot, with its count. -/
def sortOthers (fs : Fs) : Fs × Nat :=
  let fs := fs.mkdirP (j.at' [outputDir, othersName])
  (j.found fs hasNoDot).foldl (j.sortFile othersName (descName j.lastType)) (fs, 0)

def run : Fs :=
  let (fs, ignoreCount) := j.fileTypes.foldl j.sortType (j.begun, 0)
  let (fs, count) := j.sortOthers fs
  j.report (j.report fs othersName count) "ignored".toList ignoreCount

/-- When the loop comes to extension `e`. -/
def before (e : Str) : Fs × Nat := (j.fileTypes.takeWhile (· ≠ e)).foldl j.sortType (j.begun, 0)

/-- What the test of the ignore list says for `e`. -/
def ignored (e : Str) : Bool := j.containsElement (j.before e).1 e

/-- When the inner loop for `e` starts. -/
def start (e : Str) : Fs :=
  if j.ignored e then (j.before e).1 else (j.before e).1.mkdirP (j.at' [outputDir, e])

/-- The files found with extension `e`, in the order of the inner loop. -/
def files (e : Str) : List Str := j.found (j.start e) (hasType e)

/-- After the loop over the extensions, with `ignore_count`. -/
def typesEnd : Fs × Nat := j.fileTypes.foldl j.sortType (j.begun, 0)

def othersStart : Fs := j.typesEnd.1.mkdirP (j.at' [outputDir, othersName])

/-- The files found without a dot. -/
def othersFiles : List Str := j.found j.othersStart hasNoDot

end Job

/-- The whole script: `$1` names the ignore list and `$2` the working directory. -/
def main (shell : Shell) (cwd : Loc) (arg1 arg2 : Str) (fs : Fs) : Fs :=
  if arg1 = [] then fs
  else if arg2 ≠ [] ∧ !fs.isDir (resolve cwd arg2) then fs
  else if !fs.isFile (resolve cwd arg1) then fs
  else (Job.mk shell cwd arg1 (if arg2 = [] then ['.'] else arg2) fs).run

section Sample

/-- A shell whose names are ASCII, in a directory without patterns. -/
def sampleShell : Shell where
  isWord ch := ch.isAlphanum || ch = '_'
  le a b := decide (a ≤ b)
  glob _ _ w := [w]
  find files root test := files.keys.filter fun l => root.isPrefixOf l && test (nameOf l)
  word_plain := by
    intro ch h
    refine ⟨fun hmem => ?_, ?_, ?_⟩
    · simp only [special, List.mem_cons, List.not_mem_nil, or_false] at hmem
      rcases hmem with rfl | rfl | rfl | rfl | rfl | rfl <;> simp at h
    · rintro rfl
      simp at h
    · rintro rfl
      simp at h
  glob_plain _ _ _ _ := rfl
  find_perm _ _ _ := List.Perm.refl _

/-- The sorter started in directory `w`, with the ignore list `ig`. -/
def sampleJob (dir : String) (files : List (Loc × Str)) : Job where
  shell := sampleShell
  cwd := [['w']]
  input := "ig".toList
  dir := dir.toList
  fs := ⟨(files.map fun f => ⟨f.1, f.2⟩).toAList, []⟩

end Sample

end OsSessional.Sorter
