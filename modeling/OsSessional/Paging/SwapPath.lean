import Mathlib.Data.List.TakeWhile
import Mathlib.Tactic.IntervalCases
import OsSessional.Paging.Owners

/-!
# The path of a swap file

`createSwapFile` and `removeSwapFile` put the path `/.swap<pid>` together in an array of `DIGITS`
bytes on the kernel stack and have `nameiparent` cut it into path elements of `DIRSIZ` bytes. Seven
digits fit the array and nine the path element.
-/

namespace OsSessional.Paging

open Function (update update_self update_of_ne)

/-- `DIGITS` of `fs.c`: the length of the array `path`. -/
def digits : Nat := 14

def kStackSize : Nat := 4096

/-- The stack from the array `path` on: its bytes, and the offsets that were stored to. -/
structure PathBuf where
  byte : Nat → Char
  stores : List Nat

namespace PathBuf

section Itoa

def store (q : PathBuf) (p : Nat) (ch : Char) : PathBuf := ⟨update q.byte p ch, p :: q.stores⟩

/-- `memmove` of a string to offset `p`. -/
def copy : List Char → Nat → PathBuf → PathBuf
  | [], _, q => q
  | ch :: s, p, q => copy s (p + 1) (q.store p ch)

/-- The table of `itoa`. -/
def digit : List Char := ['0', '1', '2', '3', '4', '5', '6', '7', '8', '9']

/-- The first loop of `itoa`, which moves `p` to where the representation ends. -/
def moveEnd : Nat → Int → Nat → Nat
  | 0, _, p => p
  | fuel + 1, shifter, p =>
    let p := p + 1
    let shifter := shifter.tdiv 10
    if shifter = 0 then p else moveEnd fuel shifter p

/-- The second loop, which moves `p` back and inserts the digits. -/
def moveBack : Nat → Int → Nat → PathBuf → PathBuf
  | 0, _, _, q => q
  | fuel + 1, i, p, q =>
    let p := p - 1
    let q := q.store p (digit.getD (i.tmod 10).toNat '\x00')
    let i := i.tdiv 10
    if i = 0 then q else moveBack fuel i p q

/-- `itoa(i, b)`. -/
def itoa (i : Int) (b : Nat) (q : PathBuf) : PathBuf :=
  let (i, p, q) := if i < 0 then (i * -1, b + 1, q.store b '-') else (i, b, q)
  let fuel := i.natAbs + 1
  let p := moveEnd fuel i p
  moveBack fuel i p (q.store p '\x00')

end Itoa

def pathPrefix : List Char := ['/', '.', 's', 'w', 'a', 'p']

/-- `path` after the `memmove`; `byte` is what the stack held before. -/
def prefixed (byte : Nat → Char) : Nat → Char := (copy pathPrefix 0 ⟨byte, []⟩).byte

/-- What `itoa(p->pid, path + 6)` leaves. -/
def swapPath (pid : Int) (byte : Nat → Char) : PathBuf := itoa pid 6 ⟨prefixed byte, []⟩

end PathBuf

section PathNames

/-- The string at `p`, in a region of `n` bytes. -/
def cString (byte : Nat → Char) : Nat → Nat → List Char
  | 0, _ => []
  | n + 1, p => if byte p = '\x00' then [] else byte p :: cString byte n (p + 1)

/-- `skipelem`: the first path element, cut off at `DIRSIZ` bytes, and the path after it. -/
def skipelem (path : List Char) : Option (List Char × List Char) :=
  match path.dropWhile (· == '/') with
  | [] => none
  | s => some ((s.takeWhile (· != '/')).take dirSiz, (s.dropWhile (· != '/')).dropWhile (· == '/'))

/-- The directories a path leads through. -/
structure Directories where
  type : Nat → InodeType
  dirlookup : Nat → List Char → Option Nat
  cwd : Nat

namespace Directories

variable (t : Directories)

/-- The loop of `namex` with `nameiparent` set; every round takes a byte of the path at least. -/
def namexLoop : Nat → Nat → List Char → Option (Nat × List Char)
  | 0, _, _ => none
  | fuel + 1, ip, path =>
    match skipelem path with
    | none => none
    | some (name, path) =>
      if t.type ip ≠ .T_DIR then none
      else if path = [] then some (ip, name)
      else match t.dirlookup ip name with
        | none => none
        | some next => namexLoop fuel next path

/-- `nameiparent`: the directory and the name in it. -/
def nameiparent (path : List Char) : Option (Nat × List Char) :=
  t.namexLoop (path.length + 1) (if path.head? = some '/' then rootIno else t.cwd) path

/-- The directory and the name that the path of the swap file of `pid` stands for. -/
def swapEntry (pid : Int) (byte : Nat → Char) : Option (Nat × List Char) :=
  t.nameiparent (cString (PathBuf.swapPath pid byte).byte kStackSize 0)

end Directories

/-- `strncmp` on strings without their final zeros. -/
def strncmp : List Char → List Char → Nat → Int
  | _, _, 0 => 0
  | [], [], _ + 1 => 0
  | [], b :: _, _ + 1 => -(b.toNat : Int)
  | a :: _, [], _ + 1 => a.toNat
  | a :: s, b :: u, n + 1 => if a = b then strncmp s u n else (a.toNat : Int) - b.toNat

/-- `namecmp`. -/
def namecmp (s u : List Char) : Int := strncmp s u dirSiz

end PathNames

namespace PathBuf

section Digits

private theorem digit_getD {i : Nat} (h : i < 10) : digit.getD i '\x00' = Nat.digitChar i := by
  interval_cases i <;> rfl

private theorem moveEnd_eq (fuel i p : Nat) (h : i < fuel) :
    moveEnd fuel i p = p + (Nat.toDigits 10 i).length := by
  induction fuel generalizing i p with
  | zero => omega
  | succ fuel ih =>
    simp only [moveEnd]
    have hdiv : (i : Int).tdiv 10 = (i / 10 : Nat) := rfl
    rw [hdiv, Nat.toDigits_eq_if (by decide)]
    by_cases hlt : i < 10
    · rw [if_pos hlt, if_pos (by omega)]
      rfl
    · rw [if_neg hlt, if_neg (by omega), ih (i / 10) (p + 1) (by omega), List.length_append]
      simp only [List.length_cons, List.length_nil]
      omega

/-- `q` with the string `s` at `p`, stored to from its end on. -/
structure Inserted (s : List Char) (p : Nat) (q q' : PathBuf) : Prop where
  text : ∀ j, (h : j < s.length) → q'.byte (p + j) = s[j]
  others : ∀ j, j < p ∨ p + s.length ≤ j → q'.byte j = q.byte j
  stores : ∀ j, j ∈ q'.stores ↔ (p ≤ j ∧ j < p + s.length) ∨ j ∈ q.stores

private theorem Inserted.single (q : PathBuf) (p : Nat) (ch : Char) :
    Inserted [ch] p q (q.store p ch) where
  text j h := by
    have hj : j = 0 := by simpa using h
    subst hj
    exact update_self ..
  others j h := by
    apply update_of_ne
    simp only [List.length_singleton] at h
    omega
  stores j := by
    have hj : j = p ↔ p ≤ j ∧ j < p + 1 := by omega
    simp only [store, List.mem_cons, List.length_singleton, hj]

private theorem Inserted.append {s u : List Char} {p : Nat} {q q₁ q' : PathBuf}
    (hu : Inserted u (p + s.length) q q₁) (hs : Inserted s p q₁ q') : Inserted (s ++ u) p q q' where
  text j h := by
    rw [List.length_append] at h
    by_cases hj : j < s.length
    · rw [List.getElem_append_left hj]
      exact hs.text j hj
    · rw [List.getElem_append_right (by omega), hs.others _ (by omega), ← hu.text (j - s.length) (by omega)]
      congr 1
      omega
  others j h := by
    rw [List.length_append] at h
    rw [hs.others j (by omega), hu.others j (by omega)]
  stores j := by
    have hj : p ≤ j ∧ j < p + (s.length + u.length) ↔
        (p ≤ j ∧ j < p + s.length) ∨ p + s.length ≤ j ∧ j < p + s.length + u.length := by omega
    rw [hs.stores, hu.stores, List.length_append, hj, or_assoc]

private theorem moveBack_inserts (fuel i p : Nat) (q : PathBuf) (h : i < fuel) :
    Inserted (Nat.toDigits 10 i) p q (moveBack fuel i (p + (Nat.toDigits 10 i).length) q) := by
  induction fuel generalizing i q with
  | zero => omega
  | succ fuel ih =>
    have hdiv : (i : Int).tdiv 10 = (i / 10 : Nat) := rfl
    have hmod : ((i : Int).tmod 10).toNat = i % 10 := rfl
    simp only [moveBack, hdiv, hmod]
    rw [digit_getD (Nat.mod_lt _ (by decide)), Nat.toDigits_eq_if (by decide)]
    by_cases hlt : i < 10
    · rw [if_pos hlt, if_pos (by omega), Nat.mod_eq_of_lt hlt]
      exact Inserted.single q p _
    · rw [if_neg hlt, if_neg (by omega), List.length_append, List.length_singleton,
        show p + ((Nat.toDigits 10 (i / 10)).length + 1) - 1 = p + (Nat.toDigits 10 (i / 10)).length by omega]
      apply Inserted.append (Inserted.single q _ _)
      exact ih (i / 10) _ (by omega)

private theorem itoa_inserts (i b : Nat) (q : PathBuf) :
    Inserted (Nat.toDigits 10 i ++ ['\x00']) b q (itoa i b q) := by
  have hpos : ¬ (i : Int) < 0 := by omega
  simp only [itoa, if_neg hpos, Int.natAbs_natCast]
  rw [moveEnd_eq (i + 1) i b (by omega)]
  apply Inserted.append (Inserted.single q _ _)
  exact moveBack_inserts (i + 1) i b _ (by omega)

end Digits

section Array

/-- The array holds the prefix, the decimal digits of `pid` from the most significant on and a zero,
and `itoa` stored to nothing outside the part of it after the prefix. -/
structure Written (pid : Int) : Prop where
  text : ∀ byte j, (h : j < (pathPrefix ++ Nat.toDigits 10 pid.toNat ++ ['\x00']).length) →
    (swapPath pid byte).byte j = (pathPrefix ++ Nat.toDigits 10 pid.toNat ++ ['\x00'])[j]
  inside : ∀ byte, ∀ j ∈ (swapPath pid byte).stores, pathPrefix.length ≤ j ∧ j < digits

variable {pid : Nat} (byte : Nat → Char)

private theorem prefixed_byte {j : Nat} (h : j < pathPrefix.length) :
    prefixed byte j = pathPrefix[j] := by
  simp only [pathPrefix, List.length_cons, List.length_nil] at h
  interval_cases j <;> rfl

private theorem swapPath_text (pid : Nat) (byte : Nat → Char) (j : Nat) (h : j < (pathPrefix ++ Nat.toDigits 10 pid ++ ['\x00']).length) :
    (swapPath pid byte).byte j = (pathPrefix ++ Nat.toDigits 10 pid ++ ['\x00'])[j] := by
  have hitoa := itoa_inserts pid 6 ⟨prefixed byte, []⟩
  rw [List.getElem_of_eq (List.append_assoc _ _ _)]
  rw [List.append_assoc, List.length_append] at h
  by_cases hj : j < pathPrefix.length
  · rw [List.getElem_append_left hj, swapPath, hitoa.others j (Or.inl hj)]
    exact prefixed_byte byte hj
  · have hlen : pathPrefix.length = 6 := rfl
    rw [List.getElem_append_right (by omega), ← hitoa.text (j - pathPrefix.length) (by omega), swapPath]
    congr 1
    omega

private theorem swapPath_stores (j : Nat) :
    j ∈ (swapPath pid byte).stores ↔ 6 ≤ j ∧ j ≤ 6 + (Nat.toDigits 10 pid).length := by
  rw [swapPath, (itoa_inserts pid 6 ⟨prefixed byte, []⟩).stores, List.length_append]
  simp only [List.length_singleton, List.not_mem_nil, or_false]
  omega

private theorem written_iff (pid : Nat) : Written pid ↔ pid < pidLimit := by
  rw [pidLimit, ← Nat.length_toDigits_le_iff (by decide) (by decide)]
  constructor
  · intro h
    have hend := (h.inside (fun _ => '\x00') (6 + (Nat.toDigits 10 pid).length)
      ((swapPath_stores _ _).mpr (by omega))).2
    rw [digits] at hend
    omega
  · intro h
    refine ⟨fun byte j hj => swapPath_text pid byte j hj, fun byte j hj => ?_⟩
    rw [swapPath_stores] at hj
    have hlen : pathPrefix.length = 6 := rfl
    rw [digits]
    omega

end Array

end PathBuf

section PathNames

private theorem cString_eq (byte : Nat → Char) (s : List Char) {n p : Nat} (hn : s.length < n)
    (hs : '\x00' ∉ s) (htext : ∀ j, (h : j < s.length) → byte (p + j) = s[j])
    (hend : byte (p + s.length) = '\x00') : cString byte n p = s := by
  induction s generalizing n p with
  | nil =>
    cases n with
    | zero => rfl
    | succ n =>
      rw [List.length_nil, Nat.add_zero] at hend
      rw [cString, if_pos hend]
  | cons ch s ih =>
    cases n with
    | zero => simp at hn
    | succ n =>
      have hch : byte p = ch := htext 0 (by simp)
      rw [List.mem_cons, not_or] at hs
      rw [cString, hch, if_neg (Ne.symm hs.1)]
      congr 1
      apply ih (by simpa using hn) hs.2
      · intro j hj
        rw [Nat.add_right_comm, Nat.add_assoc]
        exact htext (j + 1) (by simpa using hj)
      · rw [Nat.add_right_comm, Nat.add_assoc]
        exact hend

private theorem itoaLoop_eq_toDigits (fuel i : Nat) (b : List Char) (h : i < fuel) :
    itoaLoop fuel i b = Nat.toDigits 10 i ++ b := by
  induction fuel generalizing i b with
  | zero => omega
  | succ fuel ih =>
    simp only [itoaLoop]
    rw [Nat.toDigits_eq_if (by decide)]
    by_cases hlt : i < 10
    · rw [if_pos hlt, if_pos (by omega), Nat.mod_eq_of_lt hlt]
      rfl
    · rw [if_neg hlt, if_neg (by omega), ih (i / 10) _ (by omega), List.append_assoc]
      rfl

private theorem itoa_eq_toDigits (i : Nat) : itoa i = Nat.toDigits 10 i := by
  rw [itoa, itoaLoop_eq_toDigits (i + 1) i [] (by omega), List.append_nil]

private theorem not_mem_toDigits {i : Nat} {ch : Char} (h : ch.isDigit = false) :
    ch ∉ Nat.toDigits 10 i := by
  intro hmem
  rw [Nat.isDigit_of_mem_toDigits (by decide) (by decide) hmem] at h
  contradiction

private theorem strncmp_eq_zero_iff {s u : List Char} (n : Nat) (hs : '\x00' ∉ s) (hu : '\x00' ∉ u) :
    strncmp s u n = 0 ↔ s.take n = u.take n := by
  have hpos {ch : Char} (h : '\x00' ≠ ch) : ch.toNat ≠ 0 := by
    intro hzero
    apply h
    rw [← Char.ofNat_toNat ch, hzero]
  induction n generalizing s u with
  | zero => simp [strncmp]
  | succ n ih =>
    cases s with
    | nil =>
      cases u with
      | nil => simp [strncmp]
      | cons b u =>
        rw [List.mem_cons, not_or] at hu
        have := hpos hu.1
        simp [strncmp, this]
    | cons a s =>
      rw [List.mem_cons, not_or] at hs
      cases u with
      | nil =>
        have := hpos hs.1
        simp [strncmp, this]
      | cons b u =>
        rw [List.mem_cons, not_or] at hu
        have hrest : strncmp s u n = 0 ↔ s.take n = u.take n := ih hs.2 hu.2
        rw [strncmp, List.take_succ_cons, List.take_succ_cons, List.cons.injEq, ← hrest]
        by_cases hab : a = b
        · rw [if_pos hab]
          exact ⟨fun h => ⟨hab, h⟩, fun h => h.2⟩
        · rw [if_neg hab]
          constructor
          · intro h
            have heq : a.toNat = b.toNat := by omega
            exact absurd (Char.toNat_inj.mp heq) hab
          · intro h
            exact absurd h.1 hab

private theorem skipelem_last (name : List Char) (hne : name ≠ []) (hslash : '/' ∉ name) :
    skipelem ('/' :: name) = some (name.take dirSiz, []) := by
  have hall : ∀ ch ∈ name, (ch != '/') = true := by
    intro ch hch
    have hne : ch ≠ '/' := fun h => hslash (h ▸ hch)
    simpa using hne
  have htake : name.takeWhile (· != '/') = name := List.takeWhile_eq_self_iff.mpr hall
  have hdrop : name.dropWhile (· != '/') = [] := List.dropWhile_eq_nil_iff.mpr hall
  cases name with
  | nil => contradiction
  | cons ch name =>
    have hch : (ch == '/') = false := by simpa using hall ch (by simp)
    have hskip : ('/' :: ch :: name).dropWhile (· == '/') = ch :: name := by
      rw [List.dropWhile_cons_of_pos (by rfl), List.dropWhile_cons_of_neg (by rw [hch]; decide)]
    simp only [skipelem, hskip, htake, hdrop, List.dropWhile_nil]

private theorem Directories.swapEntry_eq (t : Directories) (hroot : t.type rootIno = .T_DIR) (pid : Nat)
    (hpid : pid < 2 ^ 31) (byte : Nat → Char) :
    t.swapEntry pid byte = some (rootIno, swapName pid) := by
  have hdigits {ch : Char} (h : ch.isDigit = false) : ch ∉ Nat.toDigits 10 pid := not_mem_toDigits h
  have hlen : (Nat.toDigits 10 pid).length ≤ 10 :=
    (Nat.length_toDigits_le_iff (by decide) (by decide)).mpr (by omega)
  have hpath : cString (PathBuf.swapPath pid byte).byte kStackSize 0 =
      PathBuf.pathPrefix ++ Nat.toDigits 10 pid := by
    have htext := PathBuf.swapPath_text pid byte
    have hprefix : PathBuf.pathPrefix.length = 6 := rfl
    apply cString_eq
    · rw [List.length_append, kStackSize]
      omega
    · rw [List.mem_append, not_or]
      exact ⟨by decide, hdigits rfl⟩
    · intro j hj
      rw [Nat.zero_add, htext j (by rw [List.length_append]; omega), List.getElem_append_left hj]
    · rw [Nat.zero_add, htext _ (by simp), List.getElem_concat_length rfl]
  have helem : skipelem (PathBuf.pathPrefix ++ Nat.toDigits 10 pid) = some (swapName pid, []) := by
    rw [swapName, itoa_eq_toDigits]
    apply skipelem_last (['.', 's', 'w', 'a', 'p'] ++ Nat.toDigits 10 pid)
    · simp
    · rw [List.mem_append, not_or]
      exact ⟨by decide, hdigits rfl⟩
  rw [swapEntry, hpath, nameiparent, namexLoop, helem]
  simp [PathBuf.pathPrefix, hroot]

end PathNames

section Limits

/-- The paths of the two pids lead to different names in the root directory. -/
def Directories.Apart (t : Directories) (pid pid' : Int) : Prop :=
  ∀ byte byte', ∃ name name', t.swapEntry pid byte = some (rootIno, name) ∧
    t.swapEntry pid' byte' = some (rootIno, name') ∧ namecmp name name' ≠ 0

/-- The part of a pid that the name of its swap file shows. -/
def shownPid (pid : Nat) : Nat := if pid < 10 ^ 9 then pid else pid / 10

variable {pid pid' : Nat}

private theorem swapName_eq (hpid : pid < 2 ^ 31) :
    swapName pid = ['.', 's', 'w', 'a', 'p'] ++ itoa (shownPid pid) := by
  have hnine : (Nat.toDigits 10 pid).take 9 = Nat.toDigits 10 (shownPid pid) := by
    rw [shownPid]
    by_cases hshort : pid < 10 ^ 9
    · rw [if_pos hshort, List.take_of_length_le]
      exact (Nat.length_toDigits_le_iff (by decide) (by decide)).mpr hshort
    · have hle : (Nat.toDigits 10 (pid / 10)).length ≤ 9 :=
        (Nat.length_toDigits_le_iff (by decide) (by decide)).mpr (by omega)
      have hgt : ¬ (Nat.toDigits 10 (pid / 10)).length ≤ 8 := by
        rw [Nat.length_toDigits_le_iff (by decide) (by decide)]
        omega
      rw [if_neg hshort, Nat.toDigits_of_base_le (by decide) (by omega), List.take_left' (by omega)]
  rw [swapName, itoa_eq_toDigits, itoa_eq_toDigits, ← hnine]
  rfl

private theorem apart_iff (t : Directories) (hroot : t.type rootIno = .T_DIR) (hpid : pid < 2 ^ 31)
    (hpid' : pid' < 2 ^ 31) : t.Apart pid pid' ↔ shownPid pid ≠ shownPid pid' := by
  have hzero (pid : Nat) : '\x00' ∉ ['.', 's', 'w', 'a', 'p'] ++ itoa pid := by
    rw [List.mem_append, not_or, itoa_eq_toDigits]
    exact ⟨by decide, not_mem_toDigits rfl⟩
  have hname (pid : Nat) : (swapName pid).take dirSiz = swapName pid := by
    rw [swapName, List.take_take, Nat.min_self]
  have hcmp : namecmp (swapName pid) (swapName pid') = 0 ↔ shownPid pid = shownPid pid' := by
    rw [namecmp, strncmp_eq_zero_iff, hname, hname, swapName_eq hpid, swapName_eq hpid']
    · constructor
      · intro h
        exact itoa_injective (List.append_cancel_left h)
      · intro h
        rw [h]
    · rw [swapName_eq hpid]
      exact hzero _
    · rw [swapName_eq hpid']
      exact hzero _
  rw [Ne, ← hcmp]
  constructor
  · intro h
    obtain ⟨name, name', hn, hn', hne⟩ := h (fun _ => '\x00') (fun _ => '\x00')
    rw [t.swapEntry_eq hroot pid hpid, Option.some.injEq, Prod.mk.injEq] at hn
    rw [t.swapEntry_eq hroot pid' hpid', Option.some.injEq, Prod.mk.injEq] at hn'
    rwa [← hn.2, ← hn'.2] at hne
  · intro h byte byte'
    exact ⟨_, _, t.swapEntry_eq hroot pid hpid byte, t.swapEntry_eq hroot pid' hpid' byte', h⟩

example : shownPid 1234567890 = shownPid 123456789 := by decide

/-- The paths of two processes are written inside their arrays and name two files just when both pids
have at most seven digits. -/
theorem swapPaths_iff (t : Directories) (hroot : t.type rootIno = .T_DIR) {pid pid' : Int}
    (hpos : 0 < pid) (hpos' : 0 < pid') (hint : pid < 2 ^ 31) (hint' : pid' < 2 ^ 31)
    (hne : pid ≠ pid') :
    (PathBuf.Written pid ∧ PathBuf.Written pid' ∧ t.Apart pid pid') ↔
      pid < pidLimit ∧ pid' < pidLimit := by
  lift pid to Nat using by omega
  lift pid' to Nat using by omega
  rw [PathBuf.written_iff, PathBuf.written_iff, apart_iff t hroot (by omega) (by omega)]
  constructor
  · intro h
    exact ⟨by exact_mod_cast h.1, by exact_mod_cast h.2.1⟩
  · intro h
    have hlt : pid < pidLimit := by exact_mod_cast h.1
    have hlt' : pid' < pidLimit := by exact_mod_cast h.2
    rw [pidLimit] at hlt hlt'
    refine ⟨hlt, hlt', ?_⟩
    rw [shownPid, shownPid, if_pos (by omega), if_pos (by omega)]
    omega

/-- Nothing but a root directory. -/
def rootOnly : Directories where
  type inum := if inum = rootIno then .T_DIR else .FREE
  dirlookup _ _ := none
  cwd := rootIno

theorem swapPaths_three_four :
    PathBuf.Written 3 ∧ PathBuf.Written 4 ∧ rootOnly.Apart 3 4 :=
  (swapPaths_iff rootOnly rfl (by decide) (by decide) (by decide) (by decide) (by decide)).mpr
    (by decide)

/-- The zero after the eight digits of pid 10000000 lands behind the array. -/
theorem swapPath_overruns :
    ¬ ∀ pid pid' : Int, 0 < pid → 0 < pid' → pid < 2 ^ 31 → pid' < 2 ^ 31 → pid ≠ pid' →
      PathBuf.Written pid ∧ PathBuf.Written pid' ∧ rootOnly.Apart pid pid' := by
  intro h
  have hwritten := (h (10000000 : Nat) (3 : Nat) (by decide) (by decide) (by decide) (by decide)
    (by decide)).1
  rw [PathBuf.written_iff] at hwritten
  exact absurd hwritten (by decide)

end Limits

end OsSessional.Paging
