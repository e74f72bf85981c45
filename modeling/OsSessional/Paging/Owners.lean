import OsSessional.Paging.FileSystem

/-!
# The owners of the swap files

The file table and the root directory seen from the processes: `owner` maps a slot to the pid of the
process there that has a swap file. Creating and removing a swap file keep the two in step, and
nothing that is done to other open files touches them.
-/

namespace OsSessional.Paging

open Function (update update_self update_of_ne)
open Outcome

section Names

/-- The number that digits stand for after `n`. -/
def digitsValue (n : Nat) (b : List Char) : Nat := b.foldl (fun n c => 10 * n + (c.toNat - 48)) n

private theorem digitsValue_digitChar (n i : Nat) (b : List Char) (hi : i < 10) :
    digitsValue n (Nat.digitChar i :: b) = digitsValue (10 * n + i) b := by
  rw [digitsValue, List.foldl_cons, Nat.toNat_digitChar_of_lt_ten hi, Nat.add_sub_cancel_left]
  rfl

private theorem itoaLoop_value (fuel i : Nat) (b : List Char) (h : i < fuel) :
    digitsValue 0 (itoaLoop fuel i b) = digitsValue i b := by
  induction fuel generalizing i b with
  | zero => omega
  | succ fuel ih =>
    have hdigit : i % 10 < 10 := Nat.mod_lt _ (by decide)
    simp only [itoaLoop]
    split
    · next hzero =>
      rw [digitsValue_digitChar _ _ _ hdigit]
      congr 1
      omega
    · rw [ih _ _ (by omega), digitsValue_digitChar _ _ _ hdigit]
      congr 1
      omega

theorem itoa_injective {i i' : Nat} (h : itoa i = itoa i') : i = i' := by
  have hvalue := itoaLoop_value (i + 1) i [] (by omega)
  have hvalue' := itoaLoop_value (i' + 1) i' [] (by omega)
  unfold itoa at h
  rw [h] at hvalue
  exact hvalue.symm.trans hvalue'

private theorem itoaLoop_length (fuel i n : Nat) (b : List Char) (hn : 0 < n) (h : i < 10 ^ n) :
    (itoaLoop fuel i b).length ≤ n + b.length := by
  induction fuel generalizing i n b with
  | zero => simp [itoaLoop]
  | succ fuel ih =>
    simp only [itoaLoop]
    split
    · simp only [List.length_cons]
      omega
    · next hrest =>
      cases n with
      | zero => omega
      | succ n =>
        rw [Nat.pow_succ] at h
        have hn' : 0 < n := by
          rcases Nat.eq_zero_or_pos n with rfl | hpos
          · omega
          · exact hpos
        refine (ih (i / 10) n _ hn' (by omega)).trans ?_
        simp only [List.length_cons]
        omega

/-- Pids of up to seven digits fit the path buffer of `createSwapFile`. -/
def pidLimit : Nat := 10 ^ 7

private theorem swapName_injective {pid pid' : Nat} (hlimit : pid < pidLimit)
    (h : swapName pid = swapName pid') : pid = pid' := by
  have hlen : (itoa pid).length ≤ 7 := itoaLoop_length _ pid 7 [] (by decide) hlimit
  -- the name is shorter than `DIRSIZ`, so neither of the two is cut off
  have hshort : (swapName pid).length = 5 + (itoa pid).length := by
    simp only [swapName, List.length_take, List.length_append, List.length_cons, List.length_nil, dirSiz]
    omega
  have hshort' : (swapName pid').length = min 14 (5 + (itoa pid').length) := by
    simp only [swapName, List.length_take, List.length_append, List.length_cons, List.length_nil, dirSiz]
  have hlen' : (itoa pid').length ≤ 7 := by
    rw [← h, hshort] at hshort'
    omega
  unfold swapName at h
  rw [List.take_of_length_le (by simp [dirSiz]; omega),
    List.take_of_length_le (by simp [dirSiz]; omega)] at h
  exact itoa_injective (List.append_cancel_left h)

end Names

namespace FileSystem

section Entries

variable {name name' : List Char} {inum : Nat} {dir : List Dirent}

private theorem isNamed_iff {de : Dirent} : de.isNamed name = true ↔ de.inum ≠ 0 ∧ de.name = name := by
  simp [Dirent.isNamed]

/-- Number of entries of a name. -/
def entries (name : List Char) (dir : List Dirent) : Nat := dir.countP (Dirent.isNamed name)

private theorem entries_dirlink (hinum : inum ≠ 0) :
    entries name' (dirlink name inum dir) = entries name' dir + if name = name' then 1 else 0 := by
  induction dir with
  | nil => by_cases hname : name = name' <;> simp [entries, dirlink, Dirent.isNamed, hinum, hname]
  | cons de dir ih =>
    simp only [dirlink]
    split
    · next hempty =>
      by_cases hname : name = name' <;> simp [entries, Dirent.isNamed, hinum, hname, hempty]
    · simp only [entries, List.countP_cons] at ih ⊢
      rw [ih]
      omega

private theorem find?_dirlink_other (hname : name ≠ name') :
    (dirlink name inum dir).find? (Dirent.isNamed name') = dir.find? (Dirent.isNamed name') := by
  induction dir with
  | nil => simp [dirlink, Dirent.isNamed, hname]
  | cons de dir ih =>
    simp only [dirlink]
    split
    · next hempty => simp [Dirent.isNamed, hname, hempty]
    · simp only [List.find?_cons, ih]

private theorem find?_dirlink_self (hinum : inum ≠ 0) (habsent : entries name dir = 0) :
    (dirlink name inum dir).find? (Dirent.isNamed name) = some ⟨inum, name⟩ := by
  induction dir with
  | nil => simp [dirlink, Dirent.isNamed, hinum]
  | cons de dir ih =>
    simp only [entries, List.countP_cons, Nat.add_eq_zero_iff] at habsent
    simp only [dirlink]
    split
    · simp [Dirent.isNamed, hinum]
    · rw [List.find?_cons, ih habsent.1]
      split
      · next hnamed => simp [hnamed] at habsent
      · rfl

private theorem entries_clearEntry_self (hpos : 0 < entries name dir) :
    entries name (clearEntry name dir) + 1 = entries name dir := by
  induction dir with
  | nil => simp [entries] at hpos
  | cons de dir ih =>
    simp only [clearEntry]
    split
    · next hnamed => simp [entries, hnamed, isNamed_iff]
    · next hother =>
      simp only [entries, List.countP_cons, hother] at hpos ih ⊢
      exact ih hpos

private theorem entries_clearEntry_other (hname : name ≠ name') :
    entries name' (clearEntry name dir) = entries name' dir := by
  induction dir with
  | nil => rfl
  | cons de dir ih =>
    simp only [clearEntry]
    split
    · next hnamed =>
      have hde := (isNamed_iff.mp hnamed).2
      simp [entries, Dirent.isNamed, hde, hname]
    · simp only [entries, List.countP_cons] at ih ⊢
      rw [ih]

private theorem find?_clearEntry_other (hname : name ≠ name') :
    (clearEntry name dir).find? (Dirent.isNamed name') = dir.find? (Dirent.isNamed name') := by
  induction dir with
  | nil => rfl
  | cons de dir ih =>
    simp only [clearEntry]
    split
    · next hnamed =>
      have hde := (isNamed_iff.mp hnamed).2
      simp [Dirent.isNamed, hde, hname]
    · simp only [List.find?_cons, ih]

private theorem dirlookup_eq_none {m : FileSystem} :
    m.dirlookup name = none ↔ entries name m.root = 0 := by
  simp [dirlookup, entries, List.find?_eq_none, List.countP_eq_zero]

end Entries

/-- Open-file pointers of processes to slot `f` of the file table. -/
def held (ofile : Slot × Fin nOFile → Option (Fin nFile)) (f : Fin nFile) : Nat :=
  tally (fun _ p => if p = some f then 1 else 0) ofile

/-- The swap file with this pid in its name is open at `f`. -/
structure Backs (m : FileSystem) (f : Fin nFile) (pid : Nat) : Prop where
  swap : (m.ftable f).isSwap = true
  ref : (m.ftable f).ref = 1
  entry : m.dirlookup (swapName pid) = some (m.ftable f).ip
  type : (m.dinode (m.ftable f).ip).type = .T_FILE
  nlink : 0 < (m.dinode (m.ftable f).ip).nlink

private theorem Backs.transfer {m m' : FileSystem} {f : Fin nFile} {pid : Nat} (h : m.Backs f pid)
    (hfile : m'.ftable f = m.ftable f) (hname : m'.dirlookup (swapName pid) = m.dirlookup (swapName pid))
    (hinode : m'.dinode (m.ftable f).ip = m.dinode (m.ftable f).ip) : m'.Backs f pid := by
  constructor
  · rw [hfile]
    exact h.swap
  · rw [hfile]
    exact h.ref
  · rw [hfile, hname]
    exact h.entry
  · rw [hfile, hinode]
    exact h.type
  · rw [hfile, hinode]
    exact h.nlink

/-- The processes that `owner` lists have a swap file each, and there are no other swap files. -/
structure Owned (m : FileSystem) (owner : Slot → Option Nat) : Prop where
  pid : ∀ c pid, owner c = some pid → 2 < pid ∧ pid < pidLimit
  pid_inj : ∀ c c' pid, owner c = some pid → owner c' = some pid → c = c'
  file : ∀ c pid, owner c = some pid → ∃ f, m.swapFile c = some f ∧ m.Backs f pid
  file_only : ∀ f, (m.ftable f).isSwap = true → ∃ c pid, owner c = some pid ∧ m.swapFile c = some f
  entry : ∀ c pid, owner c = some pid → entries (swapName pid) m.root = 1
  entry_only : ∀ pid, 2 < pid → (∀ c, owner c ≠ some pid) → entries (swapName pid) m.root = 0
  inode : ∀ c c' pid pid' f f', owner c = some pid → owner c' = some pid' → m.swapFile c = some f →
    m.swapFile c' = some f' → (m.ftable f).ip = (m.ftable f').ip → c = c'
  held_le : ∀ f, held m.ofile f ≤ (m.ftable f).ref
  held_swap : ∀ f, (m.ftable f).isSwap = true → held m.ofile f = 0

variable {m m' : FileSystem} {owner : Slot → Option Nat} {c np : Slot} {f : Fin nFile} {pid inum : Nat}

private theorem isSwap_iff {f : File} :
    f.isSwap = true ↔ 0 < f.ref ∧ f.type = .FD_INODE ∧ f.writable = oRDWR := by
  simp [File.isSwap, and_assoc]

section Frame

private theorem Owned.frame (h : m.Owned owner) (hroot : m'.root = m.root) (hptr : m'.swapFile = m.swapFile)
    (hfile : ∀ f, (m.ftable f).isSwap = true → m'.ftable f = m.ftable f)
    (hnew : ∀ f, (m'.ftable f).isSwap = true → (m.ftable f).isSwap = true)
    (hdinode : ∀ inum, 0 < (m.dinode inum).nlink → m'.dinode inum = m.dinode inum)
    (hheld : ∀ f, held m'.ofile f ≤ (m'.ftable f).ref)
    (hswap : ∀ f, (m.ftable f).isSwap = true → held m'.ofile f = 0) : m'.Owned owner where
  pid := h.pid
  pid_inj := h.pid_inj
  file c pid hc := by
    obtain ⟨f, hf, hback⟩ := h.file c pid hc
    refine ⟨f, by rw [hptr, hf], hback.transfer (hfile f hback.swap) ?_ (hdinode _ hback.nlink)⟩
    rw [dirlookup, dirlookup, hroot]
  file_only f hf := by
    rw [hptr]
    exact h.file_only f (hnew f hf)
  entry c pid hc := by
    rw [hroot]
    exact h.entry c pid hc
  entry_only pid hpid hc := by
    rw [hroot]
    exact h.entry_only pid hpid hc
  inode c c' pid pid' f f' hc hc' hf hf' hip := by
    rw [hptr] at hf hf'
    have hsame : ∀ {c pid f}, owner c = some pid → m.swapFile c = some f →
        m'.ftable f = m.ftable f := by
      intro c pid f hc hf
      obtain ⟨f₁, hf₁, hback⟩ := h.file c pid hc
      obtain rfl : f₁ = f := Option.some.inj (hf₁.symm.trans hf)
      exact hfile f₁ hback.swap
    rw [hsame hc hf, hsame hc' hf'] at hip
    exact h.inode c c' pid pid' f f' hc hc' hf hf' hip
  held_le := hheld
  held_swap f hf := hswap f (hnew f hf)

private theorem Owned.iget (h : m.Owned owner) : (m.iget inum).Owned owner :=
  h.frame rfl rfl (fun _ _ => rfl) (fun _ hf => hf) (fun _ _ => rfl) h.held_le h.held_swap

@[simp] theorem iput_ftable : (m.iput inum).ftable = m.ftable := by
  simp only [iput]
  split <;> rfl

@[simp] theorem iput_root : (m.iput inum).root = m.root := by
  simp only [iput]
  split <;> rfl

@[simp] theorem iput_swapFile : (m.iput inum).swapFile = m.swapFile := by
  simp only [iput]
  split <;> rfl

@[simp] theorem iput_ofile : (m.iput inum).ofile = m.ofile := by
  simp only [iput]
  split <;> rfl

private theorem iput_dinode {inum' : Nat} (h : 0 < (m.dinode inum').nlink) :
    (m.iput inum).dinode inum' = m.dinode inum' := by
  simp only [iput]
  split
  · next hfree =>
    have hne : inum' ≠ inum := by
      rintro rfl
      omega
    exact update_of_ne hne _ _
  · rfl

private theorem iput_dinode_other {inum' : Nat} (h : inum' ≠ inum) :
    (m.iput inum).dinode inum' = m.dinode inum' := by
  simp only [iput]
  split
  · exact update_of_ne h _ _
  · rfl

private theorem Owned.iput (h : m.Owned owner) : (m.iput inum).Owned owner := by
  apply h.frame
  · exact iput_root
  · exact iput_swapFile
  · exact fun f _ => by rw [iput_ftable]
  · exact fun f hf => by rwa [iput_ftable] at hf
  · exact fun _ => iput_dinode
  · exact fun f => by simpa using h.held_le f
  · exact fun f hf => by simpa using h.held_swap f hf

private theorem Owned.chdir (h : m.Owned owner) (cwd : Slot → Nat) :
    ({ m with cwd := cwd } : FileSystem).Owned owner :=
  h.frame rfl rfl (fun _ _ => rfl) (fun _ hf => hf) (fun _ _ => rfl) h.held_le h.held_swap

end Frame

section OpenFiles

private theorem held_update (ofile : Slot × Fin nOFile → Option (Fin nFile)) (i : Slot × Fin nOFile)
    (p : Option (Fin nFile)) (g : Fin nFile) :
    held (update ofile i p) g + (if ofile i = some g then 1 else 0) =
      held ofile g + if p = some g then 1 else 0 :=
  tally_update (fun _ p => if p = some g then 1 else 0) ofile i p

private theorem Owned.not_swap (h : m.Owned owner) {i : Slot × Fin nOFile} (hi : m.ofile i = some f) :
    (m.ftable f).isSwap = false := by
  have hdrop := held_update m.ofile i none f
  simp only [hi, if_true, reduceCtorEq, if_false] at hdrop
  cases hswap : (m.ftable f).isSwap with
  | false => rfl
  | true =>
    have hnone := h.held_swap f hswap
    omega

private theorem Owned.dupOne {fd : Fin nOFile} (h : m.Owned owner) (hdup : dupOne c np m fd = .ok m') :
    m'.Owned owner := by
  unfold FileSystem.dupOne at hdup
  cases hf : m.ofile (c, fd) with
  | none =>
    obtain rfl : m = m' := by simpa [hf] using hdup
    exact h
  | some f =>
    simp only [hf, filedup] at hdup
    split at hdup
    · simp [bind, Except.bind] at hdup
    · next hpos =>
      obtain rfl := by simpa [bind, Except.bind, pure, Except.pure] using hdup
      have hplain := h.not_swap hf
      have hne : ∀ g, (m.ftable g).isSwap = true → g ≠ f := by
        rintro g hg rfl
        simp [hplain] at hg
      have hadd := held_update m.ofile (np, fd) (some f)
      apply h.frame
      · rfl
      · rfl
      · exact fun g hg => update_of_ne (hne g hg) _ _
      · intro g hg
        by_cases hgf : g = f
        · subst hgf
          simp only [update_self, isSwap_iff] at hg ⊢
          exact ⟨by omega, hg.2⟩
        · simpa [hgf] using hg
      · exact fun _ _ => rfl
      · intro g
        have hbound := h.held_le g
        have hcount := hadd g
        by_cases hgf : g = f
        · subst hgf
          simp only [if_true, update_self] at hcount ⊢
          omega
        · rw [if_neg (fun heq => hgf (Option.some.inj heq).symm)] at hcount
          simp only [update_of_ne hgf]
          omega
      · intro g hg
        have hcount := hadd g
        have hzero := h.held_swap g hg
        rw [if_neg (fun heq => hne g hg (Option.some.inj heq).symm)] at hcount
        simp only
        omega

/-- What `fileclose` does. -/
structure Closed (f : Fin nFile) (m m' : FileSystem) : Prop where
  pos : 0 < (m.ftable f).ref
  root : m'.root = m.root
  swapFile : m'.swapFile = m.swapFile
  ofile : m'.ofile = m.ofile
  ftable : m'.ftable = update m.ftable f
    { m.ftable f with
      ref := (m.ftable f).ref - 1
      type := if (m.ftable f).ref = 1 then .FD_NONE else (m.ftable f).type }
  dinode : ∀ inum, 0 < (m.dinode inum).nlink → m'.dinode inum = m.dinode inum

private theorem fileclose_ok (h : m.fileclose f = .ok m') : Closed f m m' := by
  unfold fileclose at h
  simp only at h
  split at h
  · simp at h
  · next hpos =>
    split at h
    · next hmore =>
      obtain rfl := Except.ok.inj h
      refine ⟨by omega, rfl, rfl, rfl, ?_, fun _ _ => rfl⟩
      rw [if_neg (by omega)]
    · next hlast =>
      obtain rfl := Except.ok.inj h
      have hone : (m.ftable f).ref = 1 := by omega
      split
      · refine ⟨by omega, ?_, ?_, ?_, ?_, fun inum hlink => ?_⟩
        · exact iput_root
        · exact iput_swapFile
        · exact iput_ofile
        · rw [iput_ftable]
          simp [hone]
        · rw [iput_dinode]
          exact hlink
      · refine ⟨by omega, rfl, rfl, rfl, ?_, fun _ _ => rfl⟩
        simp [hone]

private theorem Owned.closeOne {fd : Fin nOFile} (h : m.Owned owner) (hclose : closeOne c m fd = .ok m') :
    m'.Owned owner := by
  unfold FileSystem.closeOne at hclose
  cases hf : m.ofile (c, fd) with
  | none =>
    obtain rfl : m = m' := by simpa [hf] using hclose
    exact h
  | some f =>
    simp only [hf] at hclose
    obtain ⟨m₁, hclosed, hend⟩ := bind_eq_ok.mp hclose
    obtain rfl := by simpa using hend
    replace hclosed := fileclose_ok hclosed
    have hplain := h.not_swap hf
    have hne : ∀ g, (m.ftable g).isSwap = true → g ≠ f := by
      rintro g hg rfl
      simp [hplain] at hg
    have hdrop := held_update m.ofile (c, fd) none
    simp only [hf, reduceCtorEq, if_false, Nat.add_zero] at hdrop
    apply h.frame
    · exact hclosed.root
    · exact hclosed.swapFile
    · intro g hg
      simp only [hclosed.ftable]
      exact update_of_ne (hne g hg) _ _
    · intro g hg
      simp only [hclosed.ftable] at hg
      by_cases hgf : g = f
      · subst hgf
        simp only [update_self, isSwap_iff] at hg ⊢
        obtain ⟨hpos, htype, hwritable⟩ := hg
        rw [if_neg (by omega)] at htype
        exact ⟨by omega, htype, hwritable⟩
      · simpa [hgf] using hg
    · exact hclosed.dinode
    · intro g
      have hbound := h.held_le g
      have hcount := hdrop g
      have hpos := hclosed.pos
      simp only [hclosed.ftable, hclosed.ofile]
      by_cases hgf : g = f
      · subst hgf
        simp only [if_true, update_self] at hcount ⊢
        omega
      · rw [update_of_ne hgf]
        omega
    · intro g hg
      have hcount := hdrop g
      have hzero := h.held_swap g hg
      simp only [hclosed.ofile]
      omega

end OpenFiles

section SwapFiles

/-- What `createSwapFile` does when there is no file of that name yet. -/
structure Created (c : Slot) (pid : Nat) (f : Fin nFile) (inum : Nat) (m m' : FileSystem) : Prop where
  ref : (m.ftable f).ref = 0
  used : inum ≠ 0
  type : (m.dinode inum).type = .FREE
  ftable : m'.ftable = update m.ftable f
    { type := .FD_INODE, ref := 1, readable := oWRONLY, writable := oRDWR, ip := inum }
  dinode : m'.dinode = update m.dinode inum ⟨.T_FILE, 1⟩
  root : m'.root = dirlink (swapName pid) inum m.root
  swapFile : m'.swapFile = update m.swapFile c (some f)
  ofile : m'.ofile = m.ofile

theorem createSwapFile_ok (habsent : entries (swapName pid) m.root = 0)
    (h : m.createSwapFile c pid = .ok m') : ∃ f inum, Created c pid f inum m m' := by
  unfold createSwapFile create at h
  rw [dirlookup_eq_none.mpr habsent] at h
  cases halloc : m.ialloc with
  | none => simp [halloc, bind, Except.bind] at h
  | some inum =>
    simp only [halloc, bind, Except.bind] at h
    split at h
    · simp at h
    · next f hf =>
      obtain rfl := by simpa [pure, Except.pure] using h
      have hslot := Scan.first_spec hf
      have hfree := List.find?_some halloc
      simp only [Bool.and_eq_true, decide_eq_true_eq] at hfree
      exact ⟨f, inum, of_decide_eq_true hslot, by omega, hfree.2, rfl, rfl, rfl, rfl, rfl⟩

private theorem Created.backs_new
    (hm : Created c pid f inum m m') (habsent : entries (swapName pid) m.root = 0) :
    m'.Backs f pid := by
  have hentry : m'.dirlookup (swapName pid) = some inum := by
    rw [dirlookup, hm.root, find?_dirlink_self hm.used habsent]
    rfl
  constructor
  · simp [hm.ftable, isSwap_iff]
  · simp [hm.ftable]
  · simpa [hm.ftable] using hentry
  · simp [hm.ftable, hm.dinode]
  · simp [hm.ftable, hm.dinode]

variable {f' : Fin nFile} {pid' : Nat}

private theorem Created.ne_old (hm : Created c pid f inum m m') (hback : m.Backs f' pid') :
    f' ≠ f ∧ (m.ftable f').ip ≠ inum := by
  constructor
  · rintro rfl
    have hone := hback.ref
    have hzero := hm.ref
    omega
  · intro hip
    have htype := hback.type
    rw [hip, hm.type] at htype
    simp at htype

private theorem Created.ftable_old (hm : Created c pid f inum m m') (hback : m.Backs f' pid') :
    m'.ftable f' = m.ftable f' := by
  rw [hm.ftable, update_of_ne (hm.ne_old hback).1]

private theorem Created.backs_old (hm : Created c pid f inum m m') (hback : m.Backs f' pid')
    (hname : swapName pid ≠ swapName pid') : m'.Backs f' pid' := by
  apply hback.transfer (hm.ftable_old hback)
  · rw [dirlookup, dirlookup, hm.root, find?_dirlink_other hname]
  · rw [hm.dinode, update_of_ne (hm.ne_old hback).2]

private theorem owner_cases {c' : Slot} (hc' : update owner c (some pid) c' = some pid') :
    c' = c ∧ pid' = pid ∨ c' ≠ c ∧ owner c' = some pid' := by
  by_cases hcc : c' = c
  · subst hcc
    rw [update_self] at hc'
    exact .inl ⟨rfl, (Option.some.inj hc').symm⟩
  · rw [update_of_ne hcc] at hc'
    exact .inr ⟨hcc, hc'⟩

section Created

variable (h : m.Owned owner) (hc : owner c = none) (hpid : 2 < pid) (hlimit : pid < pidLimit)
variable (hfresh : ∀ c', owner c' ≠ some pid) (hm : Created c pid f inum m m')

include h hfresh in
private theorem created_pid_inj {c₁ c₂ : Slot} (h₁ : update owner c (some pid) c₁ = some pid')
    (h₂ : update owner c (some pid) c₂ = some pid') : c₁ = c₂ := by
  rcases owner_cases h₁ with ⟨rfl, rfl⟩ | ⟨-, ho₁⟩
  · rcases owner_cases h₂ with ⟨rfl, -⟩ | ⟨-, ho₂⟩
    · rfl
    · exact absurd ho₂ (hfresh c₂)
  · rcases owner_cases h₂ with ⟨-, rfl⟩ | ⟨-, ho₂⟩
    · exact absurd ho₁ (hfresh c₁)
    · exact h.pid_inj c₁ c₂ pid' ho₁ ho₂

include hfresh hlimit in
private theorem created_name {c' : Slot} (hc' : owner c' = some pid') :
    swapName pid ≠ swapName pid' := by
  intro heq
  rw [← swapName_injective hlimit heq] at hc'
  exact hfresh c' hc'

include h hpid hlimit hfresh hm in
private theorem created_file {c' : Slot} (hc' : update owner c (some pid) c' = some pid') :
    ∃ f', m'.swapFile c' = some f' ∧ m'.Backs f' pid' := by
  rcases owner_cases hc' with ⟨rfl, rfl⟩ | ⟨hcc, hc'⟩
  · exact ⟨f, by simp [hm.swapFile], hm.backs_new (h.entry_only _ hpid hfresh)⟩
  · obtain ⟨f', hf', hback⟩ := h.file c' pid' hc'
    exact ⟨f', by simp [hm.swapFile, hcc, hf'], hm.backs_old hback (created_name hlimit hfresh hc')⟩

include h hc hm in
private theorem created_file_only {g : Fin nFile} (hg : (m'.ftable g).isSwap = true) :
    ∃ c' pid', update owner c (some pid) c' = some pid' ∧ m'.swapFile c' = some g := by
  by_cases hgf : g = f
  · subst hgf
    exact ⟨c, pid, by simp, by simp [hm.swapFile]⟩
  · rw [hm.ftable, update_of_ne hgf] at hg
    obtain ⟨c', pid', hc', hptr⟩ := h.file_only g hg
    have hcc : c' ≠ c := by
      rintro rfl
      simp [hc] at hc'
    exact ⟨c', pid', by simp [hcc, hc'], by simp [hm.swapFile, hcc, hptr]⟩

include h hpid hlimit hfresh hm in
private theorem created_entry {c' : Slot} (hc' : update owner c (some pid) c' = some pid') :
    entries (swapName pid') m'.root = 1 := by
  rw [hm.root, entries_dirlink hm.used]
  rcases owner_cases hc' with ⟨rfl, rfl⟩ | ⟨-, hc'⟩
  · rw [h.entry_only _ hpid hfresh, if_pos rfl]
  · rw [h.entry c' pid' hc', if_neg (created_name hlimit hfresh hc')]

include h hc hlimit hm in
private theorem created_entry_only
    (hpid' : 2 < pid') (hnone : ∀ c', update owner c (some pid) c' ≠ some pid') :
    entries (swapName pid') m'.root = 0 := by
  have hdiff : swapName pid ≠ swapName pid' := by
    intro heq
    apply hnone c
    rw [swapName_injective hlimit heq, update_self]
  rw [hm.root, entries_dirlink hm.used, if_neg hdiff]
  refine h.entry_only pid' hpid' fun c' hc' => hnone c' ?_
  have hcc : c' ≠ c := by
    rintro rfl
    simp [hc] at hc'
  rw [update_of_ne hcc, hc']

include h hm in
private theorem created_inode {c₁ c₂ : Slot} {pid₁ pid₂ : Nat} {f₁ f₂ : Fin nFile}
    (h₁ : update owner c (some pid) c₁ = some pid₁) (h₂ : update owner c (some pid) c₂ = some pid₂)
    (hf₁ : m'.swapFile c₁ = some f₁) (hf₂ : m'.swapFile c₂ = some f₂)
    (hip : (m'.ftable f₁).ip = (m'.ftable f₂).ip) : c₁ = c₂ := by
  rw [hm.swapFile] at hf₁ hf₂
  have hold : ∀ c' pid' f', c' ≠ c → owner c' = some pid' → update m.swapFile c (some f) c' = some f' →
      m.swapFile c' = some f' ∧ m'.ftable f' = m.ftable f' ∧ (m.ftable f').ip ≠ inum := by
    intro c' pid' f' hcc hc' hf'
    rw [update_of_ne hcc] at hf'
    obtain ⟨f'', hptr, hback⟩ := h.file c' pid' hc'
    obtain rfl : f'' = f' := Option.some.inj (hptr.symm.trans hf')
    exact ⟨hf', hm.ftable_old hback, (hm.ne_old hback).2⟩
  have hnew : ∀ f', update m.swapFile c (some f) c = some f' → (m'.ftable f').ip = inum := by
    intro f' hf'
    obtain rfl : f = f' := by simpa using hf'
    simp [hm.ftable]
  rcases owner_cases h₁ with ⟨rfl, -⟩ | ⟨hc₁, ho₁⟩
  · rcases owner_cases h₂ with ⟨rfl, -⟩ | ⟨hc₂, ho₂⟩
    · rfl
    · obtain ⟨-, hsame, hinum⟩ := hold c₂ pid₂ f₂ hc₂ ho₂ hf₂
      rw [hnew f₁ hf₁, hsame] at hip
      exact absurd hip.symm hinum
  · rcases owner_cases h₂ with ⟨rfl, -⟩ | ⟨hc₂, ho₂⟩
    · obtain ⟨-, hsame, hinum⟩ := hold c₁ pid₁ f₁ hc₁ ho₁ hf₁
      rw [hnew f₂ hf₂, hsame] at hip
      exact absurd hip hinum
    · obtain ⟨hp₁, hs₁, -⟩ := hold c₁ pid₁ f₁ hc₁ ho₁ hf₁
      obtain ⟨hp₂, hs₂, -⟩ := hold c₂ pid₂ f₂ hc₂ ho₂ hf₂
      rw [hs₁, hs₂] at hip
      exact h.inode c₁ c₂ pid₁ pid₂ f₁ f₂ ho₁ ho₂ hp₁ hp₂ hip

include h hm in
private theorem created_held_le (g : Fin nFile) : held m'.ofile g ≤ (m'.ftable g).ref := by
  have hbound := h.held_le g
  rw [hm.ofile]
  by_cases hgf : g = f
  · subst hgf
    have hzero := hm.ref
    simp only [hm.ftable, update_self]
    omega
  · rw [hm.ftable, update_of_ne hgf]
    exact hbound

include h hm in
private theorem created_held_swap {g : Fin nFile} (hg : (m'.ftable g).isSwap = true) :
    held m'.ofile g = 0 := by
  rw [hm.ofile]
  by_cases hgf : g = f
  · subst hgf
    have hbound := h.held_le g
    have hzero := hm.ref
    omega
  · rw [hm.ftable, update_of_ne hgf] at hg
    exact h.held_swap g hg

include h hc hpid hlimit hfresh hm in
theorem Owned.created : m'.Owned (update owner c (some pid)) where
  pid c' pid' hc' := by
    rcases owner_cases hc' with ⟨-, rfl⟩ | ⟨-, hc'⟩
    · exact ⟨hpid, hlimit⟩
    · exact h.pid c' pid' hc'
  pid_inj _ _ _ := created_pid_inj h hfresh
  file _ _ := created_file h hpid hlimit hfresh hm
  file_only _ := created_file_only h hc hm
  entry _ _ := created_entry h hpid hlimit hfresh hm
  entry_only _ := created_entry_only h hc hlimit hm
  inode _ _ _ _ _ _ := created_inode h hm
  held_le := created_held_le h hm
  held_swap _ := created_held_swap h hm

end Created

/-- What `removeSwapFile` does. -/
structure Removed (f : Fin nFile) (pid : Nat) (m m' : FileSystem) : Prop where
  ftable : m'.ftable = update m.ftable f { m.ftable f with ref := 0, type := .FD_NONE }
  root : m'.root = clearEntry (swapName pid) m.root
  swapFile : m'.swapFile = m.swapFile
  ofile : m'.ofile = m.ofile
  dinode : ∀ inum, inum ≠ (m.ftable f).ip → 0 < (m.dinode inum).nlink → m'.dinode inum = m.dinode inum

private theorem unlink_ok {name : List Char} (hentry : m.dirlookup name = some inum)
    (htype : (m.dinode inum).type = .T_FILE) (h : m.unlink name = .ok m') :
    m'.ftable = m.ftable ∧ m'.root = clearEntry name m.root ∧ m'.swapFile = m.swapFile ∧
      m'.ofile = m.ofile ∧ ∀ inum', inum' ≠ inum → m'.dinode inum' = m.dinode inum' := by
  unfold unlink at h
  simp only [hentry, iget, htype, reduceCtorEq, false_and, if_false] at h
  split at h
  · simp at h
  · obtain rfl := Except.ok.inj h
    refine ⟨iput_ftable, iput_root, iput_swapFile, iput_ofile, fun inum' hne => ?_⟩
    rw [iput_dinode_other hne]
    exact update_of_ne hne _ _

private theorem removeSwapFile_ok (hptr : m.swapFile c = some f) (hback : m.Backs f pid)
    (h : m.removeSwapFile c pid = .ok m') : Removed f pid m m' := by
  unfold removeSwapFile at h
  simp only [hptr] at h
  obtain ⟨m₁, hclose, hunlink⟩ := bind_eq_ok.mp h
  have hclosed := fileclose_ok hclose
  have hinode := hclosed.dinode _ hback.nlink
  have hentry : m₁.dirlookup (swapName pid) = some (m.ftable f).ip := by
    rw [dirlookup, hclosed.root]
    exact hback.entry
  have htype : (m₁.dinode (m.ftable f).ip).type = .T_FILE := by
    rw [hinode]
    exact hback.type
  obtain ⟨htable, hroot, hswap, hofile, hdinode⟩ := unlink_ok hentry htype hunlink
  constructor
  · rw [htable, hclosed.ftable]
    simp [hback.ref]
  · rw [hroot, hclosed.root]
  · rw [hswap, hclosed.swapFile]
  · rw [hofile, hclosed.ofile]
  · intro inum hne hlink
    rw [hdinode inum hne, hclosed.dinode inum hlink]

private theorem owner_left {c' : Slot} (hc' : update owner c none c' = some pid') :
    c' ≠ c ∧ owner c' = some pid' := by
  by_cases hcc : c' = c
  · subst hcc
    simp at hc'
  · rw [update_of_ne hcc] at hc'
    exact ⟨hcc, hc'⟩

section Removed

variable (h : m.Owned owner) (hc : owner c = some pid) (hptr : m.swapFile c = some f)
variable (hm : Removed f pid m m') {c' : Slot}

include h hc hptr in
private theorem removed_ip_ne (hcc : c' ≠ c) (hc' : owner c' = some pid') (hf' : m.swapFile c' = some f') :
    (m.ftable f').ip ≠ (m.ftable f).ip :=
  fun heq => hcc (h.inode c' c pid' pid f' f hc' hc hf' hptr heq)

include h hc in
private theorem removed_name (hcc : c' ≠ c) (hc' : owner c' = some pid') :
    swapName pid ≠ swapName pid' := by
  intro heq
  rw [← swapName_injective (h.pid c pid hc).2 heq] at hc'
  exact hcc (h.pid_inj c' c pid hc' hc)

include h hc hptr hm in
private theorem removed_ftable (hcc : c' ≠ c) (hc' : owner c' = some pid') (hf' : m.swapFile c' = some f') :
    m'.ftable f' = m.ftable f' := by
  rw [hm.ftable, update_of_ne]
  rintro rfl
  exact removed_ip_ne h hc hptr hcc hc' hf' rfl

include h hc hptr hm in
private theorem removed_file (hc' : update owner c none c' = some pid') :
    ∃ f', m'.swapFile c' = some f' ∧ m'.Backs f' pid' := by
  obtain ⟨hcc, howner⟩ := owner_left hc'
  obtain ⟨f', hf', hback⟩ := h.file c' pid' howner
  refine ⟨f', by rw [hm.swapFile, hf'], hback.transfer ?_ ?_ ?_⟩
  · exact removed_ftable h hc hptr hm hcc howner hf'
  · rw [dirlookup, dirlookup, hm.root, find?_clearEntry_other (removed_name h hc hcc howner)]
  · exact hm.dinode _ (removed_ip_ne h hc hptr hcc howner hf') hback.nlink

include hm in
private theorem removed_not_swap {g : Fin nFile} (hg : (m'.ftable g).isSwap = true) : g ≠ f := by
  rintro rfl
  simp [hm.ftable, isSwap_iff] at hg

include h hptr hm in
private theorem removed_file_only {g : Fin nFile} (hg : (m'.ftable g).isSwap = true) :
    ∃ c' pid', update owner c none c' = some pid' ∧ m'.swapFile c' = some g := by
  have hgf := removed_not_swap hm hg
  rw [hm.ftable, update_of_ne hgf] at hg
  obtain ⟨c', pid', hc', hptr'⟩ := h.file_only g hg
  have hcc : c' ≠ c := by
    rintro rfl
    exact hgf (Option.some.inj (hptr'.symm.trans hptr))
  exact ⟨c', pid', by rw [update_of_ne hcc, hc'], by rw [hm.swapFile, hptr']⟩

include h hc hm in
private theorem removed_entry (hc' : update owner c none c' = some pid') :
    entries (swapName pid') m'.root = 1 := by
  obtain ⟨hcc, howner⟩ := owner_left hc'
  rw [hm.root, entries_clearEntry_other (removed_name h hc hcc howner)]
  exact h.entry c' pid' howner

include h hc hm in
private theorem removed_entry_only
    (hpid' : 2 < pid') (hnone : ∀ c', update owner c none c' ≠ some pid') :
    entries (swapName pid') m'.root = 0 := by
  rw [hm.root]
  by_cases hpp : pid = pid'
  · subst hpp
    have hone := h.entry c pid hc
    have hdrop : entries (swapName pid) (clearEntry (swapName pid) m.root) + 1 =
        entries (swapName pid) m.root := entries_clearEntry_self (by omega)
    omega
  · have hdiff : swapName pid ≠ swapName pid' :=
      fun heq => hpp (swapName_injective (h.pid c pid hc).2 heq)
    rw [entries_clearEntry_other hdiff]
    refine h.entry_only pid' hpid' fun c' hc' => hnone c' ?_
    have hcc : c' ≠ c := by
      rintro rfl
      exact hpp (Option.some.inj (hc.symm.trans hc'))
    rw [update_of_ne hcc, hc']

include h hc hptr hm in
private theorem removed_inode {c₁ c₂ : Slot} {pid₁ pid₂ : Nat} {f₁ f₂ : Fin nFile}
    (h₁ : update owner c none c₁ = some pid₁) (h₂ : update owner c none c₂ = some pid₂)
    (hf₁ : m'.swapFile c₁ = some f₁) (hf₂ : m'.swapFile c₂ = some f₂)
    (hip : (m'.ftable f₁).ip = (m'.ftable f₂).ip) : c₁ = c₂ := by
  obtain ⟨hc₁, ho₁⟩ := owner_left h₁
  obtain ⟨hc₂, ho₂⟩ := owner_left h₂
  rw [hm.swapFile] at hf₁ hf₂
  rw [removed_ftable h hc hptr hm hc₁ ho₁ hf₁, removed_ftable h hc hptr hm hc₂ ho₂ hf₂] at hip
  exact h.inode c₁ c₂ pid₁ pid₂ f₁ f₂ ho₁ ho₂ hf₁ hf₂ hip

include h hm in
private theorem removed_held_swap {g : Fin nFile} (hg : (m'.ftable g).isSwap = true) :
    held m'.ofile g = 0 := by
  have hgf := removed_not_swap hm hg
  rw [hm.ftable, update_of_ne hgf] at hg
  rw [hm.ofile]
  exact h.held_swap g hg

include h hm in
private theorem removed_held_le (hback : m.Backs f pid) (g : Fin nFile) :
    held m'.ofile g ≤ (m'.ftable g).ref := by
  have hbound := h.held_le g
  rw [hm.ofile]
  by_cases hgf : g = f
  · subst hgf
    have hnone := h.held_swap g hback.swap
    omega
  · rw [hm.ftable, update_of_ne hgf]
    exact hbound

end Removed

private theorem Owned.removed (h : m.Owned owner) (hc : owner c = some pid)
    (hremove : m.removeSwapFile c pid = .ok m') : m'.Owned (update owner c none) := by
  obtain ⟨f, hptr, hback⟩ := h.file c pid hc
  have hm := removeSwapFile_ok hptr hback hremove
  constructor
  · exact fun c' pid' hc' => h.pid c' pid' (owner_left hc').2
  · exact fun c₁ c₂ pid' h₁ h₂ => h.pid_inj c₁ c₂ pid' (owner_left h₁).2 (owner_left h₂).2
  · exact fun _ _ => removed_file h hc hptr hm
  · exact fun _ => removed_file_only h hptr hm
  · exact fun _ _ => removed_entry h hc hm
  · exact fun _ => removed_entry_only h hc hm
  · exact fun _ _ _ _ _ _ => removed_inode h hc hptr hm
  · exact removed_held_le h hm hback
  · exact fun _ => removed_held_swap h hm

end SwapFiles

section Calls

theorem Owned.replaced {m₁ : FileSystem} (h : m.Owned owner) (hc : owner c = some pid)
    (hremove : m.removeSwapFile c pid = .ok m₁) (hcreate : m₁.createSwapFile c pid = .ok m') :
    m'.Owned owner := by
  obtain ⟨hpid, hlimit⟩ := h.pid c pid hc
  have hremoved := h.removed hc hremove
  have hfresh : ∀ c', update owner c none c' ≠ some pid := by
    intro c' hc'
    by_cases hcc : c' = c
    · subst hcc
      simp at hc'
    · rw [update_of_ne hcc] at hc'
      exact hcc (h.pid_inj c' c pid hc' hc)
  obtain ⟨f, inum, hcreated⟩ := createSwapFile_ok (hremoved.entry_only pid hpid hfresh) hcreate
  have hfinal := hremoved.created (update_self c none owner) hpid hlimit hfresh hcreated
  rw [Function.update_idem, ← hc, Function.update_eq_self] at hfinal
  exact hfinal

theorem Owned.inherit (h : m.Owned owner) (hinherit : m.inherit c np = .ok m') : m'.Owned owner := by
  unfold FileSystem.inherit at hinherit
  obtain ⟨m₁, hloop, hend⟩ := bind_eq_ok.mp hinherit
  obtain rfl := by simpa using hend
  have hdup : m₁.Owned owner := by
    apply foldlM_keeps (I := fun m => m.Owned owner) _ _ h hloop
    exact fun _ _ _ h₁ hdup => h₁.dupOne hdup
  exact hdup.iget.chdir _

theorem Owned.release (h : m.Owned owner) (hc : owner c = if 2 < pid then some pid else none)
    (hrelease : m.release c pid = .ok m') : m'.Owned (update owner c none) := by
  unfold FileSystem.release at hrelease
  obtain ⟨m₁, hloop, hrest⟩ := bind_eq_ok.mp hrelease
  obtain ⟨m₂, hremove, hend⟩ := bind_eq_ok.mp hrest
  obtain rfl := pure_eq_ok.mp hend
  have hclosed : m₁.Owned owner := by
    apply foldlM_keeps (I := fun m => m.Owned owner) _ _ h hloop
    exact fun _ _ _ h₁ hclose => h₁.closeOne hclose
  have hremoved : m₂.Owned (update owner c none) := by
    split at hremove
    · next hpid =>
      rw [if_pos hpid] at hc
      exact hclosed.removed hc hremove
    · next hpid =>
      rw [if_neg hpid] at hc
      obtain rfl := Except.ok.inj hremove
      rw [← hc, Function.update_eq_self]
      exact hclosed
  exact hremoved.iput.chdir _

end Calls

end FileSystem

end OsSessional.Paging
