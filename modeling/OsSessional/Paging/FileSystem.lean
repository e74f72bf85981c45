import OsSessional.Paging.Kernel
import OsSessional.Lib.Outcome
import OsSessional.Lib.Scan
import OsSessional.Lib.Threads

/-!
# Open files and the root directory

The part of `file.c`, `fs.c` and `sysfile.c` that creating, closing and removing a swap file goes
through: the file table, the inodes by number, and the entries of the root directory, where all swap
files live. Inode references that are taken and dropped within one call do not show.
-/

namespace OsSessional.Paging

open Function (update)
open Outcome

def nFile : Nat := 100
def nOFile : Nat := 16
def dirSiz : Nat := 14
def rootIno : Nat := 1

inductive FileType
  | FD_NONE | FD_PIPE | FD_INODE
  deriving DecidableEq

/-- `struct file`; `ip` is the number of its inode. -/
structure File where
  type : FileType
  ref : Nat
  readable : Nat
  writable : Nat
  ip : Nat

/-- The `type` of an inode; `0` is a free one. -/
inductive InodeType
  | FREE | T_DIR | T_FILE | T_DEV
  deriving DecidableEq

/-- `struct dinode`. -/
structure Dinode where
  type : InodeType
  nlink : Nat

/-- `struct dirent`; an inode number of `0` marks an empty entry. -/
structure Dirent where
  inum : Nat
  name : List Char

/-- Whether the entry is in use and carries this name. -/
def Dirent.isNamed (name : List Char) (de : Dirent) : Bool :=
  decide (de.inum ≠ 0) && decide (de.name = name)

/-- The ways file-system code stops. -/
inductive Panic
  | filedup | fileclose | ialloc | iunlock | noSlotForFiles | unlinkNlink
  deriving DecidableEq

def oWRONLY : Nat := 1
def oRDWR : Nat := 2

/-- A swap file as `createSwapFile` opens it. Other files hold truth values in `writable`. -/
def File.isSwap (f : File) : Bool :=
  decide (0 < f.ref) && decide (f.type = .FD_INODE) && decide (f.writable = oRDWR)

/-- The loop of `itoa` that inserts the digits from the last one on. -/
def itoaLoop : Nat → Nat → List Char → List Char
  | 0, _, b => b
  | fuel + 1, i, b =>
    let b := Nat.digitChar (i % 10) :: b
    if i / 10 = 0 then b else itoaLoop fuel (i / 10) b

/-- `itoa` of a pid. -/
def itoa (i : Nat) : List Char := itoaLoop (i + 1) i []

/-- The path element `skipelem` cuts out of `/.swap<pid>`. -/
def swapName (pid : Nat) : List Char := (['.', 's', 'w', 'a', 'p'] ++ itoa pid).take dirSiz

/-- The file table, the disc inodes with their references in the inode cache, the root directory, and
what the processes hold of them. -/
structure FileSystem where
  ftable : Fin nFile → File
  dinode : Nat → Dinode
  iref : Nat → Nat
  ninodes : Nat
  isdirempty : Nat → Bool
  root : List Dirent
  swapFile : Slot → Option (Fin nFile)
  ofile : Slot × Fin nOFile → Option (Fin nFile)
  cwd : Slot → Nat

namespace FileSystem

variable (m : FileSystem)

section Inodes

def iget (inum : Nat) : FileSystem := { m with iref := update m.iref inum (m.iref inum + 1) }

/-- `iput`: the last reference to an inode without links frees it. -/
def iput (inum : Nat) : FileSystem :=
  let m :=
    if (m.dinode inum).nlink = 0 ∧ m.iref inum = 1 then
      { m with dinode := update m.dinode inum { m.dinode inum with type := .FREE } }
    else m
  { m with iref := update m.iref inum (m.iref inum - 1) }

/-- `ip->nlink--` and `iupdate`. -/
def dropLink (inum : Nat) : FileSystem :=
  { m with dinode := update m.dinode inum { m.dinode inum with nlink := (m.dinode inum).nlink - 1 } }

/-- `ialloc`: the number of the first free inode. -/
def ialloc : Option Nat :=
  (List.range m.ninodes).find? fun inum => decide (1 ≤ inum) && decide ((m.dinode inum).type = .FREE)

/-- `dirlookup` in the root directory. -/
def dirlookup (name : List Char) : Option Nat :=
  (m.root.find? (Dirent.isNamed name)).map Dirent.inum

/-- `dirlink`: the first empty entry is filled, or one appended. -/
def dirlink (name : List Char) (inum : Nat) : List Dirent → List Dirent
  | [] => [⟨inum, name⟩]
  | de :: dir => if de.inum = 0 then ⟨inum, name⟩ :: dir else de :: dirlink name inum dir

/-- The entry that `dirlookup` finds, cleared. -/
def clearEntry (name : List Char) : List Dirent → List Dirent
  | [] => []
  | de :: dir => if de.isNamed name then ⟨0, []⟩ :: dir else de :: clearEntry name dir

/-- `create(path, T_FILE, 0, 0)` in the root directory. On a name that is taken by something else it
returns null, and its caller unlocks that. -/
def create (name : List Char) : Except Panic (FileSystem × Nat) :=
  match m.dirlookup name with
  | some inum =>
    if (m.dinode inum).type = .T_FILE then .ok (m.iget inum, inum) else .error .iunlock
  | none =>
    match m.ialloc with
    | none => .error .ialloc
    | some inum =>
      let m := m.iget inum
      .ok ({ m with
        dinode := update m.dinode inum ⟨.T_FILE, 1⟩
        root := dirlink name inum m.root }, inum)

end Inodes

section OpenFiles

/-- `filealloc`: the first slot without references. -/
def filealloc : Option (Fin nFile) := Scan.first fun f => decide ((m.ftable f).ref = 0)

def filedup (f : Fin nFile) : Except Panic FileSystem :=
  if (m.ftable f).ref < 1 then .error .filedup
  else .ok { m with ftable := update m.ftable f { m.ftable f with ref := (m.ftable f).ref + 1 } }

/-- `fileclose`; pipes have no part in this. -/
def fileclose (f : Fin nFile) : Except Panic FileSystem :=
  let ff := m.ftable f
  if ff.ref < 1 then .error .fileclose
  else if 0 < ff.ref - 1 then .ok { m with ftable := update m.ftable f { ff with ref := ff.ref - 1 } }
  else
    let m := { m with ftable := update m.ftable f { ff with ref := 0, type := .FD_NONE } }
    .ok (if ff.type = .FD_INODE then m.iput ff.ip else m)

end OpenFiles

section SwapFiles

/-- `createSwapFile` for the process in slot `c`. -/
def createSwapFile (c : Slot) (pid : Nat) : Except Panic FileSystem := do
  let (m, inum) ← m.create (swapName pid)
  match m.filealloc with
  | none => .error .noSlotForFiles
  | some f => return { m with
      ftable := update m.ftable f
        { type := .FD_INODE, ref := 1, readable := oWRONLY, writable := oRDWR, ip := inum }
      swapFile := update m.swapFile c (some f) }

/-- The second half of `removeSwapFile`, as in `unlink`. -/
def unlink (name : List Char) : Except Panic FileSystem :=
  match m.dirlookup name with
  | none => .ok m
  | some inum =>
    let m := m.iget inum
    if (m.dinode inum).nlink < 1 then .error .unlinkNlink
    else if (m.dinode inum).type = .T_DIR ∧ m.isdirempty inum = false then .ok (m.iput inum)
    else
      let m := { m with root := clearEntry name m.root }
      let m :=
        if (m.dinode inum).type = .T_DIR then m.dropLink rootIno else m
      .ok ((m.dropLink inum).iput inum)

/-- `removeSwapFile`; the pointer to the closed file stays behind. -/
def removeSwapFile (c : Slot) (pid : Nat) : Except Panic FileSystem :=
  match m.swapFile c with
  | none => .ok m
  | some f => do
    let m ← m.fileclose f
    m.unlink (swapName pid)

end SwapFiles

section Processes

/-- One round of the loop of `fork` over the open files. -/
def dupOne (c np : Slot) (m : FileSystem) (fd : Fin nOFile) : Except Panic FileSystem :=
  match m.ofile (c, fd) with
  | none => .ok m
  | some f => do
    let m ← m.filedup f
    return { m with ofile := update m.ofile (np, fd) (some f) }

/-- The child takes over the open files and the current directory. -/
def inherit (c np : Slot) : Except Panic FileSystem := do
  let m ← (List.finRange nOFile).foldlM (dupOne c np) m
  let m := m.iget (m.cwd c)
  return { m with cwd := update m.cwd np (m.cwd c) }

/-- One round of the loop of `exit` over the open files. -/
def closeOne (c : Slot) (m : FileSystem) (fd : Fin nOFile) : Except Panic FileSystem :=
  match m.ofile (c, fd) with
  | none => .ok m
  | some f => do
    let m ← m.fileclose f
    return { m with ofile := update m.ofile (c, fd) none }

/-- What `exit` closes; `pid` is that of the process. -/
def release (c : Slot) (pid : Nat) : Except Panic FileSystem := do
  let m ← (List.finRange nOFile).foldlM (closeOne c) m
  let m ← (if pid > 2 then m.removeSwapFile c pid else .ok m : Except Panic FileSystem)
  let m := m.iput (m.cwd c)
  return { m with cwd := update m.cwd c 0 }

end Processes

end FileSystem

end OsSessional.Paging
