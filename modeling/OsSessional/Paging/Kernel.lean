import OsSessional.Paging.SwapFile
import Mathlib.Logic.Function.Basic

/-!
# Kernel state

The part of the kernel the pager works on: the free list of `kalloc.c`, physical memory, page
directories, the process table with the two metadata tables of each process, and the global
`buffer` of `vm.c`. Page-table pages are kept as typed tables next to the frames they occupy.
-/

namespace OsSessional.Paging

open Function (update)

/-- `struct pageData`. -/
structure PageData where
  pageDirectory : Frame
  isUsed : Bool
  virtualAddress : Nat
  timer : Int
  ageCounter : BitVec 32
  isImportant : Int

/-- `struct pageData` as it stands in zeroed memory. -/
def PageData.zero : PageData := ⟨0, false, 0, 0, 0, 0⟩

inductive ProcState
  | UNUSED | EMBRYO | SLEEPING | RUNNABLE | RUNNING | ZOMBIE
  deriving DecidableEq

abbrev RamTable := Fin maxPyscPages → PageData
abbrev DiscTable := Fin discPages → PageData

/-- The fields of `struct proc` that the pager reads or writes. -/
structure Proc where
  sz : Nat
  pgdir : Frame
  kstack : Option Frame
  state : ProcState
  pid : Nat
  killed : Bool
  swapFile : Option SwapFile
  pagesInPhysicalMemory : RamTable
  pagesInDisc : DiscTable
  timer : Int
  pageFault : Nat

/-- A page directory: its present entries, each with the frame of its page table, and the
second-level entries by page number. -/
structure PageDir where
  pde : Nat → Option Frame
  pte : Nat → PTE

/-- The second-level entry of page `n`; without a page table there is none, and it counts as
cleared. -/
def PageDir.entry (dir : PageDir) (n : Nat) : PTE :=
  if (dir.pde (n / nptEntries)).isSome then dir.pte n else 0

def nProc : Nat := 64
/-- Index into `ptable.proc`. -/
abbrev Slot := Fin nProc

theorem zero_lt_nProc : 0 < nProc := by decide
theorem one_lt_nProc : 1 < nProc := by decide
theorem two_lt_nProc : 2 < nProc := by decide

structure Kernel where
  freelist : List Frame
  mem : Frame → Page
  dirs : Frame → PageDir
  proc : Slot → Proc
  buffer : Page
  nextpid : Nat

/-- `R_ALGO`. -/
inductive ReplacementAlgo
  | FIFO | AGING | LIFO
  deriving DecidableEq

/-- What the build fixes: `R_ALGO`, `OPTIMIZATION`, and the physical end of the kernel image. -/
structure Config where
  rAlgo : ReplacementAlgo
  optimization : Bool
  kernelEnd : Nat
  kernelEnd_pos : 0 < kernelEnd

/-- The ways kernel code stops: its panics, the null pointers it may follow, and a `begin_op` that
waits for its own process. -/
inductive Crash
  | kfree
  | remap
  | pageInRemap
  | swappedPteMissing
  | copyuvmPteShouldExist
  | copyuvmPageNotPresent
  | freevmNoPgdir
  | clearpteu
  | loaduvmNotAligned
  | loaduvmAddressShouldExist
  | trap
  | initExiting
  | nullPte
  | nullSwapFile
  | beginOp
  deriving DecidableEq

namespace Kernel

variable (k : Kernel)

/-- The page-table entry of page `n` in directory `d`. -/
def pte (d : Frame) (n : Nat) : PTE := (k.dirs d).entry n

def setProc (c : Slot) (p : Proc) : Kernel := { k with proc := update k.proc c p }

def setMem (fr : Frame) (pg : Page) : Kernel := { k with mem := update k.mem fr pg }

/-- Store through a second-level entry pointer. -/
def setPte (d : Frame) (n : Nat) (v : PTE) : Kernel :=
  { k with dirs := update k.dirs d { k.dirs d with pte := update (k.dirs d).pte n v } }

def setRam (c : Slot) (i : Fin maxPyscPages) (e : PageData) : Kernel :=
  k.setProc c
    { k.proc c with pagesInPhysicalMemory := update (k.proc c).pagesInPhysicalMemory i e }

def setDisc (c : Slot) (j : Fin discPages) (e : PageData) : Kernel :=
  k.setProc c { k.proc c with pagesInDisc := update (k.proc c).pagesInDisc j e }

def setSwapFile (c : Slot) (f : Option SwapFile) : Kernel :=
  k.setProc c { k.proc c with swapFile := f }

/-- `kalloc`. -/
def kalloc : Option Frame × Kernel :=
  match k.freelist with
  | [] => (none, k)
  | r :: rest => (some r, { k with freelist := rest })

/-- The frame at `v` filled with junk and put on the free list. -/
def freed (v : Frame) : Kernel := { k.setMem v (fun _ => 1) with freelist := v :: k.freelist }

/-- `kfree` of the frame at `v`. -/
def kfree (cfg : Config) (v : Frame) : Except Crash Kernel :=
  if v.toNat % pgSize ≠ 0 ∨ v.toNat < cfg.kernelEnd ∨ physTop ≤ v.toNat then .error .kfree
  else .ok (k.freed v)

/-- `walkpgdir(pgdir, va, 0)`: the entry, or `none` for the null pointer. -/
def walkpgdir (d : Frame) (va : Nat) : Option PTE :=
  if ((k.dirs d).pde (pdx va)).isSome then some ((k.dirs d).pte (vpn va)) else none

/-- `walkpgdir(pgdir, va, 1)`: the page table of `va` is there afterwards, zeroed when it is
new; `none` when no frame is left for it. -/
def walkpgdirAlloc (d : Frame) (va : Nat) : Option Kernel :=
  if ((k.dirs d).pde (pdx va)).isSome then some k
  else
    match k.kalloc with
    | (none, _) => none
    | (some pgtab, k) => some
        { k with
          dirs := update k.dirs d
            { pde := update (k.dirs d).pde (pdx va) (some pgtab)
              pte := fun n => if n / nptEntries = pdx va then 0 else (k.dirs d).pte n } }

/-- `mappages` of one page at the page-aligned address `va`, the only size user mappings use. -/
def mappages (d : Frame) (va : Nat) (pa : Frame) (perm : PTE) : Except Crash (Option Kernel) :=
  match k.walkpgdirAlloc d va with
  | none => .ok none
  | some k =>
    if hasFlag (k.pte d (vpn va)) .P then .error .remap
    else .ok (some (k.setPte d (vpn va) (mapPte pa perm)))

/-- A page of user memory as kernel code sees it through the page table loaded in CR3; `none`
is a page fault in kernel mode. -/
def userPage (d : Frame) (va : Nat) : Option Page :=
  if hasFlag (k.pte d (vpn va)) .P then some (k.mem (pteAddr (k.pte d (vpn va)))) else none

/-- Kernel code stores `n` bytes at the start of a user page through CR3. -/
def writeUserPage (d : Frame) (va : Nat) (n : Nat) (bytes : Nat → Byte) : Option Kernel :=
  let p := k.pte d (vpn va)
  if hasFlag p .P && hasFlag p .W then
    some (k.setMem (pteAddr p) (fun i => if i.val < n then bytes i else k.mem (pteAddr p) i))
  else none

section Projections

variable {k} {c c' : Slot} {d d' fr : Frame} {n n' : Nat} {v : PTE} {p : Proc} {pg : Page}
variable {i : Fin maxPyscPages} {j : Fin discPages} {e : PageData} {f : Option SwapFile}

@[simp] theorem setProc_proc_self : (k.setProc c p).proc c = p := by simp [setProc]
theorem setProc_proc_of_ne (h : c' ≠ c) : (k.setProc c p).proc c' = k.proc c' := by
  simp [setProc, h]
@[simp] theorem setProc_pte : (k.setProc c p).pte = k.pte := rfl
@[simp] theorem setProc_dirs : (k.setProc c p).dirs = k.dirs := rfl
@[simp] theorem setProc_mem : (k.setProc c p).mem = k.mem := rfl
@[simp] theorem setProc_freelist : (k.setProc c p).freelist = k.freelist := rfl
@[simp] theorem setProc_buffer : (k.setProc c p).buffer = k.buffer := rfl
@[simp] theorem setProc_setProc {q : Proc} : (k.setProc c p).setProc c q = k.setProc c q := by
  simp [setProc]

@[simp] theorem setProc_self : k.setProc c (k.proc c) = k := by simp [setProc]

@[simp] theorem setMem_proc : (k.setMem fr pg).proc = k.proc := rfl
@[simp] theorem setMem_pte : (k.setMem fr pg).pte = k.pte := rfl
@[simp] theorem setMem_dirs : (k.setMem fr pg).dirs = k.dirs := rfl
@[simp] theorem setMem_freelist : (k.setMem fr pg).freelist = k.freelist := rfl
@[simp] theorem setMem_mem : (k.setMem fr pg).mem = update k.mem fr pg := rfl

@[simp] theorem freed_proc : (k.freed fr).proc = k.proc := rfl
@[simp] theorem freed_pte : (k.freed fr).pte = k.pte := rfl
@[simp] theorem freed_dirs : (k.freed fr).dirs = k.dirs := rfl
@[simp] theorem freed_freelist : (k.freed fr).freelist = fr :: k.freelist := rfl
@[simp] theorem freed_mem : (k.freed fr).mem = update k.mem fr (fun _ => 1) := rfl
@[simp] theorem freed_buffer : (k.freed fr).buffer = k.buffer := rfl

@[simp] theorem setPte_proc : (k.setPte d n v).proc = k.proc := rfl
@[simp] theorem setPte_mem : (k.setPte d n v).mem = k.mem := rfl
@[simp] theorem setPte_freelist : (k.setPte d n v).freelist = k.freelist := rfl
@[simp] theorem setPte_buffer : (k.setPte d n v).buffer = k.buffer := rfl
@[simp] theorem setPte_pde : ((k.setPte d n v).dirs d').pde = (k.dirs d').pde := by
  by_cases h : d' = d
  · subst h; simp [setPte]
  · simp [setPte, h]

/-- Whether page `n` has a page table in directory `d`. -/
def hasTable (k : Kernel) (d : Frame) (n : Nat) : Bool := ((k.dirs d).pde (n / nptEntries)).isSome

/-- Storing through an entry pointer changes that entry and no other. -/
theorem setPte_pte (h : k.hasTable d n) :
    (k.setPte d n v).pte d' n' = if d' = d ∧ n' = n then v else k.pte d' n' := by
  unfold hasTable at h
  by_cases hd : d' = d
  · subst hd
    by_cases hn : n' = n
    · subst hn; simp [pte, setPte, PageDir.entry, h]
    · simp [pte, setPte, PageDir.entry, hn]
  · simp [pte, setPte, hd]

theorem vpn_div (va : Nat) : vpn va / nptEntries = pdx va := by
  simp only [vpn, pdx, pgSize, nptEntries]
  omega

theorem walkpgdir_eq_some {va : Nat} {q : PTE} :
    k.walkpgdir d va = some q ↔ k.hasTable d (vpn va) = true ∧ q = k.pte d (vpn va) := by
  unfold walkpgdir hasTable pte PageDir.entry
  rw [vpn_div]
  split
  · next h => simp [h, eq_comm]
  · next h => simp [h]

theorem walkpgdir_eq_none {va : Nat} :
    k.walkpgdir d va = none ↔ k.hasTable d (vpn va) = false := by
  unfold walkpgdir hasTable
  rw [vpn_div]
  split
  · next h => simp [h]
  · next h => simpa using h

/-- An entry without a page table counts as cleared. -/
theorem pte_of_not_hasTable (h : k.hasTable d n = false) : k.pte d n = 0 := by
  unfold hasTable at h
  simp [pte, PageDir.entry, h]

theorem hasTable_of_hasFlag {g : Flag} (h : hasFlag (k.pte d n) g = true) : k.hasTable d n := by
  by_contra hn
  rw [pte_of_not_hasTable (by simpa using hn)] at h
  simp at h

theorem kalloc_some {k k' : Kernel} (h : k.kalloc = (some fr, k')) :
    ∃ rest, k.freelist = fr :: rest ∧ k' = { k with freelist := rest } := by
  unfold kalloc at h
  split at h
  · simp at h
  · next r rest heq =>
    simp only [Prod.mk.injEq, Option.some.injEq] at h
    exact ⟨rest, by rw [heq, h.1], h.2.symm⟩

theorem kalloc_none {k k' : Kernel} (h : k.kalloc = (none, k')) : k.freelist = [] ∧ k' = k := by
  unfold kalloc at h
  split at h
  · next heq => exact ⟨heq, by simpa using h.symm⟩
  · simp at h

/-- Frames that `kfree` accepts. -/
def ValidFrame (cfg : Config) (v : Frame) : Prop :=
  v.toNat % pgSize = 0 ∧ cfg.kernelEnd ≤ v.toNat ∧ v.toNat < physTop

theorem kfree_ok {cfg : Config} {k k' : Kernel} (h : k.kfree cfg fr = .ok k') :
    ValidFrame cfg fr ∧ k' = k.freed fr := by
  unfold kfree at h
  split at h
  · simp at h
  · next hv =>
    simp only [not_or, not_not, not_lt, not_le] at hv
    exact ⟨hv, by simpa using h.symm⟩

end Projections

end Kernel

end OsSessional.Paging
