import OsSessional.Paging.Vm

/-!
# Processes

Copying an address space (`setupkvm`, `freevm`, `copyuvm`), the process operations of `proc.c`
that reach the pager, and the page-fault and timer cases of `trap.c`. Open files, the current
directory and parent links take no part in paging and are left out.
-/

namespace OsSessional.Paging

open Function (update)

namespace Kernel

variable (cfg : Config)

/-- Directory entries of the kernel half that the `kmap` ranges fall into: `KERNBASE` up to
`PHYSTOP`, and the devices. -/
def kmapEntries : List Nat := (List.range 56).map (512 + ·) ++ (List.range 8).map (1016 + ·)

/-- The loop of `freevm` over the directory entries. -/
def freeTables (d : Frame) : List Nat → Kernel → Except Crash Kernel
  | [], k => .ok k
  | i :: is, k =>
    match (k.dirs d).pde i with
    | none => freeTables d is k
    | some pgtab => do
      let k ← k.kfree cfg pgtab
      freeTables d is k

def freevm (k : Kernel) (c : Slot) (d : Frame) : Except Crash Kernel := do
  if d = 0 then .error .freevmNoPgdir
  else
    let (k, _) ← k.deallocuvm cfg c d kernBase 0
    let k ← freeTables cfg d (List.range npdEntries) k
    k.kfree cfg d

/-- The mappings of `setupkvm`, one page table each; the flag tells whether frames lasted. -/
def kmapLoop (d : Frame) : List Nat → Kernel → Kernel × Bool
  | [], k => (k, true)
  | i :: is, k =>
    match k.walkpgdirAlloc d (pgAddr i) with
    | none => (k, false)
    | some k => kmapLoop d is k

/-- `setupkvm`; the kernel's own entries are not kept, only the frames their tables take. -/
def setupkvm (k : Kernel) (c : Slot) : Except Crash (Option Frame × Kernel) :=
  match k.kalloc with
  | (none, k) => .ok (none, k)
  | (some d, k) =>
    let k := { k with dirs := update k.dirs d { pde := fun _ => none, pte := fun _ => 0 } }
    match kmapLoop d kmapEntries k with
    | (k, true) => .ok (some d, k)
    | (k, false) => do return (none, ← k.freevm cfg c d)

/-- One page of `copyuvm`; `none` is its `goto bad`. -/
def copyPage (k : Kernel) (pgdir d : Frame) (i : Nat) : Except Crash (Kernel × Bool) :=
  match k.walkpgdir pgdir i with
  | none => .error .copyuvmPteShouldExist
  | some pte =>
    if hasFlag pte .PG then
      match k.walkpgdir d i with
      | none => .error .swappedPteMissing
      | some pte => .ok (k.setPte d (vpn i) (pageOutPte pte), true)
    else if !hasFlag pte .P then .error .copyuvmPageNotPresent
    else
      match k.kalloc with
      | (none, k) => .ok (k, false)
      | (some mem, k) => do
        let k := k.setMem mem (k.mem (pteAddr pte))
        match ← k.mappages d i mem (pteFlags pte) with
        | none => return (← k.kfree cfg mem, false)
        | some k => return (k, true)

/-- The loop of `copyuvm` from address `i`. -/
def copyLoop (pgdir d : Frame) (sz : Nat) : Nat → Nat → Kernel → Except Crash (Kernel × Bool)
  | 0, _, k => .ok (k, true)
  | fuel + 1, i, k =>
    if i < sz then do
      let (k, ok) ← k.copyPage cfg pgdir d i
      if ok then copyLoop pgdir d sz fuel (i + pgSize) k else return (k, false)
    else .ok (k, true)

def copyuvm (k : Kernel) (c : Slot) (pgdir : Frame) (sz : Nat) :
    Except Crash (Option Frame × Kernel) := do
  match ← k.setupkvm cfg c with
  | (none, k) => return (none, k)
  | (some d, k) =>
    let (k, ok) ← copyLoop cfg pgdir d sz (sz / pgSize + 1) 0 k
    if ok then return (some d, k)
    else return (none, ← k.freevm cfg c d)

/-- `createSwapFile`: a new empty file. -/
def createSwapFile (k : Kernel) (c : Slot) : Kernel := k.setSwapFile c (some .empty)

/-- `removeSwapFile`: the file is closed and unlinked. -/
def removeSwapFile (k : Kernel) (c : Slot) : Kernel := k.setSwapFile c none

def unusedSlot (k : Kernel) : Option Slot :=
  Scan.first fun c => (k.proc c).state = .UNUSED

/-- `allocproc`. -/
def allocproc (k : Kernel) : Option Slot × Kernel :=
  match k.unusedSlot with
  | none => (none, k)
  | some np =>
    let k := { k.setProc np { k.proc np with state := .EMBRYO, pid := k.nextpid } with
      nextpid := k.nextpid + 1 }
    match k.kalloc with
    | (none, k) => (none, k.setProc np { k.proc np with kstack := none, state := .UNUSED })
    | (some stack, k) =>
      let k := k.setProc np { k.proc np with kstack := some stack, timer := 0, pageFault := 0 }
      let k := if (k.proc np).pid > 2 then k.createSwapFile np else k
      (some np, k.setProc np (k.proc np).clearMetaData)

/-- The copy of the swap file in `fork`: half a page for every used disc slot, at a running
offset. A failed read returns `-1`, writes nothing and moves the offset back by one. -/
def copySwapLoop (disc : DiscTable) (parent : SwapFile) :
    List (Fin discPages) → Int → SwapFile → SwapFile
  | [], _, child => child
  | i :: is, curOffset, child =>
    if (disc i).isUsed then
      let off := (curOffset % 2 ^ 32).toNat
      match parent.readi off (pgSize / 2) with
      | none => copySwapLoop disc parent is (curOffset - 1) child
      | some (bytesRead, tempPage) =>
        copySwapLoop disc parent is (curOffset + bytesRead)
          (child.filewrite tempPage off bytesRead).1
    else copySwapLoop disc parent is curOffset child

def copySwapFile (k : Kernel) (c np : Slot) : Except Crash Kernel :=
  if (k.proc c).pid > 2 then
    match (k.proc c).swapFile, (k.proc np).swapFile with
    | some parent, some child =>
      .ok (k.setSwapFile np
        (some (copySwapLoop (k.proc c).pagesInDisc parent (List.finRange discPages) 0 child)))
    | _, _ => .error .nullSwapFile
  else .ok k

/-- `fork`: the slot of the child, or `none` where the source returns `-1`. -/
def fork (k : Kernel) (c : Slot) : Except Crash (Kernel × Option Slot) :=
  match k.allocproc with
  | (none, k) => .ok (k, none)
  | (some np, k) => do
    match ← k.copyuvm cfg c (k.proc c).pgdir (k.proc c).sz with
    | (none, k) =>
      let k ← match (k.proc np).kstack with
        | none => .ok k
        | some stack => k.kfree cfg stack
      return (k.setProc np { k.proc np with pgdir := 0, kstack := none, state := .UNUSED }, none)
    | (some d, k) =>
      let k := k.setProc np
        { k.proc np with
          pgdir := d, sz := (k.proc c).sz, timer := (k.proc c).timer, pageFault := 0 }
      let k ← k.copySwapFile c np
      return (k.setProc np
        { k.proc np with
          pagesInDisc := fun i => { (k.proc c).pagesInDisc i with pageDirectory := d }
          pagesInPhysicalMemory := fun i =>
            { (k.proc c).pagesInPhysicalMemory i with pageDirectory := d }
          state := .RUNNABLE }, some np)

/-- `growproc`; the flag is false where it returns `-1`. -/
def growproc (k : Kernel) (c : Slot) (n : Int) : Except Crash (Kernel × Bool) := do
  let sz := (k.proc c).sz
  let newsz := ((sz + n) % 2 ^ 32).toNat
  let (k, sz) ←
    if n > 0 then k.allocuvm cfg c (k.proc c).pgdir sz newsz 0
    else if n < 0 then k.deallocuvm cfg c (k.proc c).pgdir sz newsz
    else .ok (k, sz)
  if n ≠ 0 ∧ sz = 0 then return (k, false)
  else return (k.setProc c { k.proc c with sz := sz }, true)

/-- `exit`, up to the point where the process never runs again. -/
def exit (k : Kernel) (c : Slot) : Except Crash Kernel :=
  if (k.proc c).pid = 1 then .error .initExiting
  else
    let k := if (k.proc c).pid > 2 then k.removeSwapFile c else k
    let k := k.setProc c (k.proc c).clearMetaData
    .ok (k.setProc c { k.proc c with state := .ZOMBIE })

/-- `kfree(p->kstack)`; the null pointer is refused. -/
def kfreeStack (k : Kernel) (p : Slot) : Except Crash Kernel :=
  match (k.proc p).kstack with
  | none => .error .kfree
  | some stack => k.kfree cfg stack

/-- `wait` of process `c` where it finds the zombie child at `p`. -/
def wait (k : Kernel) (c p : Slot) : Except Crash Kernel := do
  let k ← k.kfreeStack cfg p
  let k := k.setProc p { k.proc p with kstack := none }
  let k ← k.freevm cfg c (k.proc p).pgdir
  let k := k.setProc p { k.proc p with pid := 0, killed := false, state := .UNUSED }
  return k.setProc p (k.proc p).clearMetaData

/-- The `T_PGFLT` case of `trap`, with the privilege bits of `tf->cs`. -/
def trap (k : Kernel) (c : Slot) (cpl : Nat) (cr2 : Nat) : Except Crash Kernel := do
  let (k, serviced) ←
    if cpl = 3 ∧ k.checkPTForPage (k.proc c).pgdir cr2 then k.retrievePage cfg c cr2
    else .ok (k, false)
  if serviced then return k
  else if cpl = 0 then .error .trap
  else (k.setProc c { k.proc c with killed := true }).exit c

/-- `updateAgeForAllProcess`, the pager's part of a timer interrupt. -/
def updateAgeForAllProcess (k : Kernel) : Except Crash Kernel :=
  (List.finRange nProc).foldlM
    (fun k c =>
      if (k.proc c).pid > 2 ∧ (k.proc c).state ≠ .UNUSED ∧ (k.proc c).state ≠ .EMBRYO ∧
          (k.proc c).state ≠ .ZOMBIE then k.updateAgeForSingleProcess c
      else .ok k) k

end Kernel

end OsSessional.Paging
