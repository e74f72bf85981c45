import OsSessional.Lib.Scan
import OsSessional.Paging.Kernel

/-!
# Page metadata

The functions of `vm.c` that only read and write the two metadata tables of a process.
-/

namespace OsSessional.Paging

open Function (update)

namespace Proc

variable (p : Proc)

/-- The first free slot of `pagesInPhysicalMemory`, as the loops of
`updatePhysicalPageMetaData` and `retrievePage` look for it. -/
def freeRamIndex : Option (Fin maxPyscPages) :=
  Scan.first fun i => !(p.pagesInPhysicalMemory i).isUsed

/-- The first free slot of `pagesInDisc`. -/
def getAvailablePageIndexDisk : Option (Fin discPages) :=
  Scan.first fun j => !(p.pagesInDisc j).isUsed

def spaceAvialableInMemory : Bool := p.freeRamIndex.isSome

def spaceAvialableInDisk : Bool := p.getAvailablePageIndexDisk.isSome

/-- `timer++` on a 32-bit `int`. -/
def tick (t : Int) : Int := Int.bmod (t + 1) (2 ^ 32)

def updatePhysicalPageMetaData (pageDirectory : Frame) (virtualAddress : Nat)
    (isImportant : Int) : Proc :=
  match p.freeRamIndex with
  | some ppnId =>
    { p with
      pagesInPhysicalMemory := update p.pagesInPhysicalMemory ppnId
        { pageDirectory, isUsed := true, virtualAddress, timer := p.timer, ageCounter := 0,
          isImportant }
      timer := tick p.timer }
  | none => p

def getReplacementPageIndexAging : Option (Fin maxPyscPages) :=
  Scan.best (fun i => (p.pagesInPhysicalMemory i).isUsed)
    (fun i => (p.pagesInPhysicalMemory i).ageCounter) (fun a b => a < b) 0xffffffff

def getReplacementPageIndexLIFO : Option (Fin maxPyscPages) :=
  Scan.best (fun i => (p.pagesInPhysicalMemory i).isUsed)
    (fun i => (p.pagesInPhysicalMemory i).timer) (fun a b => a > b) 0

/-- With `OPTIMIZATION` the loop also skips the slots marked important. -/
def getReplacementPageIndexFIFO (optimization : Bool) : Option (Fin maxPyscPages) :=
  Scan.best
    (fun i => !(optimization && (p.pagesInPhysicalMemory i).isImportant == 1) &&
      (p.pagesInPhysicalMemory i).isUsed)
    (fun i => (p.pagesInPhysicalMemory i).timer) (fun a b => a < b) 0x7fffffff

def getReplacementPageIndexPhyMem (cfg : Config) : Option (Fin maxPyscPages) :=
  match cfg.rAlgo with
  | .FIFO => p.getReplacementPageIndexFIFO cfg.optimization
  | .AGING => p.getReplacementPageIndexAging
  | .LIFO => p.getReplacementPageIndexLIFO

/-- The search both removal functions make: the first used entry that names the page. -/
def namedIndex {n : Nat} (table : Fin n → PageData) (pageDirectory : Frame)
    (virtualAddress : Nat) : Option (Fin n) :=
  Scan.first fun i => (table i).isUsed && (table i).pageDirectory == pageDirectory &&
    (table i).virtualAddress == virtualAddress

/-- What a removal function leaves in the slot. -/
def cleared (e : PageData) : PageData :=
  { e with isUsed := false, pageDirectory := 0, virtualAddress := 0 }

/-- The loop of the two removal functions. -/
def removeFrom {n : Nat} (table : Fin n → PageData) (pageDirectory : Frame)
    (virtualAddress : Nat) : Fin n → PageData :=
  match namedIndex table pageDirectory virtualAddress with
  | some i => update table i (cleared (table i))
  | none => table

def removeDiscMetaData (pageDirectory : Frame) (virtualAddress : Nat) : Proc :=
  { p with pagesInDisc := removeFrom p.pagesInDisc pageDirectory virtualAddress }

def removePhysicalPageMetaData (pageDirectory : Frame) (virtualAddress : Nat) : Proc :=
  { p with
    pagesInPhysicalMemory := removeFrom p.pagesInPhysicalMemory pageDirectory virtualAddress }

/-- The search of `retrievePage`: it compares the address and nothing else. -/
def discIndex (virtualAddress : Nat) : Option (Fin discPages) :=
  Scan.first fun i => (p.pagesInDisc i).virtualAddress == virtualAddress

/-- `isUsed = false` in every entry of both tables, as `allocproc`, `exit` and `wait` do. -/
def clearMetaData : Proc :=
  { p with
    pagesInPhysicalMemory := fun i => { p.pagesInPhysicalMemory i with isUsed := false }
    pagesInDisc := fun i => { p.pagesInDisc i with isUsed := false } }

/-- Tracking a page leaves what is on disc alone. -/
@[simp] theorem updatePhysicalPageMetaData_pagesInDisc {d : Frame} {va : Nat} {isImportant : Int} :
    (p.updatePhysicalPageMetaData d va isImportant).pagesInDisc = p.pagesInDisc := by
  unfold updatePhysicalPageMetaData
  split <;> rfl

@[simp] theorem updatePhysicalPageMetaData_swapFile {d : Frame} {va : Nat} {isImportant : Int} :
    (p.updatePhysicalPageMetaData d va isImportant).swapFile = p.swapFile := by
  unfold updatePhysicalPageMetaData
  split <;> rfl

theorem freeRamIndex_free {i : Fin maxPyscPages} (h : p.freeRamIndex = some i) :
    (p.pagesInPhysicalMemory i).isUsed = false := by
  simpa using Scan.first_spec h

theorem freeRamIndex_none (h : p.freeRamIndex = none) (i : Fin maxPyscPages) :
    (p.pagesInPhysicalMemory i).isUsed = true := by
  simpa using Scan.first_eq_none.mp h i

/-- Every policy picks a slot that is in use. -/
theorem getReplacementPageIndexPhyMem_used (cfg : Config) {i : Fin maxPyscPages}
    (h : p.getReplacementPageIndexPhyMem cfg = some i) :
    (p.pagesInPhysicalMemory i).isUsed = true := by
  unfold getReplacementPageIndexPhyMem at h
  split at h
  · have hok := Scan.best_ok h
    simp only [Bool.and_eq_true] at hok
    exact hok.2
  · exact Scan.best_ok h
  · exact Scan.best_ok h

end Proc

end OsSessional.Paging
