import OsSessional.Paging.PageData

/-!
# Virtual memory

The functions of `vm.c`: eviction, page-in, growth, shrinking and copying of an address space.
`c` is the slot of `myproc()`, whose page directory is the one in CR3. A function that can panic
returns in `Except Crash`; an `int` result of `1` or `-1` is a `Bool`.
-/

namespace OsSessional.Paging

open Function (update)

namespace Kernel

variable (cfg : Config)

/-- `getReplacementPageAddressPhyMem`: the frame address in the entry, user or guard page alike. -/
def getReplacementPageAddressPhyMem (k : Kernel) (pageDirectory : Frame) (virtualAddress : Nat) :
    Option Frame :=
  (k.walkpgdir pageDirectory virtualAddress).map pteAddr

/-- `writeToSwapFile(p, (char*)virtualAddress, placeOnFile, PGSIZE)`. The source is read through
CR3; a refused write returns before it is read. -/
def writeToSwapFile (k : Kernel) (c : Slot) (virtualAddress : Nat) (placeOnFile : Nat) :
    Except Crash (Kernel × Bool) :=
  match (k.proc c).swapFile with
  | none => .error .nullSwapFile
  | some f =>
    match k.userPage (k.proc c).pgdir virtualAddress with
    | none => if f.refuses placeOnFile pgSize then .ok (k, false) else .error .trap
    | some page =>
      let (f, ok) := f.filewrite (pageBytes page) placeOnFile pgSize
      .ok (k.setSwapFile c (some f), ok)

def clearPagePhyMem (k : Kernel) (c : Slot) (pageDirectory : Frame) (virtualAddress : Nat)
    (pageId : Fin maxPyscPages) (pageToBeFreedAddress : Frame) : Except Crash Kernel := do
  let k ← k.kfree cfg pageToBeFreedAddress
  let k := k.setRam c pageId { (k.proc c).pagesInPhysicalMemory pageId with isUsed := false }
  match k.walkpgdir pageDirectory virtualAddress with
  | none => return k
  | some pte => return k.setPte pageDirectory (vpn virtualAddress) (pageOutPte pte)

/-- The eviction that `reallocatePageInDisk` and `retrievePage` both spell out; they differ in
`note`, what the chosen disc slot is filled with. Returns the RAM slot it freed, or `none` where
the source returns `-1`. -/
def evictPage (note : PageData → PageData → PageData) (k : Kernel) (c : Slot) :
    Except Crash (Kernel × Option (Fin maxPyscPages)) :=
  match (k.proc c).getReplacementPageIndexPhyMem cfg with
  | none => .ok (k, none)
  | some i =>
    let victim := (k.proc c).pagesInPhysicalMemory i
    match k.getReplacementPageAddressPhyMem victim.pageDirectory victim.virtualAddress with
    | none => .ok (k, none)
    | some pa =>
      match (k.proc c).getAvailablePageIndexDisk with
      | none => .ok (k, none)
      | some j => do
        let (k, ok) ← k.writeToSwapFile c victim.virtualAddress (pgSize * j)
        if ok then
          let k := k.setDisc c j (note victim ((k.proc c).pagesInDisc j))
          let k ← k.clearPagePhyMem cfg c victim.pageDirectory victim.virtualAddress i pa
          return (k, some i)
        else return (k, none)

/-- The disc entry `reallocatePageInDisk` writes. -/
def reallocateNote (victim _old : PageData) : PageData :=
  { pageDirectory := victim.pageDirectory, isUsed := true,
    virtualAddress := victim.virtualAddress, timer := 0, ageCounter := 0,
    isImportant := victim.isImportant }

/-- The disc entry the eviction in `retrievePage` writes: age and importance stay as they were. -/
def retrieveNote (victim old : PageData) : PageData :=
  { old with
    pageDirectory := victim.pageDirectory, isUsed := true,
    virtualAddress := victim.virtualAddress, timer := 0 }

def countFault (k : Kernel) (c : Slot) : Kernel :=
  k.setProc c { k.proc c with pageFault := (k.proc c).pageFault + 1 }

def reallocatePageInDisk (k : Kernel) (c : Slot) : Except Crash (Kernel × Bool) := do
  let (k, freed) ← (k.countFault c).evictPage cfg reallocateNote c
  return (k, freed.isSome)

def updatePhysicalPageMetaData (k : Kernel) (c : Slot) (pageDirectory : Frame)
    (virtualAddress : Nat) (isImportant : Int) : Kernel :=
  k.setProc c
    ((k.proc c).updatePhysicalPageMetaData pageDirectory virtualAddress isImportant)

/-- One page of `deallocuvm` whose entry is at hand. -/
def deallocPage (k : Kernel) (c : Slot) (d : Frame) (a : Nat) (pte : PTE) :
    Except Crash Kernel :=
  if hasFlag pte .P then
    if pteAddr pte = 0 then .error .kfree
    else do
      let k ← k.kfree cfg (pteAddr pte)
      let k := k.setProc c ((k.proc c).removePhysicalPageMetaData d a)
      return k.setPte d (vpn a) 0
  else if hasFlag pte .PG then
    let k := k.setProc c ((k.proc c).removeDiscMetaData d a)
    .ok (k.setPte d (vpn a) 0)
  else .ok k

/-- The loop of `deallocuvm`; a missing page table skips to the next directory entry. -/
def deallocLoop (c : Slot) (d : Frame) (oldsz : Nat) : Nat → Nat → Kernel → Except Crash Kernel
  | 0, _, k => .ok k
  | fuel + 1, a, k =>
    if a < oldsz then
      match k.walkpgdir d a with
      | none => deallocLoop c d oldsz fuel (pgAddr (pdx a + 1)) k
      | some pte => do
        let k ← k.deallocPage cfg c d a pte
        deallocLoop c d oldsz fuel (a + pgSize) k
    else .ok k

/-- `deallocuvm`, with the new size it returns. -/
def deallocuvm (k : Kernel) (c : Slot) (d : Frame) (oldsz newsz : Nat) :
    Except Crash (Kernel × Nat) :=
  if newsz ≥ oldsz then .ok (k, oldsz)
  else do
    let k ← deallocLoop cfg c d oldsz (oldsz / pgSize + 1) (pgRoundUp newsz) k
    return (k, newsz)

/-- After the page at `a` is mapped: track it, evicting first when the RAM table is full. A
failed eviction leaves the page mapped without an entry. -/
def placePage (k : Kernel) (c : Slot) (d : Frame) (a : Nat) (isImportant : Int) :
    Except Crash Kernel :=
  if (k.proc c).pid > 0 then
    if (k.proc c).spaceAvialableInMemory then
      .ok (k.updatePhysicalPageMetaData c d a isImportant)
    else do
      let (k, ok) ← k.reallocatePageInDisk cfg c
      if ok then return k.updatePhysicalPageMetaData c d a isImportant
      else return k
  else .ok k

/-- The loop of `allocuvm` from address `a`. -/
def allocLoop (c : Slot) (d : Frame) (oldsz newsz : Nat) (isImportant : Int) :
    Nat → Nat → Kernel → Except Crash (Kernel × Nat)
  | 0, _, k => .ok (k, newsz)
  | fuel + 1, a, k =>
    if a < newsz then
      match k.kalloc with
      | (none, k) => do
        let (k, _) ← k.deallocuvm cfg c d newsz oldsz
        return (k, 0)
      | (some mem, k) => do
        let k := k.setMem mem (fun _ => 0)
        match ← k.mappages d a mem (pteW ||| pteU) with
        | none =>
          let (k, _) ← k.deallocuvm cfg c d newsz oldsz
          let k ← k.kfree cfg mem
          return (k, 0)
        | some k =>
          let k ← k.placePage cfg c d a isImportant
          allocLoop c d oldsz newsz isImportant fuel (a + pgSize) k
    else .ok (k, newsz)

/-- `allocuvm`, with the size it returns, `0` on error. -/
def allocuvm (k : Kernel) (c : Slot) (d : Frame) (oldsz newsz : Nat) (isImportant : Int) :
    Except Crash (Kernel × Nat) :=
  if newsz ≥ kernBase then .ok (k, 0)
  else if newsz < oldsz then .ok (k, oldsz)
  else if !(k.proc c).spaceAvialableInMemory && !(k.proc c).spaceAvialableInDisk then .ok (k, 0)
  else allocLoop cfg c d oldsz newsz isImportant (newsz / pgSize + 1) (pgRoundUp oldsz) k

/-- `checkPTForPage`. -/
def checkPTForPage (k : Kernel) (d : Frame) (virtualAddress : Nat) : Bool :=
  match k.walkpgdir d virtualAddress with
  | none => false
  | some pte => hasFlag pte .PG

/-- `memset(mem, 0, PGSIZE)` on what `kalloc` returned; a null `mem` is user address 0. -/
def memsetPage (k : Kernel) (c : Slot) (mem : Option Frame) (page : Page) : Except Crash Kernel :=
  match mem with
  | some fr => .ok (k.setMem fr page)
  | none =>
    match k.writeUserPage (k.proc c).pgdir 0 pgSize (pageBytes page) with
    | none => .error .trap
    | some k => .ok k

/-- The entry update of `retrievePage`. -/
def mapPagedIn (k : Kernel) (c : Slot) (virtualAddress : Nat) (mem : Option Frame) :
    Except Crash Kernel :=
  match k.walkpgdir (k.proc c).pgdir virtualAddress with
  | none => .error .swappedPteMissing
  | some pte =>
    if hasFlag pte .P then .error .pageInRemap
    else .ok (k.setPte (k.proc c).pgdir (vpn virtualAddress) (pageInPte pte mem))

/-- Both paths of `retrievePage` move the disc entry `j` into RAM slot `i` like this. -/
def moveToRam (k : Kernel) (c : Slot) (j : Fin discPages) (i : Fin maxPyscPages) : Kernel :=
  let p := k.proc c
  let e := p.pagesInDisc j
  k.setProc c
    { p with
      pagesInPhysicalMemory := update p.pagesInPhysicalMemory i { e with timer := p.timer }
      pagesInDisc := update p.pagesInDisc j { e with isUsed := false }
      timer := Proc.tick p.timer }

/-- `readFromSwapFile(p, _, i*PGSIZE, PGSIZE)`; `none` inside is its `-1`. -/
def readFromSwapFile (k : Kernel) (c : Slot) (i : Fin discPages) :
    Except Crash (Option (Nat × (Nat → Byte))) :=
  match (k.proc c).swapFile with
  | none => .error .nullSwapFile
  | some f => .ok (f.readi (i * pgSize) pgSize)

/-- `retrievePage` when RAM slot `i` is free: the page is read in place. -/
def retrieveInto (k : Kernel) (c : Slot) (va : Nat) (mem : Option Frame)
    (i : Fin maxPyscPages) : Except Crash (Kernel × Bool) := do
  let k ← k.mapPagedIn c va mem
  match (k.proc c).discIndex va with
  | none => return (k, true)
  | some j =>
    match ← k.readFromSwapFile c j with
    | none => return (k, false)
    | some (n, bytes) =>
      match k.writeUserPage (k.proc c).pgdir va n bytes with
      | none => .error .trap
      | some k => return (k.moveToRam c j i, true)

/-- `retrievePage` with a full RAM table: evict, then read through the global `buffer`. -/
def retrieveSwapping (k : Kernel) (c : Slot) (va : Nat) (mem : Option Frame) :
    Except Crash (Kernel × Bool) := do
  let (k, freed) ← k.evictPage cfg retrieveNote c
  match freed with
  | none => return (k, false)
  | some i =>
    let k ← k.mapPagedIn c va mem
    match (k.proc c).discIndex va with
    | none => return (← k.memsetPage c mem k.buffer, true)
    | some j =>
      match ← k.readFromSwapFile c j with
      | none => return (k, false)
      | some (n, bytes) =>
        let k := { k with buffer := fun b => if b.val < n then bytes b else k.buffer b }
        let k := k.moveToRam c j i
        return (← k.memsetPage c mem k.buffer, true)

def retrievePage (k : Kernel) (c : Slot) (cr2 : Nat) : Except Crash (Kernel × Bool) := do
  let va := pgRoundDown cr2
  let (mem, k) := k.kalloc
  let k ← k.memsetPage c mem (fun _ => 0)
  let k := k.countFault c
  match (k.proc c).freeRamIndex with
  | some i => k.retrieveInto c va mem i
  | none => k.retrieveSwapping cfg c va mem

/-- One round of `updateAgeForSingleProcess`. -/
def updateAge (c : Slot) (k : Kernel) (i : Fin maxPyscPages) : Except Crash Kernel :=
  let e := (k.proc c).pagesInPhysicalMemory i
  if e.isUsed then
    match k.walkpgdir e.pageDirectory e.virtualAddress with
    | none => .error .nullPte
    | some pte =>
      if hasFlag pte .A then
        .ok ((k.setPte e.pageDirectory (vpn e.virtualAddress) (pte &&& ~~~pteA)).setRam c i
          { e with ageCounter := (e.ageCounter >>> 1) ||| 0x80000000 })
      else .ok k
  else .ok k

def updateAgeForSingleProcess (k : Kernel) (c : Slot) : Except Crash Kernel :=
  (List.finRange maxPyscPages).foldlM (updateAge c) k

end Kernel

end OsSessional.Paging
