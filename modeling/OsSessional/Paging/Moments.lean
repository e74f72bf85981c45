import OsSessional.Paging.Exec

/-!
# The moments of a call

Whatever the pager does to a RAM table or its timer is one of a few kinds of write: a page is tracked,
moved in, evicted or removed, a table is cleared, or handed on by `fork`. A moment of a call is the
kernel just before such a write, or before the policy is asked in vain; the functions of the kernel
are followed here through their moments.
-/

namespace OsSessional.Paging

/-- What a write to the tables of a process comes to: a page arrived in a RAM slot, was evicted from
one or removed with its mapping, all slots were cleared, or a child took over the slots of its
parent. -/
inductive Write
  | arrived (c : Slot) (i : Fin maxPyscPages)
  | evicted (c : Slot) (i : Fin maxPyscPages)
  | removed (c : Slot) (i : Fin maxPyscPages)
  | cleared (c : Slot)
  | inherited (c np : Slot)
  | other
  deriving DecidableEq

structure Moment where
  before : Kernel
  write : Write

/-- The moments of what comes after a part that returned. -/
def after {α : Type} (x : Except Crash α) (f : α → List Moment) : List Moment :=
  match x with
  | .ok a => f a
  | .error _ => []

/-- The moments of a run, given those of its steps. -/
def runMoments {α : Type} (perform : Kernel → α → Except Crash Kernel)
    (moments : Kernel → α → List Moment) : Kernel → List α → List Moment
  | _, [] => []
  | k, a :: as => moments k a ++ after (perform k a) fun k => runMoments perform moments k as

namespace Kernel

section Tables

variable (k : Kernel) (c : Slot)

/-- The write of `updatePhysicalPageMetaData`. -/
def trackMoments : List Moment :=
  [⟨k, match (k.proc c).freeRamIndex with
    | some i => .arrived c i
    | none => .other⟩]

/-- That of `removePhysicalPageMetaData`. -/
def untrackMoments (d : Frame) (va : Nat) : List Moment :=
  [⟨k, match Proc.namedIndex (k.proc c).pagesInPhysicalMemory d va with
    | some i => .removed c i
    | none => .other⟩]

def moveMoments (j : Fin discPages) (i : Fin maxPyscPages) : List Moment :=
  [⟨k, if ((k.proc c).pagesInDisc j).isUsed then .arrived c i else .other⟩]

def retrieveIntoMoments (va : Nat) (mem : Option Frame) (i : Fin maxPyscPages) : List Moment :=
  after (k.mapPagedIn c va mem) fun k =>
    match (k.proc c).discIndex va with
    | none => []
    | some j =>
      after (k.readFromSwapFile c j) fun
        | none => []
        | some (n, bytes) =>
          match k.writeUserPage (k.proc c).pgdir va n bytes with
          | none => []
          | some k => k.moveMoments c j i

/-- The write of `allocproc`. -/
def createMoments : List Moment :=
  match k.allocproc with
  | (some np, _) => [⟨k, .cleared np⟩]
  | (none, _) => []

def exitMoments : List Moment :=
  [⟨if (k.proc c).pid > 2 then k.removeSwapFile c else k, .cleared c⟩]

end Tables

variable (cfg : Config)

def evictMoments (note : PageData → PageData → PageData) (k : Kernel) (c : Slot) : List Moment :=
  match k.evictPage cfg note c with
  | .ok (_, some i) => [⟨k, .evicted c i⟩]
  | .ok (_, none) => [⟨k, .other⟩]
  | .error _ => []

def placeMoments (k : Kernel) (c : Slot) : List Moment :=
  if (k.proc c).pid > 0 then
    if (k.proc c).spaceAvialableInMemory then k.trackMoments c
    else
      evictMoments cfg reallocateNote (k.countFault c) c ++
        after (k.reallocatePageInDisk cfg c) fun (k, ok) => if ok then k.trackMoments c else []
  else []

def deallocPageMoments (k : Kernel) (c : Slot) (d : Frame) (a : Nat) (pte : PTE) : List Moment :=
  if hasFlag pte .P then
    if pteAddr pte = 0 then []
    else after (k.kfree cfg (pteAddr pte)) fun k => k.untrackMoments c d a
  else []

def deallocLoopMoments (c : Slot) (d : Frame) (oldsz : Nat) : Nat → Nat → Kernel → List Moment
  | 0, _, _ => []
  | fuel + 1, a, k =>
    if a < oldsz then
      match k.walkpgdir d a with
      | none => deallocLoopMoments c d oldsz fuel (pgAddr (pdx a + 1)) k
      | some pte =>
        k.deallocPageMoments cfg c d a pte ++
          after (k.deallocPage cfg c d a pte) (deallocLoopMoments c d oldsz fuel (a + pgSize))
    else []

def deallocMoments (k : Kernel) (c : Slot) (d : Frame) (oldsz newsz : Nat) : List Moment :=
  if newsz ≥ oldsz then []
  else deallocLoopMoments cfg c d oldsz (oldsz / pgSize + 1) (pgRoundUp newsz) k

def allocLoopMoments (c : Slot) (d : Frame) (oldsz newsz : Nat) (isImportant : Int) :
    Nat → Nat → Kernel → List Moment
  | 0, _, _ => []
  | fuel + 1, a, k =>
    if a < newsz then
      match k.kalloc with
      | (none, k) => k.deallocMoments cfg c d newsz oldsz
      | (some mem, k) =>
        let k := k.setMem mem (fun _ => 0)
        after (k.mappages d a mem (pteW ||| pteU)) fun
          | none => k.deallocMoments cfg c d newsz oldsz
          | some k =>
            k.placeMoments cfg c ++
              after (k.placePage cfg c d a isImportant)
                (allocLoopMoments c d oldsz newsz isImportant fuel (a + pgSize))
    else []

def allocMoments (k : Kernel) (c : Slot) (d : Frame) (oldsz newsz : Nat) (isImportant : Int) :
    List Moment :=
  if newsz ≥ kernBase then []
  else if newsz < oldsz then []
  else if !(k.proc c).spaceAvialableInMemory && !(k.proc c).spaceAvialableInDisk then []
  else allocLoopMoments cfg c d oldsz newsz isImportant (newsz / pgSize + 1) (pgRoundUp oldsz) k

def retrieveSwappingMoments (k : Kernel) (c : Slot) (va : Nat) (mem : Option Frame) : List Moment :=
  evictMoments cfg retrieveNote k c ++
    after (evictPage cfg retrieveNote k c) fun
      | (_, none) => []
      | (k, some i) =>
        after (k.mapPagedIn c va mem) fun k =>
          match (k.proc c).discIndex va with
          | none => []
          | some j =>
            after (k.readFromSwapFile c j) fun
              | none => []
              | some (n, bytes) =>
                let k := { k with buffer := fun b => if b.val < n then bytes b else k.buffer b }
                k.moveMoments c j i

def retrieveMoments (k : Kernel) (c : Slot) (cr2 : Nat) : List Moment :=
  let va := pgRoundDown cr2
  let (mem, k) := k.kalloc
  after (k.memsetPage c mem (fun _ => 0)) fun k =>
    let k := k.countFault c
    match (k.proc c).freeRamIndex with
    | some i => k.retrieveIntoMoments c va mem i
    | none => k.retrieveSwappingMoments cfg c va mem

def freevmMoments (k : Kernel) (c : Slot) (d : Frame) : List Moment :=
  if d = 0 then [] else k.deallocMoments cfg c d kernBase 0

def setupMoments (k : Kernel) (c : Slot) : List Moment :=
  match k.kalloc with
  | (none, _) => []
  | (some d, k) =>
    let k := { k with dirs := Function.update k.dirs d { pde := fun _ => none, pte := fun _ => 0 } }
    match kmapLoop d kmapEntries k with
    | (_, true) => []
    | (k, false) => k.freevmMoments cfg c d

def copyMoments (k : Kernel) (c : Slot) (pgdir : Frame) (sz : Nat) : List Moment :=
  k.setupMoments cfg c ++
    after (k.setupkvm cfg c) fun
      | (none, _) => []
      | (some d, k) =>
        after (copyLoop cfg pgdir d sz (sz / pgSize + 1) 0 k) fun (k, ok) =>
          if ok then [] else k.freevmMoments cfg c d

def forkMoments (k : Kernel) (c : Slot) : List Moment :=
  k.createMoments ++
    match k.allocproc with
    | (none, _) => []
    | (some np, k) =>
      k.copyMoments cfg c (k.proc c).pgdir (k.proc c).sz ++
        after (k.copyuvm cfg c (k.proc c).pgdir (k.proc c).sz) fun
          | (none, _) => []
          -- the child gets the timer first and the entries last
          | (some _, k) => [⟨k, .inherited c np⟩]

def waitMoments (k : Kernel) (c p : Slot) : List Moment :=
  after (k.kfreeStack cfg p) fun k =>
    let k := k.setProc p { k.proc p with kstack := none }
    k.freevmMoments cfg c (k.proc p).pgdir ++
      after (k.freevm cfg c (k.proc p).pgdir) fun k =>
        [⟨k.setProc p { k.proc p with pid := 0, killed := false, state := .UNUSED }, .cleared p⟩]

def growMoments (k : Kernel) (c : Slot) (n : Int) : List Moment :=
  let sz := (k.proc c).sz
  let newsz := ((sz + n) % 2 ^ 32).toNat
  if n > 0 then k.allocMoments cfg c (k.proc c).pgdir sz newsz 0
  else if n < 0 then k.deallocMoments cfg c (k.proc c).pgdir sz newsz
  else []

section Exec

def segmentMoments (k : Kernel) (c : Slot) (d : Frame) (ip : Inode) (off sz : Nat) : List Moment :=
  match ip.header off proghdrSize with
  | none => []
  | some bytes =>
    let ph := Proghdr.ofBytes bytes
    if ph.type ≠ elfProgLoad then []
    else if ph.memsz < ph.filesz then []
    else if (ph.vaddr + ph.memsz) % 2 ^ 32 < ph.vaddr then []
    else k.allocMoments cfg c d sz ((ph.vaddr + ph.memsz) % 2 ^ 32) 1

def segmentsMoments (used : Nat) (c : Slot) (d : Frame) (ip : Inode) :
    Nat → Nat → Nat → Kernel → List Moment
  | 0, _, _, _ => []
  | n + 1, off, sz, k =>
    k.segmentMoments cfg c d ip (off % 2 ^ 32) sz ++
      after (loadSegment cfg used k c d ip (off % 2 ^ 32) sz) fun
        | (_, none) => []
        | (k, some sz) => segmentsMoments used c d ip n (off + proghdrSize) sz k

def stackMoments (k : Kernel) (c : Slot) (d : Frame) (sz : Nat) : List Moment :=
  let sz := pgRoundUp sz
  k.allocMoments cfg c d sz (sz + pgSize) 0 ++
    after (k.allocuvm cfg c d sz (sz + pgSize) 0) fun (k, sz) =>
      if sz = 0 then [] else k.allocMoments cfg c d sz (sz + pgSize) 1

def imageMoments (k : Kernel) (c : Slot) (d : Frame) (ip : Inode) (elf : Elfhdr) : List Moment :=
  segmentsMoments cfg (k.proc c).usedDisc c d ip elf.phnum elf.phoff 0 k ++
    after (loadSegments cfg (k.proc c).usedDisc c d ip elf.phnum elf.phoff 0 k) fun
      | (_, none) => []
      | (k, some sz) => k.stackMoments cfg c d sz

def commitMoments (k : Kernel) (c : Slot) (d : Frame) (sz : Nat) : List Moment :=
  let oldpgdir := (k.proc c).pgdir
  let k := k.setProc c { k.proc c with pgdir := d, sz := sz }
  let k := if (k.proc c).pid > 2 then (k.removeSwapFile c).createSwapFile c else k
  k.freevmMoments cfg c oldpgdir

def execMoments (k : Kernel) (c : Slot) (ip : Option Inode) (argv : List Nat) : List Moment :=
  match ip with
  | none => []
  | some ip =>
    match ip.header 0 elfhdrSize with
    | none => []
    | some bytes =>
      let elf := Elfhdr.ofBytes bytes
      if elf.magic ≠ elfMagic then []
      else
        k.setupMoments cfg c ++
          after (k.setupkvm cfg c) fun
            | (none, _) => []
            | (some d, k) =>
              k.imageMoments cfg c d ip elf ++
                after (k.buildImage cfg c d ip elf argv) fun
                  | (k, none) => k.freevmMoments cfg c d
                  | (k, some sz) => k.commitMoments cfg c d sz

end Exec

end Kernel

/-- A call of one of the functions that work on the tables, by the process it runs in. -/
inductive Call
  | allocuvm (c : Slot) (d : Frame) (oldsz newsz : Nat) (isImportant : Int)
  | deallocuvm (c : Slot) (d : Frame) (oldsz newsz : Nat)
  | retrievePage (c : Slot) (cr2 : Nat)
  | exec (c : Slot) (path : Nat) (ip : Option Inode) (argv : List Nat)
  | fork (c : Slot)
  | exit (c : Slot)
  | wait (c p : Slot)
  | tick

namespace Call

variable (cfg : Config) (k : Kernel)

def perform : Call → Except Crash Kernel
  | .allocuvm c d oldsz newsz isImportant => do
    let (k, _) ← k.allocuvm cfg c d oldsz newsz isImportant
    return k
  | .deallocuvm c d oldsz newsz => do
    let (k, _) ← k.deallocuvm cfg c d oldsz newsz
    return k
  | .retrievePage c cr2 => do
    let (k, _) ← k.retrievePage cfg c cr2
    return k
  | .exec c path ip argv => do
    let (k, _) ← k.exec cfg c path ip argv
    return k
  | .fork c => do
    let (k, _) ← k.fork cfg c
    return k
  | .exit c => k.exit c
  | .wait c p => k.wait cfg c p
  | .tick => k.updateAgeForAllProcess

/-- The call returned. -/
def Step (k : Kernel) (a : Call) (k' : Kernel) : Prop := (a.perform cfg k).toOption = some k'

/-- The moments of the call, in order. Ticks leave the slots alone. -/
def moments : Call → List Moment
  | .allocuvm c d oldsz newsz isImportant => k.allocMoments cfg c d oldsz newsz isImportant
  | .deallocuvm c d oldsz newsz => k.deallocMoments cfg c d oldsz newsz
  | .retrievePage c cr2 => k.retrieveMoments cfg c cr2
  | .exec c _ ip argv => k.execMoments cfg c ip argv
  | .fork c => k.forkMoments cfg c
  | .exit c => k.exitMoments c
  | .wait c p => k.waitMoments cfg c p
  | .tick => []

/-- The moments of the calls of a run. -/
def runMoments : Kernel → List Call → List Moment :=
  Paging.runMoments (fun k a => a.perform cfg k) fun k a => a.moments cfg k

end Call

/-- What happens to the pages of a process: a call of a function that works on the tables, `growproc`, or a
reference to a tracked page. -/
inductive Deed
  | call (a : Call)
  | growproc (c : Slot) (n : Int)
  | referenced (c : Slot) (i : Fin maxPyscPages)

/-- The processor sets the accessed bit of the page in slot `i` of process `c`. -/
def Kernel.setAccessed (k : Kernel) (c : Slot) (i : Fin maxPyscPages) : Kernel :=
  let e := (k.proc c).pagesInPhysicalMemory i
  k.setPte e.pageDirectory (vpn e.virtualAddress) (k.pte e.pageDirectory (vpn e.virtualAddress) ||| pteA)

namespace Deed

variable (cfg : Config) (k : Kernel)

def perform : Deed → Except Crash Kernel
  | .call a => a.perform cfg k
  | .growproc c n => do
    let (k, _) ← k.growproc cfg c n
    return k
  | .referenced c i => .ok (k.setAccessed c i)

def Step (k : Kernel) (e : Deed) (k' : Kernel) : Prop := e.perform cfg k = .ok k'

def moments : Deed → List Moment
  | .call a => a.moments cfg k
  | .growproc c n => k.growMoments cfg c n
  | .referenced _ _ => []

def runMoments : Kernel → List Deed → List Moment :=
  Paging.runMoments (fun k e => e.perform cfg k) fun k e => e.moments cfg k

end Deed

end OsSessional.Paging
