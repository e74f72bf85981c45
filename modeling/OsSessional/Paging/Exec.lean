import OsSessional.Lib.Outcome
import OsSessional.Paging.Proc

/-!
# Loading a program

`exec` and what it calls in `vm.c`: a new address space is built from an ELF file and the argument
strings next to the one the process runs in, and replaces it at the end. The file arrives as what
`namei` found at the path. Kernel code reads user memory through the page table in CR3.
-/

namespace OsSessional.Paging

/-- Contents of an inode; a swap file is one. -/
abbrev Inode := SwapFile

/-- A little-endian word of two or four bytes. -/
def word16 (bytes : Nat → Byte) (off : Nat) : Nat := (bytes off).toNat + 2 ^ 8 * (bytes (off + 1)).toNat

def word32 (bytes : Nat → Byte) (off : Nat) : Nat :=
  word16 bytes off + 2 ^ 16 * word16 bytes (off + 2)

/-- The bytes of a sequence of 32-bit words. -/
def wordBytes (words : List Nat) : Nat → Byte := fun i =>
  UInt8.ofNat (words.getD (i / 4) 0 / 2 ^ (8 * (i % 4)))

/-- `LOGSIZE`. -/
def logSize : Nat := maxOpBlocks * 3

/-- `begin_op` lets a second operation in, next to one open operation with `n` blocks in the log. -/
def opFits (n : Nat) : Bool := n + (1 + 1) * maxOpBlocks ≤ logSize

/-- Every chunk of a page that is written to the swap file gets its operation. -/
def pageFits (n : Nat) : Bool :=
  (List.range ((pgSize + SwapFile.chunk - 1) / SwapFile.chunk)).all fun i =>
    opFits (n + i * (SwapFile.chunk / bSize))

/-- The disc slots in use. -/
def Proc.usedDisc (p : Proc) : Nat := (Finset.univ.filter fun j => (p.pagesInDisc j).isUsed = true).card

def elfMagic : Nat := 0x464C457F
def elfProgLoad : Nat := 1
def maxArg : Nat := 32
/-- `sizeof(struct elfhdr)` and `sizeof(struct proghdr)`. -/
def elfhdrSize : Nat := 52
def proghdrSize : Nat := 32

/-- The fields of `struct elfhdr` that `exec` reads. -/
structure Elfhdr where
  magic : Nat
  entry : Nat
  phoff : Nat
  phnum : Nat

def Elfhdr.ofBytes (b : Nat → Byte) : Elfhdr :=
  { magic := word32 b 0, entry := word32 b 24, phoff := word32 b 28, phnum := word16 b 44 }

/-- The fields of `struct proghdr` that `exec` reads. -/
structure Proghdr where
  type : Nat
  off : Nat
  vaddr : Nat
  filesz : Nat
  memsz : Nat

def Proghdr.ofBytes (b : Nat → Byte) : Proghdr :=
  { type := word32 b 0, off := word32 b 4, vaddr := word32 b 8, filesz := word32 b 16,
    memsz := word32 b 20 }

/-- A header of `n` bytes, unless `readi` returns another count. -/
def Inode.header (ip : Inode) (off n : Nat) : Option (Nat → Byte) :=
  match ip.readi off n with
  | some (m, bytes) => if m = n then some bytes else none
  | none => none

namespace Kernel

variable (cfg : Config)

section UserMemory

/-- A byte of user memory as kernel code sees it; `none` is a page fault in kernel mode. -/
def userByte (k : Kernel) (d : Frame) (a : Nat) : Option Byte :=
  (k.userPage d a).map fun page => page ⟨a % pgSize, Nat.mod_lt _ (by decide)⟩

/-- `strlen(s) - i` of a user string from its byte `i` on. -/
def strlenLoop (k : Kernel) (d : Frame) : Nat → Nat → Except Crash Nat
  | 0, _ => .ok 0
  | fuel + 1, a =>
    match k.userByte d a with
    | none => .error .trap
    | some b => if b = 0 then .ok 0 else do return 1 + (← strlenLoop k d fuel (a + 1))

/-- `strlen` of a string that ends below `KERNBASE`. -/
def strlen (k : Kernel) (d : Frame) (a : Nat) : Except Crash Nat := k.strlenLoop d (kernBase - a) a

/-- Where `copyout` copies from: a user string or an array on the kernel stack. -/
inductive Source
  | user (a : Nat)
  | kernel (bytes : Nat → Byte)

/-- `n` bytes of the source from byte `i` on. -/
def fetch (k : Kernel) (d : Frame) (i n : Nat) : Source → Except Crash (Nat → Byte)
  | .user a =>
    if ∀ j < n, (k.userByte d (a + i + j)).isSome then
      .ok fun j => (k.userByte d (a + i + j)).getD 0
    else .error .trap
  | .kernel bytes => .ok fun j => bytes (i + j)

end UserMemory

/-- `uva2ka`; it does not test for a missing page table. -/
def uva2ka (k : Kernel) (d : Frame) (uva : Nat) : Except Crash (Option Frame) :=
  match k.walkpgdir d uva with
  | none => .error .nullPte
  | some pte => .ok (if hasFlag pte .P && hasFlag pte .U then some (pteAddr pte) else none)

/-- `n` bytes stored at offset `off` of the frame at `fr`. -/
def patch (k : Kernel) (fr : Frame) (off n : Nat) (bytes : Nat → Byte) : Kernel :=
  k.setMem fr fun b => if off ≤ b.val ∧ b.val < off + n then bytes (b.val - off) else k.mem fr b

/-- The loop of `copyout` with `i` bytes done. Every round copies at least one byte. -/
def copyoutLoop (c : Slot) (d : Frame) (src : Source) (len : Nat) :
    Nat → Nat → Nat → Kernel → Except Crash (Kernel × Bool)
  | 0, _, _, k => .ok (k, true)
  | fuel + 1, i, va, k =>
    if i < len then do
      let va0 := pgRoundDown va
      match ← k.uva2ka d va0 with
      | none => return (k, false)
      | some pa0 =>
        let n := min (pgSize - (va - va0)) (len - i)
        let bytes ← k.fetch (k.proc c).pgdir i n src
        copyoutLoop c d src len fuel (i + n) (va0 + pgSize) (k.patch pa0 (va - va0) n bytes)
    else .ok (k, true)

def copyout (k : Kernel) (c : Slot) (d : Frame) (va : Nat) (src : Source) (len : Nat) :
    Except Crash (Kernel × Bool) :=
  copyoutLoop c d src len len 0 va k

/-- One `readi` of `loaduvm` into the frame at `pa`. -/
def readPage (k : Kernel) (ip : Inode) (pa : Frame) (off n : Nat) : Kernel × Bool :=
  match ip.readi off n with
  | none => (k, false)
  | some (m, bytes) => (k.patch pa 0 m bytes, m == n)

/-- The loop of `loaduvm` from byte `i` on. -/
def loadLoop (d : Frame) (addr : Nat) (ip : Inode) (offset sz : Nat) :
    Nat → Nat → Kernel → Except Crash (Kernel × Bool)
  | 0, _, k => .ok (k, true)
  | fuel + 1, i, k =>
    if i < sz then
      match k.walkpgdir d (addr + i) with
      | none => .error .loaduvmAddressShouldExist
      | some pte =>
        match k.readPage ip (pteAddr pte) ((offset + i) % 2 ^ 32) (min (sz - i) pgSize) with
        | (k, true) => loadLoop d addr ip offset sz fuel (i + pgSize) k
        | (k, false) => .ok (k, false)
    else .ok (k, true)

def loaduvm (k : Kernel) (d : Frame) (addr : Nat) (ip : Inode) (offset sz : Nat) :
    Except Crash (Kernel × Bool) :=
  if addr % pgSize ≠ 0 then .error .loaduvmNotAligned
  else loadLoop d addr ip offset sz (sz / pgSize + 1) 0 k

def clearpteuPage (k : Kernel) (d : Frame) (uva : Nat) : Except Crash Kernel :=
  match k.walkpgdir d uva with
  | none => .error .clearpteu
  | some pte => .ok (k.setPte d (vpn uva) (pte &&& ~~~pteU))

section InOp

/-! `exec` keeps an operation of the log open while it loads the program, so what `filewrite` logs for a
page that goes out stays in the log. `used` disc slots were in use when it began; the page of every slot
taken since has its blocks there. -/

/-- `placePage`; a page that goes out may wait in `begin_op` for the operation of its own process. -/
def placePageInOp (used : Nat) (k : Kernel) (c : Slot) (d : Frame) (a : Nat) (isImportant : Int) :
    Except Crash Kernel :=
  if (k.proc c).pid > 0 then
    if (k.proc c).spaceAvialableInMemory then
      .ok (k.updatePhysicalPageMetaData c d a isImportant)
    else do
      let logged := ((k.proc c).usedDisc - used) * (pgSize / bSize)
      let (k, ok) ← k.reallocatePageInDisk cfg c
      if ok then
        if pageFits logged then return k.updatePhysicalPageMetaData c d a isImportant
        else .error .beginOp
      else return k
  else .ok k

def allocLoopInOp (used : Nat) (c : Slot) (d : Frame) (oldsz newsz : Nat) (isImportant : Int) :
    Nat → Nat → Kernel → Except Crash (Kernel × Nat)
  | 0, _, k => .ok (k, newsz)
  | fuel + 1, a, k =>
    if a < newsz then
      match k.kalloc with
      | (none, k) => do
        let (k, _) ← k.deallocuvm cfg c d newsz oldsz
        return (k, 0)
      | (some mem, k) => do
        let k := k.setMem mem (fun _ => 0)
        match ← k.mappages d a mem (pteW ||| pteU) with
        | none =>
          let (k, _) ← k.deallocuvm cfg c d newsz oldsz
          let k ← k.kfree cfg mem
          return (k, 0)
        | some k =>
          let k ← placePageInOp cfg used k c d a isImportant
          allocLoopInOp used c d oldsz newsz isImportant fuel (a + pgSize) k
    else .ok (k, newsz)

def allocuvmInOp (used : Nat) (k : Kernel) (c : Slot) (d : Frame) (oldsz newsz : Nat)
    (isImportant : Int) : Except Crash (Kernel × Nat) :=
  if newsz ≥ kernBase then .ok (k, 0)
  else if newsz < oldsz then .ok (k, oldsz)
  else if !(k.proc c).spaceAvialableInMemory && !(k.proc c).spaceAvialableInDisk then .ok (k, 0)
  else allocLoopInOp cfg used c d oldsz newsz isImportant (newsz / pgSize + 1) (pgRoundUp oldsz) k

variable {used : Nat} {k : Kernel} {c : Slot} {d : Frame} {isImportant : Int}

theorem placePageInOp_eq (a : Nat) :
    placePageInOp cfg used k c d a isImportant = k.placePage cfg c d a isImportant ∨
      placePageInOp cfg used k c d a isImportant = .error .beginOp := by
  unfold placePageInOp placePage
  split
  · split
    · exact .inl rfl
    · cases k.reallocatePageInDisk cfg c with
      | error e => exact .inl rfl
      | ok r =>
        rcases r with ⟨k₁, _ | _⟩
        · exact .inl rfl
        · simp only [Outcome.ok_bind, if_true]
          split
          · exact .inl rfl
          · exact .inr rfl
  · exact .inl rfl

private theorem allocLoopInOp_eq {oldsz newsz : Nat} (fuel a : Nat) (k : Kernel) :
    allocLoopInOp cfg used c d oldsz newsz isImportant fuel a k =
        allocLoop cfg c d oldsz newsz isImportant fuel a k ∨
      allocLoopInOp cfg used c d oldsz newsz isImportant fuel a k = .error .beginOp := by
  induction fuel generalizing a k with
  | zero => exact .inl rfl
  | succ fuel ih =>
    simp only [allocLoopInOp, allocLoop]
    split
    · rcases k.kalloc with ⟨_ | mem, k₁⟩
      · exact .inl rfl
      · dsimp only
        cases (k₁.setMem mem fun _ => 0).mappages d a mem (pteW ||| pteU) with
        | error e => exact .inl rfl
        | ok r =>
          cases r with
          | none => exact .inl rfl
          | some k₂ =>
            rcases @placePageInOp_eq cfg used k₂ c d isImportant a with hplace | hplace
            · simp only [Outcome.ok_bind, hplace]
              cases k₂.placePage cfg c d a isImportant with
              | error e => exact .inl rfl
              | ok k₃ => exact ih _ k₃
            · simp only [Outcome.ok_bind, hplace]
              exact .inr rfl
    · exact .inl rfl

theorem allocuvmInOp_eq (oldsz newsz : Nat) :
    allocuvmInOp cfg used k c d oldsz newsz isImportant = k.allocuvm cfg c d oldsz newsz isImportant ∨
      allocuvmInOp cfg used k c d oldsz newsz isImportant = .error .beginOp := by
  unfold allocuvmInOp allocuvm
  split
  · exact .inl rfl
  · split
    · exact .inl rfl
    · split
      · exact .inl rfl
      · exact allocLoopInOp_eq cfg _ _ k

theorem allocuvmInOp_ok {oldsz newsz : Nat} {r : Kernel × Nat}
    (h : allocuvmInOp cfg used k c d oldsz newsz isImportant = .ok r) :
    k.allocuvm cfg c d oldsz newsz isImportant = .ok r := by
  rcases @allocuvmInOp_eq cfg used k c d isImportant oldsz newsz with heq | heq
  · rw [← heq, h]
  · rw [heq] at h
    contradiction

end InOp

/-- One program header, with the size it leaves; `none` is a `goto bad`. -/
def loadSegment (used : Nat) (k : Kernel) (c : Slot) (d : Frame) (ip : Inode) (off sz : Nat) :
    Except Crash (Kernel × Option Nat) :=
  match ip.header off proghdrSize with
  | none => .ok (k, none)
  | some bytes =>
    let ph := Proghdr.ofBytes bytes
    if ph.type ≠ elfProgLoad then .ok (k, some sz)
    else if ph.memsz < ph.filesz then .ok (k, none)
    else if (ph.vaddr + ph.memsz) % 2 ^ 32 < ph.vaddr then .ok (k, none)
    else do
      let (k, sz) ← allocuvmInOp cfg used k c d sz ((ph.vaddr + ph.memsz) % 2 ^ 32) 1
      if sz = 0 then return (k, none)
      else if ph.vaddr % pgSize ≠ 0 then return (k, none)
      else
        let (k, ok) ← k.loaduvm d ph.vaddr ip ph.off ph.filesz
        return (k, if ok then some sz else none)

/-- The loop of `exec` over the program headers. -/
def loadSegments (used : Nat) (c : Slot) (d : Frame) (ip : Inode) :
    Nat → Nat → Nat → Kernel → Except Crash (Kernel × Option Nat)
  | 0, _, sz, k => .ok (k, some sz)
  | n + 1, off, sz, k => do
    match ← loadSegment cfg used k c d ip (off % 2 ^ 32) sz with
    | (k, none) => return (k, none)
    | (k, some sz) => loadSegments used c d ip n (off + proghdrSize) sz k

/-- The guard page and the user stack above the program. -/
def allocStack (k : Kernel) (c : Slot) (d : Frame) (sz : Nat) :
    Except Crash (Kernel × Option Nat) := do
  let sz := pgRoundUp sz
  let (k, sz) ← k.allocuvm cfg c d sz (sz + pgSize) 0
  if sz = 0 then return (k, none)
  else
    let (k, sz) ← k.allocuvm cfg c d sz (sz + pgSize) 1
    if sz = 0 then return (k, none)
    else return (← k.clearpteuPage d (sz - 2 * pgSize), some sz)

/-- The loop over the argument strings, with the stack pointer and the words of `ustack` so far. -/
def pushArgs (c : Slot) (d : Frame) :
    List Nat → Nat → List Nat → Kernel → Except Crash (Kernel × Option (Nat × List Nat))
  | [], sp, ustack, k => .ok (k, some (sp, ustack))
  | arg :: argv, sp, ustack, k =>
    if ustack.length ≥ maxArg then .ok (k, none)
    else do
      let len ← k.strlen (k.proc c).pgdir arg
      let sp := ((sp + 2 ^ 32 - (len + 1)) % 2 ^ 32) / 4 * 4
      let (k, ok) ← k.copyout c d sp (.user arg) (len + 1)
      if ok then pushArgs c d argv sp (ustack ++ [sp]) k else return (k, none)

/-- The argument strings and `ustack`. -/
def buildStack (k : Kernel) (c : Slot) (d : Frame) (sz : Nat) (argv : List Nat) :
    Except Crash (Kernel × Bool) := do
  match ← pushArgs c d argv sz [] k with
  | (k, none) => return (k, false)
  | (k, some (sp, args)) =>
    let argc := args.length
    let argp := (sp + 2 ^ 32 - (argc + 1) * 4) % 2 ^ 32
    let ustack := 0xffffffff :: argc :: argp :: (args ++ [0])
    k.copyout c d ((sp + 2 ^ 32 - (3 + argc + 1) * 4) % 2 ^ 32) (.kernel (wordBytes ustack))
      ((3 + argc + 1) * 4)

/-- The new address space, up to the moment it replaces the old one; `none` is a `goto bad`. -/
def buildImage (k : Kernel) (c : Slot) (d : Frame) (ip : Inode) (elf : Elfhdr) (argv : List Nat) :
    Except Crash (Kernel × Option Nat) := do
  match ← loadSegments cfg (k.proc c).usedDisc c d ip elf.phnum elf.phoff 0 k with
  | (k, none) => return (k, none)
  | (k, some sz) =>
    match ← k.allocStack cfg c d sz with
    | (k, none) => return (k, none)
    | (k, some sz) =>
      let (k, ok) ← k.buildStack c d sz argv
      return (k, if ok then some sz else none)

/-- From the copy of the program name on: the new image is committed, the swap file replaced and the
old image freed. -/
def commit (k : Kernel) (c : Slot) (d : Frame) (sz path : Nat) : Except Crash Kernel := do
  let _ ← k.strlen (k.proc c).pgdir path
  let oldpgdir := (k.proc c).pgdir
  let k := k.setProc c { k.proc c with pgdir := d, sz := sz }
  let k := if (k.proc c).pid > 2 then (k.removeSwapFile c).createSwapFile c else k
  k.freevm cfg c oldpgdir

/-- `exec(path, argv)`, where `namei(path)` is `ip` and `argv` lists the user addresses of the
argument strings; the flag is false where it returns `-1`. -/
def exec (k : Kernel) (c : Slot) (path : Nat) (ip : Option Inode) (argv : List Nat) :
    Except Crash (Kernel × Bool) :=
  match ip with
  | none => .ok (k, false)
  | some ip =>
    match ip.header 0 elfhdrSize with
    | none => .ok (k, false)
    | some bytes =>
      let elf := Elfhdr.ofBytes bytes
      if elf.magic ≠ elfMagic then .ok (k, false)
      else do
        match ← k.setupkvm cfg c with
        | (none, k) => return (k, false)
        | (some d, k) =>
          match ← k.buildImage cfg c d ip elf argv with
          | (k, none) => return (← k.freevm cfg c d, false)
          | (k, some sz) => return (← k.commit cfg c d sz path, true)

end Kernel

end OsSessional.Paging
