import OsSessional.Paging.FaultService

/-!
# Page-ins step by step

`retrievePage` with a full RAM table, cut where it may sleep: at every block that it writes to the
swap file and at every block that it reads from it into the global `buffer`. Run alone the steps come
to what the call computes; run together, a call finds its own page in `buffer` as long as nobody else
has copied a block there in the meantime.
-/

namespace OsSessional.Paging

open Function (update update_self update_of_ne)
open Outcome

def pageBlocks : Nat := pgSize / bSize

namespace SwapFile

/-- Block `b` of the page that `writei` lays at `off`; the size grows with the last block of a
`writei`. -/
def writeBlock (f : SwapFile) (src : Nat → Byte) (off b : Nat) : SwapFile :=
  { size :=
      if (b + 1) * bSize % chunk = 0 ∨ b + 1 = pageBlocks then max f.size (off + (b + 1) * bSize)
      else f.size
    data := fun i =>
      if off + b * bSize ≤ i ∧ i < off + (b + 1) * bSize then src (i - off) else f.data i }

/-- The blocks from `b` on. -/
def writeBlocks (src : Nat → Byte) (off : Nat) : Nat → Nat → SwapFile → SwapFile
  | 0, _, f => f
  | n + 1, b, f => writeBlocks src off n (b + 1) (f.writeBlock src off b)

/-- Block `b` of a read of `n` bytes at `off` into a buffer. -/
def copyBlock (f : SwapFile) (off n b : Nat) (buffer : Page) : Page := fun x =>
  if b * bSize ≤ x.val ∧ x.val < min ((b + 1) * bSize) n then f.data (off + x.val) else buffer x

/-- The blocks from `b` on. -/
def copyBlocks (f : SwapFile) (off n : Nat) : Nat → Nat → Page → Page
  | 0, _, buffer => buffer
  | m + 1, b, buffer => copyBlocks f off n m (b + 1) (f.copyBlock off n b buffer)

end SwapFile

/-- Where a process is in `retrievePage`: in no call; about to write block `b` of the page in RAM slot
`i` to disc slot `j`; about to read block `b` of the `n` bytes of disc slot `j`; or back with the
result. -/
inductive Stage
  | idle
  | writing (va : Nat) (mem : Option Frame) (i : Fin maxPyscPages) (j : Fin discPages) (pa : Frame)
      (b : Nat)
  | reading (va : Nat) (mem : Option Frame) (i : Fin maxPyscPages) (j : Fin discPages) (n b : Nat)
  | returned (va : Nat) (mem : Option Frame) (ok : Bool)

namespace Kernel

variable (cfg : Config)

/-- From the page-fault count to the first block of the write. -/
def startWrite (k : Kernel) (c : Slot) (va : Nat) (mem : Option Frame) :
    Except Crash (Kernel × Stage) :=
  match (k.proc c).getReplacementPageIndexPhyMem cfg with
  | none => .ok (k, .returned va mem false)
  | some i =>
    let victim := (k.proc c).pagesInPhysicalMemory i
    match k.getReplacementPageAddressPhyMem victim.pageDirectory victim.virtualAddress with
    | none => .ok (k, .returned va mem false)
    | some pa =>
      match (k.proc c).getAvailablePageIndexDisk with
      | none => .ok (k, .returned va mem false)
      | some j =>
        match (k.proc c).swapFile with
        | none => .error .nullSwapFile
        | some f =>
          if f.refuses (pgSize * j) pgSize then .ok (k, .returned va mem false)
          else .ok (k, .writing va mem i j pa 0)

/-- A page fault of a process with a full RAM table, up to the first block of the write. -/
def beginPageIn (k : Kernel) (c : Slot) (cr2 : Nat) : Except Crash (Kernel × Stage) := do
  let va := pgRoundDown cr2
  let (mem, k) := k.kalloc
  let k ← k.memsetPage c mem (fun _ => 0)
  startWrite cfg (k.countFault c) c va mem

/-- The last block has been read: the entry moves and the page is copied out of `buffer`. -/
def endRead (k : Kernel) (c : Slot) (va : Nat) (mem : Option Frame) (i : Fin maxPyscPages)
    (j : Fin discPages) : Except Crash (Kernel × Stage) := do
  let k := k.moveToRam c j i
  return (← k.memsetPage c mem k.buffer, .returned va mem true)

/-- The last block has been written: from the entry of the disc slot to the first block of the
read. -/
def endWrite (k : Kernel) (c : Slot) (va : Nat) (mem : Option Frame) (i : Fin maxPyscPages)
    (j : Fin discPages) (pa : Frame) : Except Crash (Kernel × Stage) := do
  let victim := (k.proc c).pagesInPhysicalMemory i
  let k := k.setDisc c j (retrieveNote victim ((k.proc c).pagesInDisc j))
  let k ← k.clearPagePhyMem cfg c victim.pageDirectory victim.virtualAddress i pa
  let k ← k.mapPagedIn c va mem
  match (k.proc c).discIndex va with
  | none => return (← k.memsetPage c mem k.buffer, .returned va mem true)
  | some j =>
    match ← k.readFromSwapFile c j with
    | none => return (k, .returned va mem false)
    | some (n, _) => if n = 0 then k.endRead c va mem i j else return (k, .reading va mem i j n 0)

/-- The step of a process that wakes up. -/
def advance (k : Kernel) (c : Slot) : Stage → Except Crash (Kernel × Stage)
  | .writing va mem i j pa b =>
    match (k.proc c).swapFile, k.userPage (k.proc c).pgdir ((k.proc c).pagesInPhysicalMemory i).virtualAddress with
    | some f, some page =>
      let k := k.setSwapFile c (some (f.writeBlock (pageBytes page) (pgSize * j) b))
      if b + 1 < pageBlocks then .ok (k, .writing va mem i j pa (b + 1))
      else k.endWrite cfg c va mem i j pa
    | some _, none => .error .trap
    | none, _ => .error .nullSwapFile
  | .reading va mem i j n b =>
    match (k.proc c).swapFile with
    | none => .error .nullSwapFile
    | some f =>
      let k := { k with buffer := f.copyBlock (j * pgSize) n b k.buffer }
      if (b + 1) * bSize < n then .ok (k, .reading va mem i j n (b + 1))
      else k.endRead c va mem i j
  | stage => .ok (k, stage)

end Kernel

section Blocks

namespace SwapFile

variable {f : SwapFile} {src : Nat → Byte} {off n : Nat}

private theorem writeBlocks_data (m b : Nat) (f : SwapFile) (i : Nat) :
    (writeBlocks src off m b f).data i =
      if off + b * bSize ≤ i ∧ i < off + (b + m) * bSize then src (i - off) else f.data i := by
  induction m generalizing b f with
  | zero =>
    rw [writeBlocks, if_neg]
    rw [Nat.add_zero]
    omega
  | succ m ih =>
    rw [writeBlocks, ih]
    simp only [writeBlock, Nat.add_mul, Nat.one_mul]
    split_ifs <;> first | rfl | omega

private theorem writeBlocks_size (m b : Nat) (f : SwapFile) (hb : b + (m + 1) = pageBlocks) :
    (writeBlocks src off (m + 1) b f).size = max f.size (off + pageBlocks * bSize) := by
  induction m generalizing b f with
  | zero =>
    have hlast : b + 1 = pageBlocks := by omega
    simp only [writeBlocks, writeBlock, hlast, or_true, if_true]
  | succ m ih =>
    have hle : (b + 1) * bSize ≤ pageBlocks * bSize := Nat.mul_le_mul_right _ (by omega)
    rw [writeBlocks, ih (b + 1) _ (by omega)]
    simp only [writeBlock]
    split <;> omega

private theorem writeBlocks_page : writeBlocks src off pageBlocks 0 f = f.overlay src off pgSize := by
  have hdata : (writeBlocks src off pageBlocks 0 f).data = (f.overlay src off pgSize).data := by
    funext i
    rw [writeBlocks_data, Nat.zero_mul, Nat.zero_add, Nat.add_zero, show pageBlocks * bSize = pgSize from rfl]
    rfl
  have hsize : (writeBlocks src off pageBlocks 0 f).size = (f.overlay src off pgSize).size :=
    writeBlocks_size 7 0 f rfl
  cases hw : writeBlocks src off pageBlocks 0 f with
  | mk size data =>
    rw [hw] at hdata hsize
    simp only at hdata hsize
    rw [hdata, hsize]

private theorem copyBlocks_apply (m b : Nat) (buffer : Page) (x : Fin pgSize) :
    f.copyBlocks off n m b buffer x =
      if b * bSize ≤ x.val ∧ x.val < min ((b + m) * bSize) n then f.data (off + x.val) else buffer x := by
  induction m generalizing b buffer with
  | zero =>
    rw [copyBlocks, if_neg]
    rw [Nat.add_zero]
    omega
  | succ m ih =>
    rw [copyBlocks, ih]
    simp only [copyBlock, Nat.add_mul, Nat.one_mul]
    split_ifs <;> first | rfl | omega

end SwapFile

end Blocks

/-- The kernel and where each process is in its page-in. -/
structure Pagers where
  kernel : Kernel
  stage : Slot → Stage

/-- A process faults with a full RAM table, or goes on with its page-in. -/
inductive Turn
  | fault (c : Slot) (cr2 : Nat)
  | advance (c : Slot)
  deriving DecidableEq

namespace Pagers

variable (cfg : Config)

def reads (s : Pagers) (c : Slot) : Bool :=
  match s.stage c with
  | .reading .. => true
  | _ => false

/-- The process has copied some of its blocks into `buffer`, but not all. -/
def midRead (s : Pagers) (c : Slot) : Bool :=
  match s.stage c with
  | .reading _ _ _ _ _ b => decide (0 < b)
  | _ => false

/-- The process is in `retrievePage`. -/
def inCall (s : Pagers) (c : Slot) : Bool :=
  match s.stage c with
  | .writing .. => true
  | .reading .. => true
  | _ => false

/-- A process may fault outside a page-in, at a page that is paged out, with a full RAM table. -/
def Allowed (s : Pagers) : Turn → Prop
  | .fault c cr2 => s.inCall c = false ∧ (s.kernel.proc c).freeRamIndex = none ∧
      s.kernel.checkPTForPage (s.kernel.proc c).pgdir cr2 = true
  | .advance c => s.inCall c = true

/-- Nobody copies a block into `buffer` while another process has copied some of its blocks there, but
not all. -/
def Exclusive (s : Pagers) : Turn → Prop
  | .fault _ _ => True
  | .advance c => s.reads c = true → ∀ c', c' ≠ c → s.midRead c' = false

instance (s : Pagers) (e : Turn) : Decidable (s.Allowed e) := by
  cases e <;> simp only [Allowed] <;> infer_instance

instance (s : Pagers) (e : Turn) : Decidable (s.Exclusive e) := by
  cases e <;> simp only [Exclusive] <;> infer_instance

def perform (s : Pagers) : Turn → Except Crash Pagers
  | .fault c cr2 => do
    let (k, stage) ← s.kernel.beginPageIn cfg c cr2
    return ⟨k, update s.stage c stage⟩
  | .advance c => do
    let (k, stage) ← s.kernel.advance cfg c (s.stage c)
    return ⟨k, update s.stage c stage⟩

/-- After a turn that returned, where the turn was allowed and `cond` held. -/
def next (cond : Pagers → Turn → Bool) (s : Pagers) (e : Turn) : Option Pagers :=
  if s.Allowed e ∧ cond s e = true then (s.perform cfg e).toOption else none

def Step (cond : Pagers → Turn → Bool) (s : Pagers) (e : Turn) (s' : Pagers) : Prop :=
  s.next cfg cond e = some s'

end Pagers

/-- The block a process is at exists. -/
def Stage.InRange : Stage → Prop
  | .writing _ _ _ _ _ b => b < pageBlocks
  | .reading _ _ _ _ n b => b * bSize < n ∧ n ≤ pgSize
  | _ => True

namespace Kernel

variable {cfg : Config} {k k' k₁ : Kernel} {c : Slot} {va : Nat} {mem : Option Frame}
variable {i : Fin maxPyscPages} {j : Fin discPages} {pa : Frame} {stage stage' : Stage}

section Alone

/-- What is left of the call when the process runs alone, once it reads. -/
def restRead (k : Kernel) (c : Slot) : Stage → Except Crash (Kernel × Bool)
  | .reading va mem i j n b =>
    match (k.proc c).swapFile with
    | none => .error .nullSwapFile
    | some f => do
      let k := { k with buffer := f.copyBlocks (j * pgSize) n (pageBlocks - b) b k.buffer }
      let (k, _) ← k.endRead c va mem i j
      return (k, true)
  | .returned _ _ ok => .ok (k, ok)
  | _ => .ok (k, true)

/-- What is left of the call when the process runs alone. -/
def rest (cfg : Config) (k : Kernel) (c : Slot) : Stage → Except Crash (Kernel × Bool)
  | .writing va mem i j pa b =>
    match (k.proc c).swapFile, k.userPage (k.proc c).pgdir ((k.proc c).pagesInPhysicalMemory i).virtualAddress with
    | some f, some page => do
      let f := SwapFile.writeBlocks (pageBytes page) (pgSize * j) (pageBlocks - b) b f
      let (k, stage) ← (k.setSwapFile c (some f)).endWrite cfg c va mem i j pa
      k.restRead c stage
    | some _, none => .error .trap
    | none, _ => .error .nullSwapFile
  | stage => k.restRead c stage

private theorem endRead_ok (h : k.endRead c va mem i j = .ok (k', stage)) :
    stage = .returned va mem true ∧
    (k.moveToRam c j i).memsetPage c mem k.buffer = .ok k' := by
  obtain ⟨k₁, hset, hend⟩ := bind_eq_ok.mp h
  simp only [pure_eq_ok, Prod.mk.injEq] at hend
  obtain ⟨rfl, rfl⟩ := hend
  exact ⟨rfl, hset⟩

private theorem rest_of_endWrite
    (h : k.endWrite cfg c va mem i j pa = .ok (k', stage)) (k₂ : Kernel) (c' : Slot) :
    k₂.rest cfg c' stage = k₂.restRead c' stage := by
  unfold endWrite at h
  obtain ⟨k₃, -, h⟩ := bind_eq_ok.mp h
  obtain ⟨k₄, -, h⟩ := bind_eq_ok.mp h
  split at h
  · obtain ⟨k₅, -, h⟩ := bind_eq_ok.mp h
    obtain ⟨-, rfl⟩ : k₅ = k' ∧ Stage.returned va mem true = stage := by simpa using h
    rfl
  · next j' hj' =>
    obtain ⟨r, -, h⟩ := bind_eq_ok.mp h
    cases r with
    | none =>
      obtain ⟨-, rfl⟩ : k₄ = k' ∧ Stage.returned va mem false = stage := by simpa using h
      rfl
    | some r =>
      simp only at h
      split at h
      · obtain ⟨rfl, -⟩ := endRead_ok h
        rfl
      · obtain ⟨-, rfl⟩ : k₄ = k' ∧ Stage.reading va mem i j' r.1 0 = stage := by simpa using h
        rfl

private theorem rest_advance (hrange : stage.InRange) (h : k.advance cfg c stage = .ok (k', stage')) :
    k'.rest cfg c stage' = k.rest cfg c stage := by
  cases stage with
  | idle =>
    obtain ⟨rfl, rfl⟩ : k = k' ∧ Stage.idle = stage' := by simpa [advance] using h
    rfl
  | returned va mem ok =>
    obtain ⟨rfl, rfl⟩ : k = k' ∧ Stage.returned va mem ok = stage' := by simpa [advance] using h
    rfl
  | writing va mem i j pa b =>
    simp only [advance] at h
    split at h
    · next f page hf hpage =>
      have hblocks : pageBlocks - b = pageBlocks - (b + 1) + 1 := by
        simp only [Stage.InRange] at hrange
        omega
      split at h
      · obtain ⟨rfl, rfl⟩ := Prod.mk.inj (Except.ok.inj h)
        have hpage' : (k.setSwapFile c (some (f.writeBlock (pageBytes page) (pgSize * j) b))).userPage
            (k.proc c).pgdir ((k.proc c).pagesInPhysicalMemory i).virtualAddress = some page := hpage
        simp only [rest, hf, hpage]
        simp only [setSwapFile, setProc_proc_self] at hpage' ⊢
        simp only [hpage', hblocks, SwapFile.writeBlocks, setProc_setProc]
      · next hlast =>
        simp only [rest, hf, hpage]
        have hone : pageBlocks - b = 0 + 1 := by
          simp only [Stage.InRange] at hrange
          omega
        simp only [hone, SwapFile.writeBlocks, h]
        exact rest_of_endWrite h k' c
    · simp at h
    · simp at h
  | reading va mem i j n b =>
    simp only [advance] at h
    split at h
    · simp at h
    · next f hf =>
      obtain ⟨hlt, hle⟩ := hrange
      have hblocks : pageBlocks - b = pageBlocks - (b + 1) + 1 := by
        simp only [pageBlocks, pgSize, bSize] at hlt hle ⊢
        omega
      split at h
      · obtain ⟨rfl, rfl⟩ := Prod.mk.inj (Except.ok.inj h)
        simp only [rest, restRead, hf, hblocks, SwapFile.copyBlocks]
      · next hlast =>
        have hbuffer : f.copyBlocks (j * pgSize) n (pageBlocks - b) b k.buffer =
            f.copyBlock (j * pgSize) n b k.buffer := by
          funext x
          have hx := x.isLt
          have hsame : (b * bSize ≤ x.val ∧ x.val < min ((b + (pageBlocks - b)) * bSize) n) ↔
              (b * bSize ≤ x.val ∧ x.val < min ((b + 1) * bSize) n) := by
            simp only [pageBlocks, bSize, pgSize] at hlt hle hlast hx ⊢
            omega
          rw [SwapFile.copyBlocks_apply, SwapFile.copyBlock]
          simp only [hsame]
        obtain ⟨rfl, -⟩ := endRead_ok h
        simp only [rest, restRead, hf, hbuffer, h]
        rfl

private theorem endRead_bind {α : Type} (k : Kernel) (va : Nat) (g : Kernel × Stage → Except Crash α) :
    (k.endRead c va mem i j >>= g) =
      (k.moveToRam c j i).memsetPage c mem (k.moveToRam c j i).buffer >>= fun k =>
        g (k, .returned va mem true) := by
  unfold endRead
  rw [bind_assoc]
  rfl

private theorem endWrite_restRead (k : Kernel) : (do
      let (k, stage) ← k.endWrite cfg c va mem i j pa
      k.restRead c stage) = (do
      let victim := (k.proc c).pagesInPhysicalMemory i
      let k := k.setDisc c j (retrieveNote victim ((k.proc c).pagesInDisc j))
      let k ← k.clearPagePhyMem cfg c victim.pageDirectory victim.virtualAddress i pa
      let k ← k.mapPagedIn c va mem
      match (k.proc c).discIndex va with
      | none => return (← k.memsetPage c mem k.buffer, true)
      | some j =>
        match ← k.readFromSwapFile c j with
        | none => return (k, false)
        | some (n, bytes) =>
          let k := { k with buffer := fun b => if b.val < n then bytes b else k.buffer b }
          let k := k.moveToRam c j i
          return (← k.memsetPage c mem k.buffer, true)) := by
  unfold endWrite
  simp only [bind_assoc]
  congr 1
  funext k₁
  congr 1
  funext k₂
  cases (k₂.proc c).discIndex va with
  | none =>
    simp only [bind_assoc]
    rfl
  | some j' =>
    simp only [bind_assoc, readFromSwapFile]
    cases hf : (k₂.proc c).swapFile with
    | none => rfl
    | some f =>
      cases hread : f.readi (j' * pgSize) pgSize with
      | none =>
        simp only [hread]
        rfl
      | some r =>
        obtain ⟨n, bytes⟩ := r
        obtain ⟨hn, hbytes⟩ : n ≤ pgSize ∧ bytes = fun i => f.data (j' * pgSize + i) := by
          unfold SwapFile.readi at hread
          split at hread
          · simp at hread
          · obtain ⟨rfl, rfl⟩ := Prod.mk.inj (Option.some.inj hread)
            exact ⟨min_le_left _ _, rfl⟩
        have hbuffer : f.copyBlocks (j' * pgSize) n pageBlocks 0 k₂.buffer =
            fun b : Fin pgSize => if b.val < n then bytes b else k₂.buffer b := by
          funext x
          have hx := x.isLt
          have hsame : (0 * bSize ≤ x.val ∧ x.val < min ((0 + pageBlocks) * bSize) n) ↔ x.val < n := by
            simp only [pageBlocks, bSize, pgSize] at hn hx ⊢
            omega
          rw [SwapFile.copyBlocks_apply, hbytes]
          simp only [hsame]
        simp only [hread, ok_bind]
        by_cases hzero : n = 0
        · subst hzero
          simp only [if_true, Nat.not_lt_zero, if_false, endRead_bind]
          rfl
        · simp only [hzero, if_false, pure_bind, restRead, hf, Nat.sub_zero, hbuffer]
          rw [endRead_bind]

private theorem rest_startWrite (h : k.startWrite cfg c va mem = .ok (k', stage)) :
    k'.rest cfg c stage = k.retrieveSwapping cfg c va mem := by
  unfold startWrite at h
  unfold retrieveSwapping evictPage
  cases hi : (k.proc c).getReplacementPageIndexPhyMem cfg with
  | none =>
    simp only [hi, Except.ok.injEq, Prod.mk.injEq] at h
    obtain ⟨rfl, rfl⟩ := h
    rfl
  | some i =>
    simp only [hi] at h ⊢
    cases hpa : k.getReplacementPageAddressPhyMem ((k.proc c).pagesInPhysicalMemory i).pageDirectory
        ((k.proc c).pagesInPhysicalMemory i).virtualAddress with
    | none =>
      simp only [hpa, Except.ok.injEq, Prod.mk.injEq] at h
      obtain ⟨rfl, rfl⟩ := h
      rfl
    | some pa =>
      simp only [hpa] at h ⊢
      cases hj : (k.proc c).getAvailablePageIndexDisk with
      | none =>
        simp only [hj, Except.ok.injEq, Prod.mk.injEq] at h
        obtain ⟨rfl, rfl⟩ := h
        rfl
      | some j =>
        simp only [hj] at h ⊢
        cases hf : (k.proc c).swapFile with
        | none => simp [hf] at h
        | some f =>
          simp only [hf] at h
          cases hrefuse : f.refuses (pgSize * j) pgSize with
          | true =>
            simp only [hrefuse, if_true, Except.ok.injEq, Prod.mk.injEq] at h
            obtain ⟨rfl, rfl⟩ := h
            have hlate : f.size < pgSize * j := by simpa [refuses_slot] using hrefuse
            simp only [writeToSwapFile, hf, rest, restRead]
            cases hpage : k.userPage (k.proc c).pgdir
                ((k.proc c).pagesInPhysicalMemory i).virtualAddress with
            | none => simp [hrefuse, bind, Except.bind, pure, Except.pure]
            | some page =>
              have hwrite : f.filewrite (pageBytes page) (pgSize * j) pgSize = (f, false) :=
                f.filewrite_refused _ (by decide) hlate
              simp [hwrite, setSwapFile_self hf, bind, Except.bind, pure, Except.pure]
          | false =>
            simp only [hrefuse, Bool.false_eq_true, if_false, Except.ok.injEq, Prod.mk.injEq] at h
            obtain ⟨rfl, rfl⟩ := h
            have hroom : pgSize * j ≤ f.size := by simpa [refuses_slot] using hrefuse
            simp only [writeToSwapFile, hf, rest]
            cases hpage : k.userPage (k.proc c).pgdir
                ((k.proc c).pagesInPhysicalMemory i).virtualAddress with
            | none => simp [hrefuse, bind, Except.bind]
            | some page =>
              have hwrite : f.filewrite (pageBytes page) (pgSize * j) pgSize =
                  (f.overlay (pageBytes page) (pgSize * j) pgSize, true) :=
                f.filewrite_eq _ (by decide) hroom (slot_in_file j)
              simp only [Nat.sub_zero, SwapFile.writeBlocks_page, hwrite]
              rw [endWrite_restRead]
              simp only [setSwapFile, setProc_proc_self, ok_bind, if_true, bind_assoc]
              rfl

private theorem memsetPage_proc {page : Page} (h : k.memsetPage c mem page = .ok k') :
    k'.proc = k.proc := by
  obtain ⟨fr, pg, rfl, -⟩ := memsetPage_ok h
  rfl

private theorem kalloc_proc (k : Kernel) : k.kalloc.2.proc = k.proc := by
  unfold kalloc
  split <;> rfl

private theorem beginPageIn_ok {cr2 : Nat} (h : k.beginPageIn cfg c cr2 = .ok (k', stage)) :
    ∃ k₁, k.kalloc.2.memsetPage c k.kalloc.1 (fun _ => 0) = .ok k₁ ∧
      startWrite cfg (k₁.countFault c) c (pgRoundDown cr2) k.kalloc.1 = .ok (k', stage) :=
  bind_eq_ok.mp h

private theorem rest_beginPageIn {cr2 : Nat} (hfull : (k.proc c).freeRamIndex = none)
    (h : k.beginPageIn cfg c cr2 = .ok (k', stage)) : k'.rest cfg c stage = k.retrievePage cfg c cr2 := by
  obtain ⟨k₁, hset, hstart⟩ := beginPageIn_ok h
  have hproc : k₁.proc = k.proc := (memsetPage_proc hset).trans (kalloc_proc k)
  have hfull₁ : ((k₁.countFault c).proc c).freeRamIndex = none := by
    simp only [countFault, setProc_proc_self, hproc]
    exact hfull
  rw [rest_startWrite hstart]
  simp only [retrievePage, hset, ok_bind, hfull₁]

private theorem readFromSwapFile_some
    {r : Nat × (Nat → Byte)} (h : k.readFromSwapFile c j = .ok (some r)) :
    ∃ f, (k.proc c).swapFile = some f ∧ r.1 = min pgSize (f.size - j * pgSize) := by
  unfold readFromSwapFile at h
  cases hf : (k.proc c).swapFile with
  | none => simp [hf] at h
  | some f =>
    simp only [hf, Except.ok.injEq] at h
    unfold SwapFile.readi at h
    split at h
    · simp at h
    · rw [← Option.some.inj h]
      exact ⟨f, rfl, rfl⟩

private theorem startWrite_ok (h : k.startWrite cfg c va mem = .ok (k', stage)) : k' = k ∧
    (stage = .returned va mem false ∨ ∃ i j pa, stage = .writing va mem i j pa 0) := by
  have hquit (h : (.ok (k, .returned va mem false) : Except Crash _) = .ok (k', stage)) :
      k' = k ∧ (stage = .returned va mem false ∨ ∃ i j pa, stage = .writing va mem i j pa 0) := by
    obtain ⟨rfl, rfl⟩ := Prod.mk.inj (Except.ok.inj h)
    exact ⟨rfl, .inl rfl⟩
  unfold startWrite at h
  cases hi : (k.proc c).getReplacementPageIndexPhyMem cfg with
  | none =>
    simp only [hi] at h
    exact hquit h
  | some i =>
    simp only [hi] at h
    split at h
    · exact hquit h
    · next pa hpa =>
      split at h
      · exact hquit h
      · next j hj =>
        split at h
        · simp at h
        · split at h
          · exact hquit h
          · obtain ⟨rfl, rfl⟩ := Prod.mk.inj (Except.ok.inj h)
            exact ⟨rfl, .inr ⟨i, j, pa, rfl⟩⟩

private theorem inRange_of_startWrite (h : k.startWrite cfg c va mem = .ok (k', stage)) :
    stage.InRange := by
  obtain ⟨-, rfl | ⟨i, j, pa, rfl⟩⟩ := startWrite_ok h
  · trivial
  · show 0 < pageBlocks
    decide

private theorem inRange_of_endWrite (h : k.endWrite cfg c va mem i j pa = .ok (k', stage)) :
    stage.InRange := by
  unfold endWrite at h
  obtain ⟨k₃, -, h⟩ := bind_eq_ok.mp h
  obtain ⟨k₄, -, h⟩ := bind_eq_ok.mp h
  split at h
  · obtain ⟨k₅, -, h⟩ := bind_eq_ok.mp h
    obtain ⟨-, rfl⟩ : k₅ = k' ∧ Stage.returned va mem true = stage := by simpa using h
    trivial
  · next j' hj' =>
    obtain ⟨r, hread, h⟩ := bind_eq_ok.mp h
    cases r with
    | none =>
      obtain ⟨-, rfl⟩ : k₄ = k' ∧ Stage.returned va mem false = stage := by simpa using h
      trivial
    | some r =>
      simp only at h
      split at h
      · obtain ⟨rfl, -⟩ := endRead_ok h
        trivial
      · next hpos =>
        obtain ⟨-, rfl⟩ : k₄ = k' ∧ Stage.reading va mem i j' r.1 0 = stage := by simpa using h
        obtain ⟨f, -, hn⟩ := readFromSwapFile_some hread
        apply And.intro
        · rw [Nat.zero_mul]
          exact Nat.pos_of_ne_zero hpos
        · rw [hn]
          exact min_le_left _ _

private theorem inRange_of_beginPageIn {cr2 : Nat} (h : k.beginPageIn cfg c cr2 = .ok (k', stage)) :
    stage.InRange := by
  obtain ⟨k₁, -, hstart⟩ := beginPageIn_ok h
  exact inRange_of_startWrite hstart

private theorem inRange_of_advance
    (hrange : stage.InRange) (h : k.advance cfg c stage = .ok (k', stage')) :
    stage'.InRange := by
  cases stage with
  | idle =>
    rw [← (Prod.mk.inj (Except.ok.inj h)).2]
    trivial
  | returned va mem ok =>
    rw [← (Prod.mk.inj (Except.ok.inj h)).2]
    trivial
  | writing va mem i j pa b =>
    simp only [advance] at h
    split at h
    · split at h
      · next hlt =>
        rw [← (Prod.mk.inj (Except.ok.inj h)).2]
        exact hlt
      · exact inRange_of_endWrite h
    · simp at h
    · simp at h
  | reading va mem i j n b =>
    simp only [advance] at h
    split at h
    · simp at h
    · split at h
      · next hlt =>
        rw [← (Prod.mk.inj (Except.ok.inj h)).2]
        exact ⟨hlt, hrange.2⟩
      · rw [(endRead_ok h).1]
        trivial

end Alone

section Apart

/-- The records of the other processes and `buffer` are as they were. -/
structure Apart (c : Slot) (k k' : Kernel) : Prop where
  other : ∀ c', c' ≠ c → k'.proc c' = k.proc c'
  buffer : k'.buffer = k.buffer

namespace Apart

variable {k₂ : Kernel} {p : Proc}

private theorem refl (c : Slot) (k : Kernel) : Apart c k k := ⟨fun _ _ => rfl, rfl⟩

private theorem trans (h : Apart c k k₁) (h' : Apart c k₁ k₂) : Apart c k k₂ where
  other c' hc := (h'.other c' hc).trans (h.other c' hc)
  buffer := h'.buffer.trans h.buffer

theorem of_setProc : Apart c k (k.setProc c p) where
  other _ hc := setProc_proc_of_ne hc
  buffer := rfl

private theorem of_proc (hproc : k'.proc = k.proc) (hbuffer : k'.buffer = k.buffer) : Apart c k k' where
  other c' _ := congrFun hproc c'
  buffer := hbuffer

private theorem of_memsetPage {page : Page} (h : k.memsetPage c mem page = .ok k') : Apart c k k' := by
  obtain ⟨fr, pg, rfl, -⟩ := memsetPage_ok h
  exact of_proc rfl rfl

private theorem of_kalloc : Apart c k k.kalloc.2 := by
  apply of_proc (kalloc_proc k)
  unfold kalloc
  split <;> rfl

private theorem of_clearPagePhyMem
    {d : Frame} {a : Nat} (h : k.clearPagePhyMem cfg c d a i pa = .ok k') :
    Apart c k k' := by
  obtain ⟨k₁, hfree, h⟩ := bind_eq_ok.mp h
  obtain ⟨-, rfl⟩ := kfree_ok hfree
  have hfreed : Apart c k (k.freed pa) := of_proc rfl rfl
  have hset : Apart c k ((k.freed pa).setRam c i
      { ((k.freed pa).proc c).pagesInPhysicalMemory i with isUsed := false }) := hfreed.trans of_setProc
  simp only at h
  split at h
  · obtain rfl := pure_eq_ok.mp h
    exact hset
  · obtain rfl := pure_eq_ok.mp h
    exact hset.trans (of_proc rfl rfl)

private theorem of_mapPagedIn (h : k.mapPagedIn c va mem = .ok k') : Apart c k k' := by
  unfold mapPagedIn at h
  split at h
  · simp at h
  · split at h
    · simp at h
    · obtain rfl := Except.ok.inj h
      exact of_proc rfl rfl

private theorem of_endRead (h : k.endRead c va mem i j = .ok (k', stage)) : Apart c k k' :=
  trans of_setProc (of_memsetPage (endRead_ok h).2)

private theorem of_beginPageIn {cr2 : Nat} (h : k.beginPageIn cfg c cr2 = .ok (k', stage)) :
    Apart c k k' := by
  obtain ⟨k₁, hset, hstart⟩ := beginPageIn_ok h
  obtain ⟨rfl, -⟩ := startWrite_ok hstart
  exact (of_kalloc.trans (of_memsetPage hset)).trans of_setProc

private theorem of_endWrite (h : k.endWrite cfg c va mem i j pa = .ok (k', stage)) : Apart c k k' := by
  obtain ⟨k₁, hclear, h⟩ := bind_eq_ok.mp h
  obtain ⟨k₂, hmap, h⟩ := bind_eq_ok.mp h
  have hmapped : Apart c k k₂ :=
    (of_setProc.trans (of_clearPagePhyMem hclear)).trans (of_mapPagedIn hmap)
  apply hmapped.trans
  split at h
  · obtain ⟨k₃, hset, h⟩ := bind_eq_ok.mp h
    obtain ⟨rfl, -⟩ := Prod.mk.inj (pure_eq_ok.mp h)
    exact of_memsetPage hset
  · obtain ⟨r, -, h⟩ := bind_eq_ok.mp h
    split at h
    · obtain ⟨rfl, -⟩ := Prod.mk.inj (pure_eq_ok.mp h)
      exact refl c k₂
    · split at h
      · exact of_endRead h
      · obtain ⟨rfl, -⟩ := Prod.mk.inj (pure_eq_ok.mp h)
        exact refl c k₂

end Apart

end Apart

section Together

/-- A process that reads reads the slot it searches for; the blocks it has read are in `buffer`. -/
def Buffered (k : Kernel) (c : Slot) : Stage → Prop
  | .reading va _ _ j n b => b * bSize < n ∧ n ≤ pgSize ∧ (k.proc c).discIndex va = some j ∧
      ∃ f, (k.proc c).swapFile = some f ∧ n = min pgSize (f.size - j * pgSize) ∧
        ∀ x : Fin pgSize, x.val < b * bSize → k.buffer x = f.data (j * pgSize + x)
  | _ => True

/-- What a returned page-in was for: its frame holds the bytes of the slot it was read from. -/
def Delivered (k : Kernel) (c : Slot) : Stage → Prop
  | .returned va (some fr) true => ∀ j f, (k.proc c).discIndex va = some j →
      (k.proc c).swapFile = some f →
      ∀ x : Fin pgSize, j * pgSize + x < f.size → k.mem fr x = f.data (j * pgSize + x)
  | _ => True

private theorem Buffered.other (hproc : k'.proc c = k.proc c)
    (hbuffer : k'.buffer = k.buffer ∨ ∀ va mem i j n b, stage = .reading va mem i j n b → b = 0)
    (h : Buffered k c stage) : Buffered k' c stage := by
  cases stage with
  | reading va mem i j n b =>
    obtain ⟨hlt, hle, hj, f, hf, hn, hread⟩ := h
    refine ⟨hlt, hle, by rw [hproc]; exact hj, f, by rw [hproc]; exact hf, hn, ?_⟩
    intro x hx
    rcases hbuffer with hbuffer | hzero
    · rw [hbuffer]
      exact hread x hx
    · rw [hzero _ _ _ _ _ _ rfl, Nat.zero_mul] at hx
      exact absurd hx (Nat.not_lt_zero _)
  | _ => trivial

private theorem moveToRam_discIndex (k : Kernel) :
    ((k.moveToRam c j i).proc c).discIndex va = (k.proc c).discIndex va := by
  simp only [moveToRam, setProc_proc_self, Proc.discIndex]
  congr 1
  funext j'
  by_cases hj : j' = j
  · subst hj
    simp
  · simp [hj]

private theorem endRead_delivered (hj : (k.proc c).discIndex va = some j)
    (hread : ∀ f, (k.proc c).swapFile = some f → ∀ x : Fin pgSize, j * pgSize + x < f.size →
      k.buffer x = f.data (j * pgSize + x))
    (h : k.endRead c va mem i j = .ok (k', stage)) : Delivered k' c stage := by
  obtain ⟨rfl, hset⟩ := endRead_ok h
  cases mem with
  | none => trivial
  | some fr =>
    obtain rfl : ((k.moveToRam c j i).setMem fr k.buffer) = k' := Except.ok.inj hset
    intro j' f hj' hf x hx
    have hsame : ((k.moveToRam c j i).proc c).discIndex va = some j' := hj'
    rw [moveToRam_discIndex, hj] at hsame
    obtain rfl := Option.some.inj hsame
    have hfile : (k.proc c).swapFile = some f := by
      simpa [moveToRam] using hf
    simpa using hread f hfile x hx

private theorem endWrite_buffered (h : k.endWrite cfg c va mem i j pa = .ok (k', stage)) :
    Buffered k' c stage ∧ Delivered k' c stage := by
  obtain ⟨k₁, -, h⟩ := bind_eq_ok.mp h
  obtain ⟨k₂, -, h⟩ := bind_eq_ok.mp h
  split at h
  · next hnone =>
    obtain ⟨k₃, hset, h⟩ := bind_eq_ok.mp h
    obtain ⟨rfl, rfl⟩ := Prod.mk.inj (pure_eq_ok.mp h)
    refine ⟨trivial, ?_⟩
    cases mem with
    | none => trivial
    | some fr =>
      intro j' f hj'
      rw [memsetPage_proc hset, hnone] at hj'
      simp at hj'
  · next j' hj' =>
    obtain ⟨r, hread, h⟩ := bind_eq_ok.mp h
    cases r with
    | none =>
      obtain ⟨rfl, rfl⟩ := Prod.mk.inj (pure_eq_ok.mp h)
      cases mem <;> exact ⟨trivial, trivial⟩
    | some r =>
      obtain ⟨f, hf, hn⟩ := readFromSwapFile_some hread
      simp only at h
      split at h
      · next hzero =>
        refine ⟨by rw [(endRead_ok h).1]; trivial, endRead_delivered hj' ?_ h⟩
        intro f' hf' x hx
        obtain rfl := Option.some.inj (hf.symm.trans hf')
        rw [hzero] at hn
        have hpos : 0 < pgSize := by decide
        omega
      · next hpos =>
        obtain ⟨rfl, rfl⟩ := Prod.mk.inj (pure_eq_ok.mp h)
        refine ⟨⟨by omega, by rw [hn]; exact min_le_left _ _, hj', f, hf, hn, ?_⟩, trivial⟩
        intro x hx
        rw [Nat.zero_mul] at hx
        exact absurd hx (Nat.not_lt_zero _)

private theorem advance_buffered
    (hbuf : Buffered k c stage) (hcall : ∀ va mem ok, stage ≠ .returned va mem ok)
    (h : k.advance cfg c stage = .ok (k', stage')) : Buffered k' c stage' ∧ Delivered k' c stage' := by
  cases stage with
  | idle =>
    obtain ⟨rfl, rfl⟩ := Prod.mk.inj (Except.ok.inj h)
    exact ⟨trivial, trivial⟩
  | returned va mem ok => exact absurd rfl (hcall va mem ok)
  | writing va mem i j pa b =>
    simp only [advance] at h
    split at h
    · split at h
      · obtain ⟨rfl, rfl⟩ := Prod.mk.inj (Except.ok.inj h)
        exact ⟨trivial, trivial⟩
      · exact endWrite_buffered h
    · simp at h
    · simp at h
  | reading va mem i j n b =>
    obtain ⟨hlt, hle, hj, f, hf, hn, hread⟩ := hbuf
    simp only [advance, hf] at h
    have hcopied : ∀ x : Fin pgSize, x.val < (b + 1) * bSize → x.val < n →
        f.copyBlock (j * pgSize) n b k.buffer x = f.data (j * pgSize + x) := by
      intro x hx hxn
      unfold SwapFile.copyBlock
      split
      · rfl
      · exact hread x (by omega)
    split at h
    · next hmore =>
      obtain ⟨rfl, rfl⟩ := Prod.mk.inj (Except.ok.inj h)
      exact ⟨⟨hmore, hle, hj, f, hf, hn, fun x hx => hcopied x hx (by omega)⟩, trivial⟩
    · next hlast =>
      refine ⟨by rw [(endRead_ok h).1]; trivial,
        endRead_delivered (k := { k with buffer := f.copyBlock (j * pgSize) n b k.buffer }) hj ?_ h⟩
      intro f' hf' x hx
      obtain rfl := Option.some.inj (hf.symm.trans hf')
      have hx' := x.isLt
      exact hcopied x (by omega) (by omega)

private theorem advance_apart (hreads : ∀ va mem i j n b, stage ≠ .reading va mem i j n b)
    (h : k.advance cfg c stage = .ok (k', stage')) : Apart c k k' := by
  cases stage with
  | idle =>
    obtain ⟨rfl, rfl⟩ := Prod.mk.inj (Except.ok.inj h)
    exact .refl c k
  | returned va mem ok =>
    obtain ⟨rfl, rfl⟩ := Prod.mk.inj (Except.ok.inj h)
    exact .refl c k
  | writing va mem i j pa b =>
    simp only [advance] at h
    split at h
    · split at h
      · obtain ⟨rfl, rfl⟩ := Prod.mk.inj (Except.ok.inj h)
        exact .of_setProc
      · exact Apart.trans .of_setProc (.of_endWrite h)
    · simp at h
    · simp at h
  | reading va mem i j n b => exact absurd rfl (hreads va mem i j n b)

private theorem advance_other (h : k.advance cfg c stage = .ok (k', stage')) {c' : Slot} (hc : c' ≠ c) :
    k'.proc c' = k.proc c' := by
  cases stage with
  | reading va mem i j n b =>
    simp only [advance] at h
    split at h
    · simp at h
    · split at h
      · obtain ⟨rfl, rfl⟩ := Prod.mk.inj (Except.ok.inj h)
        rfl
      · exact (Apart.of_endRead h).other c' hc
  | _ => exact (advance_apart (by simp) h).other c' hc

end Together

end Kernel

/-- The slot that the child of the first process gets. -/
def Solo.heir : Slot := ⟨1, one_lt_nProc⟩

namespace Pagers

variable {cfg : Config} {cond : Pagers → Turn → Bool} {s s₁ s' : Pagers} {c : Slot} {e : Turn}

/-- Nobody pages in yet. -/
def atRest (k : Kernel) : Pagers := ⟨k, fun _ => .idle⟩

/-- The call of the process returned 1 with a frame. -/
def succeeded (s : Pagers) (c : Slot) : Bool :=
  match s.stage c with
  | .returned _ (some _) true => true
  | _ => false

/-- The two kinds of step. -/
inductive Turned (cfg : Config) (s : Pagers) : Turn → Pagers → Prop
  | fault {c : Slot} {cr2 : Nat} {k : Kernel} {stage : Stage}
      (hfull : (s.kernel.proc c).freeRamIndex = none)
      (h : s.kernel.beginPageIn cfg c cr2 = .ok (k, stage)) :
      Turned cfg s (.fault c cr2) ⟨k, update s.stage c stage⟩
  | advance {c : Slot} {k : Kernel} {stage : Stage} (hcall : s.inCall c = true)
      (h : s.kernel.advance cfg c (s.stage c) = .ok (k, stage)) :
      Turned cfg s (.advance c) ⟨k, update s.stage c stage⟩

private theorem Step.ok (h : Step cfg cond s e s') : cond s e = true ∧ Turned cfg s e s' := by
  unfold Step next at h
  split at h
  · next hboth =>
    obtain ⟨hallowed, hcond⟩ := hboth
    refine ⟨hcond, ?_⟩
    cases hp : s.perform cfg e with
    | error e => simp [hp, Except.toOption] at h
    | ok s₂ =>
      obtain rfl : s₂ = s' := by simpa [hp, Except.toOption] using h
      cases e with
      | fault c cr2 =>
        obtain ⟨⟨k, stage⟩, hbegin, hend⟩ := bind_eq_ok.mp hp
        rw [← pure_eq_ok.mp hend]
        exact .fault hallowed.2.1 hbegin
      | advance c =>
        obtain ⟨⟨k, stage⟩, hadvance, hend⟩ := bind_eq_ok.mp hp
        rw [← pure_eq_ok.mp hend]
        exact .advance hallowed hadvance
  · simp at h

private theorem not_returned_of_inCall
    (h : s.inCall c = true) (va : Nat) (mem : Option Frame) (ok : Bool) :
    s.stage c ≠ .returned va mem ok := by
  intro hstage
  simp [inCall, hstage] at h

/-- Alone, the steps come to what the call computes. -/
theorem retrievePage_of_run {as : List Turn} {cr2 va : Nat} {mem : Option Frame} {ok : Bool}
    (hfault : Step cfg cond s (.fault c cr2) s₁)
    (hrun : Run (Step cfg fun _ e => decide (e = .advance c)) s₁ as s')
    (hret : s'.stage c = .returned va mem ok) :
    s.kernel.retrievePage cfg c cr2 = .ok (s'.kernel, ok) := by
  have hstart : (s₁.stage c).InRange ∧
      s₁.kernel.rest cfg c (s₁.stage c) = s.kernel.retrievePage cfg c cr2 := by
    cases hfault.ok.2 with
    | fault hfull h =>
      simp only [update_self]
      exact ⟨Kernel.inRange_of_beginPageIn h, Kernel.rest_beginPageIn hfull h⟩
  have hend : (s'.stage c).InRange ∧
      s'.kernel.rest cfg c (s'.stage c) = s.kernel.retrievePage cfg c cr2 := by
    refine hrun.keeps (I := fun s₂ => (s₂.stage c).InRange ∧
      s₂.kernel.rest cfg c (s₂.stage c) = s.kernel.retrievePage cfg c cr2) ?_ hstart
    rintro s₂ e s₃ ⟨hrange, hrest⟩ hstep
    obtain ⟨hcond, hturn⟩ := hstep.ok
    obtain rfl := of_decide_eq_true hcond
    cases hturn with
    | advance hcall h =>
      simp only [update_self]
      exact ⟨Kernel.inRange_of_advance hrange h, (Kernel.rest_advance hrange h).trans hrest⟩
  rw [← hend.2, hret]
  rfl

/-- An exclusive step keeps the blocks in `buffer` those of the process that reads. -/
private theorem buffered_step (h : ∀ c, s.kernel.Buffered c (s.stage c)) (hexcl : s.Exclusive e)
    (hturn : Turned cfg s e s') : ∀ c, s'.kernel.Buffered c (s'.stage c) := by
  intro c'
  cases hturn with
  | @fault c cr2 k stage hfull hbegin =>
    by_cases hc : c' = c
    · subst hc
      simp only [update_self]
      obtain ⟨k₁, -, hstart⟩ := Kernel.beginPageIn_ok hbegin
      obtain ⟨-, rfl | ⟨i, j, pa, rfl⟩⟩ := Kernel.startWrite_ok hstart
      · trivial
      · trivial
    · simp only [update_of_ne hc]
      have hapart := Kernel.Apart.of_beginPageIn hbegin
      exact (h c').other (hapart.other c' hc) (.inl hapart.buffer)
  | @advance c k stage hcall hadvance =>
    by_cases hc : c' = c
    · subst hc
      simp only [update_self]
      exact (Kernel.advance_buffered (h c') (not_returned_of_inCall hcall) hadvance).1
    · simp only [update_of_ne hc]
      refine (h c').other (Kernel.advance_other hadvance hc) ?_
      cases hstage : s.stage c with
      | reading va mem i j n b =>
        -- The others are not in the middle of a read: what they expect of `buffer` is nothing.
        right
        intro va' mem' i' j' n' b' hother
        have hquiet := hexcl (by simp [reads, hstage]) c' hc
        simp only [midRead, hother, decide_eq_false_iff_not, Nat.not_lt, Nat.le_zero] at hquiet
        exact hquiet
      | _ =>
        left
        exact (Kernel.advance_apart (by simp [hstage]) hadvance).buffer

/-- A process with a full RAM table and its child, which has changed the first byte of page 0, grow by
a page: page 0 of each is on disc. -/
def growTwo : List Action :=
  [.fork Solo.main, .user Solo.heir (.store 0 99 true), .user Solo.main (.growproc 4096),
    .user Solo.heir (.growproc 4096)]

/-- Both touch page 0. The parent reads one block, the child pages in, the parent reads the rest. -/
def crossing : List Turn :=
  .fault Solo.main 0 :: List.replicate 9 (.advance Solo.main) ++
    .fault Solo.heir 0 :: List.replicate 16 (.advance Solo.heir) ++
    List.replicate 6 (.advance Solo.main)

/-- The same without the overlap. -/
def queued : List Turn :=
  .fault Solo.main 0 :: .fault Solo.heir 0 :: List.replicate 16 (.advance Solo.main) ++
    List.replicate 15 (.advance Solo.heir)

/-- The first byte of the frame is not the first byte of the slot. -/
def mixed (s : Pagers) (c : Slot) : Bool :=
  match s.stage c with
  | .returned va (some fr) true =>
    match (s.kernel.proc c).discIndex va, (s.kernel.proc c).swapFile with
    | some j, some f =>
      decide (j * pgSize < f.size) && s.kernel.mem fr ⟨0, by decide⟩ != f.data (j * pgSize)
    | _, _ => false
  | _ => false

private theorem not_delivered_of_mixed (h : s.mixed c = true) : ¬ s.kernel.Delivered c (s.stage c) := by
  intro hdel
  unfold mixed at h
  split at h
  · next va fr hstage =>
    rw [hstage] at hdel
    split at h
    · next j f hj hf =>
      simp only [Bool.and_eq_true, decide_eq_true_eq, bne_iff_ne] at h
      have hbyte := hdel j f hj hf ⟨0, by decide⟩
      rw [Nat.add_zero] at hbyte
      exact h.2 (hbyte h.1)
    · simp at h
  · simp at h

end Pagers

end OsSessional.Paging
