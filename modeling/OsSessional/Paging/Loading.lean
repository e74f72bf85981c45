import OsSessional.Paging.Kept
import OsSessional.Paging.Limits

/-!
# Where `loaduvm` reads a program to

`exec` alternates between `allocuvm`, which may evict a page of the directory it is filling, and
`loaduvm`, which takes the frame address out of an entry without testing `PTE_P`. Which pages are read
is settled by the file, and which page is evicted by the tables the process has when it calls `exec`:
no more than one goes out while the operation of `exec` is open.
-/

namespace OsSessional.Paging

open Outcome

/-- A page that `loaduvm` reads into, and the pages the program has by then. -/
structure Load where
  grown : Nat
  page : Nat

namespace Inode

variable (ip : Inode)

/-- The pages `loaduvm` reads into from byte `i` on; a read that fails is the last one. -/
def readLoop (addr offset sz : Nat) : Nat → Nat → List Nat
  | 0, _ => []
  | fuel + 1, i =>
    if i < sz then
      vpn (addr + i) ::
        match ip.readi ((offset + i) % 2 ^ 32) (min (sz - i) pgSize) with
        | none => []
        | some (m, _) =>
          if m = min (sz - i) pgSize then readLoop addr offset sz fuel (i + pgSize) else []
    else []

/-- The reads for one program header, with `sz` bytes allocated before it. -/
def segmentLoads (bytes : Nat → Byte) (sz : Nat) : List Load :=
  let ph := Proghdr.ofBytes bytes
  let newsz := (ph.vaddr + ph.memsz) % 2 ^ 32
  if ph.type ≠ elfProgLoad then []
  else if ph.memsz < ph.filesz ∨ newsz < ph.vaddr ∨ newsz ≥ kernBase then []
  else if max sz newsz = 0 ∨ ph.vaddr % pgSize ≠ 0 then []
  else (ip.readLoop ph.vaddr ph.off ph.filesz (ph.filesz / pgSize + 1) 0).map
    (Load.mk (pages (max sz newsz)))

def loadsLoop : Nat → Nat → Nat → List Load
  | 0, _, _ => []
  | n + 1, off, sz =>
    match ip.header (off % 2 ^ 32) proghdrSize with
    | none => []
    | some bytes =>
      ip.segmentLoads bytes sz ++
        match ip.spanSegment bytes sz with
        | (sz, true) => loadsLoop n (off + proghdrSize) sz
        | (_, false) => []

/-- The reads of `exec`, if nothing but the file stops it. -/
def loads : List Load :=
  match ip.header 0 elfhdrSize with
  | none => []
  | some bytes =>
    let elf := Elfhdr.ofBytes bytes
    if elf.magic ≠ elfMagic then [] else ip.loadsLoop elf.phnum elf.phoff 0

end Inode

namespace Proc

/-- The tables with the first `n` pages of `d` tracked, as far as there is room. -/
def filled (p : Proc) (d : Frame) : Nat → Proc
  | 0 => p
  | n + 1 => (p.filled d n).updatePhysicalPageMetaData d (n * pgSize) 1

/-- From these tables on, page `x` of a new directory `d` is out once the program has `n` pages: the RAM
table is full before the last of them, the policy picks page `x`, and the disc slot it goes to starts
inside the swap file. -/
structure Loses (cfg : Config) (p : Proc) (d : Frame) (n x : Nat) : Prop where
  pid : 0 < p.pid
  full : (p.filled d (n - 1)).freeRamIndex = none
  victim : ∃ i, (p.filled d (n - 1)).getReplacementPageIndexPhyMem cfg = some i ∧
    ((p.filled d (n - 1)).pagesInPhysicalMemory i).pageDirectory = d ∧
    vpn ((p.filled d (n - 1)).pagesInPhysicalMemory i).virtualAddress = x
  slot : ∃ j f, p.getAvailablePageIndexDisk = some j ∧ p.swapFile = some f ∧ pgSize * j ≤ f.size

end Proc

/-- `loaduvm` is about to read into a page of a directory. -/
structure LoadRead where
  pgdir : Frame
  state : Kernel
  page : Nat

/-- The frame it reads into is that of a present page. -/
def LoadRead.Safe (r : LoadRead) : Prop := hasFlag (r.state.pte r.pgdir r.page) .P = true

namespace Kernel

/-- One of the first `m` pages that `exec` is to read into goes out before. -/
def LosesLoad (cfg : Config) (k : Kernel) (c : Slot) (ip : Option Inode) (m : Nat) : Prop :=
  ∃ f d rest, ip = some f ∧ k.freelist = d :: rest ∧
    ∃ l ∈ f.loads.take m, (k.proc c).Loses cfg d l.grown l.page

section Reads

variable (cfg : Config)

/-- The reads of the loop of `loaduvm` from byte `i` on. -/
def loadLoopReads (d : Frame) (addr : Nat) (ip : Inode) (offset sz : Nat) :
    Nat → Nat → Kernel → List LoadRead
  | 0, _, _ => []
  | fuel + 1, i, k =>
    if i < sz then
      match k.walkpgdir d (addr + i) with
      | none => []
      | some pte =>
        ⟨d, k, vpn (addr + i)⟩ ::
          match k.readPage ip (pteAddr pte) ((offset + i) % 2 ^ 32) (min (sz - i) pgSize) with
          | (k, true) => loadLoopReads d addr ip offset sz fuel (i + pgSize) k
          | (_, false) => []
    else []

def loadReads (k : Kernel) (d : Frame) (addr : Nat) (ip : Inode) (offset sz : Nat) : List LoadRead :=
  if addr % pgSize ≠ 0 then [] else loadLoopReads d addr ip offset sz (sz / pgSize + 1) 0 k

/-- One program header. -/
def segmentReads (used : Nat) (k : Kernel) (c : Slot) (d : Frame) (ip : Inode) (off sz : Nat) :
    List LoadRead :=
  match ip.header off proghdrSize with
  | none => []
  | some bytes =>
    let ph := Proghdr.ofBytes bytes
    if ph.type ≠ elfProgLoad then []
    else if ph.memsz < ph.filesz then []
    else if (ph.vaddr + ph.memsz) % 2 ^ 32 < ph.vaddr then []
    else
      match allocuvmInOp cfg used k c d sz ((ph.vaddr + ph.memsz) % 2 ^ 32) 1 with
      | .error _ => []
      | .ok (k, sz) =>
        if sz = 0 then []
        else if ph.vaddr % pgSize ≠ 0 then []
        else k.loadReads d ph.vaddr ip ph.off ph.filesz

/-- The loop of `exec` over the program headers. -/
def segmentsReads (used : Nat) (c : Slot) (d : Frame) (ip : Inode) :
    Nat → Nat → Nat → Kernel → List LoadRead
  | 0, _, _, _ => []
  | n + 1, off, sz, k =>
    segmentReads cfg used k c d ip (off % 2 ^ 32) sz ++
      match loadSegment cfg used k c d ip (off % 2 ^ 32) sz with
      | .ok (k, some sz) => segmentsReads used c d ip n (off + proghdrSize) sz k
      | _ => []

/-- The reads that `exec` comes to. -/
def execReads (k : Kernel) (c : Slot) (ip : Option Inode) : List LoadRead :=
  match ip with
  | none => []
  | some ip =>
    match ip.header 0 elfhdrSize with
    | none => []
    | some bytes =>
      let elf := Elfhdr.ofBytes bytes
      if elf.magic ≠ elfMagic then []
      else
        match k.setupkvm cfg c with
        | .ok (some d, k) => segmentsReads cfg (k.proc c).usedDisc c d ip elf.phnum elf.phoff 0 k
        | _ => []

/-- `exec` comes to the end of its loop over the program headers. -/
def loadsThrough (k : Kernel) (c : Slot) (ip : Option Inode) : Bool :=
  match ip with
  | none => false
  | some ip =>
    match ip.header 0 elfhdrSize with
    | none => false
    | some bytes =>
      let elf := Elfhdr.ofBytes bytes
      if elf.magic ≠ elfMagic then false
      else
        match k.setupkvm cfg c with
        | .ok (some d, k) =>
          match loadSegments cfg (k.proc c).usedDisc c d ip elf.phnum elf.phoff 0 k with
          | .ok (_, some _) => true
          | _ => false
        | _ => false

end Reads

end Kernel

namespace Kernel

/-- The RAM table is full, the policy picks the entry of page `n` of `d`, which is present, and a disc
slot inside the swap file is free. -/
structure PicksPage (cfg : Config) (c : Slot) (d : Frame) (k : Kernel) (n : Nat) : Prop where
  pid : 0 < (k.proc c).pid
  full : (k.proc c).spaceAvialableInMemory = false
  present : hasFlag (k.pte d n) .P = true
  victim : ∃ i, (k.proc c).getReplacementPageIndexPhyMem cfg = some i ∧
    ((k.proc c).pagesInPhysicalMemory i).pageDirectory = d ∧
    vpn ((k.proc c).pagesInPhysicalMemory i).virtualAddress = n
  slot : ∃ j f, (k.proc c).getAvailablePageIndexDisk = some j ∧ (k.proc c).swapFile = some f ∧
    pgSize * j ≤ f.size

section Placing

variable {cfg : Config} {c : Slot} {d : Frame} {k k₁ k' : Kernel} {n x : Nat} {isImportant : Int}

private theorem PicksPage.evicts (h : k.PicksPage cfg c d x) {note : PageData → PageData → PageData} :
    (k.countFault c).evictPage cfg note c ≠ .ok (k', none) := by
  obtain ⟨i, hvictim, hdir, hvpn⟩ := h.victim
  obtain ⟨j, f, hslot, hfile, hroom⟩ := h.slot
  intro hev
  have hproc : ((k.countFault c).proc c) = { k.proc c with pageFault := (k.proc c).pageFault + 1 } := by
    simp [countFault]
  have hvictim' : ((k.countFault c).proc c).getReplacementPageIndexPhyMem cfg = some i := by
    rw [hproc]
    exact hvictim
  have hslot' : ((k.countFault c).proc c).getAvailablePageIndexDisk = some j := by
    rw [hproc]
    exact hslot
  have hfile' : ((k.countFault c).proc c).swapFile = some f := by
    rw [hproc]
    exact hfile
  have hram : ((k.countFault c).proc c).pagesInPhysicalMemory = (k.proc c).pagesInPhysicalMemory := by
    rw [hproc]
  have hpa : (k.countFault c).getReplacementPageAddressPhyMem
      ((k.proc c).pagesInPhysicalMemory i).pageDirectory
      ((k.proc c).pagesInPhysicalMemory i).virtualAddress = some (pteAddr (k.pte d x)) := by
    rw [getReplacementPageAddressPhyMem, walkpgdir_eq_some.mpr ⟨?_, rfl⟩, hdir, hvpn]
    · rfl
    · rw [hdir, hvpn]
      exact hasTable_of_hasFlag h.present
  simp only [evictPage, hvictim', hram, hpa, hslot', bind_eq_ok] at hev
  obtain ⟨⟨k₂, ok⟩, hwrite, hev⟩ := hev
  have hok : ok = true := by
    simp only [writeToSwapFile, hfile'] at hwrite
    have hfits : ∀ src, f.filewrite src (pgSize * j) pgSize =
        (f.overlay src (pgSize * j) pgSize, true) := fun src =>
      SwapFile.filewrite_eq f src (by decide) hroom (slot_in_file j)
    split at hwrite
    · rw [refuses_slot, decide_eq_false (Nat.not_lt.mpr hroom)] at hwrite
      contradiction
    · rw [hfits, Except.ok.injEq, Prod.mk.injEq] at hwrite
      exact hwrite.2.symm
  rw [hok, if_pos rfl] at hev
  obtain ⟨k₃, -, hev⟩ := bind_eq_ok.mp hev
  simp at hev

private theorem Evicted.present {note : PageData → PageData → PageData} {i : Fin maxPyscPages}
    {j : Fin discPages} {f : SwapFile} {page : Page} (h : Evicted cfg note k k' c i j f page) :
    hasFlag (k'.pte d x) .P = true ↔ hasFlag (k.pte d x) .P = true ∧
      ¬ (((k.proc c).pagesInPhysicalMemory i).pageDirectory = d ∧
        vpn ((k.proc c).pagesInPhysicalMemory i).virtualAddress = x) := by
  rw [h.result, setPte_pte (k := (k.freed _).setProc c _) h.table]
  by_cases hat : d = ((k.proc c).pagesInPhysicalMemory i).pageDirectory ∧
      x = vpn ((k.proc c).pagesInPhysicalMemory i).virtualAddress
  · rw [if_pos hat]
    simp [hasFlag_pageOutPte, hat.1, hat.2]
  · rw [if_neg hat]
    constructor
    · exact fun hP => ⟨hP, fun hsame => hat ⟨hsame.1.symm, hsame.2.symm⟩⟩
    · exact fun hboth => hboth.1

private theorem Mapped.present {perm : PTE} {page : Page} {mem : Frame} (h : Mapped k d n perm page mem k') :
    hasFlag (k'.pte d x) .P = true ↔ x = n ∨ hasFlag (k.pte d x) .P = true := by
  rw [h.pte]
  by_cases hx : x = n
  · subst hx
    simp [mapPte, hasFlag_or, show pteP = Flag.P.mask from rfl, hasFlag_mask]
  · rw [setEntry_of_ne fun _ => hx]
    simp [hx]

end Placing

end Kernel

namespace Proc

variable {cfg : Config} {p : Proc} {d : Frame} {m n x : Nat}

private theorem filled_pagesInDisc : (p.filled d n).pagesInDisc = p.pagesInDisc := by
  induction n with
  | zero => rfl
  | succ n ih => simp [filled, ih]

private theorem filled_swapFile : (p.filled d n).swapFile = p.swapFile := by
  induction n with
  | zero => rfl
  | succ n ih => simp [filled, ih]

private theorem filled_succ_of_full (h : (p.filled d n).freeRamIndex = none) :
    p.filled d (n + 1) = p.filled d n := by
  simp [filled, updatePhysicalPageMetaData, h]

private theorem loses_succ_iff (hn : 0 < n) (h : (p.filled d (n - 1)).freeRamIndex = none) :
    p.Loses cfg d (n + 1) x ↔ p.Loses cfg d n x := by
  have heq : p.filled d n = p.filled d (n - 1) := by
    have hsucc := filled_succ_of_full h
    rwa [Nat.sub_add_cancel hn] at hsucc
  constructor
  · intro hl
    have hfull := hl.full
    have hvictim := hl.victim
    rw [Nat.add_sub_cancel, heq] at hfull hvictim
    exact ⟨hl.pid, hfull, hvictim, hl.slot⟩
  · intro hl
    refine ⟨hl.pid, ?_, ?_, hl.slot⟩
    · rw [Nat.add_sub_cancel, heq]
      exact hl.full
    · rw [Nat.add_sub_cancel, heq]
      exact hl.victim

private theorem not_loses_of_room {i : Fin maxPyscPages} (h : (p.filled d n).freeRamIndex = some i) :
    ¬ p.Loses cfg d (n + 1) x := by
  intro hl
  have hfull := hl.full
  rw [Nat.add_sub_cancel, h] at hfull
  contradiction

private theorem usedDisc_congr {q : Proc} (h : p.pagesInDisc = q.pagesInDisc) :
    p.usedDisc = q.usedDisc := by
  simp only [usedDisc, h]

end Proc

namespace Kernel

section Loading

variable {cfg : Config} {c : Slot} {d : Frame} {k k₁ k' : Kernel} {n used : Nat} {p : Proc}

private theorem Evicted.usedDisc {i : Fin maxPyscPages} {j : Fin discPages} {f : SwapFile} {page : Page}
    (h : Evicted cfg reallocateNote k k' c i j f page) :
    (k'.proc c).usedDisc = (k.proc c).usedDisc + 1 := by
  have hfree : ((k.proc c).pagesInDisc j).isUsed = false := by simpa using Scan.first_spec h.slot
  have hproc : k'.proc c = evictedProc reallocateNote (k.proc c) i j
      (f.overlay (pageBytes page) (pgSize * j) pgSize) := by
    rw [h.result]
    simp
  have hinsert : (Finset.univ.filter fun j' => ((k'.proc c).pagesInDisc j').isUsed = true) =
      insert j (Finset.univ.filter fun j' => ((k.proc c).pagesInDisc j').isUsed = true) := by
    ext j'
    simp only [hproc, evictedProc, Finset.mem_filter, Finset.mem_univ, true_and, Finset.mem_insert]
    by_cases hj : j' = j
    · subst hj
      simp [reallocateNote]
    · simp [hj]
  unfold Proc.usedDisc
  rw [hinsert, Finset.card_insert_of_notMem (by simp [hfree])]

private theorem updatePhysicalPageMetaData_usedDisc {a : Nat} {isImportant : Int} :
    ((k.updatePhysicalPageMetaData c d a isImportant).proc c).usedDisc = (k.proc c).usedDisc := by
  apply Proc.usedDisc_congr
  simp [updatePhysicalPageMetaData]

private theorem updatePhysicalPageMetaData_pid {a : Nat} {isImportant : Int} :
    ((k.updatePhysicalPageMetaData c d a isImportant).proc c).pid = (k.proc c).pid := by
  simp only [updatePhysicalPageMetaData, setProc_proc_self, Proc.updatePhysicalPageMetaData]
  split
  · rfl
  · rfl

private theorem pageFits_iff (n : Nat) : pageFits (n * (pgSize / bSize)) = true ↔ n = 0 := by
  have hchunks : List.range ((pgSize + SwapFile.chunk - 1) / SwapFile.chunk) = [0, 1, 2] := rfl
  have hchunk : SwapFile.chunk / bSize = 3 := rfl
  have hblocks : pgSize / bSize = 8 := rfl
  have hfits : ∀ m, opFits m = true ↔ m ≤ 10 := by
    intro m
    rw [opFits, decide_eq_true_eq, logSize, maxOpBlocks]
    omega
  simp only [pageFits, hchunks, hchunk, hblocks, List.all_cons, List.all_nil, Bool.and_true,
    Bool.and_eq_true, hfits]
  omega

private theorem placePageInOp_ok {a : Nat} {isImportant : Int}
    (h : placePageInOp cfg used k c d a isImportant = .ok k') :
    k.placePage cfg c d a isImportant = .ok k' ∧
      ((k'.proc c).usedDisc = (k.proc c).usedDisc ∨ (k.proc c).usedDisc ≤ used) := by
  have hplace : k.placePage cfg c d a isImportant = .ok k' := by
    rcases @placePageInOp_eq cfg used k c d isImportant a with heq | heq
    · rw [← heq, h]
    · rw [heq] at h
      contradiction
  refine ⟨hplace, ?_⟩
  unfold placePageInOp at h
  split at h
  · split at h
    · obtain rfl := Except.ok.inj h
      exact .inl updatePhysicalPageMetaData_usedDisc
    · obtain ⟨⟨k₁, ok⟩, hreallocate, h⟩ := bind_eq_ok.mp h
      dsimp only at h
      split at h
      · split at h
        · next hfits =>
          have hzero := (pageFits_iff _).mp hfits
          exact .inr (by omega)
        · contradiction
      · next hstay =>
        obtain ⟨⟨k₂, freed⟩, hevict, hok⟩ := bind_eq_ok.mp hreallocate
        obtain ⟨rfl, rfl⟩ : k₂ = k₁ ∧ freed.isSome = ok := by simpa using hok
        obtain rfl : k₂ = k' := by simpa using h
        rcases evictPage_ok hevict with ⟨-, rfl⟩ | ⟨i, j, f, page, rfl, -⟩
        · left
          apply Proc.usedDisc_congr
          simp [countFault]
        · simp at hstay
  · obtain rfl := Except.ok.inj h
    exact .inl rfl

/-- The new directory `d` with the first `n` pages of the program, built by a process whose tables were
those of `p`. Either no page has gone out and the tables are just filled up, or one has, and the gate is
closed for another. -/
structure Loading (cfg : Config) (p : Proc) (c : Slot) (d : Frame) (n : Nat) (k : Kernel) : Prop where
  pid : (k.proc c).pid = p.pid
  blank : ∀ x, n ≤ x → k.pte d x = 0
  present : ∀ x, hasFlag (k.pte d x) .P = true ↔ x < n ∧ ¬ p.Loses cfg d n x
  stage :
    ((0 < p.pid → Proc.SameTables (k.proc c) (p.filled d n)) ∧ ∀ x < n, ¬ p.Loses cfg d n x) ∨
    (p.usedDisc < (k.proc c).usedDisc ∧ 0 < n ∧ (p.filled d (n - 1)).freeRamIndex = none ∧
      ∀ x, p.Loses cfg d n x → x < n)

private theorem Loading.blank_mapped (h : Loading cfg p c d n k) {mem : Frame}
    (hmap : Mapped k d n (pteW ||| pteU) (fun _ => 0) mem k₁) {x : Nat} (hx : n + 1 ≤ x) :
    k₁.pte d x = 0 := by
  have hne : x ≠ n := by omega
  rw [hmap.pte, setEntry_of_ne fun _ => hne]
  exact h.blank x (by omega)

private theorem Loading.present_mapped (h : Loading cfg p c d n k) {mem : Frame}
    (hmap : Mapped k d n (pteW ||| pteU) (fun _ => 0) mem k₁) (hkept : ∀ x < n, ¬ p.Loses cfg d n x)
    (x : Nat) : hasFlag (k₁.pte d x) .P = true ↔ x < n + 1 := by
  rw [hmap.present, h.present]
  constructor
  · intro hx
    rcases hx with hx | hx
    · omega
    · omega
  · intro hlt
    by_cases hx : x = n
    · exact .inl hx
    · exact .inr ⟨by omega, hkept x (by omega)⟩

private theorem loses_iff_picks (hpid : (k₁.proc c).pid = p.pid) (hp : 0 < p.pid)
    (htables : Proc.SameTables (k₁.proc c) (p.filled d n)) (hfull : (k₁.proc c).freeRamIndex = none)
    {x : Nat} (hx : hasFlag (k₁.pte d x) .P = true) :
    p.Loses cfg d (n + 1) x ↔ k₁.PicksPage cfg c d x := by
  have hslot : (k₁.proc c).getAvailablePageIndexDisk = p.getAvailablePageIndexDisk := by
    simp only [Proc.getAvailablePageIndexDisk, htables.disc, Proc.filled_pagesInDisc]
  have hsize : (k₁.proc c).swapFile.map SwapFile.size = p.swapFile.map SwapFile.size := by
    rw [htables.size, Proc.filled_swapFile]
  constructor
  · intro hl
    obtain ⟨j, f, hj, hf, hroom⟩ := hl.slot
    obtain ⟨g, hg, hgsize⟩ : ∃ g, (k₁.proc c).swapFile = some g ∧ g.size = f.size := by
      rw [hf] at hsize
      simpa using hsize
    refine ⟨by omega, by simp [Proc.spaceAvialableInMemory, hfull], hx, ?_, ?_⟩
    · rw [htables.victim, htables.ram]
      exact hl.victim
    · exact ⟨j, g, hslot.trans hj, hg, by omega⟩
  · intro hpick
    obtain ⟨j, g, hj, hg, hroom⟩ := hpick.slot
    obtain ⟨f, hf, hfsize⟩ : ∃ f, p.swapFile = some f ∧ f.size = g.size := by
      rw [hg] at hsize
      simpa using hsize.symm
    have hvictim := hpick.victim
    rw [htables.victim, htables.ram] at hvictim
    refine ⟨hp, ?_, hvictim, ?_⟩
    · rw [Nat.add_sub_cancel, ← htables.freeRamIndex]
      exact hfull
    · exact ⟨j, f, hslot.symm.trans hj, hf, by omega⟩

private theorem Loading.placed_after (h : Loading cfg p c d n k) {mem : Frame}
    (hmap : Mapped k d n (pteW ||| pteU) (fun _ => 0) mem k₁) (hused : p.usedDisc < (k'.proc c).usedDisc)
    (hpos : 0 < n) (hfull : (p.filled d (n - 1)).freeRamIndex = none)
    (hlost : ∀ x, p.Loses cfg d n x → x < n) (hpte : k'.pte = k₁.pte)
    (hpid : (k'.proc c).pid = (k.proc c).pid) : Loading cfg p c d (n + 1) k' where
  pid := hpid.trans h.pid
  blank x hx := by
    rw [hpte]
    exact h.blank_mapped hmap hx
  present x := by
    rw [hpte, hmap.present, h.present, Proc.loses_succ_iff hpos hfull]
    constructor
    · intro hx
      rcases hx with rfl | ⟨hlt, hkept⟩
      · exact ⟨by omega, fun hl => absurd (hlost x hl) (lt_irrefl x)⟩
      · exact ⟨by omega, hkept⟩
    · intro hx
      by_cases hxn : x = n
      · exact .inl hxn
      · exact .inr ⟨by omega, hx.2⟩
  stage := by
    refine .inr ⟨hused, by omega, ?_, fun x hl => ?_⟩
    · have heq := Proc.filled_succ_of_full hfull
      rw [Nat.sub_add_cancel hpos] at heq
      rw [Nat.add_sub_cancel, heq]
      exact hfull
    · have hlt := hlost x ((Proc.loses_succ_iff hpos hfull).mp hl)
      omega

private theorem Loading.placed_before (h : Loading cfg p c d n k) {mem : Frame}
    (hmap : Mapped k d n (pteW ||| pteU) (fun _ => 0) mem k₁)
    (htables : 0 < p.pid → Proc.SameTables (k'.proc c) (p.filled d (n + 1)))
    (hkept : ∀ x < n, ¬ p.Loses cfg d n x) (hnext : ∀ x < n + 1, ¬ p.Loses cfg d (n + 1) x)
    (hpte : k'.pte = k₁.pte) (hpid : (k'.proc c).pid = (k.proc c).pid) :
    Loading cfg p c d (n + 1) k' where
  pid := hpid.trans h.pid
  blank x hx := by
    rw [hpte]
    exact h.blank_mapped hmap hx
  present x := by
    rw [hpte, h.present_mapped hmap hkept x]
    constructor
    · intro hlt
      exact ⟨hlt, hnext x hlt⟩
    · intro hx
      exact hx.1
  stage := .inl ⟨htables, hnext⟩

/-- The entry picked names a page that is there, for its frame is freed. -/
private theorem Loading.victim_lt (h : Loading cfg p c d n k) {mem : Frame}
    (hmap : Mapped k d n (pteW ||| pteU) (fun _ => 0) mem k₁) {i : Fin maxPyscPages} {j : Fin discPages}
    {f : SwapFile} {page : Page} (hev : Evicted cfg reallocateNote (k₁.countFault c) k' c i j f page)
    (hdir : (((k₁.countFault c).proc c).pagesInPhysicalMemory i).pageDirectory = d) :
    vpn (((k₁.countFault c).proc c).pagesInPhysicalMemory i).virtualAddress < n + 1 := by
  by_contra hge
  have hvalid := hev.valid
  rw [hdir, show (k₁.countFault c).pte = k₁.pte from rfl, h.blank_mapped hmap (Nat.le_of_not_lt hge)]
    at hvalid
  have hend := hvalid.2.1
  have hpos := cfg.kernelEnd_pos
  have hzero : (pteAddr 0).toNat = 0 := rfl
  omega

/-- The page that goes out is the one that was going to be lost. -/
private theorem Loading.loses_victim (h : Loading cfg p c d n k) {mem : Frame}
    (hmap : Mapped k d n (pteW ||| pteU) (fun _ => 0) mem k₁) {i : Fin maxPyscPages} {j : Fin discPages}
    {f : SwapFile} {page : Page} (hev : Evicted cfg reallocateNote (k₁.countFault c) k' c i j f page)
    (hp : 0 < p.pid) (htables : Proc.SameTables (k₁.proc c) (p.filled d n))
    (hfull : (k₁.proc c).freeRamIndex = none) (hkept : ∀ x < n, ¬ p.Loses cfg d n x) (x : Nat) :
    p.Loses cfg d (n + 1) x ↔
      (((k₁.countFault c).proc c).pagesInPhysicalMemory i).pageDirectory = d ∧
        vpn (((k₁.countFault c).proc c).pagesInPhysicalMemory i).virtualAddress = x := by
  have hproc : (k₁.countFault c).proc c = { k₁.proc c with pageFault := (k₁.proc c).pageFault + 1 } := by
    simp [countFault]
  have hlt := h.victim_lt hmap hev
  have hvictim := hev.victim
  have hslot := hev.slot
  have hfile := hev.swapFile
  rw [hproc] at hlt hvictim hslot hfile ⊢
  constructor
  · intro hl
    obtain ⟨i', hi', hat⟩ := hl.victim
    rw [Nat.add_sub_cancel, ← htables.victim] at hi'
    rw [Nat.add_sub_cancel, ← htables.ram] at hat
    obtain rfl : i = i' := Option.some.inj (hvictim.symm.trans hi')
    exact hat
  · intro hat
    have hx : x < n + 1 := by
      rw [← hat.2]
      exact hlt hat.1
    have hpid : (k₁.proc c).pid = p.pid := by rw [hmap.proc, h.pid]
    have hpresent := (h.present_mapped hmap hkept x).mpr hx
    apply (loses_iff_picks hpid hp htables hfull hpresent).mpr
    refine ⟨by omega, by simp [Proc.spaceAvialableInMemory, hfull], hpresent, ?_, ?_⟩
    · exact ⟨i, hvictim, hat⟩
    · exact ⟨j, f, hslot, hfile, hev.room⟩

private theorem Loading.evicting (h : Loading cfg p c d n k) {mem : Frame}
    (hmap : Mapped k d n (pteW ||| pteU) (fun _ => 0) mem k₁) {i : Fin maxPyscPages} {j : Fin discPages}
    {f : SwapFile} {page : Page} (hev : Evicted cfg reallocateNote (k₁.countFault c) k' c i j f page)
    (hp : 0 < p.pid) (htables : Proc.SameTables (k₁.proc c) (p.filled d n))
    (hfull : (k₁.proc c).freeRamIndex = none) (hkept : ∀ x < n, ¬ p.Loses cfg d n x) {a : Nat}
    {isImportant : Int} :
    Loading cfg p c d (n + 1) (k'.updatePhysicalPageMetaData c d a isImportant) := by
  have hlt := h.victim_lt hmap hev
  have hloses := h.loses_victim hmap hev hp htables hfull hkept
  have hdisc : ((k₁.countFault c).proc c).usedDisc = p.usedDisc := by
    rw [← Proc.usedDisc_congr (show (p.filled d n).pagesInDisc = p.pagesInDisc from Proc.filled_pagesInDisc),
      ← Proc.usedDisc_congr htables.disc]
    apply Proc.usedDisc_congr
    simp [countFault]
  have hused := hev.usedDisc
  constructor
  · rw [updatePhysicalPageMetaData_pid, hev.result]
    simp [evictedProc, countFault, hmap.proc, h.pid]
  · intro x hx
    change k'.pte d x = 0
    rw [hev.result, setPte_pte (k := ((k₁.countFault c).freed _).setProc c _) hev.table, if_neg]
    · exact h.blank_mapped hmap hx
    · intro hat
      have hvictim := hlt hat.1.symm
      omega
  · intro x
    change hasFlag (k'.pte d x) .P = true ↔ _
    rw [hev.present, show (k₁.countFault c).pte = k₁.pte from rfl, h.present_mapped hmap hkept, hloses]
  · rw [updatePhysicalPageMetaData_usedDisc]
    refine .inr ⟨by omega, by omega, ?_, fun x hl => ?_⟩
    · rw [Nat.add_sub_cancel, ← htables.freeRamIndex]
      exact hfull
    · have hat := (hloses x).mp hl
      rw [← hat.2]
      exact hlt hat.1

private theorem Loading.placed_filling (h : Loading cfg p c d n k)
    (hplaced : Placed cfg c d 1 n k k') (hp : 0 < p.pid)
    (htables : Proc.SameTables (k.proc c) (p.filled d n)) (hkept : ∀ x < n, ¬ p.Loses cfg d n x) :
    Loading cfg p c d (n + 1) k' := by
  cases hplaced with
  | @noProcess mem k₁ hmap hzero =>
    have hpid := h.pid
    omega
  | @tracked mem k₁ i hmap hfree =>
    have hpte : (k₁.updatePhysicalPageMetaData c d (n * pgSize) 1).pte = k₁.pte := rfl
    refine h.placed_before hmap (fun _ => ?_) hkept (fun x _ hl => ?_) hpte ?_
    · simp only [updatePhysicalPageMetaData, setProc_proc_self, hmap.proc]
      exact htables.update
    · exact Proc.not_loses_of_room (htables.freeRamIndex.symm.trans hfree) hl
    · rw [updatePhysicalPageMetaData_pid, hmap.proc]
  | @stuck mem k₁ hmap hfull hfail =>
    have hproc : k₁.proc c = k.proc c := by rw [hmap.proc]
    have hnext : ∀ x < n + 1, ¬ p.Loses cfg d (n + 1) x := by
      intro x hx hl
      have hpresent := (h.present_mapped hmap hkept x).mpr hx
      have hpick := (loses_iff_picks (by rw [hproc, h.pid]) hp (by rwa [hproc]) (by rwa [hproc])
        hpresent).mp hl
      exact hpick.evicts hfail
    have hpte : (k₁.countFault c).pte = k₁.pte := rfl
    refine h.placed_before hmap (fun _ => ?_) hkept hnext hpte (by simp [countFault, hmap.proc])
    rw [Proc.filled_succ_of_full (htables.freeRamIndex.symm.trans hfull)]
    exact hmap.sameTables htables
  | @evicting mem k₁ k₂ i j f page hmap hfull hev =>
    have hproc : k₁.proc c = k.proc c := by rw [hmap.proc]
    exact h.evicting hmap hev hp (by rwa [hproc]) (by rwa [hproc]) hkept

/-- A page has gone out, so another one would have been left waiting. -/
private theorem Loading.placed_gone (h : Loading cfg p c d n k) (hplaced : Placed cfg c d 1 n k k')
    (hused : p.usedDisc < (k.proc c).usedDisc) (hpos : 0 < n)
    (hfull : (p.filled d (n - 1)).freeRamIndex = none) (hlost : ∀ x, p.Loses cfg d n x → x < n)
    (hgate : (k'.proc c).usedDisc = (k.proc c).usedDisc) : Loading cfg p c d (n + 1) k' := by
  have hused' : p.usedDisc < (k'.proc c).usedDisc := by omega
  cases hplaced with
  | @noProcess mem k₁ hmap hzero =>
    exact h.placed_after hmap hused' hpos hfull hlost rfl (by rw [hmap.proc])
  | @tracked mem k₁ i hmap hfree =>
    have hpte : (k₁.updatePhysicalPageMetaData c d (n * pgSize) 1).pte = k₁.pte := rfl
    refine h.placed_after hmap hused' hpos hfull hlost hpte ?_
    rw [updatePhysicalPageMetaData_pid, hmap.proc]
  | @stuck mem k₁ hmap hfull' hfail =>
    have hpte : (k₁.countFault c).pte = k₁.pte := rfl
    exact h.placed_after hmap hused' hpos hfull hlost hpte (by simp [countFault, hmap.proc])
  | @evicting mem k₁ k₂ i j f page hmap hfull' hev =>
    have hmore := hev.usedDisc
    have hsame : ((k₁.countFault c).proc c).usedDisc = (k.proc c).usedDisc := by
      apply Proc.usedDisc_congr
      simp [countFault, hmap.proc]
    rw [updatePhysicalPageMetaData_usedDisc] at hgate
    omega

private theorem Loading.placed (h : Loading cfg p c d n k) {mem : Frame}
    (hmap : Mapped k d n (pteW ||| pteU) (fun _ => 0) mem k₁)
    (hplace : k₁.placePage cfg c d (n * pgSize) 1 = .ok k')
    (hgate : (k'.proc c).usedDisc = (k₁.proc c).usedDisc ∨ (k₁.proc c).usedDisc ≤ p.usedDisc) :
    Loading cfg p c d (n + 1) k' := by
  have hproc : k₁.proc c = k.proc c := by rw [hmap.proc]
  rw [hproc] at hgate
  by_cases hp : 0 < p.pid
  · have hplaced := placePage_ok hmap hplace
    rcases h.stage with ⟨htables, hkept⟩ | ⟨hused, hpos, hfull, hlost⟩
    · exact h.placed_filling hplaced hp (htables hp) hkept
    · exact h.placed_gone hplaced hused hpos hfull hlost (by omega)
  · -- without a process nothing is tracked
    have hzero : ¬ (k₁.proc c).pid > 0 := by
      rw [hproc, h.pid]
      exact hp
    rw [placePage, if_neg hzero] at hplace
    obtain rfl := Except.ok.inj hplace
    have hkept : ∀ m x, ¬ p.Loses cfg d m x := fun m x hl => hp hl.pid
    exact h.placed_before hmap (fun hpos => absurd hpos hp) (fun x _ => hkept n x)
      (fun x _ => hkept (n + 1) x) rfl (by rw [hproc])

private theorem Loading.same (h : Loading cfg p c d n k) (hsame : SameButMem k k') :
    Loading cfg p c d n k' := by
  obtain ⟨mem, rfl⟩ := hsame
  exact ⟨h.pid, h.blank, h.present, h.stage⟩

private theorem allocLoopInOp_loading {oldsz newsz : Nat} (hnew : newsz < kernBase) (fuel n : Nat)
    (k : Kernel) (hfuel : pages newsz ≤ n + fuel) (hn : n ≤ pages newsz) (h : Loading cfg p c d n k)
    {r : Nat} (hr : r ≠ 0)
    (hcall : allocLoopInOp cfg p.usedDisc c d oldsz newsz 1 fuel (n * pgSize) k = .ok (k', r)) :
    r = newsz ∧ Loading cfg p c d (pages newsz) k' := by
  induction fuel generalizing n k with
  | zero =>
    obtain rfl : n = pages newsz := by omega
    obtain ⟨rfl, rfl⟩ : k = k' ∧ newsz = r := by simpa [allocLoopInOp] using hcall
    exact ⟨rfl, h⟩
  | succ fuel ih =>
    simp only [allocLoopInOp] at hcall
    by_cases hlt : n * pgSize < newsz
    · have hpage : n < pages newsz := lt_pages.mpr hlt
      have huser : n < userPages := lt_of_lt_of_le hpage (pages_le_userPages (by omega))
      rw [if_pos hlt] at hcall
      cases hfree : k.freelist with
      | nil =>
        have hk : k.kalloc = (none, k) := by simp [kalloc, hfree]
        simp only [hk] at hcall
        obtain ⟨⟨k₁, s⟩, -, hcall⟩ := bind_eq_ok.mp hcall
        obtain ⟨-, rfl⟩ : k₁ = k' ∧ 0 = r := by simpa using hcall
        contradiction
      | cons mem rest =>
        have hk : k.kalloc = (some mem, { k with freelist := rest }) := by simp [kalloc, hfree]
        simp only [hk] at hcall
        obtain ⟨mapped, hmap, hcall⟩ := bind_eq_ok.mp hcall
        cases mapped with
        | none =>
          obtain ⟨⟨k₁, s⟩, -, hcall⟩ := bind_eq_ok.mp hcall
          obtain ⟨k₂, -, hcall⟩ := bind_eq_ok.mp hcall
          obtain ⟨-, rfl⟩ : k₂ = k' ∧ 0 = r := by simpa using hcall
          contradiction
        | some k₁ =>
          obtain ⟨k₂, hready, habsent, rfl⟩ := mappages_some hmap
          rw [← vpn_div, vpn_mul huser] at hready
          rw [vpn_mul huser] at habsent hcall
          obtain ⟨k₃, hplace, hcall⟩ := bind_eq_ok.mp hcall
          have hmapped : Mapped k d n (pteW ||| pteU) (fun _ => 0) mem
              (k₂.setPte d n (mapPte mem (pteW ||| pteU))) := .intro hfree hready habsent
          obtain ⟨hplace, hgate⟩ := placePageInOp_ok hplace
          have hnext : n * pgSize + pgSize = (n + 1) * pgSize := by rw [Nat.add_mul, Nat.one_mul]
          rw [hnext] at hcall
          exact ih (n + 1) k₃ (by omega) hpage (h.placed hmapped hplace hgate) hcall
    · have hge : ¬ n < pages newsz := mt lt_pages.mp hlt
      obtain rfl : n = pages newsz := by omega
      rw [if_neg hlt] at hcall
      obtain ⟨rfl, rfl⟩ : k = k' ∧ newsz = r := by simpa using hcall
      exact ⟨rfl, h⟩

private theorem allocuvmInOp_loading {oldsz newsz r : Nat} (hold : oldsz < kernBase)
    (h : Loading cfg p c d (pages oldsz) k) (hr : r ≠ 0)
    (hcall : allocuvmInOp cfg p.usedDisc k c d oldsz newsz 1 = .ok (k', r)) :
    newsz < kernBase ∧ r = max oldsz newsz ∧ Loading cfg p c d (pages r) k' := by
  unfold allocuvmInOp at hcall
  split at hcall
  · obtain ⟨-, rfl⟩ : k = k' ∧ 0 = r := by simpa using hcall
    contradiction
  · next hbig =>
    split at hcall
    · next hlt =>
      obtain ⟨rfl, rfl⟩ : k = k' ∧ oldsz = r := by simpa using hcall
      exact ⟨by omega, by omega, h⟩
    · next hle =>
      split at hcall
      · obtain ⟨-, rfl⟩ : k = k' ∧ 0 = r := by simpa using hcall
        contradiction
      · rw [pgRoundUp_eq (by omega)] at hcall
        have hfuel : pages newsz ≤ pages oldsz + (newsz / pgSize + 1) := by
          simp only [pages, pgSize]
          omega
        obtain ⟨rfl, hloading⟩ := allocLoopInOp_loading (by omega) _ _ k hfuel (pages_mono (by omega)) h hr
          hcall
        exact ⟨by omega, by omega, hloading⟩

/-- The read is the one planned, and goes to a present page unless that page is lost. -/
private structure Meets (cfg : Config) (p : Proc) (d : Frame) (l : Load) (r : LoadRead) : Prop where
  page : r.page = l.page
  safe : r.Safe ↔ ¬ p.Loses cfg d l.grown l.page

/-- The reads that are planned happen. -/
private def Made (cfg : Config) (p : Proc) (d : Frame) (ls : List Load) (rs : List LoadRead) : Prop :=
  List.Forall₂ (Meets cfg p d) ls rs

/-- The reads that happen are the first planned ones. -/
private def Planned (cfg : Config) (p : Proc) (d : Frame) (ls : List Load) (rs : List LoadRead) : Prop :=
  ∃ made, made <+: ls ∧ Made cfg p d made rs

section Lists

variable {l : Load} {r : LoadRead} {ls ls' : List Load} {rs rs' : List LoadRead}

private theorem made_nil : Made cfg p d [] [] := .nil

private theorem planned_nil : Planned cfg p d ls [] := ⟨[], List.nil_prefix, .nil⟩

private theorem Made.planned (h : Made cfg p d ls rs) : Planned cfg p d ls rs := ⟨ls, List.prefix_rfl, h⟩

private theorem Made.append (h : Made cfg p d ls rs) (h' : Made cfg p d ls' rs') :
    Made cfg p d (ls ++ ls') (rs ++ rs') := List.rel_append h h'

private theorem Planned.left (h : Planned cfg p d ls rs) : Planned cfg p d (ls ++ ls') rs := by
  obtain ⟨made, hmade, hmeet⟩ := h
  exact ⟨made, hmade.trans (List.prefix_append ls ls'), hmeet⟩

private theorem Made.append_planned (h : Made cfg p d ls rs) (h' : Planned cfg p d ls' rs') :
    Planned cfg p d (ls ++ ls') (rs ++ rs') := by
  obtain ⟨made, hmade, hmeet⟩ := h'
  exact ⟨ls ++ made, (List.prefix_append_right_inj ls).mpr hmade, h.append hmeet⟩

private theorem Meets.made (h : Meets cfg p d l r) : Made cfg p d [l] [r] := .cons h .nil

private theorem Made.safe_iff (h : Made cfg p d ls rs) :
    (∀ r ∈ rs, r.Safe) ↔ ∀ l ∈ ls, ¬ p.Loses cfg d l.grown l.page := by
  induction h with
  | nil => simp
  | cons hmeets hrest ih => simp only [List.forall_mem_cons, hmeets.safe, ih]

private theorem Planned.safe_iff (h : Planned cfg p d ls rs) :
    (∀ r ∈ rs, r.Safe) ↔ ∀ l ∈ ls.take rs.length, ¬ p.Loses cfg d l.grown l.page := by
  obtain ⟨made, hmade, hmeet⟩ := h
  rw [hmeet.safe_iff, ← hmeet.length_eq, ← List.prefix_iff_eq_take.mp hmade]

end Lists

private theorem loadLoop_meets (ip : Inode) (offset : Nat) {addr sz : Nat}
    (hend : ∀ i < sz, vpn (addr + i) < n) (fuel i : Nat) (k : Kernel) (h : Loading cfg p c d n k) :
    Planned cfg p d ((ip.readLoop addr offset sz fuel i).map (Load.mk n))
        (loadLoopReads d addr ip offset sz fuel i k) ∧
      ∀ k', loadLoop d addr ip offset sz fuel i k = .ok (k', true) →
        Made cfg p d ((ip.readLoop addr offset sz fuel i).map (Load.mk n))
          (loadLoopReads d addr ip offset sz fuel i k) := by
  induction fuel generalizing i k with
  | zero => exact ⟨planned_nil, fun _ _ => made_nil⟩
  | succ fuel ih =>
    simp only [loadLoopReads, Inode.readLoop, loadLoop]
    by_cases hlt : i < sz
    · simp only [if_pos hlt]
      have hmeets : Meets cfg p d ⟨n, vpn (addr + i)⟩ ⟨d, k, vpn (addr + i)⟩ :=
        ⟨rfl, (h.present _).trans (and_iff_right (hend i hlt))⟩
      cases hwalk : k.walkpgdir d (addr + i) with
      | none => exact ⟨planned_nil, by simp⟩
      | some pte =>
        cases hread : ip.readi ((offset + i) % 2 ^ 32) (min (sz - i) pgSize) with
        | none =>
          simp only [readPage, hread, List.map_cons, List.map_nil]
          exact ⟨hmeets.made.planned, by simp⟩
        | some got =>
          rcases got with ⟨m, bytes⟩
          simp only [readPage, hread]
          by_cases hm : m = min (sz - i) pgSize
          · have hcount : (m == min (sz - i) pgSize) = true := by simpa using hm
            obtain ⟨hplanned, hmade⟩ := ih (i + pgSize) (k.patch (pteAddr pte) 0 m bytes)
              (h.same (patch_same k (pteAddr pte) 0 m bytes))
            rw [if_pos hm, hcount, List.map_cons]
            exact ⟨hmeets.made.append_planned hplanned, fun k' hcall => hmeets.made.append (hmade k' hcall)⟩
          · have hcount : (m == min (sz - i) pgSize) = false := by simpa using hm
            rw [if_neg hm, hcount, List.map_cons, List.map_nil]
            exact ⟨hmeets.made.planned, by simp⟩
    · simp only [if_neg hlt]
      exact ⟨planned_nil, fun _ _ => made_nil⟩

private theorem word32_lt (bytes : Nat → Byte) (off : Nat) : word32 bytes off < 2 ^ 32 := by
  have hbyte (i : Nat) : (bytes i).toNat < 2 ^ 8 := (bytes i).toNat_lt
  have h₀ := hbyte off
  have h₁ := hbyte (off + 1)
  have h₂ := hbyte (off + 2)
  have h₃ := hbyte (off + 2 + 1)
  simp only [word32, word16]
  omega

private theorem loaduvm_meets {ip : Inode} {ph : Proghdr} {sz newsz : Nat} (halign : ¬ ph.vaddr % pgSize ≠ 0)
    (hend : ph.vaddr + ph.filesz ≤ newsz) (hlt : max sz newsz < kernBase)
    (h : Loading cfg p c d (pages (max sz newsz)) k) :
    Planned cfg p d ((ip.readLoop ph.vaddr ph.off ph.filesz (ph.filesz / pgSize + 1) 0).map
        (Load.mk (pages (max sz newsz)))) (k.loadReads d ph.vaddr ip ph.off ph.filesz) ∧
      ∀ k', k.loaduvm d ph.vaddr ip ph.off ph.filesz = .ok (k', true) →
        Loading cfg p c d (pages (max sz newsz)) k' ∧
          Made cfg p d ((ip.readLoop ph.vaddr ph.off ph.filesz (ph.filesz / pgSize + 1) 0).map
            (Load.mk (pages (max sz newsz)))) (k.loadReads d ph.vaddr ip ph.off ph.filesz) := by
  have hpages : ∀ i < ph.filesz, vpn (ph.vaddr + i) < pages (max sz newsz) := by
    intro i hi
    have hbelow : ph.vaddr + i < max sz newsz := by omega
    rw [vpn_of_lt (by omega)]
    simp only [pages, pgSize] at hbelow ⊢
    omega
  obtain ⟨hplanned, hmade⟩ := loadLoop_meets ip ph.off hpages (ph.filesz / pgSize + 1) 0 k h
  rw [loadReads, if_neg halign]
  refine ⟨hplanned, fun k' hload => ⟨h.same (loaduvm_same hload), ?_⟩⟩
  rw [loaduvm, if_neg halign] at hload
  exact hmade k' hload

private theorem loadSegment_span {ip : Inode} {off sz sz' : Nat} {bytes : Nat → Byte}
    (hheader : ip.header off proghdrSize = some bytes)
    (hcall : loadSegment cfg used k c d ip off sz = .ok (k', some sz')) :
    ip.spanSegment bytes sz = (sz', true) := by
  have hready : Ready False k c (pages (ip.spanSegment bytes sz).1 - pages sz + 0) := fun hw => hw.elim
  have hensures : Ensures (Slip False) _ (loadSegment cfg used k c d ip off sz) :=
    loadSegment_ensures hheader hready
  rw [hcall] at hensures
  exact (hensures.of_ok.2 sz' rfl).1

private theorem segment_meets {ip : Inode} {off sz : Nat} {bytes : Nat → Byte}
    (hheader : ip.header off proghdrSize = some bytes) (hsz : sz < kernBase)
    (h : Loading cfg p c d (pages sz) k) :
    Planned cfg p d (ip.segmentLoads bytes sz) (segmentReads cfg p.usedDisc k c d ip off sz) ∧
      ∀ k' sz', loadSegment cfg p.usedDisc k c d ip off sz = .ok (k', some sz') →
        sz' < kernBase ∧ Loading cfg p c d (pages sz') k' ∧
          Made cfg p d (ip.segmentLoads bytes sz) (segmentReads cfg p.usedDisc k c d ip off sz) := by
  simp only [segmentReads, loadSegment, hheader, Inode.segmentLoads]
  have hmemsz : (Proghdr.ofBytes bytes).memsz < 2 ^ 32 := word32_lt bytes 20
  have hvaddr : (Proghdr.ofBytes bytes).vaddr < 2 ^ 32 := word32_lt bytes 8
  generalize Proghdr.ofBytes bytes = ph at *
  by_cases htype : ph.type ≠ elfProgLoad
  · simp only [if_pos htype]
    refine ⟨planned_nil, fun k' sz' hcall => ?_⟩
    obtain ⟨rfl, rfl⟩ : k = k' ∧ sz = sz' := by simpa using hcall
    exact ⟨hsz, h, made_nil⟩
  · simp only [if_neg htype]
    by_cases hfile : ph.memsz < ph.filesz
    · rw [if_pos hfile, if_pos hfile]
      exact ⟨planned_nil, by simp⟩
    · rw [if_neg hfile, if_neg hfile]
      by_cases hwrap : (ph.vaddr + ph.memsz) % 2 ^ 32 < ph.vaddr
      · rw [if_pos hwrap, if_pos hwrap]
        exact ⟨planned_nil, by simp⟩
      · rw [if_neg hwrap, if_neg hwrap]
        cases halloc : allocuvmInOp cfg p.usedDisc k c d sz ((ph.vaddr + ph.memsz) % 2 ^ 32) 1 with
        | error e =>
          refine ⟨planned_nil, fun k' sz' hcall => ?_⟩
          contradiction
        | ok r =>
          rcases r with ⟨k₁, sz₁⟩
          simp only [ok_bind]
          by_cases hzero : sz₁ = 0
          · rw [if_pos hzero, if_pos hzero]
            exact ⟨planned_nil, by simp⟩
          · rw [if_neg hzero, if_neg hzero]
            by_cases halign : ph.vaddr % pgSize ≠ 0
            · rw [if_pos halign, if_pos halign]
              exact ⟨planned_nil, by simp⟩
            · rw [if_neg halign, if_neg halign]
              obtain ⟨hkern, rfl, hgrown⟩ := allocuvmInOp_loading hsz h hzero halloc
              have htests : ¬ (ph.memsz < ph.filesz ∨ (ph.vaddr + ph.memsz) % 2 ^ 32 < ph.vaddr ∨
                  (ph.vaddr + ph.memsz) % 2 ^ 32 ≥ kernBase) := by omega
              rw [if_neg htests, if_neg (not_or.mpr ⟨hzero, halign⟩)]
              obtain ⟨hplanned, hmade⟩ := @loaduvm_meets cfg c d k₁ p ip ph sz _ halign (by omega) (by omega) hgrown
              refine ⟨hplanned, fun k' sz' hcall => ?_⟩
              obtain ⟨⟨k₂, ok⟩, hload, hcall⟩ := bind_eq_ok.mp hcall
              cases ok with
              | false => simp at hcall
              | true =>
                obtain ⟨rfl, rfl⟩ : k₂ = k' ∧ max sz ((ph.vaddr + ph.memsz) % 2 ^ 32) = sz' := by
                  simpa using hcall
                exact ⟨by omega, hmade k₂ hload⟩

private theorem segments_meet (ip : Inode) (count off sz : Nat) (k : Kernel) (hsz : sz < kernBase)
    (h : Loading cfg p c d (pages sz) k) :
    Planned cfg p d (ip.loadsLoop count off sz) (segmentsReads cfg p.usedDisc c d ip count off sz k) ∧
      ∀ k' sz', loadSegments cfg p.usedDisc c d ip count off sz k = .ok (k', some sz') →
        Made cfg p d (ip.loadsLoop count off sz)
          (segmentsReads cfg p.usedDisc c d ip count off sz k) := by
  induction count generalizing off sz k with
  | zero => exact ⟨planned_nil, fun _ _ _ => made_nil⟩
  | succ count ih =>
    simp only [segmentsReads, loadSegments, Inode.loadsLoop]
    cases hheader : ip.header (off % 2 ^ 32) proghdrSize with
    | none =>
      have hstop : loadSegment cfg p.usedDisc k c d ip (off % 2 ^ 32) sz = .ok (k, none) := by
        simp only [loadSegment, hheader]
      simp only [segmentReads, hheader, hstop, List.append_nil]
      exact ⟨planned_nil, fun _ _ _ => made_nil⟩
    | some bytes =>
      obtain ⟨hplanned, hnext⟩ := segment_meets hheader hsz h
      cases hseg : loadSegment cfg p.usedDisc k c d ip (off % 2 ^ 32) sz with
      | error e =>
        simp only [List.append_nil]
        refine ⟨hplanned.left, fun k' sz' hcall => ?_⟩
        contradiction
      | ok got =>
        rcases got with ⟨k₁, _ | sz₁⟩
        · simp only [List.append_nil, ok_bind]
          exact ⟨hplanned.left, by simp⟩
        · obtain ⟨hsz₁, hloading, hmade⟩ := hnext k₁ sz₁ hseg
          have hspan := loadSegment_span hheader hseg
          obtain ⟨hplanned', hmade'⟩ := ih (off + proghdrSize) sz₁ k₁ hsz₁ hloading
          simp only [hspan, ok_bind]
          exact ⟨hmade.append_planned hplanned', fun k' sz' hcall => hmade.append (hmade' k' sz' hcall)⟩

private theorem setupkvm_loading (h : k.setupkvm cfg c = .ok (some d, k')) :
    (∃ rest, k.freelist = d :: rest) ∧ k'.proc = k.proc ∧ Loading cfg (k.proc c) c d 0 k' := by
  unfold setupkvm at h
  cases hfree : k.freelist with
  | nil => simp [kalloc, hfree] at h
  | cons d₀ rest =>
    simp only [kalloc, hfree] at h
    have hnew : ({ k with
        freelist := rest
        dirs := Function.update k.dirs d₀ { pde := fun _ => none, pte := fun _ => 0 } } : Kernel) =
        k.newDir d₀ rest := rfl
    rw [hnew] at h
    cases hmap : kmapLoop d₀ kmapEntries (k.newDir d₀ rest) with
    | mk k₁ ok =>
      rw [hmap] at h
      cases ok with
      | false =>
        obtain ⟨_, -, h⟩ := bind_eq_ok.mp h
        simp at h
      | true =>
        obtain ⟨rfl, rfl⟩ : d₀ = d ∧ k₁ = k' := by simpa using h
        obtain ⟨hpte, hproc⟩ : k₁.pte = (k.newDir d₀ rest).pte ∧ k₁.proc = k.proc := by
          apply kmapLoop_keeps (I := fun k₁ => k₁.pte = (k.newDir d₀ rest).pte ∧ k₁.proc = k.proc) _ _ _
            _ ⟨rfl, rfl⟩ hmap
          intro _ _ _ hI hready
          exact ⟨hready.pte.trans hI.1, hready.proc.trans hI.2⟩
        have hblank : ∀ x, k₁.pte d₀ x = 0 := by
          intro x
          rw [hpte]
          simp [newDir, Kernel.pte, PageDir.entry]
        refine ⟨⟨rest, rfl⟩, hproc, by rw [hproc], fun x _ => hblank x, fun x => ?_, .inl ⟨?_, by simp⟩⟩
        · rw [hblank]
          simp [hasFlag]
        · rw [hproc]
          exact fun _ => .refl _

/-- The reads of `exec` against the tables it starts from. -/
private theorem execReads_meet (cfg : Config) (k : Kernel) (c : Slot) (ip : Option Inode) :
    ((∀ r ∈ k.execReads cfg c ip, r.Safe) ↔ ¬ k.LosesLoad cfg c ip (k.execReads cfg c ip).length) ∧
    (k.loadsThrough cfg c ip = true → ∀ m, k.LosesLoad cfg c ip m →
      k.LosesLoad cfg c ip (k.execReads cfg c ip).length) := by
  unfold execReads loadsThrough
  cases ip with
  | none => simp [LosesLoad]
  | some ip =>
    cases hheader : ip.header 0 elfhdrSize with
    | none => simp [LosesLoad, hheader]
    | some bytes =>
      simp only [hheader]
      by_cases hmagic : (Elfhdr.ofBytes bytes).magic ≠ elfMagic
      · simp [LosesLoad, if_pos hmagic]
      · simp only [if_neg hmagic]
        have hloads : ip.loads =
            ip.loadsLoop (Elfhdr.ofBytes bytes).phnum (Elfhdr.ofBytes bytes).phoff 0 := by
          simp only [Inode.loads, hheader, if_neg hmagic]
        rcases hsetup : k.setupkvm cfg c with e | ⟨_ | d, k₁⟩
        · simp [LosesLoad]
        · simp [LosesLoad]
        · dsimp only
          obtain ⟨⟨rest, hfree⟩, hproc, hloading⟩ := setupkvm_loading hsetup
          obtain ⟨hplanned, hmade⟩ := segments_meet ip (Elfhdr.ofBytes bytes).phnum
            (Elfhdr.ofBytes bytes).phoff 0 k₁ (by decide) hloading
          rw [← hloads] at hplanned hmade
          rw [hproc]
          have hloses (m : Nat) : k.LosesLoad cfg c (some ip) m ↔
              ∃ l ∈ ip.loads.take m, (k.proc c).Loses cfg d l.grown l.page := by
            constructor
            · intro hlost
              rcases hlost with ⟨f, d', rest', hf, hfree', hl⟩
              obtain rfl : ip = f := Option.some.inj hf
              obtain rfl : d = d' := by
                rw [hfree] at hfree'
                exact (List.cons.inj hfree').1
              exact hl
            · exact fun hl => ⟨ip, d, rest, rfl, hfree, hl⟩
          constructor
          · rw [hplanned.safe_iff, hloses]
            push Not
            rfl
          · intro hthrough m hlost
            cases hend : loadSegments cfg (k.proc c).usedDisc c d ip (Elfhdr.ofBytes bytes).phnum
                (Elfhdr.ofBytes bytes).phoff 0 k₁ with
            | error e => simp [hend] at hthrough
            | ok got =>
              rcases got with ⟨k₂, _ | sz⟩
              · simp [hend] at hthrough
              · obtain ⟨l, hl, hat⟩ := (hloses m).mp hlost
                have hlength := (hmade k₂ sz hend).length_eq
                apply (hloses _).mpr
                refine ⟨l, ?_, hat⟩
                rw [← hlength, List.take_length]
                exact List.mem_of_mem_take hl

end Loading

instance (r : LoadRead) : Decidable r.Safe := inferInstanceAs (Decidable (hasFlag _ _ = true))

/-- A program of one segment: two pages of the file. -/
def twoPages : Inode where
  size := 84 + 2 * pgSize
  data i :=
    if i < 84 then
      wordBytes [elfMagic, 0, 0, 0, 0, 0, 0, 52, 0, 0, 0, 1, 0, elfProgLoad, 84, 0, 0, 2 * pgSize,
        2 * pgSize] i
    else 7

end Kernel

end OsSessional.Paging
