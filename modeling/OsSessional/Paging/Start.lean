import OsSessional.Paging.Fork

/-!
# After an exec

What `exec` leaves when it evicted nothing of the new image: every page present and new in the
RAM table, an empty swap file, a disc table that may still hold entries of the old image. The
kernels such a process runs in are where the runs of the system start.
-/

namespace OsSessional.Paging

open Function (update)

namespace Kernel

variable {cfg : Config} {k : Kernel} {c : Slot}

structure AfterExec (k : Kernel) (c : Slot) : Prop where
  active : k.Active c
  sz_lt : (k.proc c).sz < kernBase
  swapFile : (k.proc c).swapFile = some .empty
  present : ∀ n < pages (k.proc c).sz, hasFlag (k.pte (k.proc c).pgdir n) .P = true ∧
    hasFlag (k.pte (k.proc c).pgdir n) .PG = false
  beyond : ∀ n, pages (k.proc c).sz ≤ n → n < userPages →
    (k.space c).Unmapped (k.proc c).pgdir n
  named : ∀ i, ((k.proc c).pagesInPhysicalMemory i).isUsed = true → ∃ n < pages (k.proc c).sz,
    Names ((k.proc c).pagesInPhysicalMemory i) (k.proc c).pgdir n
  inj : ∀ i i' n, ((k.proc c).pagesInPhysicalMemory i).isUsed = true →
    ((k.proc c).pagesInPhysicalMemory i').isUsed = true →
    Names ((k.proc c).pagesInPhysicalMemory i) (k.proc c).pgdir n →
    Names ((k.proc c).pagesInPhysicalMemory i') (k.proc c).pgdir n → i = i'

private theorem discFence (disc : DiscTable) : ∃ m ≤ discPages,
    (∀ j : Fin discPages, j.val = m → (disc j).isUsed = true) ∧
    ∀ j : Fin discPages, j.val < m → (disc j).isUsed = false := by
  cases h : Scan.first fun j => (disc j).isUsed with
  | none =>
    have hall := Scan.first_eq_none.mp h
    exact ⟨discPages, le_refl _, fun j hj => absurd j.isLt (by omega), fun j _ => hall j⟩
  | some j₀ =>
    obtain ⟨hused, hbelow⟩ := Scan.first_eq_some.mp h
    refine ⟨j₀, le_of_lt j₀.isLt, ?_, fun j hj => hbelow j hj⟩
    intro j hj
    obtain rfl : j = j₀ := Fin.ext hj
    exact hused

section Exec

variable (h : AfterExec k c)
include h

theorem AfterExec.no_paged {n : Nat} (hn : n < userPages) :
    hasFlag (k.pte (k.proc c).pgdir n) .PG = false := by
  by_cases hlt : n < pages (k.proc c).sz
  · exact (h.present n hlt).2
  · exact (h.beyond n (by omega) hn).2

theorem AfterExec.sound : (k.space c).Sound (· = (k.proc c).pgdir) where
  ram i hi := by
    obtain ⟨n, hn, hnames⟩ := h.named i hi
    have hle := pages_le_userPages (le_of_lt h.sz_lt)
    exact ⟨_, n, rfl, by omega, hnames, (h.present n hn).1⟩
  inj i i' d n hi hi' hnames hnames' := by
    obtain ⟨v, -, hv⟩ := h.named i hi
    obtain rfl : (k.proc c).pgdir = d := hv.dir.symm.trans hnames.dir
    exact h.inj i i' n hi hi' hnames hnames'
  paged d n hd hn hPG := by
    obtain rfl : d = (k.proc c).pgdir := hd
    have hno := h.no_paged hn
    rw [show (k.space c).pte = k.pte from rfl, hno] at hPG
    simp at hPG

theorem AfterExec.discAgree {m : Nat} (hm : m ≤ discPages)
    (hblocked : ∀ j : Fin discPages, j.val = m → ((k.proc c).pagesInDisc j).isUsed = true)
    (hbelow : ∀ j : Fin discPages, j.val < m → ((k.proc c).pagesInDisc j).isUsed = false) :
    (k.space c).DiscAgree (k.proc c).pgdir m := by
  have hno : ∀ j : Fin discPages, j.val < m → ((k.space c).disc j).isUsed = true → False := by
    intro j hj hused
    rw [show ((k.space c).disc j).isUsed = false from hbelow j hj] at hused
    simp at hused
  refine ⟨⟨hm, hblocked, ⟨_, h.swapFile, Nat.zero_le _⟩, ?_, ?_⟩, ?_, ?_, ?_, ?_⟩
  · exact fun j hj hused => (hno j hj hused).elim
  · intro n hn hPG
    rw [show (k.space c).pte = k.pte from rfl, h.no_paged hn] at hPG
    simp at hPG
  · exact fun j f hj hused _ => (hno j hj hused).elim
  · exact fun j hj hused => (hno j hj hused).elim
  · exact fun j j' n hj _ hused _ _ _ => (hno j hj hused).elim
  · exact fun j n hj hused _ _ => (hno j hj hused).elim

theorem AfterExec.image : ∃ m, (k.space c).Image (k.proc c).pgdir m (pages (k.proc c).sz) ∧
    (k.space c).DiscAgree (k.proc c).pgdir m := by
  obtain ⟨m, hm, hblocked, hbelow⟩ := discFence (k.proc c).pagesInDisc
  have hagree := h.discAgree hm hblocked hbelow
  exact ⟨m, ⟨h.sound, hagree.toFence, h.beyond⟩, hagree⟩

end Exec

/-- Every paging process has just come out of an exec; no frame is shared. -/
structure Started (cfg : Config) (k : Kernel) : Prop where
  frames : FramesSound cfg allCounted k.Live k
  pgdir_inj : ∀ c c', k.InUse c → k.InUse c' → (k.proc c).pgdir = (k.proc c').pgdir → c = c'
  exec : ∀ c, k.InUse c → 2 < (k.proc c).pid → AfterExec k c
  nextpid : 2 < k.nextpid

theorem Started.consistent (h : Started cfg k) : Consistent cfg allCounted k where
  frames := h.frames
  pgdir_inj := h.pgdir_inj
  image c hc := by
    have hexec := h.exec c hc.inUse hc.pid
    obtain ⟨m, himage, -⟩ := hexec.image
    exact ⟨hexec.sz_lt, m, himage⟩
  sound c hc hpid := (h.exec c hc hpid).sound
  nextpid := h.nextpid

end Kernel

/-- A machine with one process that has just come out of an exec: its pages in consecutive
frames, the RAM slots that track them, and the frames left. Page `guard` is the stack guard. -/
structure Solo where
  npages : Nat
  nfree : Nat
  slot : Fin maxPyscPages → Option Nat
  guard : Option Nat
  contents : Nat → Byte
  small : npages + nfree ≤ 1000
  slot_lt : ∀ i n, slot i = some n → n < npages
  slot_inj : ∀ i i' n, slot i = some n → slot i' = some n → i = i'

namespace Solo

variable (s : Solo) {cfg : Config}

/-- Frame `i` above the first mebibyte. -/
def frame (i : Nat) : Frame := BitVec.ofNat 32 ((256 + i) * pgSize)

/-- Slot 0 of the process table. -/
def main : Slot := ⟨0, by decide⟩

def perm (n : Nat) : PTE := if s.guard = some n then pteW else pteW ||| pteU

def dir : PageDir where
  pde i := if i = 0 then some (frame 1) else none
  pte n := if n < s.npages then mapPte (frame (2 + n)) (s.perm n) else 0

def proc : Proc where
  sz := s.npages * pgSize
  pgdir := frame 0
  kstack := none
  state := .RUNNING
  pid := 3
  killed := false
  swapFile := some .empty
  pagesInPhysicalMemory i :=
    match s.slot i with
    | some n => ⟨frame 0, true, n * pgSize, i, 0, 0⟩
    | none => .zero
  pagesInDisc _ := .zero
  timer := maxPyscPages
  pageFault := 0

/-- An unused slot of the process table. -/
def idle : Proc :=
  ⟨0, 0, none, .UNUSED, 0, false, none, fun _ => .zero, fun _ => .zero, 0, 0⟩

def kernel : Kernel where
  freelist := (List.range s.nfree).map fun i => frame (2 + s.npages + i)
  mem fr := fun _ => s.contents (fr.toNat / pgSize - 258)
  dirs d := if d = frame 0 then s.dir else ⟨fun _ => none, fun _ => 0⟩
  proc c := if c = main then s.proc else idle
  buffer _ := 0
  nextpid := 4

private theorem frame_toNat {i : Nat} (h : i ≤ 1001) : (frame i).toNat = (256 + i) * pgSize := by
  simp only [frame, BitVec.toNat_ofNat, pgSize]
  omega

private theorem frame_inj {i j : Nat} (hi : i ≤ 1001) (hj : j ≤ 1001) (h : frame i = frame j) :
    i = j := by
  have heq := congrArg BitVec.toNat h
  rw [frame_toNat hi, frame_toNat hj] at heq
  simp only [pgSize] at heq
  omega

private theorem frame_valid (hcfg : cfg.kernelEnd ≤ 2 ^ 20) {i : Nat} (h : i ≤ 1001) :
    Kernel.ValidFrame cfg (frame i) := by
  unfold Kernel.ValidFrame
  rw [frame_toNat h]
  simp only [pgSize, physTop]
  omega

private theorem frame_aligned {i : Nat} (h : i ≤ 1001) : PageAligned (frame i) :=
  (frame_valid (le_refl (Config.mk .FIFO false (2 ^ 20) (by decide)).kernelEnd) h).aligned

private theorem pteAddr_perm (n : Nat) : pteAddr (s.perm n) = 0 := by
  unfold perm
  split <;> decide

private theorem kernel_pte (n : Nat) (d : Frame) :
    s.kernel.pte d n =
      if d = frame 0 ∧ n < s.npages then mapPte (frame (2 + n)) (s.perm n) else 0 := by
  have hsmall := s.small
  simp only [Kernel.pte, kernel, PageDir.entry]
  by_cases hd : d = frame 0
  · simp only [hd, if_true, dir, true_and]
    by_cases hlt : n < s.npages
    · have hzero : n / nptEntries = 0 := by
        simp only [nptEntries]
        omega
      simp [hlt, hzero]
    · simp [hlt]
  · simp [hd]

theorem kernel_present (n : Nat) (d : Frame) :
    hasFlag (s.kernel.pte d n) .P = decide (d = frame 0 ∧ n < s.npages) ∧
      hasFlag (s.kernel.pte d n) .PG = false := by
  have hsmall := s.small
  rw [s.kernel_pte]
  split
  · next h =>
    have hperm : hasFlag (s.perm n) .PG = false := by
      unfold perm
      split <;> decide
    have halign : PageAligned (frame (2 + n)) := frame_aligned (by omega)
    simp [hasFlag_mapPte_perm halign, hperm, h]
  · next h => simp [h]

theorem inUse_iff {c : Slot} : s.kernel.InUse c ↔ c = main := by
  simp only [Kernel.InUse, kernel]
  split
  · next h => simp [h, proc]
  · next h => simp [h, idle]

private theorem live_iff {d : Frame} : s.kernel.Live d ↔ d = frame 0 := by
  simp only [Kernel.Live, inUse_iff]
  constructor
  · rintro ⟨c, rfl, rfl⟩
    rfl
  · rintro rfl
    exact ⟨main, rfl, rfl⟩

private theorem kernel_held {o : Owner} {fr : Frame} (h : s.kernel.held Kernel.allCounted s.kernel.Live o = some fr) :
    ∃ i ≤ 1001, fr = frame i ∧ i < 2 + s.npages ∧
      o = if i = 0 then .dir (frame 0) else if i = 1 then .table (frame 0) 0
        else .page (frame 0) (i - 2) := by
  have hsmall := s.small
  cases o with
  | dir d =>
    simp only [Kernel.held, live_iff] at h
    split at h
    · next hd => exact ⟨0, by omega, by simpa [hd] using h.symm, by omega, by simp [hd]⟩
    · simp at h
  | table d i =>
    simp only [Kernel.held, live_iff] at h
    split at h
    · next hd =>
      subst hd
      simp only [kernel, if_true, dir] at h
      split at h
      · next hi => exact ⟨1, by omega, by simpa using h.symm, by omega, by simp [hi]⟩
      · simp at h
    · simp at h
  | page d n =>
    obtain ⟨hd, hn, hP, -, hfr⟩ := Kernel.held_page_iff.mp h
    rw [live_iff] at hd
    rw [(s.kernel_present n d).1] at hP
    have hlt : n < s.npages := (of_decide_eq_true hP).2
    refine ⟨2 + n, by omega, ?_, by omega, ?_⟩
    · rw [← hfr, s.kernel_pte, if_pos ⟨hd, hlt⟩,
        pteAddr_mapPte (frame_aligned (by omega)) (s.pteAddr_perm n)]
    · rw [if_neg (by omega), if_neg (by omega), hd]
      simp

private theorem mem_freelist {fr : Frame} (h : fr ∈ s.kernel.freelist) :
    ∃ i < s.nfree, fr = frame (2 + s.npages + i) := by
  simp only [kernel, List.mem_map, List.mem_range] at h
  obtain ⟨i, hi, rfl⟩ := h
  exact ⟨i, hi, rfl⟩

theorem framesSound (hcfg : cfg.kernelEnd ≤ 2 ^ 20) :
    Kernel.FramesSound cfg Kernel.allCounted s.kernel.Live s.kernel where
  ledger := by
    have hsmall := s.small
    refine ⟨?_, ?_, ?_⟩
    · simp only [Kernel.ledger, kernel]
      refine List.Nodup.map_on ?_ List.nodup_range
      intro i hi j hj h
      rw [List.mem_range] at hi hj
      have := frame_inj (by omega) (by omega) h
      omega
    · intro o fr ho hmem
      obtain ⟨i, hi, hfr, hlt, -⟩ := s.kernel_held ho
      obtain ⟨j, hj, hfr'⟩ := s.mem_freelist hmem
      have := frame_inj hi (by omega) (hfr.symm.trans hfr')
      omega
    · intro o o' fr ho ho'
      obtain ⟨i, hi, hfr, -, rfl⟩ := s.kernel_held ho
      obtain ⟨i', hi', hfr', -, rfl⟩ := s.kernel_held ho'
      rw [frame_inj hi hi' (hfr.symm.trans hfr')]
  valid_free fr hmem := by
    have hsmall := s.small
    obtain ⟨i, hi, rfl⟩ := s.mem_freelist hmem
    exact frame_valid hcfg (by omega)
  valid_held o fr ho := by
    obtain ⟨i, hi, rfl, -⟩ := s.kernel_held ho
    exact frame_valid hcfg hi
  counted _ _ := id

private theorem pages_sz : pages (s.npages * pgSize) = s.npages := by
  simp only [pages, pgSize]
  omega

theorem ram_used {i : Fin maxPyscPages} (h : (s.proc.pagesInPhysicalMemory i).isUsed = true) :
    ∃ n, s.slot i = some n ∧ Names (s.proc.pagesInPhysicalMemory i) (frame 0) n := by
  simp only [proc] at h ⊢
  cases hslot : s.slot i with
  | none => simp [hslot, PageData.zero] at h
  | some n => exact ⟨n, rfl, rfl, rfl⟩

theorem afterExec : Kernel.AfterExec s.kernel main := by
  have hsmall := s.small
  have hproc : s.kernel.proc main = s.proc := rfl
  refine ⟨?_, ?_, rfl, ?_, ?_, ?_, ?_⟩
  · exact ⟨by simp [hproc, proc], by simp [hproc, proc], by simp [hproc, proc], by simp [hproc, proc]⟩
  · simp only [hproc, proc, pgSize, kernBase]
    omega
  · intro n hn
    simp only [hproc, proc, pages_sz] at hn ⊢
    simpa [hn] using s.kernel_present n (frame 0)
  · intro n hn hlt
    simp only [hproc, proc, pages_sz] at hn ⊢
    simpa [Space.Unmapped, Kernel.space, show ¬ n < s.npages by omega] using
      s.kernel_present n (frame 0)
  · intro i hi
    rw [hproc] at hi ⊢
    obtain ⟨n, hslot, hnames⟩ := s.ram_used hi
    exact ⟨n, by simpa [proc, pages_sz] using s.slot_lt i n hslot, hnames⟩
  · intro i i' n hi hi' hnames hnames'
    rw [hproc] at hi hi' hnames hnames'
    obtain ⟨v, hslot, hv⟩ := s.ram_used hi
    obtain ⟨v', hslot', hv'⟩ := s.ram_used hi'
    obtain rfl : v = n := Space.page_ext (hv.addr.symm.trans hnames.addr)
    obtain rfl : v' = v := Space.page_ext (hv'.addr.symm.trans hnames'.addr)
    exact s.slot_inj i i' v' hslot hslot'

/-- A build for the machine. -/
def config (rAlgo : ReplacementAlgo) : Config := ⟨rAlgo, false, 2 ^ 20, by decide⟩

/-- Pages tracked in order from slot 0, each filled with one byte. -/
def ordered (npages nfree : Nat) (guard : Option Nat) (hsmall : npages + nfree ≤ 1000) : Solo where
  npages := npages
  nfree := nfree
  slot i := if i.val < npages then some i.val else none
  guard := guard
  contents n := UInt8.ofNat (n + 1)
  small := hsmall
  slot_lt i n h := by
    split at h
    · next hlt =>
      obtain rfl : i.val = n := by simpa using h
      exact hlt
    · simp at h
  slot_inj i i' n h h' := by
    split at h
    · split at h'
      · exact Fin.ext (by simp_all)
      · simp at h'
    · simp at h

/-- Fourteen pages behind a free first slot. -/
def late : Solo where
  npages := 14
  nfree := 8
  slot i := if i.val = 0 then none else some (i.val - 1)
  guard := none
  contents n := UInt8.ofNat (n + 1)
  small := by decide
  slot_lt i n h := by
    have hi : i.val < 15 := i.isLt
    split at h
    · simp at h
    · simp only [Option.some.injEq] at h
      omega
  slot_inj i i' n h h' := by
    split at h
    · simp at h
    · split at h'
      · simp at h'
      · simp only [Option.some.injEq] at h h'
        exact Fin.ext (by omega)

/-- All RAM slots taken. -/
def full : Solo := .ordered 15 200 none (by decide)

/-- A small image with a stack guard. -/
def guarded : Solo := .ordered 3 200 (some 1) (by decide)

/-- Pages 14, 15 and 0 of `late` go out, a shrink frees the first two disc slots, and page 0 is
touched. -/
def staleRun : List (Op × Event) :=
  [(.growproc 4096, .resized 61440), (.growproc 4096, .resized 65536),
    (.load 61440 true, .loaded 61440 0), (.tick, .ticked), (.growproc 4096, .resized 69632),
    (.growproc (-12288), .resized 57344), (.load 0 true, .faulted 0)]

private theorem tracked (hall : ∀ n < s.npages, ∃ i, s.slot i = some n) :
    (s.kernel.space main).Tracked (s.kernel.proc main).pgdir := by
  intro n hn _ hP
  have hlt : n < s.npages := by
    have hpresent := (s.kernel_present n (frame 0)).1
    rw [show hasFlag (s.kernel.pte (frame 0) n) .P = true from hP] at hpresent
    exact (of_decide_eq_true hpresent.symm).2
  obtain ⟨i, hi⟩ := hall n hlt
  have hentry : s.proc.pagesInPhysicalMemory i = ⟨frame 0, true, n * pgSize, i, 0, 0⟩ := by
    simp [proc, hi]
  refine ⟨i, ?_⟩
  change (s.proc.pagesInPhysicalMemory i).isUsed = true ∧
    Names (s.proc.pagesInPhysicalMemory i) (frame 0) n
  rw [hentry]
  exact ⟨rfl, rfl, rfl⟩

theorem full_tracked : (full.kernel.space main).Tracked (full.kernel.proc main).pgdir := by
  refine full.tracked fun n hn => ?_
  have hlt : n < 15 := hn
  exact ⟨⟨n, hlt⟩, by simp [full, ordered, hlt]⟩

/-- The machine is one the runs of the system start in. -/
theorem started (hcfg : cfg.kernelEnd ≤ 2 ^ 20) : Kernel.Started cfg s.kernel where
  frames := s.framesSound hcfg
  pgdir_inj c c' hc hc' _ := by
    rw [inUse_iff] at hc hc'
    rw [hc, hc']
  exec c hc _ := by
    rw [inUse_iff] at hc
    subst hc
    exact s.afterExec
  nextpid := by simp [kernel]

end Solo

end OsSessional.Paging
