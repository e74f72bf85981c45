import OsSessional.Paging.DiscTable
import OsSessional.Paging.Ownership

/-!
# Servicing a page fault

A fault on a paged-out page is serviced exactly when there is a slot to exchange the page through
and the entry it matches is its own. With both tables full there is no such slot: the process is
killed, however many frames are free.
-/

namespace OsSessional.Paging

open Function (update update_self update_of_ne)
open Outcome

namespace Proc

/-- Size of the swap file when a page-in reads from it: an eviction has written its slot. -/
def sizeAtRead (p : Proc) (f : SwapFile) : Nat :=
  match p.freeRamIndex, p.getAvailablePageIndexDisk with
  | none, some j => max f.size (pgSize * j + pgSize)
  | _, _ => f.size

end Proc

namespace Kernel

variable {cfg : Config} {k k' k₁ : Kernel} {c : Slot} {d : Frame} {a n : Nat}

/-- A user fault on a paged-out page where a frame is free, the policy has a victim if it needs
one, and the swap file takes the write and the read. -/
structure FaultReady (cfg : Config) (k : Kernel) (c : Slot) (a : Nat) : Prop where
  user : a < kernBase
  paged : hasFlag (k.pte (k.proc c).pgdir (a / pgSize)) .PG = true
  frame : k.freelist ≠ []
  victim : (k.proc c).freeRamIndex = none → ∃ i, (k.proc c).getReplacementPageIndexPhyMem cfg = some i
  write : ∀ f j, (k.proc c).freeRamIndex = none → (k.proc c).swapFile = some f →
    (k.proc c).getAvailablePageIndexDisk = some j → f.refuses (pgSize * j) pgSize = false
  read : ∀ f j, (k.proc c).swapFile = some f →
    (k.proc c).matchIndex (a / pgSize * pgSize) = some j → j * pgSize ≤ (k.proc c).sizeAtRead f

/-- `retrievePage` returns 1 with the page present and in a RAM slot, and the process lives on. -/
def Serviced (cfg : Config) (k : Kernel) (c : Slot) (a : Nat) : Prop :=
  ∃ k', k.retrievePage cfg c a = .ok (k', true) ∧ k.trap cfg c 3 a = .ok k' ∧ k'.Active c ∧
    hasFlag (k'.pte (k'.proc c).pgdir (a / pgSize)) .P = true ∧
    ∃ i, ((k'.proc c).pagesInPhysicalMemory i).isUsed = true ∧
      Names ((k'.proc c).pagesInPhysicalMemory i) (k'.proc c).pgdir (a / pgSize)

/-- Why an eviction with a victim gives up. -/
theorem evictPage_none {note : PageData → PageData → PageData} {i : Fin maxPyscPages}
    (h : k.evictPage cfg note c = .ok (k', none))
    (hi : (k.proc c).getReplacementPageIndexPhyMem cfg = some i)
    (htable : k.hasTable ((k.proc c).pagesInPhysicalMemory i).pageDirectory
      (vpn ((k.proc c).pagesInPhysicalMemory i).virtualAddress) = true) :
    (k.proc c).getAvailablePageIndexDisk = none ∨
      ∃ f j, (k.proc c).swapFile = some f ∧ (k.proc c).getAvailablePageIndexDisk = some j ∧
        f.refuses (pgSize * j) pgSize = true := by
  have hwalk := walkpgdir_eq_some.mpr ⟨htable, rfl⟩
  cases hj : (k.proc c).getAvailablePageIndexDisk with
  | none => exact .inl rfl
  | some j =>
    right
    simp only [evictPage, hi, getReplacementPageAddressPhyMem, hwalk, Option.map_some, hj,
      bind_eq_ok] at h
    obtain ⟨⟨k₁, ok⟩, hwrite, h⟩ := h
    cases ok with
    | true =>
      simp only [if_true, bind_eq_ok] at h
      obtain ⟨k₂, -, h⟩ := h
      simp at h
    | false =>
      unfold writeToSwapFile at hwrite
      cases hf : (k.proc c).swapFile with
      | none => simp [hf] at hwrite
      | some f =>
        refine ⟨f, j, rfl, rfl, ?_⟩
        simp only [hf] at hwrite
        rw [refuses_slot]
        by_contra hroom
        have hle : pgSize * j ≤ f.size := by simpa using hroom
        split at hwrite
        · simp [refuses_slot, hroom] at hwrite
        · rw [SwapFile.filewrite_eq f _ (by decide) hle (slot_in_file j)] at hwrite
          simp at hwrite

private theorem RoomAt.file {i : Fin maxPyscPages} (h : RoomAt cfg c k i k₁) {f : SwapFile}
    (hf : (k₁.proc c).swapFile = some f) :
    ∃ f₀, (k.proc c).swapFile = some f₀ ∧ f.size = (k.proc c).sizeAtRead f₀ := by
  cases h with
  | free hfree => exact ⟨f, hf, by simp [Proc.sizeAtRead, hfree]⟩
  | @evicted k₁ j f₀ page hfull hev =>
    refine ⟨f₀, hev.swapFile, ?_⟩
    rw [hev.result] at hf
    simp only [setPte_proc, setProc_proc_self, evictedProc, Option.some.injEq] at hf
    rw [← hf]
    simp [Proc.sizeAtRead, hfull, hev.slot, SwapFile.overlay]

private theorem RoomAt.slot {i : Fin maxPyscPages} (h : RoomAt cfg c k i k₁) :
    (k.proc c).freeRamIndex.isSome = true ∨ (k.proc c).getAvailablePageIndexDisk.isSome = true := by
  cases h with
  | free hfree => exact .inl (by simp [hfree])
  | evicted hfull hev => exact .inr (by simp [hev.slot])

theorem PageReady.tables {mem : Option Frame} (h : PageReady k c mem k') :
    ∃ n, k'.proc c = { k.proc c with pageFault := n } := by
  cases h with
  | frame _ => exact ⟨_, by simp [countFault]; rfl⟩
  | null _ => exact ⟨_, by simp [countFault]; rfl⟩

private theorem RoomAt.matched {i : Fin maxPyscPages} (h : RoomAt cfg c k i k₁) {j : Fin discPages}
    (hj : (k.proc c).matchIndex n = some j) :
    (k₁.proc c).pagesInDisc j = (k.proc c).pagesInDisc j := by
  cases h with
  | free hfree => rfl
  | @evicted k₁ j₀ f page hfull hev =>
    have hne : j ≠ j₀ := by
      rintro rfl
      have hspec := Scan.first_spec hj
      simp [Proc.taken, hfull, hev.slot] at hspec
    rw [hev.result]
    simp [evictedProc, hne]

/-- After room is made a page-in matches what `matchIndex` says: the eviction has written another
page's address into its slot. -/
theorem RoomAt.discIndex {i : Fin maxPyscPages} (h : RoomAt cfg c k i k₁)
    (hs : (k.space c).Sound (· = d)) (hP : hasFlag (k.pte d n) .P = false) :
    (k₁.proc c).discIndex (n * pgSize) = (k.proc c).matchIndex (n * pgSize) := by
  cases h with
  | free hfree => simp [Proc.discIndex, Proc.matchIndex, Proc.taken, hfree]
  | @evicted k₁ j f page hfull hev =>
    obtain ⟨j', e, hj', hne, hdisc⟩ := (hev.space isNote_retrieveNote).disc hs hP
    obtain rfl : j' = j := Option.some.inj (hj'.symm.trans hev.slot)
    change (k₁.proc c).pagesInDisc = update (k.proc c).pagesInDisc j' e at hdisc
    simp only [Proc.discIndex, Proc.matchIndex, Proc.taken, hdisc, hfull, hev.slot]
    congr 1
    funext a
    by_cases ha : a = j'
    · subst ha
      simp [hne]
    · simp [ha, Ne.symm ha]

private theorem shadowed_eq {p : Proc} {j : Fin discPages} (hj : p.matchIndex n = some j) :
    p.Shadowed n = !(p.pagesInDisc j).isUsed := by
  simp [Proc.Shadowed, hj]

section Match

variable {i : Fin maxPyscPages} {m hi : Nat} (hroom : RoomAt cfg c k i k₁)
  (hs : (k.space c).Image d m hi) (hn : n < userPages) (hPG : hasFlag (k.pte d n) .PG = true)
include hroom hs hn hPG

theorem RoomAt.found : ∃ j, (k.proc c).matchIndex (n * pgSize) = some j ∧ j.val < m ∧
    (k₁.proc c).discIndex (n * pgSize) = some j := by
  have hP := (hs.sound.paged d n rfl hn hPG).1
  have hPG₁ : hasFlag ((k₁.space c).pte d n) .PG = true := by
    rw [hroom.space.pte_of_absent hs.sound hP]
    exact hPG
  have hfence := (hroom.space.image hs).fence
  obtain ⟨j, hj⟩ := Option.isSome_iff_exists.mp (hfence.index_isSome hn hPG₁)
  exact ⟨j, (hroom.discIndex hs.sound hP).symm.trans hj, hfence.index_lt hn hPG₁ hj, hj⟩

end Match

private theorem Fetched.serviced_iff {mem : Option Frame} {ok : Bool} {m hi : Nat}
    (hf : Fetched cfg c n mem k k' ok) (hs : (k.space c).Image d m hi) (hn : n < userPages)
    (hPG : hasFlag (k.pte d n) .PG = true)
    (hvictim : (k.proc c).freeRamIndex = none →
      ∃ i, (k.proc c).getReplacementPageIndexPhyMem cfg = some i)
    (hwrite : ∀ f j, (k.proc c).freeRamIndex = none → (k.proc c).swapFile = some f →
      (k.proc c).getAvailablePageIndexDisk = some j → f.refuses (pgSize * j) pgSize = false)
    (hread : ∀ f j, (k.proc c).swapFile = some f → (k.proc c).matchIndex (n * pgSize) = some j →
      j * pgSize ≤ (k.proc c).sizeAtRead f) :
    (ok = true ∧ ∃ i, ((k'.proc c).pagesInPhysicalMemory i).isUsed = true ∧
      Names ((k'.proc c).pagesInPhysicalMemory i) d n) ↔
    ((k.proc c).freeRamIndex.isSome = true ∨
      (k.proc c).getAvailablePageIndexDisk.isSome = true) ∧
      (k.proc c).Shadowed (n * pgSize) = false := by
  cases hf with
  | noVictim hfull hev =>
    obtain ⟨i, hi⟩ := hvictim hfull
    have hused := (k.proc c).getReplacementPageIndexPhyMem_used cfg hi
    obtain ⟨v, hv, haddr, hdir, hvpn, hP⟩ := hs.sound.pageAt (i := i) hused
    rw [← hvpn] at hP
    have htable := hasTable_of_hasFlag (k := k) hP
    rcases evictPage_none hev hi htable with hnone | ⟨f, j, hfile, hj, hrefuse⟩
    · simp [hfull, hnone]
    · simp [hwrite f j hfull hfile hj] at hrefuse
  | missing hroom htable habsent hindex =>
    obtain ⟨j, -, -, hj⟩ := hroom.found hs hn hPG
    simp [hj] at hindex
  | @unread i k₁ j f hroom htable habsent hindex hfile hrd =>
    obtain ⟨j', hmatch, -, hj'⟩ := hroom.found hs hn hPG
    obtain rfl : j = j' := by simpa [hj'] using hindex.symm
    obtain ⟨f₀, hf₀, hsize⟩ := hroom.file hfile
    have hle := hread f₀ j hf₀ hmatch
    have hbig : maxFile * bSize < 2 ^ 32 := by decide
    have hmax := slot_in_file j
    rw [Nat.mul_comm] at hmax
    unfold SwapFile.readi at hrd
    rw [if_neg (by omega)] at hrd
    simp at hrd
  | @moved i k₁ j f count bytes fr pg b hroom htable habsent hindex hfile hrd hpage =>
    obtain ⟨j', hmatch, hjm, hj'⟩ := hroom.found hs hn hPG
    obtain rfl : j = j' := by simpa [hj'] using hindex.symm
    rw [shadowed_eq hmatch, ← hroom.matched hmatch]
    have hP := (hs.sound.paged d n rfl hn hPG).1
    have hs₁ := hroom.space.image hs
    have hram : ((({ k₁.pageIn c n mem with buffer := b }.moveToRam c j i).setMem fr pg).proc
        c).pagesInPhysicalMemory = update (k₁.proc c).pagesInPhysicalMemory i
          { (k₁.proc c).pagesInDisc j with timer := (k₁.proc c).timer } := by
      simp [moveToRam, pageIn]
    rw [hram]
    constructor
    · rintro ⟨-, i', hused, hnames⟩
      refine ⟨hroom.slot, ?_⟩
      by_cases hi : i' = i
      · subst hi
        simpa using hused
      · rw [update_of_ne hi] at hused hnames
        have hP₁ : hasFlag ((k₁.space c).pte d n) .P = false := by
          rw [hroom.space.pte_of_absent hs.sound hP]
          exact hP
        exact absurd hnames (hs₁.sound.untracked hn hP₁ i' hused)
    · rintro ⟨-, hused⟩
      have hused' : ((k₁.proc c).pagesInDisc j).isUsed = true := by simpa using hused
      refine ⟨rfl, i, by simpa using hused', ?_⟩
      rw [update_self]
      exact ⟨hs₁.fence.own j hjm hused', Space.discIndex_addr (s := k₁.space c) hj'⟩

private theorem trap_serviced (ha : a < kernBase)
    (hPG : hasFlag (k.pte (k.proc c).pgdir (a / pgSize)) .PG = true)
    (h : k.retrievePage cfg c a = .ok (k', true)) : k.trap cfg c 3 a = .ok k' := by
  simp [trap, checkPTForPage_eq, vpn_of_lt ha, hPG, h, bind, Except.bind, pure, Except.pure]

/-- A consistent kernel services a fault exactly when a slot is free to bring the page in through
and the entry the page matches is in use. -/
theorem Consistent.serviced_iff (h : Consistent cfg allCounted k) (hc : k.Active c)
    (hr : FaultReady cfg k c a) :
    Serviced cfg k c a ↔
      ((k.proc c).freeRamIndex.isSome = true ∨
        (k.proc c).getAvailablePageIndexDisk.isSome = true) ∧
      (k.proc c).Shadowed (a / pgSize * pgSize) = false := by
  obtain ⟨m, hh⟩ := h.healthy hc
  have hn := page_lt_userPages hr.user
  obtain ⟨⟨k', ok⟩, hret⟩ := hh.retrievePage_returns rfl hc.live hr.user hr.paged hr.frame
  obtain ⟨mem, k₀, hready, hfetched⟩ := retrievePage_ok hr.user hret
  obtain ⟨hhealthy, hl⟩ := hh.fetched rfl hc.live hn hr.paged hready hr.frame hfetched
  have hs₀ : (k₀.space c).Image (k.proc c).pgdir m (pages (k.proc c).sz) := by
    rw [hready.space]
    exact hh.image
  have hPG₀ : hasFlag ((k₀.space c).pte (k.proc c).pgdir (a / pgSize)) .PG = true := by
    rw [hready.space]
    exact hr.paged
  have hiff : (ok = true ∧ ∃ i, ((k'.proc c).pagesInPhysicalMemory i).isUsed = true ∧
      Names ((k'.proc c).pagesInPhysicalMemory i) (k.proc c).pgdir (a / pgSize)) ↔
      ((k.proc c).freeRamIndex.isSome = true ∨
        (k.proc c).getAvailablePageIndexDisk.isSome = true) ∧
      (k.proc c).Shadowed (a / pgSize * pgSize) = false := by
    obtain ⟨faults, htables⟩ := hready.tables
    have hiff₀ := hfetched.serviced_iff hs₀ hn hPG₀
    rw [htables] at hiff₀
    exact hiff₀ hr.victim hr.write hr.read
  rw [← hiff]
  constructor
  · rintro ⟨k₁, hret₁, -, -, -, htracked⟩
    rw [hret] at hret₁
    obtain ⟨rfl, rfl⟩ : k' = k₁ ∧ ok = true := by simpa using hret₁
    rw [hl.pgdir] at htracked
    exact ⟨rfl, htracked⟩
  · rintro ⟨rfl, i, hused, hnames⟩
    refine ⟨k', hret, trap_serviced hr.user hr.paged hret, ?_, ?_, i, hused, ?_⟩
    · exact ⟨hl.pid ▸ hc.pid, hl.state ▸ hc.unused, hl.state ▸ hc.embryo, hl.state ▸ hc.zombie⟩
    · obtain ⟨v, hv, haddr, hdir, -, hP⟩ := hhealthy.image.sound.pageAt (i := i) hused
      obtain rfl : v = a / pgSize := Space.page_ext (haddr.symm.trans hnames.addr)
      rw [hdir] at hP
      rw [hl.pgdir]
      exact hP
    · rwa [hl.pgdir]

end Kernel

end OsSessional.Paging
