import OsSessional.Paging.FaultService

/-!
# Page-ins that fail

`retrievePage` gives up where there is no victim, no disc slot, or where the swap file refuses the write
or the read. What it has taken by then it keeps: the frame is not freed, and a refused read comes
after the eviction and the change of the entry. Without a frame it clears the page at address 0 first.
-/

namespace OsSessional.Paging

open Function (update update_self update_of_ne)
open Outcome

namespace Kernel

section Statement

/-- The eviction of `retrievePage` gives up before it changes anything. -/
inductive EvictionFails (cfg : Config) (k : Kernel) (c : Slot) : Prop
  | noVictim (h : (k.proc c).getReplacementPageIndexPhyMem cfg = none)
  | noAddress {i : Fin maxPyscPages} (hi : (k.proc c).getReplacementPageIndexPhyMem cfg = some i)
      (h : k.getReplacementPageAddressPhyMem ((k.proc c).pagesInPhysicalMemory i).pageDirectory
        ((k.proc c).pagesInPhysicalMemory i).virtualAddress = none)
  | noSlot (h : (k.proc c).getAvailablePageIndexDisk = none)
  | noWrite {f : SwapFile} {j : Fin discPages} (hfile : (k.proc c).swapFile = some f)
      (hslot : (k.proc c).getAvailablePageIndexDisk = some j) (h : f.refuses (pgSize * j) pgSize = true)

/-- `retrievePage` cannot complete for a fault at `a`: there is no frame, the RAM table is full and
nothing can be evicted, or the swap file cannot be read once there is room. -/
inductive Blocked (cfg : Config) (k : Kernel) (c : Slot) (a : Nat) : Prop
  | noFrame (h : k.freelist = [])
  | noRoom (hfull : (k.proc c).freeRamIndex = none) (h : EvictionFails cfg k c)
  | noRead {i : Fin maxPyscPages} {k₁ : Kernel} {j : Fin discPages} {f : SwapFile}
      (hroom : RoomAt cfg c k i k₁) (hindex : (k₁.proc c).discIndex (pgRoundDown a) = some j)
      (hfile : (k₁.proc c).swapFile = some f) (hread : f.readi (j * pgSize) pgSize = none)

/-- Page tables, metadata tables, swap files, user pages and free frames are as they were. -/
structure SameMemory (k k' : Kernel) : Prop where
  pde : ∀ d, (k'.dirs d).pde = (k.dirs d).pde
  pte : k'.pte = k.pte
  ram : ∀ c, (k'.proc c).pagesInPhysicalMemory = (k.proc c).pagesInPhysicalMemory
  disc : ∀ c, (k'.proc c).pagesInDisc = (k.proc c).pagesInDisc
  swapFile : ∀ c, (k'.proc c).swapFile = (k.proc c).swapFile
  contents : ∀ d, ∀ n < userPages, hasFlag (k.pte d n) .P = true →
    k'.mem (pteAddr (k.pte d n)) = k.mem (pteAddr (k.pte d n))
  frames : k'.freelist.Perm k.freelist

/-- `retrievePage` returns -1 and leaves no trace. -/
def FailsClean (cfg : Config) (k : Kernel) (c : Slot) (a : Nat) : Prop :=
  ∃ k', k.retrievePage cfg c a = .ok (k', false) ∧ SameMemory k k'

/-- There is no frame to lose and nothing to evict, and page 0 can be cleared for it is clear. -/
structure NothingTaken (cfg : Config) (k : Kernel) (c : Slot) : Prop where
  frame : k.freelist = []
  full : (k.proc c).freeRamIndex = none
  eviction : EvictionFails cfg k c
  present : hasFlag (k.pte (k.proc c).pgdir 0) .P = true
  writable : hasFlag (k.pte (k.proc c).pgdir 0) .W = true
  zero : k.mem (pteAddr (k.pte (k.proc c).pgdir 0)) = fun _ => 0

end Statement

variable {cfg : Config} {k k' k₀ k₁ : Kernel} {c : Slot} {a n : Nat} {ok : Bool}
variable {note : PageData → PageData → PageData}

section Eviction

private theorem writeToSwapFile_refused {f : SwapFile} {va : Nat} {j : Fin discPages}
    (hfile : (k.proc c).swapFile = some f) (h : f.refuses (pgSize * j) pgSize = true) :
    k.writeToSwapFile c va (pgSize * j) = .ok (k, false) := by
  have hlate : f.size < pgSize * j := by
    rw [refuses_slot] at h
    exact of_decide_eq_true h
  unfold writeToSwapFile
  rw [hfile]
  cases hpage : k.userPage (k.proc c).pgdir va with
  | none => simp only [h, if_true]
  | some page =>
    have hsame : k.setSwapFile c (some f) = k := by
      unfold setSwapFile
      rw [← hfile]
      exact setProc_self
    have hwrite := @SwapFile.filewrite_refused f (pageBytes page) _ pgSize (by decide) hlate
    simp only [hwrite, hsame]

private theorem evictPage_of_fails (h : EvictionFails cfg k c) :
    k.evictPage cfg note c = .ok (k, none) := by
  unfold evictPage
  cases hi : (k.proc c).getReplacementPageIndexPhyMem cfg with
  | none => rfl
  | some i =>
    dsimp only
    cases haddr : k.getReplacementPageAddressPhyMem ((k.proc c).pagesInPhysicalMemory i).pageDirectory
        ((k.proc c).pagesInPhysicalMemory i).virtualAddress with
    | none => rfl
    | some pa =>
      dsimp only
      cases hj : (k.proc c).getAvailablePageIndexDisk with
      | none => rfl
      | some j =>
        cases h with
        | noVictim h => simp [hi] at h
        | noAddress hi' h =>
          obtain rfl := Option.some.inj (hi.symm.trans hi')
          simp [haddr] at h
        | noSlot h => simp [hj] at h
        | noWrite hfile hslot h =>
          obtain rfl := Option.some.inj (hj.symm.trans hslot)
          simp only [writeToSwapFile_refused hfile h, ok_bind, Bool.false_eq_true, if_false]
          rfl

private theorem fails_of_evictPage (h : k.evictPage cfg note c = .ok (k', none)) :
    EvictionFails cfg k c := by
  obtain rfl : k' = k := by
    rcases evictPage_ok h with ⟨-, rfl⟩ | ⟨i, j, f, page, hi, -⟩
    · rfl
    · simp at hi
  cases hi : (k'.proc c).getReplacementPageIndexPhyMem cfg with
  | none => exact .noVictim hi
  | some i =>
    cases hw : k'.walkpgdir ((k'.proc c).pagesInPhysicalMemory i).pageDirectory
        ((k'.proc c).pagesInPhysicalMemory i).virtualAddress with
    | none => exact .noAddress hi (by simp [getReplacementPageAddressPhyMem, hw])
    | some pte =>
      rcases evictPage_none h hi (walkpgdir_eq_some.mp hw).1 with hnone | ⟨f, j, hfile, hslot, hrefuses⟩
      · exact .noSlot hnone
      · exact .noWrite hfile hslot hrefuses

private theorem EvictionFails.congr (h : EvictionFails cfg k c) (hdirs : k'.dirs = k.dirs)
    (hproc : ∃ m, k'.proc c = { k.proc c with pageFault := m }) : EvictionFails cfg k' c := by
  obtain ⟨m, hproc⟩ := hproc
  cases h with
  | noVictim h => exact .noVictim (by rw [hproc]; exact h)
  | noAddress hi h =>
    refine .noAddress (by rw [hproc]; exact hi) ?_
    rw [hproc]
    unfold getReplacementPageAddressPhyMem walkpgdir at h ⊢
    rw [hdirs]
    exact h
  | noSlot h => exact .noSlot (by rw [hproc]; exact h)
  | noWrite hfile hslot h => exact .noWrite (by rw [hproc]; exact hfile) (by rw [hproc]; exact hslot) h

end Eviction

section NoFrame

private theorem countFault_freeRamIndex :
    ((k.countFault c).proc c).freeRamIndex = (k.proc c).freeRamIndex := by
  simp only [countFault, setProc_proc_self]
  rfl

/-- The kernel after `memset` of a null frame. -/
def clearedPage (k : Kernel) (c : Slot) : Kernel :=
  (k.setMem (pteAddr (k.pte (k.proc c).pgdir 0)) fun _ => 0).countFault c

private theorem memset_null {page : Page} (h : k.memsetPage c none page = .ok k') :
    hasFlag (k.pte (k.proc c).pgdir 0) .P = true ∧ hasFlag (k.pte (k.proc c).pgdir 0) .W = true := by
  unfold memsetPage at h
  simp only [writeUserPage, show vpn 0 = 0 from rfl] at h
  cases hflags : hasFlag (k.pte (k.proc c).pgdir 0) .P && hasFlag (k.pte (k.proc c).pgdir 0) .W with
  | true => simpa using hflags
  | false => simp [hflags] at h

private theorem memset_null_of_writable (hP : hasFlag (k.pte (k.proc c).pgdir 0) .P = true)
    (hW : hasFlag (k.pte (k.proc c).pgdir 0) .W = true) :
    k.memsetPage c none (fun _ => 0) = .ok (k.setMem (pteAddr (k.pte (k.proc c).pgdir 0)) fun _ => 0) := by
  have hzero : (fun i : Fin pgSize => if i.val < pgSize then pageBytes (fun _ => 0) i.val
      else k.mem (pteAddr (k.pte (k.proc c).pgdir 0)) i) = fun _ => 0 := by
    funext i
    simp [pageBytes, i.isLt]
  simp only [memsetPage, writeUserPage, show vpn 0 = 0 from rfl, hP, hW, Bool.and_self, if_true, hzero]

private theorem retrievePage_null (hfree : k.freelist = []) :
    k.retrievePage cfg c a = (do
      let k ← k.memsetPage c none fun _ => 0
      let k := k.countFault c
      match (k.proc c).freeRamIndex with
      | some i => k.retrieveInto c (pgRoundDown a) none i
      | none => k.retrieveSwapping cfg c (pgRoundDown a) none) := by
  have hnone : k.kalloc = (none, k) := by simp only [kalloc, hfree]
  unfold retrievePage
  generalize k.kalloc = r at hnone ⊢
  subst hnone
  rfl

end NoFrame

section Failure

private theorem Evicted.changes {i : Fin maxPyscPages} {j : Fin discPages} {f : SwapFile} {page : Page}
    (h : Evicted cfg note k k' c i j f page) :
    (k'.proc c).pagesInPhysicalMemory ≠ (k.proc c).pagesInPhysicalMemory := by
  intro hram
  have hused := (k.proc c).getReplacementPageIndexPhyMem_used cfg h.victim
  have hfreed : ((k'.proc c).pagesInPhysicalMemory i).isUsed = false := by
    rw [h.result]
    simp [evictedProc]
  rw [hram, hused] at hfreed
  simp at hfreed

private theorem Fetched.refused
    {mem : Option Frame} (h : Fetched cfg c n mem k₀ k' false) (hsame : SameMemory k k')
    (hram : (k₀.proc c).pagesInPhysicalMemory = (k.proc c).pagesInPhysicalMemory)
    (hpgdir : (k₀.proc c).pgdir = (k.proc c).pgdir)
    (hPG : hasFlag (k.pte (k.proc c).pgdir n) .PG = true)
    (hfree : mem = none ∨ k₀.freelist.length < k.freelist.length) :
    (k₀.proc c).freeRamIndex = none ∧ EvictionFails cfg k₀ c ∧ k' = k₀ ∧ mem = none := by
  cases h with
  | noVictim hfull hev =>
    refine ⟨hfull, fails_of_evictPage hev, rfl, ?_⟩
    rcases hfree with hmem | hless
    · exact hmem
    · have hlength := hsame.frames.length_eq
      omega
  | @unread i k₁ j f hroom htable habsent hindex hfile hread =>
    exfalso
    cases hroom with
    | free hslot =>
      rcases hfree with rfl | hless
      · -- the entry of the page is not marked any more
        have hpte := congrFun (congrFun hsame.pte (k.proc c).pgdir) n
        rw [pageIn_pte none htable, hpgdir, setEntry_self] at hpte
        rw [← hpte, hasFlag_pageInPte _ (by simp)] at hPG
        simp at hPG
      · have hlength := hsame.frames.length_eq
        rw [pageIn_freelist] at hlength
        omega
    | evicted hfull hev =>
      apply hev.changes
      rw [hram, ← hsame.ram c, pageIn_proc]

private theorem FailsClean.nothingTaken (h : FailsClean cfg k c a) (ha : a < kernBase)
    (hPG : hasFlag (k.pte (k.proc c).pgdir (a / pgSize)) .PG = true) : NothingTaken cfg k c := by
  obtain ⟨k', hret, hsame⟩ := h
  cases hfree : k.freelist with
  | cons fr rest =>
    exfalso
    obtain ⟨mem, k₀, hready, hfetched⟩ := retrievePage_ok ha hret
    cases hready with
    | @frame fr' rest' hfree' =>
      have hless : ((({ k with freelist := rest' } : Kernel).setMem fr' fun _ => 0).countFault c).freelist.length <
          k.freelist.length := by
        rw [hfree']
        exact Nat.lt_succ_self _
      have hrefused := hfetched.refused hsame (by simp [countFault]) (by simp [countFault]) hPG (.inr hless)
      simp at hrefused
    | null hnil => simp [hfree] at hnil
  | nil =>
    rw [retrievePage_null hfree] at hret
    obtain ⟨k₁, hset, hret⟩ := bind_eq_ok.mp hret
    obtain ⟨hP, hW⟩ := memset_null hset
    rw [memset_null_of_writable hP hW] at hset
    obtain rfl := Except.ok.inj hset
    have hn := page_lt_userPages ha
    rw [pgRoundDown_eq] at hret
    have hfetched : Fetched cfg c (a / pgSize) none (k.clearedPage c) k' false := by
      dsimp only at hret
      split at hret
      · next i hslot => exact retrieveInto_ok hn hslot hret
      · next hfull => exact retrieveSwapping_ok hn hfull hret
    obtain ⟨hfull, hfails, rfl, -⟩ := hfetched.refused hsame (by simp [clearedPage, countFault])
      (by simp [clearedPage, countFault]) hPG (.inl rfl)
    refine ⟨hfree, ?_, ?_, hP, hW, ?_⟩
    · rwa [clearedPage, countFault_freeRamIndex] at hfull
    · exact hfails.congr rfl ⟨(k.proc c).pageFault, by simp [clearedPage, countFault]⟩
    · rw [← hsame.contents (k.proc c).pgdir 0 (by decide) hP]
      simp [clearedPage, countFault]

private theorem NothingTaken.failsClean (h : NothingTaken cfg k c) : FailsClean cfg k c a := by
  have hsame : k.setMem (pteAddr (k.pte (k.proc c).pgdir 0)) (fun _ => 0) = k := by
    rw [← h.zero]
    exact setMem_self
  have hfull : ((k.countFault c).proc c).freeRamIndex = none := by
    rw [countFault_freeRamIndex, h.full]
  have hfails : EvictionFails cfg (k.countFault c) c :=
    h.eviction.congr rfl ⟨(k.proc c).pageFault + 1, by simp [countFault]⟩
  refine ⟨k.countFault c, ?_, ?_⟩
  · rw [retrievePage_null h.frame, memset_null_of_writable h.present h.writable, ok_bind, hsame]
    dsimp only
    rw [hfull]
    simp only [retrieveSwapping, evictPage_of_fails hfails, ok_bind]
    rfl
  · have hproc : ∀ c', ((k.countFault c).proc c').pagesInPhysicalMemory = (k.proc c').pagesInPhysicalMemory ∧
        ((k.countFault c).proc c').pagesInDisc = (k.proc c').pagesInDisc ∧
        ((k.countFault c).proc c').swapFile = (k.proc c').swapFile := by
      intro c'
      by_cases hc : c' = c
      · subst hc
        simp [countFault]
      · simp [countFault, setProc_proc_of_ne hc]
    exact ⟨fun _ => rfl, rfl, fun c' => (hproc c').1, fun c' => (hproc c').2.1, fun c' => (hproc c').2.2,
      fun _ _ _ _ => rfl, .refl _⟩

/-- A page-in that cannot complete leaves no trace exactly when it had no frame to lose, nothing to evict
and a clear page 0 to clear. -/
theorem failed_pagein_clean_iff (ha : a < kernBase) (hPG : k.checkPTForPage (k.proc c).pgdir a = true) :
    (Blocked cfg k c a → FailsClean cfg k c a) ↔ (Blocked cfg k c a → NothingTaken cfg k c) := by
  rw [checkPTForPage_eq, vpn_of_lt ha] at hPG
  constructor
  · exact fun hclean hblocked => (hclean hblocked).nothingTaken ha hPG
  · exact fun hnothing hblocked => (hnothing hblocked).failsClean

/-- A full machine: 15 clear pages in RAM, page 15 out, both tables in use, no frame free. -/
def exhausted : Kernel :=
  { (Solo.full.kernel.setPte (Solo.full.kernel.proc Solo.main).pgdir 15 ptePG).setProc Solo.main
      { Solo.full.kernel.proc Solo.main with
        pagesInDisc := fun j => ⟨(Solo.full.kernel.proc Solo.main).pgdir, true, (15 + j) * pgSize, 0, 0, 0⟩ } with
    freelist := []
    mem := fun _ _ => 0 }

theorem failed_pagein_clean_exhausted :
    (Blocked (Solo.config .FIFO) exhausted Solo.main 61440 →
        FailsClean (Solo.config .FIFO) exhausted Solo.main 61440) ∧
      Blocked (Solo.config .FIFO) exhausted Solo.main 61440 := by
  refine ⟨(failed_pagein_clean_iff (by decide) (by decide +kernel)).mpr fun _ => ?_, .noFrame rfl⟩
  exact ⟨rfl, by decide +kernel, .noSlot (by decide +kernel), by decide +kernel, by decide +kernel, rfl⟩

/-- With both tables full a page-in returns -1, and there is one free frame less. -/
theorem failed_pagein_leaks :
    ¬ ∀ (cfg : Config) (k₀ k : Kernel) (as : List Action) (c : Slot) (a : Nat), Started cfg k₀ →
      Run (SysStep cfg) k₀ as k → k.Active c → a < kernBase →
      k.checkPTForPage (k.proc c).pgdir a = true → Blocked cfg k c a → FailsClean cfg k c a := by
  intro h
  have hend : (([Action.user Solo.main (.growproc 61440)].foldlM (act (Solo.config .FIFO))
      Solo.full.kernel).map fun k => decide (k.Active Solo.main ∧
        k.checkPTForPage (k.proc Solo.main).pgdir 0 = true ∧ (k.proc Solo.main).freeRamIndex = none ∧
        (k.proc Solo.main).getAvailablePageIndexDisk = none) &&
        (match k.retrievePage (Solo.config .FIFO) Solo.main 0 with
          | .ok (k', _) => decide (k'.freelist.length ≠ k.freelist.length)
          | .error _ => false)) = some true := by
    decide +kernel
  obtain ⟨k, hk, hend⟩ := Option.map_eq_some_iff.mp hend
  rw [Bool.and_eq_true] at hend
  obtain ⟨hactive, hpaged, hfull, hslot⟩ := of_decide_eq_true hend.1
  obtain ⟨k', hret, hsame⟩ := h _ _ k _ _ 0 (Solo.full.started (le_refl _)) (.of_foldlM hk) hactive (by decide)
    hpaged (.noRoom hfull (.noSlot hslot))
  rw [hret] at hend
  exact of_decide_eq_true hend.2 hsame.frames.length_eq

end Failure

end Kernel

end OsSessional.Paging
