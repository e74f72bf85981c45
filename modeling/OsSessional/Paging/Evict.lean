import OsSessional.Lib.Outcome
import OsSessional.Paging.Space

/-!
# What an eviction does

One statement for the eviction that `reallocatePageInDisk` and `retrievePage` share: either the
state is unchanged, or the victim's page is in its disc slot, its frame is free and its entry is
marked `PTE_PG`.
-/

namespace OsSessional.Paging

open Function (update)

theorem slot_in_file (j : Fin discPages) : pgSize * j + pgSize ≤ maxFile * bSize := by
  have hj : j.val < 15 := j.isLt
  simp only [pgSize, maxFile, bSize, nDirect, nIndirect]
  omega

/-- The swap file takes the write of a page unless its slot lies behind the end of the file. -/
theorem refuses_slot (f : SwapFile) (j : Fin discPages) :
    f.refuses (pgSize * j) pgSize = decide (f.size < pgSize * j) := by
  have hmax := slot_in_file j
  have hbig : maxFile * bSize < 2 ^ 32 := by decide
  have hchunk : min pgSize SwapFile.chunk ≤ pgSize := Nat.min_le_left _ _
  unfold SwapFile.refuses SwapFile.writei
  by_cases h : f.size < pgSize * j
  · simp [h]
  · rw [if_neg (by omega), if_neg (by omega)]
    simp [h]

namespace Kernel

open Outcome

variable {cfg : Config} {k k' : Kernel} {c : Slot}

theorem setSwapFile_self {f : Option SwapFile} (h : (k.proc c).swapFile = f) :
    k.setSwapFile c f = k := by
  subst h
  exact setProc_self

private theorem writeToSwapFile_ok {va : Nat} {j : Fin discPages} {ok : Bool}
    (h : k.writeToSwapFile c va (pgSize * j) = .ok (k', ok)) :
    (ok = false ∧ k' = k) ∨
    (ok = true ∧ ∃ f page, (k.proc c).swapFile = some f ∧ pgSize * j ≤ f.size ∧
      k.userPage (k.proc c).pgdir va = some page ∧
      k' = k.setSwapFile c (some (f.overlay (pageBytes page) (pgSize * j) pgSize))) := by
  unfold writeToSwapFile at h
  split at h
  · simp at h
  · next f hf =>
    split at h
    · split at h
      · left
        simpa [eq_comm, and_comm] using h
      · simp at h
    · next page hpage =>
      by_cases hroom : pgSize * j ≤ f.size
      · right
        rw [SwapFile.filewrite_eq f _ (by decide) hroom (slot_in_file j)] at h
        simp only [Except.ok.injEq, Prod.mk.injEq] at h
        exact ⟨h.2.symm, f, page, hf, hroom, hpage, h.1.symm⟩
      · left
        rw [SwapFile.filewrite_refused f _ (by decide) (by omega)] at h
        simp only [setSwapFile_self hf, Except.ok.injEq, Prod.mk.injEq] at h
        exact ⟨h.2.symm, h.1.symm⟩

/-- The process after RAM slot `i` went out to disc slot `j`. -/
def evictedProc (note : PageData → PageData → PageData) (p : Proc) (i : Fin maxPyscPages)
    (j : Fin discPages) (f : SwapFile) : Proc :=
  { p with
    swapFile := some f
    pagesInDisc := update p.pagesInDisc j (note (p.pagesInPhysicalMemory i) (p.pagesInDisc j))
    pagesInPhysicalMemory :=
      update p.pagesInPhysicalMemory i { p.pagesInPhysicalMemory i with isUsed := false } }

/-- The state an eviction leaves: slot `i` out to slot `j` of the file `f`, which now holds the
bytes of `page`. -/
structure Evicted (cfg : Config) (note : PageData → PageData → PageData) (k k' : Kernel)
    (c : Slot) (i : Fin maxPyscPages) (j : Fin discPages) (f : SwapFile) (page : Page) : Prop where
  victim : (k.proc c).getReplacementPageIndexPhyMem cfg = some i
  slot : (k.proc c).getAvailablePageIndexDisk = some j
  swapFile : (k.proc c).swapFile = some f
  room : pgSize * j ≤ f.size
  source : k.userPage (k.proc c).pgdir ((k.proc c).pagesInPhysicalMemory i).virtualAddress =
    some page
  table : k.hasTable ((k.proc c).pagesInPhysicalMemory i).pageDirectory
    (vpn ((k.proc c).pagesInPhysicalMemory i).virtualAddress) = true
  valid : ValidFrame cfg (pteAddr (k.pte ((k.proc c).pagesInPhysicalMemory i).pageDirectory
    (vpn ((k.proc c).pagesInPhysicalMemory i).virtualAddress)))
  result : k' =
    (((k.freed (pteAddr (k.pte ((k.proc c).pagesInPhysicalMemory i).pageDirectory
        (vpn ((k.proc c).pagesInPhysicalMemory i).virtualAddress)))).setProc c
      (evictedProc note (k.proc c) i j (f.overlay (pageBytes page) (pgSize * j) pgSize))).setPte
      ((k.proc c).pagesInPhysicalMemory i).pageDirectory
      (vpn ((k.proc c).pagesInPhysicalMemory i).virtualAddress)
      (pageOutPte (k.pte ((k.proc c).pagesInPhysicalMemory i).pageDirectory
        (vpn ((k.proc c).pagesInPhysicalMemory i).virtualAddress))))

private theorem getReplacementPageAddressPhyMem_some {d pa : Frame} {va : Nat}
    (h : k.getReplacementPageAddressPhyMem d va = some pa) :
    k.hasTable d (vpn va) = true ∧ pa = pteAddr (k.pte d (vpn va)) := by
  obtain ⟨q, hq, rfl⟩ := Option.map_eq_some_iff.mp h
  obtain ⟨ht, rfl⟩ := walkpgdir_eq_some.mp hq
  exact ⟨ht, rfl⟩

private theorem clearPagePhyMem_ok {d pa : Frame} {va : Nat} {i : Fin maxPyscPages}
    (h : k.clearPagePhyMem cfg c d va i pa = .ok k') (htable : k.hasTable d (vpn va) = true) :
    ValidFrame cfg pa ∧ k' = ((k.freed pa).setRam c i
      { (k.proc c).pagesInPhysicalMemory i with isUsed := false }).setPte d (vpn va)
        (pageOutPte (k.pte d (vpn va))) := by
  obtain ⟨k₁, hfree, h⟩ := bind_eq_ok.mp h
  obtain ⟨hvalid, rfl⟩ := kfree_ok hfree
  have hwalk : ((k.freed pa).setRam c i { (k.proc c).pagesInPhysicalMemory i with
      isUsed := false }).walkpgdir d va = some (k.pte d (vpn va)) :=
    walkpgdir_eq_some.mpr ⟨htable, rfl⟩
  simp only [freed_proc, hwalk, pure_eq_ok] at h
  exact ⟨hvalid, h.symm⟩

theorem evictPage_ok {note : PageData → PageData → PageData} {r : Option (Fin maxPyscPages)}
    (h : k.evictPage cfg note c = .ok (k', r)) :
    (r = none ∧ k' = k) ∨ ∃ i j f page, r = some i ∧ Evicted cfg note k k' c i j f page := by
  unfold evictPage at h
  cases hi : (k.proc c).getReplacementPageIndexPhyMem cfg with
  | none => left; simpa [hi, eq_comm, and_comm] using h
  | some i =>
    simp only [hi] at h
    cases hpa : k.getReplacementPageAddressPhyMem ((k.proc c).pagesInPhysicalMemory i).pageDirectory
        ((k.proc c).pagesInPhysicalMemory i).virtualAddress with
    | none => left; simpa [hpa, eq_comm, and_comm] using h
    | some pa =>
      simp only [hpa] at h
      cases hj : (k.proc c).getAvailablePageIndexDisk with
      | none => left; simpa [hj, eq_comm, and_comm] using h
      | some j =>
        simp only [hj, bind_eq_ok] at h
        obtain ⟨⟨k₁, ok⟩, hwrite, h⟩ := h
        obtain ⟨htable, rfl⟩ := getReplacementPageAddressPhyMem_some hpa
        rcases writeToSwapFile_ok hwrite with ⟨rfl, rfl⟩ | ⟨rfl, f, page, hf, hroom, hpage, rfl⟩
        · left
          obtain ⟨rfl, rfl⟩ : k₁ = k' ∧ none = r := by simpa using h
          exact ⟨rfl, rfl⟩
        · right
          simp only [if_true, bind_eq_ok] at h
          obtain ⟨k₂, hclear, h⟩ := h
          obtain ⟨rfl, rfl⟩ : k₂ = k' ∧ some i = r := by simpa using h
          obtain ⟨hvalid, rfl⟩ := clearPagePhyMem_ok hclear htable
          refine ⟨i, j, f, page, rfl, hi, hj, hf, hroom, hpage, htable, hvalid, ?_⟩
          simp [setDisc, setSwapFile, setRam, evictedProc, freed, setMem, setProc, setPte]
          rfl

end Kernel

end OsSessional.Paging
