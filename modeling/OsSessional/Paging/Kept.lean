import OsSessional.Paging.Residence
import Mathlib.Data.Finset.Card
import Mathlib.Data.Fintype.Card

/-!
# Calls and the process table

What each call of the pager leaves of the process table: the pids, the states, who has a swap file.
`allocuvm` evicts for every process, with or without a swap file; a process without one gets along
as long as the pages it adds fit its free RAM slots.
-/

namespace OsSessional.Paging

open Function (update update_self update_of_ne)
open Outcome

namespace Proc

variable {p : Proc} {d : Frame} {va : Nat} {isImportant : Int}

/-- Number of free RAM slots. -/
def freeRam (p : Proc) : Nat :=
  (Finset.univ.filter fun i => (p.pagesInPhysicalMemory i).isUsed = false).card

private theorem freeRamIndex_isSome (h : 0 < p.freeRam) : ∃ i, p.freeRamIndex = some i := by
  obtain ⟨i, hi⟩ := Finset.card_pos.mp h
  cases hidx : p.freeRamIndex with
  | some i => exact ⟨i, rfl⟩
  | none =>
    have hused := p.freeRamIndex_none hidx i
    simp [hused] at hi

private theorem freeRam_track (p : Proc) (d : Frame) (va : Nat) (isImportant : Int) (h : 0 < p.freeRam) :
    (p.updatePhysicalPageMetaData d va isImportant).freeRam + 1 = p.freeRam := by
  obtain ⟨i, hi⟩ := freeRamIndex_isSome h
  have hfree := p.freeRamIndex_free hi
  have hfilter : (Finset.univ.filter fun i' =>
      ((p.updatePhysicalPageMetaData d va isImportant).pagesInPhysicalMemory i').isUsed = false) =
      (Finset.univ.filter fun i' => (p.pagesInPhysicalMemory i').isUsed = false).erase i := by
    ext i'
    simp only [updatePhysicalPageMetaData, hi, Finset.mem_filter, Finset.mem_univ, true_and,
      Finset.mem_erase]
    by_cases hii : i' = i
    · subst hii
      simp
    · simp [hii]
  unfold freeRam at h ⊢
  rw [hfilter, Finset.card_erase_of_mem (by simpa using hfree)]
  omega

end Proc

/-- The error of a swap-file call without a swap file, for a caller who looks out for it. -/
def Slip (w : Prop) (e : Crash) : Prop := w ∧ e = .nullSwapFile

namespace Kernel

variable {w : Prop} {cfg : Config} {k k' k₁ : Kernel} {c : Slot} {d : Frame} {m n : Nat}

/-- What work on the tables of process `c` leaves of the process table. -/
structure Kept (c : Slot) (k k' : Kernel) : Prop where
  other : ∀ c', c' ≠ c → k'.proc c' = k.proc c'
  pid : (k'.proc c).pid = (k.proc c).pid
  state : (k'.proc c).state = (k.proc c).state
  file : (k.proc c).swapFile.isSome = true → (k'.proc c).swapFile.isSome = true
  nextpid : k'.nextpid = k.nextpid

theorem Kept.refl (c : Slot) (k : Kernel) : Kept c k k := ⟨fun _ _ => rfl, rfl, rfl, id, rfl⟩

theorem Kept.trans {k₂ : Kernel} (h : Kept c k k₁) (h' : Kept c k₁ k₂) : Kept c k k₂ where
  other c' hc := (h'.other c' hc).trans (h.other c' hc)
  pid := h'.pid.trans h.pid
  state := h'.state.trans h.state
  file hf := h'.file (h.file hf)
  nextpid := h'.nextpid.trans h.nextpid

private theorem Kept.of_proc (hproc : k'.proc = k.proc) (hnext : k'.nextpid = k.nextpid) :
    Kept c k k' := by
  refine ⟨fun _ _ => ?_, ?_, ?_, ?_, hnext⟩ <;> simp [hproc]

theorem Kept.of_setProc {p : Proc} (hpid : p.pid = (k.proc c).pid) (hstate : p.state = (k.proc c).state)
    (hfile : (k.proc c).swapFile.isSome = true → p.swapFile.isSome = true) : Kept c k (k.setProc c p) where
  other _ hc := setProc_proc_of_ne hc
  pid := by simpa using hpid
  state := by simpa using hstate
  file := by simpa using hfile
  nextpid := rfl

/-- Process `c` has a swap file, or RAM slots for the next `m` pages as far as the frames go. -/
def Ready (w : Prop) (k : Kernel) (c : Slot) (m : Nat) : Prop :=
  w → (k.proc c).swapFile.isSome = true ∨ min m k.freelist.length ≤ (k.proc c).freeRam

private theorem Ready.mono (h : k.Ready w c n) (hle : m ≤ n) : k.Ready w c m := by
  intro hw
  rcases h hw with hfile | hroom
  · exact .inl hfile
  · exact .inr (le_trans (min_le_min_right _ hle) hroom)

private theorem Ready.of_proc (h : Ready w k c m) (hproc : k'.proc = k.proc)
    (hfree : k'.freelist.length ≤ k.freelist.length) : Ready w k' c m := by
  intro hw
  rw [hproc]
  rcases h hw with hfile | hroom
  · exact .inl hfile
  · exact .inr (le_trans (min_le_min_left _ hfree) hroom)

section Shrinking

private theorem kfree_ensures (fr : Frame) :
    Ensures (Slip w) (fun k' => k' = k.freed fr) (k.kfree cfg fr) := by
  unfold kfree
  split
  · exact .error (by simp [Slip])
  · exact .ok rfl

private theorem deallocPage_ensures (a : Nat) (pte : PTE) :
    Ensures (Slip w) (Kept c k) (k.deallocPage cfg c d a pte) := by
  unfold deallocPage
  split
  · split
    · exact .error (by simp [Slip])
    · refine (kfree_ensures _).bind ?_
      rintro k₁ rfl
      have hfreed : Kept c k (k.freed (pteAddr pte)) := .of_proc rfl rfl
      have hremoved : Kept c (k.freed (pteAddr pte)) ((k.freed (pteAddr pte)).setProc c
          (((k.freed (pteAddr pte)).proc c).removePhysicalPageMetaData d a)) := .of_setProc rfl rfl id
      exact .pure ((hfreed.trans hremoved).trans (.of_proc rfl rfl))
  · split
    · have hremoved : Kept c k (k.setProc c ((k.proc c).removeDiscMetaData d a)) := .of_setProc rfl rfl id
      exact .ok (hremoved.trans (.of_proc rfl rfl))
    · exact .ok (.refl c k)

private theorem deallocLoop_ensures (oldsz : Nat) : ∀ (fuel a : Nat) (k : Kernel),
    Ensures (Slip w) (Kept c k) (deallocLoop cfg c d oldsz fuel a k) := by
  intro fuel
  induction fuel with
  | zero => exact fun a k => .ok (.refl c k)
  | succ fuel ih =>
    intro a k
    simp only [deallocLoop]
    split
    · split
      · exact ih _ _
      · refine (deallocPage_ensures _ _).bind ?_
        exact fun k₁ h₁ => (ih _ _).mono fun k₂ h₂ => h₁.trans h₂
    · exact .ok (.refl c k)

private theorem deallocuvm_ensures (oldsz newsz : Nat) :
    Ensures (Slip w) (fun r => Kept c k r.1) (k.deallocuvm cfg c d oldsz newsz) := by
  unfold deallocuvm
  split
  · exact .ok (.refl c k)
  · exact (deallocLoop_ensures _ _ _ _).bind fun k₁ h₁ => .pure h₁

private theorem freeTables_ensures : ∀ (is : List Nat) (k : Kernel),
    Ensures (Slip w) (Kept c k) (freeTables cfg d is k) := by
  intro is
  induction is with
  | nil => exact fun k => .ok (.refl c k)
  | cons i is ih =>
    intro k
    simp only [freeTables]
    split
    · exact ih k
    · refine (kfree_ensures _).bind ?_
      rintro k₁ rfl
      have hfreed : ∀ fr, Kept c k (k.freed fr) := fun _ => .of_proc rfl rfl
      exact (ih _).mono fun k₂ h₂ => (hfreed _).trans h₂

private theorem freevm_ensures : Ensures (Slip w) (Kept c k) (k.freevm cfg c d) := by
  simp only [freevm]
  split
  · exact .error (by simp [Slip])
  · refine (deallocuvm_ensures kernBase 0).bind ?_
    rintro ⟨k₁, sz⟩ h₁
    have htables : Ensures (Slip w) (Kept c k₁) (freeTables cfg d (List.range npdEntries) k₁) :=
      freeTables_ensures _ k₁
    simp only
    refine htables.bind ?_
    intro k₂ h₂
    refine (kfree_ensures d).mono ?_
    rintro k₃ rfl
    exact (h₁.trans h₂).trans (.of_proc rfl rfl)

end Shrinking

section Growing

private theorem writeToSwapFile_ensures
    {va place : Nat} (hfile : w → (k.proc c).swapFile.isSome = true) :
    Ensures (Slip w) (fun r => Kept c k r.1) (k.writeToSwapFile c va place) := by
  unfold writeToSwapFile
  split
  · next hnone =>
    refine .error ?_
    rintro ⟨hw, -⟩
    simp [hnone] at hfile
    exact hfile hw
  · next f hf =>
    split
    · split
      · exact .ok (.refl c k)
      · exact .error (by simp [Slip])
    · exact .ok (.of_setProc rfl rfl (by simp))

private theorem clearPagePhyMem_ensures {va : Nat} {i : Fin maxPyscPages} {pa : Frame} :
    Ensures (Slip w) (Kept c k) (k.clearPagePhyMem cfg c d va i pa) := by
  unfold clearPagePhyMem
  refine (kfree_ensures pa).bind ?_
  rintro k₁ rfl
  have hfreed : Kept c k (k.freed pa) := .of_proc rfl rfl
  have hmarked : Kept c k ((k.freed pa).setRam c i
      { ((k.freed pa).proc c).pagesInPhysicalMemory i with isUsed := false }) :=
    hfreed.trans (.of_setProc rfl rfl id)
  simp only
  split
  · exact .pure hmarked
  · exact .pure (hmarked.trans (.of_proc rfl rfl))

private theorem evictPage_ensures (note : PageData → PageData → PageData)
    (hfile : w → (k.proc c).swapFile.isSome = true) :
    Ensures (Slip w) (fun r => Kept c k r.1) (k.evictPage cfg note c) := by
  unfold evictPage
  split
  · exact .ok (.refl c k)
  · next i hi =>
    simp only
    split
    · exact .ok (.refl c k)
    · split
      · exact .ok (.refl c k)
      · next j hj =>
        refine (writeToSwapFile_ensures hfile).bind ?_
        rintro ⟨k₁, ok⟩ h₁
        simp only
        split
        · have hnoted : Kept c k (k₁.setDisc c j (note ((k.proc c).pagesInPhysicalMemory i)
              ((k₁.proc c).pagesInDisc j))) := h₁.trans (.of_setProc rfl rfl id)
          refine clearPagePhyMem_ensures.bind ?_
          exact fun k₂ h₂ => .pure (hnoted.trans h₂)
        · exact .pure h₁

private theorem placePage_ensures {a : Nat} {isImportant : Int}
    (h : w → (k.proc c).swapFile.isSome = true ∨
      0 < (k.proc c).freeRam ∧ min m k.freelist.length + 1 ≤ (k.proc c).freeRam) :
    Ensures (Slip w) (fun k' => Kept c k k' ∧ Ready w k' c m) (k.placePage cfg c d a isImportant) := by
  have htrack : ∀ k₁ : Kernel, Kept c k₁ (k₁.updatePhysicalPageMetaData c d a isImportant) := by
    intro k₁
    refine .of_setProc ?_ ?_ ?_ <;> unfold Proc.updatePhysicalPageMetaData <;> split <;> simp
  unfold placePage
  split
  · split
    · refine .ok ⟨htrack k, fun hw => ?_⟩
      rcases h hw with hfile | ⟨hpos, hroom⟩
      · exact .inl ((htrack k).file hfile)
      · have hcard := (k.proc c).freeRam_track d a isImportant hpos
        refine .inr ?_
        simp only [updatePhysicalPageMetaData, setProc_proc_self, setProc_freelist]
        omega
    · next hfull =>
      have hfile : w → (k.proc c).swapFile.isSome = true := by
        intro hw
        rcases h hw with hfile | ⟨hpos, -⟩
        · exact hfile
        · obtain ⟨i, hi⟩ := Proc.freeRamIndex_isSome hpos
          simp [Proc.spaceAvialableInMemory, hi] at hfull
      have hcount : Kept c k (k.countFault c) := .of_setProc rfl rfl id
      unfold reallocatePageInDisk
      rw [bind_assoc]
      refine (evictPage_ensures reallocateNote fun hw => hcount.file (hfile hw)).bind ?_
      rintro ⟨k₁, freed⟩ h₁
      simp only [pure_bind]
      have hkept := hcount.trans h₁
      split
      · have htracked := hkept.trans (htrack k₁)
        exact .pure ⟨htracked, fun hw => .inl (htracked.file (hfile hw))⟩
      · exact .pure ⟨hkept, fun hw => .inl (hkept.file (hfile hw))⟩
  · refine .ok ⟨.refl c k, fun hw => ?_⟩
    rcases h hw with hfile | ⟨-, hroom⟩
    · exact .inl hfile
    · exact .inr (by omega)

private theorem mappages_ensures {va : Nat} {pa : Frame} {perm : PTE} :
    Ensures (Slip w) (fun r => ∀ k', r = some k' → k'.proc = k.proc ∧ k'.nextpid = k.nextpid ∧
      k'.freelist.length ≤ k.freelist.length) (k.mappages d va pa perm) := by
  unfold mappages
  split
  · exact .ok (by simp)
  · next k₁ hw =>
    split
    · exact .error (by simp [Slip])
    · refine .ok ?_
      rintro k' ⟨⟩
      have hready := walkpgdirAlloc_some hw
      refine ⟨hready.proc, hready.nextpid, ?_⟩
      rw [setPte_freelist]
      cases hready with
      | there _ => exact le_refl _
      | added hfree _ => simp [addTable, hfree]

private theorem allocLoop_ensures {oldsz newsz : Nat} {isImportant : Int} :
    ∀ (fuel n : Nat) (k : Kernel), Ready w k c (pages newsz - n + m) →
      Ensures (Slip w) (fun r => Kept c k r.1 ∧ (r.2 ≠ 0 → r.2 = newsz ∧ Ready w r.1 c m))
        (allocLoop cfg c d oldsz newsz isImportant fuel (n * pgSize) k) := by
  intro fuel
  induction fuel with
  | zero => exact fun n k h => .ok ⟨.refl c k, fun _ => ⟨rfl, h.mono (by omega)⟩⟩
  | succ fuel ih =>
    intro n k h
    simp only [allocLoop]
    split
    · next hlt =>
      have hpage := lt_pages.mpr hlt
      cases hfree : k.freelist with
      | nil =>
        simp only [kalloc, hfree]
        refine (deallocuvm_ensures newsz oldsz).bind ?_
        exact fun r hr => .pure ⟨hr, by simp⟩
      | cons mem rest =>
        simp only [kalloc, hfree]
        refine mappages_ensures.bind ?_
        intro r hr
        have hkept : Kept c k ({ k with freelist := rest }.setMem mem fun _ => 0) := .of_proc rfl rfl
        cases r with
        | none =>
          simp only
          refine (deallocuvm_ensures newsz oldsz).bind ?_
          rintro ⟨k₁, sz⟩ h₁
          simp only
          refine (kfree_ensures mem).bind ?_
          rintro k₂ rfl
          exact .pure ⟨(hkept.trans h₁).trans (.of_proc rfl rfl), by simp⟩
        | some k₁ =>
          obtain ⟨hproc, hnext, hlen⟩ := hr k₁ rfl
          simp only
          have hkept₁ := hkept.trans (.of_proc hproc hnext)
          refine (placePage_ensures (m := pages newsz - (n + 1) + m) ?_).bind ?_
          · intro hw
            rcases h hw with hfile | hroom
            · exact .inl (hkept₁.file hfile)
            · right
              rw [hproc]
              simp only [hfree, List.length_cons, setMem_freelist, setMem_proc] at hroom hlen ⊢
              omega
          · rintro k₂ ⟨hk₂, hready⟩
            rw [show n * pgSize + pgSize = (n + 1) * pgSize by rw [Nat.add_mul, Nat.one_mul]]
            refine (ih (n + 1) k₂ hready).mono ?_
            exact fun r hr => ⟨(hkept₁.trans hk₂).trans hr.1, hr.2⟩
    · exact .ok ⟨.refl c k, fun _ => ⟨rfl, h.mono (by omega)⟩⟩

private theorem allocuvm_ensures {oldsz newsz : Nat} {isImportant : Int}
    (h : Ready w k c (pages newsz - pages oldsz + m)) :
    Ensures (Slip w) (fun r => Kept c k r.1 ∧
        (r.2 ≠ 0 → newsz < kernBase ∧ r.2 = max oldsz newsz ∧ Ready w r.1 c m))
      (k.allocuvm cfg c d oldsz newsz isImportant) := by
  unfold allocuvm
  split
  · exact .ok ⟨.refl c k, by simp⟩
  · next hge =>
    split
    · exact .ok ⟨.refl c k, fun _ => ⟨by omega, by simp only; omega, h.mono (by omega)⟩⟩
    · split
      · exact .ok ⟨.refl c k, by simp⟩
      · next hle _ =>
        rw [pgRoundUp_eq (by omega)]
        refine (allocLoop_ensures _ _ k h).mono ?_
        rintro ⟨k₁, r⟩ ⟨hkept, hr⟩
        refine ⟨hkept, fun hne => ?_⟩
        obtain ⟨rfl, hready⟩ := hr hne
        exact ⟨by omega, by simp only; omega, hready⟩

private theorem allocuvmInOp_ensures {used oldsz newsz : Nat} {isImportant : Int}
    (h : Ready w k c (pages newsz - pages oldsz + m)) :
    Ensures (Slip w) (fun r => Kept c k r.1 ∧
        (r.2 ≠ 0 → newsz < kernBase ∧ r.2 = max oldsz newsz ∧ Ready w r.1 c m))
      (allocuvmInOp cfg used k c d oldsz newsz isImportant) := by
  rcases @allocuvmInOp_eq cfg used k c d isImportant oldsz newsz with heq | heq
  · rw [heq]
    exact allocuvm_ensures h
  · rw [heq]
    exact .error (by simp [Slip])

end Growing

section Faulting

private theorem memsetPage_ensures {mem : Option Frame} {page : Page} :
    Ensures (Slip w) (Kept c k) (k.memsetPage c mem page) := by
  cases h : k.memsetPage c mem page with
  | ok k' =>
    obtain ⟨fr, pg, rfl, -⟩ := memsetPage_ok h
    exact .ok (.of_proc rfl rfl)
  | error e =>
    refine .error ?_
    rintro ⟨-, rfl⟩
    unfold memsetPage at h
    split at h
    · simp at h
    · split at h
      · simp at h
      · simp at h

private theorem mapPagedIn_ensures {va : Nat} {mem : Option Frame} :
    Ensures (Slip w) (Kept c k) (k.mapPagedIn c va mem) := by
  unfold mapPagedIn
  split
  · exact .error (by simp [Slip])
  · split
    · exact .error (by simp [Slip])
    · exact .ok (.of_proc rfl rfl)

private theorem readFromSwapFile_ensures
    {j : Fin discPages} (hfile : w → (k.proc c).swapFile.isSome = true) :
    Ensures (Slip w) (fun _ => True) (k.readFromSwapFile c j) := by
  unfold readFromSwapFile
  split
  · next hnone =>
    refine .error ?_
    rintro ⟨hw, -⟩
    simp [hnone] at hfile
    exact hfile hw
  · exact .ok trivial

private theorem moveToRam_kept (k : Kernel) (c : Slot) (j : Fin discPages) (i : Fin maxPyscPages) :
    Kept c k (k.moveToRam c j i) := .of_setProc rfl rfl id

private theorem bufferedMove_kept
    (k : Kernel) (c : Slot) (b : Page) (j : Fin discPages) (i : Fin maxPyscPages) :
    Kept c k ({ k with buffer := b }.moveToRam c j i) :=
  (show Kept c k { k with buffer := b } from .of_proc rfl rfl).trans (moveToRam_kept _ c j i)

private theorem retrieveInto_ensures {va : Nat} {mem : Option Frame} {i : Fin maxPyscPages}
    (hfile : w → (k.proc c).swapFile.isSome = true) :
    Ensures (Slip w) (fun r => Kept c k r.1) (k.retrieveInto c va mem i) := by
  unfold retrieveInto
  refine mapPagedIn_ensures.bind ?_
  intro k₁ h₁
  split
  · exact .pure h₁
  · refine (readFromSwapFile_ensures fun hw => h₁.file (hfile hw)).bind ?_
    intro r _
    split
    · exact .pure h₁
    · split
      · exact .error (by simp [Slip])
      · next k₂ hwrite =>
        have h₂ : Kept c k₁ k₂ := by
          simp only [writeUserPage] at hwrite
          split at hwrite
          · obtain rfl := Option.some.inj hwrite
            exact .of_proc rfl rfl
          · simp at hwrite
        exact .pure ((h₁.trans h₂).trans (moveToRam_kept _ _ _ _))

private theorem retrieveSwapping_ensures {va : Nat} {mem : Option Frame}
    (hfile : w → (k.proc c).swapFile.isSome = true) :
    Ensures (Slip w) (fun r => Kept c k r.1) (k.retrieveSwapping cfg c va mem) := by
  unfold retrieveSwapping
  refine (evictPage_ensures retrieveNote hfile).bind ?_
  rintro ⟨k₁, freed⟩ h₁
  cases freed with
  | none => exact .pure h₁
  | some i =>
    simp only
    refine mapPagedIn_ensures.bind ?_
    intro k₂ h₂
    have hkept := h₁.trans h₂
    split
    · refine memsetPage_ensures.bind ?_
      exact fun k₃ h₃ => .pure (hkept.trans h₃)
    · refine (readFromSwapFile_ensures fun hw => hkept.file (hfile hw)).bind ?_
      intro r _
      split
      · exact .pure hkept
      · refine memsetPage_ensures.bind ?_
        intro k₃ h₃
        exact .pure ((hkept.trans (bufferedMove_kept k₂ c _ _ i)).trans h₃)

theorem retrievePage_ensures {cr2 : Nat} (hfile : w → (k.proc c).swapFile.isSome = true) :
    Ensures (Slip w) (fun r => Kept c k r.1) (k.retrievePage cfg c cr2) := by
  have htaken : Kept c k k.kalloc.2 := by
    unfold kalloc
    split
    · exact .refl c k
    · exact .of_proc rfl rfl
  simp only [retrievePage]
  refine memsetPage_ensures.bind ?_
  intro k₁ h₁
  have hready : Kept c k (k₁.countFault c) := (htaken.trans h₁).trans (.of_setProc rfl rfl id)
  split
  · exact (retrieveInto_ensures fun hw => hready.file (hfile hw)).mono fun r hr => hready.trans hr
  · exact (retrieveSwapping_ensures fun hw => hready.file (hfile hw)).mono fun r hr => hready.trans hr

end Faulting

section Copying

private theorem kmapLoop_taken : ∀ (is : List Nat) (k : Kernel), (kmapLoop d is k).1.proc = k.proc ∧
    (kmapLoop d is k).1.nextpid = k.nextpid ∧
    (kmapLoop d is k).1.freelist.length ≤ k.freelist.length := by
  intro is
  induction is with
  | nil => exact fun k => ⟨rfl, rfl, le_refl _⟩
  | cons i is ih =>
    intro k
    simp only [kmapLoop]
    split
    · exact ⟨rfl, rfl, le_refl _⟩
    · next k₁ hw =>
      obtain ⟨hproc, hnext, hlen⟩ := ih k₁
      have hready := walkpgdirAlloc_some hw
      refine ⟨hproc.trans hready.proc, hnext.trans hready.nextpid, le_trans hlen ?_⟩
      cases hready with
      | there _ => exact le_refl _
      | added hfree _ => simp [addTable, hfree]

private theorem setupkvm_ensures (h : Ready w k c m) :
    Ensures (Slip w) (fun r => Kept c k r.2 ∧ (r.1.isSome = true → Ready w r.2 c m)) (k.setupkvm cfg c) := by
  unfold setupkvm
  cases hfree : k.freelist with
  | nil =>
    simp only [kalloc, hfree]
    exact .ok ⟨.of_proc rfl rfl, by simp⟩
  | cons d rest =>
    simp only [kalloc, hfree]
    have htaken := kmapLoop_taken (d := d) kmapEntries (k.newDir d rest)
    have hnew : kmapLoop d kmapEntries { k with
        freelist := rest
        dirs := update k.dirs d { pde := fun _ => none, pte := fun _ => 0 } } =
        kmapLoop d kmapEntries (k.newDir d rest) := rfl
    rw [hnew]
    cases hmap : kmapLoop d kmapEntries (k.newDir d rest) with
    | mk k₁ ok =>
      rw [hmap] at htaken
      obtain ⟨hproc, hnext, hlen⟩ := htaken
      have hkept : Kept c k k₁ := .of_proc hproc hnext
      cases ok with
      | true =>
        refine .ok ⟨hkept, fun _ => ?_⟩
        refine h.of_proc hproc ?_
        simp only [newDir] at hlen
        simp only [hfree, List.length_cons]
        omega
      | false =>
        simp only
        refine freevm_ensures.bind ?_
        exact fun k₂ h₂ => .pure ⟨hkept.trans h₂, by simp⟩

private theorem copyPage_ensures {pgdir : Frame} {a : Nat} :
    Ensures (Slip w) (fun r => Kept c k r.1) (k.copyPage cfg pgdir d a) := by
  unfold copyPage
  split
  · exact .error (by simp [Slip])
  · split
    · split
      · exact .error (by simp [Slip])
      · exact .ok (.of_proc rfl rfl)
    · split
      · exact .error (by simp [Slip])
      · cases hfree : k.freelist with
        | nil =>
          simp only [kalloc, hfree]
          exact .ok (.refl c k)
        | cons mem rest =>
          simp only [kalloc, hfree]
          refine mappages_ensures.bind ?_
          intro r hr
          cases r with
          | none =>
            refine (kfree_ensures mem).bind ?_
            rintro k₁ rfl
            exact .pure (.of_proc rfl rfl)
          | some k₁ =>
            obtain ⟨hproc, hnext, -⟩ := hr k₁ rfl
            exact .pure (.of_proc hproc hnext)

private theorem copyLoop_ensures {pgdir : Frame} {sz : Nat} : ∀ (fuel a : Nat) (k : Kernel),
    Ensures (Slip w) (fun r => Kept c k r.1) (copyLoop cfg pgdir d sz fuel a k) := by
  intro fuel
  induction fuel with
  | zero => exact fun a k => .ok (.refl c k)
  | succ fuel ih =>
    intro a k
    simp only [copyLoop]
    split
    · refine (copyPage_ensures (c := c)).bind ?_
      rintro ⟨k₁, ok⟩ h₁
      simp only
      split
      · exact (ih _ k₁).mono fun r hr => h₁.trans hr
      · exact .pure h₁
    · exact .ok (.refl c k)

private theorem copyuvm_ensures {pgdir : Frame} {sz : Nat} :
    Ensures (Slip w) (fun r => Kept c k r.2) (k.copyuvm cfg c pgdir sz) := by
  unfold copyuvm
  have hready : Ready w k c 0 := fun _ => .inr (by simp)
  refine (setupkvm_ensures hready).bind ?_
  rintro ⟨r, k₁⟩ ⟨h₁, -⟩
  cases r with
  | none => exact .pure h₁
  | some d =>
    simp only
    refine (copyLoop_ensures (c := c) _ 0 k₁).bind ?_
    rintro ⟨k₂, ok⟩ h₂
    simp only
    split
    · exact .pure (h₁.trans h₂)
    · refine freevm_ensures.bind ?_
      exact fun k₃ h₃ => .pure ((h₁.trans h₂).trans h₃)

end Copying

end Kernel

namespace Inode

/-- The reads of `loaduvm` all return what they ask for. -/
def coversLoop (ip : Inode) (offset sz : Nat) : Nat → Nat → Bool
  | 0, _ => true
  | fuel + 1, i =>
    if i < sz then
      match ip.readi ((offset + i) % 2 ^ 32) (min (sz - i) pgSize) with
      | none => false
      | some (m, _) => m == min (sz - i) pgSize && coversLoop ip offset sz fuel (i + pgSize)
    else true

def covers (ip : Inode) (offset sz : Nat) : Bool := ip.coversLoop offset sz (sz / pgSize + 1) 0

/-- The size that a program header with these bytes asks for above `sz` bytes, and whether it passes
all checks of `exec`. -/
def spanSegment (ip : Inode) (bytes : Nat → Byte) (sz : Nat) : Nat × Bool :=
  let ph := Proghdr.ofBytes bytes
  let newsz := (ph.vaddr + ph.memsz) % 2 ^ 32
  if ph.type ≠ elfProgLoad then (sz, true)
  else if ph.memsz < ph.filesz ∨ newsz < ph.vaddr ∨ newsz ≥ kernBase then (sz, false)
  else
    (max sz newsz,
      max sz newsz ≠ 0 ∧ ph.vaddr % pgSize = 0 ∧ ip.covers ph.off ph.filesz = true)

/-- Pages that loading from program header `off` on, with `sz` bytes allocated, and the stack above
ask for, those of the `sz` bytes included. A header that makes `exec` fail ends the count. -/
def spanLoop (ip : Inode) : Nat → Nat → Nat → Nat
  | 0, _, sz => pages sz + 2
  | n + 1, off, sz =>
    match ip.header (off % 2 ^ 32) proghdrSize with
    | none => pages sz
    | some bytes =>
      match ip.spanSegment bytes sz with
      | (sz, true) => spanLoop ip n (off + proghdrSize) sz
      | (sz, false) => pages sz

/-- Pages that `exec` of this file asks for. -/
def span (ip : Inode) : Nat :=
  match ip.header 0 elfhdrSize with
  | none => 0
  | some bytes =>
    let elf := Elfhdr.ofBytes bytes
    if elf.magic ≠ elfMagic then 0 else ip.spanLoop elf.phnum elf.phoff 0

private theorem le_spanSegment (ip : Inode) (bytes : Nat → Byte) (sz : Nat) :
    sz ≤ (ip.spanSegment bytes sz).1 := by
  simp only [spanSegment]
  split
  · exact le_refl _
  · split
    · exact le_refl _
    · exact le_max_left _ _

private theorem pages_le_spanLoop (ip : Inode) : ∀ n off sz, pages sz ≤ ip.spanLoop n off sz := by
  intro n
  induction n with
  | zero =>
    intro off sz
    simp [spanLoop]
  | succ n ih =>
    intro off sz
    simp only [spanLoop]
    split
    · exact le_refl _
    · next bytes _ =>
      have hle := pages_mono (ip.le_spanSegment bytes sz)
      split
      · next sz' heq =>
        rw [heq] at hle
        exact le_trans hle (ih _ _)
      · next sz' heq =>
        rw [heq] at hle
        exact hle

end Inode

namespace Kernel

variable {w : Prop} {cfg : Config} {k k' k₁ : Kernel} {c : Slot} {d : Frame} {m n : Nat}

section Loading

theorem SameButMem.kept (h : SameButMem k k') : Kept c k k' := by
  obtain ⟨mem, rfl⟩ := h
  exact .of_proc rfl rfl

private theorem SameButMem.ready (h : SameButMem k k') (hready : Ready w k c m) : Ready w k' c m := by
  obtain ⟨mem, rfl⟩ := h
  exact hready

private theorem loadLoop_ensures {addr offset sz : Nat} {ip : Inode} : ∀ (fuel i : Nat) (k : Kernel),
    Ensures (Slip w) (fun r => SameButMem k r.1 ∧ (r.2 = true → ip.coversLoop offset sz fuel i = true))
      (loadLoop d addr ip offset sz fuel i k) := by
  intro fuel
  induction fuel with
  | zero => exact fun i k => .ok ⟨.refl k, fun _ => rfl⟩
  | succ fuel ih =>
    intro i k
    simp only [loadLoop, Inode.coversLoop]
    by_cases hlt : i < sz
    · simp only [hlt, if_true]
      cases hw : k.walkpgdir d (addr + i) with
      | none => exact .error (by simp [Slip])
      | some pte =>
        simp only [readPage]
        cases hread : ip.readi ((offset + i) % 2 ^ 32) (min (sz - i) pgSize) with
        | none => exact .ok ⟨.refl k, by simp⟩
        | some r =>
          obtain ⟨m, bytes⟩ := r
          have hpatch := patch_same k (pteAddr pte) 0 m bytes
          by_cases hm : m = min (sz - i) pgSize
          · have hcount : (m == min (sz - i) pgSize) = true := by simpa using hm
            simp only [hcount, Bool.true_and]
            exact (ih _ _).mono fun r hr => ⟨hpatch.trans hr.1, hr.2⟩
          · have hcount : (m == min (sz - i) pgSize) = false := by simpa using hm
            simp only [hcount]
            exact .ok ⟨hpatch, by simp⟩
    · simp only [hlt, if_false]
      exact .ok ⟨.refl k, fun _ => trivial⟩

private theorem loaduvm_ensures {addr offset sz : Nat} {ip : Inode} :
    Ensures (Slip w) (fun r => SameButMem k r.1 ∧ (r.2 = true → ip.covers offset sz = true))
      (k.loaduvm d addr ip offset sz) := by
  unfold loaduvm
  split
  · exact .error (by simp [Slip])
  · exact loadLoop_ensures _ _ k

private theorem uva2ka_ensures (va : Nat) : Ensures (Slip w) (fun _ => True) (k.uva2ka d va) := by
  unfold uva2ka
  split
  · exact .error (by simp [Slip])
  · exact .ok trivial

private theorem fetch_ensures {i len : Nat} {src : Source} :
    Ensures (Slip w) (fun _ => True) (k.fetch d i len src) := by
  unfold fetch
  split
  · split
    · exact .ok trivial
    · exact .error (by simp [Slip])
  · exact .ok trivial

private theorem copyoutLoop_ensures {src : Source} {len : Nat} : ∀ (fuel i va : Nat) (k : Kernel),
    Ensures (Slip w) (fun r => SameButMem k r.1) (copyoutLoop c d src len fuel i va k) := by
  intro fuel
  induction fuel with
  | zero => exact fun i va k => .ok (.refl k)
  | succ fuel ih =>
    intro i va k
    simp only [copyoutLoop]
    split
    · refine (uva2ka_ensures _).bind ?_
      intro r _
      cases r with
      | none => exact .pure (.refl k)
      | some pa0 =>
        refine fetch_ensures.bind ?_
        intro bytes _
        have hpatch := patch_same k pa0 (va - pgRoundDown va)
          (min (pgSize - (va - pgRoundDown va)) (len - i)) bytes
        exact (ih _ _ _).mono fun r hr => hpatch.trans hr
    · exact .ok (.refl k)

private theorem strlenLoop_ensures :
    ∀ (fuel a : Nat), Ensures (Slip w) (fun _ => True) (k.strlenLoop d fuel a) := by
  intro fuel
  induction fuel with
  | zero => exact fun a => .ok trivial
  | succ fuel ih =>
    intro a
    simp only [strlenLoop]
    split
    · exact .error (by simp [Slip])
    · split
      · exact .ok trivial
      · exact (ih (a + 1)).bind fun _ _ => .pure trivial

private theorem pushArgs_ensures : ∀ (argv : List Nat) (sp : Nat) (ustack : List Nat) (k : Kernel),
    Ensures (Slip w) (fun r => SameButMem k r.1) (pushArgs c d argv sp ustack k) := by
  intro argv
  induction argv with
  | nil => exact fun sp ustack k => .ok (.refl k)
  | cons arg argv ih =>
    intro sp ustack k
    simp only [pushArgs]
    split
    · exact .ok (.refl k)
    · refine (strlenLoop_ensures _ _).bind ?_
      intro len _
      refine (copyoutLoop_ensures _ 0 _ k).bind ?_
      rintro ⟨k₁, ok⟩ h₁
      simp only
      split
      · exact (ih _ _ k₁).mono fun r hr => h₁.trans hr
      · exact .pure h₁

private theorem buildStack_ensures {sz : Nat} {argv : List Nat} :
    Ensures (Slip w) (fun r => SameButMem k r.1) (k.buildStack c d sz argv) := by
  unfold buildStack
  refine (pushArgs_ensures argv sz [] k).bind ?_
  rintro ⟨k₁, r⟩ h₁
  cases r with
  | none => exact .pure h₁
  | some r =>
    obtain ⟨sp, args⟩ := r
    exact (copyoutLoop_ensures _ 0 _ k₁).mono fun r hr => h₁.trans hr

theorem loadSegment_ensures {ip : Inode} {used off sz : Nat} {bytes : Nat → Byte}
    (hheader : ip.header off proghdrSize = some bytes)
    (h : Ready w k c (pages (ip.spanSegment bytes sz).1 - pages sz + m)) :
    Ensures (Slip w) (fun r => Kept c k r.1 ∧
        ∀ sz', r.2 = some sz' → ip.spanSegment bytes sz = (sz', true) ∧ Ready w r.1 c m)
      (loadSegment cfg used k c d ip off sz) := by
  simp only [loadSegment, hheader]
  simp only [Inode.spanSegment] at h ⊢
  generalize Proghdr.ofBytes bytes = ph at h ⊢
  by_cases htype : ph.type ≠ elfProgLoad
  · rw [if_pos htype] at h
    rw [if_pos htype, if_pos htype]
    refine .ok ⟨.refl c k, ?_⟩
    intro sz' hsz'
    obtain rfl : sz = sz' := by simpa using hsz'
    exact ⟨rfl, h.mono (by omega)⟩
  · rw [if_neg htype] at h
    rw [if_neg htype, if_neg htype]
    by_cases hfilesz : ph.memsz < ph.filesz
    · rw [if_pos hfilesz]
      exact .ok ⟨.refl c k, by simp⟩
    · rw [if_neg hfilesz]
      by_cases hwrap : (ph.vaddr + ph.memsz) % 2 ^ 32 < ph.vaddr
      · rw [if_pos hwrap]
        exact .ok ⟨.refl c k, by simp⟩
      · rw [if_neg hwrap]
        by_cases hkern : (ph.vaddr + ph.memsz) % 2 ^ 32 ≥ kernBase
        · -- `allocuvm` returns 0 at once
          have halloc : allocuvmInOp cfg used k c d sz ((ph.vaddr + ph.memsz) % 2 ^ 32) 1 = .ok (k, 0) := by
            unfold allocuvmInOp
            rw [if_pos hkern]
          rw [halloc]
          exact .ok ⟨.refl c k, by simp⟩
        · have hpass : ¬ (ph.memsz < ph.filesz ∨ (ph.vaddr + ph.memsz) % 2 ^ 32 < ph.vaddr ∨
              (ph.vaddr + ph.memsz) % 2 ^ 32 ≥ kernBase) := by
            rintro (h1 | h1 | h1)
            · exact hfilesz h1
            · exact hwrap h1
            · exact hkern h1
          rw [if_neg hpass] at h
          rw [if_neg hpass]
          have hgrown : Ready w k c (pages ((ph.vaddr + ph.memsz) % 2 ^ 32) - pages sz + m) := by
            refine h.mono ?_
            have hle := pages_mono (le_max_right sz ((ph.vaddr + ph.memsz) % 2 ^ 32))
            simp only
            omega
          refine (allocuvmInOp_ensures hgrown).bind ?_
          rintro ⟨k₁, sz₁⟩ ⟨h₁, hr⟩
          simp only at hr ⊢
          by_cases hzero : sz₁ = 0
          · rw [if_pos hzero]
            exact .pure ⟨h₁, by simp⟩
          · obtain ⟨-, rfl, hready⟩ := hr hzero
            rw [if_neg hzero]
            by_cases halign : ph.vaddr % pgSize ≠ 0
            · rw [if_pos halign]
              exact .pure ⟨h₁, by simp⟩
            · rw [if_neg halign]
              refine loaduvm_ensures.bind ?_
              rintro ⟨k₂, ok⟩ ⟨h₂, hcovers⟩
              refine .pure ⟨h₁.trans h₂.kept, ?_⟩
              intro sz' hsz'
              cases ok with
              | false => simp at hsz'
              | true =>
                obtain rfl : max sz ((ph.vaddr + ph.memsz) % 2 ^ 32) = sz' := by simpa using hsz'
                refine ⟨?_, h₂.ready hready⟩
                simp only [Prod.mk.injEq, decide_eq_true_eq, true_and]
                exact ⟨hzero, not_not.mp halign, hcovers rfl⟩

private theorem loadSegments_ensures {ip : Inode} {used : Nat} : ∀ (n off sz : Nat) (k : Kernel),
    Ready w k c (ip.spanLoop n off sz - pages sz) →
      Ensures (Slip w) (fun r => Kept c k r.1 ∧ (r.2.isSome = true → Ready w r.1 c 2))
        (loadSegments cfg used c d ip n off sz k) := by
  intro n
  induction n with
  | zero => exact fun off sz k h => .ok ⟨.refl c k, fun _ => h.mono (by simp [Inode.spanLoop])⟩
  | succ n ih =>
    intro off sz k h
    simp only [loadSegments, Inode.spanLoop] at h ⊢
    cases hheader : ip.header (off % 2 ^ 32) proghdrSize with
    | none =>
      simp only [loadSegment, hheader]
      exact .ok ⟨.refl c k, by simp⟩
    | some bytes =>
      have hle := pages_mono (ip.le_spanSegment bytes sz)
      simp only [hheader] at h
      cases hspan : ip.spanSegment bytes sz with
      | mk sz₁ goes =>
        rw [hspan] at hle
        simp only [hspan] at h
        cases goes with
        | true =>
          have hrest := ip.pages_le_spanLoop n (off + proghdrSize) sz₁
          refine (loadSegment_ensures (m := ip.spanLoop n (off + proghdrSize) sz₁ - pages sz₁) hheader ?_).bind ?_
          · rw [hspan]
            exact h.mono (by simp only at hle ⊢; omega)
          · rintro ⟨k₁, r⟩ ⟨h₁, hr⟩
            cases r with
            | none => exact .pure ⟨h₁, by simp⟩
            | some sz' =>
              obtain ⟨heq, hready⟩ := hr sz' rfl
              obtain rfl : sz₁ = sz' := by rw [hspan] at heq; simpa using heq
              exact (ih _ _ k₁ hready).mono fun r hr => ⟨h₁.trans hr.1, hr.2⟩
        | false =>
          refine (loadSegment_ensures (m := 0) hheader ?_).bind ?_
          · rw [hspan]
            exact h
          · rintro ⟨k₁, r⟩ ⟨h₁, hr⟩
            cases r with
            | none => exact .pure ⟨h₁, by simp⟩
            | some sz' =>
              obtain ⟨heq, -⟩ := hr sz' rfl
              rw [hspan] at heq
              simp at heq

private theorem clearpteuPage_ensures {uva : Nat} :
    Ensures (Slip w) (Kept c k) (k.clearpteuPage d uva) := by
  unfold clearpteuPage
  split
  · exact .error (by simp [Slip])
  · exact .ok (.of_proc rfl rfl)

private theorem pages_add_pgSize (sz : Nat) : pages (sz + pgSize) = pages sz + 1 := by
  simp only [pages, pgSize]
  omega

private theorem allocStack_ensures {sz : Nat} (h : Ready w k c 2) :
    Ensures (Slip w) (fun r => Kept c k r.1) (k.allocStack cfg c d sz) := by
  have hone : ∀ sz m, pages (sz + pgSize) - pages sz + m = 1 + m := by
    intro sz m
    rw [pages_add_pgSize]
    omega
  simp only [allocStack]
  refine (allocuvm_ensures (m := 1) (by rw [hone]; exact h)).bind ?_
  rintro ⟨k₁, sz₁⟩ ⟨h₁, hr⟩
  simp only at hr ⊢
  by_cases hzero : sz₁ = 0
  · rw [if_pos hzero]
    exact .pure h₁
  · obtain ⟨-, -, hready⟩ := hr hzero
    rw [if_neg hzero]
    refine (allocuvm_ensures (m := 0) (by rw [hone]; exact hready)).bind ?_
    rintro ⟨k₂, sz₂⟩ ⟨h₂, -⟩
    simp only
    split
    · exact .pure (h₁.trans h₂)
    · refine (clearpteuPage_ensures (c := c)).bind ?_
      exact fun k₃ h₃ => .pure ((h₁.trans h₂).trans h₃)

private theorem buildImage_ensures {ip : Inode} {elf : Elfhdr} {argv : List Nat}
    (h : Ready w k c (ip.spanLoop elf.phnum elf.phoff 0)) :
    Ensures (Slip w) (fun r => Kept c k r.1) (k.buildImage cfg c d ip elf argv) := by
  unfold buildImage
  refine (loadSegments_ensures elf.phnum elf.phoff 0 k (h.mono (by omega))).bind ?_
  rintro ⟨k₁, r⟩ ⟨h₁, hready⟩
  cases r with
  | none => exact .pure h₁
  | some sz =>
    simp only
    refine (allocStack_ensures (hready rfl)).bind ?_
    rintro ⟨k₂, r⟩ h₂
    cases r with
    | none => exact .pure (h₁.trans h₂)
    | some sz =>
      simp only
      refine buildStack_ensures.bind ?_
      exact fun r hr => .pure ((h₁.trans h₂).trans hr.kept)

private theorem commit_ensures {sz path : Nat} :
    Ensures (Slip w) (Kept c k) (k.commit cfg c d sz path) := by
  simp only [commit]
  refine (strlenLoop_ensures _ _).bind ?_
  intro len _
  have hset : Kept c k (k.setProc c { k.proc c with pgdir := d, sz := sz }) := .of_setProc rfl rfl id
  refine freevm_ensures.mono ?_
  intro k₁ h₁
  split at h₁
  · have hnew : Kept c k (((k.setProc c { k.proc c with pgdir := d, sz := sz }).removeSwapFile c).createSwapFile c) := by
      simp only [removeSwapFile, createSwapFile, setSwapFile, setProc_setProc, setProc_proc_self]
      exact .of_setProc rfl rfl (by simp)
    exact hnew.trans h₁
  · exact hset.trans h₁

/-- `exec` by a process that is ready for the pages of the file. -/
theorem exec_ensures {path : Nat} {ip : Option Inode} {argv : List Nat}
    (h : ∀ f, ip = some f → Ready w k c f.span) :
    Ensures (Slip w) (fun r => Kept c k r.1) (k.exec cfg c path ip argv) := by
  cases ip with
  | none => exact .ok (.refl c k)
  | some ip =>
    have hready := h ip rfl
    simp only [exec, Inode.span] at hready ⊢
    cases hheader : ip.header 0 elfhdrSize with
    | none => exact .ok (.refl c k)
    | some bytes =>
      simp only [hheader] at hready ⊢
      split at hready
      · next hmagic =>
        rw [if_pos hmagic]
        exact .ok (.refl c k)
      · next hmagic =>
        rw [if_neg hmagic]
        refine (setupkvm_ensures hready).bind ?_
        rintro ⟨r, k₁⟩ ⟨h₁, hready₁⟩
        cases r with
        | none => exact .pure h₁
        | some d =>
          simp only
          refine (buildImage_ensures (hready₁ rfl)).bind ?_
          rintro ⟨k₂, r⟩ h₂
          cases r with
          | none =>
            simp only
            refine freevm_ensures.bind ?_
            exact fun k₃ h₃ => .pure ((h₁.trans h₂).trans h₃)
          | some sz =>
            simp only
            refine commit_ensures.bind ?_
            exact fun k₃ h₃ => .pure ((h₁.trans h₂).trans h₃)

end Loading

section Calls

/-- Pages that `growproc(x)` asks for. -/
def pagesAsked (k : Kernel) (c : Slot) (x : Int) : Nat :=
  let newsz := (((k.proc c).sz + x) % 2 ^ 32).toNat
  if x > 0 ∧ newsz < kernBase then pages newsz - pages (k.proc c).sz else 0

theorem growproc_ensures {x : Int} (h : Ready w k c (k.pagesAsked c x)) :
    Ensures (Slip w) (fun r => Kept c k r.1) (k.growproc cfg c x) := by
  have hresult : ∀ (k₁ : Kernel) (sz : Nat), Kept c k k₁ → Ensures (Slip w) (fun r => Kept c k r.1)
      (if x ≠ 0 ∧ sz = 0 then pure (k₁, false)
        else pure (k₁.setProc c { k₁.proc c with sz := sz }, true) : Except Crash (Kernel × Bool)) := by
    intro k₁ sz h₁
    split
    · exact .pure h₁
    · exact .pure (h₁.trans (.of_setProc rfl rfl id))
  simp only [growproc]
  split
  · next hpos =>
    by_cases hkern : (((k.proc c).sz + x) % 2 ^ 32).toNat < kernBase
    · simp only [pagesAsked, hpos, hkern, and_self, if_true] at h
      refine (allocuvm_ensures (m := 0) h).bind ?_
      exact fun r hr => hresult r.1 r.2 hr.1
    · have halloc : ∀ d, k.allocuvm cfg c d (k.proc c).sz (((k.proc c).sz + x) % 2 ^ 32).toNat 0 =
          .ok (k, 0) := by
        intro d
        unfold allocuvm
        rw [if_pos (by omega)]
      rw [halloc]
      exact hresult k 0 (.refl c k)
  · split
    · refine (deallocuvm_ensures _ _).bind ?_
      exact fun r hr => hresult r.1 r.2 hr
    · exact hresult k _ (.refl c k)

theorem exit_error {e : Crash} (h : k.exit c = .error e) : ¬ Slip w e := by
  unfold exit at h
  split at h
  · obtain rfl := Except.error.inj h
    simp [Slip]
  · simp at h

/-- A page fault of a process that has a swap file, or at a page that is not paged out: the page is
brought in, or the process killed. -/
theorem trap_ensures {cr2 : Nat}
    (hfile : w → (k.proc c).swapFile.isSome = true ∨
      hasFlag (k.pte (k.proc c).pgdir (vpn cr2)) .PG = false) :
    Ensures (Slip w) (fun k' => ∃ k₁, Kept c k k₁ ∧ (k' = k₁ ∨ k₁.exit c = .ok k'))
      (k.trap cfg c 3 cr2) := by
  have hend : ∀ (k₁ : Kernel) (serviced : Bool), Kept c k k₁ →
      Ensures (Slip w) (fun k' => ∃ k₁, Kept c k k₁ ∧ (k' = k₁ ∨ k₁.exit c = .ok k'))
      (if serviced = true then pure k₁
        else (k₁.setProc c { k₁.proc c with killed := true }).exit c : Except Crash Kernel) := by
    intro k₁ serviced h₁
    split
    · exact .pure ⟨k₁, h₁, .inl rfl⟩
    · have hkilled : Kept c k (k₁.setProc c { k₁.proc c with killed := true }) :=
        h₁.trans (.of_setProc rfl rfl id)
      cases hexit : (k₁.setProc c { k₁.proc c with killed := true }).exit c with
      | ok k' => exact .ok ⟨_, hkilled, .inr hexit⟩
      | error e => exact .error (exit_error hexit)
  simp only [trap, true_and, checkPTForPage_eq]
  split
  · next hPG =>
    have hsome : w → (k.proc c).swapFile.isSome = true := by
      intro hw
      rcases hfile hw with hfile | hfile
      · exact hfile
      · simp [hPG] at hfile
    refine (retrievePage_ensures hsome).bind ?_
    exact fun r hr => hend r.1 r.2 hr
  · exact hend k false (.refl c k)

private theorem updateAge_ensures (k : Kernel) (i : Fin maxPyscPages) :
    Ensures (Slip w) (Kept c k) (updateAge c k i) := by
  simp only [updateAge]
  split
  · split
    · exact .error (by simp [Slip])
    · next pte hw =>
      split
      · have hcleared : ∀ v : PTE, Kept c k (k.setPte ((k.proc c).pagesInPhysicalMemory i).pageDirectory
            (vpn ((k.proc c).pagesInPhysicalMemory i).virtualAddress) v) := fun _ => .of_proc rfl rfl
        exact .ok ((hcleared _).trans (.of_setProc rfl rfl id))
      · exact .ok (.refl c k)
  · exact .ok (.refl c k)

private theorem allocproc_none (h : k.allocproc = (none, k')) :
    k' = k ∨ ∃ np p, (k.proc np).state = .UNUSED ∧ p.state = .UNUSED ∧
      k' = { k with nextpid := k.nextpid + 1 }.setProc np p := by
  unfold allocproc at h
  split at h
  · exact .inl (Prod.mk.inj h).2.symm
  · next np hslot =>
    simp only at h
    split at h
    · next k₁ halloc =>
      obtain ⟨-, rfl⟩ := kalloc_none halloc
      have hunused : (k.proc np).state = .UNUSED := by simpa using Scan.first_spec hslot
      refine .inr ⟨np, { k.proc np with pid := k.nextpid, kstack := none, state := .UNUSED }, hunused,
        rfl, ?_⟩
      rw [← (Prod.mk.inj h).2]
      simp [setProc]
    · simp at h

private theorem copySwapFile_ensures {np : Slot}
    (h : w → 2 < (k.proc c).pid →
      (k.proc c).swapFile.isSome = true ∧ (k.proc np).swapFile.isSome = true) :
    Ensures (Slip w) (fun k' => ∃ f, k' = k.setSwapFile np f ∧
      ((k.proc np).swapFile.isSome = true → f.isSome = true)) (k.copySwapFile c np) := by
  unfold copySwapFile
  split
  · next hpid =>
    split
    · exact .ok ⟨_, rfl, by simp⟩
    · next hnone =>
      refine .error ?_
      rintro ⟨hw, -⟩
      obtain ⟨hparent, hchild⟩ := h hw hpid
      obtain ⟨f, hf⟩ := Option.isSome_iff_exists.mp hparent
      obtain ⟨g, hg⟩ := Option.isSome_iff_exists.mp hchild
      exact hnone f g hf hg
  · exact .ok ⟨(k.proc np).swapFile, (setSwapFile_self rfl).symm, id⟩

/-- What a call leaves of the processes outside slot `np`. -/
structure Spares (np : Slot) (k k' : Kernel) : Prop where
  pid : ∀ c, c ≠ np → (k'.proc c).pid = (k.proc c).pid
  state : ∀ c, c ≠ np → (k'.proc c).state = (k.proc c).state
  file : ∀ c, c ≠ np → (k.proc c).swapFile.isSome = true → (k'.proc c).swapFile.isSome = true

private theorem Spares.trans {np : Slot} {k₂ : Kernel} (h : Spares np k k₁) (h' : Spares np k₁ k₂) :
    Spares np k k₂ where
  pid c hc := (h'.pid c hc).trans (h.pid c hc)
  state c hc := (h'.state c hc).trans (h.state c hc)
  file c hc hf := h'.file c hc (h.file c hc hf)

private theorem Spares.of_other {np : Slot} (h : ∀ c, c ≠ np → k'.proc c = k.proc c) :
    Spares np k k' where
  pid c hc := by rw [h c hc]
  state c hc := by rw [h c hc]
  file c hc hf := by rwa [h c hc]

theorem Kept.spares (h : Kept c k k') (np : Slot) : Spares np k k' where
  pid c' _ := by
    by_cases hc : c' = c
    · rw [hc, h.pid]
    · rw [h.other c' hc]
  state c' _ := by
    by_cases hc : c' = c
    · rw [hc, h.state]
    · rw [h.other c' hc]
  file c' _ hf := by
    by_cases hc : c' = c
    · rw [hc] at hf ⊢
      exact h.file hf
    · rwa [h.other c' hc]

/-- The ways `fork` may end. -/
inductive ForkEnd (k : Kernel) : Kernel × Option Slot → Prop
  | noSlot : ForkEnd k (k, none)
  | failed {np : Slot} {k' : Kernel} (hunused : (k.proc np).state = .UNUSED) (hother : Spares np k k')
      (hstate : (k'.proc np).state = .UNUSED) (hnext : k'.nextpid = k.nextpid + 1) :
      ForkEnd k (k', none)
  | born {np : Slot} {k' : Kernel} (hunused : (k.proc np).state = .UNUSED) (hother : Spares np k k')
      (hstate : (k'.proc np).state = .RUNNABLE) (hpid : (k'.proc np).pid = k.nextpid)
      (hfile : 2 < k.nextpid → (k'.proc np).swapFile.isSome = true)
      (hnext : k'.nextpid = k.nextpid + 1) : ForkEnd k (k', some np)

/-- A caller that pages to a swap file finds one in the child. -/
theorem fork_ensures (hc : (k.proc c).state ≠ .UNUSED)
    (h : w → 2 < (k.proc c).pid → (k.proc c).swapFile.isSome = true ∧ 2 < k.nextpid) :
    Ensures (Slip w) (ForkEnd k) (k.fork cfg c) := by
  unfold fork
  cases halloc : k.allocproc with
  | mk r k₁ =>
    cases r with
    | none =>
      simp only
      rcases allocproc_none halloc with rfl | ⟨np, p, hunused, hp, rfl⟩
      · exact .ok .noSlot
      · refine .ok (.failed hunused (.of_other ?_) (by simpa using hp) rfl)
        exact fun c' hc' => setProc_proc_of_ne hc'
    | some np =>
      simp only
      obtain ⟨hunused, stack, rest, hfree, rfl⟩ := allocproc_some halloc
      have hne : c ≠ np := by
        rintro rfl
        exact hc hunused
      have hstart : Spares np k ({ k with freelist := rest, nextpid := k.nextpid + 1 }.setProc np
          (k.freshProc np stack)) := .of_other fun c' hc' => setProc_proc_of_ne hc'
      refine (copyuvm_ensures (c := c)).bind ?_
      intro r hk
      obtain ⟨r, k₂⟩ := r
      have hcopied := hstart.trans (hk.spares np)
      have hchild : k₂.proc np = k.freshProc np stack := by
        rw [hk.other np (Ne.symm hne)]
        simp
      have hcount : k₂.nextpid = k.nextpid + 1 := hk.nextpid
      have hset : ∀ (k₃ : Kernel) (p : Proc), k₃.proc = k₂.proc → Spares np k (k₃.setProc np p) := by
        intro k₃ p hproc
        refine hcopied.trans (.of_other fun c' hc' => ?_)
        rw [setProc_proc_of_ne hc', hproc]
      cases r with
      | none =>
        simp only
        split
        · exact .pure (.failed hunused (hset k₂ _ rfl) (by simp) hcount)
        · refine (kfree_ensures _).bind ?_
          rintro k₃ rfl
          exact .pure (.failed hunused (hset _ _ rfl) (by simp) hcount)
      | some d =>
        simp only
        have hfile : 2 < k.nextpid → (k₂.proc np).swapFile.isSome = true := by
          intro hlt
          simp [hchild, freshProc, Proc.clearMetaData, hlt]
        have hpid : (k₂.proc np).pid = k.nextpid := by rw [hchild]; rfl
        refine (copySwapFile_ensures ?_).bind ?_
        · rw [setProc_proc_of_ne hne, setProc_proc_self, hcopied.pid c hne]
          intro hw hlt
          obtain ⟨hparent, hnext⟩ := h hw hlt
          exact ⟨hcopied.file c hne hparent, hfile hnext⟩
        · rintro k₃ ⟨f, rfl, hf⟩
          simp only [setProc_proc_self] at hf
          simp only [setSwapFile, setProc_setProc, setProc_proc_self]
          refine .pure (.born hunused (hset k₂ _ rfl) (by simp) (by simpa using hpid) ?_ hcount)
          simpa using fun hlt => hf (hfile hlt)

/-- `exit` turns the process into a zombie. -/
theorem exit_spares (h : k.exit c = .ok k') : Spares c k k' ∧ (k'.proc c).state = .ZOMBIE ∧
    (k'.proc c).pid = (k.proc c).pid ∧ k'.nextpid = k.nextpid := by
  rw [exit_ok h]
  refine ⟨.of_other fun c' hc' => setProc_proc_of_ne hc', ?_, ?_, rfl⟩ <;>
    rw [setProc_proc_self] <;> rfl

/-- `wait` frees the slot of the child. -/
theorem wait_ensures {p : Slot} : Ensures (Slip w) (fun k' => Spares p k k' ∧
    (k'.proc p).state = .UNUSED ∧ k'.nextpid = k.nextpid) (k.wait cfg c p) := by
  simp only [wait]
  unfold kfreeStack
  split
  · exact .error (by simp [Slip])
  · refine (kfree_ensures _).bind ?_
    rintro k₁ rfl
    refine (freevm_ensures (c := c)).bind ?_
    intro k₂ hk
    refine .pure ⟨?_, by simp [Proc.clearMetaData], hk.nextpid⟩
    have hstack : ∀ fr, Spares p k ((k.freed fr).setProc p { (k.freed fr).proc p with kstack := none }) :=
      fun fr => .of_other fun c' hc' => setProc_proc_of_ne hc'
    refine ((hstack _).trans (hk.spares p)).trans (.of_other fun c' hc' => ?_)
    rw [setProc_proc_of_ne hc', setProc_proc_of_ne hc']

/-- A timer interrupt works on the tables of one process after the other. -/
theorem tick_ensures {P : Kernel → Prop} (hP : ∀ k k' c, P k → Kept c k k' → P k') (h : P k) :
    Ensures (Slip w) P k.updateAgeForAllProcess := by
  refine Ensures.foldlM ?_ _ h
  intro k₁ c h₁
  split
  · refine Ensures.foldlM ?_ _ h₁
    exact fun k₂ i h₂ => (updateAge_ensures k₂ i).mono fun k₃ h₃ => hP k₂ k₃ c h₂ h₃
  · exact .ok h₁

end Calls

end Kernel

end OsSessional.Paging
