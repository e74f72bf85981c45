import OsSessional.Paging.Evict
import OsSessional.Paging.Start

/-!
# What an eviction saves

The frame an eviction frees is looked up in the directory of the victim's entry, the bytes it stores
are read through the directory in CR3. While a process evicts its own pages both are the same page;
while `exec` fills a new directory they need not be.
-/

namespace OsSessional.Paging

open Function (update update_self update_of_ne)
open Outcome

namespace Kernel

variable {cfg : Config} {k k' : Kernel} {c : Slot} {i : Fin maxPyscPages} {j : Fin discPages}

/-- The frame of the page RAM slot `i` names. -/
def victimFrame (k : Kernel) (c : Slot) (i : Fin maxPyscPages) : Frame :=
  pteAddr (k.pte ((k.proc c).pagesInPhysicalMemory i).pageDirectory
    (vpn ((k.proc c).pagesInPhysicalMemory i).virtualAddress))

/-- The directory in CR3 shows, at the address of the page to be evicted, the bytes of its frame. -/
def ShowsVictim (cfg : Config) (k : Kernel) (c : Slot) : Prop :=
  ∀ i, (k.proc c).getReplacementPageIndexPhyMem cfg = some i →
    k.userPage (k.proc c).pgdir ((k.proc c).pagesInPhysicalMemory i).virtualAddress =
      some (k.mem (k.victimFrame c i))

/-- The page of RAM slot `i` went out to disc slot `j`, and nothing else happened to frames, entries,
tables and the other slots of the swap file. -/
structure MovedOut (cfg : Config) (k k' : Kernel) (c : Slot) (i : Fin maxPyscPages)
    (j : Fin discPages) : Prop where
  victim : (k.proc c).getReplacementPageIndexPhyMem cfg = some i
  slot : (k.proc c).getAvailablePageIndexDisk = some j
  freed : k'.freelist = k.victimFrame c i :: k.freelist
  entry : let e := (k.proc c).pagesInPhysicalMemory i
    k'.pte e.pageDirectory (vpn e.virtualAddress) =
      pageOutPte (k.pte e.pageDirectory (vpn e.virtualAddress))
  ram : (k'.proc c).pagesInPhysicalMemory = update (k.proc c).pagesInPhysicalMemory i
    { (k.proc c).pagesInPhysicalMemory i with isUsed := false }
  disc : (k'.proc c).pagesInDisc = update (k.proc c).pagesInDisc j
    (reallocateNote ((k.proc c).pagesInPhysicalMemory i) ((k.proc c).pagesInDisc j))
  otherPages : ∀ fr, fr ≠ k.victimFrame c i → k'.mem fr = k.mem fr
  otherEntries : let e := (k.proc c).pagesInPhysicalMemory i
    ∀ d n, (d = e.pageDirectory → n ≠ vpn e.virtualAddress) → k'.pte d n = k.pte d n
  otherProcs : ∀ c', c' ≠ c → k'.proc c' = k.proc c'
  otherSlots : ∃ f f', (k.proc c).swapFile = some f ∧ (k'.proc c).swapFile = some f' ∧
    ∀ b, b < pgSize * j ∨ pgSize * j + pgSize ≤ b → f'.data b = f.data b

/-- Disc slot `j` of the swap file holds the bytes of the frame that was freed. -/
def Saved (k k' : Kernel) (c : Slot) (i : Fin maxPyscPages) (j : Fin discPages) : Prop :=
  ∃ f', (k'.proc c).swapFile = some f' ∧ pgSize * j + pgSize ≤ f'.size ∧
    ∀ b : Fin pgSize, f'.data (pgSize * j + b) = k.mem (k.victimFrame c i) b

/-- The eviction moved one page out and saved it. -/
def EvictsVictim (cfg : Config) (k k' : Kernel) (c : Slot) : Prop :=
  ∃ i j, MovedOut cfg k k' c i j ∧ Saved k k' c i j

private theorem overlay_page (f : SwapFile) (page : Page) (off : Nat) (b : Fin pgSize) :
    (f.overlay (pageBytes page) off pgSize).data (off + b) = page b := by
  have hb := b.isLt
  simp [SwapFile.overlay, pageBytes]

private theorem MovedOut.of_evicted {f : SwapFile} {page : Page}
    (h : Evicted cfg reallocateNote k k' c i j f page) : MovedOut cfg k k' c i j := by
  have hpte : k'.pte = setEntry k.pte ((k.proc c).pagesInPhysicalMemory i).pageDirectory
      (vpn ((k.proc c).pagesInPhysicalMemory i).virtualAddress)
      (pageOutPte (k.pte ((k.proc c).pagesInPhysicalMemory i).pageDirectory
        (vpn ((k.proc c).pagesInPhysicalMemory i).virtualAddress))) := by
    rw [h.result]
    exact setPte_pte_eq h.table
  have hproc : k'.proc = update k.proc c (evictedProc reallocateNote (k.proc c) i j
      (f.overlay (pageBytes page) (pgSize * j) pgSize)) := by
    rw [h.result]
    rfl
  refine ⟨h.victim, h.slot, ?_, ?_, ?_, ?_, ?_, ?_, ?_, ?_⟩
  · rw [h.result]
    rfl
  · rw [hpte]
    exact setEntry_self ..
  · rw [hproc, update_self]
    rfl
  · rw [hproc, update_self]
    rfl
  · intro fr hfr
    rw [h.result]
    exact update_of_ne hfr ..
  · intro e d n hne
    rw [hpte]
    exact setEntry_of_ne hne
  · intro c' hc
    rw [hproc, update_of_ne hc]
  · refine ⟨f, _, h.swapFile, by rw [hproc, update_self]; rfl, ?_⟩
    intro b hb
    simp only [SwapFile.overlay]
    rw [if_neg (by omega)]

private theorem Evicted.saved_iff {note : PageData → PageData → PageData} {f : SwapFile} {page : Page}
    (h : Evicted cfg note k k' c i j f page) :
    Saved k k' c i j ↔ page = k.mem (k.victimFrame c i) := by
  have hfile : (k'.proc c).swapFile = some (f.overlay (pageBytes page) (pgSize * j) pgSize) := by
    rw [h.result]
    simp [evictedProc]
  constructor
  · rintro ⟨f', hf', -, hbytes⟩
    obtain rfl : f.overlay (pageBytes page) (pgSize * j) pgSize = f' := by
      rw [hfile] at hf'
      exact Option.some.inj hf'
    funext b
    rw [← hbytes b, overlay_page]
  · rintro rfl
    refine ⟨_, hfile, le_max_right _ _, ?_⟩
    intro b
    rw [overlay_page]

section CountFault

private theorem countFault_proc_self (k : Kernel) (c : Slot) :
    (k.countFault c).proc c = { k.proc c with pageFault := (k.proc c).pageFault + 1 } := by
  simp [countFault]

private theorem countFault_victimFrame (k : Kernel) (c : Slot) (i : Fin maxPyscPages) :
    (k.countFault c).victimFrame c i = k.victimFrame c i := by
  unfold victimFrame
  rw [countFault_proc_self]
  rfl

private theorem MovedOut.of_countFault (h : MovedOut cfg (k.countFault c) k' c i j) :
    MovedOut cfg k k' c i j := by
  have hproc := countFault_proc_self k c
  constructor
  · have hvictim := h.victim
    rw [hproc] at hvictim
    exact hvictim
  · have hslot := h.slot
    rw [hproc] at hslot
    exact hslot
  · rw [h.freed, countFault_victimFrame]
    rfl
  · have hentry := h.entry
    rw [hproc] at hentry
    exact hentry
  · rw [h.ram, hproc]
  · rw [h.disc, hproc]
  · intro fr hfr
    rw [← countFault_victimFrame] at hfr
    exact h.otherPages fr hfr
  · have hothers := h.otherEntries
    rw [hproc] at hothers
    exact hothers
  · intro c' hc
    rw [h.otherProcs c' hc]
    exact setProc_proc_of_ne hc
  · have hslots := h.otherSlots
    rw [hproc] at hslots
    exact hslots

private theorem saved_countFault : Saved (k.countFault c) k' c i j ↔ Saved k k' c i j := by
  unfold Saved
  rw [countFault_victimFrame]
  rfl

end CountFault

/-- A call of `reallocatePageInDisk` that returns 1 saves the page it frees exactly when the directory
in CR3 shows that page at the victim's address; the rest it always does. -/
theorem evicts_victim_iff (h : k.reallocatePageInDisk cfg c = .ok (k', true)) :
    EvictsVictim cfg k k' c ↔ k.ShowsVictim cfg c := by
  obtain ⟨⟨k₁, r⟩, hevict, h⟩ := bind_eq_ok.mp h
  obtain ⟨rfl, hr⟩ : k₁ = k' ∧ r.isSome = true := by simpa using h
  rcases evictPage_ok hevict with ⟨rfl, -⟩ | ⟨i, j, f, page, rfl, hev⟩
  · simp at hr
  · have hmoved : MovedOut cfg k k₁ c i j := (MovedOut.of_evicted hev).of_countFault
    have hpage : k.userPage (k.proc c).pgdir ((k.proc c).pagesInPhysicalMemory i).virtualAddress =
        some page := by
      have hsource := hev.source
      rw [countFault_proc_self] at hsource
      exact hsource
    have hsaved : Saved k k₁ c i j ↔ page = k.mem (k.victimFrame c i) := by
      rw [← saved_countFault, hev.saved_iff, countFault_victimFrame]
      rfl
    constructor
    · rintro ⟨i', j', hmoved', hsaved'⟩ i'' hi''
      obtain rfl : i = i' := Option.some.inj (hmoved.victim.symm.trans hmoved'.victim)
      obtain rfl : j = j' := Option.some.inj (hmoved.slot.symm.trans hmoved'.slot)
      obtain rfl : i = i'' := Option.some.inj (hmoved.victim.symm.trans hi'')
      rw [hpage, hsaved.mp hsaved']
    · intro hshows
      have hsame := hshows i hmoved.victim
      rw [hpage] at hsame
      exact ⟨i, j, hmoved, hsaved.mpr (Option.some.inj hsame)⟩

private theorem showsVictim_of_sound (h : (k.space c).Sound (· = (k.proc c).pgdir)) :
    k.ShowsVictim cfg c := by
  intro i hi
  have hused : ((k.space c).ram i).isUsed = true := (k.proc c).getReplacementPageIndexPhyMem_used cfg hi
  obtain ⟨n, -, -, hdir, hvpn, hP⟩ := h.pageAt hused
  simp only [space] at hdir hvpn hP
  unfold userPage victimFrame
  rw [hvpn]
  rw [hdir] at hP ⊢
  rw [if_pos hP]

/-- A process with a full RAM table evicts one of its pages. -/
theorem evicts_victim_full :
    ∃ k', Solo.full.kernel.reallocatePageInDisk (Solo.config .FIFO) Solo.main = .ok (k', true) ∧
      EvictsVictim (Solo.config .FIFO) Solo.full.kernel k' Solo.main := by
  have hcheck : (match Solo.full.kernel.reallocatePageInDisk (Solo.config .FIFO) Solo.main with
    | .ok (_, ok) => ok
    | .error _ => false) = true := by decide +kernel
  split at hcheck
  · next k' ok hok =>
    subst hcheck
    exact ⟨k', hok, (evicts_victim_iff hok).mpr (showsVictim_of_sound Solo.full.afterExec.sound)⟩
  · simp at hcheck

/-- How far `exec` of a program with two pages gets before the second one evicts: a new directory, its
first page tracked, its second one mapped. -/
def secondPage (cfg : Config) (k : Kernel) (c : Slot) : Option Kernel :=
  match k.setupkvm cfg c with
  | .ok (some d, k) =>
    match k.allocuvm cfg c d 0 pgSize 1 with
    | .ok (k, _) =>
      match k.kalloc with
      | (some mem, k) =>
        match (k.setMem mem fun _ => 0).mappages d pgSize mem (pteW ||| pteU) with
        | .ok k => k
        | .error _ => none
      | (none, _) => none
    | .error _ => none
  | _ => none

/-- In a process with fourteen pages `exec` takes the last RAM slot for the first page of the new image
and evicts that page again: its bytes are 0, stored are those of page 0 of the old image. -/
theorem evicts_old_page :
    ∃ k k', secondPage (Solo.config .LIFO) (Solo.ordered 14 200 none (by decide)).kernel Solo.main =
        some k ∧
      k.reallocatePageInDisk (Solo.config .LIFO) Solo.main = .ok (k', true) ∧
      ¬ EvictsVictim (Solo.config .LIFO) k k' Solo.main := by
  have hcheck : ((secondPage (Solo.config .LIFO) (Solo.ordered 14 200 none (by decide)).kernel
      Solo.main).map fun k =>
        match k.reallocatePageInDisk (Solo.config .LIFO) Solo.main with
        | .ok (k', ok) => decide (ok = true ∧
            (k.proc Solo.main).getReplacementPageIndexPhyMem (Solo.config .LIFO) = some ⟨14, by decide⟩ ∧
            (k.proc Solo.main).getAvailablePageIndexDisk = some ⟨0, by decide⟩ ∧
            (k'.proc Solo.main).swapFile.map (fun f => f.data 0) = some 1 ∧
            k.mem (k.victimFrame Solo.main ⟨14, by decide⟩) ⟨0, by decide⟩ = 0)
        | .error _ => false) = some true := by decide +kernel
  obtain ⟨k, hk, hfacts⟩ := Option.map_eq_some_iff.mp hcheck
  split at hfacts
  · next k' ok hok =>
    obtain ⟨rfl, hvictim, hslot, hstored, hbyte⟩ := of_decide_eq_true hfacts
    refine ⟨k, k', hk, hok, ?_⟩
    rintro ⟨i, j, hmoved, f', hf', -, hbytes⟩
    obtain rfl := Option.some.inj (hvictim.symm.trans hmoved.victim)
    obtain rfl := Option.some.inj (hslot.symm.trans hmoved.slot)
    have hsame := hbytes ⟨0, by decide⟩
    rw [hf'] at hstored
    simp only [Option.map_some, Option.some.injEq] at hstored
    rw [hbyte] at hsame
    simp only [Nat.mul_zero, Nat.add_zero] at hsame
    rw [hstored] at hsame
    simp at hsame
  · simp at hfacts

end Kernel

end OsSessional.Paging
