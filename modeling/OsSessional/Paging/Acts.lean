import OsSessional.Paging.Frames

/-!
# The kernel operations as steps of an image

Each round of the kernel's loops acts on the tables of its own process as one step of
`Space.Place`, `Space.Drop` or `Space.Fetch`, and leaves every other process and directory alone.
-/

namespace OsSessional.Paging

open Function (update update_self update_of_ne)

namespace Kernel

variable {cfg : Config} {k k' k₁ k₂ : Kernel} {c c' : Slot} {d : Frame} {n : Nat}

/-- The tables and the identity of process `c` apart, everything outside directory `d` is as it
was. -/
structure Local (c : Slot) (d : Frame) (k k' : Kernel) : Prop where
  other : ∀ c', c' ≠ c → k'.proc c' = k.proc c'
  dirs : ∀ d', d' ≠ d → k'.dirs d' = k.dirs d'
  pgdir : (k'.proc c).pgdir = (k.proc c).pgdir
  pid : (k'.proc c).pid = (k.proc c).pid
  sz : (k'.proc c).sz = (k.proc c).sz
  state : (k'.proc c).state = (k.proc c).state
  nextpid : k'.nextpid = k.nextpid

namespace Local

theorem refl (c : Slot) (d : Frame) (k : Kernel) : Local c d k k :=
  ⟨fun _ _ => rfl, fun _ _ => rfl, rfl, rfl, rfl, rfl, rfl⟩

theorem trans (h : Local c d k k₁) (h' : Local c d k₁ k₂) : Local c d k k₂ where
  other c' hc := (h'.other c' hc).trans (h.other c' hc)
  dirs d' hd := (h'.dirs d' hd).trans (h.dirs d' hd)
  pgdir := h'.pgdir.trans h.pgdir
  pid := h'.pid.trans h.pid
  sz := h'.sz.trans h.sz
  state := h'.state.trans h.state
  nextpid := h'.nextpid.trans h.nextpid

theorem pte (h : Local c d k k') {d' : Frame} (hd : d' ≠ d) (n : Nat) : k'.pte d' n = k.pte d' n := by
  simp only [Kernel.pte, h.dirs d' hd]

theorem of_setProc {p : Proc} (hpgdir : p.pgdir = (k.proc c).pgdir) (hpid : p.pid = (k.proc c).pid)
    (hsz : p.sz = (k.proc c).sz) (hstate : p.state = (k.proc c).state) :
    Local c d k (k.setProc c p) where
  other c' hc := setProc_proc_of_ne hc
  dirs _ _ := rfl
  pgdir := by simpa using hpgdir
  pid := by simpa using hpid
  sz := by simpa using hsz
  state := by simpa using hstate
  nextpid := rfl

private theorem of_setPte {v : PTE} : Local c d k (k.setPte d n v) where
  other _ _ := rfl
  dirs d' hd := by simp [setPte, hd]
  pgdir := rfl
  pid := rfl
  sz := rfl
  state := rfl
  nextpid := rfl

theorem of_freed {fr : Frame} : Local c d k (k.freed fr) :=
  ⟨fun _ _ => rfl, fun _ _ => rfl, rfl, rfl, rfl, rfl, rfl⟩

theorem of_setMem {fr : Frame} {pg : Page} : Local c d k (k.setMem fr pg) :=
  ⟨fun _ _ => rfl, fun _ _ => rfl, rfl, rfl, rfl, rfl, rfl⟩

theorem of_take {rest : List Frame} : Local c d k { k with freelist := rest } :=
  ⟨fun _ _ => rfl, fun _ _ => rfl, rfl, rfl, rfl, rfl, rfl⟩

theorem of_countFault : Local c d k (k.countFault c) :=
  of_setProc rfl rfl rfl rfl

private theorem of_tableReady {i : Nat} (h : TableReady k d i k') : Local c d k k' := by
  cases h with
  | there _ => exact refl c d k
  | added _ _ =>
    refine ⟨fun _ _ => rfl, ?_, rfl, rfl, rfl, rfl, rfl⟩
    intro d' hd
    simp [addTable, hd]

private theorem of_mapped {perm : PTE} {page : Page} {mem : Frame} (h : Mapped k d n perm page mem k') :
    Local c d k k' := by
  cases h with
  | intro _ htable _ =>
    exact ((of_take.trans of_setMem).trans (of_tableReady htable)).trans of_setPte

end Local

@[simp] theorem countFault_space : (k.countFault c).space c' = k.space c' := by
  by_cases hc : c' = c
  · subst hc
    simp [countFault, space]
  · simp [countFault, space, setProc_proc_of_ne hc]

private theorem space_setProc_of_ne {p : Proc} (hc : c' ≠ c) :
    (k.setProc c p).space c' = k.space c' := by
  simp [space, setProc_proc_of_ne hc]

theorem Mapped.space {perm : PTE} {page : Page} {mem : Frame} (h : Mapped k d n perm page mem k') :
    k'.space c = (k.space c).map d n (mapPte mem perm) := by
  simp only [Kernel.space, Space.map, h.pte, h.proc]

section Evicting

variable {note : PageData → PageData → PageData} {i : Fin maxPyscPages} {j : Fin discPages}
  {f : SwapFile} {page : Page}

theorem Evicted.space (hnote : IsNote note) (h : Evicted cfg note k k' c i j f page) :
    (k.space c).Evict i (k'.space c) := by
  have hused := (k.proc c).getReplacementPageIndexPhyMem_used cfg h.victim
  have heq : k'.space c = (k.space c).evict note i j (f.overlay (pageBytes page) (pgSize * j) pgSize) := by
    have htable := h.table
    rw [h.result]
    simp only [Kernel.space, Space.evict, setPte_proc, setProc_proc_self]
    rw [setPte_pte_eq (k := (k.freed _).setProc c _) htable]
    rfl
  rw [heq]
  exact .intro hnote hused h.slot h.swapFile h.room

theorem Evicted.pgdir (h : Evicted cfg note k k' c i j f page) :
    (k'.proc c).pgdir = (k.proc c).pgdir := by
  rw [h.result, setPte_proc, setProc_proc_self]
  rfl

theorem Evicted.freeRamIndex (hfull : (k.proc c).freeRamIndex = none)
    (h : Evicted cfg note k k' c i j f page) : (k'.proc c).freeRamIndex = some i := by
  have hall := (k.proc c).freeRamIndex_none hfull
  rw [h.result]
  simp only [setPte_proc, setProc_proc_self, Proc.freeRamIndex]
  refine Scan.first_eq_some.mpr ⟨by simp [evictedProc], ?_⟩
  intro i' hi'
  simp [evictedProc, ne_of_lt hi', hall i']

private theorem Local.of_evicted (h : Evicted cfg note k k' c i j f page)
    (hdir : ((k.proc c).pagesInPhysicalMemory i).pageDirectory = d) : Local c d k k' := by
  rw [h.result, hdir]
  have hproc : Local c d (k.freed (pteAddr (k.pte d (vpn
      ((k.proc c).pagesInPhysicalMemory i).virtualAddress)))) _ :=
    of_setProc (p := evictedProc note (k.proc c) i j
      (f.overlay (pageBytes page) (pgSize * j) pgSize)) rfl rfl rfl rfl
  exact (of_freed.trans hproc).trans of_setPte

end Evicting

section Growing

theorem updatePhysicalPageMetaData_space {va : Nat} (isImportant : Int) {i : Fin maxPyscPages}
    (h : (k.proc c).freeRamIndex = some i) :
    ∃ e, Names e d n ∧ e.isUsed = true ∧ (va = n * pgSize →
      (k.updatePhysicalPageMetaData c d va isImportant).space c = (k.space c).track i e) := by
  refine ⟨⟨d, true, n * pgSize, (k.proc c).timer, 0, isImportant⟩, ⟨rfl, rfl⟩, rfl, ?_⟩
  rintro rfl
  simp [updatePhysicalPageMetaData, Proc.updatePhysicalPageMetaData, h, space, Space.track]

theorem Local.of_updatePhysicalPageMetaData {va : Nat} {isImportant : Int} :
    Local c d k (k.updatePhysicalPageMetaData c d va isImportant) := by
  unfold updatePhysicalPageMetaData Proc.updatePhysicalPageMetaData
  split
  · exact of_setProc rfl rfl rfl rfl
  · exact of_setProc rfl rfl rfl rfl

theorem mapPte_flags {mem : Frame} (h : PageAligned mem) :
    Space.UserPte (mapPte mem (pteW ||| pteU)) := by
  constructor <;> simp [hasFlag_mapPte h]

theorem Placed.space {isImportant : Int} (halign : ∀ fr ∈ k.freelist, PageAligned fr)
    (h : Placed cfg c d isImportant n k k') : (k.space c).Place d n (k'.space c) := by
  have hflags : ∀ {mem : Frame} {k₁ : Kernel},
      Mapped k d n (pteW ||| pteU) (fun _ => 0) mem k₁ →
      Space.UserPte (mapPte mem (pteW ||| pteU)) := by
    intro mem k₁ hmap
    obtain ⟨rest, hfree⟩ := hmap.free
    exact mapPte_flags (halign mem (by simp [hfree]))
  cases h with
  | noProcess hmap hpid =>
    rw [hmap.space]
    exact .untracked hmap.absent (hflags hmap)
  | @tracked mem k₁ i hmap hfree =>
    have hfree₁ : (k₁.proc c).freeRamIndex = some i := by rw [hmap.proc, hfree]
    obtain ⟨e, hnames, hused, heq⟩ := updatePhysicalPageMetaData_space isImportant hfree₁
    rw [heq rfl, hmap.space]
    exact .tracked hmap.absent (hflags hmap)
      ((k.proc c).freeRamIndex_free hfree) hnames hused
  | stuck hmap hfull hfail =>
    rw [countFault_space, hmap.space]
    exact .untracked hmap.absent (hflags hmap)
  | @evicting mem k₁ k₂ i j f page hmap hfull hevict =>
    have hfull₁ : ((k₁.countFault c).proc c).freeRamIndex = none := by
      simpa [countFault, hmap.proc, Proc.freeRamIndex] using hfull
    obtain ⟨e, hnames, hused, heq⟩ :=
      updatePhysicalPageMetaData_space isImportant (hevict.freeRamIndex hfull₁)
    have hspace := hevict.space isNote_reallocateNote
    rw [countFault_space, hmap.space] at hspace
    rw [heq rfl]
    exact .evicting hmap.absent (hflags hmap) hspace hnames hused

/-- A placed page is outside other processes and directories, when the RAM table names only `d`. -/
theorem Local.of_placed {isImportant : Int} (hs : (k.space c).Sound (· = d))
    (h : Placed cfg c d isImportant n k k') : Local c d k k' := by
  cases h with
  | noProcess hmap hpid => exact of_mapped hmap
  | tracked hmap hfree => exact (of_mapped hmap).trans of_updatePhysicalPageMetaData
  | stuck hmap hfull hfail => exact (of_mapped hmap).trans of_countFault
  | @evicting mem k₁ k₂ i j f page hmap hfull hevict =>
    have hused := ((k₁.countFault c).proc c).getReplacementPageIndexPhyMem_used cfg hevict.victim
    have hram : ((k₁.countFault c).proc c).pagesInPhysicalMemory =
        (k.proc c).pagesInPhysicalMemory := by simp [countFault, hmap.proc]
    rw [hram] at hused
    obtain ⟨_, _, _, hdir, _, _⟩ := hs.pageAt (i := i) hused
    have hevicted : Local c d (k₁.countFault c) k₂ := of_evicted hevict (by rw [hram]; exact hdir)
    exact (((of_mapped hmap).trans of_countFault).trans hevicted).trans of_updatePhysicalPageMetaData

theorem Dropped.space (h : Dropped cfg c d n k k') : (k.space c).Drop d n (k'.space c) := by
  cases h with
  | present hP hvalid =>
    have heq : ((((k.freed (pteAddr (k.pte d n))).setProc c
        ((k.proc c).removePhysicalPageMetaData d (n * pgSize))).setPte d n 0).space c) =
        (k.space c).dropRam d n := by
      have hpte := setPte_pte_eq (k := (k.freed (pteAddr (k.pte d n))).setProc c
        ((k.proc c).removePhysicalPageMetaData d (n * pgSize))) (v := 0) (hasTable_of_hasFlag hP)
      simp only [Kernel.space, hpte]
      simp [Space.dropRam, Proc.removePhysicalPageMetaData]
    rw [heq]
    exact .present hP
  | paged hP hPG =>
    have heq : (((k.setProc c
        ((k.proc c).removeDiscMetaData d (n * pgSize))).setPte d n 0).space c) =
        (k.space c).dropDisc d n := by
      have hpte := setPte_pte_eq (k := k.setProc c
        ((k.proc c).removeDiscMetaData d (n * pgSize))) (v := 0)
        (hasTable_of_hasFlag (g := .PG) hPG)
      simp only [Kernel.space, hpte]
      simp [Space.dropDisc, Proc.removeDiscMetaData]
    rw [heq]
    exact .paged hP hPG
  | unmapped hP hPG => exact .unmapped ⟨hP, hPG⟩

theorem Local.of_dropped (h : Dropped cfg c d n k k') : Local c d k k' := by
  cases h with
  | present hP hvalid =>
    have hproc : Local c d (k.freed (pteAddr (k.pte d n))) _ :=
      of_setProc (p := (k.proc c).removePhysicalPageMetaData d (n * pgSize)) rfl rfl rfl rfl
    exact (of_freed.trans hproc).trans of_setPte
  | paged hP hPG =>
    have hproc : Local c d k _ :=
      of_setProc (p := (k.proc c).removeDiscMetaData d (n * pgSize)) rfl rfl rfl rfl
    exact hproc.trans of_setPte
  | unmapped hP hPG => exact refl c d k

end Growing

section Fetching

theorem RoomAt.space {i : Fin maxPyscPages} (h : RoomAt cfg c k i k') :
    (k.space c).Room i (k'.space c) := by
  cases h with
  | free h => exact .free ((k.proc c).freeRamIndex_free h)
  | evicted hfull h => exact .evicted (h.space isNote_retrieveNote)

theorem RoomAt.pgdir {i : Fin maxPyscPages} (h : RoomAt cfg c k i k') :
    (k'.proc c).pgdir = (k.proc c).pgdir := by
  cases h with
  | free h => rfl
  | evicted hfull h => exact h.pgdir

theorem Local.of_room {i : Fin maxPyscPages} (hs : (k.space c).Sound (· = d))
    (h : RoomAt cfg c k i k') : Local c d k k' := by
  cases h with
  | free h => exact refl c d k
  | evicted hfull h =>
    have hused := (k.proc c).getReplacementPageIndexPhyMem_used cfg h.victim
    obtain ⟨_, _, _, hdir, _, _⟩ := hs.pageAt (i := i) hused
    exact of_evicted h hdir

private theorem pageIn_space {mem : Option Frame} (h : k.hasTable (k.proc c).pgdir n = true) :
    (k.pageIn c n mem).space c = (k.space c).map (k.proc c).pgdir n
      (pageInPte (k.pte (k.proc c).pgdir n) mem) := by
  simp only [Kernel.space, Space.map, pageIn_pte mem h, pageIn_proc]

private theorem pageInPte_flags {p : PTE} {mem : Option Frame}
    (h : ∀ fr, mem = some fr → PageAligned fr) :
    Space.UserPte (pageInPte p mem) := by
  constructor <;> simp [hasFlag_pageInPte p h]

theorem Fetched.space {mem : Option Frame} {ok : Bool}
    (halign : ∀ fr, mem = some fr → PageAligned fr) (hpgdir : (k.proc c).pgdir = d)
    (h : Fetched cfg c n mem k k' ok) : (k.space c).Fetch d n (k'.space c) ok := by
  have hdir : ∀ {i : Fin maxPyscPages} {k₁ : Kernel}, RoomAt cfg c k i k₁ → (k₁.proc c).pgdir = d :=
    fun hroom => hroom.pgdir.trans hpgdir
  cases h with
  | noVictim hfull h => exact .noVictim
  | @missing i k₁ fr pg hroom htable habsent hindex =>
    have heq : ((k₁.pageIn c n mem).setMem fr pg).space c = (k₁.space c).map d n
        (pageInPte (k₁.pte d n) mem) := by
      rw [← hdir hroom]
      exact pageIn_space htable
    rw [heq]
    rw [hdir hroom] at habsent
    exact .missing hroom.space habsent (pageInPte_flags halign) hindex
  | @unread i k₁ j f hroom htable habsent hindex hfile hread =>
    rw [pageIn_space htable, hdir hroom]
    rw [hdir hroom] at habsent
    exact .unread hroom.space habsent (pageInPte_flags halign)
  | @moved i k₁ j f count bytes fr pg b hroom htable habsent hindex hfile hread hpage =>
    have heq : ((({ k₁.pageIn c n mem with buffer := b }).moveToRam c j i).setMem fr pg).space c =
        ((k₁.space c).map d n (pageInPte (k₁.pte d n) mem)).move j i (k₁.proc c).timer := by
      have hpte := pageIn_pte mem htable
      rw [hdir hroom] at hpte
      simp only [Kernel.space, moveToRam, setMem_pte, setMem_proc, setProc_proc_self]
      change Space.mk (k₁.pageIn c n mem).pte _ _ _ = _
      rw [hpte]
      rfl
    rw [heq]
    rw [hdir hroom] at habsent
    exact .moved hroom.space habsent (pageInPte_flags halign) hindex

theorem Local.of_fetched {mem : Option Frame} {ok : Bool} (hpgdir : (k.proc c).pgdir = d)
    (hs : (k.space c).Sound (· = d)) (h : Fetched cfg c n mem k k' ok) : Local c d k k' := by
  have hin : ∀ {i : Fin maxPyscPages} {k₁ : Kernel}, RoomAt cfg c k i k₁ →
      Local c d k (k₁.pageIn c n mem) := by
    intro i k₁ hroom
    have hlocal := of_room hs hroom
    have hdir := hlocal.pgdir.trans hpgdir
    refine hlocal.trans ?_
    unfold pageIn
    rw [hdir]
    exact of_setPte
  cases h with
  | noVictim hfull h => exact refl c d k
  | missing hroom htable habsent hindex => exact (hin hroom).trans of_setMem
  | unread hroom htable habsent hindex hfile hread => exact hin hroom
  | @moved i k₁ j f count bytes fr pg b hroom htable habsent hindex hfile hread hpage =>
    have hbuffer : Local c d (k₁.pageIn c n mem) { k₁.pageIn c n mem with buffer := b } :=
      ⟨fun _ _ => rfl, fun _ _ => rfl, rfl, rfl, rfl, rfl, rfl⟩
    have hmove : Local c d { k₁.pageIn c n mem with buffer := b }
        ({ k₁.pageIn c n mem with buffer := b }.moveToRam c j i) := of_setProc rfl rfl rfl rfl
    exact (((hin hroom).trans hbuffer).trans hmove).trans of_setMem

theorem PageReady.space {mem : Option Frame} (h : PageReady k c mem k') :
    k'.space c' = k.space c' := by
  cases h with
  | frame hfree => rw [countFault_space]; rfl
  | null hfree => rw [countFault_space]; rfl

theorem Local.of_pageReady {mem : Option Frame} (h : PageReady k c mem k') : Local c d k k' := by
  cases h with
  | frame hfree => exact (of_take.trans of_setMem).trans of_countFault
  | null hfree => exact of_setMem.trans of_countFault

end Fetching

section Aging

private theorem Aged.alike (h : Aged c k k') (c' : Slot) : Space.Alike (k.space c') (k'.space c') := by
  cases h with
  | same => exact .refl _
  | @shifted i hused htable =>
    have hpte : ∀ d' n', Space.SameEntry
        ((k.setPte ((k.proc c).pagesInPhysicalMemory i).pageDirectory
          (vpn ((k.proc c).pagesInPhysicalMemory i).virtualAddress)
          (k.pte ((k.proc c).pagesInPhysicalMemory i).pageDirectory
            (vpn ((k.proc c).pagesInPhysicalMemory i).virtualAddress) &&& ~~~pteA)).pte d' n')
        (k.pte d' n') := by
      intro d' n'
      rw [setPte_pte htable]
      split
      · next h =>
        obtain ⟨rfl, rfl⟩ := h
        exact Space.sameEntry_clearA _
      · exact .refl _
    by_cases hc : c' = c
    · subst hc
      refine ⟨hpte, ?_, by simp [Kernel.space, setRam], by simp [Kernel.space, setRam]⟩
      intro i'
      by_cases hi : i' = i
      · subst hi
        simp [Kernel.space, setRam]
      · simp [Kernel.space, setRam, hi]
    · simp only [setRam, space_setProc_of_ne hc]
      exact ⟨hpte, fun _ => ⟨rfl, rfl, rfl⟩, rfl, rfl⟩

theorem Aged.proc (h : Aged c k k') (c' : Slot) :
    (k'.proc c').pgdir = (k.proc c').pgdir ∧ (k'.proc c').pid = (k.proc c').pid ∧
      (k'.proc c').sz = (k.proc c').sz ∧ (k'.proc c').state = (k.proc c').state := by
  cases h with
  | same => exact ⟨rfl, rfl, rfl, rfl⟩
  | shifted hused htable =>
    by_cases hc : c' = c
    · subst hc
      simp [setRam]
    · simp [setRam, setProc_proc_of_ne hc]

/-- Two kernels that a timer tick cannot tell apart: equal but for accessed bits and ages. -/
structure Quiet (k k' : Kernel) : Prop where
  alike : ∀ c, Space.Alike (k.space c) (k'.space c)
  proc : ∀ c, (k'.proc c).pgdir = (k.proc c).pgdir ∧ (k'.proc c).pid = (k.proc c).pid ∧
    (k'.proc c).sz = (k.proc c).sz ∧ (k'.proc c).state = (k.proc c).state
  freelist : k'.freelist = k.freelist
  pde : ∀ d, (k'.dirs d).pde = (k.dirs d).pde
  mem : k'.mem = k.mem
  nextpid : k'.nextpid = k.nextpid

private theorem Quiet.refl (k : Kernel) : Quiet k k :=
  ⟨fun _ => .refl _, fun _ => ⟨rfl, rfl, rfl, rfl⟩, rfl, fun _ => rfl, rfl, rfl⟩

theorem Aged.quiet (h : Aged c k k') : Quiet k k' := by
  refine ⟨h.alike, h.proc, ?_, ?_, ?_, ?_⟩
  · cases h <;> rfl
  · intro d
    cases h with
    | same => rfl
    | shifted _ _ => exact setPte_pde
  · cases h <;> rfl
  · cases h <;> rfl

private theorem Quiet.trans (h : Quiet k k₁) (h' : Quiet k₁ k₂) : Quiet k k₂ where
  alike c := (h.alike c).trans (h'.alike c)
  proc c := by
    obtain ⟨h1, h2, h3, h4⟩ := h.proc c
    rw [← h1, ← h2, ← h3, ← h4]
    exact h'.proc c
  freelist := h'.freelist.trans h.freelist
  pde d := (h'.pde d).trans (h.pde d)
  mem := h'.mem.trans h.mem
  nextpid := h'.nextpid.trans h.nextpid

/-- The timer's scan. -/
theorem updateAgeForAllProcess_quiet (h : k.updateAgeForAllProcess = .ok k') : Quiet k k' :=
  updateAgeForAllProcess_keeps (I := fun k₁ => Quiet k k₁)
    (fun _ _ _ _ _ _ _ hI haged => hI.trans haged.quiet) (.refl k) h

end Aging

end Kernel

end OsSessional.Paging
