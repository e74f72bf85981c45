import OsSessional.Paging.DiscTable

/-!
# Offsets in the swap file

The swap file never shrinks, and an eviction takes the lowest free disc slot. So every slot that was
ever in use lies below the end of the file, the lowest free one starts inside the file, and the search
of a page-in stops at the slot of its page at the latest.
-/

namespace OsSessional.Paging

open Function (update update_self update_of_ne)
open Outcome

namespace Space

variable {P d : Frame} {n : Nat} {s s' : Space} {f : SwapFile}

/-- The disc slots in use lie below the end of the swap file, the entries in use are for user pages,
and every page that `P` marks as paged out has a disc entry. -/
structure Within (P : Frame) (s : Space) (f : SwapFile) : Prop where
  swap : s.swap = some f
  size : f.size ≤ discPages * pgSize
  used : ∀ j, (s.disc j).isUsed = true → pgSize * j + pgSize ≤ f.size
  ram : ∀ i, (s.ram i).isUsed = true → ∃ n < userPages, (s.ram i).virtualAddress = n * pgSize
  disc : ∀ j, (s.disc j).isUsed = true → ∃ n < userPages, (s.disc j).virtualAddress = n * pgSize
  paged : ∀ n, hasFlag (s.pte P n) .PG = true →
    n < userPages ∧ ∃ j, (s.disc j).isUsed = true ∧ Names (s.disc j) P n

/-- The lowest free disc slot. -/
def freeSlot (s : Space) : Option (Fin discPages) := Scan.first fun j => !(s.disc j).isUsed

private theorem freeSlot_unused {j : Fin discPages} (h : s.freeSlot = some j) :
    (s.disc j).isUsed = false := by
  simpa using Scan.first_spec h

private theorem freeSlot_below {i j : Fin discPages} (h : s.freeSlot = some j) (hi : i < j) :
    (s.disc i).isUsed = true := by
  simpa using Scan.first_least h hi

namespace Within

private theorem free_le (h : Within P s f) {j : Fin discPages} (hj : s.freeSlot = some j) :
    pgSize * j ≤ f.size := by
  rcases Nat.eq_zero_or_pos j.val with hzero | hpos
  · rw [hzero]
    exact Nat.zero_le _
  · have hlt : j.val - 1 < discPages := by omega
    have hused : pgSize * (j.val - 1) + pgSize ≤ f.size :=
      h.used ⟨j.val - 1, hlt⟩ (freeSlot_below hj (Fin.lt_def.mpr (by simp only; omega)))
    have hmul : pgSize * (j.val - 1) + pgSize = pgSize * j := by
      rw [← Nat.mul_succ]
      congr 1
      omega
    omega

private theorem index_le (h : Within P s f) (hPG : hasFlag (s.pte P n) .PG = true) {j : Fin discPages}
    (hj : s.discIndex (n * pgSize) = some j) : pgSize * j + pgSize ≤ f.size := by
  obtain ⟨-, j', hused, hnames⟩ := h.paged n hPG
  have hle : j ≤ j' := by
    by_contra hlt
    have hleast := Scan.first_least hj (show j' < j by omega)
    simp [hnames.addr] at hleast
  have hfile := h.used j' hused
  have hmul : pgSize * j ≤ pgSize * j' := Nat.mul_le_mul_left _ hle
  omega

private theorem map (h : Within P s f) {v : PTE} (hPG : hasFlag v .PG = false) :
    Within P (s.map d n v) f where
  swap := h.swap
  size := h.size
  used := h.used
  ram := h.ram
  disc := h.disc
  paged n' hPG' := by
    simp only [Space.map, setEntry] at hPG'
    split at hPG'
    · rw [hPG] at hPG'
      contradiction
    · exact h.paged n' hPG'

private theorem track (h : Within P s f) {i : Fin maxPyscPages} {e : PageData}
    (he : e.isUsed = true → ∃ n < userPages, e.virtualAddress = n * pgSize) :
    Within P (s.track i e) f where
  swap := h.swap
  size := h.size
  used := h.used
  ram i' hi' := by
    by_cases hii : i' = i
    · subst hii
      simp only [Space.track, update_self] at hi' ⊢
      exact he hi'
    · simp only [Space.track, update_of_ne hii] at hi' ⊢
      exact h.ram i' hi'
  disc := h.disc
  paged := h.paged

theorem evict (h : Within P s f) {i : Fin maxPyscPages} (hev : Evict s i s') :
    ∃ f', Within P s' f' ∧ f.size ≤ f'.size ∧ ∀ j, s.freeSlot = some j → pgSize * j + pgSize ≤ f'.size := by
  cases hev with
  | @intro note i j g src hnote hi hj hg hroom =>
    obtain rfl : f = g := Option.some.inj (h.swap.symm.trans hg)
    have hsize : (f.overlay src (pgSize * j) pgSize).size = max f.size (pgSize * j + pgSize) := rfl
    obtain ⟨m, hm, haddr⟩ := h.ram i hi
    have hvpn : vpn (s.ram i).virtualAddress = m := by rw [haddr, vpn_mul hm]
    refine ⟨_, ⟨rfl, ?_, ?_, ?_, ?_, ?_⟩, by omega, ?_⟩
    · have hlt : pgSize * j + pgSize ≤ discPages * pgSize := by
        rw [← Nat.mul_succ, Nat.mul_comm]
        exact Nat.mul_le_mul_right _ j.isLt
      have := h.size
      omega
    · intro j' hj'
      by_cases hjj : j' = j
      · subst hjj
        omega
      · simp only [Space.evict, update_of_ne hjj] at hj'
        have := h.used j' hj'
        omega
    · intro i' hi'
      have hne : i' ≠ i := by
        rintro rfl
        simp [Space.evict] at hi'
      simp only [Space.evict, update_of_ne hne] at hi' ⊢
      exact h.ram i' hi'
    · intro j' hj'
      by_cases hjj : j' = j
      · subst hjj
        simp only [Space.evict, update_self, hnote.addr]
        exact ⟨m, hm, haddr⟩
      · simp only [Space.evict, update_of_ne hjj] at hj' ⊢
        exact h.disc j' hj'
    · intro n' hPG
      by_cases hat : P = (s.ram i).pageDirectory ∧ n' = m
      · obtain ⟨rfl, rfl⟩ := hat
        refine ⟨hm, j, ?_, ?_⟩
        · simp only [Space.evict, update_self, hnote.used]
        · simp only [Space.evict, update_self]
          exact ⟨hnote.dir _ _, by rw [hnote.addr, haddr]⟩
      · simp only [Space.evict, hvpn] at hPG
        rw [setEntry_of_ne (fun h1 h2 => hat ⟨h1, h2⟩)] at hPG
        obtain ⟨hn', j', hused, hnames⟩ := h.paged n' hPG
        have hjj : j' ≠ j := by
          rintro rfl
          have hfree := freeSlot_unused hj
          rw [hused] at hfree
          contradiction
        refine ⟨hn', j', ?_⟩
        simp only [Space.evict, update_of_ne hjj]
        exact ⟨hused, hnames⟩
    · intro j' hj'
      obtain rfl : j = j' := Option.some.inj (hj.symm.trans hj')
      omega

private theorem place (h : Within P s f) (hn : n < userPages) (hp : Place d n s s') :
    ∃ f', Within P s' f' ∧ f.size ≤ f'.size := by
  cases hp with
  | untracked habsent hv => exact ⟨f, h.map hv.inMemory, le_rfl⟩
  | tracked habsent hv hfree hnames hused =>
    exact ⟨f, (h.map hv.inMemory).track fun _ => ⟨n, hn, hnames.addr⟩, le_rfl⟩
  | evicting habsent hv hevict hnames hused =>
    obtain ⟨f', hw, hle, -⟩ := (h.map hv.inMemory).evict hevict
    exact ⟨f', hw.track fun _ => ⟨n, hn, hnames.addr⟩, hle⟩

private theorem drop (h : Within P s f) (hd : Drop d n s s') : Within P s' f := by
  cases hd with
  | present hP =>
    have hmap : Within P (s.map d n 0) f := h.map (by simp)
    refine ⟨h.swap, h.size, h.used, ?_, h.disc, hmap.paged⟩
    intro i hi
    obtain ⟨heq, hused⟩ := removeFrom_used hi
    simp only [Space.dropRam, heq]
    exact h.ram i hused
  | paged hP hPG =>
    refine ⟨h.swap, h.size, ?_, h.ram, ?_, ?_⟩
    · intro j hj
      exact h.used j (removeFrom_used hj).2
    · intro j hj
      obtain ⟨heq, hused⟩ := removeFrom_used hj
      simp only [Space.dropDisc, heq]
      exact h.disc j hused
    · intro n' hPG'
      simp only [Space.dropDisc, setEntry] at hPG'
      split at hPG'
      · simp at hPG'
      · next hne =>
        obtain ⟨hn', j, hused, hnames⟩ := h.paged n' hPG'
        have hkeep : Proc.removeFrom s.disc d (n * pgSize) j = s.disc j := by
          apply removeFrom_of_ne
          intro _ hnames'
          exact hne ⟨hnames.dir.symm.trans hnames'.dir, page_ext (hnames.addr.symm.trans hnames'.addr)⟩
        refine ⟨hn', j, ?_⟩
        simp only [Space.dropDisc, hkeep]
        exact ⟨hused, hnames⟩
  | unmapped _ => exact h

private theorem room (h : Within P s f) {i : Fin maxPyscPages} (hr : Room i s s') :
    ∃ f', Within P s' f' ∧ f.size ≤ f'.size ∧
      ((s.ram i).isUsed = true → ∀ j, s.freeSlot = some j → pgSize * j + pgSize ≤ f'.size) := by
  cases hr with
  | free hfree =>
    refine ⟨f, h, le_rfl, fun hused => ?_⟩
    rw [hfree] at hused
    contradiction
  | evicted hev =>
    obtain ⟨f', hw, hle, hslot⟩ := h.evict hev
    exact ⟨f', hw, hle, fun _ => hslot⟩

private theorem fetchEntry (h : Within P s f) {v : PTE} {i : Fin maxPyscPages} {j : Fin discPages} {t : Int}
    (hv : hasFlag v .PG = false) (hj : s.discIndex (n * pgSize) = some j) :
    Within P ((s.map P n v).move j i t) f := by
  have hmap : Within P (s.map P n v) f := h.map hv
  have htrack := hmap.track (i := i) (e := { s.disc j with timer := t }) (h.disc j)
  refine ⟨h.swap, h.size, ?_, htrack.ram, ?_, ?_⟩
  · intro j' hj'
    by_cases hjj : j' = j
    · subst hjj
      simp [Space.move] at hj'
    · simp only [Space.move, Space.map, update_of_ne hjj] at hj'
      exact h.used j' hj'
  · intro j' hj'
    by_cases hjj : j' = j
    · subst hjj
      simp [Space.move] at hj'
    · simp only [Space.move, Space.map, update_of_ne hjj] at hj' ⊢
      exact h.disc j' hj'
  · intro n' hPG
    have hne : n' ≠ n := by
      rintro rfl
      simp [Space.move, Space.map, hv] at hPG
    obtain ⟨hn', j', hused, hnames⟩ := hmap.paged n' hPG
    have hjj : j' ≠ j := by
      rintro rfl
      exact hne (page_ext (hnames.addr.symm.trans (discIndex_addr hj)))
    refine ⟨hn', j', ?_⟩
    simp only [Space.move, update_of_ne hjj]
    exact ⟨hused, hnames⟩

private theorem fetch (h : Within P s f) {ok : Bool} (hf : Fetch P n s s' ok) :
    ∃ f', Within P s' f' ∧ f.size ≤ f'.size := by
  cases hf with
  | noVictim => exact ⟨f, h, le_rfl⟩
  | missing hroom habsent hv hindex =>
    obtain ⟨f', hw, hle, -⟩ := h.room hroom
    exact ⟨f', hw.map hv.inMemory, hle⟩
  | unread hroom habsent hv =>
    obtain ⟨f', hw, hle, -⟩ := h.room hroom
    exact ⟨f', hw.map hv.inMemory, hle⟩
  | moved hroom habsent hv hindex =>
    obtain ⟨f', hw, hle, -⟩ := h.room hroom
    exact ⟨f', hw.fetchEntry hv.inMemory hindex, hle⟩

end Within

end Space

/-- What the pager asks of the swap file: to write a page to a disc slot, or to read it back. -/
inductive Access
  | write (f : SwapFile) (j : Fin discPages)
  | read (f : SwapFile) (j : Fin discPages)

/-- The write is not refused and goes through, the read gets a whole page. -/
def Access.Whole : Access → Prop
  | .write f j => f.refuses (pgSize * j) pgSize = false ∧
      ∀ src, (f.filewrite src (pgSize * j) pgSize).2 = true
  | .read f j => ∃ bytes, f.readi (j * pgSize) pgSize = some (pgSize, bytes)

namespace Kernel

section Accesses

variable (cfg : Config)

/-- The write of `evictPage`. -/
def evictAccess (k : Kernel) (c : Slot) : List Access :=
  match (k.proc c).getReplacementPageIndexPhyMem cfg with
  | none => []
  | some i =>
    let victim := (k.proc c).pagesInPhysicalMemory i
    match k.getReplacementPageAddressPhyMem victim.pageDirectory victim.virtualAddress,
        (k.proc c).getAvailablePageIndexDisk, (k.proc c).swapFile with
    | some _, some j, some f => [.write f j]
    | _, _, _ => []

/-- The write of `placePage`. -/
def placeAccess (k : Kernel) (c : Slot) : List Access :=
  if (k.proc c).pid > 0 ∧ (k.proc c).spaceAvialableInMemory = false then
    (k.countFault c).evictAccess cfg c
  else []

/-- The writes of the loop of `allocuvm` from address `a`. -/
def allocLoopAccess (c : Slot) (d : Frame) (newsz : Nat) (isImportant : Int) :
    Nat → Nat → Kernel → List Access
  | 0, _, _ => []
  | fuel + 1, a, k =>
    if a < newsz then
      match k.kalloc with
      | (none, _) => []
      | (some mem, k) =>
        match (k.setMem mem (fun _ => 0)).mappages d a mem (pteW ||| pteU) with
        | .ok (some k) =>
          k.placeAccess cfg c ++
          match k.placePage cfg c d a isImportant with
          | .ok k => allocLoopAccess c d newsz isImportant fuel (a + pgSize) k
          | .error _ => []
        | _ => []
    else []

/-- The writes of `allocuvm`. `deallocuvm` has no part in the swap file. -/
def allocAccess (k : Kernel) (c : Slot) (d : Frame) (oldsz newsz : Nat) (isImportant : Int) :
    List Access :=
  if newsz ≥ kernBase then []
  else if newsz < oldsz then []
  else if !(k.proc c).spaceAvialableInMemory && !(k.proc c).spaceAvialableInDisk then []
  else allocLoopAccess cfg c d newsz isImportant (newsz / pgSize + 1) (pgRoundUp oldsz) k

/-- The read for the page at `va`, once a RAM slot is available. -/
def readAccess (k : Kernel) (c : Slot) (va : Nat) (mem : Option Frame) : List Access :=
  match k.mapPagedIn c va mem with
  | .error _ => []
  | .ok k =>
    match (k.proc c).discIndex va, (k.proc c).swapFile with
    | some j, some f => [.read f j]
    | _, _ => []

/-- The write and the read of `retrieveSwapping`. -/
def swapAccess (k : Kernel) (c : Slot) (va : Nat) (mem : Option Frame) : List Access :=
  k.evictAccess cfg c ++
    match k.evictPage cfg retrieveNote c with
    | .ok (k, some _) => k.readAccess c va mem
    | _ => []

/-- What `retrievePage` reads, and what it writes before. -/
def retrieveAccess (k : Kernel) (c : Slot) (cr2 : Nat) : List Access :=
  let va := pgRoundDown cr2
  let (mem, k) := k.kalloc
  match k.memsetPage c mem (fun _ => 0) with
  | .error _ => []
  | .ok k =>
    let k := k.countFault c
    match (k.proc c).freeRamIndex with
    | some _ => k.readAccess c va mem
    | none => k.swapAccess cfg c va mem

end Accesses

section Within

variable {cfg : Config} {k k' : Kernel} {c : Slot} {d : Frame} {n : Nat} {f : SwapFile}

/-- The slots of process `c` lie in its swap file, and the free list holds page frames. -/
structure Within (cfg : Config) (c : Slot) (k : Kernel) (f : SwapFile) : Prop where
  space : (k.space c).Within (k.proc c).pgdir f
  free : FreeValid cfg k

private theorem Within.countFault (h : Within cfg c k f) : Within cfg c (k.countFault c) f where
  space := by
    rw [countFault_space]
    simpa [Kernel.countFault] using h.space
  free := h.free

private theorem Within.evictAccess_whole
    (h : Within cfg c k f) {a : Access} (ha : a ∈ k.evictAccess cfg c) :
    a.Whole ∧ ∃ j, (k.space c).freeSlot = some j ∧ a = .write f j := by
  unfold evictAccess at ha
  split at ha
  · simp at ha
  · simp only at ha
    split at ha
    · next j g hpa hj hg =>
      obtain rfl := List.mem_singleton.mp ha
      obtain rfl : f = g := Option.some.inj (h.space.swap.symm.trans hg)
      have hle : pgSize * j ≤ f.size := h.space.free_le hj
      refine ⟨⟨?_, fun src => ?_⟩, j, hj, rfl⟩
      · rw [refuses_slot]
        exact decide_eq_false (Nat.not_lt.mpr hle)
      · rw [SwapFile.filewrite_eq f src (by decide) hle (slot_in_file j)]
    · simp at ha

private theorem Within.evicts (h : Within cfg c k f) {note : PageData → PageData → PageData} {a : Access}
    (ha : a ∈ k.evictAccess cfg c) : k.evictPage cfg note c ≠ .ok (k', none) := by
  obtain ⟨hwhole, j, hj, rfl⟩ := h.evictAccess_whole ha
  obtain ⟨hroom, hwrite⟩ : f.refuses (pgSize * j) pgSize = false ∧
    ∀ src, (f.filewrite src (pgSize * j) pgSize).2 = true := hwhole
  have hswap : (k.proc c).swapFile = some f := h.space.swap
  have havail : (k.proc c).getAvailablePageIndexDisk = some j := hj
  intro heq
  unfold evictAccess at ha
  unfold evictPage at heq
  split at ha
  · simp at ha
  · next i hi =>
    simp only [hi] at heq ha
    split at ha
    · next _ _ hpa _ _ =>
      simp only [hpa, havail, bind_eq_ok] at heq
      obtain ⟨⟨k₁, ok⟩, hfile, heq⟩ := heq
      have hok : ok = true := by
        simp only [writeToSwapFile, hswap] at hfile
        split at hfile
        · rw [if_neg (by simp [hroom])] at hfile
          contradiction
        · rw [Except.ok.injEq, Prod.mk.injEq] at hfile
          rw [← hfile.2]
          exact hwrite _
      simp only [hok, if_true, bind_eq_ok] at heq
      obtain ⟨k₂, -, heq⟩ := heq
      simp at heq
    · simp at ha

private theorem Within.evicted (h : Within cfg c k f) {note : PageData → PageData → PageData}
    (hnote : IsNote note) {i : Fin maxPyscPages} {j : Fin discPages} {g : SwapFile} {page : Page}
    (hev : Evicted cfg note k k' c i j g page) :
    ∃ f', Within cfg c k' f' ∧ f.size ≤ f'.size ∧ pgSize * j + pgSize ≤ f'.size := by
  obtain ⟨f', hw, hle, hslot⟩ := h.space.evict (hev.space hnote)
  rw [← hev.pgdir] at hw
  exact ⟨f', ⟨hw, h.free.evicted hev⟩, hle, hslot j hev.slot⟩

private theorem Placed.pgdir {isImportant : Int} (h : Placed cfg c d isImportant n k k') :
    (k'.proc c).pgdir = (k.proc c).pgdir := by
  have htrack (k : Kernel) : ((k.updatePhysicalPageMetaData c d (n * pgSize) isImportant).proc c).pgdir =
      (k.proc c).pgdir := (Local.of_updatePhysicalPageMetaData (d := d)).pgdir
  have hcount (k : Kernel) : ((k.countFault c).proc c).pgdir = (k.proc c).pgdir :=
    (Local.of_countFault (d := d)).pgdir
  cases h with
  | noProcess hmap hpid => rw [hmap.proc]
  | tracked hmap hfree => rw [htrack, hmap.proc]
  | stuck hmap hfull hfail => rw [hcount, hmap.proc]
  | evicting hmap hfull hevict => rw [htrack, hevict.pgdir, hcount, hmap.proc]

private theorem Within.mapped (h : Within cfg c k f) {k₁ : Kernel} {mem : Frame} {page : Page}
    (hmap : Mapped k d n (pteW ||| pteU) page mem k₁) : Within cfg c k₁ f where
  space := by
    obtain ⟨rest, hfree⟩ := hmap.free
    have hflags := mapPte_flags (h.free.aligned mem (by simp [hfree]))
    rw [hmap.space, hmap.proc]
    exact h.space.map hflags.inMemory
  free := h.free.mapped hmap

private theorem Within.placePage
    (h : Within cfg c k f) (hn : n < userPages) {isImportant : Int} {mem : Frame}
    {k₁ : Kernel} (hmap : Mapped k d n (pteW ||| pteU) (fun _ => 0) mem k₁)
    (hplace : k₁.placePage cfg c d (n * pgSize) isImportant = .ok k') :
    ∃ f', Within cfg c k' f' ∧ f.size ≤ f'.size ∧
      ∀ g (j : Fin discPages), .write g j ∈ k₁.placeAccess cfg c → pgSize * j + pgSize ≤ f'.size := by
  have hplaced := placePage_ok hmap hplace
  obtain ⟨f', hw, hle⟩ := h.space.place hn (hplaced.space h.free.aligned)
  rw [← hplaced.pgdir] at hw
  refine ⟨f', ⟨hw, h.free.placed hplaced⟩, hle, fun g j hacc => ?_⟩
  unfold placeAccess at hacc
  split at hacc
  · next hfull =>
    have hcount : Within cfg c (k₁.countFault c) f := (h.mapped hmap).countFault
    simp only [Kernel.placePage, hfull.1, hfull.2, if_true, Bool.false_eq_true, if_false,
      reallocatePageInDisk, bind_eq_ok] at hplace
    obtain ⟨⟨k₂, ok⟩, ⟨⟨k₃, r⟩, hevict, h₁⟩, h₂⟩ := hplace
    obtain ⟨rfl, rfl⟩ : k₃ = k₂ ∧ r.isSome = ok := by simpa using h₁
    rcases evictPage_ok hevict with ⟨rfl, -⟩ | ⟨i, j', f₁, page, rfl, hev⟩
    · exact absurd hevict (hcount.evicts hacc)
    · obtain rfl : k₃.updatePhysicalPageMetaData c d (n * pgSize) isImportant = k' := by simpa using h₂
      obtain ⟨f₂, hw₂, -, hslot⟩ := hcount.evicted isNote_reallocateNote hev
      obtain rfl : f' = f₂ := by
        have hswap := hw.swap
        have hswap₂ := hw₂.space.swap
        simp only [Kernel.space, updatePhysicalPageMetaData, setProc_proc_self,
          Proc.updatePhysicalPageMetaData_swapFile] at hswap hswap₂
        exact Option.some.inj (hswap.symm.trans hswap₂)
      obtain ⟨-, j₂, hj₂, heq⟩ := hcount.evictAccess_whole hacc
      obtain ⟨-, rfl⟩ := Access.write.inj heq
      obtain rfl : j = j' := Option.some.inj (hj₂.symm.trans hev.slot)
      exact hslot
  · simp at hacc

private theorem Within.droppedRun (h : Within cfg c k f) {lo hi : Nat}
    (hrun : RangeRun (Dropped cfg c d) hi lo k k') : Within cfg c k' f := by
  apply hrun.keeps_const (I := fun k => Within cfg c k f) _ h
  intro n k₁ k₂ _ _ h hdrop
  have hw := h.space.drop hdrop.space
  rw [← (Local.of_dropped hdrop).pgdir] at hw
  exact ⟨hw, h.free.dropped hdrop⟩

private theorem Within.dealloc (h : Within cfg c k f) {oldsz newsz r : Nat} (hold : oldsz ≤ kernBase)
    (hcall : k.deallocuvm cfg c d oldsz newsz = .ok (k', r)) : Within cfg c k' f := by
  rcases deallocuvm_ok hold hcall with ⟨-, rfl, -⟩ | ⟨-, hrun, -⟩
  · exact h
  · exact h.droppedRun hrun

private theorem Within.take (h : Within cfg c k f) {mem : Frame} {rest : List Frame}
    (hfree : k.freelist = mem :: rest) (page : Page) :
    Within cfg c ({ k with freelist := rest }.setMem mem page) f where
  space := h.space
  free := h.free.of_subset (by
    intro fr hfr
    rw [hfree]
    exact List.mem_cons_of_mem _ hfr)

/-- What a stretch of a call leaves: the file has grown at most, and what was written lies in it. -/
structure Written (cfg : Config) (c : Slot) (f : SwapFile) (as : List Access) (k' : Kernel)
    (f' : SwapFile) : Prop where
  within : Within cfg c k' f'
  le : f.size ≤ f'.size
  slots : ∀ g (j : Fin discPages), .write g j ∈ as → pgSize * j + pgSize ≤ f'.size

private theorem Written.ever {ever : Fin discPages → Prop} {as : List Access} {f' : SwapFile}
    (h : Written cfg c f as k' f') (hever : ∀ j, ever j → pgSize * j + pgSize ≤ f.size)
    (j : Fin discPages) (hj : ever j ∨ (∃ g, .write g j ∈ as) ∨
      ((k'.proc c).pagesInDisc j).isUsed = true) : pgSize * j + pgSize ≤ f'.size := by
  rcases hj with hj | ⟨g, hacc⟩ | hused
  · exact (hever j hj).trans h.le
  · exact h.slots g j hacc
  · exact h.within.space.used j hused

private theorem allocLoop_access {isImportant : Int} {oldsz newsz : Nat} (hnew : newsz < kernBase)
    (fuel n : Nat) (k : Kernel) (f : SwapFile) (h : Within cfg c k f) :
    (∀ a ∈ allocLoopAccess cfg c d newsz isImportant fuel (n * pgSize) k, a.Whole) ∧
    ∀ k' r, allocLoop cfg c d oldsz newsz isImportant fuel (n * pgSize) k = .ok (k', r) →
      ∃ f', Written cfg c f (allocLoopAccess cfg c d newsz isImportant fuel (n * pgSize) k) k' f' := by
  induction fuel generalizing n k f with
  | zero =>
    refine ⟨by simp [allocLoopAccess], fun k' r hcall => ?_⟩
    simp only [allocLoop, Except.ok.injEq, Prod.mk.injEq] at hcall
    rw [← hcall.1]
    exact ⟨f, h, le_rfl, by simp [allocLoopAccess]⟩
  | succ fuel ih =>
    simp only [allocLoopAccess, allocLoop]
    by_cases hlt : n * pgSize < newsz
    · have huser : n < userPages :=
        lt_of_lt_of_le (lt_pages.mpr hlt) (pages_le_userPages (by omega))
      rw [if_pos hlt, if_pos hlt]
      cases hfree : k.freelist with
      | nil =>
        have hk : k.kalloc = (none, k) := by simp [kalloc, hfree]
        simp only [hk]
        refine ⟨by simp, fun k' r hcall => ?_⟩
        obtain ⟨⟨k₁, s⟩, hd, hcall⟩ := bind_eq_ok.mp hcall
        obtain ⟨rfl, -⟩ : k₁ = k' ∧ 0 = r := by simpa using hcall
        exact ⟨f, h.dealloc hnew.le hd, le_rfl, by simp⟩
      | cons mem rest =>
        have hk : k.kalloc = (some mem, { k with freelist := rest }) := by simp [kalloc, hfree]
        simp only [hk]
        cases hmap : ({ k with freelist := rest }.setMem mem fun _ => 0).mappages d (n * pgSize) mem
            (pteW ||| pteU) with
        | error e =>
          refine ⟨by simp, fun k' r hcall => ?_⟩
          obtain ⟨_, hfail, -⟩ := bind_eq_ok.mp hcall
          contradiction
        | ok mapped =>
          cases mapped with
          | none =>
            refine ⟨by simp, fun k' r hcall => ?_⟩
            rw [ok_bind] at hcall
            obtain ⟨⟨k₁, s⟩, hd, hcall⟩ := bind_eq_ok.mp hcall
            obtain ⟨k₂, hfreed, hcall⟩ := bind_eq_ok.mp hcall
            obtain ⟨hvalid, rfl⟩ := kfree_ok hfreed
            obtain ⟨rfl, -⟩ : k₁.freed mem = k' ∧ 0 = r := by simpa using hcall
            have hw := (h.take hfree _).dealloc hnew.le hd
            exact ⟨f, ⟨hw.space, hw.free.freed hvalid rfl⟩, le_rfl, by simp⟩
          | some k₁ =>
            obtain ⟨k₂, hready, habsent, rfl⟩ := mappages_some hmap
            rw [← vpn_div, vpn_mul huser] at hready
            rw [vpn_mul huser] at habsent ⊢
            generalize hk₁ : k₂.setPte d n (mapPte mem (pteW ||| pteU)) = k₁
            have hmapped : Mapped k d n (pteW ||| pteU) (fun _ => 0) mem k₁ := by
              rw [← hk₁]
              exact .intro hfree hready habsent
            have hwhole : ∀ a ∈ k₁.placeAccess cfg c, a.Whole := by
              intro a ha
              unfold placeAccess at ha
              split at ha
              · exact ((h.mapped hmapped).countFault.evictAccess_whole ha).1
              · simp at ha
            have hnext : n * pgSize + pgSize = (n + 1) * pgSize := by rw [Nat.add_mul, Nat.one_mul]
            simp only [ok_bind, hnext]
            cases hplace : k₁.placePage cfg c d (n * pgSize) isImportant with
            | error e =>
              refine ⟨by simpa using hwhole, fun k' r hcall => ?_⟩
              contradiction
            | ok k₃ =>
              obtain ⟨f₃, hw₃, hle, hslots⟩ := h.placePage huser hmapped hplace
              obtain ⟨hrest, hrun⟩ := ih (n + 1) k₃ f₃ hw₃
              refine ⟨?_, fun k' r hcall => ?_⟩
              · intro a ha
                rcases List.mem_append.mp ha with ha | ha
                · exact hwhole a ha
                · exact hrest a ha
              · obtain ⟨f', hwritten⟩ := hrun k' r hcall
                have hle' := hwritten.le
                refine ⟨f', hwritten.within, by omega, fun g j ha => ?_⟩
                rcases List.mem_append.mp ha with ha | ha
                · have := hslots g j ha
                  omega
                · exact hwritten.slots g j ha
    · rw [if_neg hlt, if_neg hlt]
      refine ⟨by simp, fun k' r hcall => ?_⟩
      obtain ⟨rfl, -⟩ : k = k' ∧ newsz = r := by simpa using hcall
      exact ⟨f, h, le_rfl, by simp⟩

private theorem Within.alloc_access (h : Within cfg c k f) (oldsz newsz : Nat) (isImportant : Int) :
    (∀ a ∈ k.allocAccess cfg c d oldsz newsz isImportant, a.Whole) ∧
    ∀ k' r, k.allocuvm cfg c d oldsz newsz isImportant = .ok (k', r) →
      ∃ f', Written cfg c f (k.allocAccess cfg c d oldsz newsz isImportant) k' f' := by
  have hsame : ∀ k' r, (.ok (k, 0) : Except Crash (Kernel × Nat)) = .ok (k', r) →
      ∃ f', Written cfg c f [] k' f' := by
    intro k' r hcall
    obtain ⟨rfl, -⟩ : k = k' ∧ 0 = r := by simpa using hcall
    exact ⟨f, h, le_rfl, by simp⟩
  unfold allocAccess allocuvm
  by_cases hbig : newsz ≥ kernBase
  · rw [if_pos hbig, if_pos hbig]
    exact ⟨by simp, hsame⟩
  · rw [if_neg hbig, if_neg hbig]
    by_cases hlt : newsz < oldsz
    · rw [if_pos hlt, if_pos hlt]
      refine ⟨by simp, fun k' r hcall => ?_⟩
      obtain ⟨rfl, -⟩ : k = k' ∧ oldsz = r := by simpa using hcall
      exact ⟨f, h, le_rfl, by simp⟩
    · rw [if_neg hlt, if_neg hlt]
      split
      · exact ⟨by simp, hsame⟩
      · rw [pgRoundUp_eq (by omega)]
        exact allocLoop_access (by omega) _ _ k f h

private theorem Within.readAccess_whole (h : Within cfg c k f) (hn : n < userPages)
    (hPG : hasFlag (k.pte (k.proc c).pgdir n) .PG = true) {mem : Option Frame} {a : Access}
    (ha : a ∈ k.readAccess c (n * pgSize) mem) : a.Whole ∧ ∃ g j, a = .read g j := by
  unfold readAccess at ha
  cases hmap : k.mapPagedIn c (n * pgSize) mem with
  | error e => simp [hmap] at ha
  | ok k₁ =>
    obtain ⟨-, -, rfl⟩ := mapPagedIn_ok hn hmap
    simp only [hmap, pageIn_proc] at ha
    split at ha
    · next j g hj hg =>
      obtain rfl := List.mem_singleton.mp ha
      obtain rfl : f = g := Option.some.inj (h.space.swap.symm.trans hg)
      have hend : pgSize * j + pgSize ≤ f.size := h.space.index_le hPG hj
      have hsize := h.space.size
      have hbig : discPages * pgSize < 2 ^ 32 := by decide
      have hmul : j.val * pgSize = pgSize * j := Nat.mul_comm _ _
      refine ⟨⟨fun i => f.data (j * pgSize + i), ?_⟩, f, j, rfl⟩
      rw [SwapFile.readi, if_neg (by omega), min_eq_left (by omega)]
    · simp at ha

private theorem Within.pageReady
    (h : Within cfg c k f) {mem : Option Frame} (hready : PageReady k c mem k') :
    Within cfg c k' f where
  space := by
    rw [hready.space, (Local.of_pageReady (d := 0) hready).pgdir]
    exact h.space
  free := (h.free.pageReady hready).1

private theorem Fetched.cases {mem : Option Frame} {ok : Bool} (h : Fetched cfg c n mem k k' ok) :
    (k' = k ∧ k.evictPage cfg retrieveNote c = .ok (k, none)) ∨
    ∃ i k₁, RoomAt cfg c k i k₁ ∧ (k'.proc c).swapFile = (k₁.proc c).swapFile ∧
      (k'.proc c).pgdir = (k₁.proc c).pgdir := by
  cases h with
  | noVictim hfull hev => exact .inl ⟨rfl, hev⟩
  | missing hroom htable habsent hindex => exact .inr ⟨_, _, hroom, rfl, rfl⟩
  | unread hroom htable habsent hindex hfile hread => exact .inr ⟨_, _, hroom, rfl, rfl⟩
  | moved hroom htable habsent hindex hfile hread hpage =>
    refine .inr ⟨_, _, hroom, ?_, ?_⟩
    · simp [moveToRam]
    · simp [moveToRam]

private theorem Within.fetched (h : Within cfg c k f) {mem : Option Frame} {ok : Bool}
    (halign : ∀ fr, mem = some fr → PageAligned fr) (hf : Fetched cfg c n mem k k' ok) :
    ∃ f', Within cfg c k' f' ∧ f.size ≤ f'.size := by
  have hpgdir : (k'.proc c).pgdir = (k.proc c).pgdir := by
    rcases hf.cases with ⟨rfl, -⟩ | ⟨i, k₁, hroom, -, hdir⟩
    · rfl
    · exact hdir.trans hroom.pgdir
  obtain ⟨f', hw, hle⟩ := h.space.fetch (hf.space halign rfl)
  rw [← hpgdir] at hw
  exact ⟨f', ⟨hw, h.free.fetched hf⟩, hle⟩

private theorem Evicted.paged {note : PageData → PageData → PageData} {i : Fin maxPyscPages} {j : Fin discPages}
    {g : SwapFile} {page : Page} (h : Evicted cfg note k k' c i j g page)
    (hPG : hasFlag (k.pte d n) .PG = true) : hasFlag (k'.pte d n) .PG = true := by
  rw [h.result, setPte_pte (k := (k.freed _).setProc c _) h.table]
  split
  · simp [hasFlag_pageOutPte]
  · exact hPG

private theorem Within.swap_access (h : Within cfg c k f) (hn : n < userPages)
    (hPG : hasFlag (k.pte (k.proc c).pgdir n) .PG = true) (hfull : (k.proc c).freeRamIndex = none)
    {mem : Option Frame} (halign : ∀ fr, mem = some fr → PageAligned fr) :
    (∀ a ∈ k.swapAccess cfg c (n * pgSize) mem, a.Whole) ∧
    ∀ k' ok, k.retrieveSwapping cfg c (n * pgSize) mem = .ok (k', ok) →
      ∃ f', Written cfg c f (k.swapAccess cfg c (n * pgSize) mem) k' f' := by
  have hread : ∀ a ∈ k.swapAccess cfg c (n * pgSize) mem, a ∉ k.evictAccess cfg c →
      a.Whole ∧ ∃ g j, a = .read g j := by
    intro a ha hnot
    have ha := (List.mem_append.mp ha).resolve_left hnot
    split at ha
    · next k₁ i hevict =>
      rcases evictPage_ok hevict with ⟨hnone, -⟩ | ⟨i', j, g, page, -, hev⟩
      · contradiction
      · obtain ⟨f₁, hw₁, -, -⟩ := h.evicted isNote_retrieveNote hev
        have hPG₁ := hev.paged hPG
        rw [← hev.pgdir] at hPG₁
        exact hw₁.readAccess_whole hn hPG₁ ha
    · simp at ha
  constructor
  · intro a ha
    by_cases hevict : a ∈ k.evictAccess cfg c
    · exact (h.evictAccess_whole hevict).1
    · exact (hread a ha hevict).1
  · intro k' ok hcall
    have hf := retrieveSwapping_ok hn hfull hcall
    obtain ⟨f', hw', hle⟩ := h.fetched halign hf
    refine ⟨f', hw', hle, fun g j ha => ?_⟩
    have hacc : .write g j ∈ k.evictAccess cfg c := by
      by_contra hnot
      obtain ⟨-, _, _, heq⟩ := hread _ ha hnot
      contradiction
    rcases hf.cases with ⟨-, hfail⟩ | ⟨i, k₁, hroom, hswap, -⟩
    · exact absurd hfail (h.evicts hacc)
    · cases hroom with
      | free hfree =>
        rw [hfull] at hfree
        contradiction
      | @evicted k₁ j' g' page _ hev =>
        obtain ⟨f₁, hw₁, -, hslot⟩ := h.evicted isNote_retrieveNote hev
        obtain rfl : f' = f₁ :=
          Option.some.inj (hw'.space.swap.symm.trans (hswap.trans hw₁.space.swap))
        obtain ⟨-, j₂, hj₂, heq⟩ := h.evictAccess_whole hacc
        obtain ⟨-, rfl⟩ := Access.write.inj heq
        obtain rfl : j = j' := Option.some.inj (hj₂.symm.trans hev.slot)
        exact hslot

/-- The write and the read of a page-in are whole, and what it wrote lies inside the file when it
returns. -/
theorem Within.retrieve_access (h : Within cfg c k f) {cr2 : Nat} (hcr2 : cr2 < 2 ^ 32)
    (hcheck : k.checkPTForPage (k.proc c).pgdir cr2 = true) :
    (∀ a ∈ k.retrieveAccess cfg c cr2, a.Whole) ∧
    ∀ k' ok, k.retrievePage cfg c cr2 = .ok (k', ok) →
      ∃ f', Written cfg c f (k.retrieveAccess cfg c cr2) k' f' := by
  rw [checkPTForPage_eq] at hcheck
  have hvpn : vpn cr2 = cr2 / pgSize := by
    simp only [vpn, pgSize]
    omega
  rw [hvpn] at hcheck
  obtain ⟨hn, -⟩ := h.space.paged _ hcheck
  simp only [retrieveAccess, retrievePage, pgRoundDown_eq]
  cases hset : k.kalloc.2.memsetPage c k.kalloc.1 (fun _ => 0) with
  | error e =>
    refine ⟨by simp, fun k' ok hcall => ?_⟩
    contradiction
  | ok k₁ =>
    have hready := pageReady_of_memset hset
    have hw := h.pageReady hready
    have halign := (h.free.pageReady hready).2
    have hPG : hasFlag ((k₁.countFault c).pte ((k₁.countFault c).proc c).pgdir (cr2 / pgSize)) .PG =
        true := by
      have hspace : (k₁.countFault c).space c = k.space c := hready.space
      have hpte : (k₁.countFault c).pte = k.pte := congrArg Space.pte hspace
      rwa [(Local.of_pageReady (d := 0) hready).pgdir, hpte]
    simp only [ok_bind]
    cases hfree : ((k₁.countFault c).proc c).freeRamIndex with
    | some i =>
      simp only
      refine ⟨fun a ha => (hw.readAccess_whole hn hPG ha).1, fun k' ok hcall => ?_⟩
      obtain ⟨f', hw', hle⟩ := hw.fetched halign (retrieveInto_ok hn hfree hcall)
      refine ⟨f', hw', hle, fun g j ha => ?_⟩
      obtain ⟨-, _, _, heq⟩ := hw.readAccess_whole hn hPG ha
      contradiction
    | none => exact hw.swap_access hn hPG hfree halign

end Within

section Run

variable {cfg : Config} {c : Slot} {k₀ k k' : Kernel} {f : SwapFile} {ever : Fin discPages → Prop}

/-- A process with an empty swap file and nothing paged out. -/
structure Begins (cfg : Config) (c : Slot) (k : Kernel) : Prop where
  file : (k.proc c).swapFile = some .empty
  disc : ∀ j, ((k.proc c).pagesInDisc j).isUsed = false
  paged : ∀ n, hasFlag (k.pte (k.proc c).pgdir n) .PG = false
  ram : ∀ i, ((k.proc c).pagesInPhysicalMemory i).isUsed = true →
    ∃ n < userPages, ((k.proc c).pagesInPhysicalMemory i).virtualAddress = n * pgSize
  free : FreeValid cfg k

/-- What the rest of the system does to a process between its calls: it sets accessed bits and ages,
and takes and gives back frames. -/
structure Meanwhile (cfg : Config) (c : Slot) (k k' : Kernel) : Prop where
  pgdir : (k'.proc c).pgdir = (k.proc c).pgdir
  swapFile : (k'.proc c).swapFile = (k.proc c).swapFile
  disc : (k'.proc c).pagesInDisc = (k.proc c).pagesInDisc
  ram : ∀ i, ((k'.proc c).pagesInPhysicalMemory i).isUsed = true →
    ((k.proc c).pagesInPhysicalMemory i).isUsed = true ∧
      ((k'.proc c).pagesInPhysicalMemory i).virtualAddress =
        ((k.proc c).pagesInPhysicalMemory i).virtualAddress
  paged : ∀ n, hasFlag (k'.pte (k.proc c).pgdir n) .PG = hasFlag (k.pte (k.proc c).pgdir n) .PG
  free : FreeValid cfg k'

/-- The calls of process `c` from `k₀` on, for any page directories and sizes, with the disc slots
that were ever in use. `retrievePage` is called for a page that is paged out, as `trap` sees to. -/
inductive SwapRun (cfg : Config) (c : Slot) (k₀ : Kernel) : (Fin discPages → Prop) → Kernel → Prop
  | start : SwapRun cfg c k₀ (fun j => ((k₀.proc c).pagesInDisc j).isUsed = true) k₀
  | alloc {ever : Fin discPages → Prop} {k k' : Kernel} {d : Frame} {oldsz newsz r : Nat}
      {isImportant : Int} (h : SwapRun cfg c k₀ ever k)
      (hcall : k.allocuvm cfg c d oldsz newsz isImportant = .ok (k', r)) :
      SwapRun cfg c k₀ (fun j => ever j ∨ (∃ f, .write f j ∈ k.allocAccess cfg c d oldsz newsz isImportant) ∨
        ((k'.proc c).pagesInDisc j).isUsed = true) k'
  | dealloc {ever : Fin discPages → Prop} {k k' : Kernel} {d : Frame} {oldsz newsz r : Nat}
      (h : SwapRun cfg c k₀ ever k) (hold : oldsz ≤ kernBase)
      (hcall : k.deallocuvm cfg c d oldsz newsz = .ok (k', r)) : SwapRun cfg c k₀ ever k'
  | retrieve {ever : Fin discPages → Prop} {k k' : Kernel} {cr2 : Nat} {ok : Bool}
      (h : SwapRun cfg c k₀ ever k) (hcr2 : cr2 < 2 ^ 32)
      (hcheck : k.checkPTForPage (k.proc c).pgdir cr2 = true)
      (hcall : k.retrievePage cfg c cr2 = .ok (k', ok)) :
      SwapRun cfg c k₀ (fun j => ever j ∨ (∃ f, .write f j ∈ k.retrieveAccess cfg c cr2) ∨
        ((k'.proc c).pagesInDisc j).isUsed = true) k'
  | meanwhile {ever : Fin discPages → Prop} {k k' : Kernel} (h : SwapRun cfg c k₀ ever k)
      (hother : Meanwhile cfg c k k') : SwapRun cfg c k₀ ever k'

/-- The disc slots of a process fit its swap file `f`, now and in the call it makes next. -/
structure Fits (cfg : Config) (c : Slot) (ever : Fin discPages → Prop) (k : Kernel) (f : SwapFile) :
    Prop where
  file : (k.proc c).swapFile = some f
  below : ∀ j, (∀ i, (k.proc c).getAvailablePageIndexDisk = some i → j < i) →
    pgSize * j + pgSize ≤ f.size
  ever : ∀ j, ever j → pgSize * j + pgSize ≤ f.size
  lowest : ∀ i, (k.proc c).getAvailablePageIndexDisk = some i → pgSize * i ≤ f.size
  size : f.size ≤ discPages * pgSize ∧ discPages * pgSize ≤ maxFile * bSize
  writes : ∀ d oldsz newsz isImportant, ∀ a ∈ k.allocAccess cfg c d oldsz newsz isImportant, a.Whole
  reads : ∀ cr2 < 2 ^ 32, k.checkPTForPage (k.proc c).pgdir cr2 = true →
    ∀ a ∈ k.retrieveAccess cfg c cr2, a.Whole

private theorem Begins.within (h : Begins cfg c k) : Within cfg c k .empty where
  space := {
    swap := h.file
    size := Nat.zero_le _
    used := by
      intro j hj
      exact absurd hj (by simp [Kernel.space, h.disc j])
    ram := h.ram
    disc := by
      intro j hj
      exact absurd hj (by simp [Kernel.space, h.disc j])
    paged := by
      intro n hn
      exact absurd hn (by simp [Kernel.space, h.paged n]) }
  free := h.free

private theorem Within.meanwhile (h : Within cfg c k f) (ho : Meanwhile cfg c k k') :
    Within cfg c k' f where
  space := by
    have hs := h.space
    have hdisc : (k'.space c).disc = (k.space c).disc := ho.disc
    rw [ho.pgdir]
    refine ⟨ho.swapFile.trans hs.swap, hs.size, ?_, ?_, ?_, ?_⟩
    · rw [hdisc]
      exact hs.used
    · intro i hi
      obtain ⟨hused, haddr⟩ := ho.ram i hi
      obtain ⟨n, hn, heq⟩ := hs.ram i hused
      exact ⟨n, hn, haddr.trans heq⟩
    · rw [hdisc]
      exact hs.disc
    · intro n hn
      rw [hdisc]
      exact hs.paged n ((ho.paged n).symm.trans hn)
  free := ho.free

private theorem SwapRun.within (h₀ : Begins cfg c k₀) (h : SwapRun cfg c k₀ ever k) :
    ∃ f, Within cfg c k f ∧ ∀ j, ever j → pgSize * j + pgSize ≤ f.size := by
  induction h with
  | start => exact ⟨_, h₀.within, h₀.within.space.used⟩
  | alloc _ hcall ih =>
    obtain ⟨f, hw, hever⟩ := ih
    obtain ⟨f', hwritten⟩ := (hw.alloc_access _ _ _).2 _ _ hcall
    exact ⟨f', hwritten.within, hwritten.ever hever⟩
  | dealloc _ hold hcall ih =>
    obtain ⟨f, hw, hever⟩ := ih
    exact ⟨f, hw.dealloc hold hcall, hever⟩
  | retrieve _ hcr2 hcheck hcall ih =>
    obtain ⟨f, hw, hever⟩ := ih
    obtain ⟨f', hwritten⟩ := (hw.retrieve_access hcr2 hcheck).2 _ _ hcall
    exact ⟨f', hwritten.within, hwritten.ever hever⟩
  | meanwhile _ hother ih =>
    obtain ⟨f, hw, hever⟩ := ih
    exact ⟨f, hw.meanwhile hother, hever⟩

/-- Along every run of calls the disc slots fit the swap file, no write is refused and no read short. -/
theorem swap_offsets_inside (h₀ : Begins cfg c k₀) (h : SwapRun cfg c k₀ ever k) :
    ∃ f, Fits cfg c ever k f := by
  obtain ⟨f, hw, hever⟩ := h.within h₀
  refine ⟨f, hw.space.swap, ?_, hever, fun i hi => hw.space.free_le hi, ⟨hw.space.size, by decide⟩,
    fun d oldsz newsz isImportant => (hw.alloc_access oldsz newsz isImportant).1,
    fun cr2 hcr2 hcheck => (hw.retrieve_access hcr2 hcheck).1⟩
  intro j hj
  apply hw.space.used
  cases hfree : (k.space c).freeSlot with
  | none => simpa using Scan.first_eq_none.mp hfree j
  | some i => exact Space.freeSlot_below hfree (hj i hfree)

end Run

end Kernel

theorem Solo.begins (s : Solo) {cfg : Config} (hcfg : cfg.kernelEnd ≤ 2 ^ 20) :
    Kernel.Begins cfg Solo.main s.kernel where
  file := rfl
  disc _ := rfl
  paged n := (s.kernel_present n _).2
  ram i hi := by
    have hsmall := s.small
    obtain ⟨n, hslot, hnames⟩ := s.ram_used hi
    have hlt := s.slot_lt i n hslot
    have hpages : 1000 ≤ userPages := by decide
    exact ⟨n, by omega, hnames.addr⟩
  free := s.freeValid hcfg

namespace Kernel

/-- The RAM table is full: growing sends page 0 to the swap file, and a fault brings it back. -/
theorem swap_offsets_inside_full :
    ∃ ever k, SwapRun (Solo.config .FIFO) Solo.main Solo.full.kernel ever k ∧ ever ⟨0, by decide⟩ ∧
      ∃ f, Fits (Solo.config .FIFO) Solo.main ever k f ∧ pgSize ≤ f.size := by
  have hgrow : ((Solo.full.kernel.allocuvm (Solo.config .FIFO) Solo.main (Solo.frame 0) 61440 65536
      0).toOption.map fun r => decide (r.1.checkPTForPage (r.1.proc Solo.main).pgdir 0 = true) &&
        ((r.1.proc Solo.main).pagesInDisc ⟨0, by decide⟩).isUsed &&
        (r.1.retrievePage (Solo.config .FIFO) Solo.main 0).toOption.isSome) = some true := by
    decide +kernel
  obtain ⟨⟨k₁, r⟩, halloc, hfacts⟩ := Option.map_eq_some_iff.mp hgrow
  simp only [Bool.and_eq_true, decide_eq_true_eq] at hfacts
  obtain ⟨⟨hcheck, hused⟩, hfault⟩ := hfacts
  obtain ⟨⟨k₂, ok⟩, hretrieve⟩ := Option.isSome_iff_exists.mp hfault
  have hrun := (SwapRun.start.alloc (toOption_eq_some.mp halloc)).retrieve (by decide) hcheck
    (toOption_eq_some.mp hretrieve)
  refine ⟨_, k₂, hrun, .inl (.inr (.inr hused)), ?_⟩
  obtain ⟨f, hfits⟩ := swap_offsets_inside (Solo.full.begins (le_refl _)) hrun
  exact ⟨f, hfits, hfits.ever ⟨0, by decide⟩ (.inl (.inr (.inr hused)))⟩

end Kernel

end OsSessional.Paging
