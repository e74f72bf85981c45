import OsSessional.Paging.Contents
import OsSessional.Paging.Supply
import OsSessional.Paging.Whole

/-!
# Calls of `growproc` that fail

`allocuvm` drops every page it has placed when the frames run out, and `deallocuvm` drops the pages above
the size it is given. Two things go wrong: size 0 is also the error value, so `growproc(-sz)` reports a
failure with no page left, and the page tables a failed growth added stay.
-/

namespace OsSessional.Paging

open Function (update update_self update_of_ne)
open Outcome

namespace Kernel

section Statement

/-- What page `n` of `d` holds: the bytes of its frame, or those of a slot in use that names it. -/
inductive Contains (k : Kernel) (c : Slot) (d : Frame) (n : Nat) : Page → Prop
  | resident (hP : hasFlag (k.pte d n) .P = true) : Contains k c d n (k.mem (pteAddr (k.pte d n)))
  | stored {j : Fin discPages} {f : SwapFile} (hPG : hasFlag (k.pte d n) .PG = true)
      (hused : ((k.proc c).pagesInDisc j).isUsed = true) (hnames : Names ((k.proc c).pagesInDisc j) d n)
      (hfile : (k.proc c).swapFile = some f) : Contains k c d n fun x => f.data (pgSize * j + x)

/-- The pages below the size are mapped, and no other. -/
structure Covers (k : Kernel) (c : Slot) : Prop where
  mapped : k.MappedBelow (k.proc c).pgdir (k.proc c).sz
  beyond : ∀ n, pages (k.proc c).sz ≤ n → n < userPages → (k.space c).Unmapped (k.proc c).pgdir n

/-- The address space of process `c` is what it was, every frame taken has been given back, and the slots
taken that are still in use hold pages below the size. -/
structure Untouched (k k' : Kernel) (c : Slot) : Prop where
  sz : (k'.proc c).sz = (k.proc c).sz
  pgdir : (k'.proc c).pgdir = (k.proc c).pgdir
  covers : k'.Covers c
  bytes : ∀ n < pages (k.proc c).sz, ∀ page, Contains k c (k.proc c).pgdir n page →
    Contains k' c (k.proc c).pgdir n page
  frames : (k.ledger allCounted k.Live).Returned (k'.ledger allCounted k.Live)
  ram : ∀ i, ((k'.proc c).pagesInPhysicalMemory i).isUsed = true →
    ∃ n < pages (k.proc c).sz, Names ((k'.proc c).pagesInPhysicalMemory i) (k.proc c).pgdir n
  disc : ∀ j, ((k'.proc c).pagesInDisc j).isUsed = true →
    (k'.proc c).pagesInDisc j = (k.proc c).pagesInDisc j ∨
      ∃ n < pages (k.proc c).sz, Names ((k'.proc c).pagesInDisc j) (k.proc c).pgdir n

/-- The size below which the call leaves every page in its place. -/
def keptSize (k : Kernel) (c : Slot) (x : Int) : Nat :=
  if x < 0 then min (k.newSize c x) (k.proc c).sz else (k.proc c).sz

/-- The frames run out at a page of the growth, and a page before it had no page table. -/
structure RunsDry (cfg : Config) (k : Kernel) (c : Slot) (x : Int) : Prop extends k.Grows c x where
  dry : ∃ i < pages (k.newSize c x) - pages (k.proc c).sz,
    (∀ i' < i, k.needed (k.proc c).pgdir (pages (k.proc c).sz) (i' + 1) ≤
      k.supply cfg c (k.proc c).pgdir (pages (k.proc c).sz) i') ∧
    k.supply cfg c (k.proc c).pgdir (pages (k.proc c).sz) i <
      k.needed (k.proc c).pgdir (pages (k.proc c).sz) (i + 1) ∧
    (k.missingTables (k.proc c).pgdir (pages (k.proc c).sz) i).Nonempty

end Statement

variable {cfg : Config} {L : Frame → Prop} {k k' k₀ k₁ k₂ : Kernel} {c : Slot} {d : Frame}
variable {m n lo mid hi : Nat} {isImportant : Int} {ok : Bool}

section Pages

/-- Page `n` is where it was or went out, with the bytes it had. -/
structure PageKept (c : Slot) (d : Frame) (n : Nat) (k k' : Kernel) : Prop where
  entry : k'.pte d n = k.pte d n ∨
    hasFlag (k.pte d n) .P = true ∧ hasFlag (k'.pte d n) .P = false
  bytes : ∀ page, Contains k c d n page → Contains k' c d n page

private theorem PageKept.refl : PageKept c d n k k := ⟨.inl rfl, fun _ h => h⟩

private theorem PageKept.trans (h : PageKept c d n k k₁) (h' : PageKept c d n k₁ k₂) :
    PageKept c d n k k₂ where
  entry := by
    rcases h'.entry with heq | ⟨hP, hout⟩
    · rw [heq]
      exact h.entry
    · rcases h.entry with heq | ⟨-, hout'⟩
      · rw [heq] at hP
        exact .inr ⟨hP, hout⟩
      · simp [hout'] at hP
  bytes page hpage := h'.bytes page (h.bytes page hpage)

private theorem PageKept.of_same (hpte : k'.pte d n = k.pte d n)
    (hmem : hasFlag (k.pte d n) .P = true → k'.mem (pteAddr (k.pte d n)) = k.mem (pteAddr (k.pte d n)))
    (hdisc : ∀ j, ((k.proc c).pagesInDisc j).isUsed = true → Names ((k.proc c).pagesInDisc j) d n →
      (k'.proc c).pagesInDisc j = (k.proc c).pagesInDisc j)
    (hswap : (k'.proc c).swapFile = (k.proc c).swapFile) : PageKept c d n k k' where
  entry := .inl hpte
  bytes page hpage := by
    cases hpage with
    | resident hP =>
      have hres : Contains k' c d n (k'.mem (pteAddr (k'.pte d n))) := .resident (by rwa [hpte])
      rwa [hpte, hmem hP] at hres
    | @stored j f hPG hused hnames hfile =>
      have hsame := hdisc j hused hnames
      exact .stored (by rwa [hpte]) (by rwa [hsame]) (by rwa [hsame]) (by rwa [hswap])

private theorem Mapped.pageKept
    {perm : PTE} {page : Page} {mem : Frame} (hmap : Mapped k d lo perm page mem k')
    (hf : FramesSound cfg allCounted L k) (hd : L d) (hn : n < userPages) (hne : n ≠ lo) :
    PageKept c d n k k' := by
  obtain ⟨rest, hfree⟩ := hmap.free
  apply PageKept.of_same
  · rw [hmap.pte, setEntry_of_ne fun _ => hne]
  · intro hP
    rw [hmap.mem_eq, update_of_ne]
    rintro rfl
    exact hf.page_not_free hd hn hP (by simp [hfree])
  · intro j _ _
    rw [hmap.proc]
  · rw [hmap.proc]

private theorem Evicted.pageKept
    {note : PageData → PageData → PageData} {i : Fin maxPyscPages} {j : Fin discPages}
    {f : SwapFile} {page : Page} (hev : Evicted cfg note k k' c i j f page) (hnote : IsNote note)
    (hf : FramesSound cfg allCounted L k) (hd : L d) (hpgdir : (k.proc c).pgdir = d)
    (hs : (k.space c).Sound (· = d)) (hn : n < userPages) : PageKept c d n k k' := by
  obtain ⟨v, hout⟩ := hev.pageOut hnote hs
  by_cases hne : n = v
  · subst hne
    have hPG : hasFlag (k'.pte d n) .PG = true := by simp [hout.pte, hasFlag_pageOutPte]
    refine ⟨.inr ⟨hout.present, by simp [hout.pte, hasFlag_pageOutPte]⟩, ?_⟩
    intro pg hpg
    cases hpg with
    | resident _ =>
      have hstored : Contains k' c d n fun x =>
          (f.overlay (pageBytes page) (pgSize * j) pgSize).data (pgSize * j + x) :=
        .stored hPG hout.entry.1 hout.entry.2 hout.written
      have heq : (fun x : Fin pgSize =>
          (f.overlay (pageBytes page) (pgSize * j) pgSize).data (pgSize * j + x)) =
            k.mem (pteAddr (k.pte d n)) := by
        funext x
        rw [overlay_self, ← hout.page_eq hpgdir]
        simp [pageBytes]
      rwa [heq] at hstored
    | stored hPG hused' hnames hfile =>
      have hno := hs.not_paged rfl hn hout.present
      simp only [Kernel.space] at hno
      simp [hno] at hPG
  · have hentry : k'.pte d n = k.pte d n := by rw [hout.pte, setEntry_of_ne fun _ => hne]
    refine ⟨.inl hentry, ?_⟩
    intro pg hpg
    cases hpg with
    | resident hP' =>
      have hres : Contains k' c d n (k'.mem (pteAddr (k'.pte d n))) := .resident (by rwa [hentry])
      rwa [hentry, hout.mem, update_of_ne] at hres
      exact fun heq => hne (hf.page_inj hd hn hout.lt hP' hout.present heq)
    | @stored j' g hPG hused' hnames hfile =>
      obtain rfl := Option.some.inj (hfile.symm.trans hout.swapFile)
      have hjj : j' ≠ j := by
        rintro rfl
        simp [hout.slot] at hused'
      have hsame := hout.disc_of_ne j' hjj
      have hstored : Contains k' c d n fun x =>
          (g.overlay (pageBytes page) (pgSize * j) pgSize).data (pgSize * j' + x) :=
        .stored (by rwa [hentry]) (by rwa [hsame]) (by rwa [hsame]) hout.written
      simpa only [overlay_of_ne g _ hjj] using hstored

private theorem tracked_pageKept {d' : Frame} {va : Nat} :
    PageKept c d n k (k.updatePhysicalPageMetaData c d' va isImportant) :=
  .of_same rfl (fun _ => rfl) (fun _ _ _ => by simp [updatePhysicalPageMetaData])
    (by simp [updatePhysicalPageMetaData])

private theorem countFault_pageKept : PageKept c d n k (k.countFault c) :=
  .of_same rfl (fun _ => rfl) (fun _ _ _ => by simp [countFault]) (by simp [countFault])

private theorem Dropped.pageKept
    (hdrop : Dropped cfg c d lo k k') (hf : FramesSound cfg allCounted L k) (hd : L d)
    (hn : n < userPages) (hlo : lo < userPages) (hne : n ≠ lo) : PageKept c d n k k' := by
  have hpte : k'.pte d n = k.pte d n := by
    have hspace := hdrop.space.pte_of_ne hne
    exact hspace
  cases hdrop with
  | present hP hvalid =>
    apply PageKept.of_same hpte
    · intro hP'
      simp only [setPte_mem, setProc_mem, freed_mem]
      exact update_of_ne (fun heq => hne (hf.page_inj hd hn hlo hP' hP heq)) _ _
    · intro j _ _
      simp [Proc.removePhysicalPageMetaData]
    · simp [Proc.removePhysicalPageMetaData]
  | paged hP hPG =>
    apply PageKept.of_same hpte (fun _ => rfl)
    · intro j hused hnames
      simp only [setPte_proc, setProc_proc_self, Proc.removeDiscMetaData]
      apply Space.removeFrom_of_ne
      exact fun _ hnames' => hne (Space.page_ext (hnames.addr.symm.trans hnames'.addr))
    · simp [Proc.removeDiscMetaData]
  | unmapped hP hPG => exact .refl

end Pages

section Frames

variable {fr : Frame}

private theorem known_release {o : Owner} {r : Frame} (h : (k.ledger allCounted L).Known fr)
    (ho : k.held allCounted L o = some r) (hfree : k'.freelist = r :: k.freelist)
    (hheld : k'.held allCounted L = update (k.held allCounted L) o none) :
    (k'.ledger allCounted L).Known fr := by
  have heq : k'.ledger allCounted L =
      { free := r :: (k.ledger allCounted L).free, held := update (k.ledger allCounted L).held o none } := by
    simp [Kernel.ledger, hfree, hheld]
  rw [heq]
  exact h.release ho

private theorem Dropped.known (hdrop : Dropped cfg c d n k k') (hf : FramesSound cfg allCounted L k) (hd : L d)
    (hn : n < userPages) (h : (k.ledger allCounted L).Known fr) : (k'.ledger allCounted L).Known fr := by
  rcases hf.dropped_ledger hd hn hdrop with ⟨hfree, hheld⟩ | ⟨o, r, ho, hfree, hheld⟩
  · have heq : k'.ledger allCounted L = k.ledger allCounted L := by simp [Kernel.ledger, hfree, hheld]
    rwa [heq]
  · exact known_release h ho hfree hheld

private theorem Evicted.known {note : PageData → PageData → PageData} {i : Fin maxPyscPages} {j : Fin discPages}
    {f : SwapFile} {page : Page} (hev : Evicted cfg note k k' c i j f page)
    (hnote : IsNote note) (hf : FramesSound cfg allCounted L k) (hd : L d) (hs : (k.space c).Sound (· = d))
    (h : (k.ledger allCounted L).Known fr) : (k'.ledger allCounted L).Known fr := by
  obtain ⟨o, r, ho, hfree, hheld⟩ := hf.evicted_ledger hnote hs hd hev
  exact known_release h ho hfree hheld

private theorem TableReady.known {i : Nat} (htable : TableReady k d i k') (hd : L d)
    (h : (k.ledger allCounted L).Known fr) : (k'.ledger allCounted L).Known fr := by
  cases htable with
  | there _ => exact h
  | @added r rest hfree hnone =>
    have hheld : (k.addTable d i r rest).held allCounted L =
        update (k.held allCounted L) (.table d i) (some r) := held_addTable hd hnone
    by_cases he : fr = r
    · subst he
      exact .inr ⟨.table d i, by simp [Kernel.ledger, hheld]⟩
    · have heq : (k.addTable d i r rest).ledger allCounted L =
          { free := rest, held := update (k.ledger allCounted L).held (.table d i) (some r) } := by
        simp only [Kernel.ledger, hheld]
        rfl
      have hempty : (k.ledger allCounted L).held (.table d i) = none := by simp [Kernel.ledger, held, hnone]
      have htaken : Ledger.Known { k.ledger allCounted L with free := rest } fr := h.take hfree he
      rw [heq]
      exact htaken.grant hempty (some r)

private theorem Mapped.known {perm : PTE} {page : Page} {mem : Frame} (hmap : Mapped k d n perm page mem k')
    (hf : FramesSound cfg allCounted L k) (hd : L d) (hn : n < userPages) (hperm : pteAddr perm = 0)
    (h : (k.ledger allCounted L).Known fr) : (k'.ledger allCounted L).Known fr := by
  have hsame := hmap.pte
  cases hmap with | @intro rest k₁ hfree htable habsent =>
  have hvalid := hf.valid_free mem (by simp [hfree])
  have hP : hasFlag (mapPte mem perm) .P = true := by
    have hset := hasFlag_set (mem ||| perm) .P .P
    simpa [mapPte, Flag.mask] using hset
  by_cases he : fr = mem
  · subst he
    refine .inr ⟨.page d n, held_page_iff.mpr ⟨hd, hn, ?_, id, ?_⟩⟩
    · rw [hsame, setEntry_self, hP]
    · rw [hsame, setEntry_self, pteAddr_mapPte hvalid.aligned hperm]
  · have htaken : (k₁.ledger allCounted L).Known fr := htable.known hd (h.take hfree he)
    have hempty : (k₁.ledger allCounted L).held (.page d n) = none := by
      have hentry : k₁.pte = k.pte := htable.pte
      simp [Kernel.ledger, held, frameOf_absent, hentry, habsent]
    have heq : (k₁.setPte d n (mapPte mem perm)).ledger allCounted L =
        { k₁.ledger allCounted L with
          held := update (k₁.ledger allCounted L).held (.page d n) (frameOf allCounted (mapPte mem perm)) } := by
      simp only [Kernel.ledger]
      rw [held_setEntry hd hn (setPte_pte_eq (htable.hasTable rfl)) fun _ => setPte_pde]
      rfl
    rw [heq]
    exact htaken.grant hempty _

end Frames

section Attempt

variable {S : Frame → Prop}

/-- What a stretch of an attempt leaves alone: the pages below `lo`, the disc slots from `m` on, and no
frame of `S` gets lost. -/
structure Carried (L : Frame → Prop) (c : Slot) (d : Frame) (m lo : Nat) (S : Frame → Prop)
    (k k' : Kernel) : Prop where
  pages : ∀ n < lo, PageKept c d n k k'
  known : ∀ fr, S fr → (k.ledger allCounted L).Known fr → (k'.ledger allCounted L).Known fr
  disc : ∀ j : Fin discPages, m ≤ j → (k'.proc c).pagesInDisc j = (k.proc c).pagesInDisc j

private theorem Carried.refl : Carried L c d m lo S k k := ⟨fun _ _ => .refl, fun _ _ h => h, fun _ _ => rfl⟩

private theorem Carried.trans (h : Carried L c d m lo S k k₁) (h' : Carried L c d m lo S k₁ k₂) :
    Carried L c d m lo S k k₂ where
  pages n hn := (h.pages n hn).trans (h'.pages n hn)
  known fr hS hfr := h'.known fr hS (h.known fr hS hfr)
  disc j hj := (h'.disc j hj).trans (h.disc j hj)

private theorem tracked_carried {d' : Frame} {va : Nat} :
    Carried L c d m lo S k (k.updatePhysicalPageMetaData c d' va isImportant) where
  pages _ _ := tracked_pageKept
  known _ _ h := h
  disc j _ := by simp [updatePhysicalPageMetaData]

private theorem countFault_carried : Carried L c d m lo S k (k.countFault c) where
  pages _ _ := countFault_pageKept
  known _ _ h := h
  disc j _ := by simp [countFault]

private theorem Mapped.carried {mem : Frame} (hmap : Mapped k d n (pteW ||| pteU) (fun _ => 0) mem k')
    (hf : FramesSound cfg allCounted L k) (hd : L d) (hlo : lo ≤ n) (hn : n < userPages) :
    Carried L c d m lo S k k' where
  pages n' hn' := hmap.pageKept hf hd (by omega) (by omega)
  known fr _ h := hmap.known hf hd hn (by decide) h
  disc j _ := by rw [hmap.proc]

private theorem Evicted.carried {i : Fin maxPyscPages} {j : Fin discPages} {f : SwapFile} {page : Page}
    (hev : Evicted cfg reallocateNote k k' c i j f page) (hf : FramesSound cfg allCounted L k) (hd : L d)
    (hpgdir : (k.proc c).pgdir = d) (hs : (k.space c).Sound (· = d)) (hfence : (k.space c).Fence d m)
    (hlo : lo ≤ userPages) : Carried L c d m lo S k k' where
  pages n hn := hev.pageKept isNote_reallocateNote hf hd hpgdir hs (by omega)
  known fr _ h := hev.known isNote_reallocateNote hf hd hs h
  disc j' hj' := by
    have hfree : ((k.proc c).pagesInDisc j).isUsed = false := by simpa using Scan.first_spec hev.slot
    have hjm := hfence.slot_lt hfree hev.swapFile hev.room
    have hne : j' ≠ j := by
      rintro rfl
      omega
    rw [hev.result]
    simp [evictedProc, hne]

private theorem Placed.carried (hplace : Placed cfg c d isImportant n k k') (h : Healthy cfg allCounted L c d m n k)
    (hpgdir : (k.proc c).pgdir = d) (hd : L d) (hlo : lo ≤ n) (hn : n < userPages) :
    Carried L c d m lo S k k' := by
  have hs := h.image
  cases hplace with
  | noProcess hmap hpid => exact hmap.carried h.frames hd hlo hn
  | tracked hmap hfree => exact (hmap.carried h.frames hd hlo hn).trans tracked_carried
  | stuck hmap hfull hfail => exact (hmap.carried h.frames hd hlo hn).trans countFault_carried
  | @evicting mem k₁ k₂ i j f page hmap hfull hevict =>
    have halign : PageAligned mem := by
      obtain ⟨rest, hfree⟩ := hmap.free
      exact h.frames.aligned_free (by simp [hfree])
    have hframes : FramesSound cfg allCounted L (k₁.countFault c) :=
      (h.frames.mapped hd hn (by decide) hmap).of_eq rfl rfl
    have hspace : (k₁.countFault c).space c = (k.space c).map d n (mapPte mem (pteW ||| pteU)) := by
      rw [countFault_space, hmap.space]
    have hsound : ((k₁.countFault c).space c).Sound (· = d) := by
      rw [hspace]
      exact hs.sound.map (mapPte_flags halign).present (mapPte_flags halign).inMemory
    have hfence : ((k₁.countFault c).space c).Fence d m := by
      rw [hspace]
      exact hs.fence.map (mapPte_flags halign).inMemory
    have hpgdir₁ : ((k₁.countFault c).proc c).pgdir = d := by
      simpa [countFault, hmap.proc] using hpgdir
    have hcarried : Carried L c d m lo S (k₁.countFault c) k₂ :=
      hevict.carried hframes hd hpgdir₁ hsound hfence (by omega)
    exact (((hmap.carried h.frames hd hlo hn).trans countFault_carried).trans hcarried).trans tracked_carried

private theorem Dropped.carried
    (hdrop : Dropped cfg c d n k k') (h : Healthy cfg allCounted L c d m mid k) (hd : L d)
    (hlo : lo ≤ n) (hn : n < userPages) : Carried L c d m lo S k k' where
  pages n' hn' := hdrop.pageKept h.frames hd (by omega) hn (by omega)
  known fr _ hfr := hdrop.known h.frames hd hn hfr
  disc j hj := by
    cases hdrop with
    | present hP hvalid => simp [Proc.removePhysicalPageMetaData]
    | paged hP hPG =>
      obtain ⟨j₁, hj₁, -, -, hremoved⟩ := h.image.fence.removed hn hPG
      have hne : j ≠ j₁ := by
        rintro rfl
        omega
      have heq : Proc.removeFrom (k.proc c).pagesInDisc d (n * pgSize) =
          update (k.proc c).pagesInDisc j₁ (Proc.cleared ((k.proc c).pagesInDisc j₁)) := hremoved
      simp [Proc.removeDiscMetaData, heq, hne]
    | unmapped _ _ => rfl

private theorem Healthy.placedRun_carried
    (h : Healthy cfg allCounted L c d m lo k) (hpgdir : (k.proc c).pgdir = d)
    (hd : L d) (hhi : hi ≤ userPages) (hrun : RangeRun (Placed cfg c d isImportant) hi lo k k') :
    Carried L c d m lo S k k' := by
  have hkeep := hrun.keeps
    (I := fun n k₁ => Healthy cfg allCounted L c d m n k₁ ∧ (k₁.proc c).pgdir = d ∧ Carried L c d m lo S k k₁)
    (fun n k₁ k₂ hlo hn hI hplace => by
      obtain ⟨hh, hdir, hcarried⟩ := hI
      exact ⟨hh.placed hd (by omega) hplace, (Local.of_placed hh.image.sound hplace).pgdir.trans hdir,
        hcarried.trans (hplace.carried hh hdir hd hlo (by omega))⟩)
    ⟨h, hpgdir, .refl⟩
  exact hkeep.2.2

private theorem Healthy.droppedRun_carried (h : Healthy cfg allCounted L c d m mid k) (hd : L d)
    (hhi : hi ≤ userPages) (hrun : RangeRun (Dropped cfg c d) hi lo k k') : Carried L c d m lo S k k' := by
  have hkeep := hrun.keeps_const
    (I := fun k₁ => Healthy cfg allCounted L c d m mid k₁ ∧ Carried L c d m lo S k k₁)
    (fun n k₁ k₂ hlo hn hI hdrop => by
      obtain ⟨hh, hcarried⟩ := hI
      exact ⟨hh.dropped hd (by omega) hdrop, hcarried.trans (hdrop.carried hh hd hlo (by omega))⟩)
    ⟨h, .refl⟩
  exact hkeep.2

private theorem Grown.carried (hg : Grown cfg c d isImportant lo hi k k' false)
    (h : Healthy cfg allCounted L c d m lo k) (hpgdir : (k.proc c).pgdir = d) (hd : L d)
    (hhi : hi ≤ userPages) : Carried L c d m lo (fun _ => True) k k' := by
  cases hg with
  | @noFrame mid k₁ _ hm hm' hplaced hfree hdropped =>
    have h₁ := (h.placedRun hd hm (by omega) hplaced).1
    exact (h.placedRun_carried hpgdir hd (by omega) hplaced).trans (h₁.droppedRun_carried hd hhi hdropped)
  | @noTable mid mem k₁ k₂ hm hm' hplaced hfree hnone hdropped hvalid =>
    have h₁ := (h.placedRun hd hm (by omega) hplaced).1
    obtain ⟨htaken, hidle⟩ := h₁.frames.take
      ({ k₁ with freelist := [] }.setMem mem fun _ => 0) hfree rfl rfl
    have hmid : Healthy cfg allCounted L c d m mid ({ k₁ with freelist := [] }.setMem mem fun _ => 0) :=
      ⟨h₁.image, htaken⟩
    obtain ⟨h₂, -, hidle₂⟩ := hmid.droppedRun hd hhi hdropped
    have hplacing : Carried L c d m lo (fun _ => True) k k₁ := h.placedRun_carried hpgdir hd (by omega) hplaced
    have htaking : Carried L c d m lo (· ≠ mem) k₁ ({ k₁ with freelist := [] }.setMem mem fun _ => 0) := by
      refine ⟨fun n hn => ?_, fun fr hne hfr => hfr.take hfree hne, fun _ _ => rfl⟩
      refine .of_same rfl (fun hP => ?_) (fun _ _ _ => rfl) rfl
      apply update_of_ne
      rintro rfl
      exact h₁.frames.page_not_free hd (by omega) hP (by simp [hfree])
    have hdropping : Carried L c d m lo (· ≠ mem) ({ k₁ with freelist := [] }.setMem mem fun _ => 0) k₂ :=
      hmid.droppedRun_carried hd hhi hdropped
    have hgiving : Carried L c d m lo (fun _ => True) k₂ (k₂.freed mem) := by
      refine ⟨fun n hn => ?_, fun fr _ hfr => hfr.imp (List.mem_cons_of_mem _) fun hheld => hheld,
        fun _ _ => rfl⟩
      refine .of_same rfl (fun hP => ?_) (fun _ _ _ => rfl) rfl
      exact update_of_ne (page_not_idle hd (by omega) hP (hidle₂ mem hidle)) _ _
    refine ⟨fun n hn => ?_, fun fr hfr hknown => ?_, fun j hj => ?_⟩
    · exact ((hplacing.pages n hn).trans ((htaking.trans hdropping).pages n hn)).trans (hgiving.pages n hn)
    · by_cases he : fr = mem
      · exact .inl (by simp [Kernel.ledger, freed, he])
      · exact hgiving.known fr hfr ((htaking.trans hdropping).known fr he (hplacing.known fr hfr hknown))
    · exact (hgiving.disc j hj).trans (((htaking.trans hdropping).disc j hj).trans (hplacing.disc j hj))

end Attempt

section Tables

private theorem TableReady.pde_eq
    {i : Nat} (h : TableReady k d i k') (hthere : ((k.dirs d).pde i).isSome = true) :
    k'.dirs = k.dirs := by
  cases h with
  | there _ => rfl
  | added _ hnone => simp [hnone] at hthere

private theorem Placed.pde_eq (h : Placed cfg c d isImportant n k k') (hthere : k.hasTable d n = true) :
    (k'.dirs d).pde = (k.dirs d).pde := by
  obtain ⟨mem, k₁, hmap, hpde⟩ := h.mapped
  rw [hpde]
  cases hmap with
  | intro hfree htable habsent =>
    rw [setPte_pde, htable.pde_eq hthere]
    rfl

theorem Dropped.pde (h : Dropped cfg c d n k k') : (k'.dirs d).pde = (k.dirs d).pde := by
  cases h with
  | present hP hvalid => exact setPte_pde
  | paged hP hPG => exact setPte_pde
  | unmapped _ _ => rfl

private theorem droppedRun_pde (hrun : RangeRun (Dropped cfg c d) hi lo k k') :
    (k'.dirs d).pde = (k.dirs d).pde :=
  hrun.keeps_const (I := fun k₁ => (k₁.dirs d).pde = (k.dirs d).pde)
    (fun _ _ _ _ _ hI hdrop => hdrop.pde.trans hI) rfl

private theorem placedRun_pde (hrun : RangeRun (Placed cfg c d isImportant) hi lo k k')
    (hthere : ∀ n, lo ≤ n → n < hi → k.hasTable d n = true) : (k'.dirs d).pde = (k.dirs d).pde :=
  hrun.keeps_const (I := fun k₁ => (k₁.dirs d).pde = (k.dirs d).pde)
    (fun n k₁ k₂ hlo hn hI hplace => by
      have htable := hthere n hlo hn
      unfold Kernel.hasTable at htable
      rw [← hI] at htable
      exact (hplace.pde_eq htable).trans hI) rfl

end Tables

section Dry

private theorem RunsDry.adds {x : Int} (hdry : RunsDry cfg k c x)
    (hh : Healthy cfg allCounted L c (k.proc c).pgdir m (pages (k.proc c).sz) k) (hd : L (k.proc c).pgdir)
    (hpid : (k.proc c).pid ≠ 0)
    (hg : Grown cfg c (k.proc c).pgdir 0 (pages (k.proc c).sz) (pages (k.newSize c x)) k k' ok) :
    ok = false ∧ ∃ t, (k.dirs (k.proc c).pgdir).pde t = none ∧
      ((k'.dirs (k.proc c).pgdir).pde t).isSome = true := by
  obtain ⟨hgrows, i, hi, hfits, hshort, t, ht⟩ := hdry
  have hhi := pages_le_userPages (le_of_lt hgrows.lt)
  have hnone : (k.dirs (k.proc c).pgdir).pde t = none := (Finset.mem_filter.mp ht).2
  -- the growth ends at that page
  have hadded : ∀ {mid : Nat} {k₁ : Kernel}, pages (k.proc c).sz ≤ mid → mid < pages (k.newSize c x) →
      RangeRun (Placed cfg c (k.proc c).pgdir 0) mid (pages (k.proc c).sz) k k₁ →
      k₁.OutOfFrames (k.proc c).pgdir mid → (k'.dirs (k.proc c).pgdir).pde = (k₁.dirs (k.proc c).pgdir).pde →
      ((k'.dirs (k.proc c).pgdir).pde t).isSome = true := by
    intro mid k₁ hm hm' hplaced hout hpde
    have hsupplied := hh.supplied hd hpid hm (by omega) hplaced
    rw [show mid = pages (k.proc c).sz + (mid - pages (k.proc c).sz) by omega, hsupplied.out_iff] at hout
    obtain rfl : i = mid - pages (k.proc c).sz := by
      apply le_antisymm
      · by_contra hlt
        have := hfits _ (by omega : mid - pages (k.proc c).sz < i)
        omega
      · by_contra hlt
        have := hsupplied.fits i (by omega)
        omega
    rw [hpde, Option.isSome_iff_ne_none]
    exact fun hstill => ((hsupplied.pde t).mp hstill).2 ht
  cases hg with
  | full hrun =>
    have hsupplied := hh.supplied hd hpid (by omega) hhi hrun
    have := hsupplied.fits i hi
    omega
  | noFrame hm hm' hplaced hfree hdropped =>
    exact ⟨rfl, t, hnone, hadded hm hm' hplaced (.inl hfree) (droppedRun_pde hdropped)⟩
  | @noTable mid mem k₁ k₂ hm hm' hplaced hfree hno hdropped hvalid =>
    have hpde := droppedRun_pde hdropped
    exact ⟨rfl, t, hnone, hadded hm hm' hplaced (.inr ⟨_, hfree, hno⟩) hpde⟩

private theorem Grown.pde_eq {x : Int} (hgrows : k.Grows c x) (hdry : ¬ RunsDry cfg k c x)
    (hh : Healthy cfg allCounted L c (k.proc c).pgdir m (pages (k.proc c).sz) k) (hd : L (k.proc c).pgdir)
    (hpid : (k.proc c).pid ≠ 0)
    (hg : Grown cfg c (k.proc c).pgdir 0 (pages (k.proc c).sz) (pages (k.newSize c x)) k k' false) :
    (k'.dirs (k.proc c).pgdir).pde = (k.dirs (k.proc c).pgdir).pde := by
  have hhi := pages_le_userPages (le_of_lt hgrows.lt)
  have hthere : ∀ {mid : Nat} {k₁ : Kernel}, pages (k.proc c).sz ≤ mid → mid < pages (k.newSize c x) →
      RangeRun (Placed cfg c (k.proc c).pgdir 0) mid (pages (k.proc c).sz) k k₁ →
      k₁.OutOfFrames (k.proc c).pgdir mid → ∀ n, pages (k.proc c).sz ≤ n → n < mid →
      k.hasTable (k.proc c).pgdir n = true := by
    intro mid k₁ hm hm' hplaced hout n hn hnm
    have hsupplied := hh.supplied hd hpid hm (by omega) hplaced
    rw [show mid = pages (k.proc c).sz + (mid - pages (k.proc c).sz) by omega, hsupplied.out_iff] at hout
    by_contra hnew
    have hnone : (k.dirs (k.proc c).pgdir).pde (n / nptEntries) = none := by simpa [hasTable] using hnew
    refine hdry ⟨hgrows, mid - pages (k.proc c).sz, by omega, hsupplied.fits, hout, n / nptEntries, ?_⟩
    refine Finset.mem_filter.mpr ⟨Finset.mem_image.mpr ⟨n, Finset.mem_Ico.mpr ⟨hn, ?_⟩, rfl⟩, hnone⟩
    omega
  cases hg with
  | noFrame hm hm' hplaced hfree hdropped =>
    exact (droppedRun_pde hdropped).trans (placedRun_pde hplaced (hthere hm hm' hplaced (.inl hfree)))
  | @noTable mid mem k₁ k₂ hm hm' hplaced hfree hno hdropped hvalid =>
    have hpde := droppedRun_pde hdropped
    have hplacing := placedRun_pde hplaced (hthere hm hm' hplaced (.inr ⟨_, hfree, hno⟩))
    exact hpde.trans hplacing

end Dry

section Failure

variable {as : List Action} {x : Int}

private theorem covers_of_tidy (h : (k.space c).Tidy (k.proc c).pgdir m (pages (k.proc c).sz))
    (hmapped : k.MappedBelow (k.proc c).pgdir (k.proc c).sz) : k.Covers c :=
  ⟨hmapped, h.image.beyond⟩

private theorem ram_below (h : (k.space c).Tidy d m hi) {i : Fin maxPyscPages}
    (hused : ((k.proc c).pagesInPhysicalMemory i).isUsed = true) :
    ∃ n < hi, Names ((k.proc c).pagesInPhysicalMemory i) d n := by
  obtain ⟨_, n, rfl, hn, hnames, hP⟩ := h.image.sound.ram i hused
  refine ⟨n, ?_, hnames⟩
  by_contra hge
  have habsent := (h.image.beyond n (by omega) hn).1
  simp [hP] at habsent

private theorem disc_below (h : (k.space c).Tidy d m hi) {j : Fin discPages} (hj : j.val < m)
    (hused : ((k.proc c).pagesInDisc j).isUsed = true) :
    ∃ n < hi, Names ((k.proc c).pagesInDisc j) d n := by
  obtain ⟨n, hn, hnames, hor⟩ := h.noStale.names j hj hused
  refine ⟨n, ?_, hnames⟩
  rcases hor with hPG | ⟨rfl, hpos⟩
  · by_contra hge
    have habsent := (h.image.beyond n (by omega) hn).2
    simp [hPG] at habsent
  · exact hpos

theorem PageKept.mapped (h : PageKept c d n k k') (hs : (k.space c).Sound (· = d)) (hn : n < userPages)
    (hmapped : (k'.space c).MappedPage d n) : (k.space c).MappedPage d n := by
  rcases h.entry with heq | ⟨hP, -⟩
  · exact hmapped.congr heq.symm
  · have hPG := hs.not_paged rfl hn hP
    unfold Space.MappedPage
    rw [show hasFlag ((k.space c).pte d n) .P = true from hP, hPG]
    rfl

private theorem held_of_carried
    {S : Frame → Prop} (hl : Local c d k k') (hcarried : Carried L c d m lo S k k')
    (hpde : (k'.dirs d).pde = (k.dirs d).pde) (hbeyond : ∀ n, lo ≤ n → n < userPages → (k'.space c).Unmapped d n)
    (o : Owner) (fr : Frame) (ho : k'.held allCounted L o = some fr) : k.held allCounted L o = some fr := by
  cases o with
  | dir d' => exact ho
  | table d' i =>
    by_cases hd : d' = d
    · subst hd
      simpa only [held, hpde] using ho
    · simpa only [held, hl.dirs d' hd] using ho
  | page d' n =>
    rw [held_page_iff] at ho ⊢
    obtain ⟨hd, hn, hP, hX, haddr⟩ := ho
    have hsame : k'.pte d' n = k.pte d' n := by
      by_cases he : d' = d
      · subst he
        by_cases hlt : n < lo
        · rcases (hcarried.pages n hlt).entry with heq | ⟨-, hout⟩
          · exact heq
          · simp [hout] at hP
        · have habsent : hasFlag (k'.pte d' n) .P = false := (hbeyond n (by omega) hn).1
          simp [habsent] at hP
      · exact hl.pte he n
    rw [hsame] at hP haddr
    exact ⟨hd, hn, hP, hX, haddr⟩

private theorem untouched_of_carried (hl : Local c (k.proc c).pgdir k k')
    (hcarried : Carried k.Live c (k.proc c).pgdir m (pages (k.proc c).sz) (fun _ => True) k k')
    (htidy : (k'.space c).Tidy (k.proc c).pgdir m (pages (k.proc c).sz))
    (hmapped : k'.MappedBelow (k.proc c).pgdir (k.proc c).sz)
    (hpde : (k'.dirs (k.proc c).pgdir).pde = (k.dirs (k.proc c).pgdir).pde) : Untouched k k' c where
  sz := hl.sz
  pgdir := hl.pgdir
  covers := covers_of_tidy (m := m) (by rwa [hl.pgdir, hl.sz]) (by rwa [hl.pgdir, hl.sz])
  bytes n hn := (hcarried.pages n hn).bytes
  frames := ⟨held_of_carried hl hcarried hpde htidy.image.beyond, fun fr => hcarried.known fr trivial⟩
  ram _ hused := ram_below htidy hused
  disc j hused := by
    by_cases hj : j.val < m
    · exact .inr (disc_below htidy hj hused)
    · exact .inl (hcarried.disc j (by omega))

private theorem not_untouched_of_empties (hsz : (k.proc c).sz < kernBase) (hempty : k.Empties c x)
    (hg : k.growproc cfg c x = .ok (k', ok)) : ok = false ∧ ¬ Untouched k k' c := by
  obtain ⟨k₁, hrun, hok, hk'⟩ := growproc_shrinks hsz hempty.toShrinks hg
  obtain rfl : ok = false := by simpa [hempty.empty] using hok
  obtain rfl : k' = k₁ := hk'
  refine ⟨rfl, fun hsame => ?_⟩
  have hlt := hempty.lt
  have hpos : 0 < pages (k.proc c).sz := lt_pages.mpr (by omega)
  have hpages := pages_le_userPages (le_of_lt hsz)
  rw [hempty.empty] at hrun
  have hmapped := hsame.covers.mapped 0 (by rwa [hsame.sz])
  rw [hsame.pgdir] at hmapped
  have hgone : (k'.space c).Unmapped (k.proc c).pgdir 0 :=
    dropped_unmapped hrun 0 (by decide) hpos
  simp only [Space.Unmapped, space] at hgone
  simp [hgone.1, hgone.2] at hmapped

private theorem not_untouched_of_runsDry (h : Intact cfg k) (hc : k.Active c) (hdry : RunsDry cfg k c x)
    (hg : k.growproc cfg c x = .ok (k', ok)) : ok = false ∧ ¬ Untouched k k' c := by
  have hpid : (k.proc c).pid ≠ 0 := by
    have := hc.pid
    omega
  obtain ⟨m, hh⟩ := h.consistent.healthy hc
  have hsz := (h.consistent.image c hc).1
  obtain ⟨k₁, hgrown, hk'⟩ := growproc_grows hsz hdry.toGrows hg
  obtain ⟨rfl, t, hnone, hsome⟩ := hdry.adds hh hc.live hpid hgrown
  obtain rfl : k' = k₁ := hk'
  refine ⟨rfl, fun hsame => ?_⟩
  obtain ⟨fr, hfr⟩ := Option.isSome_iff_exists.mp hsome
  have hheld : (k'.ledger allCounted k.Live).held (.table (k.proc c).pgdir t) = some fr := by
    simp only [Kernel.ledger, held, if_pos hc.live, hfr]
  have hbefore := hsame.frames.held _ _ hheld
  simp [Kernel.ledger, held, hnone] at hbefore

private theorem setSz_pgdir {sz : Nat} : ((k.setSz c sz).proc c).pgdir = (k.proc c).pgdir := by
  simp [setSz]

private theorem keptSize_of_grows (h : k.Grows c x) : k.keptSize c x = (k.proc c).sz := by
  have hpos := h.pos
  exact if_neg (by omega)

private theorem keptSize_of_shrinks (h : k.Shrinks c x) : k.keptSize c x = k.newSize c x := by
  rw [keptSize, if_pos h.neg, min_eq_left (le_of_lt h.lt)]

private theorem keptSize_of_not_shrinks (h : ¬ k.Shrinks c x) : k.keptSize c x = (k.proc c).sz := by
  unfold keptSize
  split
  · next hneg => exact min_eq_right (Nat.le_of_not_lt fun hlt => h ⟨hneg, hlt⟩)
  · rfl

private theorem mappedBelow_of_clean
    (h : Intact cfg k) (hc : k.Active c) (hg : k.growproc cfg c x = .ok (k', ok))
    (hclean : if ok then k'.Covers c else Untouched k k' c) :
    k.MappedBelow (k.proc c).pgdir (k.keptSize c x) := by
  obtain ⟨m, hh⟩ := h.consistent.healthy hc
  have hsz := (h.consistent.image c hc).1
  have hpages := pages_le_userPages (le_of_lt hsz)
  have hcovers : k'.Covers c := by
    cases ok with
    | true => exact hclean
    | false => exact Untouched.covers hclean
  have hmapped := hcovers.mapped
  by_cases hgrow : k.Grows c x
  · obtain ⟨k₁, hgrown, hk'⟩ := growproc_grows hsz hgrow hg
    have hle := pages_mono hgrow.le
    have hhi := pages_le_userPages (le_of_lt hgrow.lt)
    have hl := (hh.grown hc.live hle hhi hgrown).2
    rw [keptSize_of_grows hgrow]
    intro n hn
    have hpage : PageKept c (k.proc c).pgdir n k k₁ := by
      cases ok with
      | true =>
        cases hgrown with
        | full hrun =>
          have hcarried : Carried k.Live c (k.proc c).pgdir m (pages (k.proc c).sz) (fun _ => True) k k₁ :=
            hh.placedRun_carried rfl hc.live hhi hrun
          exact hcarried.pages n hn
      | false => exact (hgrown.carried hh rfl hc.live hhi).pages n hn
    refine hpage.mapped hh.image.sound (by omega) ?_
    cases ok with
    | true =>
      obtain rfl : k' = k₁.setSz c (k.newSize c x) := hk'
      rw [setSz_pgdir, hl.pgdir, setSz_sz] at hmapped
      exact hmapped n (by omega)
    | false =>
      obtain rfl : k' = k₁ := hk'
      rw [hl.pgdir, hl.sz] at hmapped
      exact hmapped n hn
  · by_cases hshrink : k.Shrinks c x
    · obtain ⟨k₁, hrun, rfl, hk'⟩ := growproc_shrinks hsz hshrink hg
      rw [keptSize_of_shrinks hshrink]
      by_cases hzero : k.newSize c x = 0
      · rw [hzero]
        exact fun n hn => absurd hn (by decide +revert)
      · have hl := (hh.droppedRun hc.live hpages hrun).2.1
        obtain ⟨hdrop, -, -⟩ := droppedRun_space h.consistent.frames.valid_free hrun
        rw [if_pos (by simpa using hzero)] at hk'
        subst hk'
        rw [setSz_pgdir, hl.pgdir, setSz_sz] at hmapped
        exact fun n hn => (Space.dropped_mapped_iff hdrop hn).mp (hmapped n hn)
    · obtain rfl := growproc_same hsz hgrow hshrink hg
      rwa [keptSize_of_not_shrinks hshrink]

private theorem growproc_clean (h : Intact cfg k) (hc : k.Active c) (hg : k.growproc cfg c x = .ok (k', ok))
    (hbelow : k.MappedBelow (k.proc c).pgdir (k.keptSize c x)) (hempty : ¬ k.Empties c x)
    (hdry : ¬ RunsDry cfg k c x) : if ok then k'.Covers c else Untouched k k' c := by
  have hv : FreeValid cfg k := h.consistent.frames.valid_free
  have hsz := (h.consistent.image c hc).1
  have hpages := pages_le_userPages (le_of_lt hsz)
  have hpid : (k.proc c).pid ≠ 0 := by
    have := hc.pid
    omega
  obtain ⟨m, htidy⟩ := h.tidy c hc
  have hafter := growproc_tidy hv hsz htidy hg
  have hh : Healthy cfg allCounted k.Live c (k.proc c).pgdir m (pages (k.proc c).sz) k :=
    ⟨htidy.image, h.consistent.frames⟩
  by_cases hgrow : k.Grows c x
  · obtain ⟨k₁, hgrown, hk'⟩ := growproc_grows hsz hgrow hg
    have hle := pages_mono hgrow.le
    have hhi := pages_le_userPages (le_of_lt hgrow.lt)
    have hl := (hh.grown hc.live hle hhi hgrown).2
    rw [keptSize_of_grows hgrow] at hbelow
    have hmapped := grown_mapped hv htidy.image hbelow hle hhi hgrown
    cases ok with
    | true =>
      obtain rfl : k' = k₁.setSz c (k.newSize c x) := hk'
      have hpgdir : ((k₁.setSz c (k.newSize c x)).proc c).pgdir = (k.proc c).pgdir := by
        rw [setSz_pgdir, hl.pgdir]
      apply covers_of_tidy (m := m)
      · rwa [hpgdir]
      · rw [hpgdir, setSz_sz]
        exact hmapped
    | false =>
      obtain rfl : k' = k₁ := hk'
      have hcarried := hgrown.carried hh rfl hc.live hhi
      rw [hl.sz] at hafter
      exact untouched_of_carried hl hcarried hafter hmapped (hgrown.pde_eq hgrow hdry hh hc.live hpid)
  · by_cases hshrink : k.Shrinks c x
    · obtain ⟨k₁, hrun, hok, hk'⟩ := growproc_shrinks hsz hshrink hg
      have hne : k.newSize c x ≠ 0 := fun hzero => hempty ⟨hshrink, hzero⟩
      obtain rfl : ok = true := by simpa [hne] using hok
      have hl := (hh.droppedRun hc.live hpages hrun).2.1
      obtain ⟨hdrop, -, -⟩ := droppedRun_space hv hrun
      rw [keptSize_of_shrinks hshrink] at hbelow
      obtain rfl : k' = k₁.setSz c (k.newSize c x) := hk'
      have hpgdir : ((k₁.setSz c (k.newSize c x)).proc c).pgdir = (k.proc c).pgdir := by
        rw [setSz_pgdir, hl.pgdir]
      apply covers_of_tidy (m := m)
      · rwa [hpgdir]
      · rw [hpgdir, setSz_sz]
        exact fun n hn => (Space.dropped_mapped_iff hdrop hn).mpr (hbelow n hn)
    · obtain rfl := growproc_same hsz hgrow hshrink hg
      rw [keptSize_of_not_shrinks hshrink] at hbelow
      cases ok with
      | true => exact covers_of_tidy hafter hbelow
      | false => exact untouched_of_carried (.refl _ _ _) .refl hafter hbelow rfl

private theorem not_runsDry (hthere : ∀ n < pages (k.newSize c x), pages (k.proc c).sz ≤ n →
    k.hasTable (k.proc c).pgdir n = true) : ¬ RunsDry cfg k c x := by
  rintro ⟨-, i, hi, -, -, t, ht⟩
  obtain ⟨himage, hnone⟩ := Finset.mem_filter.mp ht
  obtain ⟨n, hn, rfl⟩ := Finset.mem_image.mp himage
  have hrange := Finset.mem_Ico.mp hn
  have htable := hthere n (by omega) hrange.1
  simp [hasTable, hnone] at htable

end Failure

end Kernel

end OsSessional.Paging
