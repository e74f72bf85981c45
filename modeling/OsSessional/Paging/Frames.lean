import OsSessional.Lib.Ledger
import OsSessional.Paging.Image

/-!
# Frame ownership

The free list and the page tables as a ledger: a frame is held by a page directory, by one of its
page tables, or by a present user page. A page-in that got no frame maps a frame there is not. The
ledger of the live directories stays sound through every operation, and a frame that was taken but
not yet mapped stays idle.
-/

namespace OsSessional.Paging

open Function (update update_self update_of_ne)

/-- What a frame is used for. -/
inductive Owner
  | dir (d : Frame)
  | table (d : Frame) (i : Nat)
  | page (d : Frame) (n : Nat)
  deriving DecidableEq

namespace Kernel

open Classical in
/-- The frame a present entry holds, unless it is one that is not counted. -/
noncomputable def frameOf (X : Frame → Prop) (p : PTE) : Option Frame :=
  if hasFlag p .P = true ∧ ¬ X (pteAddr p) then some (pteAddr p) else none

open Classical in
/-- The frame an owner in a live directory holds. -/
noncomputable def held (X L : Frame → Prop) (k : Kernel) : Owner → Option Frame
  | .dir d => if L d then some d else none
  | .table d i => if L d then (k.dirs d).pde i else none
  | .page d n => if L d ∧ n < userPages then frameOf X (k.pte d n) else none

noncomputable def ledger (X L : Frame → Prop) (k : Kernel) : Ledger Owner Frame :=
  ⟨k.freelist, k.held X L⟩

/-- The ledger of the directories `L` is sound. It counts every frame but those in `X`, where `X`
is empty, or holds what a page-in maps that `kalloc` gave no frame. -/
structure FramesSound (cfg : Config) (X L : Frame → Prop) (k : Kernel) : Prop where
  ledger : (k.ledger X L).Sound
  valid_free : ∀ fr ∈ k.freelist, ValidFrame cfg fr
  valid_held : ∀ o fr, k.held X L o = some fr → ValidFrame cfg fr
  counted : ∀ fr, ValidFrame cfg fr → ¬ X fr

variable {cfg : Config} {X L : Frame → Prop} {k k' : Kernel} {c : Slot} {d : Frame} {n : Nat}

/-- Every frame counts. -/
def allCounted (_ : Frame) : Prop := False

/-- The null pointer's frame does not count. -/
def nullFrame (fr : Frame) : Prop := fr = v2p none

theorem nullFrame_invalid (fr : Frame) (h : ValidFrame cfg fr) : ¬ nullFrame fr := by
  rintro rfl
  have hlt := h.2.2
  simp [v2p, physTop] at hlt

theorem ValidFrame.aligned {fr : Frame} (h : ValidFrame cfg fr) : PageAligned fr := by
  have hmod := h.1
  unfold PageAligned
  apply BitVec.eq_of_toNat_eq
  have hand : (fr &&& 0xFFF).toNat = fr.toNat % 2 ^ 12 := by
    rw [BitVec.toNat_and]
    exact Nat.and_two_pow_sub_one_eq_mod fr.toNat 12
  rw [hand]
  simpa [pgSize] using hmod

private theorem frameOf_some {p : PTE} {fr : Frame} :
    frameOf X p = some fr ↔ hasFlag p .P = true ∧ ¬ X fr ∧ pteAddr p = fr := by
  unfold frameOf
  split
  · next h =>
    constructor
    · rintro ⟨⟩
      exact ⟨h.1, h.2, rfl⟩
    · rintro ⟨-, -, rfl⟩
      rfl
  · next h =>
    constructor
    · simp
    · rintro ⟨hP, hX, rfl⟩
      exact absurd ⟨hP, hX⟩ h

theorem frameOf_absent {p : PTE} (h : hasFlag p .P = false) : frameOf X p = none := by
  simp [frameOf, h]

theorem frameOf_zero : frameOf X 0 = none := frameOf_absent (hasFlag_zero .P)

private theorem frameOf_uncounted {p : PTE} (h : X (pteAddr p)) : frameOf X p = none := by
  simp [frameOf, h]

private theorem frameOf_congr {p q : PTE} (hP : hasFlag p .P = hasFlag q .P)
    (haddr : hasFlag q .P = true → pteAddr p = pteAddr q) : frameOf X p = frameOf X q := by
  apply Option.ext
  intro fr
  rw [frameOf_some, frameOf_some, hP]
  constructor
  · rintro ⟨hp, hX, rfl⟩
    exact ⟨hp, hX, (haddr hp).symm⟩
  · rintro ⟨hp, hX, rfl⟩
    exact ⟨hp, hX, haddr hp⟩

theorem held_page (hd : L d) (hn : n < userPages) (hP : hasFlag (k.pte d n) .P = true)
    (hX : ¬ X (pteAddr (k.pte d n))) : k.held X L (.page d n) = some (pteAddr (k.pte d n)) := by
  simp [held, hd, hn, frameOf_some, hP, hX]

theorem held_page_iff {fr : Frame} :
    k.held X L (.page d n) = some fr ↔ L d ∧ n < userPages ∧
      hasFlag (k.pte d n) .P = true ∧ ¬ X fr ∧ pteAddr (k.pte d n) = fr := by
  simp only [held]
  split
  · next h => simp [frameOf_some, h.1, h.2]
  · next h =>
    constructor
    · simp
    · exact fun hall => absurd ⟨hall.1, hall.2.1⟩ h

section Change

variable {v : PTE}

/-- One entry changed, page tables as before. -/
theorem held_setEntry (hd : L d) (hn : n < userPages) (hpte : k'.pte = setEntry k.pte d n v)
    (hpde : ∀ d', (k'.dirs d').pde = (k.dirs d').pde) :
    k'.held X L = update (k.held X L) (.page d n) (frameOf X v) := by
  funext o
  cases o with
  | dir d' => simp [held]
  | table d' i => simp [held, hpde]
  | page d' n' =>
    by_cases he : d' = d ∧ n' = n
    · obtain ⟨rfl, rfl⟩ := he
      simp [held, hpte, hd, hn]
    · have hne : Owner.page d' n' ≠ .page d n := by
        intro h
        exact he (by simpa using h)
      rw [update_of_ne hne]
      simp only [held, hpte]
      rw [setEntry_of_ne fun h1 h2 => he ⟨h1, h2⟩]

private theorem held_congr (hP : ∀ d n, L d → hasFlag (k'.pte d n) .P = hasFlag (k.pte d n) .P)
    (haddr : ∀ d n, L d → hasFlag (k.pte d n) .P = true → pteAddr (k'.pte d n) = pteAddr (k.pte d n))
    (hpde : ∀ d, L d → (k'.dirs d).pde = (k.dirs d).pde) : k'.held X L = k.held X L := by
  funext o
  cases o with
  | dir d' => simp [held]
  | table d' i =>
    by_cases hd : L d'
    · simp [held, hd, hpde d' hd]
    · simp [held, hd]
  | page d' n' =>
    by_cases hd : L d'
    · simp only [held, frameOf_congr (hP d' n' hd) (haddr d' n' hd)]
    · simp [held, hd]

theorem held_addTable {i : Nat} {r : Frame} {rest : List Frame} (hd : L d)
    (h : (k.dirs d).pde i = none) :
    (k.addTable d i r rest).held X L = update (k.held X L) (.table d i) (some r) := by
  have hpte : (k.addTable d i r k.freelist).pte = k.pte := by
    have hready : TableReady ({ k with freelist := r :: k.freelist }) d i
        (addTable { k with freelist := r :: k.freelist } d i r k.freelist) := .added rfl h
    exact hready.pte
  funext o
  cases o with
  | dir d' => simp [held]
  | table d' i' =>
    by_cases hdd : d' = d
    · subst hdd
      by_cases hii : i' = i
      · subst hii
        simp [held, addTable, hd]
      · simp [held, addTable, hii]
    · simp [held, addTable, hdd]
  | page d' n' =>
    rw [update_of_ne (by simp)]
    have hsame : (k.addTable d i r rest).pte = k.pte := hpte
    simp only [held, hsame]

end Change

theorem FramesSound.aligned_free (h : FramesSound cfg X L k) {fr : Frame} (hfr : fr ∈ k.freelist) :
    PageAligned fr :=
  (h.valid_free fr hfr).aligned

/-- No frame on the free list is mapped. -/
theorem FramesSound.page_not_free (h : FramesSound cfg X L k) (hd : L d) (hn : n < userPages)
    (hP : hasFlag (k.pte d n) .P = true) : pteAddr (k.pte d n) ∉ k.freelist := by
  intro hmem
  have hcounted := h.counted _ (h.valid_free _ hmem)
  exact h.ledger.not_free (.page d n) _ (held_page hd hn hP hcounted) hmem

theorem FramesSound.uncount (h : FramesSound cfg allCounted L k)
    (hX : ∀ fr, ValidFrame cfg fr → ¬ X fr) : FramesSound cfg X L k := by
  have hheld : k.held X L = k.held allCounted L := by
    funext o
    cases o with
    | dir d => rfl
    | table d i => rfl
    | page d n =>
      apply Option.ext
      intro fr
      rw [held_page_iff, held_page_iff]
      constructor
      · rintro ⟨hd, hn, hP, -, haddr⟩
        exact ⟨hd, hn, hP, id, haddr⟩
      · rintro ⟨hd, hn, hP, hno, rfl⟩
        exact ⟨hd, hn, hP, hX _ (h.valid_held _ _ (held_page hd hn hP hno)), rfl⟩
  refine ⟨?_, h.valid_free, ?_, hX⟩
  · have heq : k.ledger X L = k.ledger allCounted L := by simp [Kernel.ledger, hheld]
    rw [heq]
    exact h.ledger
  · rw [hheld]
    exact h.valid_held

theorem FramesSound.congr (h : FramesSound cfg X L k) (hfree : k'.freelist = k.freelist)
    (hheld : k'.held X L = k.held X L) : FramesSound cfg X L k' where
  ledger := by
    have heq : k'.ledger X L = k.ledger X L := by simp [Kernel.ledger, hfree, hheld]
    rw [heq]
    exact h.ledger
  valid_free := by rw [hfree]; exact h.valid_free
  valid_held := by rw [hheld]; exact h.valid_held
  counted := h.counted

/-- A frame is taken from the free list. -/
theorem FramesSound.take (h : FramesSound cfg X L k) (k' : Kernel) {fr : Frame} {rest : List Frame}
    (hfree : k.freelist = fr :: rest) (hfree' : k'.freelist = rest) (hheld : k'.held X L = k.held X L) :
    FramesSound cfg X L k' ∧ (k'.ledger X L).Idle fr := by
  have heq : k'.ledger X L = { k.ledger X L with free := rest } := by
    simp [Kernel.ledger, hfree', hheld]
  refine ⟨⟨?_, ?_, ?_, h.counted⟩, ?_⟩
  · rw [heq]
    exact h.ledger.take hfree
  · rw [hfree']
    exact fun fr' hmem => h.valid_free fr' (hfree ▸ List.mem_cons_of_mem _ hmem)
  · rw [hheld]
    exact h.valid_held
  · rw [heq]
    exact h.ledger.idle_take hfree

private theorem FramesSound.grant (h : FramesSound cfg X L k) {o : Owner} {fr : Frame}
    (hidle : (k.ledger X L).Idle fr) (hvalid : ValidFrame cfg fr) (hfree : k'.freelist = k.freelist)
    (hheld : k'.held X L = update (k.held X L) o (some fr)) : FramesSound cfg X L k' where
  ledger := by
    have heq : k'.ledger X L = { k.ledger X L with held := update (k.ledger X L).held o (some fr) } := by
      simp [Kernel.ledger, hfree, hheld]
    rw [heq]
    exact h.ledger.grant hidle
  valid_free := by rw [hfree]; exact h.valid_free
  valid_held o' fr' ho := by
    rw [hheld] at ho
    by_cases heq : o' = o
    · subst heq
      obtain rfl : fr = fr' := by simpa using ho
      exact hvalid
    · rw [update_of_ne heq] at ho
      exact h.valid_held o' fr' ho
  counted := h.counted

private theorem FramesSound.release (h : FramesSound cfg X L k) {o : Owner} {fr : Frame}
    (ho : k.held X L o = some fr) (hfree : k'.freelist = fr :: k.freelist)
    (hheld : k'.held X L = update (k.held X L) o none) :
    FramesSound cfg X L k' ∧ ∀ r, (k.ledger X L).Idle r → (k'.ledger X L).Idle r := by
  have heq : k'.ledger X L =
      { free := fr :: (k.ledger X L).free, held := update (k.ledger X L).held o none } := by
    simp [Kernel.ledger, hfree, hheld]
  refine ⟨⟨?_, ?_, ?_, h.counted⟩, ?_⟩
  · rw [heq]
    exact h.ledger.release ho
  · rw [hfree]
    intro fr' hmem
    rcases List.mem_cons.mp hmem with rfl | hmem
    · exact h.valid_held o fr' ho
    · exact h.valid_free fr' hmem
  · intro o' fr' ho'
    rw [hheld] at ho'
    by_cases he : o' = o
    · subst he
      simp at ho'
    · rw [update_of_ne he] at ho'
      exact h.valid_held o' fr' ho'
  · rw [heq]
    exact fun r hr => hr.release ho

/-- An idle frame is freed. -/
theorem FramesSound.giveBack (h : FramesSound cfg X L k) {fr : Frame}
    (hidle : (k.ledger X L).Idle fr) (hvalid : ValidFrame cfg fr) :
    FramesSound cfg X L (k.freed fr) where
  ledger := h.ledger.giveBack hidle
  valid_free fr' hmem := by
    rcases List.mem_cons.mp hmem with rfl | hmem
    · exact hvalid
    · exact h.valid_free fr' hmem
  valid_held := h.valid_held
  counted := h.counted

section Steps

theorem FramesSound.tableReady (h : FramesSound cfg X L k) {i : Nat} (hd : L d)
    (htable : TableReady k d i k') :
    FramesSound cfg X L k' ∧ ∀ fr, (k.ledger X L).Idle fr → (k'.ledger X L).Idle fr := by
  cases htable with
  | there _ => exact ⟨h, fun _ hr => hr⟩
  | @added r rest hfree hnone =>
    obtain ⟨htaken, hidle⟩ := h.take { k with freelist := rest } hfree rfl rfl
    have hheld : (k.addTable d i r rest).held X L =
        update (held X L { k with freelist := rest }) (.table d i) (some r) := held_addTable hd hnone
    refine ⟨htaken.grant hidle (h.valid_free r (by simp [hfree])) rfl hheld, ?_⟩
    intro fr hfr
    have hne : fr ≠ r := by
      rintro rfl
      exact hfr.not_free (by simp [Kernel.ledger, hfree])
    have heq : (k.addTable d i r rest).ledger X L =
        { free := rest, held := update (k.ledger X L).held (.table d i) (some r) } := by
      simp only [Kernel.ledger, hheld]
      rfl
    rw [heq]
    exact (hfr.take hfree).grant hne

/-- Mapping a frame from the free list grants it to its page. -/
theorem FramesSound.mapped (h : FramesSound cfg X L k) {perm : PTE} {page : Page} {mem : Frame}
    (hd : L d) (hn : n < userPages) (hperm : pteAddr perm = 0)
    (hmap : Mapped k d n perm page mem k') : FramesSound cfg X L k' := by
  cases hmap with
  | @intro rest k₁ hfree htable habsent =>
    have hvalid := h.valid_free mem (by simp [hfree])
    obtain ⟨htaken, hidle⟩ :=
      h.take ({ k with freelist := rest }.setMem mem page) hfree rfl rfl
    obtain ⟨hready, hkeep⟩ := htaken.tableReady hd htable
    refine hready.grant (o := .page d n) (hkeep mem hidle) hvalid rfl ?_
    rw [held_setEntry hd hn (setPte_pte_eq (htable.hasTable rfl)) fun _ => setPte_pde]
    have hP : hasFlag (mapPte mem perm) .P = true := by
      have := hasFlag_set (mem ||| perm) .P .P
      simpa [mapPte, Flag.mask] using this
    rw [frameOf_some.mpr ⟨hP, h.counted mem hvalid, pteAddr_mapPte hvalid.aligned hperm⟩]

theorem FramesSound.dropped_ledger (h : FramesSound cfg X L k) (hd : L d) (hn : n < userPages)
    (hdrop : Dropped cfg c d n k k') :
    (k'.freelist = k.freelist ∧ k'.held X L = k.held X L) ∨ ∃ o r, k.held X L o = some r ∧
      k'.freelist = r :: k.freelist ∧ k'.held X L = update (k.held X L) o none := by
  cases hdrop with
  | present hP hvalid =>
    refine .inr ⟨_, _, held_page hd hn hP (h.counted _ hvalid), rfl, ?_⟩
    rw [held_setEntry hd hn (setPte_pte_eq (hasTable_of_hasFlag (k := (k.freed _).setProc c _) hP))
      fun _ => setPte_pde, frameOf_zero]
    rfl
  | paged hP hPG =>
    refine .inl ⟨rfl, ?_⟩
    rw [held_setEntry hd hn
      (setPte_pte_eq (hasTable_of_hasFlag (k := k.setProc c _) (g := .PG) hPG)) fun _ => setPte_pde,
      frameOf_zero]
    have hnone : k.held X L (.page d n) = none := by simp [held, frameOf_absent hP]
    change update (k.held X L) (.page d n) none = k.held X L
    rw [← hnone, Function.update_eq_self]
  | unmapped _ _ => exact .inl ⟨rfl, rfl⟩

theorem FramesSound.dropped (h : FramesSound cfg X L k) (hd : L d) (hn : n < userPages)
    (hdrop : Dropped cfg c d n k k') :
    FramesSound cfg X L k' ∧ ∀ r, (k.ledger X L).Idle r → (k'.ledger X L).Idle r := by
  rcases h.dropped_ledger hd hn hdrop with ⟨hfree, hheld⟩ | ⟨o, r, ho, hfree, hheld⟩
  · have heq : k'.ledger X L = k.ledger X L := by simp [Kernel.ledger, hfree, hheld]
    rw [heq]
    exact ⟨h.congr hfree hheld, fun _ hr => hr⟩
  · exact h.release ho hfree hheld

/-- Page `v` of `d`, which holds `page`, has gone out to slot `j` of file `f`. -/
structure PageOut (cfg : Config) (k k' : Kernel) (c : Slot) (d : Frame) (v : Nat) (j : Fin discPages)
    (f : SwapFile) (page : Page) : Prop where
  lt : v < userPages
  present : hasFlag (k.pte d v) .P = true
  valid : ValidFrame cfg (pteAddr (k.pte d v))
  page_eq : (k.proc c).pgdir = d → page = k.mem (pteAddr (k.pte d v))
  pte : k'.pte = setEntry k.pte d v (pageOutPte (k.pte d v))
  pde : ∀ d', (k'.dirs d').pde = (k.dirs d').pde
  freelist : k'.freelist = pteAddr (k.pte d v) :: k.freelist
  mem : k'.mem = update k.mem (pteAddr (k.pte d v)) fun _ => 1
  slot : ((k.proc c).pagesInDisc j).isUsed = false
  entry : ((k'.proc c).pagesInDisc j).isUsed = true ∧ Names ((k'.proc c).pagesInDisc j) d v
  disc_of_ne : ∀ j' ≠ j, (k'.proc c).pagesInDisc j' = (k.proc c).pagesInDisc j'
  swapFile : (k.proc c).swapFile = some f
  written : (k'.proc c).swapFile = some (f.overlay (pageBytes page) (pgSize * j) pgSize)

theorem Evicted.pageOut {note : PageData → PageData → PageData} {i : Fin maxPyscPages} {j : Fin discPages}
    {f : SwapFile} {page : Page} (hev : Evicted cfg note k k' c i j f page) (hnote : IsNote note)
    (hs : (k.space c).Sound (· = d)) : ∃ v, PageOut cfg k k' c d v j f page := by
  have hused := (k.proc c).getReplacementPageIndexPhyMem_used cfg hev.victim
  obtain ⟨v, hv, haddr, hdir, hvpn, hP⟩ := hs.pageAt (i := i) hused
  have hsource := hev.source
  have htable := hev.table
  have hvalid := hev.valid
  have hresult := hev.result
  simp only [Kernel.space] at hvpn hdir hP haddr
  rw [hdir] at hP
  rw [hvpn, hdir] at hresult htable hvalid
  rw [userPage, hvpn] at hsource
  have hproc : k'.proc c = evictedProc note (k.proc c) i j
      (f.overlay (pageBytes page) (pgSize * j) pgSize) := by
    rw [hresult]
    simp
  refine ⟨v, hv, hP, hvalid, ?_, ?_, ?_, ?_, ?_, by simpa using Scan.first_spec hev.slot, ?_, ?_,
    hev.swapFile, ?_⟩
  · intro hpgdir
    rw [hpgdir, if_pos hP] at hsource
    exact (Option.some.inj hsource).symm
  · rw [hresult]
    exact setPte_pte_eq (k := (k.freed _).setProc c _) htable
  · intro d'
    rw [hresult]
    exact setPte_pde
  · rw [hresult]
    rfl
  · rw [hresult]
    rfl
  · rw [hproc]
    exact ⟨by simp [evictedProc, hnote.used], by simp [evictedProc, hnote.dir, hdir],
      by simp [evictedProc, hnote.addr, haddr]⟩
  · intro j' hne
    rw [hproc]
    exact update_of_ne hne ..
  · rw [hproc]
    rfl

theorem FramesSound.evicted_ledger (h : FramesSound cfg X L k) {note : PageData → PageData → PageData}
    {i : Fin maxPyscPages} {j : Fin discPages} {f : SwapFile} {page : Page} (hnote : IsNote note)
    (hs : (k.space c).Sound (· = d)) (hd : L d) (hevict : Evicted cfg note k k' c i j f page) :
    ∃ o r, k.held X L o = some r ∧ k'.freelist = r :: k.freelist ∧
      k'.held X L = update (k.held X L) o none := by
  obtain ⟨v, hout⟩ := hevict.pageOut hnote hs
  refine ⟨_, _, held_page hd hout.lt hout.present (h.counted _ hout.valid), hout.freelist, ?_⟩
  rw [held_setEntry hd hout.lt hout.pte hout.pde,
    frameOf_absent (by simp [hasFlag_pageOutPte])]

theorem FramesSound.evicted (h : FramesSound cfg X L k) {note : PageData → PageData → PageData}
    {i : Fin maxPyscPages} {j : Fin discPages} {f : SwapFile} {page : Page} (hnote : IsNote note)
    (hs : (k.space c).Sound (· = d)) (hd : L d) (hevict : Evicted cfg note k k' c i j f page) :
    FramesSound cfg X L k' ∧ ∀ r, (k.ledger X L).Idle r → (k'.ledger X L).Idle r := by
  obtain ⟨o, r, ho, hfree, hheld⟩ := h.evicted_ledger hnote hs hd hevict
  exact h.release ho hfree hheld

/-- Going to the swap file for a page keeps a frame in hand idle. -/
theorem FramesSound.room (h : FramesSound cfg X L k) {i : Fin maxPyscPages}
    (hs : (k.space c).Sound (· = d)) (hd : L d) (hroom : RoomAt cfg c k i k') :
    FramesSound cfg X L k' ∧ ∀ r, (k.ledger X L).Idle r → (k'.ledger X L).Idle r := by
  cases hroom with
  | free _ => exact ⟨h, fun _ hr => hr⟩
  | evicted _ hevict => exact h.evicted isNote_retrieveNote hs hd hevict

theorem FramesSound.pageIn (h : FramesSound cfg X L k) {fr : Frame} (hd : L (k.proc c).pgdir)
    (hn : n < userPages) (hidle : (k.ledger X L).Idle fr) (hvalid : ValidFrame cfg fr)
    (htable : k.hasTable (k.proc c).pgdir n = true) (hzero : pteAddr (k.pte (k.proc c).pgdir n) = 0) :
    FramesSound cfg X L (k.pageIn c n (some fr)) := by
  refine h.grant (o := .page (k.proc c).pgdir n) hidle hvalid rfl ?_
  have halign : ∀ r, some fr = some r → PageAligned r := by
    rintro r ⟨⟩
    exact hvalid.aligned
  rw [held_setEntry hd hn (pageIn_pte _ htable) fun _ => setPte_pde,
    frameOf_some.mpr ⟨by simp [hasFlag_pageInPte _ halign], h.counted fr hvalid,
      pteAddr_pageInPte _ halign hzero⟩]

theorem FramesSound.pageIn_null (h : FramesSound cfg X L k) (hd : L (k.proc c).pgdir)
    (hn : n < userPages) (hnull : X (v2p none))
    (htable : k.hasTable (k.proc c).pgdir n = true) (hzero : pteAddr (k.pte (k.proc c).pgdir n) = 0)
    (habsent : hasFlag (k.pte (k.proc c).pgdir n) .P = false) :
    FramesSound cfg X L (k.pageIn c n none) := by
  refine h.congr rfl ?_
  rw [held_setEntry hd hn (pageIn_pte _ htable) fun _ => setPte_pde,
    frameOf_uncounted (by rwa [pteAddr_pageInPte _ (by simp) hzero])]
  have hnone : k.held X L (.page (k.proc c).pgdir n) = none := by simp [held, frameOf_absent habsent]
  rw [← hnone, Function.update_eq_self]

/-- Only process data, contents or the buffer changed. -/
theorem FramesSound.of_eq (h : FramesSound cfg X L k) (hfree : k'.freelist = k.freelist)
    (hdirs : k'.dirs = k.dirs) : FramesSound cfg X L k' := by
  have hpte : k'.pte = k.pte := by
    funext d n
    simp only [Kernel.pte, hdirs]
  have hheld : k'.held X L = k.held X L :=
    held_congr (fun _ _ _ => by rw [hpte]) (fun _ _ _ _ => by rw [hpte]) fun _ _ => by rw [hdirs]
  exact h.congr hfree hheld

theorem FramesSound.alike (h : FramesSound cfg X L k) (hfree : k'.freelist = k.freelist)
    (hpte : ∀ d n, Space.SameEntry (k'.pte d n) (k.pte d n))
    (hpde : ∀ d, (k'.dirs d).pde = (k.dirs d).pde) : FramesSound cfg X L k' :=
  h.congr hfree (held_congr (fun d n _ => (hpte d n).flag .P (by decide))
    (fun d n _ _ => (hpte d n).addr) fun d _ => hpde d)

end Steps

end Kernel

end OsSessional.Paging
