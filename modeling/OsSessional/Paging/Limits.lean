import OsSessional.Paging.FaultService
import Mathlib.Data.Finset.Card
import Mathlib.Data.Fintype.Card

/-!
# The page limits

`allocuvm` tests once, before its loop, whether a slot is free, and each page then takes one. As
long as no growth asks for more than the two tables hold, every present page is in the RAM table,
and the limits on resident and on all pages follow. `Proc.placeAll` replays on the tables alone
what the loop will need.
-/

namespace OsSessional.Paging

open Function (update update_self update_of_ne)
open Outcome

namespace Proc

variable {p q p' : Proc} {cfg : Config} {d : Frame} {va n count : Nat} {isImportant : Int}

/-- Track one more page on the tables alone; `none` where the eviction it needs fails. -/
def place (cfg : Config) (d : Frame) (isImportant : Int) (p : Proc) (va : Nat) : Option Proc :=
  match p.freeRamIndex with
  | some _ => some (p.updatePhysicalPageMetaData d va isImportant)
  | none =>
    match p.getReplacementPageIndexPhyMem cfg, p.getAvailablePageIndexDisk, p.swapFile with
    | some i, some j, some f =>
      if f.refuses (pgSize * j) pgSize then none
      else some ((Kernel.evictedProc Kernel.reallocateNote p i j
        (f.overlay (fun _ => 0) (pgSize * j) pgSize)).updatePhysicalPageMetaData d va isImportant)
    | _, _, _ => none

/-- Track `count` pages from page `n` on. -/
def placeAll (cfg : Config) (d : Frame) (isImportant : Int) : Nat → Nat → Proc → Option Proc
  | 0, _, p => some p
  | count + 1, n, p =>
    match p.place cfg d isImportant (n * pgSize) with
    | none => none
    | some p => placeAll cfg d isImportant count (n + 1) p

/-- Two processes whose tables agree, up to the contents of the swap file. -/
structure SameTables (p q : Proc) : Prop where
  ram : p.pagesInPhysicalMemory = q.pagesInPhysicalMemory
  disc : p.pagesInDisc = q.pagesInDisc
  timer : p.timer = q.timer
  size : p.swapFile.map SwapFile.size = q.swapFile.map SwapFile.size

theorem SameTables.refl (p : Proc) : SameTables p p := ⟨rfl, rfl, rfl, rfl⟩

theorem SameTables.freeRamIndex (h : SameTables p q) : p.freeRamIndex = q.freeRamIndex := by
  simp only [Proc.freeRamIndex, h.ram]

theorem SameTables.update (h : SameTables p q) :
    SameTables (p.updatePhysicalPageMetaData d va isImportant)
      (q.updatePhysicalPageMetaData d va isImportant) := by
  unfold updatePhysicalPageMetaData
  rw [h.freeRamIndex]
  split
  · exact ⟨by simp [h.ram, h.timer], h.disc, by simp [h.timer], h.size⟩
  · exact h

private theorem SameTables.evicted (h : SameTables p q) {note : PageData → PageData → PageData}
    {i : Fin maxPyscPages} {j : Fin discPages} {f g : SwapFile} (hsize : f.size = g.size) :
    SameTables (Kernel.evictedProc note p i j f) (Kernel.evictedProc note q i j g) :=
  ⟨by simp [Kernel.evictedProc, h.ram], by simp [Kernel.evictedProc, h.ram, h.disc], h.timer,
    by simp [Kernel.evictedProc, hsize]⟩

theorem SameTables.victim (h : SameTables p q) :
    p.getReplacementPageIndexPhyMem cfg = q.getReplacementPageIndexPhyMem cfg := by
  simp only [getReplacementPageIndexPhyMem, getReplacementPageIndexFIFO,
    getReplacementPageIndexAging, getReplacementPageIndexLIFO, h.ram]

theorem SameTables.slot (h : SameTables p q) :
    p.getAvailablePageIndexDisk = q.getAvailablePageIndexDisk := by
  simp only [getAvailablePageIndexDisk, h.disc]

/-- Free slots of both tables. -/
def freeSlots (p : Proc) : Nat :=
  (Finset.univ.filter fun i => (p.pagesInPhysicalMemory i).isUsed = false).card +
    (Finset.univ.filter fun j => (p.pagesInDisc j).isUsed = false).card

private theorem hasRoom_eq (p : Proc) : p.hasRoom = decide (0 < p.freeSlots) := by
  have hslot : ∀ {t : Nat} (table : Fin t → PageData),
      (Scan.first fun i => !(table i).isUsed).isSome =
        decide (0 < (Finset.univ.filter fun i => (table i).isUsed = false).card) := by
    intro t table
    cases h : Scan.first fun i => !(table i).isUsed with
    | none =>
      have hall := Scan.first_eq_none.mp h
      simp_all
    | some i =>
      have hfree := Scan.first_spec h
      have hmem : i ∈ Finset.univ.filter fun i => (table i).isUsed = false := by simpa using hfree
      simpa using Finset.card_pos.mpr ⟨i, hmem⟩
  simp only [hasRoom, spaceAvialableInMemory, spaceAvialableInDisk, freeRamIndex,
    getAvailablePageIndexDisk, hslot, freeSlots, ← Bool.decide_or, Nat.add_pos_iff_pos_or_pos]

end Proc

namespace Kernel

variable {cfg : Config} {k k' : Kernel} {c : Slot} {d : Frame} {m n lo hi : Nat}
variable {isImportant : Int}

section Replay

variable {mem : Frame} {k₁ k₂ : Kernel} {p p' : Proc}

private theorem Mapped.sound (hmap : Mapped k d n (pteW ||| pteU) (fun _ => 0) mem k₁)
    (hs : (k.space c).Sound (· = d)) (halign : ∀ fr ∈ k.freelist, PageAligned fr) :
    ((k.space c).map d n (mapPte mem (pteW ||| pteU))).Sound (· = d) := by
  obtain ⟨rest, hfree⟩ := hmap.free
  have hflags := mapPte_flags (halign mem (by simp [hfree]))
  exact hs.map hflags.present hflags.inMemory

/-- The tables the eviction inside a placement starts from. -/
theorem Mapped.sameTables (hmap : Mapped k d n (pteW ||| pteU) (fun _ => 0) mem k₁)
    (hp : Proc.SameTables (k.proc c) p) : Proc.SameTables ((k₁.countFault c).proc c) p := by
  have hproc : (k₁.countFault c).proc c = { k.proc c with pageFault := (k.proc c).pageFault + 1 } := by
    simp [countFault, hmap.proc]
  rw [hproc]
  exact ⟨hp.ram, hp.disc, hp.timer, hp.size⟩

theorem replay_of_stuck (hmap : Mapped k d n (pteW ||| pteU) (fun _ => 0) mem k₁)
    (hfull : (k.proc c).freeRamIndex = none)
    (hfail : (k₁.countFault c).evictPage cfg reallocateNote c = .ok (k₁.countFault c, none))
    (hp : Proc.SameTables (k.proc c) p) (hs : (k.space c).Sound (· = d))
    (halign : ∀ fr ∈ k.freelist, PageAligned fr) : p.place cfg d isImportant (n * pgSize) = none := by
  have hsame := hmap.sameTables hp
  cases hreplay : p.place cfg d isImportant (n * pgSize) with
  | none => rfl
  | some p' =>
    unfold Proc.place at hreplay
    rw [← hp.freeRamIndex, hfull] at hreplay
    simp only at hreplay
    split at hreplay
    · next i j f hi hj hf =>
      rw [← hsame.victim] at hi
      have hused := ((k₁.countFault c).proc c).getReplacementPageIndexPhyMem_used cfg hi
      obtain ⟨v, -, -, -, hvpn, hP⟩ : ∃ v, v < userPages ∧ _ ∧ _ ∧ _ ∧ _ :=
        Space.Sound.pageAt (s := (k₁.countFault c).space c)
          (by rw [countFault_space, hmap.space]; exact hmap.sound hs halign) hused
      rw [← hvpn] at hP
      have htable := hasTable_of_hasFlag (k := k₁.countFault c) hP
      rcases evictPage_none hfail hi htable with hnone | ⟨f', j', hf', hj', hrefuse⟩
      · rw [hsame.slot, hj] at hnone
        simp at hnone
      · rw [hsame.slot, hj] at hj'
        obtain rfl : j = j' := Option.some.inj hj'
        have hsize := hsame.size
        simp only [hf, hf', Option.map_some, Option.some.injEq] at hsize
        rw [refuses_slot, hsize, ← refuses_slot] at hrefuse
        simp [hrefuse] at hreplay
    · simp at hreplay

theorem Evicted.replayed {i : Fin maxPyscPages} {j : Fin discPages} {f : SwapFile} {page : Page}
    (hevict : Evicted cfg reallocateNote (k₁.countFault c) k₂ c i j f page)
    (hfull : p.freeRamIndex = none) (hsame : Proc.SameTables ((k₁.countFault c).proc c) p)
    (hreplay : p.place cfg d isImportant (n * pgSize) = some p') :
    Proc.SameTables ((k₂.updatePhysicalPageMetaData c d (n * pgSize) isImportant).proc c) p' := by
  unfold Proc.place at hreplay
  rw [hfull] at hreplay
  have hi := hsame.victim.symm.trans hevict.victim
  have hj := hsame.slot.symm.trans hevict.slot
  have hsize := hsame.size
  rw [hevict.swapFile] at hsize
  cases hf : p.swapFile with
  | none => simp [hf] at hsize
  | some f' =>
    have hsize' : f.size = f'.size := by simpa [hf] using hsize
    simp only [hi, hj, hf] at hreplay
    split at hreplay
    · simp at hreplay
    · obtain rfl : _ = p' := Option.some.inj hreplay
      have hproc : k₂.proc c = evictedProc reallocateNote ((k₁.countFault c).proc c) i j
          (f.overlay (pageBytes page) (pgSize * j) pgSize) := by
        rw [hevict.result]
        simp
      simp only [updatePhysicalPageMetaData, setProc_proc_self, hproc]
      exact (hsame.evicted (by simp [SwapFile.overlay, hsize'])).update

private theorem Placed.replayed (h : Placed cfg c d isImportant n k k') (hpid : 0 < (k.proc c).pid)
    (hp : Proc.SameTables (k.proc c) p) (hreplay : p.place cfg d isImportant (n * pgSize) = some p')
    (htracked : (k.space c).Tracked d) (hs : (k.space c).Sound (· = d))
    (halign : ∀ fr ∈ k.freelist, PageAligned fr) :
    Proc.SameTables (k'.proc c) p' ∧ (k'.space c).Tracked d := by
  cases h with
  | noProcess hmap hzero => omega
  | @tracked mem k₁ i hmap hfree =>
    unfold Proc.place at hreplay
    rw [← hp.freeRamIndex, hfree] at hreplay
    obtain rfl : _ = p' := Option.some.inj hreplay
    have hfree₁ : (k₁.proc c).freeRamIndex = some i := by rw [hmap.proc, hfree]
    obtain ⟨e, hnames, hused, heq⟩ := updatePhysicalPageMetaData_space isImportant hfree₁
    constructor
    · simp only [updatePhysicalPageMetaData, setProc_proc_self, hmap.proc]
      exact hp.update
    · rw [heq rfl, hmap.space]
      exact htracked.track ((k.proc c).freeRamIndex_free hfree) hnames hused
  | @stuck mem k₁ hmap hfull hfail =>
    rw [replay_of_stuck hmap hfull hfail hp hs halign] at hreplay
    simp at hreplay
  | @evicting mem k₁ k₂ i j f page hmap hfull hevict =>
    have hfull₁ : ((k₁.countFault c).proc c).freeRamIndex = none := by
      simpa [countFault, hmap.proc, Proc.freeRamIndex] using hfull
    obtain ⟨e, hnames, hused, heq⟩ :=
      updatePhysicalPageMetaData_space isImportant (hevict.freeRamIndex hfull₁)
    have hspace := hevict.space isNote_reallocateNote
    rw [countFault_space, hmap.space] at hspace
    constructor
    · exact hevict.replayed (hp.freeRamIndex.symm.trans hfull) (hmap.sameTables hp) hreplay
    · rw [heq rfl]
      exact htracked.evict_track (hmap.sound hs halign) hspace hnames hused

end Replay

private theorem placedRun_tracked {hi lo : Nat} {p' : Proc}
    (hrun : RangeRun (Placed cfg c d isImportant) hi lo k k')
    (hreplay : (k.proc c).placeAll cfg d isImportant (hi - lo) lo = some p')
    (hpid : 0 < (k.proc c).pid) (hs : (k.space c).Image d m lo) (hv : FreeValid cfg k)
    (hhi : hi ≤ userPages) (ht : (k.space c).Tracked d) : (k'.space c).Tracked d := by
  have hkeep := hrun.keeps (I := fun n k => ∃ p, Proc.SameTables (k.proc c) p ∧
      (∃ q, p.placeAll cfg d isImportant (hi - n) n = some q) ∧ 0 < (k.proc c).pid ∧
      (k.space c).Image d m n ∧ FreeValid cfg k ∧ (k.space c).Tracked d)
    (by
      rintro n k₁ k₂ _ hn ⟨p, hp, ⟨q, hq⟩, hpid₁, hs₁, hv₁, ht₁⟩ hplace
      rw [show hi - n = (hi - (n + 1)) + 1 by omega, Proc.placeAll] at hq
      cases hstep : p.place cfg d isImportant (n * pgSize) with
      | none => simp [hstep] at hq
      | some p₁ =>
        simp only [hstep] at hq
        obtain ⟨hp₁, ht₂⟩ := hplace.replayed hpid₁ hp hstep ht₁ hs₁.sound hv₁.aligned
        have hl := Local.of_placed hs₁.sound hplace
        exact ⟨p₁, hp₁, ⟨q, hq⟩, by rwa [hl.pid],
          (hplace.space hv₁.aligned).image (by omega) hs₁, hv₁.placed hplace, ht₂⟩)
    ⟨_, .refl _, ⟨p', hreplay⟩, hpid, hs, hv, ht⟩
  obtain ⟨-, -, -, -, -, -, ht'⟩ := hkeep
  exact ht'

/-- A growth is refused by a test made before the loop, or both tables hold its pages. -/
def fitsTables (cfg : Config) (c : Slot) (k : Kernel) : Op → Bool
  | .growproc x =>
    decide (x ≤ 0) || decide (kernBase ≤ k.newSize c x) || decide (k.newSize c x < (k.proc c).sz) ||
      !(k.proc c).hasRoom ||
      ((k.proc c).placeAll cfg (k.proc c).pgdir 0 (pages (k.newSize c x) - pages (k.proc c).sz)
        (pages (k.proc c).sz)).isSome
  | _ => true

/-- An operation after which every page is still accounted for: growth fits the tables, a page-in
gets a frame, and page 0 is not fetched through an entry out of use. -/
def accounted (cfg : Config) (c : Slot) (k : Kernel) (op : Op) : Bool :=
  soundFetch c k op && fitsTables cfg c k op &&
    ((k.fetches c op).isNone || !k.freelist.isEmpty)

private theorem Stepped.granted {op : Op} {e : Event} (h : Stepped cfg c k op e k')
    (hsz : (k.proc c).sz < kernBase) (hs : (k.space c).Image (k.proc c).pgdir m (pages (k.proc c).sz))
    (hv : FreeValid cfg k) (hc : k'.Active c)
    (hlt : pages (k.proc c).sz < pages (k'.proc c).sz) :
    ∃ x k₁, op = .growproc x ∧ 0 < x ∧ k.newSize c x < kernBase ∧
      (k.proc c).sz ≤ k.newSize c x ∧ (k.proc c).hasRoom = true ∧
      RangeRun (Placed cfg c (k.proc c).pgdir 0) (pages (k.newSize c x)) (pages (k.proc c).sz) k k₁ ∧
      k' = k₁.setSz c (k.newSize c x) := by
  cases h with
  | loaded hop ha hacc => simp at hlt
  | stored hop ha hacc => simp at hlt
  | @faulted a k' ha hfetch hf =>
    cases hf with
    | serviced hPG hready hfetched =>
      obtain ⟨-, hl⟩ := fetched_space hv hs.sound hready hfetched
      rw [hl.sz] at hlt
      omega
    | notPaged hPG => exact absurd hc exited_not_active
    | refused hPG hready hfetched => exact absurd hc exited_not_active
  | @resized x k' ok hop hg =>
    have hpages := pages_le_userPages (le_of_lt hsz)
    cases growproc_ok hsz hg with
    | same => omega
    | @grown newsz k₁ hm heq hle hnew hroom hgrow =>
      cases hgrow with
      | full hrun =>
        subst heq
        exact ⟨x, k₁, hop, hm, hnew, hle, hroom, hrun, rfl⟩
    | failed hle hnew hgrow =>
      have hl := (grown_move hv hs (pages_mono hle) (pages_le_userPages (le_of_lt hnew)) hgrow).2.2
      rw [hl.sz] at hlt
      omega
    | @shrunk newsz k₁ hlt' hpos hrun =>
      have hmono := pages_mono (le_of_lt hlt')
      simp only [setSz, setProc_proc_self] at hlt
      omega
    | emptied hpos hrun =>
      have hl := (droppedRun_space hv hrun).2.2
      rw [hl.sz] at hlt
      omega
  | ticked hop ht =>
    rw [((updateAgeForAllProcess_quiet ht).proc c).2.2.1] at hlt
    omega

/-- What holds of process `c` along a run whose operations are all accounted for. -/
structure Accounted (cfg : Config) (c : Slot) (d : Frame) (k : Kernel) : Prop where
  consistent : Consistent cfg allCounted k
  agreed : Agreed cfg c d discPages k
  tracked : (k.space c).Tracked d

private theorem Accounted.step (h : Accounted cfg c d k) (hc : k.Active c) {op : Op} {e : Event}
    (huser : op.User) (hallow : accounted cfg c k op = true)
    (hstep : k.perform cfg c op = .ok (k', e)) (hc' : k'.Active c) : Accounted cfg c d k' := by
  simp only [accounted, Bool.and_eq_true] at hallow
  obtain ⟨⟨hfetch, hfits⟩, hframe⟩ := hallow
  have hfree : (k.fetches c op).isSome = true → k.freelist ≠ [] := by
    intro hsome hnil
    cases hf : k.fetches c op <;> simp_all
  refine ⟨h.consistent.performed hc huser hfree hstep, h.agreed.step huser hfetch hstep hc', ?_⟩
  obtain ⟨hpgdir, hsz, hs, ha, hv⟩ := h.agreed
  have ht := h.tracked
  subst hpgdir
  have hstepped := perform_ok huser hstep
  rcases Nat.lt_or_ge (pages (k.proc c).sz) (pages (k'.proc c).sz) with hlt | hge
  · obtain ⟨x, k₁, rfl, hx, hnew, hle, hroom, hrun, rfl⟩ := hstepped.granted hsz hs hv hc' hlt
    have hreplay : ((k.proc c).placeAll cfg (k.proc c).pgdir 0
        (pages (k.newSize c x) - pages (k.proc c).sz) (pages (k.proc c).sz)).isSome = true := by
      simpa [fitsTables, hroom, show ¬ x ≤ 0 by omega, show ¬ kernBase ≤ k.newSize c x by omega,
        show ¬ k.newSize c x < (k.proc c).sz by omega] using hfits
    obtain ⟨p', hp'⟩ := Option.isSome_iff_exists.mp hreplay
    have hpid := hc.pid
    have hspace : (k₁.setSz c (k.newSize c x)).space c = k₁.space c := by simp [setSz, space]
    rw [hspace]
    exact placedRun_tracked hrun hp' (by omega) hs hv (pages_le_userPages (le_of_lt hnew)) ht
  · refine (hstepped.moved hv hsz hs hc').move.tracked hs ht ?_ hge
    intro n hn
    obtain ⟨hlt, hPG⟩ := fetches_some huser hn
    refine Agreed.matches (k := k) (c := c) (m := discPages) ⟨rfl, hsz, hs, ha, hv⟩ hlt hPG ?_
    rintro rfl
    simpa [soundFetch, hn] using hfetch

private theorem Accounted.reached {k₀ : Kernel} {xs : List (Op × Event)} (h : Accounted cfg c d k₀)
    (hrun : Run (OpStep cfg c (accounted cfg c)) k₀ xs k) (hc : k.Active c) :
    Accounted cfg c d k := by
  refine hrun.keeps (I := fun k => k.Active c → Accounted cfg c d k) ?_ (fun _ => h) hc
  intro k₁ x k₂ hI hstep hc₂
  obtain ⟨hc₁, huser, hallow, hperform⟩ := hstep.performed
  exact (hI hc₁).step hc₁ huser hallow hperform hc₂

/-- The limits on the pages of process `c`. -/
structure WithinLimits (k : Kernel) (c : Slot) : Prop where
  resident : ((Finset.range userPages).filter fun n =>
    hasFlag (k.pte (k.proc c).pgdir n) .P = true).card ≤ maxPyscPages
  total : ((Finset.range userPages).filter fun n => hasFlag (k.pte (k.proc c).pgdir n) .P = true ∨
    hasFlag (k.pte (k.proc c).pgdir n) .PG = true).card ≤ maxTotalPages
  entry : ∀ n < userPages, hasFlag (k.pte (k.proc c).pgdir n) .P = true →
    ∃! i, ((k.proc c).pagesInPhysicalMemory i).isUsed = true ∧
      Names ((k.proc c).pagesInPhysicalMemory i) (k.proc c).pgdir n

/-- The pages a table of `t` slots names. -/
def namedPages {t : Nat} (table : Fin t → PageData) : Finset Nat :=
  Finset.univ.image fun i => vpn (table i).virtualAddress

private theorem namedPages_card {t : Nat} (table : Fin t → PageData) : (namedPages table).card ≤ t :=
  le_trans Finset.card_image_le (by simp)

private theorem mem_namedPages {t : Nat} {table : Fin t → PageData} {i : Fin t} (hn : n < userPages)
    (h : Names (table i) d n) : n ∈ namedPages table := by
  refine Finset.mem_image.mpr ⟨i, Finset.mem_univ i, ?_⟩
  rw [h.addr, vpn_mul hn]

private theorem Accounted.withinLimits (h : Accounted cfg c (k.proc c).pgdir k) : WithinLimits k c := by
  have hresident : ((Finset.range userPages).filter fun n =>
      hasFlag (k.pte (k.proc c).pgdir n) .P = true) ⊆
        namedPages (k.proc c).pagesInPhysicalMemory := by
    intro n hn
    rw [Finset.mem_filter, Finset.mem_range] at hn
    obtain ⟨i, -, hnames⟩ := h.tracked n hn.1 trivial hn.2
    exact mem_namedPages hn.1 hnames
  refine ⟨?_, ?_, ?_⟩
  · exact le_trans (Finset.card_le_card hresident) (namedPages_card _)
  · have htotal : ((Finset.range userPages).filter fun n =>
        hasFlag (k.pte (k.proc c).pgdir n) .P = true ∨
          hasFlag (k.pte (k.proc c).pgdir n) .PG = true) ⊆
        namedPages (k.proc c).pagesInPhysicalMemory ∪ namedPages (k.proc c).pagesInDisc := by
      intro n hn
      rw [Finset.mem_filter, Finset.mem_range] at hn
      rw [Finset.mem_union]
      rcases hn.2 with hP | hPG
      · exact .inl (hresident (Finset.mem_filter.mpr ⟨Finset.mem_range.mpr hn.1, hP⟩))
      · obtain ⟨j, -, -, hnames⟩ := h.agreed.agree.entry hn.1 hPG
        exact .inr (mem_namedPages hn.1 hnames)
    calc _ ≤ _ := Finset.card_le_card htotal
      _ ≤ _ := Finset.card_union_le _ _
      _ ≤ maxPyscPages + discPages := Nat.add_le_add (namedPages_card _) (namedPages_card _)
      _ = maxTotalPages := by decide
  · intro n hn hP
    obtain ⟨i, hused, hnames⟩ := h.tracked n hn trivial hP
    refine ⟨i, ⟨hused, hnames⟩, ?_⟩
    rintro i' ⟨hused', hnames'⟩
    exact h.agreed.image.sound.inj i' i _ n hused' hused hnames' hnames

section Frames

/-- Frames a growth from page `lo` to page `hi` takes: one for each page, and one for each page
table it reaches, the first of which may be there already. -/
def framesFor (k : Kernel) (d : Frame) (lo hi : Nat) : Nat :=
  if lo < hi then
    hi - lo + ((hi + nptEntries - 1) / nptEntries - lo / nptEntries) -
      (if k.hasTable d lo then 1 else 0)
  else 0

private theorem Mapped.frames {perm : PTE} {page : Page} {mem : Frame} (h : Mapped k d n perm page mem k') :
    k'.hasTable d n = true ∧
      k.freelist.length ≤ k'.freelist.length + 1 + (if k.hasTable d n then 0 else 1) := by
  cases h with
  | @intro rest k₁ hfree htable habsent =>
    have hthere : k₁.hasTable d n = true := htable.hasTable rfl
    refine ⟨?_, ?_⟩
    · unfold Kernel.hasTable at hthere ⊢
      rw [setPte_pde]
      exact hthere
    · rw [hfree, setPte_freelist]
      cases htable with
      | there _ => simp
      | added hfree' hnone =>
        have hmissing : k.hasTable d n = false := by
          simp only [setMem_dirs] at hnone
          simp [Kernel.hasTable, hnone]
        simp only [setMem_freelist] at hfree'
        simp [hfree', hmissing, addTable]

theorem Placed.frames (h : Placed cfg c d isImportant n k k') :
    k'.hasTable d n = true ∧
      k.freelist.length ≤ k'.freelist.length + 1 + (if k.hasTable d n then 0 else 1) := by
  cases h with
  | noProcess hmap hpid => exact hmap.frames
  | tracked hmap hfree => exact hmap.frames
  | stuck hmap hfull hfail => exact hmap.frames
  | @evicting mem k₁ k₂ i j f page hmap hfull hevict =>
    obtain ⟨htable, hlen⟩ := hmap.frames
    have hfree : k₂.freelist.length = k₁.freelist.length + 1 := by
      rw [hevict.result]
      rfl
    have htable₂ : k₂.hasTable d n = k₁.hasTable d n := by
      rw [hevict.result]
      simp only [Kernel.hasTable, setPte_pde]
      rfl
    refine ⟨htable₂.trans htable, ?_⟩
    have hlen' : (k₂.updatePhysicalPageMetaData c d (n * pgSize) isImportant).freelist.length =
        k₂.freelist.length := rfl
    omega

private theorem Placed.framesFor (h : Placed cfg c d isImportant n k k') (hn : n < hi)
    (hframes : k.framesFor d n hi ≤ k.freelist.length) :
    k'.framesFor d (n + 1) hi ≤ k'.freelist.length := by
  obtain ⟨htable, hlen⟩ := h.frames
  have hnext : (n + 1) / nptEntries = n / nptEntries → k'.hasTable d (n + 1) = true := by
    intro hsame
    unfold Kernel.hasTable at htable ⊢
    rw [hsame]
    exact htable
  simp only [Kernel.framesFor, hn, if_true] at hframes ⊢
  simp only [nptEntries] at hframes hnext ⊢
  by_cases hsame : (n + 1) / 1024 = n / 1024
  · rw [hnext hsame, if_pos rfl]
    split at hframes <;> split at hlen <;> split <;> omega
  · split at hframes <;> split at hlen <;> split <;> omega

private theorem Grown.full_of_frames {lo hi : Nat} {ok : Bool}
    (h : Grown cfg c d isImportant lo hi k k' ok)
    (hframes : k.framesFor d lo hi ≤ k.freelist.length) : ok = true := by
  have hrest : ∀ {m : Nat} {k₁ : Kernel}, lo ≤ m → m < hi →
      RangeRun (Placed cfg c d isImportant) m lo k k₁ →
      k₁.framesFor d m hi ≤ k₁.freelist.length := by
    intro m k₁ hm hm' hrun
    have hkeep := hrun.keeps (I := fun n k => k.framesFor d n hi ≤ k.freelist.length)
      (fun n _ _ _ hn hI hplace => hplace.framesFor (by omega) hI) hframes
    rwa [max_eq_right hm] at hkeep
  cases h with
  | full hrun => rfl
  | @noFrame m k₁ k' hm hm' hrun hfree hdropped =>
    have hneed := hrest hm hm' hrun
    simp only [Kernel.framesFor, hm', if_true, hfree, List.length_nil, nptEntries] at hneed
    split at hneed <;> omega
  | @noTable m mem k₁ k₂ hm hm' hrun hfree hnone hdropped hvalid =>
    have hneed := hrest hm hm' hrun
    simp only [Kernel.framesFor, hm', if_true, hfree, hnone, List.length_singleton, nptEntries,
      Bool.false_eq_true, if_false] at hneed
    omega

end Frames

section Granting

/-- New pages of a growth of process `c` to `newsz` bytes. -/
def newPages (k : Kernel) (c : Slot) (newsz : Nat) : Nat := pages newsz - pages (k.proc c).sz

/-- `allocuvm` returns `newsz` exactly when the new pages fit the free slots, and otherwise 0 with
none of them mapped. -/
def GrantsExactly (cfg : Config) (k : Kernel) (c : Slot) (newsz : Nat) (isImportant : Int) : Prop :=
  ∃ k' r, k.allocuvm cfg c (k.proc c).pgdir (k.proc c).sz newsz isImportant = .ok (k', r) ∧
    (r = newsz ↔ k.newPages c newsz ≤ (k.proc c).freeSlots) ∧
    (¬ k.newPages c newsz ≤ (k.proc c).freeSlots → r = 0 ∧
      ∀ n, pages (k.proc c).sz ≤ n → n < userPages → (k'.space c).Unmapped (k.proc c).pgdir n)

/-- When it does: the tables are not over-asked, and not asked for nothing while they are full. -/
def GrantCondition (k : Kernel) (c : Slot) (newsz : Nat) : Prop :=
  (k.proc c).sz ≤ newsz ∧
    (newsz < kernBase → (0 < (k.proc c).freeSlots → k.newPages c newsz ≤ (k.proc c).freeSlots) ∧
      ((k.proc c).freeSlots = 0 → 0 < k.newPages c newsz ∨ newsz = 0)) ∧
    (kernBase ≤ newsz → (k.proc c).freeSlots < k.newPages c newsz)

private theorem newPages_pos {newsz : Nat} (h : 0 < k.newPages c newsz) : newsz ≠ 0 := by
  rintro rfl
  simp [newPages, pages, pgSize] at h

private theorem Consistent.grantsExactly_iff
    (h : Consistent cfg allCounted k) (hc : k.Active c) (newsz : Nat)
    (isImportant : Int)
    (hframes : k.framesFor (k.proc c).pgdir (pages (k.proc c).sz) (pages newsz) ≤ k.freelist.length) :
    GrantsExactly cfg k c newsz isImportant ↔ GrantCondition k c newsz := by
  obtain ⟨hsz, m, himage⟩ := h.image c hc
  obtain ⟨⟨k', r⟩, hret⟩ := h.allocuvm_returns hc newsz isImportant
  have hunique : GrantsExactly cfg k c newsz isImportant ↔
      (r = newsz ↔ k.newPages c newsz ≤ (k.proc c).freeSlots) ∧
      (¬ k.newPages c newsz ≤ (k.proc c).freeSlots → r = 0 ∧
        ∀ n, pages (k.proc c).sz ≤ n → n < userPages →
          (k'.space c).Unmapped (k.proc c).pgdir n) := by
    unfold GrantsExactly
    constructor
    · rintro ⟨k₁, r₁, hret₁, hgrant⟩
      rw [hret] at hret₁
      obtain ⟨rfl, rfl⟩ : k' = k₁ ∧ r = r₁ := by simpa using hret₁
      exact hgrant
    · exact fun hgrant => ⟨k', r, hret, hgrant⟩
  have hroom := (k.proc c).hasRoom_eq
  have hbeyond : ∀ n, pages (k.proc c).sz ≤ n → n < userPages →
      (k.space c).Unmapped (k.proc c).pgdir n := himage.beyond
  rw [hunique]
  unfold GrantCondition
  rcases allocuvm_ok hsz hret with ⟨hrefused, hk, rfl⟩ | ⟨hlt, -, rfl⟩ |
    ⟨hle, hnew, hgranted, ok, hg, hr⟩
  · -- refused before the loop: too large, or no slot is free
    rw [hk]
    rcases Nat.lt_or_ge newsz kernBase with hnew | hbig
    · obtain ⟨hle, hfull⟩ := hrefused hnew
      have hzero : (k.proc c).freeSlots = 0 := by simpa [hroom] using hfull
      constructor
      · rintro ⟨hiff, -⟩
        refine ⟨hle, fun _ => ⟨fun hpos => by omega, fun _ => ?_⟩, fun hbig => by omega⟩
        by_cases hN : k.newPages c newsz = 0
        · exact .inr (hiff.mpr (by omega)).symm
        · exact .inl (by omega)
      · rintro ⟨-, hasked, -⟩
        rcases (hasked hnew).2 hzero with hN | hnone
        · have hne := newPages_pos hN
          exact ⟨⟨fun h0 => absurd h0.symm hne, fun h0 => by omega⟩, fun _ => ⟨rfl, hbeyond⟩⟩
        · have hN : k.newPages c newsz = 0 := by simp [hnone, newPages, pages, pgSize]
          exact ⟨⟨fun _ => by omega, fun _ => hnone.symm⟩, fun hnot => by omega⟩
    · have hpos : 0 < kernBase := by decide
      constructor
      · rintro ⟨hiff, -⟩
        refine ⟨by omega, fun hnew => by omega, fun _ => ?_⟩
        by_contra hN
        have := hiff.mpr (by omega)
        omega
      · rintro ⟨-, -, hover⟩
        have hN := hover hbig
        exact ⟨⟨fun h0 => by omega, fun h0 => by omega⟩, fun _ => ⟨rfl, hbeyond⟩⟩
  · -- asked to grow to less than it has
    have hN : k.newPages c newsz = 0 := by
      have hmono := pages_mono (le_of_lt hlt)
      simp only [newPages]
      omega
    constructor
    · rintro ⟨hiff, -⟩
      have := hiff.mpr (by omega)
      omega
    · rintro ⟨hle, -⟩
      omega
  · -- granted: with the frames it needs the loop goes through
    obtain rfl := hg.full_of_frames hframes
    rw [if_pos rfl] at hr
    have hpos : 0 < (k.proc c).freeSlots := by simpa [hroom] using hgranted
    constructor
    · rintro ⟨hiff, -⟩
      exact ⟨hle, fun _ => ⟨fun _ => hiff.mp hr, fun h0 => by omega⟩, fun hbig => by omega⟩
    · rintro ⟨-, hfit, -⟩
      have hN := (hfit hnew).1 hpos
      exact ⟨⟨fun _ => hN, fun _ => hr⟩, fun hnot => absurd hN hnot⟩

private theorem AfterExec.limits {k₀ : Kernel} {xs : List (Op × Event)} (h : AfterExec k₀ c)
    (hk : Consistent cfg allCounted k₀) (hfit : (k₀.space c).Tracked (k₀.proc c).pgdir)
    (hdisc : ∀ j, ((k₀.proc c).pagesInDisc j).isUsed = false)
    (hrun : Run (OpStep cfg c (accounted cfg c)) k₀ xs k) (hc : k.Active c) :
    WithinLimits k c ∧ ∀ newsz isImportant,
      k.framesFor (k.proc c).pgdir (pages (k.proc c).sz) (pages newsz) ≤ k.freelist.length →
      (GrantsExactly cfg k c newsz isImportant ↔ GrantCondition k c newsz) := by
  have hagreed : Agreed cfg c (k₀.proc c).pgdir discPages k₀ := h.agreed hk.frames.valid_free hdisc
  have hend := Accounted.reached ⟨hk, hagreed, hfit⟩ hrun hc
  have hhere : Accounted cfg c (k.proc c).pgdir k := by
    rw [hend.agreed.pgdir]
    exact hend
  constructor
  · exact hhere.withinLimits
  · exact fun newsz isImportant hframes => hend.consistent.grantsExactly_iff hc newsz isImportant hframes

/-- Along every run of growth that fits the tables and of page-ins that get a frame and find their
page's own entry, the limits hold and every resident page is accounted for; and in every state of
such a run `allocuvm` grants exactly what fits when the tables are not over-asked. -/
theorem limits_of_run {k₀ : Kernel} {xs : List (Op × Event)} (hstart : Started cfg k₀)
    (hinUse : k₀.InUse c) (hpid : 2 < (k₀.proc c).pid)
    (hfit : (k₀.space c).Tracked (k₀.proc c).pgdir)
    (hdisc : ∀ j, ((k₀.proc c).pagesInDisc j).isUsed = false)
    (hrun : Run (OpStep cfg c (accounted cfg c)) k₀ xs k) (hc : k.Active c) :
    WithinLimits k c ∧ ∀ newsz isImportant,
      k.framesFor (k.proc c).pgdir (pages (k.proc c).sz) (pages newsz) ≤ k.freelist.length →
      (GrantsExactly cfg k c newsz isImportant ↔ GrantCondition k c newsz) :=
  (hstart.exec c hinUse hpid).limits hstart.consistent hfit hdisc hrun hc

end Granting

/-- Growth by one page more than the disc table holds: the last page is mapped and in no table. -/
theorem growth_untracked :
    ∃ k, Run (OpStep (Solo.config .FIFO) Solo.main anyOp) Solo.full.kernel
        [(.growproc 65536, .resized 126976)] k ∧
      Started (Solo.config .FIFO) Solo.full.kernel ∧
      (Solo.full.kernel.space Solo.main).Tracked (Solo.full.kernel.proc Solo.main).pgdir ∧
      (∀ j, ((Solo.full.kernel.proc Solo.main).pagesInDisc j).isUsed = false) ∧
      k.Active Solo.main ∧ ¬ WithinLimits k Solo.main := by
  have hcheck : (([(Op.growproc 65536, Event.resized 126976)].foldlM
      (runOp (Solo.config .FIFO) Solo.main anyOp) Solo.full.kernel).map fun k =>
        decide (k.Active Solo.main ∧ hasFlag (k.pte (k.proc Solo.main).pgdir 30) .P = true ∧
          ∀ i, ((k.proc Solo.main).pagesInPhysicalMemory i).virtualAddress ≠ 30 * pgSize)) =
      some true := by decide +kernel
  obtain ⟨k, hk, hfacts⟩ := Option.map_eq_some_iff.mp hcheck
  obtain ⟨hc, hP, hnone⟩ := of_decide_eq_true hfacts
  refine ⟨k, .of_foldlM hk, Solo.full.started (le_refl _), Solo.full_tracked, fun _ => rfl, hc, ?_⟩
  intro hlimits
  obtain ⟨i, ⟨-, hnames⟩, -⟩ := hlimits.entry 30 (by decide) hP
  exact hnone i hnames.addr

/-- A growth that needs one eviction, the fault on the page it cost, and a shrink. -/
theorem limits_of_run_grow_fault_shrink :
    ∃ k, [(Op.growproc 4096, Event.resized 65536), (.load 0 true, .faulted 0),
        (.growproc (-4096), .resized 61440)].foldlM
          (runOp (Solo.config .FIFO) Solo.main (accounted (Solo.config .FIFO) Solo.main))
          Solo.full.kernel = some k ∧
      WithinLimits k Solo.main ∧ ∀ newsz isImportant,
        k.framesFor (k.proc Solo.main).pgdir (pages (k.proc Solo.main).sz) (pages newsz) ≤
          k.freelist.length →
        (GrantsExactly (Solo.config .FIFO) k Solo.main newsz isImportant ↔
          GrantCondition k Solo.main newsz) := by
  have hcheck : (([(Op.growproc 4096, Event.resized 65536), (.load 0 true, .faulted 0),
      (.growproc (-4096), .resized 61440)].foldlM
        (runOp (Solo.config .FIFO) Solo.main (accounted (Solo.config .FIFO) Solo.main))
        Solo.full.kernel).map fun k => decide (k.Active Solo.main)) = some true := by
    decide +kernel
  obtain ⟨k, hk, hc⟩ := Option.map_eq_some_iff.mp hcheck
  exact ⟨k, hk, limits_of_run (Solo.full.started (le_refl _)) ((Solo.inUse_iff _).mpr rfl)
    (by decide) Solo.full_tracked (fun _ => rfl) (.of_foldlM hk) (of_decide_eq_true hc)⟩

end Kernel

end OsSessional.Paging
