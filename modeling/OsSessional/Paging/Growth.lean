import OsSessional.Paging.Acts

/-!
# Healthy growth

An image whose tables and frames are sound stays so while it grows, shrinks and takes page faults,
and every other process keeps what it had.
-/

namespace OsSessional.Paging

open Function (update update_self update_of_ne)

namespace Kernel

variable {cfg : Config} {X L : Frame → Prop} {k k' k₁ : Kernel} {c : Slot} {d : Frame}
variable {m n lo hi : Nat}

/-- Process `c` runs an image of `hi` pages in directory `d`: its tables are sound, and so is the
ledger of the live directories. -/
structure Healthy (cfg : Config) (X L : Frame → Prop) (c : Slot) (d : Frame) (m hi : Nat)
    (k : Kernel) : Prop where
  image : (k.space c).Image d m hi
  frames : FramesSound cfg X L k

theorem FramesSound.placed (h : FramesSound cfg X L k) (hs : (k.space c).Sound (· = d)) (hd : L d)
    (hn : n < userPages) {isImportant : Int} (hplace : Placed cfg c d isImportant n k k') :
    FramesSound cfg X L k' := by
  have hperm : pteAddr (pteW ||| pteU) = 0 := by decide
  cases hplace with
  | noProcess hmap hpid => exact h.mapped hd hn hperm hmap
  | tracked hmap hfree =>
    have hmapped := h.mapped hd hn hperm hmap
    exact hmapped.of_eq rfl rfl
  | stuck hmap hfull hfail =>
    have hmapped := h.mapped hd hn hperm hmap
    exact hmapped.of_eq rfl rfl
  | @evicting mem k₁ k₂ i j f page hmap hfull hevict =>
    have hmapped := h.mapped hd hn hperm hmap
    have halign : PageAligned mem := by
      obtain ⟨rest, hfree⟩ := hmap.free
      exact h.aligned_free (by simp [hfree])
    have hs₁ : ((k₁.countFault c).space c).Sound (· = d) := by
      rw [countFault_space, hmap.space]
      exact hs.map (mapPte_flags halign).present (mapPte_flags halign).inMemory
    have hcount : FramesSound cfg X L (k₁.countFault c) := hmapped.of_eq rfl rfl
    have hevicted := (hcount.evicted isNote_reallocateNote hs₁ hd hevict).1
    exact hevicted.of_eq rfl rfl

theorem Healthy.placed (h : Healthy cfg X L c d m n k) (hd : L d) (hn : n < userPages)
    {isImportant : Int} (hplace : Placed cfg c d isImportant n k k') :
    Healthy cfg X L c d m (n + 1) k' where
  image := (hplace.space fun _ hfr => h.frames.aligned_free hfr).image hn h.image
  frames := h.frames.placed h.image.sound hd hn hplace

theorem Healthy.dropped (h : Healthy cfg X L c d m hi k) (hd : L d) (hn : n < userPages)
    (hdrop : Dropped cfg c d n k k') : Healthy cfg X L c d m hi k' where
  image := hdrop.space.image hn h.image
  frames := (h.frames.dropped hd hn hdrop).1

theorem Healthy.placedRun (h : Healthy cfg X L c d m lo k) (hd : L d) (hle : lo ≤ hi)
    (hhi : hi ≤ userPages) {isImportant : Int}
    (hrun : RangeRun (Placed cfg c d isImportant) hi lo k k') :
    Healthy cfg X L c d m hi k' ∧ Local c d k k' := by
  have hkeep := hrun.keeps (I := fun n k₁ => Healthy cfg X L c d m n k₁ ∧ Local c d k k₁)
    (fun n s s' _ hn ⟨hh, hl⟩ hstep => ⟨hh.placed hd (by omega) hstep,
      hl.trans (Local.of_placed hh.image.sound hstep)⟩) ⟨h, .refl c d k⟩
  rwa [max_eq_right hle] at hkeep

/-- Dropping pages `lo`, …, `hi' - 1` keeps the rest, and a frame in hand idle. -/
theorem Healthy.droppedRun (h : Healthy cfg X L c d m hi k) (hd : L d) {hi' : Nat}
    (hhi : hi' ≤ userPages) (hrun : RangeRun (Dropped cfg c d) hi' lo k k') :
    Healthy cfg X L c d m hi k' ∧ Local c d k k' ∧
      ∀ r, (k.ledger X L).Idle r → (k'.ledger X L).Idle r := by
  refine hrun.keeps_const (I := fun k₁ => Healthy cfg X L c d m hi k₁ ∧ Local c d k k₁ ∧
    ∀ r, (k.ledger X L).Idle r → (k₁.ledger X L).Idle r) ?_ ⟨h, .refl c d k, fun _ hr => hr⟩
  rintro n s s' - hn ⟨hh, hl, hidle⟩ hstep
  refine ⟨hh.dropped hd (by omega) hstep, hl.trans (Local.of_dropped hstep), ?_⟩
  exact fun r hr => (hh.frames.dropped hd (by omega) hstep).2 r (hidle r hr)

theorem dropped_unmapped (hrun : RangeRun (Dropped cfg c d) hi lo k k') :
    ∀ n, lo ≤ n → n < hi → (k'.space c).Unmapped d n := by
  have hmap := hrun.map (I := fun _ => True) (R := Space.Drop d) (fun k => k.space c)
    (fun _ _ _ _ _ _ hdrop => ⟨hdrop.space, trivial⟩) trivial
  exact Space.dropped_run_unmapped hmap.1

/-- A growth that ends well is an image of the new size; one that fails leaves the old one. -/
theorem Healthy.grown (h : Healthy cfg X L c d m lo k) (hd : L d) (hle : lo ≤ hi)
    (hhi : hi ≤ userPages) {isImportant : Int} {ok : Bool}
    (hgrow : Grown cfg c d isImportant lo hi k k' ok) :
    Healthy cfg X L c d m (if ok then hi else lo) k' ∧ Local c d k k' := by
  cases hgrow with
  | full hrun => exact h.placedRun hd hle hhi hrun
  | @noFrame m' k₁ _ hm hm' hplaced hfree hdropped =>
    obtain ⟨h₁, hl₁⟩ := h.placedRun hd hm (by omega) hplaced
    obtain ⟨h₂, hl₂, -⟩ := h₁.droppedRun hd hhi hdropped
    refine ⟨⟨?_, h₂.frames⟩, hl₁.trans hl₂⟩
    exact h₂.image.lower fun n hn hlt => dropped_unmapped hdropped n hn (by omega)
  | @noTable m' mem k₁ k₂ hm hm' hplaced hfree hnone hdropped hvalid =>
    obtain ⟨h₁, hl₁⟩ := h.placedRun hd hm (by omega) hplaced
    obtain ⟨htaken, hidle⟩ := h₁.frames.take
      ({ k₁ with freelist := [] }.setMem mem fun _ => 0) hfree rfl rfl
    have hmid : Healthy cfg X L c d m m' ({ k₁ with freelist := [] }.setMem mem fun _ => 0) :=
      ⟨h₁.image, htaken⟩
    obtain ⟨h₂, hl₂, hidle₂⟩ := hmid.droppedRun hd hhi hdropped
    have hl : Local c d k₁ ({ k₁ with freelist := [] }.setMem mem fun _ => 0) :=
      Local.of_take.trans Local.of_setMem
    refine ⟨⟨?_, h₂.frames.giveBack (hidle₂ mem hidle) hvalid⟩,
      ((hl₁.trans hl).trans hl₂).trans Local.of_freed⟩
    exact h₂.image.lower fun n hn hlt => dropped_unmapped hdropped n hn (by omega)

/-- What `growproc` leaves: the image of the size it set. -/
theorem Healthy.resized {ok : Bool} {x : Int} (h : Healthy cfg X L c (k.proc c).pgdir m (pages (k.proc c).sz) k)
    (hd : L (k.proc c).pgdir) (hsz : (k.proc c).sz < kernBase) (hr : Resized cfg c x k k' ok) :
    ∃ k₁ sz, Local c (k.proc c).pgdir k k₁ ∧ k' = k₁.setSz c sz ∧ sz < kernBase ∧
      Healthy cfg X L c (k.proc c).pgdir m (pages sz) k₁ := by
  cases hr with
  | same => exact ⟨k, _, .refl _ _ k, (setSz_self rfl).symm, hsz, h⟩
  | @grown newsz k₁ hm heq hle hnew hroom hg =>
    obtain ⟨h₁, hl⟩ := h.grown hd (pages_mono hle) (pages_le_userPages (le_of_lt hnew)) hg
    exact ⟨k₁, newsz, hl, rfl, hnew, h₁⟩
  | @failed newsz _ hle hnew hg =>
    obtain ⟨h₁, hl⟩ := h.grown hd (pages_mono hle) (pages_le_userPages (le_of_lt hnew)) hg
    exact ⟨k', _, hl, (setSz_self hl.sz).symm, hsz, h₁⟩
  | @shrunk newsz k₁ hlt hpos hrun =>
    have hpages := pages_le_userPages (le_of_lt hsz)
    obtain ⟨h₁, hl, -⟩ := h.droppedRun hd hpages hrun
    exact ⟨k₁, newsz, hl, rfl, by omega,
      ⟨h₁.image.lower fun n hn hlt' => dropped_unmapped hrun n hn hlt', h₁.frames⟩⟩
  | emptied hpos hrun =>
    obtain ⟨h₁, hl, -⟩ := h.droppedRun hd (pages_le_userPages (le_of_lt hsz)) hrun
    exact ⟨k', _, hl, (setSz_self hl.sz).symm, hsz, h₁⟩

/-- What a page-in maps: an idle frame, or none that counts. -/
def InHand (cfg : Config) (X L : Frame → Prop) (k : Kernel) : Option Frame → Prop
  | some fr => (k.ledger X L).Idle fr ∧ ValidFrame cfg fr
  | none => X (v2p none)

theorem FramesSound.fetched (h : FramesSound cfg X L k) {mem : Option Frame} {ok : Bool}
    (hpgdir : (k.proc c).pgdir = d) (hs : (k.space c).Image d m hi) (hd : L d)
    (hn : n < userPages) (hPG : hasFlag (k.pte d n) .PG = true) (hmem : k.InHand cfg X L mem)
    (hf : Fetched cfg c n mem k k' ok) : FramesSound cfg X L k' := by
  have hin : ∀ {i : Fin maxPyscPages} {k₁ : Kernel}, RoomAt cfg c k i k₁ →
      k₁.hasTable (k₁.proc c).pgdir n = true → FramesSound cfg X L (k₁.pageIn c n mem) := by
    intro i k₁ hroom htable
    have hdir := (Local.of_room hs.sound hroom).pgdir.trans hpgdir
    obtain ⟨h₁, hkeep⟩ := h.room hs.sound hd hroom
    obtain ⟨hP, hzero⟩ := hs.sound.paged d n rfl hn hPG
    have hsame : k₁.pte (k₁.proc c).pgdir n = k.pte d n := by
      rw [hdir]
      exact hroom.space.pte_of_absent hs.sound hP
    have hzero₁ : pteAddr (k₁.pte (k₁.proc c).pgdir n) = 0 := (congrArg pteAddr hsame).trans hzero
    cases mem with
    | some fr =>
      exact h₁.pageIn (by rwa [hdir]) hn (hkeep fr hmem.1) hmem.2 htable hzero₁
    | none =>
      refine h₁.pageIn_null (by rwa [hdir]) hn hmem htable hzero₁ ?_
      rw [hsame]
      exact hP
  cases hf with
  | noVictim hfull hev => exact h
  | missing hroom htable habsent hindex =>
    exact (hin hroom htable).of_eq rfl rfl
  | unread hroom htable habsent hindex hfile hread => exact hin hroom htable
  | moved hroom htable habsent hindex hfile hread hpage =>
    exact (hin hroom htable).of_eq rfl rfl

private theorem FramesSound.pageReady (h : FramesSound cfg X L k) {mem : Option Frame}
    (hready : PageReady k c mem k') (hfree : k.freelist = [] → X (v2p none)) :
    FramesSound cfg X L k' ∧ k'.InHand cfg X L mem ∧ ∀ r, mem = some r → PageAligned r := by
  cases hready with
  | null hnil => exact ⟨h.of_eq rfl rfl, hfree hnil, by simp⟩
  | @frame fr rest hcons =>
    have hvalid := h.valid_free fr (by simp [hcons])
    obtain ⟨htaken, hidle⟩ := h.take
      (({ k with freelist := rest }.setMem fr fun _ => 0).countFault c) hcons rfl rfl
    refine ⟨htaken, ⟨hidle, hvalid⟩, ?_⟩
    rintro r ⟨⟩
    exact hvalid.aligned

/-- A page-in that was given a frame, or maps one that does not count. -/
theorem Healthy.fetched (h : Healthy cfg X L c d m hi k) (hpgdir : (k.proc c).pgdir = d)
    (hd : L d) (hn : n < userPages) (hPG : hasFlag (k.pte d n) .PG = true) {mem : Option Frame}
    {k₀ : Kernel} {ok : Bool} (hready : PageReady k c mem k₀)
    (hfree : k.freelist = [] → X (v2p none)) (hf : Fetched cfg c n mem k₀ k' ok) :
    Healthy cfg X L c d m hi k' ∧ Local c d k k' := by
  have hspace : k₀.space c = k.space c := hready.space
  have hlocal : Local c d k k₀ := .of_pageReady hready
  obtain ⟨hframes, hmem, halign⟩ := h.frames.pageReady hready hfree
  have himage := h.image
  rw [← hspace] at himage
  have hpte : (k₀.space c).pte d n = k.pte d n := by rw [hspace]; rfl
  have hPG₀ : hasFlag (k₀.pte d n) .PG = true := (congrArg (hasFlag · .PG) hpte).trans hPG
  have hdir := hlocal.pgdir.trans hpgdir
  exact ⟨⟨(hf.space halign hdir).image hn himage hPG₀,
    hframes.fetched hdir himage hd hn hPG₀ hmem hf⟩,
    hlocal.trans (Local.of_fetched hdir himage.sound hf)⟩

end Kernel

end OsSessional.Paging
