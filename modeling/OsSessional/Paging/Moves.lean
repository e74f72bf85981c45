import OsSessional.Paging.Machine

/-!
# One process as a system of its own

Every operation of a process moves its image: pages are placed, dropped or fetched, or nothing but
accessed bits and ages changes. The invariants of an image hold along all moves, and the kernel's
operations are such moves as long as the free list holds page frames.
-/

namespace OsSessional.Paging

open Function (update)

namespace Space

variable {s s' : Space} {d : Frame} {m n lo hi hi' : Nat} {l : Option Nat}

/-- What one operation does to an image of `hi` pages, and the number of pages afterwards. The
label is the page the operation fetched. -/
inductive Move (d : Frame) : Option Nat → Nat → Space → Nat → Space → Prop
  | alike {hi : Nat} {s s' : Space} (h : Alike s s') : Move d none hi s hi s'
  | grow {hi hi' : Nat} {s s' : Space} (hle : hi ≤ hi') (hhi : hi' ≤ userPages)
      (h : RangeRun (Place d) hi' hi s s') : Move d none hi s hi' s'
  | undone {hi mid hi' : Nat} {s s₁ s' : Space} (hle : hi ≤ mid) (hmid : mid ≤ hi')
      (hhi : hi' ≤ userPages) (hplaced : RangeRun (Place d) mid hi s s₁)
      (hdropped : RangeRun (Drop d) hi' hi s₁ s') : Move d none hi s hi s'
  | shrink {lo hi hi' : Nat} {s s' : Space} (hle : lo ≤ hi') (hhi : hi ≤ userPages)
      (hle' : hi' ≤ hi) (h : RangeRun (Drop d) hi lo s s') : Move d none hi s hi' s'
  | fetch {hi n : Nat} {s s' : Space} (hn : n < userPages) (hPG : hasFlag (s.pte d n) .PG = true)
      (h : Fetch d n s s' true) : Move d (some n) hi s hi s'

private theorem placed_image (hs : Image d m lo s) (hle : lo ≤ hi) (hhi : hi ≤ userPages)
    (h : RangeRun (Place d) hi lo s s') : Image d m hi s' := by
  have hkeep := h.keeps (I := fun n s => Image d m n s)
    (fun n _ _ _ hn hI hp => hp.image (by omega) hI) hs
  rwa [max_eq_right hle] at hkeep

private theorem dropped_image (hs : Image d m hi' s) (hhi : hi ≤ userPages)
    (h : RangeRun (Drop d) hi lo s s') : Image d m hi' s' :=
  h.keeps_const (I := fun s => Image d m hi' s) (fun _ _ _ _ hn hI hd => hd.image (by omega) hI) hs

theorem Move.image (h : Move d l hi s hi' s') (hs : Image d m hi s) : Image d m hi' s' := by
  cases h with
  | alike ha => exact hs.alike ha
  | grow hle hhi hplaced => exact placed_image hs hle hhi hplaced
  | undone hle hmid hhi hplaced hdropped =>
    have hfull := placed_image hs hle (by omega) hplaced
    exact (dropped_image hfull hhi hdropped).lower fun n hn hlt =>
      dropped_run_unmapped hdropped n hn (by omega)
  | shrink hle hhi hle' hdropped =>
    exact (dropped_image hs hhi hdropped).lower fun n hn hlt =>
      dropped_run_unmapped hdropped n (by omega) hlt
  | fetch hn hPG hfetch => exact hfetch.image hn hs hPG

private theorem placed_discAgree (hs : Image d m lo s) (ha : DiscAgree d m s) (hle : lo ≤ hi)
    (hhi : hi ≤ userPages) (h : RangeRun (Place d) hi lo s s') :
    Image d m hi s' ∧ DiscAgree d m s' := by
  have hkeep := h.keeps (I := fun n s => Image d m n s ∧ DiscAgree d m s)
    (fun n _ _ _ hn hI hp =>
      ⟨hp.image (by omega) hI.1, hp.discAgree (by omega) hI.1 hI.2⟩) ⟨hs, ha⟩
  rwa [max_eq_right hle] at hkeep

private theorem dropped_discAgree (hs : Image d m hi' s) (ha : DiscAgree d m s) (hhi : hi ≤ userPages)
    (h : RangeRun (Drop d) hi lo s s') : DiscAgree d m s' :=
  (h.keeps_const (I := fun s => Image d m hi' s ∧ DiscAgree d m s)
    (fun _ _ _ _ hn hI hd =>
      ⟨hd.image (by omega) hI.1, hd.discAgree (by omega) hI.1.sound hI.2⟩) ⟨hs, ha⟩).2

theorem Move.discAgree (h : Move d l hi s hi' s') (hs : Image d m hi s) (ha : DiscAgree d m s)
    (hmatch : ∀ n, l = some n → Matches n s) : DiscAgree d m s' := by
  cases h with
  | alike halike => exact ha.alike halike
  | grow hle hhi hplaced => exact (placed_discAgree hs ha hle hhi hplaced).2
  | undone hle hmid hhi hplaced hdropped =>
    obtain ⟨hs₁, ha₁⟩ := placed_discAgree hs ha hle (by omega) hplaced
    exact dropped_discAgree hs₁ ha₁ hhi hdropped
  | shrink hle hhi hle' hdropped => exact dropped_discAgree hs ha hhi hdropped
  | fetch hn hPG hfetch => exact hfetch.discAgree hn hs ha hPG (hmatch _ rfl) rfl

/-- What is tracked stays tracked while the image does not grow: a growth that was undone took its
pages with it. -/
theorem Move.tracked (h : Move d l hi s hi' s') (hs : Image d m hi s) (ht : Tracked d s)
    (hmatch : ∀ n, l = some n → Matches n s) (hle : hi' ≤ hi) : Tracked d s' := by
  cases h with
  | alike halike => exact TrackedOn.alike ht halike
  | grow hle' hhi hplaced =>
    cases hplaced with
    | done _ => exact ht
    | next hlt _ _ => omega
  | @undone _ mid hi₁ _ s₁ _ hle' hmid hhi hplaced hdropped =>
    have hlow := hplaced.keeps (I := fun n s => Image d m n s ∧ TrackedOn (· < hi) d s)
      (fun n _ _ hn hn' hI hp => ⟨hp.image (by omega) hI.1, hI.2.place hI.1.sound (by omega) hp⟩)
      ⟨hs, ht.mono fun _ _ _ _ => trivial⟩
    have hdrop : TrackedOn (· < hi) d s' :=
      hdropped.keeps_const (I := TrackedOn (· < hi) d) (fun _ _ _ _ _ hI hd => hI.drop hd) hlow.2
    rw [max_eq_right hle'] at hlow
    have himage := dropped_image hlow.1 hhi hdropped
    refine hdrop.mono fun n hn hP _ => ?_
    by_contra hge
    by_cases hlt : n < hi₁
    · simp [(dropped_run_unmapped hdropped n (by omega) hlt).1] at hP
    · simp [(himage.beyond n (by omega) hn).1] at hP
  | shrink _ hhi hle' hdropped =>
    exact hdropped.keeps_const (I := Tracked d) (fun _ _ _ _ _ hI hd => TrackedOn.drop hI hd) ht
  | fetch hn hPG hfetch => exact ht.fetch hn hs hPG (hmatch _ rfl) hfetch

end Space

namespace Kernel

variable {cfg : Config} {k k' : Kernel} {c : Slot} {d : Frame} {m n lo hi : Nat}

/-- Every free frame is one `kfree` takes. -/
def FreeValid (cfg : Config) (k : Kernel) : Prop := ∀ fr ∈ k.freelist, ValidFrame cfg fr

theorem FreeValid.aligned (h : FreeValid cfg k) : ∀ fr ∈ k.freelist, PageAligned fr :=
  fun fr hfr => (h fr hfr).aligned

private theorem FreeValid.of_eq (h : FreeValid cfg k) (heq : k'.freelist = k.freelist) :
    FreeValid cfg k' := fun fr hfr => h fr (heq ▸ hfr)

theorem FreeValid.of_subset (h : FreeValid cfg k) (hsub : ∀ fr ∈ k'.freelist, fr ∈ k.freelist) :
    FreeValid cfg k' := fun fr hfr => h fr (hsub fr hfr)

theorem FreeValid.freed (h : FreeValid cfg k) {fr : Frame} (hfr : ValidFrame cfg fr)
    (heq : k'.freelist = fr :: k.freelist) : FreeValid cfg k' := by
  intro r hr
  rw [heq] at hr
  rcases List.mem_cons.mp hr with rfl | hr
  · exact hfr
  · exact h r hr

theorem FreeValid.mapped (h : FreeValid cfg k) {perm : PTE} {page : Page} {mem : Frame}
    (hmap : Mapped k d n perm page mem k') : FreeValid cfg k' :=
  h.of_subset hmap.free_subset

theorem FreeValid.evicted (h : FreeValid cfg k) {note : PageData → PageData → PageData}
    {i : Fin maxPyscPages} {j : Fin discPages} {f : SwapFile} {page : Page}
    (hev : Evicted cfg note k k' c i j f page) : FreeValid cfg k' :=
  h.freed hev.valid (by rw [hev.result]; rfl)

theorem FreeValid.placed (h : FreeValid cfg k) {isImportant : Int}
    (hplace : Placed cfg c d isImportant n k k') : FreeValid cfg k' := by
  cases hplace with
  | noProcess hmap hpid => exact h.mapped hmap
  | tracked hmap hfree => exact (h.mapped hmap).of_eq rfl
  | stuck hmap hfull hfail => exact (h.mapped hmap).of_eq rfl
  | @evicting mem k₁ k₂ i j f page hmap hfull hevict =>
    have hcount : FreeValid cfg (k₁.countFault c) := (h.mapped hmap).of_eq rfl
    exact (hcount.evicted hevict).of_eq rfl

theorem FreeValid.dropped (h : FreeValid cfg k) (hdrop : Dropped cfg c d n k k') :
    FreeValid cfg k' := by
  cases hdrop with
  | present hP hvalid => exact h.freed hvalid rfl
  | paged hP hPG => exact h
  | unmapped hP hPG => exact h

theorem FreeValid.pageReady (h : FreeValid cfg k) {mem : Option Frame}
    (hready : PageReady k c mem k') :
    FreeValid cfg k' ∧ ∀ fr, mem = some fr → PageAligned fr := by
  cases hready with
  | @frame fr rest hfree =>
    refine ⟨h.of_subset ?_, ?_⟩
    · rw [hfree]
      exact fun r hr => List.mem_cons_of_mem _ hr
    · rintro r ⟨⟩
      exact h.aligned fr (by simp [hfree])
  | null hfree => exact ⟨h, by simp⟩

private theorem FreeValid.room (h : FreeValid cfg k) {i : Fin maxPyscPages} (hroom : RoomAt cfg c k i k') :
    FreeValid cfg k' := by
  cases hroom with
  | free _ => exact h
  | evicted _ hev => exact h.evicted hev

theorem FreeValid.fetched (h : FreeValid cfg k) {mem : Option Frame} {ok : Bool}
    (hf : Fetched cfg c n mem k k' ok) : FreeValid cfg k' := by
  cases hf with
  | noVictim hfull hev => exact h
  | missing hroom htable habsent hindex => exact (h.room hroom).of_eq rfl
  | unread hroom htable habsent hindex hfile hread => exact (h.room hroom).of_eq rfl
  | moved hroom htable habsent hindex hfile hread hpage => exact (h.room hroom).of_eq rfl

theorem placedRun_space (h : FreeValid cfg k) (hs : (k.space c).Image d m lo)
    (hhi : hi ≤ userPages) {isImportant : Int}
    (hrun : RangeRun (Placed cfg c d isImportant) hi lo k k') :
    RangeRun (Space.Place d) hi lo (k.space c) (k'.space c) ∧ FreeValid cfg k' ∧ Local c d k k' := by
  have hmap := hrun.map (I := FreeValid cfg) (R := Space.Place d) (fun k => k.space c)
    (fun n k₁ k₂ _ _ hv hplace => ⟨hplace.space hv.aligned, hv.placed hplace⟩) h
  have hlocal := hrun.keeps
    (I := fun n k₁ => (k₁.space c).Image d m n ∧ FreeValid cfg k₁ ∧ Local c d k k₁)
    (fun n k₁ k₂ _ hn ⟨hs₁, hv, hl⟩ hplace => ⟨(hplace.space hv.aligned).image (by omega) hs₁,
      hv.placed hplace, hl.trans (.of_placed hs₁.sound hplace)⟩) ⟨hs, h, .refl c d k⟩
  exact ⟨hmap.1, hmap.2, hlocal.2.2⟩

theorem droppedRun_space (h : FreeValid cfg k) (hrun : RangeRun (Dropped cfg c d) hi lo k k') :
    RangeRun (Space.Drop d) hi lo (k.space c) (k'.space c) ∧ FreeValid cfg k' ∧ Local c d k k' := by
  have hmap := hrun.map (I := fun k₁ => FreeValid cfg k₁ ∧ Local c d k k₁)
    (R := Space.Drop d) (fun k => k.space c)
    (fun n k₁ k₂ _ _ hI hdrop => ⟨hdrop.space, hI.1.dropped hdrop, hI.2.trans (.of_dropped hdrop)⟩)
    ⟨h, .refl c d k⟩
  exact ⟨hmap.1, hmap.2.1, hmap.2.2⟩

/-- A growth as a move of the image; what failed was undone. -/
theorem grown_move (h : FreeValid cfg k) (hs : (k.space c).Image d m lo) (hle : lo ≤ hi)
    (hhi : hi ≤ userPages) {isImportant : Int} {ok : Bool}
    (hg : Grown cfg c d isImportant lo hi k k' ok) :
    Space.Move d none lo (k.space c) (if ok then hi else lo) (k'.space c) ∧ FreeValid cfg k' ∧
      Local c d k k' := by
  cases hg with
  | full hrun =>
    obtain ⟨hplaced, hv, hl⟩ := placedRun_space h hs hhi hrun
    exact ⟨.grow hle hhi hplaced, hv, hl⟩
  | noFrame hm hm' hrun hfree hdropped =>
    obtain ⟨hplaced, hv, hl⟩ := placedRun_space h hs (by omega) hrun
    obtain ⟨hdrop, hv', hl'⟩ := droppedRun_space hv hdropped
    exact ⟨.undone hm (by omega) hhi hplaced hdrop, hv', hl.trans hl'⟩
  | @noTable mid mem k₁ k₂ hm hm' hrun hfree hnone hdropped hvalid =>
    obtain ⟨hplaced, hv, hl⟩ := placedRun_space h hs (by omega) hrun
    have htaken : FreeValid cfg ({ k₁ with freelist := [] }.setMem mem fun _ => 0) := by
      intro fr hfr
      simp at hfr
    have hltaken : Local c d k₁ ({ k₁ with freelist := [] }.setMem mem fun _ => 0) :=
      Local.of_take.trans Local.of_setMem
    obtain ⟨hdrop, hv', hl'⟩ := droppedRun_space htaken hdropped
    exact ⟨.undone hm (by omega) hhi hplaced hdrop, hv'.freed hvalid rfl,
      ((hl.trans hltaken).trans hl').trans .of_freed⟩

/-- The process and its image as an operation of the process finds and leaves them. -/
structure Moved (cfg : Config) (c : Slot) (l : Option Nat) (k k' : Kernel) : Prop where
  move : Space.Move (k.proc c).pgdir l (pages (k.proc c).sz) (k.space c) (pages (k'.proc c).sz)
    (k'.space c)
  free : FreeValid cfg k'
  pgdir : (k'.proc c).pgdir = (k.proc c).pgdir
  sz_lt : (k'.proc c).sz < kernBase

private theorem Moved.of_local {l : Option Nat} (hl : Local c (k.proc c).pgdir k k')
    (hsz : (k.proc c).sz < kernBase) (hv : FreeValid cfg k')
    (hmove : Space.Move (k.proc c).pgdir l (pages (k.proc c).sz) (k.space c) (pages (k.proc c).sz)
      (k'.space c)) : Moved cfg c l k k' :=
  ⟨by rwa [hl.sz], hv, hl.pgdir, by rwa [hl.sz]⟩

private theorem Moved.of_setSz {l : Option Nat} (hl : Local c (k.proc c).pgdir k k') {sz : Nat}
    (hsz : sz < kernBase) (hv : FreeValid cfg k')
    (hmove : Space.Move (k.proc c).pgdir l (pages (k.proc c).sz) (k.space c) (pages sz)
      (k'.space c)) : Moved cfg c l k (k'.setSz c sz) where
  move := by simpa [setSz, space] using hmove
  free := hv.of_eq rfl
  pgdir := by simpa [setSz] using hl.pgdir
  sz_lt := by simpa [setSz] using hsz

theorem Moved.resized (h : FreeValid cfg k) (hsz : (k.proc c).sz < kernBase)
    (hs : (k.space c).Image (k.proc c).pgdir m (pages (k.proc c).sz)) {ok : Bool}
    {x : Int} (hr : Resized cfg c x k k' ok) : Moved cfg c none k k' := by
  have hpages := pages_le_userPages (le_of_lt hsz)
  cases hr with
  | same => exact .of_local (.refl _ _ k) hsz h (.alike (.refl _))
  | grown hm heq hle hnew hroom hg =>
    obtain ⟨hmove, hv, hl⟩ := grown_move h hs (pages_mono hle) (pages_le_userPages (le_of_lt hnew)) hg
    exact .of_setSz hl hnew hv hmove
  | failed hle hnew hg =>
    obtain ⟨hmove, hv, hl⟩ := grown_move h hs (pages_mono hle) (pages_le_userPages (le_of_lt hnew)) hg
    exact .of_local hl hsz hv hmove
  | shrunk hlt hpos hrun =>
    obtain ⟨hdrop, hv, hl⟩ := droppedRun_space h hrun
    exact .of_setSz hl (by omega) hv (.shrink (le_refl _) hpages (pages_mono (by omega)) hdrop)
  | emptied hpos hrun =>
    obtain ⟨hdrop, hv, hl⟩ := droppedRun_space h hrun
    exact .of_local hl hsz hv (.shrink (pages_mono (Nat.zero_le _)) hpages (le_refl _) hdrop)

theorem fetched_space (h : FreeValid cfg k) (hs : (k.space c).Sound (· = (k.proc c).pgdir))
    {mem : Option Frame} {k₀ : Kernel} {ok : Bool} (hready : PageReady k c mem k₀)
    (hf : Fetched cfg c n mem k₀ k' ok) :
    (k.space c).Fetch (k.proc c).pgdir n (k'.space c) ok ∧ Local c (k.proc c).pgdir k k' := by
  have hspace : k₀.space c = k.space c := hready.space
  have hl : Local c (k.proc c).pgdir k k₀ := .of_pageReady hready
  rw [← hspace] at hs ⊢
  exact ⟨hf.space (h.pageReady hready).2 hl.pgdir, hl.trans (.of_fetched hl.pgdir hs hf)⟩

private theorem Moved.fetched (h : FreeValid cfg k) (hsz : (k.proc c).sz < kernBase)
    (hs : (k.space c).Image (k.proc c).pgdir m (pages (k.proc c).sz)) (hn : n < userPages)
    (hPG : hasFlag (k.pte (k.proc c).pgdir n) .PG = true) {mem : Option Frame} {k₀ : Kernel}
    (hready : PageReady k c mem k₀) (hf : Fetched cfg c n mem k₀ k' true) :
    Moved cfg c (some n) k k' := by
  obtain ⟨hfetch, hl⟩ := fetched_space h hs.sound hready hf
  exact .of_local hl hsz ((h.pageReady hready).1.fetched hf) (.fetch hn hPG hfetch)

theorem exited_not_active {k : Kernel} {p : Proc} : ¬ (k.setProc c (exited p)).Active c := by
  intro h
  exact h.zombie (by simp [exited])

/-- An operation that leaves its process running moves the image, and the label of the move is the
page the operation faulted in. -/
theorem Stepped.moved {op : Op} {e : Event} (h : Stepped cfg c k op e k') (hv : FreeValid cfg k)
    (hsz : (k.proc c).sz < kernBase)
    (hs : (k.space c).Image (k.proc c).pgdir m (pages (k.proc c).sz)) (hc : k'.Active c) :
    Moved cfg c (k.fetches c op) k k' := by
  have hquiet : ∀ {k₁}, Quiet k k₁ → Moved cfg c none k k₁ := by
    intro k₁ hq
    obtain ⟨hpgdir, -, hsame, -⟩ := hq.proc c
    refine ⟨?_, hv.of_eq hq.freelist, hpgdir, by rwa [hsame]⟩
    rw [hsame]
    exact .alike (hq.alike c)
  cases h with
  | @loaded a walk fr hop ha hacc =>
    subst hop
    rw [show k.fetches c (.load a walk) = none by simp [fetches, hacc]]
    exact hquiet (walked_quiet (access_some hacc).1)
  | @stored a b walk fr hop ha hacc =>
    subst hop
    rw [show k.fetches c (.store a b walk) = none by simp [fetches, hacc]]
    have hwalked : Quiet k (k.walked c a walk) := walked_quiet (access_some hacc).1
    obtain ⟨hmove, hv', hpgdir, hsz'⟩ := hquiet hwalked
    exact ⟨hmove, hv'.of_eq rfl, hpgdir, hsz'⟩
  | @faulted a k' ha hfetch hf =>
    cases hf with
    | serviced hPG hready hfetched =>
      rw [hfetch hPG]
      exact .fetched hv hsz hs (page_lt_userPages ha) hPG hready hfetched
    | notPaged hPG => exact absurd hc exited_not_active
    | refused hPG hready hfetched => exact absurd hc exited_not_active
  | resized hop hg =>
    subst hop
    exact .resized hv hsz hs (growproc_ok hsz hg)
  | ticked hop ht =>
    subst hop
    exact hquiet (updateAgeForAllProcess_quiet ht)

section Running

variable {allow : Kernel → Op → Bool} {x : Op × Event}

/-- Process `c` performs an operation that `allow` admits, with the outcome given. -/
def runOp (cfg : Config) (c : Slot) (allow : Kernel → Op → Bool) (k : Kernel) (x : Op × Event) :
    Option Kernel :=
  if k.Active c ∧ x.1.User ∧ allow k x.1 = true then
    match k.perform cfg c x.1 with
    | .ok (k', e) => if e = x.2 then some k' else none
    | .error _ => none
  else none

/-- A step of process `c` alone, timer ticks included. -/
def OpStep (cfg : Config) (c : Slot) (allow : Kernel → Op → Bool) (k : Kernel) (x : Op × Event)
    (k' : Kernel) : Prop :=
  k.runOp cfg c allow x = some k'

/-- Every operation. -/
def anyOp (_ : Kernel) (_ : Op) : Bool := true

theorem OpStep.performed (h : OpStep cfg c allow k x k') :
    k.Active c ∧ x.1.User ∧ allow k x.1 = true ∧ k.perform cfg c x.1 = .ok (k', x.2) := by
  simp only [OpStep, runOp] at h
  split at h
  · next hcond =>
    split at h
    · next k₁ e hok =>
      split at h
      · next he =>
        obtain rfl : k₁ = k' := by simpa using h
        exact ⟨hcond.1, hcond.2.1, hcond.2.2, by rw [hok, he]⟩
      · simp at h
    · simp at h
  · simp at h

end Running

end Kernel

end OsSessional.Paging
