import OsSessional.Paging.DiscTable

/-!
# What the pages hold

The bytes of a page are those of its frame while it is resident, and those of its slot in the swap
file while it is paged out. Evictions and page-ins move them, and everything else leaves them where
they are, as long as no two pages share a frame and a page-in finds the entry of its own page.
-/

namespace OsSessional.Paging

open Function (update update_self update_of_ne)

namespace Kernel

variable {cfg : Config} {L : Frame → Prop} {k k' k₁ : Kernel} {c : Slot} {d : Frame}
variable {m n lo hi : Nat} {page : Nat → Page} {isImportant : Int}

/-- The pages of directory `d` hold `page`: the resident ones in their frames, the others in the
slots below `m` that name them. -/
structure Holds (k : Kernel) (c : Slot) (d : Frame) (m : Nat) (page : Nat → Page) : Prop where
  resident : ∀ n < userPages, hasFlag (k.pte d n) .P = true → k.mem (pteAddr (k.pte d n)) = page n
  stored : ∀ (j : Fin discPages) n f, j.val < m → ((k.proc c).pagesInDisc j).isUsed = true →
    Names ((k.proc c).pagesInDisc j) d n → (k.proc c).swapFile = some f →
    ∀ x : Fin pgSize, f.data (pgSize * j + x) = page n x

theorem FramesSound.page_inj (h : FramesSound cfg allCounted L k) (hd : L d) (hn : n < userPages) (hlo : lo < userPages)
    (hP : hasFlag (k.pte d n) .P = true) (hP' : hasFlag (k.pte d lo) .P = true)
    (heq : pteAddr (k.pte d n) = pteAddr (k.pte d lo)) : n = lo := by
  have hheld := held_page (X := allCounted) hd hn hP id
  have hheld' := held_page (X := allCounted) hd hlo hP' id
  rw [← heq] at hheld'
  have howner := h.ledger.inj (.page d n) (.page d lo) _ hheld hheld'
  simp only [Owner.page.injEq] at howner
  exact howner.2

theorem page_not_idle (hd : L d) (hn : n < userPages) (hP : hasFlag (k.pte d n) .P = true)
    {fr : Frame} (hidle : (k.ledger allCounted L).Idle fr) : pteAddr (k.pte d n) ≠ fr := by
  rintro rfl
  exact hidle.not_held (.page d n) (held_page (X := allCounted) hd hn hP id)

private theorem Holds.still (h : Holds k c d m page)
    (hpte : ∀ n < userPages, hasFlag (k'.pte d n) .P = true →
      hasFlag (k.pte d n) .P = true ∧ k'.mem (pteAddr (k'.pte d n)) = k.mem (pteAddr (k.pte d n)))
    (hdisc : ∀ j, ((k'.proc c).pagesInDisc j).isUsed = true →
      (k'.proc c).pagesInDisc j = (k.proc c).pagesInDisc j)
    (hswap : (k'.proc c).swapFile = (k.proc c).swapFile) : Holds k' c d m page where
  resident n hn hP := by
    obtain ⟨hP₀, hmem⟩ := hpte n hn hP
    rw [hmem]
    exact h.resident n hn hP₀
  stored j n f hj hused hnames hf := by
    have hsame := hdisc j hused
    rw [hsame] at hused hnames
    rw [hswap] at hf
    exact h.stored j n f hj hused hnames hf

theorem Holds.quiet (h : Holds k c d m page) (hq : Quiet k k') : Holds k' c d m page := by
  apply h.still
  · intro n _ hP
    have hsame := (hq.alike c).pte d n
    simp only [space] at hsame
    rw [hsame.flag .P (by decide)] at hP
    rw [hsame.addr, hq.mem]
    exact ⟨hP, rfl⟩
  · intro j _
    exact congrFun (hq.alike c).disc j
  · exact (hq.alike c).swap

private theorem Holds.of_mem (h : Holds k c d m page) (hpte : k'.pte = k.pte)
    (hmem : ∀ n < userPages, hasFlag (k.pte d n) .P = true →
      k'.mem (pteAddr (k.pte d n)) = k.mem (pteAddr (k.pte d n)))
    (hdisc : (k'.proc c).pagesInDisc = (k.proc c).pagesInDisc)
    (hswap : (k'.proc c).swapFile = (k.proc c).swapFile) : Holds k' c d m page := by
  apply h.still
  · intro n hn hP
    rw [hpte] at hP ⊢
    exact ⟨hP, hmem n hn hP⟩
  · intro j _
    rw [hdisc]
  · exact hswap

theorem Holds.rewrite (h : Holds k c d m page) (hs : (k.space c).Image d m hi)
    (ha : (k.space c).DiscAgree d m) {page' : Nat → Page} (hsame : ∀ n < hi, page' n = page n) :
    Holds k c d m page' where
  resident n hn hP := by
    by_cases hlt : n < hi
    · rw [hsame n hlt]
      exact h.resident n hn hP
    · have hun := (hs.beyond n (by omega) hn).1
      simp only [space] at hun
      simp [hun] at hP
  stored j n f hj hused hnames hf x := by
    obtain ⟨n', hn', hnames', hPG⟩ := ha.names j hj hused
    obtain rfl : n = n' := Space.page_ext (hnames.addr.symm.trans hnames'.addr)
    by_cases hlt : n < hi
    · rw [hsame n hlt]
      exact h.stored j n f hj hused hnames hf x
    · simp [(hs.beyond n (by omega) hn').2] at hPG

theorem overlay_self (f : SwapFile) (src : Nat → Byte) (j : Fin discPages) (x : Fin pgSize) :
    (f.overlay src (pgSize * j) pgSize).data (pgSize * j + x) = src x := by
  have hx := x.isLt
  simp only [SwapFile.overlay]
  rw [if_pos (by omega)]
  congr 1
  omega

theorem overlay_of_ne (f : SwapFile) (src : Nat → Byte) {j j' : Fin discPages} (hne : j' ≠ j)
    (x : Fin pgSize) :
    (f.overlay src (pgSize * j) pgSize).data (pgSize * j' + x) = f.data (pgSize * j' + x) := by
  have hx := x.isLt
  have hval : j'.val ≠ j.val := fun he => hne (Fin.ext he)
  simp only [SwapFile.overlay]
  rw [if_neg]
  rcases Nat.lt_or_gt_of_ne hval with hlt | hlt
  · have hle : pgSize * (j'.val + 1) ≤ pgSize * j.val := Nat.mul_le_mul_left _ hlt
    rw [Nat.mul_add] at hle
    omega
  · have hle : pgSize * (j.val + 1) ≤ pgSize * j'.val := Nat.mul_le_mul_left _ hlt
    rw [Nat.mul_add] at hle
    omega

private theorem Holds.evicted (h : Holds k c d m page) (hf : FramesSound cfg allCounted L k) (hd : L d)
    (hpgdir : (k.proc c).pgdir = d) (hs : (k.space c).Sound (· = d))
    {note : PageData → PageData → PageData} (hnote : IsNote note) {i : Fin maxPyscPages}
    {j : Fin discPages} {f : SwapFile} {pg : Page} (hev : Evicted cfg note k k' c i j f pg) :
    Holds k' c d m page := by
  obtain ⟨v, hout⟩ := hev.pageOut hnote hs
  have hpage : pg = page v := (hout.page_eq hpgdir).trans (h.resident v hout.lt hout.present)
  constructor
  · intro n hn hPn
    have hne : n ≠ v := by
      rintro rfl
      simp [hout.pte, hasFlag_pageOutPte] at hPn
    rw [hout.pte, setEntry_of_ne fun _ => hne] at hPn ⊢
    rw [hout.mem, update_of_ne]
    · exact h.resident n hn hPn
    · exact fun heq => hne (hf.page_inj hd hn hout.lt hPn hout.present heq)
  · intro j' n g hj' hused' hnames hg x
    obtain rfl := Option.some.inj (hout.written.symm.trans hg)
    by_cases hjj : j' = j
    · subst hjj
      have hn : n = v := Space.page_ext (hnames.addr.symm.trans hout.entry.2.addr)
      rw [overlay_self, hn, ← hpage]
      simp [pageBytes]
    · rw [hout.disc_of_ne j' hjj] at hused' hnames
      rw [overlay_of_ne f _ hjj]
      exact h.stored j' n f hj' hused' hnames hout.swapFile x

private theorem Holds.mapped (h : Holds k c d m page) (hf : FramesSound cfg allCounted L k) (hd : L d)
    {mem : Frame} (hmap : Mapped k d n (pteW ||| pteU) (fun _ => 0) mem k₁)
    (hzero : page n = fun _ => 0) : Holds k₁ c d m page := by
  obtain ⟨rest, hfree⟩ := hmap.free
  have halign : PageAligned mem := hf.aligned_free (by simp [hfree])
  have hpte := hmap.pte
  constructor
  · intro n' hn' hP
    rw [hmap.mem_eq, hpte] at *
    by_cases hne : n' = n
    · subst hne
      rw [setEntry_self, pteAddr_mapPte halign (by decide), update_self, hzero]
    · rw [setEntry_of_ne fun _ => hne] at hP ⊢
      rw [update_of_ne]
      · exact h.resident n' hn' hP
      · rintro rfl
        exact hf.page_not_free hd hn' hP (by simp [hfree])
  · rw [hmap.proc]
    exact h.stored

private theorem Holds.tracked (h : Holds k c d m page) (d' : Frame) (va : Nat) :
    Holds (k.updatePhysicalPageMetaData c d' va isImportant) c d m page :=
  h.of_mem rfl (fun _ _ _ => rfl) (by simp [updatePhysicalPageMetaData])
    (by simp [updatePhysicalPageMetaData])

private theorem Holds.countFault (h : Holds k c d m page) : Holds (k.countFault c) c d m page :=
  h.of_mem rfl (fun _ _ _ => rfl) (by simp [Kernel.countFault]) (by simp [Kernel.countFault])

/-- An image whose tables and frames are sound, and what its pages hold. -/
structure Filled (cfg : Config) (L : Frame → Prop) (c : Slot) (d : Frame) (m : Nat)
    (page : Nat → Page) (hi : Nat) (k : Kernel) : Prop where
  pgdir : (k.proc c).pgdir = d
  healthy : Healthy cfg allCounted L c d m hi k
  agree : (k.space c).DiscAgree d m
  holds : Holds k c d m page

private theorem Filled.placed (h : Filled cfg L c d m page n k) (hd : L d) (hn : n < userPages)
    (hzero : page n = fun _ => 0) (hplace : Placed cfg c d isImportant n k k') :
    Filled cfg L c d m page (n + 1) k' := by
  have hspace := hplace.space fun _ hfr => h.healthy.frames.aligned_free hfr
  have hs := h.healthy.image
  refine ⟨(Local.of_placed hs.sound hplace).pgdir.trans h.pgdir, h.healthy.placed hd hn hplace,
    hspace.discAgree hn hs h.agree, ?_⟩
  cases hplace with
  | noProcess hmap hpid => exact h.holds.mapped h.healthy.frames hd hmap hzero
  | tracked hmap hfree => exact (h.holds.mapped h.healthy.frames hd hmap hzero).tracked d _
  | stuck hmap hfull hfail => exact (h.holds.mapped h.healthy.frames hd hmap hzero).countFault
  | @evicting mem k₁ k₂ i j f pg hmap hfull hevict =>
    have hmapped := h.healthy.frames.mapped hd hn (by decide) hmap
    have hframes : FramesSound cfg allCounted L (k₁.countFault c) := hmapped.of_eq rfl rfl
    have hsound : ((k₁.countFault c).space c).Sound (· = d) := by
      obtain ⟨rest, hcons⟩ := hmap.free
      have hmem : mem ∈ k.freelist := by simp [hcons]
      have halign := h.healthy.frames.aligned_free hmem
      rw [countFault_space, hmap.space]
      exact hs.sound.map (mapPte_flags halign).present (mapPte_flags halign).inMemory
    have hpgdir : ((k₁.countFault c).proc c).pgdir = d := by
      simpa [Kernel.countFault, hmap.proc] using h.pgdir
    exact ((h.holds.mapped h.healthy.frames hd hmap hzero).countFault.evicted hframes hd hpgdir
      hsound isNote_reallocateNote hevict).tracked d _

private theorem Filled.dropped (h : Filled cfg L c d m page hi k) (hd : L d) (hn : n < userPages)
    (hdrop : Dropped cfg c d n k k') : Filled cfg L c d m page hi k' := by
  have hs := h.healthy.image
  refine ⟨(Local.of_dropped hdrop).pgdir.trans h.pgdir, h.healthy.dropped hd hn hdrop,
    hdrop.space.discAgree hn hs.sound h.agree, ?_⟩
  cases hdrop with
  | present hP hvalid =>
    have hpte : ((((k.freed (pteAddr (k.pte d n))).setProc c
        ((k.proc c).removePhysicalPageMetaData d (n * pgSize))).setPte d n 0)).pte =
        setEntry k.pte d n 0 := setPte_pte_eq (k := (k.freed _).setProc c _) (hasTable_of_hasFlag hP)
    apply h.holds.still
    · intro n' hn' hP'
      rw [hpte] at hP' ⊢
      by_cases hne : n' = n
      · subst hne
        simp at hP'
      · rw [setEntry_of_ne fun _ => hne] at hP' ⊢
        refine ⟨hP', ?_⟩
        simp only [setPte_mem, setProc_mem, freed_mem]
        exact update_of_ne (fun heq => hne (h.healthy.frames.page_inj hd hn' hn hP' hP heq)) _ _
    · intro j _
      simp [Proc.removePhysicalPageMetaData]
    · simp [Proc.removePhysicalPageMetaData]
  | paged hP hPG =>
    have hpte : (((k.setProc c ((k.proc c).removeDiscMetaData d (n * pgSize))).setPte d n 0)).pte =
        setEntry k.pte d n 0 := setPte_pte_eq (k := k.setProc c _) (hasTable_of_hasFlag hPG)
    apply h.holds.still
    · intro n' hn' hP'
      rw [hpte] at hP' ⊢
      by_cases hne : n' = n
      · subst hne
        simp at hP'
      · rw [setEntry_of_ne fun _ => hne] at hP' ⊢
        exact ⟨hP', rfl⟩
    · intro j hused
      simp only [setPte_proc, setProc_proc_self, Proc.removeDiscMetaData] at hused ⊢
      exact (Space.removeFrom_used hused).1
    · simp [Proc.removeDiscMetaData]
  | unmapped hP hPG => exact h.holds

private theorem Filled.placedRun (h : Filled cfg L c d m page lo k) (hd : L d) (hle : lo ≤ hi)
    (hhi : hi ≤ userPages) (hzero : ∀ n, lo ≤ n → page n = fun _ => 0)
    (hrun : RangeRun (Placed cfg c d isImportant) hi lo k k') : Filled cfg L c d m page hi k' := by
  have hkeep := hrun.keeps (I := fun n k => Filled cfg L c d m page n k)
    (fun n _ _ hlo hn hI hplace => hI.placed hd (by omega) (hzero n hlo) hplace) h
  rwa [max_eq_right hle] at hkeep

private theorem Filled.droppedRun (h : Filled cfg L c d m page hi k) (hd : L d) {hi' : Nat}
    (hhi : hi' ≤ userPages) (hrun : RangeRun (Dropped cfg c d) hi' lo k k') :
    Filled cfg L c d m page hi k' :=
  hrun.keeps_const (I := Filled cfg L c d m page hi)
    (fun _ _ _ _ hn hI hdrop => hI.dropped hd (by omega) hdrop) h

private theorem Filled.lower (h : Filled cfg L c d m page hi k)
    (hun : ∀ n, lo ≤ n → n < hi → (k.space c).Unmapped d n) : Filled cfg L c d m page lo k :=
  ⟨h.pgdir, ⟨h.healthy.image.lower hun, h.healthy.frames⟩, h.agree, h.holds⟩

private theorem Filled.of_frames
    (h : Filled cfg L c d m page hi k) (hframes : FramesSound cfg allCounted L k')
    (hpte : k'.pte = k.pte) (hproc : k'.proc = k.proc)
    (hmem : ∀ n < userPages, hasFlag (k.pte d n) .P = true →
      k'.mem (pteAddr (k.pte d n)) = k.mem (pteAddr (k.pte d n))) :
    Filled cfg L c d m page hi k' := by
  have hspace : k'.space c = k.space c := by simp only [space, hpte, hproc]
  refine ⟨by rw [hproc]; exact h.pgdir, ⟨?_, hframes⟩, ?_, ?_⟩
  · rw [hspace]
    exact h.healthy.image
  · rw [hspace]
    exact h.agree
  · exact h.holds.of_mem hpte hmem (by rw [hproc]) (by rw [hproc])

private theorem Filled.setMem_idle (h : Filled cfg L c d m page hi k) (hd : L d) {fr : Frame}
    (hidle : (k.ledger allCounted L).Idle fr) (pg : Page) :
    Filled cfg L c d m page hi (k.setMem fr pg) := by
  have hframes : FramesSound cfg allCounted L (k.setMem fr pg) := h.healthy.frames.of_eq rfl rfl
  apply h.of_frames hframes rfl rfl
  intro n hn hP
  exact update_of_ne (page_not_idle hd hn hP hidle) _ _

private theorem Filled.giveBack (h : Filled cfg L c d m page hi k) (hd : L d) {fr : Frame}
    (hidle : (k.ledger allCounted L).Idle fr) (hvalid : ValidFrame cfg fr) :
    Filled cfg L c d m page hi (k.freed fr) := by
  apply h.of_frames (h.healthy.frames.giveBack hidle hvalid) rfl rfl
  intro n hn hP
  exact update_of_ne (page_not_idle hd hn hP hidle) _ _

private theorem Filled.take (h : Filled cfg L c d m page hi k) (hd : L d) {fr : Frame} {rest : List Frame}
    (hfree : k.freelist = fr :: rest) :
    Filled cfg L c d m page hi ({ k with freelist := rest }.setMem fr fun _ => 0) ∧
      (({ k with freelist := rest }.setMem fr fun _ => 0).ledger allCounted L).Idle fr := by
  obtain ⟨hframes, hidle⟩ := h.healthy.frames.take { k with freelist := rest } hfree rfl rfl
  have htaken : Filled cfg L c d m page hi { k with freelist := rest } :=
    h.of_frames hframes rfl rfl fun _ _ _ => rfl
  exact ⟨htaken.setMem_idle hd hidle _, hidle⟩

private theorem Filled.grown (h : Filled cfg L c d m page lo k) (hd : L d) (hle : lo ≤ hi)
    (hhi : hi ≤ userPages) (hzero : ∀ n, lo ≤ n → page n = fun _ => 0) {ok : Bool}
    (hgrow : Grown cfg c d isImportant lo hi k k' ok) :
    Filled cfg L c d m page (if ok then hi else lo) k' := by
  cases hgrow with
  | full hrun => exact h.placedRun hd hle hhi hzero hrun
  | @noFrame mid k₁ _ hm hm' hplaced hfree hdropped =>
    have h₁ := (h.placedRun hd hm (by omega) hzero hplaced).droppedRun hd hhi hdropped
    exact h₁.lower fun n hn hlt => dropped_unmapped hdropped n hn (by omega)
  | @noTable mid mem k₁ k₂ hm hm' hplaced hfree hnone hdropped hvalid =>
    obtain ⟨h₁, hidle⟩ := (h.placedRun hd hm (by omega) hzero hplaced).take hd hfree
    have hidle₂ := (h₁.healthy.droppedRun hd hhi hdropped).2.2 mem hidle
    have h₂ := (h₁.droppedRun hd hhi hdropped).giveBack hd hidle₂ hvalid
    exact h₂.lower fun n hn hlt => dropped_unmapped hdropped n hn (by omega)

private theorem Filled.setSz (h : Filled cfg L c d m page hi k) (sz : Nat) :
    Filled cfg L c d m page hi (k.setSz c sz) := by
  have hspace : (k.setSz c sz).space c = k.space c := by simp [Kernel.setSz, space]
  refine ⟨by simpa [Kernel.setSz] using h.pgdir, ⟨?_, h.healthy.frames.of_eq rfl rfl⟩, ?_, ?_⟩
  · rw [hspace]
    exact h.healthy.image
  · rw [hspace]
    exact h.agree
  · exact h.holds.of_mem rfl (fun _ _ _ => rfl) (by simp [Kernel.setSz]) (by simp [Kernel.setSz])

theorem Filled.resized {x : Int} {ok : Bool}
    (h : Filled cfg L c (k.proc c).pgdir m page (pages (k.proc c).sz) k) (hd : L (k.proc c).pgdir)
    (hsz : (k.proc c).sz < kernBase) (hzero : ∀ n, pages (k.proc c).sz ≤ n → page n = fun _ => 0)
    (hr : Resized cfg c x k k' ok) :
    Filled cfg L c (k.proc c).pgdir m page (pages (k'.proc c).sz) k' := by
  have hpages := pages_le_userPages (le_of_lt hsz)
  cases hr with
  | same => exact h
  | @grown newsz k₁ hm heq hle hnew hroom hg =>
    have h₁ := (h.grown hd (pages_mono hle) (pages_le_userPages (le_of_lt hnew)) hzero hg).setSz newsz
    simpa [Kernel.setSz] using h₁
  | @failed newsz _ hle hnew hg =>
    have hl := (h.healthy.grown hd (pages_mono hle) (pages_le_userPages (le_of_lt hnew)) hg).2
    rw [hl.sz]
    exact h.grown hd (pages_mono hle) (pages_le_userPages (le_of_lt hnew)) hzero hg
  | @shrunk newsz k₁ hlt hpos hrun =>
    have h₁ := ((h.droppedRun hd hpages hrun).lower fun n hn hlt' =>
      dropped_unmapped hrun n hn hlt').setSz newsz
    simpa [Kernel.setSz] using h₁
  | emptied hpos hrun =>
    have hl := (h.healthy.droppedRun hd hpages hrun).2.1
    rw [hl.sz]
    exact h.droppedRun hd hpages hrun

private theorem Filled.room (h : Filled cfg L c d m page hi k) (hd : L d) {i : Fin maxPyscPages}
    (hroom : RoomAt cfg c k i k₁) : Filled cfg L c d m page hi k₁ := by
  have hs := h.healthy.image
  refine ⟨(Local.of_room hs.sound hroom).pgdir.trans h.pgdir,
    ⟨hroom.space.image hs, (h.healthy.frames.room hs.sound hd hroom).1⟩,
    hroom.space.discAgree hs.sound h.agree, ?_⟩
  cases hroom with
  | free _ => exact h.holds
  | evicted _ hev =>
    exact h.holds.evicted h.healthy.frames hd h.pgdir hs.sound isNote_retrieveNote hev

private theorem Filled.countFault (h : Filled cfg L c d m page hi k) :
    Filled cfg L c d m page hi (k.countFault c) := by
  refine ⟨by simpa [Kernel.countFault] using h.pgdir, ⟨?_, h.healthy.frames.of_eq rfl rfl⟩, ?_,
    h.holds.countFault⟩
  · rw [countFault_space]
    exact h.healthy.image
  · rw [countFault_space]
    exact h.agree

private theorem Filled.fetched (h : Filled cfg L c d m page hi k) (hd : L d) (hn : n < userPages)
    (hPG : hasFlag (k.pte d n) .PG = true) {mem : Frame} (hidle : (k.ledger allCounted L).Idle mem)
    (hvalid : ValidFrame cfg mem) (hmatch : (k.space c).Matches n)
    (hf : Fetched cfg c n (some mem) k k' true) : Filled cfg L c d m page hi k' := by
  have hs := h.healthy.image
  have halign : ∀ r, some mem = some r → PageAligned r := by
    rintro r ⟨⟩
    exact hvalid.aligned
  have hfetch := hf.space halign h.pgdir
  have hmem : k.InHand cfg allCounted L (some mem) := ⟨hidle, hvalid⟩
  refine ⟨(Local.of_fetched h.pgdir hs.sound hf).pgdir.trans h.pgdir,
    ⟨hfetch.image hn hs hPG, h.healthy.frames.fetched h.pgdir hs hd hn hPG hmem hf⟩,
    hfetch.discAgree hn hs h.agree hPG hmatch rfl, ?_⟩
  have hP := (hs.sound.paged d n rfl hn hPG).1
  cases hf with
  | missing hroom htable habsent hindex =>
    obtain ⟨j, hj⟩ := Option.isSome_iff_exists.mp ((hroom.space.image hs).fence.index_isSome hn
      (by rw [hroom.space.pte_of_absent hs.sound hP]; exact hPG))
    exact absurd (hindex.symm.trans hj) (by simp)
  | @moved i k₁ j f count bytes fr pg b hroom htable habsent hindex hfile hread hpage =>
    have h₁ := h.room hd hroom
    have hs₁ := h₁.healthy.image
    have hPG₁ : hasFlag ((k₁.space c).pte d n) .PG = true := by
      rw [hroom.space.pte_of_absent hs.sound hP]
      exact hPG
    have hidle₁ := (h.healthy.frames.room hs.sound hd hroom).2 mem hidle
    have hzero : pteAddr (k₁.pte d n) = 0 := (hs₁.sound.paged d n rfl hn hPG₁).2
    have hpgdir := h₁.pgdir
    have hused := hmatch i (k₁.space c) j hroom.space hindex
    have hjm := hs₁.fence.index_lt hn hPG₁ hindex
    have hnames : Names ((k₁.proc c).pagesInDisc j) d n :=
      ⟨hs₁.fence.own j hjm hused, Space.discIndex_addr (s := k₁.space c) hindex⟩
    -- the whole slot lies in the file, so the read is not a short one
    have hslot := h₁.agree.stored j f hjm hused hfile
    have hcount : pgSize ≤ count ∧ ∀ x : Fin pgSize, bytes x = f.data (j * pgSize + x) := by
      unfold SwapFile.readi at hread
      split at hread
      · simp at hread
      · simp only [Option.some.injEq, Prod.mk.injEq] at hread
        obtain ⟨rfl, rfl⟩ := hread
        refine ⟨?_, fun _ => rfl⟩
        rw [Nat.mul_comm] at hslot
        omega
    obtain ⟨rfl, hbytes⟩ := hpage mem rfl hvalid.aligned (by rw [hpgdir]; exact hzero)
    have hpg : pg = page n := by
      funext x
      rw [hbytes x (lt_of_lt_of_le x.isLt hcount.1), hcount.2 x, Nat.mul_comm]
      exact h₁.holds.stored j n f hjm hused hnames hfile x
    have hpte : (({ k₁.pageIn c n (some fr) with buffer := b }.moveToRam c j i).setMem fr pg).pte =
        setEntry k₁.pte d n (pageInPte (k₁.pte d n) (some fr)) := by
      rw [← hpgdir]
      exact pageIn_pte _ htable
    constructor
    · intro n' hn' hP'
      rw [hpte] at hP' ⊢
      by_cases hne : n' = n
      · subst hne
        rw [setEntry_self, pteAddr_pageInPte _ halign hzero]
        simp [v2p, hpg]
      · rw [setEntry_of_ne fun _ => hne] at hP' ⊢
        have hother := page_not_idle hd hn' hP' hidle₁
        simp only [setMem_mem]
        rw [update_of_ne hother]
        exact h₁.holds.resident n' hn' hP'
    · intro j' n' g hj' hused' hnames' hg x
      have hproc : (({ k₁.pageIn c n (some fr) with buffer := b }.moveToRam c j i).setMem fr pg).proc c =
          { k₁.proc c with
            pagesInPhysicalMemory := update (k₁.proc c).pagesInPhysicalMemory i
              { (k₁.proc c).pagesInDisc j with timer := (k₁.proc c).timer }
            pagesInDisc := update (k₁.proc c).pagesInDisc j
              { (k₁.proc c).pagesInDisc j with isUsed := false }
            timer := Proc.tick (k₁.proc c).timer } := by
        simp [moveToRam, pageIn]
      rw [hproc] at hused' hnames' hg
      have hne : j' ≠ j := by
        rintro rfl
        simp at hused'
      simp only [update_of_ne hne] at hused' hnames'
      exact h₁.holds.stored j' n' g hj' hused' hnames' hg x

theorem Filled.serviced (h : Filled cfg L c d m page hi k) (hd : L d) (hn : n < userPages)
    (hPG : hasFlag (k.pte d n) .PG = true) (hfree : k.freelist ≠ [])
    (hmatch : (k.space c).Matches n) {mem : Option Frame} {k₀ : Kernel}
    (hready : PageReady k c mem k₀) (hf : Fetched cfg c n mem k₀ k' true) :
    Filled cfg L c d m page hi k' := by
  cases hready with
  | null hnil => exact absurd hnil hfree
  | @frame fr rest hcons =>
    have hvalid := h.healthy.frames.valid_free fr (by simp [hcons])
    obtain ⟨htaken, hidle⟩ := h.take hd hcons
    have hspace : (({ k with freelist := rest }.setMem fr fun _ => 0).countFault c).space c =
        k.space c := countFault_space
    exact htaken.countFault.fetched hd hn hPG hidle hvalid (by rwa [hspace]) hf

theorem Holds.store (h : Holds k c d m page) (hframes : FramesSound cfg allCounted L k) (hd : L d)
    (hs : (k.space c).Sound (· = d)) (ha : (k.space c).DiscAgree d m) (hn : n < userPages)
    (hP : hasFlag (k.pte d n) .P = true) (x : Fin pgSize) (b : Byte) :
    Holds (k.setMem (pteAddr (k.pte d n)) (update (k.mem (pteAddr (k.pte d n))) x b)) c d m
      (update page n (update (page n) x b)) where
  resident n' hn' hP' := by
    simp only [setMem_pte, setMem_mem] at hP' ⊢
    by_cases hne : n' = n
    · subst hne
      rw [update_self, update_self, h.resident n' hn' hP]
    · rw [update_of_ne hne, update_of_ne fun heq => hne (hframes.page_inj hd hn' hn hP' hP heq)]
      exact h.resident n' hn' hP'
  stored j n' f hj hused hnames hf := by
    have hne : n' ≠ n := by
      rintro rfl
      obtain ⟨v, hv, hnames', hPG⟩ := ha.names j hj hused
      obtain rfl := Space.page_ext (hnames.addr.symm.trans hnames'.addr)
      have hno := hs.not_paged rfl hv hP
      simp [hno] at hPG
    rw [update_of_ne hne]
    exact h.stored j n' f hj hused hnames hf

end Kernel

end OsSessional.Paging
