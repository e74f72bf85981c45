import OsSessional.Paging.Fork

/-!
# No operation panics

In a consistent kernel the pager's operations return: the frames they free are valid, the entries
they look for exist, and no page they map is mapped already.
-/

namespace OsSessional.Paging

open Function (update update_self update_of_ne)
open Outcome

namespace Kernel

variable {cfg : Config} {L : Frame → Prop} {k k' : Kernel} {c : Slot} {d : Frame}
variable {m n hi : Nat}

theorem kfree_returns {fr : Frame} (h : ValidFrame cfg fr) : Returns (k.kfree cfg fr) := by
  obtain ⟨h1, h2, h3⟩ := h
  unfold kfree
  rw [if_neg (by omega)]
  exact .ok _

private theorem ValidFrame.ne_zero {fr : Frame} (h : ValidFrame cfg fr) : fr ≠ 0 := by
  rintro rfl
  have hend := h.2.1
  have hpos := cfg.kernelEnd_pos
  simp at hend
  omega

private theorem FramesSound.valid_page
    (h : FramesSound cfg allCounted L k) (hd : L d) (hn : n < userPages)
    (hP : hasFlag (k.pte d n) .P = true) : ValidFrame cfg (pteAddr (k.pte d n)) :=
  h.valid_held (.page d n) _ (held_page hd hn hP id)

private theorem clearPagePhyMem_returns {va : Nat} {i : Fin maxPyscPages} {pa : Frame}
    (h : ValidFrame cfg pa) : Returns (k.clearPagePhyMem cfg c d va i pa) := by
  unfold clearPagePhyMem
  refine (kfree_returns h).bind fun k₁ _ => ?_
  simp only
  split
  · exact .pure _
  · exact .pure _

private theorem Healthy.evictPage_returns
    (h : Healthy cfg allCounted L c d m hi k) (hpgdir : (k.proc c).pgdir = d)
    (hd : L d) (note : PageData → PageData → PageData) : Returns (k.evictPage cfg note c) := by
  unfold evictPage
  cases hi : (k.proc c).getReplacementPageIndexPhyMem cfg with
  | none => exact .ok _
  | some i =>
    have hused := (k.proc c).getReplacementPageIndexPhyMem_used cfg hi
    obtain ⟨v, hv, haddr, hdir, hvpn, hP⟩ := h.image.sound.pageAt (i := i) hused
    simp only [space] at haddr hdir hvpn hP
    rw [hdir] at hP
    have hwalk : k.walkpgdir ((k.proc c).pagesInPhysicalMemory i).pageDirectory
        ((k.proc c).pagesInPhysicalMemory i).virtualAddress = some (k.pte d v) := by
      rw [walkpgdir_eq_some, hvpn, hdir]
      exact ⟨hasTable_of_hasFlag hP, rfl⟩
    have hvalid := h.frames.valid_page hd hv hP
    simp only [getReplacementPageAddressPhyMem, hwalk, Option.map_some]
    cases hj : (k.proc c).getAvailablePageIndexDisk with
    | none => exact .ok _
    | some j =>
      obtain ⟨f, hf, -⟩ := h.image.fence.file
      have hf' : (k.proc c).swapFile = some f := hf
      have huser : k.userPage (k.proc c).pgdir
          ((k.proc c).pagesInPhysicalMemory i).virtualAddress =
          some (k.mem (pteAddr (k.pte d v))) := by
        rw [userPage, hpgdir, hvpn, hP, if_pos rfl]
      have hwrite : Returns (k.writeToSwapFile c
          ((k.proc c).pagesInPhysicalMemory i).virtualAddress (pgSize * j)) := by
        simp only [writeToSwapFile, hf', huser]
        exact .ok _
      refine hwrite.bind fun r _ => ?_
      obtain ⟨k₁, ok⟩ := r
      cases ok with
      | false => exact .pure _
      | true =>
        simp only [if_true]
        exact (clearPagePhyMem_returns hvalid).bind fun _ _ => .pure _

private theorem Healthy.placePage_returns
    (h : Healthy cfg allCounted L c d m hi k) (hpgdir : (k.proc c).pgdir = d)
    (hd : L d) {a : Nat} {isImportant : Int} : Returns (k.placePage cfg c d a isImportant) := by
  have hcount : Healthy cfg allCounted L c d m hi (k.countFault c) :=
    ⟨by rw [countFault_space]; exact h.image, h.frames.of_eq rfl rfl⟩
  unfold placePage
  split
  · split
    · exact .ok _
    · refine Returns.bind ?_ fun r _ => ?_
      · exact (hcount.evictPage_returns (by simpa [countFault] using hpgdir) hd _).bind
          fun _ _ => .pure _
      · obtain ⟨k₁, ok⟩ := r
        cases ok with
        | false => exact .pure _
        | true => exact .pure _
  · exact .ok _

private theorem Healthy.deallocPage_returns
    (h : Healthy cfg allCounted L c d m hi k) (hd : L d) (hn : n < userPages) :
    Returns (k.deallocPage cfg c d (n * pgSize) (k.pte d n)) := by
  unfold deallocPage
  cases hP : hasFlag (k.pte d n) .P with
  | true =>
    have hvalid := h.frames.valid_page hd hn hP
    simp only [if_true]
    rw [if_neg hvalid.ne_zero]
    exact (kfree_returns hvalid).bind fun _ _ => .pure _
  | false =>
    simp only [Bool.false_eq_true, if_false]
    split
    · exact .ok _
    · exact .ok _

private theorem Healthy.deallocLoop_returns (hd : L d) {oldsz : Nat} (hsz : oldsz ≤ kernBase) :
    ∀ (fuel n : Nat) (k : Kernel), n ≤ userPages → Healthy cfg allCounted L c d m hi k →
      Returns (deallocLoop cfg c d oldsz fuel (n * pgSize) k) := by
  intro fuel
  induction fuel with
  | zero => exact fun n k _ _ => .ok k
  | succ fuel ih =>
    intro n k hn h
    simp only [deallocLoop]
    by_cases hlt : n * pgSize < oldsz
    · have huser : n < userPages := lt_of_lt_of_le (lt_pages.mpr hlt) (pages_le_userPages hsz)
      rw [if_pos hlt]
      cases hw : k.walkpgdir d (n * pgSize) with
      | none =>
        have hjump : pgAddr (pdx (n * pgSize) + 1) = (n / nptEntries + 1) * nptEntries * pgSize := by
          rw [← vpn_div, vpn_mul huser]
          simp only [pgAddr, nptEntries, pgSize]
          omega
        have hnext : (n / nptEntries + 1) * nptEntries ≤ userPages := by
          have hu : userPages = 0x80000 := by decide
          simp only [hu, nptEntries] at huser ⊢
          omega
        simp only [hjump]
        exact ih _ k hnext h
      | some pte =>
        obtain ⟨-, hpte⟩ := walkpgdir_eq_some.mp hw
        rw [vpn_mul huser] at hpte
        subst hpte
        refine (h.deallocPage_returns hd huser).bind fun k₁ h₁ => ?_
        rw [show n * pgSize + pgSize = (n + 1) * pgSize by rw [Nat.add_mul, Nat.one_mul]]
        exact ih (n + 1) k₁ (by omega) (h.dropped hd huser (deallocPage_ok huser h₁))
    · rw [if_neg hlt]
      exact .ok k

private theorem Healthy.deallocuvm_returns
    (h : Healthy cfg allCounted L c d m hi k) (hd : L d) {oldsz newsz : Nat}
    (hsz : oldsz ≤ kernBase) : Returns (k.deallocuvm cfg c d oldsz newsz) := by
  unfold deallocuvm
  split
  · exact .ok _
  · rw [pgRoundUp_eq (by omega)]
    refine (Healthy.deallocLoop_returns hd hsz _ _ k (pages_le_userPages (by omega)) h).bind
      fun _ _ => .pure _

private theorem mappages_returns {va : Nat} {pa : Frame} {perm : PTE}
    (h : hasFlag (k.pte d (vpn va)) .P = false) : Returns (k.mappages d va pa perm) := by
  unfold mappages
  cases hw : k.walkpgdirAlloc d va with
  | none => exact .ok none
  | some k₁ =>
    simp only [(walkpgdirAlloc_some hw).pte, h, Bool.false_eq_true, if_false]
    exact .ok _

private theorem Healthy.allocLoop_returns (hd : L d) {oldsz newsz : Nat} (hnew : newsz < kernBase)
    {isImportant : Int} :
    ∀ (fuel n : Nat) (k : Kernel), n ≤ userPages → (k.proc c).pgdir = d →
      Healthy cfg allCounted L c d m n k →
      Returns (allocLoop cfg c d oldsz newsz isImportant fuel (n * pgSize) k) := by
  intro fuel
  induction fuel with
  | zero => exact fun n k _ _ _ => .ok _
  | succ fuel ih =>
    intro n k hn hpgdir h
    simp only [allocLoop]
    by_cases hlt : n * pgSize < newsz
    · have huser : n < userPages :=
        lt_of_lt_of_le (lt_pages.mpr hlt) (pages_le_userPages (le_of_lt hnew))
      rw [if_pos hlt]
      cases hfree : k.freelist with
      | nil =>
        simp only [kalloc, hfree]
        exact (h.deallocuvm_returns hd (le_of_lt hnew)).bind fun _ _ => .pure _
      | cons mem rest =>
        simp only [kalloc, hfree]
        have htaken : Healthy cfg allCounted L c d m n ({ k with freelist := rest }.setMem mem fun _ => 0) :=
          ⟨h.image, (h.frames.take ({ k with freelist := rest }.setMem mem fun _ => 0) hfree rfl rfl).1⟩
        have hvalid := h.frames.valid_free mem (by simp [hfree])
        have habsent : hasFlag (k.pte d n) .P = false := (h.image.beyond n (le_refl _) huser).1
        have hmappages : Returns (({ k with freelist := rest }.setMem mem fun _ => 0).mappages d
            (n * pgSize) mem (pteW ||| pteU)) := by
          refine mappages_returns ?_
          rw [vpn_mul huser]
          exact habsent
        refine hmappages.bind fun r hr => ?_
        cases r with
        | none =>
          refine (htaken.deallocuvm_returns hd (le_of_lt hnew)).bind fun _ _ => ?_
          exact (kfree_returns hvalid).bind fun _ _ => .pure _
        | some k₁ =>
          obtain ⟨k₂, hready, -, hk₁⟩ := mappages_some hr
          rw [← vpn_div, vpn_mul huser] at hready
          rw [vpn_mul huser] at hk₁
          have hmap : Mapped k d n (pteW ||| pteU) (fun _ => 0) mem k₁ := by
            rw [hk₁]
            exact .intro hfree hready habsent
          have hmapped : Healthy cfg allCounted L c d m (n + 1) k₁ := by
            refine ⟨?_, h.frames.mapped hd huser (by decide) hmap⟩
            rw [hmap.space]
            exact (Space.Place.untracked (s := k.space c) habsent
              (mapPte_flags hvalid.aligned)).image huser h.image
          have hdir₁ : (k₁.proc c).pgdir = d := by rw [hmap.proc, hpgdir]
          simp only
          refine (hmapped.placePage_returns hdir₁ hd).bind fun k₃ hplace => ?_
          have hplaced := placePage_ok hmap hplace
          rw [show n * pgSize + pgSize = (n + 1) * pgSize by rw [Nat.add_mul, Nat.one_mul]]
          exact ih (n + 1) k₃ (by omega)
            ((Local.of_placed h.image.sound hplaced).pgdir.trans hpgdir) (h.placed hd huser hplaced)
    · rw [if_neg hlt]
      exact .ok _

theorem Consistent.allocuvm_returns (h : Consistent cfg allCounted k) (hc : k.Active c) (newsz : Nat)
    (isImportant : Int) :
    Returns (k.allocuvm cfg c (k.proc c).pgdir (k.proc c).sz newsz isImportant) := by
  obtain ⟨m, hh⟩ := h.healthy hc
  obtain ⟨hsz, -⟩ := h.image c hc
  unfold allocuvm
  split
  · exact .ok _
  · split
    · exact .ok _
    · split
      · exact .ok _
      · next hbig hle _ =>
        rw [pgRoundUp_eq (le_of_lt hsz)]
        exact Healthy.allocLoop_returns hc.live (by omega) _ _ k (pages_le_userPages (le_of_lt hsz))
          rfl hh

private theorem Consistent.growproc_returns
    (h : Consistent cfg allCounted k) (hc : k.Active c) (n : Int) :
    Returns (k.growproc cfg c n) := by
  obtain ⟨m, hh⟩ := h.healthy hc
  obtain ⟨hsz, -⟩ := h.image c hc
  have hend : ∀ (r : Kernel × Nat), Returns (if n ≠ 0 ∧ r.2 = 0 then pure (r.1, false)
      else pure (r.1.setProc c { r.1.proc c with sz := r.2 }, true) : Except Crash (Kernel × Bool)) := by
    intro r
    split
    · exact .pure _
    · exact .pure _
  simp only [Kernel.growproc]
  split
  · exact (h.allocuvm_returns hc _ 0).bind fun r _ => hend r
  · split
    · exact (hh.deallocuvm_returns hc.live (le_of_lt hsz)).bind fun r _ => hend r
    · exact (Returns.ok _).bind fun r _ => hend r

private theorem mapPagedIn_returns {mem : Option Frame} (hn : n < userPages)
    (htable : k.hasTable (k.proc c).pgdir n = true)
    (habsent : hasFlag (k.pte (k.proc c).pgdir n) .P = false) :
    Returns (k.mapPagedIn c (n * pgSize) mem) := by
  have hwalk : k.walkpgdir (k.proc c).pgdir (n * pgSize) = some (k.pte (k.proc c).pgdir n) := by
    rw [walkpgdir_eq_some, vpn_mul hn]
    exact ⟨htable, rfl⟩
  simp only [mapPagedIn, hwalk, habsent, Bool.false_eq_true, if_false]
  exact .ok _

private theorem readFromSwapFile_returns {j : Fin discPages} (h : ((k.proc c).swapFile).isSome = true) :
    Returns (k.readFromSwapFile c j) := by
  unfold readFromSwapFile
  cases hf : (k.proc c).swapFile with
  | none => simp [hf] at h
  | some f => exact .ok _

section Fetching

variable {fr : Frame}

private theorem Healthy.retrieveInto_returns
    (h : Healthy cfg allCounted L c d m hi k) (hpgdir : (k.proc c).pgdir = d)
    (hn : n < userPages) (hPG : hasFlag (k.pte d n) .PG = true) (halign : PageAligned fr)
    {i : Fin maxPyscPages} : Returns (k.retrieveInto c (n * pgSize) (some fr) i) := by
  have hP := (h.image.sound.paged d n rfl hn hPG).1
  obtain ⟨f, hf, -⟩ := h.image.fence.file
  unfold retrieveInto
  refine (mapPagedIn_returns hn (by rw [hpgdir]; exact hasTable_of_hasFlag hPG)
    (by rw [hpgdir]; exact hP)).bind fun k₁ hmap => ?_
  obtain ⟨htable, -, rfl⟩ := mapPagedIn_ok hn hmap
  have hfile : (k.proc c).swapFile = some f := hf
  simp only [pageIn_proc]
  cases hindex : (k.proc c).discIndex (n * pgSize) with
  | none => exact .pure _
  | some j =>
    refine (readFromSwapFile_returns (by simp [hfile])).bind fun r _ => ?_
    cases r with
    | none => exact .pure _
    | some r =>
      obtain ⟨count, bytes⟩ := r
      have hal : ∀ r, some fr = some r → PageAligned r := by
        rintro r ⟨⟩
        exact halign
      simp only [writeUserPage, vpn_mul hn, pageIn_pte _ htable, setEntry_self,
        hasFlag_pageInPte _ hal]
      exact .pure _

private theorem Healthy.retrieveSwapping_returns (h : Healthy cfg allCounted L c d m hi k)
    (hpgdir : (k.proc c).pgdir = d) (hd : L d) (hn : n < userPages)
    (hPG : hasFlag (k.pte d n) .PG = true) (hfull : (k.proc c).freeRamIndex = none) :
    Returns (k.retrieveSwapping cfg c (n * pgSize) (some fr)) := by
  have hP : hasFlag (k.pte d n) .P = false := (h.image.sound.paged d n rfl hn hPG).1
  unfold retrieveSwapping
  refine (h.evictPage_returns hpgdir hd _).bind fun r hevict => ?_
  obtain ⟨k₁, freed⟩ := r
  rcases evictPage_ok hevict with ⟨rfl, rfl⟩ | ⟨i, j, f, page, rfl, hev⟩
  · exact .pure _
  · have hroom : RoomAt cfg c k i k₁ := .evicted hfull hev
    have hdir₁ := (Local.of_room h.image.sound hroom).pgdir.trans hpgdir
    have hsame : k₁.pte d n = k.pte d n := hroom.space.pte_of_absent h.image.sound hP
    obtain ⟨f₁, hf₁, -⟩ := (hroom.space.image h.image).fence.file
    have hfile : (k₁.proc c).swapFile = some f₁ := hf₁
    simp only
    refine (mapPagedIn_returns hn (by rw [hdir₁]; exact hasTable_of_hasFlag (by rw [hsame, hPG]))
      (by rw [hdir₁, hsame, hP])).bind fun k₂ hmap => ?_
    obtain ⟨-, -, rfl⟩ := mapPagedIn_ok hn hmap
    simp only [pageIn_proc]
    cases hindex : (k₁.proc c).discIndex (n * pgSize) with
    | none => exact (Returns.ok _).bind fun _ _ => .pure _
    | some j' =>
      refine (readFromSwapFile_returns (by simp [hfile])).bind fun r _ => ?_
      cases r with
      | none => exact .pure _
      | some r => exact (Returns.ok _).bind fun _ _ => .pure _

theorem Healthy.retrievePage_returns (h : Healthy cfg allCounted L c d m hi k) (hpgdir : (k.proc c).pgdir = d)
    (hd : L d) {a : Nat} (ha : a < kernBase) (hPG : hasFlag (k.pte d (a / pgSize)) .PG = true)
    (hfree : k.freelist ≠ []) : Returns (k.retrievePage cfg c a) := by
  cases hcons : k.freelist with
  | nil => exact absurd hcons hfree
  | cons fr rest =>
    have hready : PageReady k c (some fr)
        (({ k with freelist := rest }.setMem fr fun _ => 0).countFault c) := .frame hcons
    have hvalid := h.frames.valid_free fr (by simp [hcons])
    have h₀ : Healthy cfg allCounted L c d m hi
        (({ k with freelist := rest }.setMem fr fun _ => 0).countFault c) :=
      ⟨by rw [hready.space]; exact h.image, (h.frames.take
        (({ k with freelist := rest }.setMem fr fun _ => 0).countFault c) hcons rfl rfl).1⟩
    have hdir₀ := (Local.of_pageReady (d := d) hready).pgdir.trans hpgdir
    have hn := page_lt_userPages ha
    simp only [retrievePage, pgRoundDown_eq, kalloc, hcons, memsetPage]
    refine (Returns.ok _).bind fun k₁ hk₁ => ?_
    obtain rfl := (Except.ok.inj hk₁).symm
    cases hslot : ((({ k with freelist := rest }.setMem fr fun _ => 0).countFault c).proc
        c).freeRamIndex with
    | some i => exact h₀.retrieveInto_returns hdir₀ hn hPG hvalid.aligned
    | none => exact h₀.retrieveSwapping_returns hdir₀ hd hn hPG hslot

private theorem exit_returns (hpid : 2 < (k.proc c).pid) : Returns (k.exit c) := by
  unfold exit
  rw [if_neg (by omega)]
  exact .ok _

private theorem Consistent.trap_returns (h : Consistent cfg allCounted k) (hc : k.Active c) {a : Nat}
    (ha : a < kernBase)
    (hfree : hasFlag (k.pte (k.proc c).pgdir (a / pgSize)) .PG = true → k.freelist ≠ []) :
    Returns (k.trap cfg c 3 a) := by
  obtain ⟨m, hh⟩ := h.healthy hc
  have hexit : ∀ k₁ : Kernel, (k₁.proc c).pid = (k.proc c).pid →
      Returns ((k₁.setProc c { k₁.proc c with killed := true }).exit c) := by
    intro k₁ hpid
    refine exit_returns ?_
    simpa [hpid] using hc.pid
  simp only [trap, true_and, checkPTForPage_eq, vpn_of_lt ha]
  split
  · next hPG =>
    refine (hh.retrievePage_returns rfl hc.live ha hPG (hfree hPG)).bind fun r hr => ?_
    obtain ⟨k₁, ok⟩ := r
    cases ok with
    | true => exact .pure _
    | false =>
      obtain ⟨mem, k₀, hready, hf⟩ := retrievePage_ok ha hr
      obtain ⟨-, hl⟩ := hh.fetched rfl hc.live (page_lt_userPages ha) hPG hready (hfree hPG) hf
      simpa using hexit k₁ hl.pid
  · refine (Returns.ok _).bind fun r hr => ?_
    obtain rfl := (Except.ok.inj hr).symm
    simpa using hexit k rfl

end Fetching

private theorem Consistent.updateAge_returns (h : Consistent cfg allCounted k) (hc : k.Active c)
    (i : Fin maxPyscPages) : Returns (updateAge c k i) := by
  simp only [updateAge]
  split
  · next hused =>
    obtain ⟨v, hv, haddr, hdir, hvpn, hP⟩ :=
      (h.sound c hc.inUse hc.pid).pageAt (i := i) hused
    simp only [space] at hdir hvpn hP
    have hwalk : k.walkpgdir ((k.proc c).pagesInPhysicalMemory i).pageDirectory
        ((k.proc c).pagesInPhysicalMemory i).virtualAddress =
        some (k.pte ((k.proc c).pagesInPhysicalMemory i).pageDirectory v) := by
      rw [walkpgdir_eq_some, hvpn]
      exact ⟨hasTable_of_hasFlag hP, rfl⟩
    rw [hwalk]
    simp only
    split
    · exact .ok _
    · exact .ok _
  · exact .ok _

theorem Aged.active (haged : Aged c k k') {c' : Slot} (hc : k.Active c') : k'.Active c' := by
  obtain ⟨-, hpid, -, hstate⟩ := haged.proc c'
  exact ⟨by rw [hpid]; exact hc.pid, by rw [hstate]; exact hc.unused,
    by rw [hstate]; exact hc.embryo, by rw [hstate]; exact hc.zombie⟩

theorem Consistent.age_returns (h : Consistent cfg allCounted k) (hc : k.Active c) :
    Returns (k.updateAgeForSingleProcess c) :=
  foldlM_returns (I := fun k => Consistent cfg allCounted k ∧ k.Active c)
    (fun _ i hs => hs.1.updateAge_returns hs.2 i) (fun _ _ _ hs hage =>
      ⟨hs.1.quiet (updateAge_ok hage).quiet, (updateAge_ok hage).active hs.2⟩) _ ⟨h, hc⟩

theorem Consistent.tick_returns (h : Consistent cfg allCounted k) : Returns k.updateAgeForAllProcess := by
  have hround : ∀ (k₁ : Kernel) (c : Slot), Consistent cfg allCounted k₁ ∧ k₁.Active c →
      ∀ k₂, k₁.updateAgeForSingleProcess c = .ok k₂ → Consistent cfg allCounted k₂ := by
    intro k₁ c hI k₂ hk₂
    exact (foldlM_keeps (I := fun k => Consistent cfg allCounted k ∧ k.Active c) (fun s i s' hs hage =>
      ⟨hs.1.quiet (updateAge_ok hage).quiet, (updateAge_ok hage).active hs.2⟩) _ hI hk₂).1
  refine foldlM_returns (I := Consistent cfg allCounted) ?_ ?_ _ h
  · intro k₁ c h₁
    split
    · next hcond =>
      obtain ⟨h1, h2, h3, h4⟩ := hcond
      exact h₁.age_returns ⟨h1, h2, h3, h4⟩
    · exact .ok _
  · intro k₁ c k₂ h₁ hk₂
    split at hk₂
    · next hcond =>
      obtain ⟨h1, h2, h3, h4⟩ := hcond
      exact hround k₁ c ⟨h₁, h1, h2, h3, h4⟩ k₂ hk₂
    · obtain rfl := Except.ok.inj hk₂
      exact h₁

theorem Consistent.perform_returns (h : Consistent cfg allCounted k) (hc : k.Active c) {op : Op}
    (huser : op.User) (hfree : (k.fetches c op).isSome → k.freelist ≠ []) :
    Returns (k.perform cfg c op) := by
  cases op with
  | load a walk =>
    simp only [perform]
    cases hacc : k.access c a false with
    | some fr => exact .ok _
    | none =>
      refine (h.trap_returns hc huser fun hPG => hfree ?_).bind fun _ _ => .pure _
      simp [fetches, hacc, vpn_of_lt huser, hPG]
  | store a b walk =>
    simp only [perform]
    cases hacc : k.access c a true with
    | some fr => exact .ok _
    | none =>
      refine (h.trap_returns hc huser fun hPG => hfree ?_).bind fun _ _ => .pure _
      simp [fetches, hacc, vpn_of_lt huser, hPG]
  | growproc n => exact (h.growproc_returns hc n).bind fun _ _ => .pure _
  | tick => exact h.tick_returns.bind fun _ _ => .pure _

end Kernel

end OsSessional.Paging
