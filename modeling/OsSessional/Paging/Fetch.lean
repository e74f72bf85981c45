import OsSessional.Paging.Grow

/-!
# What a page-in does

`retrievePage` takes a frame, makes a RAM slot available, marks the entry present and then moves
the matching disc entry. `PageReady`, `RoomAt` and `Fetched` say once what each part leaves
behind; `Faulted` is the whole user-mode page fault, and `Aged` one round of the timer's scan.
-/

namespace OsSessional.Paging

open Function (update)
open Outcome

theorem pgRoundDown_eq (a : Nat) : pgRoundDown a = a / pgSize * pgSize := rfl

theorem vpn_of_lt {a : Nat} (h : a < kernBase) : vpn a = a / pgSize := by
  have ha : a < 0x80000000 := h
  simp only [vpn, pgSize]
  omega

theorem page_lt_userPages {a : Nat} (h : a < kernBase) : a / pgSize < userPages := by
  have ha : a < 0x80000000 := h
  have hu : userPages = 0x80000 := by decide
  simp only [hu, pgSize]
  omega

namespace Kernel

variable {cfg : Config} {k k' k₁ : Kernel} {c : Slot} {d : Frame} {n : Nat}

theorem memsetPage_ok {mem : Option Frame} {page : Page} (h : k.memsetPage c mem page = .ok k') :
    ∃ fr pg, k' = k.setMem fr pg ∧ ∀ r, mem = some r → fr = r ∧ pg = page := by
  unfold memsetPage at h
  cases mem with
  | some r =>
    simp only [Except.ok.injEq] at h
    exact ⟨r, page, h.symm, by simp⟩
  | none =>
    simp only at h
    cases hw : k.writeUserPage (k.proc c).pgdir 0 pgSize (pageBytes page) with
    | none => simp [hw] at h
    | some k₁ =>
      simp only [hw, Except.ok.injEq] at h
      subst h
      simp only [writeUserPage] at hw
      split at hw
      · simp only [Option.some.injEq] at hw
        exact ⟨_, _, hw.symm, by simp⟩
      · simp at hw

/-- The first lines of `retrievePage`: a zeroed frame, or the null pointer when there is none. -/
inductive PageReady (k : Kernel) (c : Slot) : Option Frame → Kernel → Prop
  | frame {fr : Frame} {rest : List Frame} (hfree : k.freelist = fr :: rest) :
      PageReady k c (some fr) (({ k with freelist := rest }.setMem fr fun _ => 0).countFault c)
  | null {fr : Frame} {pg : Page} (hfree : k.freelist = []) :
      PageReady k c none ((k.setMem fr pg).countFault c)

/-- RAM slot `i` is available: it was free, or its page was just evicted. -/
inductive RoomAt (cfg : Config) (c : Slot) (k : Kernel) (i : Fin maxPyscPages) : Kernel → Prop
  | free (h : (k.proc c).freeRamIndex = some i) : RoomAt cfg c k i k
  | evicted {k₁ : Kernel} {j : Fin discPages} {f : SwapFile} {page : Page}
      (hfull : (k.proc c).freeRamIndex = none)
      (h : Evicted cfg retrieveNote k k₁ c i j f page) : RoomAt cfg c k i k₁

/-- The entry of page `n` marked present, with the frame at `mem`. -/
def pageIn (k : Kernel) (c : Slot) (n : Nat) (mem : Option Frame) : Kernel :=
  k.setPte (k.proc c).pgdir n (pageInPte (k.pte (k.proc c).pgdir n) mem)

/-- The rest of `retrievePage`. -/
inductive Fetched (cfg : Config) (c : Slot) (n : Nat) (mem : Option Frame) (k : Kernel) :
    Kernel → Bool → Prop
  | noVictim (hfull : (k.proc c).freeRamIndex = none)
      (h : k.evictPage cfg retrieveNote c = .ok (k, none)) : Fetched cfg c n mem k k false
  | missing {i : Fin maxPyscPages} {k₁ : Kernel} {fr : Frame} {pg : Page}
      (hroom : RoomAt cfg c k i k₁) (htable : k₁.hasTable (k₁.proc c).pgdir n = true)
      (habsent : hasFlag (k₁.pte (k₁.proc c).pgdir n) .P = false)
      (hindex : (k₁.proc c).discIndex (n * pgSize) = none) :
      Fetched cfg c n mem k ((k₁.pageIn c n mem).setMem fr pg) true
  | unread {i : Fin maxPyscPages} {k₁ : Kernel} {j : Fin discPages} {f : SwapFile}
      (hroom : RoomAt cfg c k i k₁) (htable : k₁.hasTable (k₁.proc c).pgdir n = true)
      (habsent : hasFlag (k₁.pte (k₁.proc c).pgdir n) .P = false)
      (hindex : (k₁.proc c).discIndex (n * pgSize) = some j)
      (hfile : (k₁.proc c).swapFile = some f) (hread : f.readi (j * pgSize) pgSize = none) :
      Fetched cfg c n mem k (k₁.pageIn c n mem) false
  | moved {i : Fin maxPyscPages} {k₁ : Kernel} {j : Fin discPages} {f : SwapFile} {count : Nat}
      {bytes : Nat → Byte} {fr : Frame} {pg b : Page}
      (hroom : RoomAt cfg c k i k₁) (htable : k₁.hasTable (k₁.proc c).pgdir n = true)
      (habsent : hasFlag (k₁.pte (k₁.proc c).pgdir n) .P = false)
      (hindex : (k₁.proc c).discIndex (n * pgSize) = some j)
      (hfile : (k₁.proc c).swapFile = some f)
      (hread : f.readi (j * pgSize) pgSize = some (count, bytes))
      (hpage : ∀ r, mem = some r → PageAligned r → pteAddr (k₁.pte (k₁.proc c).pgdir n) = 0 →
        fr = r ∧ ∀ x : Fin pgSize, x.val < count → pg x = bytes x) :
      Fetched cfg c n mem k
        (({ k₁.pageIn c n mem with buffer := b }.moveToRam c j i).setMem fr pg) true

theorem mapPagedIn_ok {mem : Option Frame} (hn : n < userPages)
    (h : k.mapPagedIn c (n * pgSize) mem = .ok k') :
    k.hasTable (k.proc c).pgdir n = true ∧ hasFlag (k.pte (k.proc c).pgdir n) .P = false ∧
      k' = k.pageIn c n mem := by
  unfold mapPagedIn at h
  cases hw : k.walkpgdir (k.proc c).pgdir (n * pgSize) with
  | none => simp [hw] at h
  | some pte =>
    obtain ⟨htable, hpte⟩ := walkpgdir_eq_some.mp hw
    rw [vpn_mul hn] at htable hpte
    simp only [hw, vpn_mul hn] at h
    cases hP : hasFlag pte .P with
    | true => simp [hP] at h
    | false =>
      simp only [hP, Bool.false_eq_true, if_false, Except.ok.injEq] at h
      subst hpte
      exact ⟨htable, hP, h.symm⟩

private theorem readFromSwapFile_ok {j : Fin discPages} {r : Option (Nat × (Nat → Byte))}
    (h : k.readFromSwapFile c j = .ok r) :
    ∃ f, (k.proc c).swapFile = some f ∧ f.readi (j * pgSize) pgSize = r := by
  unfold readFromSwapFile at h
  cases hf : (k.proc c).swapFile with
  | none => simp [hf] at h
  | some f => exact ⟨f, rfl, by simpa [hf] using h⟩

@[simp] theorem pageIn_proc {mem : Option Frame} : (k.pageIn c n mem).proc = k.proc := rfl
@[simp] theorem pageIn_mem {mem : Option Frame} : (k.pageIn c n mem).mem = k.mem := rfl
@[simp] theorem pageIn_freelist {mem : Option Frame} :
    (k.pageIn c n mem).freelist = k.freelist := rfl

theorem pageIn_pte (mem : Option Frame) (h : k.hasTable (k.proc c).pgdir n = true) :
    (k.pageIn c n mem).pte = setEntry k.pte (k.proc c).pgdir n
      (pageInPte (k.pte (k.proc c).pgdir n) mem) :=
  setPte_pte_eq h

theorem setMem_self {fr : Frame} : k.setMem fr (k.mem fr) = k := by
  simp [setMem]

theorem retrieveInto_ok {mem : Option Frame} {i : Fin maxPyscPages} {ok : Bool}
    (hn : n < userPages) (hfree : (k.proc c).freeRamIndex = some i)
    (h : k.retrieveInto c (n * pgSize) mem i = .ok (k', ok)) : Fetched cfg c n mem k k' ok := by
  simp only [retrieveInto, bind_eq_ok] at h
  obtain ⟨k₁, hmap, h⟩ := h
  obtain ⟨htable, habsent, rfl⟩ := mapPagedIn_ok hn hmap
  simp only [pageIn_proc] at h
  cases hindex : (k.proc c).discIndex (n * pgSize) with
  | none =>
    simp only [hindex, pure_eq_ok, Prod.mk.injEq] at h
    obtain ⟨rfl, rfl⟩ := h
    have hmissing : Fetched cfg c n mem k
        ((k.pageIn c n mem).setMem 0 ((k.pageIn c n mem).mem 0)) true :=
      .missing (.free hfree) htable habsent hindex
    rwa [setMem_self] at hmissing
  | some j =>
    simp only [hindex, bind_eq_ok] at h
    obtain ⟨r, hread, h⟩ := h
    obtain ⟨f, hfile, hread⟩ := readFromSwapFile_ok hread
    rw [pageIn_proc] at hfile
    cases r with
    | none =>
      simp only [pure_eq_ok, Prod.mk.injEq] at h
      obtain ⟨rfl, rfl⟩ := h
      exact .unread (.free hfree) htable habsent hindex hfile hread
    | some r =>
      obtain ⟨count, bytes⟩ := r
      simp only [writeUserPage, vpn_mul hn] at h
      cases hwrite : hasFlag ((k.pageIn c n mem).pte (k.proc c).pgdir n) .P &&
          hasFlag ((k.pageIn c n mem).pte (k.proc c).pgdir n) .W with
      | false => simp [hwrite] at h
      | true =>
        simp only [hwrite, if_true, pure_eq_ok, Prod.mk.injEq] at h
        obtain ⟨rfl, rfl⟩ := h
        refine .moved (b := k.buffer) (.free hfree) htable habsent hindex hfile hread ?_
        intro r hr halign haddr
        subst hr
        rw [pageIn_pte _ htable, setEntry_self, pteAddr_pageInPte _ (by simpa using halign) haddr]
        refine ⟨rfl, ?_⟩
        intro b hb
        simp [hb]

theorem retrieveSwapping_ok {mem : Option Frame} {ok : Bool} (hn : n < userPages)
    (hfull : (k.proc c).freeRamIndex = none)
    (h : k.retrieveSwapping cfg c (n * pgSize) mem = .ok (k', ok)) :
    Fetched cfg c n mem k k' ok := by
  simp only [retrieveSwapping, bind_eq_ok] at h
  obtain ⟨⟨k₁, r⟩, hevict, h⟩ := h
  rcases evictPage_ok hevict with ⟨rfl, rfl⟩ | ⟨i, j₀, f₀, page, rfl, hev⟩
  · obtain ⟨rfl, rfl⟩ : k₁ = k' ∧ false = ok := by simpa using h
    exact .noVictim hfull hevict
  · simp only [bind_eq_ok] at h
    obtain ⟨k₂, hmap, h⟩ := h
    obtain ⟨htable, habsent, rfl⟩ := mapPagedIn_ok hn hmap
    have hroom : RoomAt cfg c k i k₁ := .evicted hfull hev
    simp only [pageIn_proc] at h
    cases hindex : (k₁.proc c).discIndex (n * pgSize) with
    | none =>
      simp only [hindex, bind_eq_ok] at h
      obtain ⟨k₃, hset, h⟩ := h
      obtain ⟨rfl, rfl⟩ : k₃ = k' ∧ true = ok := by simpa using h
      obtain ⟨fr, pg, rfl, -⟩ := memsetPage_ok hset
      exact .missing hroom htable habsent hindex
    | some j =>
      simp only [hindex, bind_eq_ok] at h
      obtain ⟨r, hread, h⟩ := h
      obtain ⟨f, hfile, hread⟩ := readFromSwapFile_ok hread
      rw [pageIn_proc] at hfile
      cases r with
      | none =>
        obtain ⟨rfl, rfl⟩ : k₁.pageIn c n mem = k' ∧ false = ok := by simpa using h
        exact .unread hroom htable habsent hindex hfile hread
      | some r =>
        obtain ⟨count, bytes⟩ := r
        simp only [bind_eq_ok] at h
        obtain ⟨k₃, hset, h⟩ := h
        obtain ⟨rfl, rfl⟩ : k₃ = k' ∧ true = ok := by simpa using h
        obtain ⟨fr, pg, rfl, hpg⟩ := memsetPage_ok hset
        refine .moved hroom htable habsent hindex hfile hread ?_
        intro r hr _ _
        obtain ⟨rfl, rfl⟩ := hpg r hr
        refine ⟨rfl, ?_⟩
        intro b hb
        simp [moveToRam, hb]

theorem pageReady_of_memset
    (h : k.kalloc.2.memsetPage c k.kalloc.1 (fun _ => 0) = .ok k₁) :
    PageReady k c k.kalloc.1 (k₁.countFault c) := by
  obtain ⟨fr, pg, rfl, hpg⟩ := memsetPage_ok h
  cases hfree : k.freelist with
  | nil => simpa [kalloc, hfree] using PageReady.null hfree
  | cons fr' rest =>
    obtain ⟨rfl, rfl⟩ := hpg fr' (by simp [kalloc, hfree])
    simpa [kalloc, hfree] using PageReady.frame hfree

theorem retrievePage_ok {cr2 : Nat} {ok : Bool} (hcr2 : cr2 < kernBase)
    (h : k.retrievePage cfg c cr2 = .ok (k', ok)) :
    ∃ mem k₀, PageReady k c mem k₀ ∧ Fetched cfg c (cr2 / pgSize) mem k₀ k' ok := by
  have hn := page_lt_userPages hcr2
  simp only [retrievePage, pgRoundDown_eq, bind_eq_ok] at h
  obtain ⟨k₁, hset, h⟩ := h
  refine ⟨_, _, pageReady_of_memset hset, ?_⟩
  cases hfree : ((k₁.countFault c).proc c).freeRamIndex with
  | some i =>
    simp only [hfree] at h
    exact retrieveInto_ok hn hfree h
  | none =>
    simp only [hfree] at h
    exact retrieveSwapping_ok hn hfree h

/-- The process an exit leaves: killed, without a swap file if it had one, both tables unused. -/
def exited (p : Proc) : Proc :=
  { ({ p with swapFile := if p.pid > 2 then none else p.swapFile } : Proc).clearMetaData with
    state := .ZOMBIE }

theorem exit_ok (h : k.exit c = .ok k') : k' = k.setProc c (exited (k.proc c)) := by
  unfold exit at h
  split at h
  · simp at h
  · simp only [Except.ok.injEq] at h
    subst h
    split
    · next hpid => simp [removeSwapFile, setSwapFile, exited, hpid]
    · next hpid => simp [exited, hpid]

/-- What a user-mode page fault at page `n` does. -/
inductive Faulted (cfg : Config) (c : Slot) (n : Nat) (k : Kernel) : Kernel → Prop
  | serviced {mem : Option Frame} {k₀ k' : Kernel}
      (hPG : hasFlag (k.pte (k.proc c).pgdir n) .PG = true) (hready : PageReady k c mem k₀)
      (h : Fetched cfg c n mem k₀ k' true) : Faulted cfg c n k k'
  | notPaged (hPG : hasFlag (k.pte (k.proc c).pgdir n) .PG = false) :
      Faulted cfg c n k (k.setProc c (exited { k.proc c with killed := true }))
  | refused {mem : Option Frame} {k₀ k₁ : Kernel}
      (hPG : hasFlag (k.pte (k.proc c).pgdir n) .PG = true) (hready : PageReady k c mem k₀)
      (h : Fetched cfg c n mem k₀ k₁ false) :
      Faulted cfg c n k (k₁.setProc c (exited { k₁.proc c with killed := true }))

theorem checkPTForPage_eq {va : Nat} :
    k.checkPTForPage d va = hasFlag (k.pte d (vpn va)) .PG := by
  unfold checkPTForPage
  cases hw : k.walkpgdir d va with
  | none => rw [pte_of_not_hasTable (walkpgdir_eq_none.mp hw)]; simp
  | some pte => rw [(walkpgdir_eq_some.mp hw).2]

theorem trap_ok {a : Nat} (ha : a < kernBase) (h : k.trap cfg c 3 a = .ok k') :
    Faulted cfg c (a / pgSize) k k' := by
  simp only [trap, true_and, checkPTForPage_eq, vpn_of_lt ha] at h
  split at h
  · next hPG =>
    obtain ⟨⟨k₁, ok⟩, hfetch, h⟩ := bind_eq_ok.mp h
    obtain ⟨mem, k₀, hready, hfetched⟩ := retrievePage_ok ha hfetch
    cases ok with
    | true =>
      obtain rfl : k₁ = k' := by simpa using h
      exact .serviced hPG hready hfetched
    | false =>
      have hexit := exit_ok (by simpa using h)
      simp only [setProc_proc_self, setProc_setProc] at hexit
      subst hexit
      exact .refused hPG hready hfetched
  · next hPG =>
    obtain ⟨⟨k₁, s⟩, hk, h⟩ := bind_eq_ok.mp h
    obtain ⟨rfl, rfl⟩ : k = k₁ ∧ false = s := by simpa using hk
    have hexit := exit_ok (by simpa using h)
    simp only [setProc_proc_self, setProc_setProc] at hexit
    subst hexit
    exact .notPaged (by simpa using hPG)

/-- One round of `updateAgeForSingleProcess`: nothing, or the accessed bit of a tracked page is
moved into its age. -/
inductive Aged (c : Slot) (k : Kernel) : Kernel → Prop
  | same : Aged c k k
  | shifted {i : Fin maxPyscPages} (hused : ((k.proc c).pagesInPhysicalMemory i).isUsed = true)
      (htable : k.hasTable ((k.proc c).pagesInPhysicalMemory i).pageDirectory
        (vpn ((k.proc c).pagesInPhysicalMemory i).virtualAddress) = true) :
      Aged c k
        ((k.setPte ((k.proc c).pagesInPhysicalMemory i).pageDirectory
          (vpn ((k.proc c).pagesInPhysicalMemory i).virtualAddress)
          (k.pte ((k.proc c).pagesInPhysicalMemory i).pageDirectory
            (vpn ((k.proc c).pagesInPhysicalMemory i).virtualAddress) &&& ~~~pteA)).setRam c i
          { (k.proc c).pagesInPhysicalMemory i with
            ageCounter := (((k.proc c).pagesInPhysicalMemory i).ageCounter >>> 1) ||| 0x80000000 })

theorem updateAge_ok {i : Fin maxPyscPages} (h : updateAge c k i = .ok k') : Aged c k k' := by
  simp only [updateAge] at h
  split at h
  · next hused =>
    cases hw : k.walkpgdir ((k.proc c).pagesInPhysicalMemory i).pageDirectory
        ((k.proc c).pagesInPhysicalMemory i).virtualAddress with
    | none => simp [hw] at h
    | some pte =>
      obtain ⟨htable, rfl⟩ := walkpgdir_eq_some.mp hw
      simp only [hw] at h
      split at h
      · simp only [Except.ok.injEq] at h
        subst h
        exact .shifted hused htable
      · simp only [Except.ok.injEq] at h
        subst h
        exact .same
  · simp only [Except.ok.injEq] at h
    subst h
    exact .same

/-- What every round of the scan keeps, the whole timer scan keeps. -/
theorem updateAgeForAllProcess_keeps {I : Kernel → Prop}
    (hstep : ∀ (c : Slot) (k k' : Kernel), (k.proc c).pid > 2 → (k.proc c).state ≠ .UNUSED →
      (k.proc c).state ≠ .EMBRYO → (k.proc c).state ≠ .ZOMBIE → I k → Aged c k k' → I k')
    (hI : I k) (h : k.updateAgeForAllProcess = .ok k') : I k' := by
  refine foldlM_keeps ?_ _ hI h
  intro k c k' hI h
  split at h
  · next hcond =>
    obtain ⟨hpid, hunused, hembryo, hzombie⟩ := hcond
    have hall : ∀ k₁, (I k₁ ∧ (k₁.proc c).pid = (k.proc c).pid ∧
        (k₁.proc c).state = (k.proc c).state) → ∀ i k₂, updateAge c k₁ i = .ok k₂ →
        (I k₂ ∧ (k₂.proc c).pid = (k.proc c).pid ∧ (k₂.proc c).state = (k.proc c).state) := by
      rintro k₁ ⟨hI₁, hp, hs⟩ i k₂ hage
      have haged := updateAge_ok hage
      refine ⟨hstep c k₁ k₂ (by omega) (by rwa [hs]) (by rwa [hs]) (by rwa [hs]) hI₁ haged, ?_⟩
      cases haged with
      | same => exact ⟨hp, hs⟩
      | shifted _ _ => simpa [setRam] using ⟨hp, hs⟩
    exact (foldlM_keeps (fun k₁ i k₂ hI₁ h₁ => hall k₁ hI₁ i k₂ h₁) _ ⟨hI, rfl, rfl⟩ h).1
  · simp only [Except.ok.injEq] at h
    subst h
    exact hI

end Kernel

end OsSessional.Paging
