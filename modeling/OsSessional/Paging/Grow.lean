import OsSessional.Lib.Range
import OsSessional.Paging.Evict

/-!
# What growing and shrinking do

The loops of `allocuvm` and `deallocuvm` as counted loops over page numbers. `Mapped`, `Placed`
and `Dropped` say once what one round does to the kernel; every invariant is kept round by round
from these.
-/

namespace OsSessional.Paging

open Function (update)
open Outcome

/-- Number of pages an address space of `sz` bytes covers. -/
def pages (sz : Nat) : Nat := (sz + pgSize - 1) / pgSize

theorem pgRoundUp_eq {sz : Nat} (h : sz ≤ kernBase) : pgRoundUp sz = pages sz * pgSize := by
  have hsz : sz ≤ 0x80000000 := h
  simp only [pgRoundUp, pages, pgSize]
  rw [Nat.mod_eq_of_lt (by omega)]

theorem lt_pages {n : Nat} {sz : Nat} : n < pages sz ↔ n * pgSize < sz := by
  simp only [pages, pgSize]
  omega

theorem pages_le_userPages {sz : Nat} (h : sz ≤ kernBase) : pages sz ≤ userPages := by
  have hsz : sz ≤ 0x80000000 := h
  have hu : userPages = 0x80000 := by decide
  simp only [hu, pages, pgSize]
  omega

theorem pages_mono {sz sz' : Nat} (h : sz ≤ sz') : pages sz ≤ pages sz' := by
  simp only [pages, pgSize]
  omega

/-- The test `allocuvm` makes before its loop: a slot is free in one of the tables. -/
def Proc.hasRoom (p : Proc) : Bool := p.spaceAvialableInMemory || p.spaceAvialableInDisk

namespace Kernel

/-- The size `growproc(x)` asks for: `sz + x` in an `uint`. -/
def newSize (k : Kernel) (c : Slot) (x : Int) : Nat := (((k.proc c).sz + x) % 2 ^ 32).toNat

variable {cfg : Config} {k k' k₁ : Kernel} {c : Slot} {d : Frame} {n : Nat}

section Tables

/-- A new zeroed page table in frame `r` behind directory entry `i`. -/
def addTable (k : Kernel) (d : Frame) (i : Nat) (r : Frame) (rest : List Frame) : Kernel :=
  { k with
    freelist := rest
    dirs := update k.dirs d
      { pde := update (k.dirs d).pde i (some r)
        pte := fun n => if n / nptEntries = i then 0 else (k.dirs d).pte n } }

/-- What `walkpgdir(pgdir, va, 1)` does when it succeeds. -/
inductive TableReady (k : Kernel) (d : Frame) (i : Nat) : Kernel → Prop
  | there (h : ((k.dirs d).pde i).isSome = true) : TableReady k d i k
  | added {r : Frame} {rest : List Frame} (hfree : k.freelist = r :: rest)
      (hnone : (k.dirs d).pde i = none) : TableReady k d i (k.addTable d i r rest)

theorem walkpgdirAlloc_some {va : Nat} (h : k.walkpgdirAlloc d va = some k') :
    TableReady k d (pdx va) k' := by
  unfold walkpgdirAlloc at h
  by_cases ht : ((k.dirs d).pde (pdx va)).isSome = true
  · obtain rfl : k = k' := by simpa [ht] using h
    exact .there ht
  · simp only [ht, if_false, Bool.false_eq_true] at h
    cases hk : k.kalloc with
    | mk r k₁ =>
      cases r with
      | none => simp [hk] at h
      | some r =>
        obtain ⟨rest, hfree, rfl⟩ := kalloc_some hk
        simp only [hk, Option.some.injEq] at h
        subst h
        exact .added hfree (by simpa using ht)

theorem walkpgdirAlloc_none {va : Nat} (h : k.walkpgdirAlloc d va = none) :
    k.freelist = [] ∧ k.hasTable d (vpn va) = false := by
  unfold walkpgdirAlloc at h
  unfold hasTable
  rw [vpn_div]
  by_cases ht : ((k.dirs d).pde (pdx va)).isSome = true
  · simp [ht] at h
  · cases hfree : k.freelist with
    | nil => exact ⟨rfl, by simpa using ht⟩
    | cons r rest => simp [ht, kalloc, hfree] at h

namespace TableReady

variable {i : Nat}

theorem proc (h : TableReady k d i k') : k'.proc = k.proc := by cases h <;> rfl
theorem mem (h : TableReady k d i k') : k'.mem = k.mem := by cases h <;> rfl
theorem nextpid (h : TableReady k d i k') : k'.nextpid = k.nextpid := by cases h <;> rfl

theorem free_subset (h : TableReady k d i k') :
    ∀ fr ∈ k'.freelist, fr ∈ k.freelist := by
  cases h with
  | there _ => exact fun _ hfr => hfr
  | added hfree _ =>
    intro fr hfr
    rw [hfree]
    exact List.mem_cons_of_mem _ hfr

/-- A new page table has no entries, as a missing one. -/
theorem pte (h : TableReady k d i k') : k'.pte = k.pte := by
  cases h with
  | there h => rfl
  | added hfree hnone =>
    funext d' n
    by_cases hd : d' = d
    · subst hd
      by_cases hn : n / nptEntries = i
      · simp [Kernel.pte, addTable, PageDir.entry, hn, hnone]
      · simp [Kernel.pte, addTable, PageDir.entry, hn]
    · simp [Kernel.pte, addTable, hd]

theorem hasTable (h : TableReady k d i k') (hn : n / nptEntries = i) : k'.hasTable d n = true := by
  cases h with
  | there h => rw [Kernel.hasTable, hn, h]
  | added hfree hnone => simp [Kernel.hasTable, addTable, hn]

end TableReady

end Tables

section Mapping

/-- A frame from the free list, filled with `page`, was mapped at page `n` of `d`. -/
inductive Mapped (k : Kernel) (d : Frame) (n : Nat) (perm : PTE) (page : Page) :
    Frame → Kernel → Prop
  | intro {mem : Frame} {rest : List Frame} {k₁ : Kernel} (hfree : k.freelist = mem :: rest)
      (htable : TableReady ({ k with freelist := rest }.setMem mem page) d (n / nptEntries) k₁)
      (habsent : hasFlag (k.pte d n) .P = false) :
      Mapped k d n perm page mem (k₁.setPte d n (mapPte mem perm))

theorem mappages_some {va : Nat} {pa : Frame} {perm : PTE}
    (h : k.mappages d va pa perm = .ok (some k')) :
    ∃ k₁, TableReady k d (pdx va) k₁ ∧ hasFlag (k.pte d (vpn va)) .P = false ∧
      k' = k₁.setPte d (vpn va) (mapPte pa perm) := by
  unfold mappages at h
  cases hw : k.walkpgdirAlloc d va with
  | none => simp [hw] at h
  | some k₁ =>
    have hready := walkpgdirAlloc_some hw
    simp only [hw, hready.pte] at h
    cases hP : hasFlag (k.pte d (vpn va)) .P with
    | true => simp [hP] at h
    | false =>
      simp only [hP, Bool.false_eq_true, if_false, Except.ok.injEq, Option.some.injEq] at h
      exact ⟨k₁, hready, rfl, h.symm⟩

theorem mappages_none {va : Nat} {pa : Frame} {perm : PTE}
    (h : k.mappages d va pa perm = .ok none) :
    k.freelist = [] ∧ k.hasTable d (vpn va) = false := by
  unfold mappages at h
  cases hw : k.walkpgdirAlloc d va with
  | none => exact walkpgdirAlloc_none hw
  | some k₁ =>
    simp only [hw] at h
    split at h <;> simp at h

namespace Mapped

variable {perm : PTE} {page : Page} {mem : Frame}

theorem proc (h : Mapped k d n perm page mem k') : k'.proc = k.proc := by
  obtain ⟨_, htable, _⟩ := h
  exact htable.proc

theorem mem_eq (h : Mapped k d n perm page mem k') : k'.mem = update k.mem mem page := by
  obtain ⟨_, htable, _⟩ := h
  exact htable.mem

theorem pte (h : Mapped k d n perm page mem k') :
    k'.pte = setEntry k.pte d n (mapPte mem perm) := by
  obtain ⟨_, htable, _⟩ := h
  rw [setPte_pte_eq (htable.hasTable rfl), htable.pte]
  rfl

theorem absent (h : Mapped k d n perm page mem k') : hasFlag (k.pte d n) .P = false := by
  obtain ⟨_, _, habsent⟩ := h
  exact habsent

/-- Mapping only takes frames. -/
theorem free_subset (h : Mapped k d n perm page mem k') : ∀ fr ∈ k'.freelist, fr ∈ k.freelist := by
  cases h with
  | intro hfree htable habsent =>
    intro fr hfr
    rw [hfree]
    exact List.mem_cons_of_mem _ (htable.free_subset fr hfr)

theorem free (h : Mapped k d n perm page mem k') : ∃ rest, k.freelist = mem :: rest := by
  obtain ⟨hfree, _, _⟩ := h
  exact ⟨_, hfree⟩

end Mapped

end Mapping

section Dropping

/-- One round of `deallocuvm` at page `n`. -/
inductive Dropped (cfg : Config) (c : Slot) (d : Frame) (n : Nat) (k : Kernel) : Kernel → Prop
  | present (hP : hasFlag (k.pte d n) .P = true) (hvalid : ValidFrame cfg (pteAddr (k.pte d n))) :
      Dropped cfg c d n k
        (((k.freed (pteAddr (k.pte d n))).setProc c
          ((k.proc c).removePhysicalPageMetaData d (n * pgSize))).setPte d n 0)
  | paged (hP : hasFlag (k.pte d n) .P = false) (hPG : hasFlag (k.pte d n) .PG = true) :
      Dropped cfg c d n k
        ((k.setProc c ((k.proc c).removeDiscMetaData d (n * pgSize))).setPte d n 0)
  | unmapped (hP : hasFlag (k.pte d n) .P = false) (hPG : hasFlag (k.pte d n) .PG = false) :
      Dropped cfg c d n k k

theorem deallocPage_ok (hn : n < userPages)
    (h : k.deallocPage cfg c d (n * pgSize) (k.pte d n) = .ok k') : Dropped cfg c d n k k' := by
  unfold deallocPage at h
  rw [vpn_mul hn] at h
  cases hP : hasFlag (k.pte d n) .P with
  | true =>
    simp only [hP, if_true] at h
    split at h
    · simp at h
    · obtain ⟨k₁, hfree, h⟩ := bind_eq_ok.mp h
      obtain ⟨hvalid, rfl⟩ := kfree_ok hfree
      simp only [pure_eq_ok] at h
      subst h
      exact .present hP hvalid
  | false =>
    cases hPG : hasFlag (k.pte d n) .PG with
    | true =>
      simp only [hP, hPG, if_true, if_false, Bool.false_eq_true, Except.ok.injEq] at h
      subst h
      exact .paged hP hPG
    | false =>
      simp only [hP, hPG, if_false, Bool.false_eq_true, Except.ok.injEq] at h
      subst h
      exact .unmapped hP hPG

private theorem dropped_skip (h : k.hasTable d n = false) {m : Nat} (hm : m / nptEntries = n / nptEntries) :
    Dropped cfg c d m k k := by
  have hzero : k.pte d m = 0 := pte_of_not_hasTable (by rw [hasTable, hm]; exact h)
  exact .unmapped (by simp [hzero]) (by simp [hzero])

private theorem deallocLoop_ok {oldsz : Nat} (hsz : oldsz ≤ kernBase) :
    ∀ (fuel n : Nat) (k k' : Kernel), pages oldsz ≤ n + fuel → n ≤ userPages →
      deallocLoop cfg c d oldsz fuel (n * pgSize) k = .ok k' →
      RangeRun (Dropped cfg c d) (pages oldsz) n k k' := by
  intro fuel
  induction fuel with
  | zero =>
    intro n k k' hfuel _ h
    obtain rfl : k = k' := by simpa [deallocLoop] using h
    exact .done (by omega)
  | succ fuel ih =>
    intro n k k' hfuel hn h
    simp only [deallocLoop] at h
    by_cases hlt : n * pgSize < oldsz
    · have hpage : n < pages oldsz := lt_pages.mpr hlt
      have huser : n < userPages := lt_of_lt_of_le hpage (pages_le_userPages hsz)
      rw [if_pos hlt] at h
      cases hw : k.walkpgdir d (n * pgSize) with
      | none =>
        have htable := walkpgdir_eq_none.mp hw
        rw [vpn_mul huser] at htable
        -- the jump lands on the first page of the next table
        have hjump : pgAddr (pdx (n * pgSize) + 1) = (n / nptEntries + 1) * nptEntries * pgSize := by
          rw [← vpn_div, vpn_mul huser]
          simp only [pgAddr, nptEntries, pgSize]
          omega
        simp only [hw, hjump] at h
        have hnext : (n / nptEntries + 1) * nptEntries ≤ userPages := by
          have hu : userPages = 0x80000 := by decide
          simp only [hu, nptEntries] at huser ⊢
          omega
        have hbeyond : n < (n / nptEntries + 1) * nptEntries := by
          simp only [nptEntries]; omega
        have hskip : ∀ m, n ≤ m → m < (n / nptEntries + 1) * nptEntries →
            Dropped cfg c d m k k := by
          intro m hnm hm
          refine dropped_skip htable ?_
          simp only [nptEntries] at hm ⊢
          omega
        have hrest := ih _ k k' (by omega) hnext h
        by_cases hle : (n / nptEntries + 1) * nptEntries ≤ pages oldsz
        · exact hrest.skip hskip (by omega) hle
        · cases hrest with
          | next hlt' => omega
          | done hdone =>
            exact RangeRun.skip (fun m h1 h2 => hskip m h1 (by omega)) (by omega)
              (.done (le_refl _)) (le_refl _)
      | some pte =>
        obtain ⟨-, rfl⟩ := walkpgdir_eq_some.mp hw
        rw [vpn_mul huser] at hw
        simp only [hw, bind_eq_ok] at h
        obtain ⟨k₁, hpg, hrest⟩ := h
        rw [show n * pgSize + pgSize = (n + 1) * pgSize by rw [Nat.add_mul, Nat.one_mul]] at hrest
        exact .next hpage (deallocPage_ok huser hpg) (ih _ _ _ (by omega) (by omega) hrest)
    · rw [if_neg hlt] at h
      obtain rfl : k = k' := by simpa using h
      have := mt lt_pages.mp hlt
      exact .done (by omega)

/-- `deallocuvm` drops the pages between the two sizes, or does nothing. -/
theorem deallocuvm_ok {oldsz newsz r : Nat} (hold : oldsz ≤ kernBase)
    (h : k.deallocuvm cfg c d oldsz newsz = .ok (k', r)) :
    (oldsz ≤ newsz ∧ k' = k ∧ r = oldsz) ∨
    (newsz < oldsz ∧ RangeRun (Dropped cfg c d) (pages oldsz) (pages newsz) k k' ∧ r = newsz) := by
  unfold deallocuvm at h
  split at h
  · next hge =>
    left
    simp only [Except.ok.injEq, Prod.mk.injEq] at h
    exact ⟨hge, h.1.symm, h.2.symm⟩
  · next hlt =>
    right
    obtain ⟨k₁, hloop, h⟩ := bind_eq_ok.mp h
    simp only [pure_eq_ok, Prod.mk.injEq] at h
    obtain ⟨rfl, rfl⟩ := h
    rw [pgRoundUp_eq (by omega)] at hloop
    refine ⟨by omega, deallocLoop_ok hold _ _ _ _ ?_ (pages_le_userPages (by omega)) hloop, rfl⟩
    simp only [pages, pgSize]
    omega

end Dropping

section Placing

/-- One round of `allocuvm` at page `n`: mapped to a zeroed frame and, if a RAM slot is free or
can be made free, entered in the RAM table. -/
inductive Placed (cfg : Config) (c : Slot) (d : Frame) (isImportant : Int) (n : Nat) (k : Kernel) :
    Kernel → Prop
  | noProcess {mem : Frame} {k₁ : Kernel} (hmap : Mapped k d n (pteW ||| pteU) (fun _ => 0) mem k₁)
      (hpid : (k.proc c).pid = 0) : Placed cfg c d isImportant n k k₁
  | tracked {mem : Frame} {k₁ : Kernel} {i : Fin maxPyscPages}
      (hmap : Mapped k d n (pteW ||| pteU) (fun _ => 0) mem k₁)
      (hfree : (k.proc c).freeRamIndex = some i) :
      Placed cfg c d isImportant n k (k₁.updatePhysicalPageMetaData c d (n * pgSize) isImportant)
  | stuck {mem : Frame} {k₁ : Kernel} (hmap : Mapped k d n (pteW ||| pteU) (fun _ => 0) mem k₁)
      (hfull : (k.proc c).freeRamIndex = none)
      (hfail : (k₁.countFault c).evictPage cfg reallocateNote c = .ok (k₁.countFault c, none)) :
      Placed cfg c d isImportant n k (k₁.countFault c)
  | evicting {mem : Frame} {k₁ k₂ : Kernel} {i : Fin maxPyscPages} {j : Fin discPages}
      {f : SwapFile} {page : Page} (hmap : Mapped k d n (pteW ||| pteU) (fun _ => 0) mem k₁)
      (hfull : (k.proc c).freeRamIndex = none)
      (hevict : Evicted cfg reallocateNote (k₁.countFault c) k₂ c i j f page) :
      Placed cfg c d isImportant n k (k₂.updatePhysicalPageMetaData c d (n * pgSize) isImportant)

theorem placePage_ok {isImportant : Int} {mem : Frame}
    (hmap : Mapped k d n (pteW ||| pteU) (fun _ => 0) mem k₁)
    (h : k₁.placePage cfg c d (n * pgSize) isImportant = .ok k') :
    Placed cfg c d isImportant n k k' := by
  unfold placePage at h
  have hproc : (k₁.proc c) = k.proc c := by rw [hmap.proc]
  simp only [hproc] at h
  by_cases hpid : (k.proc c).pid > 0
  · simp only [hpid, if_true, Proc.spaceAvialableInMemory] at h
    cases hfree : (k.proc c).freeRamIndex with
    | some i =>
      simp only [hfree, Option.isSome_some, if_true, Except.ok.injEq] at h
      subst h
      exact .tracked hmap hfree
    | none =>
      simp only [hfree, Option.isSome_none, Bool.false_eq_true, if_false, reallocatePageInDisk,
        bind_eq_ok] at h
      obtain ⟨⟨k₂, ok⟩, ⟨⟨k₃, r⟩, hevict, h₁⟩, h₂⟩ := h
      obtain ⟨rfl, rfl⟩ : k₃ = k₂ ∧ r.isSome = ok := by simpa using h₁
      rcases evictPage_ok hevict with ⟨rfl, rfl⟩ | ⟨i, j, f, page, rfl, hev⟩
      · obtain rfl : k₁.countFault c = k' := by simpa using h₂
        exact .stuck hmap hfree hevict
      · obtain rfl : k₃.updatePhysicalPageMetaData c d (n * pgSize) isImportant = k' := by
          simpa using h₂
        exact .evicting hmap hfree hev
  · simp only [hpid, if_false, Except.ok.injEq] at h
    subst h
    exact .noProcess hmap (by omega)

/-- How a growth from page `lo` to page `hi` ends: every page is placed, or the frames run out at
page `m` and all pages of the range are dropped again. -/
inductive Grown (cfg : Config) (c : Slot) (d : Frame) (isImportant : Int) (lo hi : Nat)
    (k : Kernel) : Kernel → Bool → Prop
  | full {k' : Kernel} (h : RangeRun (Placed cfg c d isImportant) hi lo k k') :
      Grown cfg c d isImportant lo hi k k' true
  | noFrame {m : Nat} {k₁ k' : Kernel} (hm : lo ≤ m) (hm' : m < hi)
      (hplaced : RangeRun (Placed cfg c d isImportant) m lo k k₁) (hfree : k₁.freelist = [])
      (hdropped : RangeRun (Dropped cfg c d) hi lo k₁ k') : Grown cfg c d isImportant lo hi k k' false
  | noTable {m : Nat} {mem : Frame} {k₁ k₂ : Kernel} (hm : lo ≤ m) (hm' : m < hi)
      (hplaced : RangeRun (Placed cfg c d isImportant) m lo k k₁) (hfree : k₁.freelist = [mem])
      (hnone : k₁.hasTable d m = false)
      (hdropped : RangeRun (Dropped cfg c d) hi lo
        ({ k₁ with freelist := [] }.setMem mem (fun _ => 0)) k₂) (hvalid : ValidFrame cfg mem) :
      Grown cfg c d isImportant lo hi k (k₂.freed mem) false

private theorem allocLoop_ok {isImportant : Int} {oldsz newsz r : Nat} (hnew : newsz < kernBase)
    {k₀ : Kernel} :
    ∀ (fuel n : Nat) (k : Kernel), pages newsz ≤ n + fuel → pages oldsz ≤ n → n ≤ pages newsz →
      RangeRun (Placed cfg c d isImportant) n (pages oldsz) k₀ k →
      allocLoop cfg c d oldsz newsz isImportant fuel (n * pgSize) k = .ok (k', r) →
      ∃ ok, Grown cfg c d isImportant (pages oldsz) (pages newsz) k₀ k' ok ∧
        r = if ok then newsz else 0 := by
  intro fuel
  induction fuel with
  | zero =>
    intro n k hfuel hlo hn hbefore h
    obtain rfl : n = pages newsz := by omega
    simp only [allocLoop, Except.ok.injEq, Prod.mk.injEq] at h
    obtain ⟨rfl, rfl⟩ := h
    exact ⟨true, .full hbefore, rfl⟩
  | succ fuel ih =>
    intro n k hfuel hlo hn hbefore h
    simp only [allocLoop] at h
    by_cases hlt : n * pgSize < newsz
    · have hpage : n < pages newsz := lt_pages.mpr hlt
      have huser : n < userPages := lt_of_lt_of_le hpage (pages_le_userPages (by omega))
      -- both error exits drop the whole range of the growth
      have hdrop : ∀ {k₁ k₂ : Kernel} {s : Nat}, k₁.deallocuvm cfg c d newsz oldsz = .ok (k₂, s) →
          RangeRun (Dropped cfg c d) (pages newsz) (pages oldsz) k₁ k₂ := by
        intro k₁ k₂ s hd
        rcases deallocuvm_ok (le_of_lt hnew) hd with ⟨hle, rfl, -⟩ | ⟨-, hrun, -⟩
        · have := pages_mono hle
          omega
        · exact hrun
      rw [if_pos hlt] at h
      cases hfree : k.freelist with
      | nil =>
        have hk : k.kalloc = (none, k) := by simp [kalloc, hfree]
        simp only [hk, bind_eq_ok] at h
        obtain ⟨⟨k₁, s⟩, hd, h⟩ := h
        simp only [pure_eq_ok, Prod.mk.injEq] at h
        obtain ⟨rfl, rfl⟩ := h
        exact ⟨false, .noFrame hlo hpage hbefore hfree (hdrop hd), rfl⟩
      | cons mem rest =>
        have hk : k.kalloc = (some mem, { k with freelist := rest }) := by simp [kalloc, hfree]
        simp only [hk, bind_eq_ok] at h
        obtain ⟨mapped, hmapped, h⟩ := h
        cases mapped with
        | none =>
          obtain ⟨hrest, hnone⟩ := mappages_none hmapped
          rw [vpn_mul huser] at hnone
          simp only [setMem_freelist] at hrest
          subst hrest
          simp only [bind_eq_ok] at h
          obtain ⟨⟨k₁, s⟩, hd, k₂, hfreed, h⟩ := h
          obtain ⟨hvalid, rfl⟩ := kfree_ok hfreed
          simp only [pure_eq_ok, Prod.mk.injEq] at h
          obtain ⟨rfl, rfl⟩ := h
          exact ⟨false, .noTable hlo hpage hbefore hfree hnone (hdrop hd) hvalid, rfl⟩
        | some k₁ =>
          obtain ⟨k₂, hready, habsent, rfl⟩ := mappages_some hmapped
          rw [← vpn_div, vpn_mul huser] at hready
          rw [vpn_mul huser] at habsent h
          simp only [bind_eq_ok] at h
          obtain ⟨k₃, hplace, h⟩ := h
          have hplaced := placePage_ok (.intro hfree hready habsent) hplace
          rw [show n * pgSize + pgSize = (n + 1) * pgSize by rw [Nat.add_mul, Nat.one_mul]] at h
          exact ih (n + 1) k₃ (by omega) (by omega) (by omega) (hbefore.snoc hlo hplaced) h
    · have hge : ¬ n < pages newsz := mt lt_pages.mp hlt
      obtain rfl : n = pages newsz := by omega
      rw [if_neg hlt] at h
      simp only [Except.ok.injEq, Prod.mk.injEq] at h
      obtain ⟨rfl, rfl⟩ := h
      exact ⟨true, .full hbefore, rfl⟩

/-- `allocuvm` refuses at once, or grows page by page. -/
theorem allocuvm_ok {isImportant : Int} {oldsz newsz r : Nat} (hold : oldsz < kernBase)
    (h : k.allocuvm cfg c d oldsz newsz isImportant = .ok (k', r)) :
    ((newsz < kernBase → oldsz ≤ newsz ∧ (k.proc c).hasRoom = false) ∧ k' = k ∧ r = 0) ∨
    (newsz < oldsz ∧ k' = k ∧ r = oldsz) ∨
    (oldsz ≤ newsz ∧ newsz < kernBase ∧ (k.proc c).hasRoom = true ∧
      ∃ ok, Grown cfg c d isImportant (pages oldsz) (pages newsz) k k' ok ∧
        r = if ok then newsz else 0) := by
  unfold allocuvm at h
  split at h
  · next hbig =>
    left
    exact ⟨fun hnew => absurd hbig (by omega), by simpa [eq_comm] using h⟩
  · next hbig =>
    split at h
    · next hlt =>
      right; left
      simp only [Except.ok.injEq, Prod.mk.injEq] at h
      exact ⟨hlt, h.1.symm, h.2.symm⟩
    · next hle =>
      split at h
      · next hfull =>
        left
        exact ⟨fun _ => ⟨by omega, by simpa [Proc.hasRoom] using hfull⟩, by simpa [eq_comm] using h⟩
      · next hfull =>
        right; right
        rw [pgRoundUp_eq (by omega)] at h
        have hlast : pages newsz ≤ pages oldsz + (newsz / pgSize + 1) := by
          simp only [pages, pgSize]
          omega
        have hroom : (k.proc c).hasRoom = true := by
          cases hmem : (k.proc c).spaceAvialableInMemory <;>
            simp_all [Proc.hasRoom]
        exact ⟨by omega, by omega, hroom, allocLoop_ok (by omega) _ _ k hlast (le_refl _)
          (pages_mono (by omega)) (.done (le_refl _)) h⟩

end Placing

section Growproc

def setSz (k : Kernel) (c : Slot) (sz : Nat) : Kernel := k.setProc c { k.proc c with sz := sz }

/-- The ways a `growproc` call ends. -/
inductive Resized (cfg : Config) (c : Slot) (m : Int) (k : Kernel) : Kernel → Bool → Prop
  | same {ok : Bool} : Resized cfg c m k k ok
  | grown {newsz : Nat} {k₁ : Kernel} (hm : 0 < m)
      (heq : newsz = (((k.proc c).sz + m) % 2 ^ 32).toNat) (hle : (k.proc c).sz ≤ newsz)
      (hnew : newsz < kernBase) (hroom : (k.proc c).hasRoom = true)
      (h : Grown cfg c (k.proc c).pgdir 0 (pages (k.proc c).sz) (pages newsz) k k₁ true) :
      Resized cfg c m k (k₁.setSz c newsz) true
  | failed {newsz : Nat} {k₁ : Kernel} (hle : (k.proc c).sz ≤ newsz) (hnew : newsz < kernBase)
      (h : Grown cfg c (k.proc c).pgdir 0 (pages (k.proc c).sz) (pages newsz) k k₁ false) :
      Resized cfg c m k k₁ false
  | shrunk {newsz : Nat} {k₁ : Kernel} (hlt : newsz < (k.proc c).sz) (hpos : 0 < newsz)
      (h : RangeRun (Dropped cfg c (k.proc c).pgdir) (pages (k.proc c).sz) (pages newsz) k k₁) :
      Resized cfg c m k (k₁.setSz c newsz) true
  | emptied {k₁ : Kernel} (hpos : 0 < (k.proc c).sz)
      (h : RangeRun (Dropped cfg c (k.proc c).pgdir) (pages (k.proc c).sz) (pages 0) k k₁) :
      Resized cfg c m k k₁ false

theorem setSz_self (h : (k.proc c).sz = n) : k.setSz c n = k := by
  subst h
  exact setProc_self

theorem growproc_end {m : Int} {r : Nat} {ok : Bool}
    (h : (if m ≠ 0 ∧ r = 0 then pure (k₁, false)
      else pure (k₁.setProc c { k₁.proc c with sz := r }, true) : Except Crash (Kernel × Bool)) =
        .ok (k', ok)) :
    (m ≠ 0 ∧ r = 0 ∧ k' = k₁ ∧ ok = false) ∨
      ((m ≠ 0 → r ≠ 0) ∧ k' = k₁.setSz c r ∧ ok = true) := by
  split at h
  · next hr =>
    simp only [pure_eq_ok, Prod.mk.injEq] at h
    exact .inl ⟨hr.1, hr.2, h.1.symm, h.2.symm⟩
  · next hr =>
    simp only [pure_eq_ok, Prod.mk.injEq] at h
    exact .inr ⟨fun h1 h2 => hr ⟨h1, h2⟩, h.1.symm, h.2.symm⟩

theorem growproc_ok {m : Int} {ok : Bool} (hsz : (k.proc c).sz < kernBase)
    (h : k.growproc cfg c m = .ok (k', ok)) : Resized cfg c m k k' ok := by
  simp only [growproc] at h
  split at h
  · next hm =>
    obtain ⟨⟨k₁, r⟩, hgrow, h⟩ := bind_eq_ok.mp h
    simp only at h
    have hend := growproc_end h
    rcases allocuvm_ok hsz hgrow with ⟨-, rfl, rfl⟩ | ⟨-, rfl, rfl⟩ |
      ⟨hle, hnew, hroom, ok', hg, hr⟩
    · rcases hend with ⟨-, -, rfl, rfl⟩ | ⟨hne, -, -⟩
      · exact .same
      · exact absurd rfl (hne (by omega))
    · rcases hend with ⟨-, -, rfl, rfl⟩ | ⟨-, rfl, rfl⟩
      · exact .same
      · rw [setSz_self rfl]
        exact .same
    · cases ok' with
      | false =>
        simp only [Bool.false_eq_true, if_false] at hr
        rcases hend with ⟨-, -, rfl, rfl⟩ | ⟨hne, -, -⟩
        · exact .failed hle hnew hg
        · exact absurd hr (hne (by omega))
      | true =>
        simp only [if_true] at hr
        rcases hend with ⟨-, hr0, rfl, rfl⟩ | ⟨-, rfl, rfl⟩
        · -- a growth to size 0 started at size 0, and nothing was placed
          have hsz0 : (k.proc c).sz = 0 := by omega
          rw [← hr, hr0, hsz0] at hg
          cases hg with
          | full hrun =>
            cases hrun with
            | done _ => exact .same
            | next hlt _ _ => exact absurd hlt (lt_irrefl _)
        · rw [hr]
          exact .grown hm rfl hle hnew hroom hg
  · split at h
    · obtain ⟨⟨k₁, r⟩, hgrow, h⟩ := bind_eq_ok.mp h
      simp only at h
      have hend := growproc_end h
      rcases deallocuvm_ok (le_of_lt hsz) hgrow with ⟨-, rfl, rfl⟩ | ⟨hlt, hrun, hr⟩
      · rcases hend with ⟨-, -, rfl, rfl⟩ | ⟨-, rfl, rfl⟩
        · exact .same
        · rw [setSz_self rfl]
          exact .same
      · rcases hend with ⟨-, hr0, rfl, rfl⟩ | ⟨hne, rfl, rfl⟩
        · rw [← hr, hr0] at hrun hlt
          exact .emptied hlt hrun
        · rw [← hr] at hrun hlt
          exact .shrunk hlt (Nat.pos_of_ne_zero (hne (by omega))) hrun
    · obtain ⟨⟨k₁, r⟩, hgrow, h⟩ := bind_eq_ok.mp h
      simp only at h
      have hend := growproc_end h
      obtain ⟨rfl, rfl⟩ : k = k₁ ∧ (k.proc c).sz = r := by simpa using hgrow
      rcases hend with ⟨-, -, rfl, rfl⟩ | ⟨-, rfl, rfl⟩
      · exact .same
      · rw [setSz_self rfl]
        exact .same

end Growproc

end Kernel

end OsSessional.Paging
