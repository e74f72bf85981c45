import OsSessional.Paging.CopyFrames
import OsSessional.Paging.Ownership

/-!
# What a copy mirrors

`copyuvm` gives a paged-out page an entry only where a resident page of the same 4 MB region came
first, for it looks for the page table and does not make one, and the entry starts from nothing: it is
paged out, and neither writable nor user.
-/

namespace OsSessional.Paging

open Function (update update_self update_of_ne)
open Outcome

namespace Kernel

section Statement

/-- Every page below `sz` is present or marked `PTE_PG`. -/
def MappedBelow (k : Kernel) (pgdir : Frame) (sz : Nat) : Prop :=
  ∀ n < pages sz, hasFlag (k.pte pgdir n) .P = !hasFlag (k.pte pgdir n) .PG

/-- The pages of `pgdir` below `sz`, page by page, in the new directory `d`. -/
structure Mirrors (L : Frame → Prop) (k k' : Kernel) (pgdir d : Frame) (sz : Nat) : Prop where
  new : ¬ L d
  flags : ∀ n < pages sz, hasFlag (k.pte pgdir n) .PG = false →
    pteFlags (k'.pte d n) = pteFlags (k.pte pgdir n)
  bytes : ∀ n < pages sz, hasFlag (k.pte pgdir n) .PG = false →
    k'.mem (pteAddr (k'.pte d n)) = k.mem (pteAddr (k.pte pgdir n))
  fresh : ∀ n < pages sz, hasFlag (k.pte pgdir n) .PG = false →
    pteAddr (k'.pte d n) ∈ k.freelist ∧ pteAddr (k'.pte d n) ∉ k'.freelist
  unshared : ∀ n < pages sz, hasFlag (k.pte pgdir n) .PG = false → ∀ d' n', withDir L d d' →
    n' < userPages → hasFlag (k'.pte d' n') .P = true →
    pteAddr (k'.pte d' n') = pteAddr (k'.pte d n) → d' = d ∧ n' = n
  paged : ∀ n < pages sz, hasFlag (k.pte pgdir n) .PG = true →
    hasFlag (k'.pte d n) .PG = true ∧ hasFlag (k'.pte d n) .P = false ∧ pteAddr (k'.pte d n) = 0 ∧
      hasFlag (k'.pte d n) .W = hasFlag (k.pte pgdir n) .W ∧
      hasFlag (k'.pte d n) .U = hasFlag (k.pte pgdir n) .U
  unchanged : ∀ d', d' ≠ d → k'.pte d' = k.pte d'
  parent : ∀ n < userPages, hasFlag (k.pte pgdir n) .P = true →
    k'.mem (pteAddr (k.pte pgdir n)) = k.mem (pteAddr (k.pte pgdir n))

instance (k : Kernel) (pgdir : Frame) (sz : Nat) : Decidable (k.MappedBelow pgdir sz) :=
  inferInstanceAs (Decidable (∀ n < pages sz, _ = _))

/-- Some page before `n` in the same 4 MB region is resident. -/
def Preceded (k : Kernel) (pgdir : Frame) (n : Nat) : Prop :=
  ∃ m < n, m / nptEntries = n / nptEntries ∧ hasFlag (k.pte pgdir m) .PG = false

instance (k : Kernel) (pgdir : Frame) (n : Nat) : Decidable (k.Preceded pgdir n) :=
  inferInstanceAs (Decidable (∃ m < n, _ ∧ _))

/-- Every paged-out page below `sz` is neither writable nor user, and is preceded by a resident page of
its 4 MB region. -/
def Copyable (k : Kernel) (pgdir : Frame) (sz : Nat) : Prop :=
  ∀ n < pages sz, hasFlag (k.pte pgdir n) .PG = true →
    hasFlag (k.pte pgdir n) .W = false ∧ hasFlag (k.pte pgdir n) .U = false ∧ k.Preceded pgdir n

instance (k : Kernel) (pgdir : Frame) (sz : Nat) : Decidable (k.Copyable pgdir sz) :=
  inferInstanceAs (Decidable (∀ n < pages sz, _ → _ ∧ _ ∧ k.Preceded pgdir n))

end Statement

variable {cfg : Config} {X L : Frame → Prop} {k k' k₀ k₁ : Kernel} {c : Slot} {d pgdir : Frame}
variable {sz n : Nat}

/-- Before page `n` the user page tables of the copy are those of the resident pages so far. -/
structure Mirroring (pgdir d : Frame) (k₀ : Kernel) (n : Nat) (k : Kernel) : Prop where
  tables : ∀ t < 512, ((k.dirs d).pde t).isSome = true ↔
    ∃ m < n, m / nptEntries = t ∧ hasFlag (k₀.pte pgdir m) .PG = false
  entry : ∀ m < n, hasFlag (k₀.pte pgdir m) .PG = false →
    ∃ fr ∈ k₀.freelist, k.pte d m = mapPte fr (pteFlags (k₀.pte pgdir m))
  preceded : ∀ m < n, hasFlag (k₀.pte pgdir m) .PG = true → k₀.Preceded pgdir m

private theorem Mirroring.hasTable_iff (h : Mirroring pgdir d k₀ n k) (hn : n < userPages) :
    k.hasTable d n = true ↔ k₀.Preceded pgdir n := by
  have hregion : n / nptEntries < 512 := by
    simp only [userPages, kernBase, pgSize, nptEntries] at hn ⊢
    omega
  exact h.tables _ hregion

private theorem tables_succ {t : Nat} (hres : hasFlag (k₀.pte pgdir n) .PG = false) :
    (∃ m < n + 1, m / nptEntries = t ∧ hasFlag (k₀.pte pgdir m) .PG = false) ↔
      t = n / nptEntries ∨ ∃ m < n, m / nptEntries = t ∧ hasFlag (k₀.pte pgdir m) .PG = false := by
  constructor
  · rintro ⟨m, hm, hregion, hPG⟩
    by_cases he : m = n
    · subst he
      exact .inl hregion.symm
    · exact .inr ⟨m, by omega, hregion, hPG⟩
  · rintro (rfl | ⟨m, hm, hregion, hPG⟩)
    · exact ⟨n, by omega, rfl, hres⟩
    · exact ⟨m, by omega, hregion, hPG⟩

private theorem Mapped.pde {perm : PTE} {page : Page} {mem : Frame} (h : Mapped k d n perm page mem k') (t : Nat) :
    ((k'.dirs d).pde t).isSome = true ↔ t = n / nptEntries ∨ ((k.dirs d).pde t).isSome = true := by
  cases h with
  | intro hfree htable habsent =>
    rw [setPte_pde]
    by_cases ht : t = n / nptEntries
    · subst ht
      simp [htable.pde_self]
    · rw [htable.pde_other ht]
      simp [ht]

private theorem Mirroring.step (h : Mirroring pgdir d k₀ n k) (hcopy : Copying cfg X L pgdir d k₀ n k)
    (hne : pgdir ≠ d) (hn : n < userPages) (hc : Copied pgdir d n k k') :
    Mirroring pgdir d k₀ (n + 1) k' := by
  have hself : k.pte pgdir n = k₀.pte pgdir n := by rw [hcopy.other pgdir hne]
  cases hc with
  | paged hPG htable =>
    have hpte := setPte_pte_eq (v := pageOutPte (k.pte d n)) htable
    rw [hself] at hPG
    have hlt : ∀ m, m < n + 1 → hasFlag (k₀.pte pgdir m) .PG = false → m < n := by
      intro m hm hno
      have he : m ≠ n := by
        rintro rfl
        simp [hno] at hPG
      omega
    constructor
    · intro t ht
      rw [setPte_pde, h.tables t ht]
      constructor
      · rintro ⟨m, hm, hregion, hno⟩
        exact ⟨m, by omega, hregion, hno⟩
      · rintro ⟨m, hm, hregion, hno⟩
        exact ⟨m, hlt m hm hno, hregion, hno⟩
    · intro m hm hno
      have hmn := hlt m hm hno
      rw [hpte, setEntry_of_ne fun _ => by omega]
      exact h.entry m hmn hno
    · intro m hm hout
      by_cases he : m = n
      · subst he
        exact (h.hasTable_iff hn).mp htable
      · exact h.preceded m (by omega) hout
  | @resident mem _ hPG hP hmap =>
    rw [hself] at hPG hmap
    obtain ⟨rest, hfree⟩ := hmap.free
    constructor
    · intro t ht
      rw [hmap.pde, tables_succ hPG, h.tables t ht]
    · intro m hm hno
      rw [hmap.pte]
      by_cases he : m = n
      · subst he
        rw [setEntry_self]
        exact ⟨mem, hcopy.taken mem (by simp [hfree]), rfl⟩
      · rw [setEntry_of_ne fun _ => he]
        exact h.entry m (by omega) hno
    · intro m hm hout
      have he : m ≠ n := by
        rintro rfl
        simp [hout] at hPG
      exact h.preceded m (by omega) hout

private theorem kmapLoop_pde {t : Nat} (ht : t < 512) :
    ∀ (is : List Nat) (k k' : Kernel) (ok : Bool), (∀ i ∈ is, 512 ≤ pdx (pgAddr i)) →
      kmapLoop d is k = (k', ok) → (k'.dirs d).pde t = (k.dirs d).pde t := by
  intro is
  induction is with
  | nil =>
    intro k k' ok _ h
    obtain ⟨rfl, -⟩ : k = k' ∧ true = ok := by simpa [kmapLoop] using h
    rfl
  | cons i is ih =>
    intro k k' ok his h
    simp only [kmapLoop] at h
    cases hw : k.walkpgdirAlloc d (pgAddr i) with
    | none =>
      simp only [hw] at h
      obtain ⟨rfl, -⟩ : k = k' ∧ false = ok := by simpa using h
      rfl
    | some k₁ =>
      simp only [hw] at h
      have hi := his i List.mem_cons_self
      rw [ih k₁ k' ok (fun i hi => his i (List.mem_cons_of_mem _ hi)) h,
        (walkpgdirAlloc_some hw).pde_other (by omega)]

private theorem kmapEntries_kernel : ∀ i ∈ kmapEntries, 512 ≤ pdx (pgAddr i) := by decide

private theorem Mirroring.start {rest : List Frame}
    (hkmap : kmapLoop d kmapEntries (k.newDir d rest) = (k₁, true)) : Mirroring pgdir d k 0 k₁ := by
  constructor
  · intro t ht
    rw [kmapLoop_pde ht _ _ _ _ kmapEntries_kernel hkmap]
    simp [newDir]
  · intro m hm
    omega
  · intro m hm
    omega

section Loop

private theorem copyPage_returns (hcopy : Copying cfg X L pgdir d k₀ n k) (h : Mirroring pgdir d k₀ n k)
    (hne : pgdir ≠ d) (hn : n < userPages)
    (hmapped : hasFlag (k₀.pte pgdir n) .P = !hasFlag (k₀.pte pgdir n) .PG)
    (hpreceded : hasFlag (k₀.pte pgdir n) .PG = true → k₀.Preceded pgdir n) :
    Returns (k.copyPage cfg pgdir d (n * pgSize)) := by
  have hself : k.pte pgdir n = k₀.pte pgdir n := by rw [hcopy.other pgdir hne]
  have hvpn := vpn_mul hn
  unfold copyPage
  cases hPG : hasFlag (k₀.pte pgdir n) .PG with
  | true =>
    have hw : k.walkpgdir pgdir (n * pgSize) = some (k₀.pte pgdir n) := by
      rw [walkpgdir_eq_some, hvpn, hself]
      exact ⟨hasTable_of_hasFlag (g := .PG) (by rw [hself, hPG]), rfl⟩
    have hw' : k.walkpgdir d (n * pgSize) = some (k.pte d n) := by
      rw [walkpgdir_eq_some, hvpn]
      exact ⟨(h.hasTable_iff hn).mpr (hpreceded hPG), rfl⟩
    simp only [hw, hPG, hw', if_true]
    exact .ok _
  | false =>
    rw [hPG, Bool.not_false] at hmapped
    have hw : k.walkpgdir pgdir (n * pgSize) = some (k₀.pte pgdir n) := by
      rw [walkpgdir_eq_some, hvpn, hself]
      exact ⟨hasTable_of_hasFlag (g := .P) (by rw [hself, hmapped]), rfl⟩
    simp only [hw, hPG, hmapped, Bool.false_eq_true, if_false, Bool.not_true]
    cases hfree : k.freelist with
    | nil =>
      simp only [kalloc, hfree]
      exact .ok _
    | cons mem rest =>
      simp only [kalloc, hfree]
      apply Returns.bind
      · unfold mappages
        split
        · exact .ok _
        · next k₁ hw₁ =>
          have habsent : hasFlag (k₁.pte d (vpn (n * pgSize))) .P = false := by
            rw [(walkpgdirAlloc_some hw₁).pte, hvpn]
            have htodo : ({ k with freelist := rest } : Kernel).pte d n = 0 := hcopy.todo n (le_refl _)
            rw [setMem_pte, htodo]
            exact hasFlag_zero _
          simp only [habsent, Bool.false_eq_true, if_false]
          exact .ok _
      · intro r hr
        cases r with
        | none =>
          have hvalid := hcopy.frames.valid_free mem (by simp [hfree])
          exact (kfree_returns hvalid).bind fun _ _ => .pure _
        | some k₁ => exact .pure _

private theorem copyLoop_mirrors (h₀ : FramesSound cfg X L k₀) (hpgdir : L pgdir) (hd : ¬ L d)
    (hsz : sz ≤ kernBase) (hmapped : k₀.MappedBelow pgdir sz)
    (hpreceded : ∀ n < pages sz, hasFlag (k₀.pte pgdir n) .PG = true → k₀.Preceded pgdir n) :
    ∀ (fuel n : Nat) (k : Kernel), Copying cfg X L pgdir d k₀ n k → Mirroring pgdir d k₀ n k →
      k.loopFrames pgdir d sz n ≤ k.freelist.length →
      ∃ k', copyLoop cfg pgdir d sz fuel (n * pgSize) k = .ok (k', true) := by
  have hne : pgdir ≠ d := by
    rintro rfl
    exact hd hpgdir
  intro fuel
  induction fuel with
  | zero => exact fun n k _ _ _ => ⟨k, rfl⟩
  | succ fuel ih =>
    intro n k hcopy hmirror hframes
    simp only [copyLoop]
    split
    · next hlt =>
      have hpage : n < pages sz := lt_pages.mpr hlt
      have huser := lt_of_lt_of_le hpage (pages_le_userPages hsz)
      obtain ⟨⟨k₁, ok⟩, hok⟩ := copyPage_returns hcopy hmirror hne huser (hmapped n hpage) (hpreceded n hpage)
      have hstep := @copyPage_frames cfg _ _ _ _ _ (Ne.symm hne) hpage hframes
      rw [hok] at hstep
      obtain ⟨hflag, -, hleft⟩ := hstep.of_ok
      obtain rfl : ok = true := hflag
      have hcopied := copyPage_ok huser hok
      rw [hok, ok_bind]
      simp only [if_true]
      rw [show n * pgSize + pgSize = (n + 1) * pgSize by rw [Nat.add_mul, Nat.one_mul]]
      exact ih (n + 1) k₁ (hcopy.step h₀ hd hpgdir huser hcopied) (hmirror.step hcopy hne huser hcopied) hleft
    · exact ⟨k, rfl⟩

end Loop

section Directory

private theorem copyuvm_returns (h : FramesSound cfg X L k) (hpgdir : L pgdir) (hsz : sz ≤ kernBase)
    (hmapped : k.MappedBelow pgdir sz)
    (hpreceded : ∀ n < pages sz, hasFlag (k.pte pgdir n) .PG = true → k.Preceded pgdir n)
    (hframes : k.copyFrames pgdir sz ≤ k.freelist.length) :
    ∃ d k', k.copyuvm cfg c pgdir sz = .ok (some d, k') := by
  cases hfree : k.freelist with
  | nil =>
    simp only [copyFrames, hfree, List.length_nil] at hframes
    omega
  | cons d rest =>
    have hlen : kmapEntries.length ≤ rest.length := by
      simp only [copyFrames, hfree, List.length_cons] at hframes
      omega
    have hkmap := @kmapLoop_frames d kmapEntries (k.newDir d rest) hlen
    cases hloop : kmapLoop d kmapEntries (k.newDir d rest) with
    | mk k₁ ok =>
      rw [hloop] at hkmap
      obtain ⟨hok, hleft, hpte⟩ := hkmap
      obtain rfl : ok = true := hok
      have hsetup : k.setupkvm cfg c = .ok (some d, k₁) := by
        have hnew : kmapLoop d kmapEntries { k with
            freelist := rest
            dirs := update k.dirs d { pde := fun _ => none, pte := fun _ => 0 } } = (k₁, true) := hloop
        simp only [setupkvm, kalloc, hfree, hnew]
      obtain ⟨hd, hcopy⟩ : ¬ L d ∧ Copying cfg X L pgdir d k 0 k₁ := h.copying hfree hloop
      have hne : d ≠ pgdir := by
        rintro rfl
        exact hd hpgdir
      have hbudget := loopFrames_newDir hne hfree hframes hpte hleft
      obtain ⟨k', hk'⟩ := copyLoop_mirrors h hpgdir hd hsz hmapped hpreceded (sz / pgSize + 1) 0 k₁ hcopy
        (.start hloop) hbudget
      rw [Nat.zero_mul] at hk'
      refine ⟨d, k', ?_⟩
      simp only [copyuvm, hsetup, ok_bind, hk', if_true]
      rfl

private theorem copyuvm_mirroring (h : FramesSound cfg X L k) (hpgdir : L pgdir) (hsz : sz ≤ kernBase)
    (hc : k.copyuvm cfg c pgdir sz = .ok (some d, k')) :
    ¬ L d ∧ Copying cfg X L pgdir d k (pages sz) k' ∧ Mirroring pgdir d k (pages sz) k' := by
  obtain ⟨rest, k₁, hfree, hkmap, hrun⟩ := copyuvm_some hsz hc
  obtain ⟨hd, hstart⟩ : ¬ L d ∧ Copying cfg X L pgdir d k 0 k₁ := h.copying hfree hkmap
  have hne : pgdir ≠ d := by
    rintro rfl
    exact hd hpgdir
  have hstep : ∀ n s s', 0 ≤ n → n < pages sz →
      Copying cfg X L pgdir d k n s ∧ Mirroring pgdir d k n s → Copied pgdir d n s s' →
      Copying cfg X L pgdir d k (n + 1) s' ∧ Mirroring pgdir d k (n + 1) s' := by
    intro n s s' _ hn hI hcopied
    have huser := lt_of_lt_of_le hn (pages_le_userPages hsz)
    exact ⟨hI.1.step h hd hpgdir huser hcopied, hI.2.step hI.1 hne huser hcopied⟩
  have hend := hrun.keeps hstep ⟨hstart, .start hkmap⟩
  rw [Nat.zero_max] at hend
  exact ⟨hd, hend⟩

private theorem Copying.mirrors (hcopy : Copying cfg allCounted L pgdir d k (pages sz) k')
    (hmirror : Mirroring pgdir d k (pages sz) k') (h : FramesSound cfg allCounted L k) (hpgdir : L pgdir)
    (hd : ¬ L d) (hsz : sz ≤ kernBase) (hplain : ∀ n < pages sz, hasFlag (k.pte pgdir n) .PG = true →
      hasFlag (k.pte pgdir n) .W = false ∧ hasFlag (k.pte pgdir n) .U = false) :
    Mirrors L k k' pgdir d sz := by
  have huser : ∀ n < pages sz, n < userPages := fun n hn => lt_of_lt_of_le hn (pages_le_userPages hsz)
  have hpresent : ∀ n < pages sz, hasFlag (k.pte pgdir n) .PG = false →
      hasFlag (k'.pte d n) .P = true := by
    intro n hn hPG
    obtain ⟨hP, hflags⟩ := (hcopy.done n hn).resident hPG
    rw [hflags, hP]
  constructor
  case new => exact hd
  case flags =>
    intro n hn hPG
    obtain ⟨fr, hfr, hentry⟩ := hmirror.entry n hn hPG
    rw [hentry]
    exact pteFlags_mapPte _ (h.valid_free fr hfr).aligned ((hcopy.done n hn).resident hPG).1
  case bytes => exact hcopy.copied
  case fresh =>
    intro n hn hPG
    obtain ⟨fr, hfr, hentry⟩ := hmirror.entry n hn hPG
    refine ⟨?_, hcopy.frames.page_not_free (.inr rfl) (huser n hn) (hpresent n hn hPG)⟩
    rw [hentry, pteAddr_mapPte (h.valid_free fr hfr).aligned (pteAddr_pteFlags _)]
    exact hfr
  case unshared =>
    intro n hn hPG d' n' hd' hn' hP' haddr
    have hheld := held_page (X := allCounted) (L := withDir L d) (.inr rfl) (huser n hn) (hpresent n hn hPG) id
    have hheld' := held_page (X := allCounted) (L := withDir L d) hd' hn' hP' id
    rw [haddr] at hheld'
    have hsame : Owner.page d' n' = Owner.page d n := hcopy.frames.ledger.inj _ _ _ hheld' hheld
    exact Owner.page.inj hsame
  case paged =>
    intro n hn hPG
    obtain ⟨hW, hU⟩ := hplain n hn hPG
    rw [(hcopy.done n hn).paged hPG, hW, hU]
    decide
  case unchanged => exact hcopy.other
  case parent =>
    intro n hn hP
    exact hcopy.mem _ (h.page_not_free hpgdir hn hP)

/-- `copyuvm` mirrors the parent exactly when every paged-out page lacks `PTE_W` and `PTE_U` and has a
resident page of its 4 MB region before it. -/
theorem copyuvm_mirrors_iff (h : FramesSound cfg allCounted L k) (hpgdir : L pgdir) (hsz : sz ≤ kernBase)
    (hmapped : k.MappedBelow pgdir sz) (hframes : k.copyFrames pgdir sz ≤ k.freelist.length) :
    (∃ d k', k.copyuvm cfg c pgdir sz = .ok (some d, k') ∧ Mirrors L k k' pgdir d sz) ↔
      k.Copyable pgdir sz := by
  constructor
  · rintro ⟨d, k', hc, hmirrors⟩ n hn hPG
    obtain ⟨-, hcopy, hmirror⟩ := copyuvm_mirroring h hpgdir hsz hc
    obtain ⟨-, -, -, hW, hU⟩ := hmirrors.paged n hn hPG
    rw [(hcopy.done n hn).paged hPG] at hW hU
    exact ⟨hW.symm, hU.symm, hmirror.preceded n hn hPG⟩
  · intro hcopyable
    obtain ⟨d, k', hc⟩ := @copyuvm_returns cfg _ _ _ c _ _ h hpgdir hsz hmapped
      (fun n hn hPG => (hcopyable n hn hPG).2.2) hframes
    obtain ⟨hd, hcopy, hmirror⟩ := copyuvm_mirroring h hpgdir hsz hc
    refine ⟨d, k', hc, hcopy.mirrors hmirror h hpgdir hd hsz fun n hn hPG => ?_⟩
    exact ⟨(hcopyable n hn hPG).1, (hcopyable n hn hPG).2.1⟩

/-- A child of a process with its last page out has that page out with no other flag, and can be copied. -/
theorem copyuvm_mirrors_child : ∃ k d k', [Action.user Solo.main (.growproc 4096), .fork Solo.main].foldlM
      (act (Solo.config .LIFO)) Solo.full.kernel = some k ∧
    hasFlag (k.pte (k.proc ⟨1, by decide⟩).pgdir 14) .PG = true ∧
    k.copyuvm (Solo.config .LIFO) ⟨1, by decide⟩ (k.proc ⟨1, by decide⟩).pgdir (k.proc ⟨1, by decide⟩).sz =
      .ok (some d, k') ∧
    Mirrors k.Live k k' (k.proc ⟨1, by decide⟩).pgdir d (k.proc ⟨1, by decide⟩).sz := by
  have hend : (([Action.user Solo.main (.growproc 4096), .fork Solo.main].foldlM
      (act (Solo.config .LIFO)) Solo.full.kernel).map fun k => decide (k.Active ⟨1, by decide⟩) &&
        decide (hasFlag (k.pte (k.proc ⟨1, by decide⟩).pgdir 14) .PG = true) &&
        decide ((k.proc ⟨1, by decide⟩).sz ≤ kernBase) &&
        decide (k.MappedBelow (k.proc ⟨1, by decide⟩).pgdir (k.proc ⟨1, by decide⟩).sz) &&
        decide (k.copyFrames (k.proc ⟨1, by decide⟩).pgdir (k.proc ⟨1, by decide⟩).sz ≤ k.freelist.length) &&
        decide (k.Copyable (k.proc ⟨1, by decide⟩).pgdir (k.proc ⟨1, by decide⟩).sz)) = some true := by
    decide +kernel
  obtain ⟨k, hk, hend⟩ := Option.map_eq_some_iff.mp hend
  simp only [Bool.and_eq_true, decide_eq_true_eq] at hend
  obtain ⟨⟨⟨⟨⟨hc, hout⟩, hsz⟩, hmapped⟩, hframes⟩, hcopyable⟩ := hend
  have hconsistent : Consistent (Solo.config .LIFO) allCounted k :=
    (Solo.full.started (le_refl _)).reached (.of_foldlM hk)
  obtain ⟨d, k', hcopy⟩ := (copyuvm_mirrors_iff hconsistent.frames hc.live hsz hmapped hframes).mpr hcopyable
  exact ⟨k, d, k', hk, hout, hcopy⟩

/-- The first page of the only region is out when its directory is copied: there is no page table yet. -/
theorem copyuvm_panics :
    ¬ ∀ (cfg : Config) (L : Frame → Prop) (k : Kernel) (c : Slot) (pgdir : Frame) (sz : Nat),
      FramesSound cfg allCounted L k → L pgdir → sz ≤ kernBase → k.MappedBelow pgdir sz →
      k.copyFrames pgdir sz ≤ k.freelist.length →
      ∃ d k', k.copyuvm cfg c pgdir sz = .ok (some d, k') ∧ Mirrors L k k' pgdir d sz := by
  intro h
  have hend : (([Action.user Solo.main (.growproc 4096)].foldlM (act (Solo.config .FIFO))
      Solo.full.kernel).map fun k => decide (k.Active Solo.main) &&
        decide ((k.proc Solo.main).sz ≤ kernBase) &&
        decide (k.MappedBelow (k.proc Solo.main).pgdir (k.proc Solo.main).sz) &&
        decide (k.copyFrames (k.proc Solo.main).pgdir (k.proc Solo.main).sz ≤ k.freelist.length) &&
        (match k.copyuvm (Solo.config .FIFO) Solo.main (k.proc Solo.main).pgdir (k.proc Solo.main).sz with
          | .error .swappedPteMissing => true
          | _ => false)) = some true := by
    decide +kernel
  obtain ⟨k, hk, hend⟩ := Option.map_eq_some_iff.mp hend
  simp only [Bool.and_eq_true, decide_eq_true_eq] at hend
  obtain ⟨⟨⟨⟨hc, hsz⟩, hmapped⟩, hframes⟩, hend⟩ := hend
  have hconsistent : Consistent (Solo.config .FIFO) allCounted k :=
    (Solo.full.started (le_refl _)).reached (.of_foldlM hk)
  obtain ⟨d, k', hcopy, -⟩ := h _ _ k Solo.main _ _ hconsistent.frames hc.live hsz hmapped hframes
  rw [hcopy] at hend
  simp at hend

end Directory

end Kernel

end OsSessional.Paging
