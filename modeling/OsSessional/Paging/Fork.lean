import OsSessional.Paging.System

/-!
# What a successful fork does

`allocproc`, `copyuvm` and the copying of the metadata, each inverted once. The new directory
copies the parent's entries page by page: a resident page gets a frame of its own with the same
flags, a paged-out page an entry that is nothing but paged out.
-/

namespace OsSessional.Paging

open Function (update update_self update_of_ne)
open Outcome

namespace SwapFile

variable (f : SwapFile) (src : Nat → Byte)

private theorem writei_size {f' : SwapFile} {off n : Nat} (h : f.writei src off n = some f') :
    f'.size ≤ max f.size (off + n) := by
  unfold writei at h
  split at h
  · simp at h
  · split at h
    · simp at h
    · simp only [Option.some.injEq] at h
      subst h
      simp only
      split <;> omega

private theorem filewriteLoop_size {n : Nat} :
    ∀ (fuel i off : Nat) (f : SwapFile), i ≤ n →
      (filewriteLoop src n fuel i off f).1.size ≤ max f.size (off + (n - i)) := by
  intro fuel
  induction fuel with
  | zero =>
    intro i off f _
    simp only [filewriteLoop]
    omega
  | succ fuel ih =>
    intro i off f hi
    simp only [filewriteLoop]
    by_cases hlt : i < n
    · rw [if_pos hlt]
      cases hw : f.writei (fun b => src (i + b)) off (min (n - i) chunk) with
      | none =>
        simp only
        omega
      | some f' =>
        have hsize := writei_size f _ hw
        have hrest := ih (i + min (n - i) chunk) (off + min (n - i) chunk) f' (by omega)
        simp only
        omega
    · rw [if_neg hlt]
      simp only
      omega

private theorem filewrite_size (off n : Nat) : (f.filewrite src off n).1.size ≤ max f.size (off + n) :=
  filewriteLoop_size src n 0 off f (Nat.zero_le n)

end SwapFile

namespace Kernel

variable {cfg : Config} {X L : Frame → Prop} {k k' k₁ : Kernel} {c np : Slot} {d pgdir : Frame}
variable {n : Nat}

private theorem copySwapLoop_size (disc : DiscTable) (parent : SwapFile) :
    ∀ (js : List (Fin discPages)) (off : Int) (child : SwapFile),
      child.size ≤ parent.size → (copySwapLoop disc parent js off child).size ≤ parent.size := by
  intro js
  induction js with
  | nil => exact fun _ _ h => h
  | cons j js ih =>
    intro off child h
    simp only [copySwapLoop]
    split
    · cases hread : parent.readi (off % 2 ^ 32).toNat (pgSize / 2) with
      | none => exact ih _ _ h
      | some r =>
        obtain ⟨count, bytes⟩ := r
        refine ih _ _ ?_
        have hsize := child.filewrite_size bytes (off % 2 ^ 32).toNat count
        simp only [SwapFile.readi] at hread
        split at hread
        · simp at hread
        · simp only [Option.some.injEq, Prod.mk.injEq] at hread
          obtain ⟨rfl, -⟩ := hread
          omega
    · exact ih _ _ h

/-- The record `allocproc` hands out. -/
def freshProc (k : Kernel) (np : Slot) (stack : Frame) : Proc :=
  ({ k.proc np with
    state := .EMBRYO, pid := k.nextpid, kstack := some stack, timer := 0, pageFault := 0,
    swapFile := if k.nextpid > 2 then some .empty else (k.proc np).swapFile } : Proc).clearMetaData

theorem allocproc_some (h : k.allocproc = (some np, k')) :
    (k.proc np).state = .UNUSED ∧ ∃ stack rest, k.freelist = stack :: rest ∧
      k' = { k with freelist := rest, nextpid := k.nextpid + 1 }.setProc np
        (k.freshProc np stack) := by
  unfold allocproc at h
  cases hslot : k.unusedSlot with
  | none => simp [hslot] at h
  | some np' =>
    have hunused : (k.proc np').state = .UNUSED := by simpa using Scan.first_spec hslot
    cases hfree : k.freelist with
    | nil => simp [hslot, kalloc, hfree] at h
    | cons stack rest =>
      simp only [hslot, kalloc, setProc_freelist, hfree, Prod.mk.injEq, Option.some.injEq] at h
      obtain ⟨rfl, rfl⟩ := h
      refine ⟨hunused, stack, rest, rfl, ?_⟩
      by_cases hpid : k.nextpid > 2
      · simp [createSwapFile, setSwapFile, freshProc, hpid, Proc.clearMetaData, setProc]
      · simp [freshProc, hpid, Proc.clearMetaData, setProc]

/-- One page of a successful `copyuvm`. -/
inductive Copied (pgdir d : Frame) (n : Nat) (k : Kernel) : Kernel → Prop
  | paged (hPG : hasFlag (k.pte pgdir n) .PG = true) (htable : k.hasTable d n = true) :
      Copied pgdir d n k (k.setPte d n (pageOutPte (k.pte d n)))
  | resident {mem : Frame} {k' : Kernel} (hPG : hasFlag (k.pte pgdir n) .PG = false)
      (hP : hasFlag (k.pte pgdir n) .P = true)
      (hmap : Mapped k d n (pteFlags (k.pte pgdir n)) (k.mem (pteAddr (k.pte pgdir n))) mem k') :
      Copied pgdir d n k k'

theorem copyPage_ok (hn : n < userPages)
    (h : k.copyPage cfg pgdir d (n * pgSize) = .ok (k', true)) : Copied pgdir d n k k' := by
  unfold copyPage at h
  cases hw : k.walkpgdir pgdir (n * pgSize) with
  | none => simp [hw] at h
  | some p =>
    obtain ⟨-, hp⟩ := walkpgdir_eq_some.mp hw
    rw [vpn_mul hn] at hp
    subst hp
    simp only [hw] at h
    cases hPG : hasFlag (k.pte pgdir n) .PG with
    | true =>
      simp only [hPG, if_true] at h
      cases hw' : k.walkpgdir d (n * pgSize) with
      | none => simp [hw'] at h
      | some q =>
        obtain ⟨htable, hq⟩ := walkpgdir_eq_some.mp hw'
        rw [vpn_mul hn] at htable hq
        subst hq
        simp only [hw', vpn_mul hn, Except.ok.injEq, Prod.mk.injEq, and_true] at h
        subst h
        exact .paged hPG htable
    | false =>
      cases hP : hasFlag (k.pte pgdir n) .P with
      | false => simp [hPG, hP] at h
      | true =>
        simp only [hPG, hP, Bool.false_eq_true, if_false, Bool.not_true] at h
        cases hfree : k.freelist with
        | nil => simp [kalloc, hfree] at h
        | cons mem rest =>
          simp only [kalloc, hfree, bind_eq_ok] at h
          obtain ⟨mapped, hmap, h⟩ := h
          cases mapped with
          | none =>
            simp only [bind_eq_ok] at h
            obtain ⟨_, _, h⟩ := h
            simp at h
          | some k₁ =>
            obtain rfl : k₁ = k' := by simpa using h
            obtain ⟨k₂, hready, habsent, rfl⟩ := mappages_some hmap
            rw [← vpn_div, vpn_mul hn] at hready
            rw [vpn_mul hn] at habsent ⊢
            exact .resident hPG hP (.intro hfree hready habsent)

private theorem copyLoop_ok {sz : Nat} (hsz : sz ≤ kernBase) :
    ∀ (fuel n : Nat) (k k' : Kernel), pages sz ≤ n + fuel → n ≤ pages sz →
      copyLoop cfg pgdir d sz fuel (n * pgSize) k = .ok (k', true) →
      RangeRun (Copied pgdir d) (pages sz) n k k' := by
  intro fuel
  induction fuel with
  | zero =>
    intro n k k' hfuel _ h
    obtain rfl : k = k' := by simpa [copyLoop] using h
    exact .done (by omega)
  | succ fuel ih =>
    intro n k k' hfuel hn h
    simp only [copyLoop] at h
    by_cases hlt : n * pgSize < sz
    · have hpage : n < pages sz := lt_pages.mpr hlt
      have huser := lt_of_lt_of_le hpage (pages_le_userPages hsz)
      rw [if_pos hlt] at h
      simp only [bind_eq_ok] at h
      obtain ⟨⟨k₁, ok⟩, hcopy, h⟩ := h
      cases ok with
      | false => simp at h
      | true =>
        simp only [if_true] at h
        rw [show n * pgSize + pgSize = (n + 1) * pgSize by rw [Nat.add_mul, Nat.one_mul]] at h
        exact .next hpage (copyPage_ok huser hcopy) (ih _ _ _ (by omega) (by omega) h)
    · rw [if_neg hlt] at h
      obtain rfl : k = k' := by simpa using h
      have := mt lt_pages.mp hlt
      exact .done (by omega)

/-- The directory `setupkvm` starts from. -/
def newDir (k : Kernel) (d : Frame) (rest : List Frame) : Kernel :=
  { k with
    freelist := rest
    dirs := update k.dirs d { pde := fun _ => none, pte := fun _ => 0 } }

/-- Page tables added to `d` one after the other. -/
theorem kmapLoop_keeps {I : Kernel → Prop}
    (hstep : ∀ i k k', I k → TableReady k d i k' → I k') :
    ∀ (is : List Nat) (k k' : Kernel), I k → kmapLoop d is k = (k', true) → I k' := by
  intro is
  induction is with
  | nil =>
    intro k k' hI h
    obtain rfl : k = k' := by simpa [kmapLoop] using h
    exact hI
  | cons i is ih =>
    intro k k' hI h
    simp only [kmapLoop] at h
    cases hw : k.walkpgdirAlloc d (pgAddr i) with
    | none => simp [hw] at h
    | some k₁ =>
      simp only [hw] at h
      exact ih k₁ k' (hstep _ _ _ hI (walkpgdirAlloc_some hw)) h

theorem copyuvm_some {sz : Nat} (hsz : sz ≤ kernBase)
    (h : k.copyuvm cfg c pgdir sz = .ok (some d, k')) :
    ∃ rest k₁, k.freelist = d :: rest ∧ kmapLoop d kmapEntries (k.newDir d rest) = (k₁, true) ∧
      RangeRun (Copied pgdir d) (pages sz) 0 k₁ k' := by
  simp only [copyuvm, bind_eq_ok] at h
  obtain ⟨⟨r, k₁⟩, hsetup, h⟩ := h
  cases r with
  | none => simp at h
  | some d' =>
    simp only [bind_eq_ok] at h
    obtain ⟨⟨k₂, ok⟩, hloop, h⟩ := h
    cases ok with
    | false =>
      simp only [Bool.false_eq_true, if_false, bind_eq_ok] at h
      obtain ⟨_, _, h⟩ := h
      simp at h
    | true =>
      obtain ⟨rfl, rfl⟩ : d' = d ∧ k₂ = k' := by simpa using h
      unfold setupkvm at hsetup
      cases hfree : k.freelist with
      | nil => simp [kalloc, hfree] at hsetup
      | cons d₀ rest =>
        simp only [kalloc, hfree] at hsetup
        cases hmap : kmapLoop d₀ kmapEntries (k.newDir d₀ rest) with
        | mk k₃ okm =>
          have hmap' : kmapLoop d₀ kmapEntries { k with
              freelist := rest
              dirs := update k.dirs d₀ { pde := fun _ => none, pte := fun _ => 0 } } =
              (k₃, okm) := hmap
          rw [hmap'] at hsetup
          cases okm with
          | false =>
            simp only [bind_eq_ok] at hsetup
            obtain ⟨_, _, hsetup⟩ := hsetup
            simp at hsetup
          | true =>
            obtain ⟨rfl, rfl⟩ : d₀ = d' ∧ k₃ = k₁ := by simpa using hsetup
            have hfuel : pages sz ≤ 0 + (sz / pgSize + 1) := by
              simp only [pages, pgSize]
              omega
            have hrun := copyLoop_ok hsz _ 0 k₃ k₂ hfuel (Nat.zero_le _) (by simpa using hloop)
            exact ⟨rest, k₃, rfl, hmap, hrun⟩

private theorem Copied.proc (h : Copied pgdir d n k k') : k'.proc = k.proc := by
  cases h with
  | paged hPG htable => rfl
  | resident hPG hP hmap => exact hmap.proc

theorem copyuvm_proc {sz : Nat} (hsz : sz ≤ kernBase)
    (h : k.copyuvm cfg c pgdir sz = .ok (some d, k')) :
    k'.proc = k.proc ∧ k'.nextpid = k.nextpid := by
  obtain ⟨rest, k₁, -, hkmap, hrun⟩ := copyuvm_some hsz h
  have h₁ : k₁.proc = k.proc ∧ k₁.nextpid = k.nextpid :=
    kmapLoop_keeps (I := fun k₁ => k₁.proc = k.proc ∧ k₁.nextpid = k.nextpid)
      (fun i s s' hI ht => ⟨ht.proc.trans hI.1, ht.nextpid.trans hI.2⟩) _ (k.newDir d rest) _
      ⟨rfl, rfl⟩ hkmap
  refine hrun.keeps_const (I := fun k₂ => k₂.proc = k.proc ∧ k₂.nextpid = k.nextpid) ?_ h₁
  intro n s s' _ _ hI hc
  refine ⟨hc.proc.trans hI.1, ?_⟩
  cases hc with
  | paged _ _ => exact hI.2
  | resident _ _ hmap =>
    cases hmap with
    | intro hfree htable habsent => exact htable.nextpid.trans hI.2

/-- The child's record when `fork` returns. -/
def forkedProc (k : Kernel) (c : Slot) (d : Frame) (p : Proc) (f : Option SwapFile) : Proc :=
  { p with
    pgdir := d, sz := (k.proc c).sz, timer := (k.proc c).timer, pageFault := 0, swapFile := f
    pagesInDisc := fun i => { (k.proc c).pagesInDisc i with pageDirectory := d }
    pagesInPhysicalMemory := fun i =>
      { (k.proc c).pagesInPhysicalMemory i with pageDirectory := d }
    state := .RUNNABLE }

theorem fork_parts (hc : (k.proc c).state ≠ .UNUSED) (h : k.fork cfg c = .ok (k', some np)) :
    np ≠ c ∧ ∃ k₁ k₂ k₃ d, k.allocproc = (some np, k₁) ∧ k₁.proc c = k.proc c ∧
      k₁.copyuvm cfg c (k.proc c).pgdir (k.proc c).sz = .ok (some d, k₂) ∧
      (k₂.setProc np { k₂.proc np with
        pgdir := d, sz := (k₂.proc c).sz, timer := (k₂.proc c).timer, pageFault := 0 }).copySwapFile c np = .ok k₃ ∧
      k' = k₃.setProc np { k₃.proc np with
        pagesInDisc := fun i => { (k₃.proc c).pagesInDisc i with pageDirectory := d }
        pagesInPhysicalMemory := fun i => { (k₃.proc c).pagesInPhysicalMemory i with pageDirectory := d }
        state := .RUNNABLE } := by
  unfold fork at h
  cases halloc : k.allocproc with
  | mk r k₁ =>
    cases r with
    | none => simp [halloc] at h
    | some np' =>
      obtain ⟨hunused, stack, rest, hfree, hk₁⟩ := allocproc_some halloc
      have hne : np' ≠ c := by
        rintro rfl
        exact hc hunused
      have hparent : k₁.proc c = k.proc c := by
        rw [hk₁, setProc_proc_of_ne (Ne.symm hne)]
      simp only [halloc, bind_eq_ok, hparent] at h
      obtain ⟨⟨r, k₂⟩, hcopy, h⟩ := h
      cases r with
      | none =>
        simp only at h
        cases hstack : (k₂.proc np').kstack with
        | none =>
          simp only [hstack, bind_eq_ok] at h
          obtain ⟨_, _, h⟩ := h
          simp at h
        | some stack =>
          simp only [hstack, bind_eq_ok] at h
          obtain ⟨_, _, h⟩ := h
          simp at h
      | some d =>
        simp only [bind_eq_ok] at h
        obtain ⟨k₃, hswap, h⟩ := h
        obtain ⟨hk', rfl⟩ : _ = k' ∧ np' = np := by simpa using h
        exact ⟨hne, k₁, k₂, k₃, d, rfl, hparent, hcopy, hswap, hk'.symm⟩

private theorem fork_some (hpid : 2 < (k.proc c).pid) (hc : (k.proc c).state ≠ .UNUSED)
    (hsz : (k.proc c).sz ≤ kernBase) (h : k.fork cfg c = .ok (k', some np)) :
    np ≠ c ∧ ∃ k₁ k₂ d parent child, k.allocproc = (some np, k₁) ∧
      k₁.copyuvm cfg c (k.proc c).pgdir (k.proc c).sz = .ok (some d, k₂) ∧
      (k.proc c).swapFile = some parent ∧ (k₁.proc np).swapFile = some child ∧
      k' = k₂.setProc np (k.forkedProc c d (k₁.proc np) (some (copySwapLoop
        (k.proc c).pagesInDisc parent (List.finRange discPages) 0 child))) := by
  obtain ⟨hne, k₁, k₂, k₃, d, halloc, hparent, hcopy, hswap, hk'⟩ := fork_parts hc h
  have hproc₂ := (copyuvm_proc hsz hcopy).1
  have hpar₂ : k₂.proc c = k.proc c := by rw [hproc₂, hparent]
  have hchild₂ : k₂.proc np = k₁.proc np := by rw [hproc₂]
  unfold copySwapFile at hswap
  simp only [setProc_proc_self, setProc_proc_of_ne (Ne.symm hne), hpar₂, hchild₂,
    gt_iff_lt, hpid, if_true] at hswap
  cases hp : (k.proc c).swapFile with
  | none => simp [hp] at hswap
  | some parent =>
    cases hch : (k₁.proc np).swapFile with
    | none => simp [hp, hch] at hswap
    | some child =>
      simp only [hp, hch, Except.ok.injEq] at hswap
      refine ⟨hne, k₁, k₂, d, parent, child, halloc, hcopy, rfl, hch, ?_⟩
      rw [hk', ← hswap]
      simp only [setSwapFile, setProc_setProc, setProc_proc_self,
        setProc_proc_of_ne (Ne.symm hne), hpar₂]
      rfl

section Copying

/-- `d` joins the live directories. -/
def withDir (L : Frame → Prop) (d : Frame) : Frame → Prop := fun d' => L d' ∨ d' = d

/-- Entry `q` of the child against entry `p` of the parent. -/
structure CopyOf (p q : PTE) : Prop where
  paged : hasFlag p .PG = true → q = ptePG
  resident : hasFlag p .PG = false → hasFlag p .P = true ∧ ∀ f, hasFlag q f = hasFlag p f

/-- The state of `copyuvm` before page `n`, from the kernel `k₀` it started in. -/
structure Copying (cfg : Config) (X L : Frame → Prop) (pgdir d : Frame) (k₀ : Kernel) (n : Nat)
    (k : Kernel) : Prop where
  frames : FramesSound cfg X (withDir L d) k
  other : ∀ d', d' ≠ d → k.pte d' = k₀.pte d'
  done : ∀ n' < n, CopyOf (k₀.pte pgdir n') (k.pte d n')
  todo : ∀ n', n ≤ n' → k.pte d n' = 0
  taken : ∀ fr ∈ k.freelist, fr ∈ k₀.freelist
  mem : ∀ fr, fr ∉ k₀.freelist → k.mem fr = k₀.mem fr
  copied : ∀ n' < n, hasFlag (k₀.pte pgdir n') .PG = false →
    k.mem (pteAddr (k.pte d n')) = k₀.mem (pteAddr (k₀.pte pgdir n'))

private theorem FramesSound.newDir (h : FramesSound cfg X L k) {rest : List Frame}
    (hfree : k.freelist = d :: rest) : ¬ L d ∧ FramesSound cfg X (withDir L d) (k.newDir d rest) := by
  obtain ⟨htaken, hidle⟩ := h.take { k with freelist := rest } hfree rfl rfl
  have hd : ¬ L d := by
    intro hd
    exact hidle.not_held (.dir d) (by simp [Kernel.ledger, held, hd])
  have hheld : (k.newDir d rest).held X (withDir L d) = update (k.held X L) (.dir d) (some d) := by
    funext o
    cases o with
    | dir d' =>
      by_cases he : d' = d
      · subst he
        simp [held, withDir]
      · by_cases hL : L d' <;> simp [held, withDir, he, hL]
    | table d' i =>
      by_cases he : d' = d
      · subst he
        simp [held, withDir, Kernel.newDir, hd]
      · by_cases hL : L d' <;> simp [held, withDir, Kernel.newDir, he, hL]
    | page d' n =>
      by_cases he : d' = d
      · subst he
        simp [held, withDir, Kernel.newDir, hd, Kernel.pte, PageDir.entry, frameOf_absent]
      · by_cases hL : L d' <;> simp [held, withDir, Kernel.newDir, he, hL, Kernel.pte]
  refine ⟨hd, ⟨?_, htaken.valid_free, ?_, h.counted⟩⟩
  · have hgrant := htaken.ledger.grant (o := Owner.dir d) hidle
    have heq : (k.newDir d rest).ledger X (withDir L d) =
        { free := rest, held := update (k.held X L) (.dir d) (some d) } := by
      simp only [Kernel.ledger, hheld]
      rfl
    rw [heq]
    exact hgrant
  · intro o fr ho
    rw [hheld] at ho
    by_cases he : o = .dir d
    · subst he
      obtain rfl : d = fr := by simpa using ho
      exact h.valid_free d (by simp [hfree])
    · rw [update_of_ne he] at ho
      exact h.valid_held o fr ho

variable {k₀ : Kernel}

private theorem pageOutPte_zero : pageOutPte 0 = ptePG := by decide

/-- One page copied. -/
theorem Copying.step (h : Copying cfg X L pgdir d k₀ n k) (h₀ : FramesSound cfg X L k₀)
    (hd : ¬ L d) (hpgdir : L pgdir) (hn : n < userPages) (hc : Copied pgdir d n k k') :
    Copying cfg X L pgdir d k₀ (n + 1) k' := by
  have hne : pgdir ≠ d := by
    rintro rfl
    exact hd hpgdir
  have hself : k.pte pgdir n = k₀.pte pgdir n := by rw [h.other pgdir hne]
  have hzero : k.pte d n = 0 := h.todo n (le_refl _)
  cases hc with
  | paged hPG htable =>
    rw [hself] at hPG
    have hpte := setPte_pte_eq (v := pageOutPte (k.pte d n)) htable
    rw [hzero, pageOutPte_zero] at hpte ⊢
    refine ⟨?_, ?_, ?_, ?_, h.taken, h.mem, ?_⟩
    · refine h.frames.congr rfl ?_
      rw [held_setEntry (Or.inr rfl) hn hpte fun _ => setPte_pde,
        frameOf_absent (by decide : hasFlag ptePG .P = false)]
      have hnone : k.held X (withDir L d) (.page d n) = none := by
        simp only [held, hzero, frameOf_zero, ite_self]
      rw [← hnone, Function.update_eq_self]
    · intro d' hd'
      rw [hpte, ← h.other d' hd']
      funext n'
      exact setEntry_of_ne fun hdd => absurd hdd hd'
    · intro n' hn'
      rw [hpte]
      by_cases he : n' = n
      · subst he
        rw [setEntry_self]
        exact ⟨fun _ => rfl, fun hno => by simp [hno] at hPG⟩
      · rw [setEntry_of_ne fun _ => he]
        exact h.done n' (by omega)
    · intro n' hn'
      rw [hpte, setEntry_of_ne fun _ => by omega]
      exact h.todo n' (by omega)
    · intro n' hn' hno
      have he : n' ≠ n := by
        rintro rfl
        simp [hno] at hPG
      rw [hpte, setEntry_of_ne fun _ => he]
      exact h.copied n' (by omega) hno
  | @resident mem _ hPG hP hmap =>
    rw [hself] at hPG hP hmap
    have hpte := hmap.pte
    have hmemEq := hmap.mem_eq
    obtain ⟨rest, hfree⟩ := hmap.free
    have hvalid := h.frames.valid_free mem (by simp [hfree])
    refine ⟨h.frames.mapped (Or.inr rfl) hn (pteAddr_pteFlags _) hmap, ?_, ?_, ?_,
      fun fr hfr => h.taken fr (hmap.free_subset fr hfr), ?_, ?_⟩
    · intro d' hd'
      rw [hpte, ← h.other d' hd']
      funext n'
      exact setEntry_of_ne fun hdd => absurd hdd hd'
    · intro n' hn'
      rw [hpte]
      by_cases he : n' = n
      · subst he
        rw [setEntry_self]
        exact ⟨fun hyes => by simp [hyes] at hPG,
          fun _ => ⟨hP, hasFlag_mapPte_flags _ hvalid.aligned hP⟩⟩
      · rw [setEntry_of_ne fun _ => he]
        exact h.done n' (by omega)
    · intro n' hn'
      rw [hpte, setEntry_of_ne fun _ => by omega]
      exact h.todo n' (by omega)
    · intro fr hfr
      have hne : fr ≠ mem := by
        rintro rfl
        exact hfr (h.taken fr (by simp [hfree]))
      rw [hmemEq, update_of_ne hne]
      exact h.mem fr hfr
    · intro n' hn' hno
      rw [hpte, hmemEq]
      by_cases he : n' = n
      · subst he
        rw [setEntry_self, pteAddr_mapPte hvalid.aligned (pteAddr_pteFlags _), update_self]
        exact h.mem _ (h₀.page_not_free hpgdir hn hP)
      · rw [setEntry_of_ne fun _ => he]
        obtain ⟨hP₀, hflags⟩ := (h.done n' (by omega)).resident hno
        have hP' : hasFlag (k.pte d n') .P = true := by rw [hflags, hP₀]
        have hne : pteAddr (k.pte d n') ≠ mem := by
          intro he
          exact h.frames.page_not_free (Or.inr rfl) (by omega) hP' (by simp [he, hfree])
        rw [update_of_ne hne]
        exact h.copied n' (by omega) hno

theorem FramesSound.copying (h : FramesSound cfg X L k) {rest : List Frame}
    (hfree : k.freelist = d :: rest) (hkmap : kmapLoop d kmapEntries (k.newDir d rest) = (k₁, true)) :
    ¬ L d ∧ Copying cfg X L pgdir d k 0 k₁ := by
  obtain ⟨hd, hframes⟩ := h.newDir hfree
  refine ⟨hd, ?_⟩
  have hnewPte : ∀ d', d' ≠ d → (k.newDir d rest).pte d' = k.pte d' := by
    intro d' hd'
    funext n
    simp [Kernel.pte, Kernel.newDir, hd']
  have hzero : ∀ n, (k.newDir d rest).pte d n = 0 := by
    intro n
    simp [Kernel.pte, Kernel.newDir, PageDir.entry]
  have h₁ : FramesSound cfg X (withDir L d) k₁ ∧ k₁.pte = (k.newDir d rest).pte ∧ k₁.mem = k.mem ∧
      ∀ fr ∈ k₁.freelist, fr ∈ k.freelist := by
    refine kmapLoop_keeps (I := fun k₁ => FramesSound cfg X (withDir L d) k₁ ∧
      k₁.pte = (k.newDir d rest).pte ∧ k₁.mem = k.mem ∧ ∀ fr ∈ k₁.freelist, fr ∈ k.freelist)
      ?_ _ (k.newDir d rest) _ ⟨hframes, rfl, rfl, ?_⟩ hkmap
    · rintro i s s' ⟨hf, hp, hm, htaken⟩ ht
      exact ⟨(hf.tableReady (Or.inr rfl) ht).1, ht.pte.trans hp, ht.mem.trans hm,
        fun fr hfr => htaken fr (ht.free_subset fr hfr)⟩
    · intro fr hfr
      rw [hfree]
      exact List.mem_cons_of_mem _ hfr
  obtain ⟨hf₁, hp₁, hm₁, htaken₁⟩ := h₁
  refine ⟨hf₁, ?_, by omega, ?_, htaken₁, ?_, by omega⟩
  · intro d' hd'
    rw [hp₁, hnewPte d' hd']
  · intro n _
    rw [hp₁, hzero]
  · intro _ _
    rw [hm₁]

private theorem copyuvm_copying
    (h : FramesSound cfg X L k) (hpgdir : L pgdir) {sz : Nat} (hsz : sz ≤ kernBase)
    (hc : k.copyuvm cfg c pgdir sz = .ok (some d, k')) :
    ¬ L d ∧ Copying cfg X L pgdir d k (pages sz) k' := by
  obtain ⟨rest, k₁, hfree, hkmap, hrun⟩ := copyuvm_some hsz hc
  obtain ⟨hd, hstart⟩ := h.copying hfree hkmap
  have hend := hrun.keeps (I := fun n k₁ => Copying cfg X L pgdir d k n k₁)
    (fun n s s' _ hn hI hcopy => hI.step h hd hpgdir
      (lt_of_lt_of_le hn (pages_le_userPages hsz)) hcopy) hstart
  rw [Nat.zero_max] at hend
  exact ⟨hd, hend⟩

private theorem Image.forked {s s' : Space} {m hi : Nat} (h : s.Image pgdir m hi)
    (hcopy : ∀ n < hi, CopyOf (s.pte pgdir n) (s'.pte d n)) (htodo : ∀ n, hi ≤ n → s'.pte d n = 0)
    (hram : s'.ram = fun i => { s.ram i with pageDirectory := d })
    (hdisc : s'.disc = fun j => { s.disc j with pageDirectory := d })
    (hswap : ∀ f, s.swap = some f → ∃ f', s'.swap = some f' ∧ f'.size ≤ f.size) :
    s'.Image d m hi := by
  have hpaged : ∀ n, n < userPages → hasFlag (s'.pte d n) .PG = true →
      hasFlag (s.pte pgdir n) .PG = true ∧ s'.pte d n = ptePG := by
    intro n hn hPG
    by_cases hlt : n < hi
    · cases hp : hasFlag (s.pte pgdir n) .PG with
      | true => exact ⟨rfl, (hcopy n hlt).paged hp⟩
      | false => rw [((hcopy n hlt).resident hp).2, hp] at hPG; simp at hPG
    · rw [htodo n (by omega)] at hPG
      simp at hPG
  have hnames : ∀ i n, (s'.ram i).isUsed = true → Names (s'.ram i) d n →
      (s.ram i).isUsed = true ∧ Names (s.ram i) pgdir n := by
    intro i n hused hn
    rw [hram] at hused hn
    obtain ⟨_, _, _, hdir, _, _⟩ := h.sound.pageAt (i := i) hused
    exact ⟨hused, hdir, hn.addr⟩
  refine ⟨⟨?_, ?_, ?_⟩, ⟨h.fence.le, ?_, ?_, ?_, ?_⟩, ?_⟩
  · intro i hused
    rw [hram] at hused ⊢
    obtain ⟨n, hn, haddr, hdir, -, hP⟩ := h.sound.pageAt (i := i) hused
    rw [hdir] at hP
    have hlt : n < hi := by
      by_contra hge
      rw [(h.beyond n (by omega) hn).1] at hP
      simp at hP
    refine ⟨d, n, rfl, hn, ⟨rfl, haddr⟩, ?_⟩
    rw [((hcopy n hlt).resident (h.sound.not_paged rfl hn hP)).2, hP]
  · intro i i' d' n hused hused' hn hn'
    obtain rfl : d = d' := by
      rw [hram] at hn
      exact hn.dir
    obtain ⟨hu, hna⟩ := hnames i n hused hn
    obtain ⟨hu', hna'⟩ := hnames i' n hused' hn'
    exact h.sound.inj i i' pgdir n hu hu' hna hna'
  · rintro d' n rfl hn hPG
    rw [(hpaged n hn hPG).2]
    exact ⟨by decide, by decide⟩
  · intro j hj
    rw [hdisc]
    exact h.fence.blocked j hj
  · obtain ⟨f, hf, hsize⟩ := h.fence.file
    obtain ⟨f', hf', hle⟩ := hswap f hf
    exact ⟨f', hf', le_trans hle hsize⟩
  · intro j _ _
    rw [hdisc]
  · intro n hn hPG
    obtain ⟨j, hj, hused, hna⟩ := h.fence.paged n hn (hpaged n hn hPG).1
    rw [hdisc]
    exact ⟨j, hj, hused, rfl, hna.addr⟩
  · intro n hn _
    rw [Space.Unmapped, htodo n hn]
    simp

/-- A successful fork: the parent is as it was, and the child's record holds its copies. -/
structure Forked (cfg : Config) (X : Frame → Prop) (c np : Slot) (d : Frame) (k k' : Kernel) : Prop where
  ne : np ≠ c
  unused : (k.proc np).state = .UNUSED
  fresh : ¬ k.Live d
  frames : FramesSound cfg X (withDir k.Live d) k'
  other : ∀ c', c' ≠ np → k'.proc c' = k.proc c'
  pte : ∀ d', d' ≠ d → k'.pte d' = k.pte d'
  done : ∀ n < pages (k.proc c).sz, CopyOf (k.pte (k.proc c).pgdir n) (k'.pte d n)
  todo : ∀ n, pages (k.proc c).sz ≤ n → k'.pte d n = 0
  mem : ∀ fr, fr ∉ k.freelist → k'.mem fr = k.mem fr
  copied : ∀ n < pages (k.proc c).sz, hasFlag (k.pte (k.proc c).pgdir n) .PG = false →
    k'.mem (pteAddr (k'.pte d n)) = k.mem (pteAddr (k.pte (k.proc c).pgdir n))
  child : ∃ p parent, (k.proc c).swapFile = some parent ∧ p.pid = k.nextpid ∧
    k'.proc np = k.forkedProc c d p (some (copySwapLoop (k.proc c).pagesInDisc parent
      (List.finRange discPages) 0 .empty))
  nextpid : k'.nextpid = k.nextpid + 1

theorem Consistent.forked (h : Consistent cfg X k) (hc : k.Active c)
    (hf : k.fork cfg c = .ok (k', some np)) : ∃ d, Forked cfg X c np d k k' := by
  obtain ⟨hsz, -⟩ := h.image c hc
  obtain ⟨hne, k₁, k₂, d, parent, child, halloc, hcopy, hparent, hchild, rfl⟩ :=
    fork_some hc.pid hc.unused (le_of_lt hsz) hf
  obtain ⟨hunused, stack, rest, hfree, rfl⟩ := allocproc_some halloc
  have hframes₁ : FramesSound cfg X k.Live ({ k with
      freelist := rest, nextpid := k.nextpid + 1 }.setProc np (k.freshProc np stack)) :=
    (h.frames.take ({ k with freelist := rest, nextpid := k.nextpid + 1 }.setProc np
      (k.freshProc np stack)) hfree rfl rfl).1
  obtain ⟨hproc₂, hnext₂⟩ := copyuvm_proc (le_of_lt hsz) hcopy
  obtain ⟨hd, hcopying⟩ := copyuvm_copying hframes₁ hc.live (le_of_lt hsz) hcopy
  obtain rfl : SwapFile.empty = child := by
    simpa [freshProc, h.nextpid, Proc.clearMetaData] using hchild
  refine ⟨d, hne, hunused, hd, hcopying.frames.of_eq rfl rfl, ?_, hcopying.other, hcopying.done,
    hcopying.todo, ?_, hcopying.copied, ⟨k.freshProc np stack, parent, hparent, rfl, ?_⟩,
    hnext₂⟩
  · intro c' hc'
    rw [setProc_proc_of_ne hc', hproc₂, setProc_proc_of_ne hc']
  · intro fr hfr
    refine hcopying.mem fr ?_
    rw [hfree] at hfr
    exact fun hmem => hfr (List.mem_cons_of_mem _ hmem)
  · simp

theorem Forked.image (hk : Forked cfg X c np d k k') {m : Nat}
    (h : (k.space c).Image (k.proc c).pgdir m (pages (k.proc c).sz)) :
    (k'.space np).Image d m (pages (k.proc c).sz) := by
  obtain ⟨p, parent, hparent, -, hchild⟩ := hk.child
  refine Image.forked h hk.done hk.todo (by simp [space, hchild, forkedProc])
    (by simp [space, hchild, forkedProc]) ?_
  intro f hf
  obtain rfl : parent = f := by
    rw [show (k.space c).swap = some parent from hparent] at hf
    exact Option.some.inj hf
  refine ⟨copySwapLoop (k.proc c).pagesInDisc parent (List.finRange discPages) 0 .empty, ?_,
    copySwapLoop_size _ _ _ _ _ (Nat.zero_le _)⟩
  simp [space, hchild, forkedProc]

/-- Parent, child and all others run sound images after a successful fork. -/
theorem Consistent.fork (h : Consistent cfg X k) (hc : k.Active c)
    (hf : k.fork cfg c = .ok (k', some np)) : Consistent cfg X k' := by
  obtain ⟨d, hk⟩ := h.forked hc hf
  obtain ⟨p, parent, hparent, hpid, hchild⟩ := hk.child
  have hdne : ∀ c', k.InUse c' → (k.proc c').pgdir ≠ d := by
    intro c' hc' he
    exact hk.fresh ⟨c', hc', he⟩
  have hinUse : ∀ c', k'.InUse c' ↔ c' = np ∨ k.InUse c' := by
    intro c'
    by_cases he : c' = np
    · subst he
      simp [InUse, hchild, forkedProc]
    · simp [InUse, hk.other c' he, he]
  have hnp : ∀ c', k.InUse c' → c' ≠ np := by
    rintro c' hc' rfl
    exact hc'.1 hk.unused
  have hlive : k'.Live = withDir k.Live d := by
    funext d'
    apply propext
    constructor
    · rintro ⟨c', hc', rfl⟩
      rcases (hinUse c').mp hc' with rfl | hc'
      · exact .inr (by simp [hchild, forkedProc])
      · exact .inl ⟨c', hc', by rw [hk.other c' (hnp c' hc')]⟩
    · rintro (⟨c', hc', rfl⟩ | rfl)
      · exact ⟨c', (hinUse c').mpr (.inr hc'), by rw [hk.other c' (hnp c' hc')]⟩
      · exact ⟨np, (hinUse np).mpr (.inl rfl), by simp [hchild, forkedProc]⟩
  have hkeep : ∀ c', k.InUse c' → ∀ n,
      (k'.space c').pte (k.proc c').pgdir n = (k.space c').pte (k.proc c').pgdir n := by
    intro c' hc' n
    simp only [space, hk.pte _ (hdne c' hc')]
  refine ⟨by rw [hlive]; exact hk.frames, ?_, ?_, ?_, ?_⟩
  · intro c₁ c₂ h₁ h₂ heq
    have hdir : ∀ c', k'.InUse c' → c' ≠ np → k.InUse c' ∧ (k'.proc c').pgdir = (k.proc c').pgdir := by
      intro c' hc' he
      exact ⟨((hinUse c').mp hc').resolve_left he, by rw [hk.other c' he]⟩
    have hdnp : (k'.proc np).pgdir = d := by simp [hchild, forkedProc]
    by_cases he₁ : c₁ = np <;> by_cases he₂ : c₂ = np
    · rw [he₁, he₂]
    · obtain ⟨hu, hp⟩ := hdir c₂ h₂ he₂
      rw [he₁, hdnp, hp] at heq
      exact absurd heq.symm (hdne c₂ hu)
    · obtain ⟨hu, hp⟩ := hdir c₁ h₁ he₁
      rw [he₂, hdnp, hp] at heq
      exact absurd heq (hdne c₁ hu)
    · obtain ⟨hu₁, hp₁⟩ := hdir c₁ h₁ he₁
      obtain ⟨hu₂, hp₂⟩ := hdir c₂ h₂ he₂
      rw [hp₁, hp₂] at heq
      exact h.pgdir_inj c₁ c₂ hu₁ hu₂ heq
  · intro c' hc'
    by_cases he : c' = np
    · subst he
      obtain ⟨hsz, m, himage⟩ := h.image c hc
      have hpg : (k'.proc c').pgdir = d := by simp [hchild, forkedProc]
      have hs : (k'.proc c').sz = (k.proc c).sz := by simp [hchild, forkedProc]
      rw [hpg, hs]
      exact ⟨hsz, m, hk.image himage⟩
    · obtain ⟨h1, h2, h3, h4⟩ := hc'
      have hsame := hk.other c' he
      rw [hsame] at h1 h2 h3 h4 ⊢
      obtain ⟨hsz, m, himage⟩ := h.image c' ⟨h1, h2, h3, h4⟩
      exact ⟨hsz, m, himage.congr (hkeep c' ⟨h2, h3⟩) (by simp [space, hsame])
        (by simp [space, hsame]) (by simp [space, hsame])⟩
  · intro c' hc' hpid'
    by_cases he : c' = np
    · subst he
      obtain ⟨-, m, himage⟩ := h.image c hc
      have hpg : (k'.proc c').pgdir = d := by simp [hchild, forkedProc]
      rw [hpg]
      exact (hk.image himage).sound
    · have hu := ((hinUse c').mp hc').resolve_left he
      have hsame := hk.other c' he
      rw [hsame] at hpid' ⊢
      exact (h.sound c' hu hpid').congr (hkeep c' hu) (by simp [space, hsame])
  · rw [hk.nextpid]
    have := h.nextpid
    omega

end Copying

end Kernel

end OsSessional.Paging
