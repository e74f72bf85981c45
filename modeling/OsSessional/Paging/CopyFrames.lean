import OsSessional.Paging.Kept

/-!
# The frames of a copy

`copyuvm` takes a frame for the new directory, one for each kernel page table, one for each resident
page and one for each user page table those pages fall under. With that many frames free it does not
take its `goto bad`.
-/

namespace OsSessional.Paging

open Function (update update_self update_of_ne)
open Outcome

namespace Kernel

/-- Page `n` of `pgdir` is one that `copyuvm` copies. -/
def resident (k : Kernel) (pgdir : Frame) (n : Nat) : Bool :=
  hasFlag (k.pte pgdir (vpn (n * pgSize))) .P && !hasFlag (k.pte pgdir (vpn (n * pgSize))) .PG

/-- The pages that the loop of `copyuvm` copies from page `n` on. -/
def copied (k : Kernel) (pgdir : Frame) (sz n : Nat) : Finset Nat :=
  (Finset.range (pages sz)).filter fun i => n ≤ i ∧ k.resident pgdir i = true

/-- Frames that `copyuvm(pgdir, sz)` takes. -/
def copyFrames (k : Kernel) (pgdir : Frame) (sz : Nat) : Nat :=
  1 + kmapEntries.length + (k.copied pgdir sz 0).card +
    ((k.copied pgdir sz 0).image fun i => pdx (i * pgSize)).card

/-- The page tables of `d` that the pages from `n` on need and `d` does not have. -/
def missing (k : Kernel) (pgdir d : Frame) (sz n : Nat) : Finset Nat :=
  ((k.copied pgdir sz n).image fun i => pdx (i * pgSize)).filter fun t =>
    ((k.dirs d).pde t).isSome = false

/-- Frames that the loop of `copyuvm` takes from page `n` on. -/
def loopFrames (k : Kernel) (pgdir d : Frame) (sz n : Nat) : Nat :=
  (k.copied pgdir sz n).card + (k.missing pgdir d sz n).card

variable {cfg : Config} {k k' k₁ : Kernel} {c : Slot} {d pgdir : Frame} {sz n : Nat}

section Loop

private theorem copied_skip (h : k.resident pgdir n = false) :
    k.copied pgdir sz n = k.copied pgdir sz (n + 1) := by
  apply Finset.filter_congr
  intro i hi
  constructor
  · rintro ⟨hle, hres⟩
    refine ⟨?_, hres⟩
    rcases Nat.lt_or_ge n i with hlt | hge
    · exact hlt
    · obtain rfl : i = n := by omega
      simp [h] at hres
  · exact fun ⟨hle, hres⟩ => ⟨by omega, hres⟩

private theorem copied_insert (hn : n < pages sz) (h : k.resident pgdir n = true) :
    k.copied pgdir sz n = insert n (k.copied pgdir sz (n + 1)) := by
  ext i
  simp only [copied, Finset.mem_insert, Finset.mem_filter, Finset.mem_range]
  constructor
  · rintro ⟨hi, hle, hres⟩
    rcases Nat.lt_or_ge n i with hlt | hge
    · exact .inr ⟨hi, hlt, hres⟩
    · exact .inl (by omega)
  · rintro (rfl | ⟨hi, hle, hres⟩)
    · exact ⟨hn, le_refl _, h⟩
    · exact ⟨hi, by omega, hres⟩

private theorem copied_of_pte (hpte : k'.pte pgdir = k.pte pgdir) :
    k'.copied pgdir sz n = k.copied pgdir sz n := by
  unfold copied resident
  rw [hpte]

/-- Copying page `n` takes its frame and, for a page table that is not there, another one. -/
private theorem loopFrames_step (hn : n < pages sz) (h : k.resident pgdir n = true)
    (hpte : k'.pte pgdir = k.pte pgdir) (hself : ((k'.dirs d).pde (pdx (n * pgSize))).isSome = true)
    (hother : ∀ t, t ≠ pdx (n * pgSize) → (k'.dirs d).pde t = (k.dirs d).pde t) :
    k'.loopFrames pgdir d sz (n + 1) + 1 +
      (if ((k.dirs d).pde (pdx (n * pgSize))).isSome = true then 0 else 1) ≤
        k.loopFrames pgdir d sz n := by
  have hcard : (k.copied pgdir sz n).card = (k.copied pgdir sz (n + 1)).card + 1 := by
    rw [copied_insert hn h, Finset.card_insert_of_notMem]
    simp [copied]
  have hsub : k'.missing pgdir d sz (n + 1) ⊆ (k.missing pgdir d sz n).erase (pdx (n * pgSize)) := by
    intro t ht
    rw [missing, Finset.mem_filter, copied_of_pte hpte] at ht
    obtain ⟨himage, hnone⟩ := ht
    have hne : t ≠ pdx (n * pgSize) := by
      rintro rfl
      simp [hself] at hnone
    rw [hother t hne] at hnone
    rw [Finset.mem_erase, missing, Finset.mem_filter, copied_insert hn h, Finset.image_insert]
    exact ⟨hne, Finset.mem_insert_of_mem himage, hnone⟩
  have hle := Finset.card_le_card hsub
  unfold loopFrames
  rw [copied_of_pte hpte, hcard]
  split
  · have herase := (k.missing pgdir d sz n).card_erase_le (a := pdx (n * pgSize))
    omega
  · next hnone =>
    have hmem : pdx (n * pgSize) ∈ k.missing pgdir d sz n := by
      rw [missing, Finset.mem_filter, copied_insert hn h, Finset.image_insert]
      exact ⟨Finset.mem_insert_self _ _, by simpa using hnone⟩
    have herase := Finset.card_erase_add_one hmem
    omega

private theorem setPte_pte_other (h : pgdir ≠ d) (i : Nat) (v : PTE) :
    (k.setPte d i v).pte pgdir = k.pte pgdir := by
  funext j
  simp [Kernel.pte, setPte, h]

private theorem loopFrames_of_dirs
    (hpte : k'.pte pgdir = k.pte pgdir) (hpde : (k'.dirs d).pde = (k.dirs d).pde) :
    k'.loopFrames pgdir d sz n = k.loopFrames pgdir d sz n := by
  unfold loopFrames missing
  rw [copied_of_pte hpte, hpde]

private theorem loopFrames_skip (h : k.resident pgdir n = false) :
    k.loopFrames pgdir d sz n = k.loopFrames pgdir d sz (n + 1) := by
  unfold loopFrames missing
  rw [copied_skip h]

theorem TableReady.pde_self {i : Nat} (h : TableReady k d i k') : ((k'.dirs d).pde i).isSome = true := by
  cases h with
  | there h => exact h
  | added hfree hnone => simp [addTable]

theorem TableReady.pde_other {i t : Nat} (h : TableReady k d i k') (ht : t ≠ i) :
    (k'.dirs d).pde t = (k.dirs d).pde t := by
  cases h with
  | there h => rfl
  | added hfree hnone => simp [addTable, ht]

private theorem TableReady.length {i : Nat} (h : TableReady k d i k') :
    k'.freelist.length + (if ((k.dirs d).pde i).isSome = true then 0 else 1) = k.freelist.length := by
  cases h with
  | there h => simp [h]
  | added hfree hnone => simp [addTable, hfree, hnone]

private theorem copyResident_frames
    {v : Frame} {page : Page} {perm : PTE} {mem : Frame} {rest : List Frame}
    (hne : d ≠ pgdir) (hn : n < pages sz) (hres : k.resident pgdir n = true)
    (hfree : k.freelist = mem :: rest) (hframes : k.loopFrames pgdir d sz n ≤ k.freelist.length) :
    Ensures (fun _ => False) (fun r => ∃ k', r = some k' ∧ k'.pte pgdir = k.pte pgdir ∧
        k'.loopFrames pgdir d sz (n + 1) ≤ k'.freelist.length)
      (({ k with freelist := rest }.setMem mem page).mappages d (n * pgSize) v perm) := by
  have hlen : k.freelist.length = rest.length + 1 := by simp [hfree]
  cases hmap : ({ k with freelist := rest }.setMem mem page).mappages d (n * pgSize) v perm with
  | error e => exact .error id
  | ok r =>
    cases r with
    | none =>
      -- no frame for the page table, though one is missing
      obtain ⟨hnil, htable⟩ := mappages_none hmap
      obtain rfl : rest = [] := hnil
      rw [hasTable, vpn_div] at htable
      have hcard : 0 < (k.copied pgdir sz n).card := by
        rw [copied_insert hn hres]
        exact Finset.card_pos.mpr ⟨n, Finset.mem_insert_self _ _⟩
      have hmissing : 0 < (k.missing pgdir d sz n).card := by
        refine Finset.card_pos.mpr ⟨pdx (n * pgSize), ?_⟩
        rw [missing, Finset.mem_filter, copied_insert hn hres, Finset.image_insert]
        exact ⟨Finset.mem_insert_self _ _, htable⟩
      unfold loopFrames at hframes
      simp only [List.length_nil] at hlen
      omega
    | some k' =>
      obtain ⟨k₁, hready, -, rfl⟩ := mappages_some hmap
      have hpte : (k₁.setPte d (vpn (n * pgSize)) (mapPte v perm)).pte pgdir = k.pte pgdir := by
        rw [setPte_pte_other (Ne.symm hne), hready.pte]
        rfl
      have hself : (((k₁.setPte d (vpn (n * pgSize)) (mapPte v perm)).dirs d).pde
          (pdx (n * pgSize))).isSome = true := by simpa using hready.pde_self
      have hstep := loopFrames_step hn hres hpte hself fun t ht => by simpa using hready.pde_other ht
      have hlength : k₁.freelist.length +
          (if ((k.dirs d).pde (pdx (n * pgSize))).isSome = true then 0 else 1) = rest.length := hready.length
      refine .ok ⟨_, rfl, hpte, ?_⟩
      rw [setPte_freelist]
      omega

theorem copyPage_frames (hne : d ≠ pgdir) (hn : n < pages sz)
    (hframes : k.loopFrames pgdir d sz n ≤ k.freelist.length) :
    Ensures (fun _ => False) (fun r => r.2 = true ∧ r.1.pte pgdir = k.pte pgdir ∧
      r.1.loopFrames pgdir d sz (n + 1) ≤ r.1.freelist.length) (k.copyPage cfg pgdir d (n * pgSize)) := by
  unfold copyPage
  cases hw : k.walkpgdir pgdir (n * pgSize) with
  | none => exact .error id
  | some p =>
    obtain ⟨-, rfl⟩ := walkpgdir_eq_some.mp hw
    simp only
    cases hPG : hasFlag (k.pte pgdir (vpn (n * pgSize))) .PG with
    | true =>
      have hskip : k.resident pgdir n = false := by simp [resident, hPG]
      simp only [if_true]
      split
      · exact .error id
      · have hpte := setPte_pte_other (k := k) (Ne.symm hne) (vpn (n * pgSize))
        refine .ok ⟨rfl, hpte _, ?_⟩
        rw [loopFrames_of_dirs (hpte _) setPte_pde, ← loopFrames_skip hskip]
        exact hframes
    | false =>
      cases hP : hasFlag (k.pte pgdir (vpn (n * pgSize))) .P with
      | false => exact .error id
      | true =>
        have hres : k.resident pgdir n = true := by simp [resident, hPG, hP]
        cases hfree : k.freelist with
        | nil =>
          have hcard : 0 < (k.copied pgdir sz n).card := by
            rw [copied_insert hn hres]
            exact Finset.card_pos.mpr ⟨n, Finset.mem_insert_self _ _⟩
          unfold loopFrames at hframes
          simp only [hfree, List.length_nil] at hframes
          omega
        | cons mem rest =>
          simp only [kalloc, hfree, Bool.false_eq_true, if_false, Bool.not_true]
          refine (copyResident_frames hne hn hres hfree hframes).bind ?_
          rintro r ⟨k', rfl, hpte, hleft⟩
          exact .pure ⟨rfl, hpte, hleft⟩

private theorem copyLoop_frames (hne : d ≠ pgdir) : ∀ (fuel n : Nat) (k : Kernel),
    k.loopFrames pgdir d sz n ≤ k.freelist.length →
      Ensures (fun _ => False) (fun r => r.2 = true) (copyLoop cfg pgdir d sz fuel (n * pgSize) k) := by
  intro fuel
  induction fuel with
  | zero => exact fun n k _ => .ok rfl
  | succ fuel ih =>
    intro n k hframes
    simp only [copyLoop]
    split
    · next hlt =>
      refine (copyPage_frames hne (lt_pages.mpr hlt) hframes).bind ?_
      rintro ⟨k₁, ok⟩ ⟨hok, -, hleft⟩
      obtain rfl : ok = true := hok
      simp only [if_true]
      rw [show n * pgSize + pgSize = (n + 1) * pgSize by rw [Nat.add_mul, Nat.one_mul]]
      exact ih (n + 1) k₁ hleft
    · exact .ok rfl

end Loop

section Directory

theorem kmapLoop_frames : ∀ (is : List Nat) (k : Kernel), is.length ≤ k.freelist.length →
    (kmapLoop d is k).2 = true ∧
      k.freelist.length ≤ (kmapLoop d is k).1.freelist.length + is.length ∧
      (kmapLoop d is k).1.pte = k.pte := by
  intro is
  induction is with
  | nil => exact fun k _ => ⟨rfl, le_refl _, rfl⟩
  | cons i is ih =>
    intro k hlen
    simp only [List.length_cons] at hlen
    simp only [kmapLoop]
    cases hw : k.walkpgdirAlloc d (pgAddr i) with
    | none =>
      have hnil := (walkpgdirAlloc_none hw).1
      simp [hnil] at hlen
    | some k₁ =>
      have hready := walkpgdirAlloc_some hw
      have hlength := hready.length
      have hstep : k.freelist.length ≤ k₁.freelist.length + 1 := by split at hlength <;> omega
      obtain ⟨hok, hleft, hpte⟩ := ih k₁ (by omega)
      refine ⟨hok, ?_, hpte.trans hready.pte⟩
      simp only [List.length_cons]
      omega

private theorem copyLoop_blank (h : ∀ i, k.pte pgdir i = 0) (fuel : Nat) :
    Ensures (fun _ => False) (fun r => r.2 = true) (copyLoop cfg pgdir d sz fuel (0 * pgSize) k) := by
  cases fuel with
  | zero => exact .ok rfl
  | succ fuel =>
    simp only [copyLoop]
    split
    · unfold copyPage
      cases hw : k.walkpgdir pgdir (0 * pgSize) with
      | none => exact .error id
      | some p =>
        obtain ⟨-, rfl⟩ := walkpgdir_eq_some.mp hw
        simp only [h]
        exact .error id
    · exact .ok rfl

theorem loopFrames_newDir {rest : List Frame} (hne : d ≠ pgdir) (hfree : k.freelist = d :: rest)
    (h : k.copyFrames pgdir sz ≤ k.freelist.length) (hpte : k₁.pte = (k.newDir d rest).pte)
    (hleft : rest.length ≤ k₁.freelist.length + kmapEntries.length) :
    k₁.loopFrames pgdir d sz 0 ≤ k₁.freelist.length := by
  have hsame : k₁.pte pgdir = k.pte pgdir := by
    rw [hpte]
    funext i
    simp [newDir, Kernel.pte, Ne.symm hne]
  have hfew : k₁.loopFrames pgdir d sz 0 ≤ (k.copied pgdir sz 0).card +
      ((k.copied pgdir sz 0).image fun i => pdx (i * pgSize)).card := by
    unfold loopFrames missing
    rw [copied_of_pte hsame]
    exact Nat.add_le_add_left (Finset.card_filter_le _ _) _
  unfold copyFrames at h
  simp only [hfree, List.length_cons] at h
  omega

theorem copyuvm_frames (h : k.copyFrames pgdir sz ≤ k.freelist.length) :
    Ensures (fun _ => False) (fun r => r.1.isSome = true) (k.copyuvm cfg c pgdir sz) := by
  unfold copyuvm setupkvm
  cases hfree : k.freelist with
  | nil =>
    simp only [copyFrames, hfree, List.length_nil] at h
    omega
  | cons d rest =>
    simp only [kalloc, hfree]
    have hlen : k.copyFrames pgdir sz ≤ rest.length + 1 := by simpa [hfree] using h
    have hnew : ∀ is, kmapLoop d is { k with
        freelist := rest
        dirs := update k.dirs d { pde := fun _ => none, pte := fun _ => 0 } } =
        kmapLoop d is (k.newDir d rest) := fun _ => rfl
    rw [hnew]
    have hmapped := kmapLoop_frames (d := d) kmapEntries (k.newDir d rest) (by
      simp only [copyFrames] at hlen
      simp only [newDir]
      omega)
    cases hmap : kmapLoop d kmapEntries (k.newDir d rest) with
    | mk k₁ ok =>
      rw [hmap] at hmapped
      obtain ⟨hok, hleft, hpte⟩ := hmapped
      obtain rfl : ok = true := hok
      simp only at hleft hpte
      have hloop : Ensures (fun _ => False) (fun r => r.2 = true)
          (copyLoop cfg pgdir d sz (sz / pgSize + 1) (0 * pgSize) k₁) := by
        by_cases hne : d = pgdir
        · subst hne
          refine copyLoop_blank (fun i => ?_) _
          rw [hpte]
          simp [newDir, Kernel.pte, PageDir.entry]
        · exact copyLoop_frames hne _ 0 k₁ (loopFrames_newDir hne hfree h hpte hleft)
      rw [Nat.zero_mul] at hloop
      refine hloop.bind ?_
      rintro ⟨k₂, ok⟩ rfl
      exact .pure rfl

end Directory

end Kernel

end OsSessional.Paging
