import Mathlib.Data.Finset.Image
import Mathlib.Order.Interval.Finset.Nat
import OsSessional.Paging.Limits
import OsSessional.Paging.Undone

/-!
# The frames a growth finds

A page that `allocuvm` places takes a frame, and one more where its page table is missing; with the RAM
table full it puts one back, as long as the policy finds a page and the swap file takes it. How far the
frames last can be told from the tables before the call.
-/

namespace OsSessional.Paging

open Function (update)
open Outcome

namespace Proc

/-- The tables once page `n` of `d` is placed, tracked or not, and whether that put a frame back. -/
def placing (cfg : Config) (d : Frame) (n : Nat) (p : Proc) : Proc × Bool :=
  match p.place cfg d 0 (n * pgSize) with
  | some q => (q, !p.spaceAvialableInMemory)
  | none => (p, false)

/-- The tables after the first `i` pages from `lo` on, and how many frames these put back. -/
def placings (cfg : Config) (d : Frame) (lo : Nat) (p : Proc) : Nat → Proc × Nat
  | 0 => (p, 0)
  | i + 1 =>
    let (q, back) := placings cfg d lo p i
    let (q', out) := q.placing cfg d (lo + i)
    (q', back + out.toNat)

end Proc

namespace Kernel

/-- The page tables that the first `i` pages from `lo` on have to bring along. -/
def missingTables (k : Kernel) (d : Frame) (lo i : Nat) : Finset Nat :=
  ((Finset.Ico lo (lo + i)).image (· / nptEntries)).filter fun t => (k.dirs d).pde t = none

/-- The frames these pages take. -/
def needed (k : Kernel) (d : Frame) (lo i : Nat) : Nat := i + (k.missingTables d lo i).card

/-- The frames there are for them. -/
def supply (cfg : Config) (k : Kernel) (c : Slot) (d : Frame) (lo i : Nat) : Nat :=
  k.freelist.length + ((k.proc c).placings cfg d lo i).2

/-- `kalloc` or `mappages` finds no frame for page `n`. -/
def OutOfFrames (k : Kernel) (d : Frame) (n : Nat) : Prop :=
  k.freelist = [] ∨ ∃ mem, k.freelist = [mem] ∧ k.hasTable d n = false

variable {cfg : Config} {k k' k₁ : Kernel} {c : Slot} {d : Frame} {lo hi n : Nat}

section Placing

private theorem TableReady.free_length {i : Nat} (h : TableReady k d i k') :
    k'.freelist.length + (if (k.dirs d).pde i = none then 1 else 0) = k.freelist.length := by
  cases h with
  | there hthere =>
    have hsome : ¬ (k.dirs d).pde i = none := by
      intro hnone
      simp [hnone] at hthere
    simp [hsome]
  | added hfree hnone => simp [addTable, hfree, hnone]

private theorem TableReady.pde_eq_none_iff {i t : Nat} (h : TableReady k d i k') :
    (k'.dirs d).pde t = none ↔ (k.dirs d).pde t = none ∧ t ≠ i := by
  cases h with
  | there hthere =>
    refine ⟨fun hnone => ⟨hnone, ?_⟩, And.left⟩
    rintro rfl
    simp [hnone] at hthere
  | added hfree hnone =>
    by_cases ht : t = i
    · simp [addTable, ht]
    · simp [addTable, ht]

private theorem Mapped.free_length
    {perm : PTE} {page : Page} {mem : Frame} (h : Mapped k d n perm page mem k') :
    k'.freelist.length + 1 + (if (k.dirs d).pde (n / nptEntries) = none then 1 else 0) =
      k.freelist.length := by
  cases h with
  | @intro rest k₁ hfree htable _ =>
    have hlength : k₁.freelist.length + (if (k.dirs d).pde (n / nptEntries) = none then 1 else 0) =
        rest.length := htable.free_length
    rw [setPte_freelist, hfree, List.length_cons]
    omega

private theorem Mapped.pde_eq_none_iff {perm : PTE} {page : Page} {mem : Frame} {t : Nat}
    (h : Mapped k d n perm page mem k') :
    (k'.dirs d).pde t = none ↔ (k.dirs d).pde t = none ∧ t ≠ n / nptEntries := by
  cases h with
  | intro hfree htable _ =>
    rw [setPte_pde, htable.pde_eq_none_iff]
    rfl

theorem Evicted.pde {note : PageData → PageData → PageData} {i : Fin maxPyscPages} {j : Fin discPages}
    {f : SwapFile} {page : Page} (h : Evicted cfg note k k' c i j f page) (d : Frame) :
    (k'.dirs d).pde = (k.dirs d).pde := by
  rw [h.result, setPte_pde]
  rfl

theorem Placed.mapped {isImportant : Int} (h : Placed cfg c d isImportant n k k') :
    ∃ mem k₁, Mapped k d n (pteW ||| pteU) (fun _ => 0) mem k₁ ∧ (k'.dirs d).pde = (k₁.dirs d).pde := by
  cases h with
  | noProcess hmap hpid => exact ⟨_, _, hmap, rfl⟩
  | tracked hmap hfree => exact ⟨_, _, hmap, rfl⟩
  | stuck hmap hfull hfail => exact ⟨_, _, hmap, rfl⟩
  | evicting hmap hfull hevict => exact ⟨_, _, hmap, hevict.pde d⟩

private theorem Placed.not_out {isImportant : Int} (h : Placed cfg c d isImportant n k k') :
    ¬ k.OutOfFrames d n := by
  obtain ⟨mem, k₁, hmap, -⟩ := h.mapped
  have hlength := hmap.free_length
  rintro (hnil | ⟨mem', hone, hnone⟩)
  · simp [hnil] at hlength
  · have hmissing : (k.dirs d).pde (n / nptEntries) = none := by simpa [hasTable] using hnone
    simp [hone, hmissing] at hlength

private theorem outOfFrames_iff :
    k.OutOfFrames d n ↔
      k.freelist.length < 1 + (if (k.dirs d).pde (n / nptEntries) = none then 1 else 0) := by
  have htable : k.hasTable d n = false ↔ (k.dirs d).pde (n / nptEntries) = none := by simp [hasTable]
  unfold OutOfFrames
  rw [exists_and_right, ← List.length_eq_zero_iff, ← List.length_eq_one_iff, htable]
  by_cases hnone : (k.dirs d).pde (n / nptEntries) = none
  · rw [if_pos hnone, and_iff_left hnone]
    omega
  · simp only [hnone, and_false, or_false, if_false]
    omega

private theorem Evicted.replays
    {p : Proc} {i : Fin maxPyscPages} {j : Fin discPages} {f : SwapFile} {page : Page}
    (hevict : Evicted cfg reallocateNote k k' c i j f page) (hfull : p.freeRamIndex = none)
    (hsame : Proc.SameTables (k.proc c) p) : ∃ p', p.place cfg d 0 (n * pgSize) = some p' := by
  have hi := hsame.victim.symm.trans hevict.victim
  have hj := hsame.slot.symm.trans hevict.slot
  have hsize := hsame.size
  rw [hevict.swapFile] at hsize
  cases hf : p.swapFile with
  | none => simp [hf] at hsize
  | some g =>
    have hg : f.size = g.size := by simpa [hf] using hsize
    have hrefuses : g.refuses (pgSize * j) pgSize = false := by
      rw [refuses_slot, ← hg]
      simpa using hevict.room
    unfold Proc.place
    simp only [hfull, hi, hj, hf, hrefuses, Bool.false_eq_true, if_false]
    exact ⟨_, rfl⟩

private theorem Placed.placing {p : Proc} (h : Placed cfg c d 0 n k k') (hpid : (k.proc c).pid ≠ 0)
    (hp : Proc.SameTables (k.proc c) p) (hs : (k.space c).Sound (· = d))
    (halign : ∀ fr ∈ k.freelist, PageAligned fr) :
    Proc.SameTables (k'.proc c) (p.placing cfg d n).1 ∧
      k'.freelist.length + 1 + (if (k.dirs d).pde (n / nptEntries) = none then 1 else 0) =
        k.freelist.length + (p.placing cfg d n).2.toNat := by
  cases h with
  | noProcess _ hzero => exact absurd hzero hpid
  | @tracked mem k₁ i hmap hfree =>
    have hfree' : p.freeRamIndex = some i := hp.freeRamIndex.symm.trans hfree
    have hplacing : p.placing cfg d n = (p.updatePhysicalPageMetaData d (n * pgSize) 0, false) := by
      simp [Proc.placing, Proc.place, hfree', Proc.spaceAvialableInMemory]
    have hsame : k₁.proc c = k.proc c := by rw [hmap.proc]
    rw [hplacing]
    refine ⟨?_, hmap.free_length⟩
    simp only [updatePhysicalPageMetaData, setProc_proc_self, hsame]
    exact hp.update
  | @stuck mem k₁ hmap hfull hfail =>
    have hplacing : p.placing cfg d n = (p, false) := by
      simp [Proc.placing, replay_of_stuck hmap hfull hfail hp hs halign]
    rw [hplacing]
    exact ⟨hmap.sameTables hp, hmap.free_length⟩
  | @evicting mem k₁ k₂ i j f page hmap hfull hevict =>
    have hfull' : p.freeRamIndex = none := hp.freeRamIndex.symm.trans hfull
    have hsame := hmap.sameTables hp
    obtain ⟨p', hp'⟩ : ∃ p', p.place cfg d 0 (n * pgSize) = some p' := hevict.replays hfull' hsame
    have hplacing : p.placing cfg d n = (p', true) := by
      simp [Proc.placing, hp', Proc.spaceAvialableInMemory, hfull']
    rw [hplacing]
    refine ⟨hevict.replayed hfull' hsame hp', ?_⟩
    have hback : k₂.freelist.length = k₁.freelist.length + 1 := by
      rw [hevict.result]
      rfl
    have hlength := hmap.free_length
    simp only [updatePhysicalPageMetaData, setProc_freelist, hback, Bool.toNat_true]
    omega

end Placing

section Run

private theorem missingTables_zero : k.missingTables d lo 0 = ∅ := by
  simp [missingTables]

private theorem missingTables_succ {i : Nat} :
    k.missingTables d lo (i + 1) =
      if (k.dirs d).pde ((lo + i) / nptEntries) = none then
        insert ((lo + i) / nptEntries) (k.missingTables d lo i)
      else k.missingTables d lo i := by
  unfold missingTables
  rw [← Nat.add_assoc, ← Nat.succ_eq_add_one, Nat.Ico_succ_right_eq_insert_Ico (Nat.le_add_right lo i),
    Finset.image_insert, Finset.filter_insert]

/-- What the frames and tables of the directory are once the first `i` pages from `lo` on are placed, told
from what they were in `k`. -/
structure Supplied (cfg : Config) (k : Kernel) (c : Slot) (d : Frame) (lo i : Nat) (k₁ : Kernel) : Prop where
  proc : Proc.SameTables (k₁.proc c) ((k.proc c).placings cfg d lo i).1
  free : k₁.freelist.length + k.needed d lo i = k.supply cfg c d lo i
  pde : ∀ t, (k₁.dirs d).pde t = none ↔ (k.dirs d).pde t = none ∧ t ∉ k.missingTables d lo i
  fits : ∀ i' < i, k.needed d lo (i' + 1) ≤ k.supply cfg c d lo i'

private theorem Supplied.zero : Supplied cfg k c d lo 0 k where
  proc := .refl _
  free := by simp [needed, supply, missingTables_zero, Proc.placings]
  pde t := by simp [missingTables_zero]
  fits i' hi' := by omega

variable {i : Nat}

private theorem Supplied.needed_succ (h : Supplied cfg k c d lo i k₁) :
    k.needed d lo (i + 1) =
      k.needed d lo i + 1 + (if (k₁.dirs d).pde ((lo + i) / nptEntries) = none then 1 else 0) := by
  have hpde := h.pde ((lo + i) / nptEntries)
  unfold needed
  rw [missingTables_succ]
  by_cases hnone : (k.dirs d).pde ((lo + i) / nptEntries) = none
  · rw [if_pos hnone]
    by_cases hmem : (lo + i) / nptEntries ∈ k.missingTables d lo i
    · rw [Finset.insert_eq_of_mem hmem, if_neg fun h₁ => (hpde.mp h₁).2 hmem]
      omega
    · rw [Finset.card_insert_of_notMem hmem, if_pos (hpde.mpr ⟨hnone, hmem⟩)]
      omega
  · rw [if_neg hnone, if_neg fun h₁ => hnone (hpde.mp h₁).1]
    omega

/-- The frames run out at a page when those there are do not reach for it. -/
theorem Supplied.out_iff (h : Supplied cfg k c d lo i k₁) :
    k₁.OutOfFrames d (lo + i) ↔ k.supply cfg c d lo i < k.needed d lo (i + 1) := by
  have hfree := h.free
  rw [outOfFrames_iff, h.needed_succ]
  omega

private theorem Supplied.succ {k₂ : Kernel} (h : Supplied cfg k c d lo i k₁) (hplace : Placed cfg c d 0 (lo + i) k₁ k₂)
    (hpid : (k₁.proc c).pid ≠ 0) (hs : (k₁.space c).Sound (· = d))
    (halign : ∀ fr ∈ k₁.freelist, PageAligned fr) : Supplied cfg k c d lo (i + 1) k₂ := by
  obtain ⟨hproc, hlength⟩ := hplace.placing hpid h.proc hs halign
  obtain ⟨mem, k₃, hmap, hsame⟩ := hplace.mapped
  refine ⟨hproc, ?_, fun t => ?_, fun i' hi' => ?_⟩
  · have hfree := h.free
    have hnext : k.supply cfg c d lo (i + 1) = k.supply cfg c d lo i +
        (((k.proc c).placings cfg d lo i).1.placing cfg d (lo + i)).2.toNat := by
      unfold supply
      rw [Proc.placings, Nat.add_assoc]
    rw [hnext, h.needed_succ]
    omega
  · rw [hsame, hmap.pde_eq_none_iff, h.pde, missingTables_succ]
    by_cases hnone : (k.dirs d).pde ((lo + i) / nptEntries) = none
    · rw [if_pos hnone, Finset.mem_insert, not_or, and_assoc]
      exact and_congr_right fun _ => and_comm
    · rw [if_neg hnone]
      refine ⟨And.left, fun ht => ⟨ht, ?_⟩⟩
      rintro rfl
      exact hnone ht.1
  · by_cases he : i' = i
    · subst he
      have hin := hplace.not_out
      rw [h.out_iff] at hin
      omega
    · exact h.fits i' (by omega)

theorem Healthy.supplied {L : Frame → Prop} {m : Nat} (h : Healthy cfg allCounted L c d m lo k) (hd : L d)
    (hpid : (k.proc c).pid ≠ 0) (hle : lo ≤ hi) (hhi : hi ≤ userPages)
    (hrun : RangeRun (Placed cfg c d 0) hi lo k k₁) : Supplied cfg k c d lo (hi - lo) k₁ := by
  have hkeep := hrun.keeps
    (I := fun n k₁ => Healthy cfg allCounted L c d m n k₁ ∧ (k₁.proc c).pid ≠ 0 ∧
      Supplied cfg k c d lo (n - lo) k₁)
    (fun n k₁ k₂ hlo hn hI hplace => by
      obtain ⟨hh, hpid, hsupplied⟩ := hI
      have hpid' : (k₂.proc c).pid ≠ 0 := by rwa [(Local.of_placed hh.image.sound hplace).pid]
      obtain ⟨i, rfl⟩ : ∃ i, n = lo + i := ⟨n - lo, by omega⟩
      rw [Nat.add_sub_cancel_left] at hsupplied
      rw [Nat.add_assoc, Nat.add_sub_cancel_left]
      exact ⟨hh.placed hd (by omega) hplace, hpid',
        hsupplied.succ hplace hpid hh.image.sound fun _ hfr => hh.frames.aligned_free hfr⟩)
    ⟨h, hpid, by rw [Nat.sub_self]; exact .zero⟩
  rw [max_eq_right hle] at hkeep
  exact hkeep.2.2

end Run

end Kernel

end OsSessional.Paging
