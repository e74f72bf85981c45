import OsSessional.Paging.Fork
import OsSessional.Paging.Moments

/-!
# Writes to the RAM tables

The functions of the kernel are taken apart here at their moments: each is a write of one of a few kinds,
and from one to the next the tables stay as they are.
-/

namespace OsSessional.Paging

open Function (update update_self update_of_ne)
open Outcome

/-- The RAM table keeps its entries, up to their ages, and the timer stands still. -/
structure Proc.SameStay (p p' : Proc) : Prop where
  ram : ∀ i, p'.pagesInPhysicalMemory i =
    { p.pagesInPhysicalMemory i with ageCounter := (p'.pagesInPhysicalMemory i).ageCounter }
  timer : p'.timer = p.timer

private theorem Proc.SameStay.refl (p : Proc) : p.SameStay p := ⟨fun _ => rfl, rfl⟩

private theorem Proc.SameStay.trans {p p' p'' : Proc} (h : p.SameStay p') (h' : p'.SameStay p'') :
    p.SameStay p'' where
  ram i := by
    rw [h'.ram i, h.ram i]
  timer := h'.timer.trans h.timer

@[simp] theorem after_ok {α : Type} (a : α) (f : α → List Moment) : after (.ok a) f = f a := rfl

namespace Kernel

variable {cfg : Config} {k k' k₁ k₂ : Kernel} {c : Slot} {d : Frame} {w : Write} {ms ms' : List Moment}

/-- The writes of the code to RAM tables and timers. -/
inductive TableStep (cfg : Config) (k : Kernel) : Write → Kernel → Prop
  | evicted {c : Slot} {note : PageData → PageData → PageData} {k' : Kernel} {i : Fin maxPyscPages}
      (h : k.evictPage cfg note c = .ok (k', some i)) : TableStep cfg k (.evicted c i) k'
  | tracked {c : Slot} {d : Frame} {va : Nat} {isImportant : Int} {i : Fin maxPyscPages}
      (h : (k.proc c).freeRamIndex = some i) :
      TableStep cfg k (.arrived c i) (k.updatePhysicalPageMetaData c d va isImportant)
  | moved {c : Slot} {j : Fin discPages} {i : Fin maxPyscPages}
      (hfree : ((k.proc c).pagesInPhysicalMemory i).isUsed = false)
      (hused : ((k.proc c).pagesInDisc j).isUsed = true) :
      TableStep cfg k (.arrived c i) (k.moveToRam c j i)
  | stale {c : Slot} {j : Fin discPages} {i : Fin maxPyscPages}
      (hfree : ((k.proc c).pagesInPhysicalMemory i).isUsed = false)
      (hunused : ((k.proc c).pagesInDisc j).isUsed = false) :
      TableStep cfg k .other (k.moveToRam c j i)
  | removed {c : Slot} {d : Frame} {va : Nat} {i : Fin maxPyscPages}
      (h : Proc.namedIndex (k.proc c).pagesInPhysicalMemory d va = some i) :
      TableStep cfg k (.removed c i) (k.setProc c ((k.proc c).removePhysicalPageMetaData d va))
  | created {np : Slot} {k' : Kernel} (h : k.allocproc = (some np, k')) :
      TableStep cfg k (.cleared np) k'
  | cleared {c : Slot} : TableStep cfg k (.cleared c) (k.setProc c (k.proc c).clearMetaData)
  | inherited {c np : Slot} {d : Frame} {k' : Kernel}
      (hram : (k'.proc np).pagesInPhysicalMemory = fun i =>
        { (k.proc c).pagesInPhysicalMemory i with pageDirectory := d })
      (htimer : (k'.proc np).timer = (k.proc c).timer)
      (hother : ∀ c', c' ≠ np → (k.proc c').SameStay (k'.proc c')) :
      TableStep cfg k (.inherited c np) k'
  | quiet {k' : Kernel} (h : ∀ c, (k.proc c).SameStay (k'.proc c)) : TableStep cfg k .other k'

/-- All the RAM tables and timers stay. -/
def SameTables (k k' : Kernel) : Prop := ∀ c, (k.proc c).SameStay (k'.proc c)

private theorem SameTables.refl (k : Kernel) : k.SameTables k := fun _ => .refl _

private theorem SameTables.trans (h : k.SameTables k₁) (h' : k₁.SameTables k₂) : k.SameTables k₂ :=
  fun c => (h c).trans (h' c)

private theorem SameTables.of_proc (h : k'.proc = k.proc) : k.SameTables k' := by
  intro c
  rw [h]
  exact .refl _

private theorem SameTables.of_setProc {p : Proc}
    (hram : p.pagesInPhysicalMemory = (k.proc c).pagesInPhysicalMemory)
    (htimer : p.timer = (k.proc c).timer) : k.SameTables (k.setProc c p) := by
  intro c'
  by_cases hc : c' = c
  · subst hc
    rw [setProc_proc_self]
    exact ⟨fun i => by rw [hram], htimer⟩
  · rw [setProc_proc_of_ne hc]
    exact .refl _

/-- The code goes from one kernel to the other through these moments. -/
inductive Trace (cfg : Config) : Kernel → List Moment → Kernel → Prop
  | still {k k' : Kernel} (hsame : k.SameTables k') : Trace cfg k [] k'
  | moment {k k₁ k₂ k' : Kernel} {w : Write} {ms : List Moment} (hsame : k.SameTables k₁)
      (hstep : TableStep cfg k₁ w k₂) (hrest : Trace cfg k₂ ms k') :
      Trace cfg k (⟨k₁, w⟩ :: ms) k'

namespace Trace

private theorem refl (k : Kernel) : Trace cfg k [] k := .still (.refl k)

private theorem from_same (h : Trace cfg k₁ ms k') (hsame : k.SameTables k₁) : Trace cfg k ms k' := by
  cases h with
  | still hsame' => exact .still (hsame.trans hsame')
  | moment hsame' hstep hrest => exact .moment (hsame.trans hsame') hstep hrest

private theorem append (h : Trace cfg k ms k₁) (h' : Trace cfg k₁ ms' k') :
    Trace cfg k (ms ++ ms') k' := by
  induction h with
  | still hsame => exact h'.from_same hsame
  | moment hsame hstep _ ih => exact .moment hsame hstep (ih h')

private theorem to_same (h : Trace cfg k ms k₁) (hsame : k₁.SameTables k') : Trace cfg k ms k' := by
  rw [← List.append_nil ms]
  exact h.append (.still hsame)

/-- The moments before one of them lead to it. -/
theorem before {m : Moment} (h : Trace cfg k (ms ++ m :: ms') k') : Trace cfg k ms m.before := by
  induction ms generalizing k with
  | nil =>
    cases h with
    | moment hsame hstep hrest => exact .still hsame
  | cons m' ms ih =>
    cases h with
    | moment hsame hstep hrest => exact .moment hsame hstep (ih hrest)

theorem at_moment {m : Moment} (h : Trace cfg k ms k') (hm : m ∈ ms) :
    ∃ k₂, TableStep cfg m.before m.write k₂ := by
  induction h with
  | still hsame => exact absurd hm List.not_mem_nil
  | moment hsame hstep hrest ih =>
    rcases List.mem_cons.mp hm with rfl | hm
    · exact ⟨_, hstep⟩
    · exact ih hm

end Trace

private theorem TableStep.trace (h : TableStep cfg k w k') : Trace cfg k [⟨k, w⟩] k' :=
  .moment (.refl k) h (.refl k')

private theorem kalloc_tables {r : Option Frame} (h : k.kalloc = (r, k')) : k.SameTables k' := by
  cases r with
  | none =>
    obtain ⟨-, rfl⟩ := kalloc_none h
    exact .refl _
  | some fr =>
    obtain ⟨rest, -, rfl⟩ := kalloc_some h
    exact .of_proc rfl

private theorem kfree_tables {fr : Frame} (h : k.kfree cfg fr = .ok k') : k.SameTables k' := by
  obtain ⟨-, rfl⟩ := kfree_ok h
  exact .of_proc rfl

private theorem mappages_tables {va : Nat} {pa : Frame} {perm : PTE}
    (h : k.mappages d va pa perm = .ok (some k')) : k.SameTables k' := by
  obtain ⟨k₁, hready, -, rfl⟩ := mappages_some h
  exact .of_proc hready.proc

private theorem memsetPage_tables
    {mem : Option Frame} {page : Page} (h : k.memsetPage c mem page = .ok k') :
    k.SameTables k' := by
  obtain ⟨fr, pg, rfl, -⟩ := memsetPage_ok h
  exact .of_proc rfl

private theorem evictPage_trace {note : PageData → PageData → PageData} {r : Option (Fin maxPyscPages)}
    (h : k.evictPage cfg note c = .ok (k', r)) : Trace cfg k (evictMoments cfg note k c) k' := by
  unfold evictMoments
  rw [h]
  cases r with
  | some i => exact (TableStep.evicted h).trace
  | none =>
    rcases evictPage_ok h with ⟨-, rfl⟩ | ⟨i, j, f, page, hi, -⟩
    · exact (TableStep.quiet (SameTables.refl k')).trace
    · simp at hi

private theorem updatePhysicalPageMetaData_trace (k : Kernel) (c : Slot) (d : Frame) (va : Nat)
    (isImportant : Int) :
    Trace cfg k (k.trackMoments c) (k.updatePhysicalPageMetaData c d va isImportant) := by
  unfold trackMoments
  cases hfree : (k.proc c).freeRamIndex with
  | some i => exact (TableStep.tracked hfree).trace
  | none =>
    refine (TableStep.quiet (SameTables.of_setProc ?_ ?_)).trace
    · simp [Proc.updatePhysicalPageMetaData, hfree]
    · simp [Proc.updatePhysicalPageMetaData, hfree]

private theorem removePhysicalPageMetaData_trace (k : Kernel) (c : Slot) (d : Frame) (va : Nat) :
    Trace cfg k (k.untrackMoments c d va)
      (k.setProc c ((k.proc c).removePhysicalPageMetaData d va)) := by
  unfold untrackMoments
  cases hidx : Proc.namedIndex (k.proc c).pagesInPhysicalMemory d va with
  | some i => exact (TableStep.removed hidx).trace
  | none =>
    have hsame : k.SameTables (k.setProc c ((k.proc c).removePhysicalPageMetaData d va)) := by
      refine .of_setProc ?_ rfl
      simp [Proc.removePhysicalPageMetaData, Proc.removeFrom, hidx]
    exact (TableStep.quiet hsame).trace

private theorem moveToRam_trace {j : Fin discPages} {i : Fin maxPyscPages}
    (hfree : ((k.proc c).pagesInPhysicalMemory i).isUsed = false) :
    Trace cfg k (k.moveMoments c j i) (k.moveToRam c j i) := by
  unfold moveMoments
  cases hused : ((k.proc c).pagesInDisc j).isUsed with
  | true => exact (TableStep.moved hfree hused).trace
  | false => exact (TableStep.stale hfree hused).trace

private theorem deallocPage_trace {a : Nat} {pte : PTE} (h : k.deallocPage cfg c d a pte = .ok k') :
    Trace cfg k (k.deallocPageMoments cfg c d a pte) k' := by
  unfold deallocPage at h
  unfold deallocPageMoments
  split at h
  · next hP =>
    split at h
    · simp at h
    · next hpa =>
      obtain ⟨k₁, hfree, h⟩ := bind_eq_ok.mp h
      simp only [pure_eq_ok] at h
      subst h
      rw [if_pos hP, if_neg hpa, hfree, after_ok]
      have hremoved : Trace cfg k₁ (k₁.untrackMoments c d a) _ := removePhysicalPageMetaData_trace k₁ c d a
      refine (hremoved.from_same (kfree_tables hfree)).to_same (SameTables.of_proc ?_)
      rfl
  · next hP =>
    rw [if_neg hP]
    split at h
    · simp only [Except.ok.injEq] at h
      subst h
      have hremoved : k.SameTables (k.setProc c ((k.proc c).removeDiscMetaData d a)) := .of_setProc rfl rfl
      exact .still (hremoved.trans (.of_proc rfl))
    · simp only [Except.ok.injEq] at h
      subst h
      exact .refl _

private theorem deallocLoop_trace {oldsz : Nat} :
    ∀ (fuel a : Nat) (k k' : Kernel), deallocLoop cfg c d oldsz fuel a k = .ok k' →
      Trace cfg k (deallocLoopMoments cfg c d oldsz fuel a k) k' := by
  intro fuel
  induction fuel with
  | zero =>
    intro a k k' h
    obtain rfl : k = k' := by simpa [deallocLoop] using h
    exact .refl _
  | succ fuel ih =>
    intro a k k' h
    simp only [deallocLoop] at h
    unfold deallocLoopMoments
    split at h
    · next ha =>
      rw [if_pos ha]
      cases hw : k.walkpgdir d a with
      | none =>
        rw [hw] at h
        exact ih _ _ _ h
      | some pte =>
        rw [hw] at h
        obtain ⟨k₁, hpage, h⟩ := bind_eq_ok.mp h
        dsimp only
        rw [hpage, after_ok]
        exact (deallocPage_trace hpage).append (ih _ _ _ h)
    · next ha =>
      obtain rfl : k = k' := by simpa using h
      rw [if_neg ha]
      exact .refl _

private theorem deallocuvm_trace
    {oldsz newsz r : Nat} (h : k.deallocuvm cfg c d oldsz newsz = .ok (k', r)) :
    Trace cfg k (k.deallocMoments cfg c d oldsz newsz) k' := by
  unfold deallocuvm at h
  unfold deallocMoments
  split at h
  · next hge =>
    obtain ⟨rfl, -⟩ : k = k' ∧ oldsz = r := by simpa using h
    rw [if_pos hge]
    exact .refl _
  · next hlt =>
    obtain ⟨k₁, hloop, h⟩ := bind_eq_ok.mp h
    obtain ⟨rfl, -⟩ : k₁ = k' ∧ newsz = r := by simpa using h
    rw [if_neg hlt]
    exact deallocLoop_trace _ _ _ _ hloop

private theorem placePage_trace
    {a : Nat} {isImportant : Int} (h : k.placePage cfg c d a isImportant = .ok k') :
    Trace cfg k (k.placeMoments cfg c) k' := by
  simp only [placePage] at h
  unfold placeMoments
  split at h
  · next hpid =>
    rw [if_pos hpid]
    split at h
    · next hroom =>
      simp only [Except.ok.injEq] at h
      subst h
      rw [if_pos hroom]
      exact updatePhysicalPageMetaData_trace k c d a isImportant
    · next hroom =>
      obtain ⟨⟨k₁, ok⟩, hreallocate, h⟩ := bind_eq_ok.mp h
      rw [if_neg hroom, hreallocate, after_ok]
      obtain ⟨⟨k₂, freed⟩, hevict, hok⟩ := bind_eq_ok.mp hreallocate
      obtain ⟨rfl, rfl⟩ : k₂ = k₁ ∧ freed.isSome = ok := by simpa using hok
      have hcount : k.SameTables (k.countFault c) := .of_setProc rfl rfl
      have hevicted := (evictPage_trace hevict).from_same hcount
      split at h
      · next hfreed =>
        simp only [pure_eq_ok] at h
        subst h
        dsimp only
        rw [if_pos hfreed]
        exact hevicted.append (updatePhysicalPageMetaData_trace k₂ c d a isImportant)
      · next hfreed =>
        simp only [pure_eq_ok] at h
        subst h
        dsimp only
        rw [if_neg hfreed, List.append_nil]
        exact hevicted
  · next hpid =>
    simp only [Except.ok.injEq] at h
    subst h
    rw [if_neg hpid]
    exact .refl _

private theorem allocLoop_trace {oldsz newsz : Nat} {isImportant : Int} :
    ∀ (fuel a : Nat) (k k' : Kernel) (r : Nat),
      allocLoop cfg c d oldsz newsz isImportant fuel a k = .ok (k', r) →
      Trace cfg k (allocLoopMoments cfg c d oldsz newsz isImportant fuel a k) k' := by
  intro fuel
  induction fuel with
  | zero =>
    intro a k k' r h
    obtain ⟨rfl, -⟩ : k = k' ∧ newsz = r := by simpa [allocLoop] using h
    exact .refl _
  | succ fuel ih =>
    intro a k k' r h
    simp only [allocLoop] at h
    unfold allocLoopMoments
    split at h
    · next ha =>
      rw [if_pos ha]
      rcases halloc : k.kalloc with ⟨_ | mem, k₁⟩
      · -- no frame: what was placed is given back
        rw [halloc] at h
        obtain ⟨⟨k₂, r'⟩, hdealloc, h⟩ := bind_eq_ok.mp h
        obtain ⟨rfl, -⟩ : k₂ = k' ∧ 0 = r := by simpa using h
        exact (deallocuvm_trace hdealloc).from_same (kalloc_tables halloc)
      · rw [halloc] at h
        have hzeroed : k.SameTables (k₁.setMem mem fun _ => 0) := (kalloc_tables halloc).trans (.of_proc rfl)
        obtain ⟨m, hmap, h⟩ := bind_eq_ok.mp h
        dsimp only
        rw [hmap, after_ok]
        cases m with
        | none =>
          obtain ⟨⟨k₂, r'⟩, hdealloc, h⟩ := bind_eq_ok.mp h
          obtain ⟨k₃, hfree, h⟩ := bind_eq_ok.mp h
          obtain ⟨rfl, -⟩ : k₃ = k' ∧ 0 = r := by simpa using h
          exact ((deallocuvm_trace hdealloc).to_same (kfree_tables hfree)).from_same hzeroed
        | some k₂ =>
          obtain ⟨k₃, hplace, h⟩ := bind_eq_ok.mp h
          dsimp only
          rw [hplace, after_ok]
          have hplaced := (placePage_trace hplace).from_same (mappages_tables hmap)
          exact (hplaced.append (ih _ _ _ _ h)).from_same hzeroed
    · next ha =>
      obtain ⟨rfl, -⟩ : k = k' ∧ newsz = r := by simpa using h
      rw [if_neg ha]
      exact .refl _

private theorem allocuvm_trace {oldsz newsz r : Nat} {isImportant : Int}
    (h : k.allocuvm cfg c d oldsz newsz isImportant = .ok (k', r)) :
    Trace cfg k (k.allocMoments cfg c d oldsz newsz isImportant) k' := by
  unfold allocuvm at h
  unfold allocMoments
  split at h
  · next hge =>
    obtain ⟨rfl, -⟩ : k = k' ∧ 0 = r := by simpa using h
    rw [if_pos hge]
    exact .refl _
  · next hge =>
    rw [if_neg hge]
    split at h
    · next hlt =>
      obtain ⟨rfl, -⟩ : k = k' ∧ oldsz = r := by simpa using h
      rw [if_pos hlt]
      exact .refl _
    · next hlt =>
      rw [if_neg hlt]
      split at h
      · next hfull =>
        obtain ⟨rfl, -⟩ : k = k' ∧ 0 = r := by simpa using h
        rw [if_pos hfull]
        exact .refl _
      · next hfull =>
        rw [if_neg hfull]
        exact allocLoop_trace _ _ _ _ _ h

private theorem mapPagedIn_proc {va : Nat} {mem : Option Frame} (h : k.mapPagedIn c va mem = .ok k') :
    k'.proc = k.proc := by
  unfold mapPagedIn at h
  split at h
  · simp at h
  · split at h
    · simp at h
    · simp only [Except.ok.injEq] at h
      subst h
      rfl

private theorem writeUserPage_proc
    {va n : Nat} {bytes : Nat → Byte} (h : k.writeUserPage d va n bytes = some k') :
    k'.proc = k.proc := by
  simp only [writeUserPage] at h
  split at h
  · simp only [Option.some.injEq] at h
    subst h
    rfl
  · simp at h

private theorem retrieveInto_trace {va : Nat} {mem : Option Frame} {i : Fin maxPyscPages} {ok : Bool}
    (hfree : ((k.proc c).pagesInPhysicalMemory i).isUsed = false)
    (h : k.retrieveInto c va mem i = .ok (k', ok)) :
    Trace cfg k (k.retrieveIntoMoments c va mem i) k' := by
  simp only [retrieveInto, bind_eq_ok] at h
  obtain ⟨k₁, hmap, h⟩ := h
  have hproc := mapPagedIn_proc hmap
  have hmapped : k.SameTables k₁ := .of_proc hproc
  unfold retrieveIntoMoments
  rw [hmap, after_ok]
  cases hindex : (k₁.proc c).discIndex va with
  | none =>
    rw [hindex] at h
    obtain ⟨rfl, -⟩ : k₁ = k' ∧ true = ok := by simpa using h
    exact .still hmapped
  | some j =>
    rw [hindex] at h
    obtain ⟨r, hread, h⟩ := bind_eq_ok.mp h
    dsimp only
    rw [hread, after_ok]
    rcases r with _ | ⟨n, bytes⟩
    · obtain ⟨rfl, -⟩ : k₁ = k' ∧ false = ok := by simpa using h
      exact .still hmapped
    · dsimp only at h ⊢
      cases hwrite : k₁.writeUserPage (k₁.proc c).pgdir va n bytes with
      | none => simp [hwrite] at h
      | some k₂ =>
        rw [hwrite] at h
        simp only [pure_eq_ok, Prod.mk.injEq] at h
        obtain ⟨rfl, -⟩ := h
        have hproc₂ := (writeUserPage_proc hwrite).trans hproc
        refine (moveToRam_trace ?_).from_same (.of_proc hproc₂)
        rw [hproc₂]
        exact hfree

private theorem retrieveSwapping_trace {va : Nat} {mem : Option Frame} {ok : Bool}
    (h : k.retrieveSwapping cfg c va mem = .ok (k', ok)) :
    Trace cfg k (k.retrieveSwappingMoments cfg c va mem) k' := by
  simp only [retrieveSwapping, bind_eq_ok] at h
  obtain ⟨⟨k₁, r⟩, hevict, h⟩ := h
  have hevicted := evictPage_trace hevict
  unfold retrieveSwappingMoments
  rw [hevict, after_ok]
  rcases evictPage_ok hevict with ⟨rfl, rfl⟩ | ⟨i, j₀, f, page, rfl, hev⟩
  · obtain ⟨rfl, -⟩ : k₁ = k' ∧ false = ok := by simpa using h
    rw [List.append_nil]
    exact hevicted
  · have hfree : ((k₁.proc c).pagesInPhysicalMemory i).isUsed = false := by
      rw [hev.result]
      simp [evictedProc]
    obtain ⟨k₂, hmap, h⟩ := bind_eq_ok.mp h
    have hproc := mapPagedIn_proc hmap
    have hmapped : k₁.SameTables k₂ := .of_proc hproc
    dsimp only
    rw [hmap, after_ok]
    cases hindex : (k₂.proc c).discIndex va with
    | none =>
      rw [hindex] at h
      obtain ⟨k₃, hset, h⟩ := bind_eq_ok.mp h
      obtain ⟨rfl, -⟩ : k₃ = k' ∧ true = ok := by simpa using h
      dsimp only
      rw [List.append_nil]
      exact hevicted.to_same (hmapped.trans (memsetPage_tables hset))
    | some j =>
      rw [hindex] at h
      obtain ⟨r, hread, h⟩ := bind_eq_ok.mp h
      dsimp only
      rw [hread, after_ok]
      split at h
      · obtain ⟨rfl, -⟩ : k₂ = k' ∧ false = ok := by simpa using h
        rw [List.append_nil]
        exact hevicted.to_same hmapped
      · next n bytes =>
        obtain ⟨k₃, hset, h⟩ := bind_eq_ok.mp h
        obtain ⟨rfl, -⟩ : k₃ = k' ∧ true = ok := by simpa using h
        let k₄ : Kernel := { k₂ with buffer := fun b => if b.val < n then bytes b else k₂.buffer b }
        have hread : k₁.SameTables k₄ := hmapped.trans (.of_proc rfl)
        have hfree₄ : ((k₄.proc c).pagesInPhysicalMemory i).isUsed = false := by
          rw [show k₄.proc = k₂.proc from rfl, hproc]
          exact hfree
        have hmoved : Trace cfg k₄ (k₄.moveMoments c j i) (k₄.moveToRam c j i) := moveToRam_trace hfree₄
        exact hevicted.append ((hmoved.to_same (memsetPage_tables hset)).from_same hread)

private theorem retrievePage_trace
    {cr2 : Nat} {ok : Bool} (h : k.retrievePage cfg c cr2 = .ok (k', ok)) :
    Trace cfg k (k.retrieveMoments cfg c cr2) k' := by
  simp only [retrievePage] at h
  obtain ⟨k₁, hset, h⟩ := bind_eq_ok.mp h
  have htaken : k.SameTables k.kalloc.2 := kalloc_tables (r := k.kalloc.1) rfl
  have hready : k.SameTables (k₁.countFault c) :=
    (htaken.trans (memsetPage_tables hset)).trans (.of_setProc rfl rfl)
  simp only [retrieveMoments, hset, after_ok]
  cases hfree : ((k₁.countFault c).proc c).freeRamIndex with
  | some i =>
    rw [hfree] at h
    exact (retrieveInto_trace (Proc.freeRamIndex_free _ hfree) h).from_same hready
  | none =>
    rw [hfree] at h
    exact (retrieveSwapping_trace h).from_same hready

private theorem freeTables_tables :
    ∀ (is : List Nat) (k k' : Kernel), freeTables cfg d is k = .ok k' → k.SameTables k' := by
  intro is
  induction is with
  | nil =>
    intro k k' h
    obtain rfl : k = k' := by simpa [freeTables] using h
    exact .refl _
  | cons i is ih =>
    intro k k' h
    simp only [freeTables] at h
    split at h
    · exact ih _ _ h
    · obtain ⟨k₁, hfree, h⟩ := bind_eq_ok.mp h
      exact (kfree_tables hfree).trans (ih _ _ h)

private theorem freevm_trace (h : k.freevm cfg c d = .ok k') :
    Trace cfg k (k.freevmMoments cfg c d) k' := by
  simp only [freevm] at h
  unfold freevmMoments
  split at h
  · simp at h
  · next hd =>
    obtain ⟨⟨k₁, r⟩, hdealloc, h⟩ := bind_eq_ok.mp h
    obtain ⟨k₂, htables, h⟩ := bind_eq_ok.mp h
    rw [if_neg hd]
    exact (deallocuvm_trace hdealloc).to_same ((freeTables_tables _ _ _ htables).trans (kfree_tables h))

private theorem kmapLoop_proc :
    ∀ (is : List Nat) (k k' : Kernel) (ok : Bool), kmapLoop d is k = (k', ok) →
    k'.proc = k.proc := by
  intro is
  induction is with
  | nil =>
    intro k k' ok h
    obtain ⟨rfl, -⟩ : k = k' ∧ true = ok := by simpa [kmapLoop] using h
    rfl
  | cons i is ih =>
    intro k k' ok h
    simp only [kmapLoop] at h
    split at h
    · obtain ⟨rfl, -⟩ : k = k' ∧ false = ok := by simpa using h
      rfl
    · next k₁ hw => exact (ih _ _ _ h).trans (walkpgdirAlloc_some hw).proc

private theorem setupkvm_trace {r : Option Frame} (h : k.setupkvm cfg c = .ok (r, k')) :
    Trace cfg k (k.setupMoments cfg c) k' := by
  unfold setupkvm at h
  unfold setupMoments
  rcases halloc : k.kalloc with ⟨_ | d, k₁⟩
  · rw [halloc] at h
    obtain ⟨-, rfl⟩ : none = r ∧ k₁ = k' := by simpa using h
    exact .still (kalloc_tables halloc)
  · rw [halloc] at h
    dsimp only at h ⊢
    rcases hmap : kmapLoop d kmapEntries { k₁ with
      dirs := update k₁.dirs d { pde := fun _ => none, pte := fun _ => 0 } } with ⟨k₂, _ | _⟩
    · rw [hmap] at h
      obtain ⟨k₃, hfreevm, h⟩ := bind_eq_ok.mp h
      obtain ⟨-, rfl⟩ : none = r ∧ k₃ = k' := by simpa using h
      have hproc : k₂.proc = k₁.proc := (kmapLoop_proc _ _ _ _ hmap :)
      exact (freevm_trace hfreevm).from_same ((kalloc_tables halloc).trans (.of_proc hproc))
    · rw [hmap] at h
      obtain ⟨-, rfl⟩ : some d = r ∧ k₂ = k' := by simpa using h
      have hproc : k₂.proc = k₁.proc := (kmapLoop_proc _ _ _ _ hmap :)
      exact .still ((kalloc_tables halloc).trans (.of_proc hproc))

private theorem copyPage_proc {pgdir : Frame} {a : Nat} {ok : Bool} (h : k.copyPage cfg pgdir d a = .ok (k', ok)) :
    k'.proc = k.proc := by
  simp only [copyPage] at h
  split at h
  · simp at h
  · split at h
    · split at h
      · simp at h
      · obtain ⟨rfl, -⟩ : k.setPte d (vpn a) _ = k' ∧ true = ok := by simpa using h
        rfl
    · split at h
      · simp at h
      · split at h
        · next k₁ halloc =>
          obtain ⟨rfl, -⟩ : k₁ = k' ∧ false = ok := by simpa using h
          rw [(kalloc_none halloc).2]
        · next mem k₁ halloc =>
          obtain ⟨rest, -, rfl⟩ := kalloc_some halloc
          obtain ⟨m, hmap, h⟩ := bind_eq_ok.mp h
          split at h
          · obtain ⟨k₂, hfree, h⟩ := bind_eq_ok.mp h
            obtain ⟨rfl, -⟩ : k₂ = k' ∧ false = ok := by simpa using h
            rw [(kfree_ok hfree).2]
            rfl
          · next k₂ =>
            obtain ⟨rfl, -⟩ : k₂ = k' ∧ true = ok := by simpa using h
            obtain ⟨k₃, hready, -, rfl⟩ := mappages_some hmap
            exact hready.proc

private theorem copyLoop_proc {pgdir : Frame} {sz : Nat} :
    ∀ (fuel a : Nat) (k k' : Kernel) (ok : Bool), copyLoop cfg pgdir d sz fuel a k = .ok (k', ok) →
      k'.proc = k.proc := by
  intro fuel
  induction fuel with
  | zero =>
    intro a k k' ok h
    obtain ⟨rfl, -⟩ : k = k' ∧ true = ok := by simpa [copyLoop] using h
    rfl
  | succ fuel ih =>
    intro a k k' ok h
    simp only [copyLoop] at h
    split at h
    · obtain ⟨⟨k₁, b⟩, hcopy, h⟩ := bind_eq_ok.mp h
      split at h
      · exact (ih _ _ _ _ h).trans (copyPage_proc hcopy)
      · obtain ⟨rfl, -⟩ : k₁ = k' ∧ false = ok := by simpa using h
        exact copyPage_proc hcopy
    · obtain ⟨rfl, -⟩ : k = k' ∧ true = ok := by simpa using h
      rfl

private theorem copyuvm_trace {pgdir : Frame} {sz : Nat} {r : Option Frame}
    (h : k.copyuvm cfg c pgdir sz = .ok (r, k')) : Trace cfg k (k.copyMoments cfg c pgdir sz) k' := by
  simp only [copyuvm, bind_eq_ok] at h
  obtain ⟨⟨r₁, k₁⟩, hsetup, h⟩ := h
  have hset := setupkvm_trace hsetup
  unfold copyMoments
  rw [hsetup, after_ok]
  split at h
  · next heq =>
    obtain ⟨rfl, rfl⟩ : r₁ = none ∧ k₁ = _ := by simpa using heq
    obtain ⟨-, rfl⟩ : none = r ∧ k₁ = k' := by simpa using h
    rw [List.append_nil]
    exact hset
  · next d k₂ heq =>
    obtain ⟨rfl, rfl⟩ : r₁ = some d ∧ k₁ = k₂ := by simpa using heq
    obtain ⟨⟨k₃, ok⟩, hloop, h⟩ := bind_eq_ok.mp h
    have hcopied : k₁.SameTables k₃ := .of_proc (copyLoop_proc _ _ _ _ _ hloop)
    dsimp only
    rw [hloop, after_ok]
    split at h
    · next hok =>
      obtain ⟨-, rfl⟩ : some d = r ∧ k₃ = k' := by simpa using h
      dsimp only
      rw [if_pos hok, List.append_nil]
      exact hset.to_same hcopied
    · next hok =>
      obtain ⟨k₄, hfreevm, h⟩ := bind_eq_ok.mp h
      obtain ⟨-, rfl⟩ : none = r ∧ k₄ = k' := by simpa using h
      dsimp only
      rw [if_neg hok]
      exact hset.append ((freevm_trace hfreevm).from_same hcopied)

private theorem allocproc_trace {r : Option Slot} (h : k.allocproc = (r, k')) :
    Trace cfg k k.createMoments k' := by
  unfold createMoments
  rw [h]
  cases r with
  | some np => exact (TableStep.created h).trace
  | none =>
    refine .still ?_
    unfold allocproc at h
    split at h
    · obtain rfl : k = k' := by simpa using h
      exact .refl _
    · next np hslot =>
      simp only at h
      split at h
      · next k₁ halloc =>
        obtain ⟨-, rfl⟩ := kalloc_none halloc
        obtain rfl := (Prod.mk.inj h).2
        intro c
        by_cases hc : c = np
        · subst hc
          simp only [setProc_proc_self]
          exact ⟨fun _ => by simp, by simp⟩
        · rw [setProc_proc_of_ne hc]
          simp only
          rw [setProc_proc_of_ne hc]
          exact .refl _
      · simp at h

private theorem copySwapFile_ok {np : Slot} (h : k.copySwapFile c np = .ok k') :
    k' = k ∨ ∃ f, k' = k.setSwapFile np f := by
  unfold copySwapFile at h
  split at h
  · split at h
    · simp only [Except.ok.injEq] at h
      exact .inr ⟨_, h.symm⟩
    · simp at h
  · simp only [Except.ok.injEq] at h
    exact .inl h.symm

private theorem fork_trace {r : Option Slot} (h : k.fork cfg c = .ok (k', r)) :
    Trace cfg k (k.forkMoments cfg c) k' := by
  unfold fork at h
  unfold forkMoments
  rcases halloc : k.allocproc with ⟨_ | np, k₁⟩
  · rw [halloc] at h
    obtain ⟨rfl, -⟩ : k₁ = k' ∧ none = r := by simpa using h
    dsimp only
    rw [List.append_nil]
    exact allocproc_trace halloc
  · rw [halloc] at h
    have hstart : Trace cfg k k.createMoments k₁ := allocproc_trace halloc
    refine hstart.append ?_
    obtain ⟨⟨r₂, k₂⟩, hcopy, h⟩ := bind_eq_ok.mp h
    have hcopied := copyuvm_trace hcopy
    dsimp only
    rw [hcopy, after_ok]
    cases r₂ with
    | none =>
      rw [List.append_nil]
      simp only at h
      split at h
      · obtain ⟨rfl, -⟩ : k₂.setProc np _ = k' ∧ none = r := by simpa using h
        exact hcopied.to_same (.of_setProc rfl rfl)
      · obtain ⟨k₃, hfree, h⟩ := bind_eq_ok.mp h
        obtain ⟨rfl, -⟩ : k₃.setProc np _ = k' ∧ none = r := by simpa using h
        exact hcopied.to_same ((kfree_tables hfree).trans (.of_setProc rfl rfl))
    | some d =>
      simp only at h
      obtain ⟨k₃, hswap, h⟩ := bind_eq_ok.mp h
      simp only [pure_eq_ok, Prod.mk.injEq] at h
      obtain ⟨rfl, -⟩ := h
      refine hcopied.append ?_
      -- whether or not the caller's slot was handed out again, its table is the one copied
      have hk₃ : ∃ p, k₃ = k₂.setProc np p ∧ p.timer = (k₂.proc c).timer ∧
          p.pagesInPhysicalMemory = (k₂.proc np).pagesInPhysicalMemory := by
        rcases copySwapFile_ok hswap with rfl | ⟨f, rfl⟩
        · exact ⟨_, rfl, rfl, rfl⟩
        · exact ⟨_, by rw [setSwapFile, setProc_setProc], by simp, by simp⟩
      obtain ⟨p, rfl, htimer, hram⟩ := hk₃
      rw [setProc_setProc]
      refine (TableStep.inherited (d := d) ?_ ?_ ?_).trace
      · by_cases hc : c = np
        · subst hc
          simp [hram]
        · simp [setProc_proc_of_ne hc]
      · simpa using htimer
      · intro c' hc
        rw [setProc_proc_of_ne hc]
        exact .refl _

private theorem exit_trace (h : k.exit c = .ok k') : Trace cfg k (k.exitMoments c) k' := by
  rw [exit_ok h]
  unfold exitMoments
  set k₁ := if (k.proc c).pid > 2 then k.removeSwapFile c else k with hk₁
  have hclosed : k.SameTables k₁ ∧ k₁.setProc c (exited (k.proc c)) = k.setProc c (exited (k.proc c)) := by
    rw [hk₁]
    split
    · exact ⟨.of_setProc rfl rfl, setProc_setProc ..⟩
    · exact ⟨.refl k, rfl⟩
  have hram : (k₁.proc c).pagesInPhysicalMemory = (k.proc c).pagesInPhysicalMemory := by
    rw [hk₁]
    split
    · simp [removeSwapFile, setSwapFile]
    · rfl
  have htimer : (k₁.proc c).timer = (k.proc c).timer := (hclosed.1 c).timer
  have hcleared : Trace cfg k₁ _ (k₁.setProc c (k₁.proc c).clearMetaData) := TableStep.cleared.trace
  have hzombie : (k₁.setProc c (k₁.proc c).clearMetaData).SameTables
      ((k₁.setProc c (k₁.proc c).clearMetaData).setProc c (exited (k.proc c))) := by
    refine .of_setProc ?_ ?_
    · simp [exited, Proc.clearMetaData, hram]
    · simp [exited, Proc.clearMetaData, htimer]
  rw [setProc_setProc, hclosed.2] at hzombie
  exact (hcleared.from_same hclosed.1).to_same hzombie

private theorem wait_trace {p : Slot} (h : k.wait cfg c p = .ok k') :
    Trace cfg k (k.waitMoments cfg c p) k' := by
  simp only [wait] at h
  obtain ⟨k₁, hfree, h⟩ := bind_eq_ok.mp h
  have hfreed : k.SameTables k₁ := by
    unfold kfreeStack at hfree
    split at hfree
    · simp at hfree
    · exact kfree_tables hfree
  obtain ⟨k₂, hfreevm, h⟩ := bind_eq_ok.mp h
  simp only [pure_eq_ok] at h
  subst h
  simp only [waitMoments, hfree, after_ok, hfreevm]
  have hstack : k₁.SameTables (k₁.setProc p { k₁.proc p with kstack := none }) := .of_setProc rfl rfl
  have hreset : k₂.SameTables (k₂.setProc p
      { k₂.proc p with pid := 0, killed := false, state := .UNUSED }) := .of_setProc rfl rfl
  exact ((freevm_trace hfreevm).from_same (hfreed.trans hstack)).append
    ((TableStep.cleared (c := p)).trace.from_same hreset)

private theorem Aged.tables (h : Aged c k k') : k.SameTables k' := by
  cases h with
  | same => exact .refl _
  | @shifted i hused htable =>
    intro c'
    by_cases hc : c' = c
    · subst hc
      refine ⟨?_, by simp [setRam]⟩
      intro i'
      by_cases hi : i' = i
      · subst hi
        simp [setRam]
      · simp [setRam, hi]
    · simp only [setRam, setProc_proc_of_ne hc, setPte_proc]
      exact .refl _

private theorem tick_tables (h : k.updateAgeForAllProcess = .ok k') : k.SameTables k' :=
  updateAgeForAllProcess_keeps (I := k.SameTables)
    (fun _ _ _ _ _ _ _ hI haged => hI.trans haged.tables) (.refl k) h

/-- Only the contents of frames differ. -/
def SameButMem (k k' : Kernel) : Prop := ∃ mem, k' = { k with mem := mem }

theorem SameButMem.refl (k : Kernel) : SameButMem k k := ⟨k.mem, rfl⟩

theorem SameButMem.trans (h : SameButMem k k₁) (h' : SameButMem k₁ k₂) : SameButMem k k₂ := by
  obtain ⟨mem, rfl⟩ := h
  obtain ⟨mem', rfl⟩ := h'
  exact ⟨mem', rfl⟩

theorem SameButMem.tables (h : SameButMem k k') : k.SameTables k' := by
  obtain ⟨mem, rfl⟩ := h
  exact .of_proc rfl

theorem patch_same (k : Kernel) (fr : Frame) (off n : Nat) (bytes : Nat → Byte) :
    SameButMem k (k.patch fr off n bytes) := ⟨_, rfl⟩

private theorem readPage_same (k : Kernel) (ip : Inode) (pa : Frame) (off n : Nat) :
    SameButMem k (k.readPage ip pa off n).1 := by
  unfold readPage
  split
  · exact .refl k
  · exact patch_same _ _ _ _ _

private theorem loadLoop_same {addr offset sz : Nat} {ip : Inode} :
    ∀ (fuel i : Nat) (k k' : Kernel) (ok : Bool), loadLoop d addr ip offset sz fuel i k = .ok (k', ok) →
      SameButMem k k' := by
  intro fuel
  induction fuel with
  | zero =>
    intro i k k' ok h
    obtain ⟨rfl, -⟩ : k = k' ∧ true = ok := by simpa [loadLoop] using h
    exact .refl k
  | succ fuel ih =>
    intro i k k' ok h
    simp only [loadLoop] at h
    split at h
    · split at h
      · simp at h
      · next pte hw =>
        have hread := readPage_same k ip (pteAddr pte) ((offset + i) % 2 ^ 32) (min (sz - i) pgSize)
        split at h
        · next k₁ heq =>
          rw [heq] at hread
          exact hread.trans (ih _ _ _ _ h)
        · next k₁ heq =>
          rw [heq] at hread
          obtain ⟨rfl, -⟩ : k₁ = k' ∧ false = ok := by simpa using h
          exact hread
    · obtain ⟨rfl, -⟩ : k = k' ∧ true = ok := by simpa using h
      exact .refl k

theorem loaduvm_same {addr offset sz : Nat} {ip : Inode} {ok : Bool}
    (h : k.loaduvm d addr ip offset sz = .ok (k', ok)) : SameButMem k k' := by
  unfold loaduvm at h
  split at h
  · simp at h
  · exact loadLoop_same _ _ _ _ _ h

private theorem copyoutLoop_same {src : Source} {len : Nat} :
    ∀ (fuel i va : Nat) (k k' : Kernel) (ok : Bool), copyoutLoop c d src len fuel i va k = .ok (k', ok) →
      SameButMem k k' := by
  intro fuel
  induction fuel with
  | zero =>
    intro i va k k' ok h
    obtain ⟨rfl, -⟩ : k = k' ∧ true = ok := by simpa [copyoutLoop] using h
    exact .refl k
  | succ fuel ih =>
    intro i va k k' ok h
    simp only [copyoutLoop] at h
    split at h
    · obtain ⟨r, hka, h⟩ := bind_eq_ok.mp h
      split at h
      · obtain ⟨rfl, -⟩ : k = k' ∧ false = ok := by simpa using h
        exact .refl k
      · obtain ⟨bytes, hfetch, h⟩ := bind_eq_ok.mp h
        exact (patch_same _ _ _ _ _).trans (ih _ _ _ _ _ h)
    · obtain ⟨rfl, -⟩ : k = k' ∧ true = ok := by simpa using h
      exact .refl k

private theorem pushArgs_same :
    ∀ (argv : List Nat) (sp : Nat) (ustack : List Nat) (k k' : Kernel) (r : Option (Nat × List Nat)),
      pushArgs c d argv sp ustack k = .ok (k', r) → SameButMem k k' := by
  intro argv
  induction argv with
  | nil =>
    intro sp ustack k k' r h
    obtain ⟨rfl, -⟩ : k = k' ∧ some (sp, ustack) = r := by simpa [pushArgs] using h
    exact .refl k
  | cons arg argv ih =>
    intro sp ustack k k' r h
    simp only [pushArgs] at h
    split at h
    · obtain ⟨rfl, -⟩ : k = k' ∧ none = r := by simpa using h
      exact .refl k
    · obtain ⟨len, hlen, h⟩ := bind_eq_ok.mp h
      obtain ⟨⟨k₁, ok⟩, hcopy, h⟩ := bind_eq_ok.mp h
      have hsame : SameButMem k k₁ := copyoutLoop_same _ _ _ _ _ _ hcopy
      split at h
      · exact hsame.trans (ih _ _ _ _ _ h)
      · obtain ⟨rfl, -⟩ : k₁ = k' ∧ none = r := by simpa using h
        exact hsame

private theorem buildStack_same {sz : Nat} {argv : List Nat} {ok : Bool}
    (h : k.buildStack c d sz argv = .ok (k', ok)) : SameButMem k k' := by
  simp only [buildStack] at h
  obtain ⟨⟨k₁, r⟩, hargs, h⟩ := bind_eq_ok.mp h
  have hsame := pushArgs_same _ _ _ _ _ _ hargs
  split at h
  · next heq =>
    obtain ⟨rfl, -⟩ := Prod.mk.inj heq
    obtain ⟨rfl, -⟩ : k₁ = k' ∧ false = ok := by simpa using h
    exact hsame
  · next heq =>
    obtain ⟨rfl, -⟩ := Prod.mk.inj heq
    exact hsame.trans (copyoutLoop_same _ _ _ _ _ _ h)

private theorem clearpteuPage_tables {uva : Nat} (h : k.clearpteuPage d uva = .ok k') :
    k.SameTables k' := by
  unfold clearpteuPage at h
  split at h
  · simp at h
  · simp only [Except.ok.injEq] at h
    subst h
    exact .of_proc rfl

private theorem loadSegment_trace {ip : Inode} {off sz : Nat} {r : Option Nat}
    {used : Nat} (h : loadSegment cfg used k c d ip off sz = .ok (k', r)) :
    Trace cfg k (k.segmentMoments cfg c d ip off sz) k' := by
  have hdone : ∀ {r'}, (Except.ok (k, r') : Except Crash (Kernel × Option Nat)) = .ok (k', r) →
      Trace cfg k [] k' := by
    intro r' h
    obtain ⟨rfl, -⟩ := Prod.mk.inj (Except.ok.inj h)
    exact .refl k
  simp only [loadSegment] at h
  unfold segmentMoments
  cases hheader : ip.header off proghdrSize with
  | none =>
    rw [hheader] at h
    exact hdone h
  | some bytes =>
    rw [hheader] at h
    dsimp only at h ⊢
    split at h
    · next htype =>
      rw [if_pos htype]
      exact hdone h
    · next htype =>
      rw [if_neg htype]
      split at h
      · next hsmall =>
        rw [if_pos hsmall]
        exact hdone h
      · next hsmall =>
        rw [if_neg hsmall]
        split at h
        · next hwrap =>
          rw [if_pos hwrap]
          exact hdone h
        · next hwrap =>
          rw [if_neg hwrap]
          obtain ⟨⟨k₁, sz₁⟩, halloc, h⟩ := bind_eq_ok.mp h
          have hgrown := allocuvm_trace (allocuvmInOp_ok cfg halloc)
          split at h
          · obtain ⟨rfl, -⟩ : k₁ = k' ∧ none = r := by simpa using h
            exact hgrown
          · split at h
            · obtain ⟨rfl, -⟩ : k₁ = k' ∧ none = r := by simpa using h
              exact hgrown
            · obtain ⟨⟨k₂, ok⟩, hload, h⟩ := bind_eq_ok.mp h
              obtain ⟨rfl, -⟩ : k₂ = k' ∧ (if ok = true then some sz₁ else none) = r := by simpa using h
              exact hgrown.to_same (loaduvm_same hload).tables

private theorem loadSegments_trace {ip : Inode} {used : Nat} :
    ∀ (n off sz : Nat) (k k' : Kernel) (r : Option Nat),
      loadSegments cfg used c d ip n off sz k = .ok (k', r) →
      Trace cfg k (segmentsMoments cfg used c d ip n off sz k) k' := by
  intro n
  induction n with
  | zero =>
    intro off sz k k' r h
    obtain ⟨rfl, -⟩ : k = k' ∧ some sz = r := by simpa [loadSegments] using h
    exact .refl k
  | succ n ih =>
    intro off sz k k' r h
    simp only [loadSegments] at h
    obtain ⟨⟨k₁, r₁⟩, hseg, h⟩ := bind_eq_ok.mp h
    have hloaded := loadSegment_trace hseg
    unfold segmentsMoments
    rw [hseg, after_ok]
    split at h
    · next heq =>
      obtain ⟨rfl, rfl⟩ := Prod.mk.inj heq
      obtain ⟨rfl, -⟩ : k₁ = k' ∧ none = r := by simpa using h
      rw [List.append_nil]
      exact hloaded
    · next heq =>
      obtain ⟨rfl, rfl⟩ := Prod.mk.inj heq
      exact hloaded.append (ih _ _ _ _ _ h)

private theorem allocStack_trace
    {sz : Nat} {r : Option Nat} (h : k.allocStack cfg c d sz = .ok (k', r)) :
    Trace cfg k (k.stackMoments cfg c d sz) k' := by
  simp only [allocStack] at h
  obtain ⟨⟨k₁, sz₁⟩, hguard, h⟩ := bind_eq_ok.mp h
  have hgrown := allocuvm_trace hguard
  simp only [stackMoments, hguard, after_ok]
  split at h
  · next hzero =>
    obtain ⟨rfl, -⟩ : k₁ = k' ∧ none = r := by simpa using h
    rw [if_pos hzero, List.append_nil]
    exact hgrown
  · next hzero =>
    obtain ⟨⟨k₂, sz₂⟩, hstack, h⟩ := bind_eq_ok.mp h
    have hgrown₂ := hgrown.append (allocuvm_trace hstack)
    rw [if_neg hzero]
    split at h
    · obtain ⟨rfl, -⟩ : k₂ = k' ∧ none = r := by simpa using h
      exact hgrown₂
    · obtain ⟨k₃, hclear, h⟩ := bind_eq_ok.mp h
      obtain ⟨rfl, -⟩ : k₃ = k' ∧ some sz₂ = r := by simpa using h
      exact hgrown₂.to_same (clearpteuPage_tables hclear)

private theorem buildImage_trace {ip : Inode} {elf : Elfhdr} {argv : List Nat} {r : Option Nat}
    (h : k.buildImage cfg c d ip elf argv = .ok (k', r)) :
    Trace cfg k (k.imageMoments cfg c d ip elf) k' := by
  simp only [buildImage] at h
  obtain ⟨⟨k₁, r₁⟩, hload, h⟩ := bind_eq_ok.mp h
  have hloaded := loadSegments_trace _ _ _ _ _ _ hload
  unfold imageMoments
  rw [hload, after_ok]
  split at h
  · next heq =>
    obtain ⟨rfl, rfl⟩ := Prod.mk.inj heq
    obtain ⟨rfl, -⟩ : k₁ = k' ∧ none = r := by simpa using h
    rw [List.append_nil]
    exact hloaded
  · next heq =>
    obtain ⟨rfl, rfl⟩ := Prod.mk.inj heq
    obtain ⟨⟨k₂, r₂⟩, hstack, h⟩ := bind_eq_ok.mp h
    have hstacked := hloaded.append (allocStack_trace hstack)
    split at h
    · next heq =>
      obtain ⟨rfl, -⟩ := Prod.mk.inj heq
      obtain ⟨rfl, -⟩ : k₂ = k' ∧ none = r := by simpa using h
      exact hstacked
    · next sz heq =>
      obtain ⟨rfl, -⟩ := Prod.mk.inj heq
      obtain ⟨⟨k₃, ok⟩, hbuild, h⟩ := bind_eq_ok.mp h
      obtain ⟨rfl, -⟩ : k₃ = k' ∧ (if ok = true then some sz else none) = r := by simpa using h
      exact hstacked.to_same (buildStack_same hbuild).tables

private theorem commit_trace {sz path : Nat} (h : k.commit cfg c d sz path = .ok k') :
    Trace cfg k (k.commitMoments cfg c d sz) k' := by
  simp only [commit] at h
  obtain ⟨len, hlen, h⟩ := bind_eq_ok.mp h
  have hset : k.SameTables (k.setProc c { k.proc c with pgdir := d, sz := sz }) := .of_setProc rfl rfl
  refine ((freevm_trace h).from_same ?_).from_same hset
  split
  · have hremoved : (k.setProc c { k.proc c with pgdir := d, sz := sz }).SameTables
        ((k.setProc c { k.proc c with pgdir := d, sz := sz }).removeSwapFile c) := .of_setProc rfl rfl
    exact hremoved.trans (.of_setProc rfl rfl)
  · exact .refl _

private theorem exec_trace {path : Nat} {ip : Option Inode} {argv : List Nat} {ok : Bool}
    (h : k.exec cfg c path ip argv = .ok (k', ok)) : Trace cfg k (k.execMoments cfg c ip argv) k' := by
  have hdone : (Except.ok (k, false) : Except Crash (Kernel × Bool)) = .ok (k', ok) → Trace cfg k [] k' := by
    intro h
    obtain ⟨rfl, -⟩ := Prod.mk.inj (Except.ok.inj h)
    exact .refl k
  simp only [exec] at h
  unfold execMoments
  cases ip with
  | none => exact hdone h
  | some ip =>
    dsimp only at h ⊢
    cases hheader : ip.header 0 elfhdrSize with
    | none =>
      rw [hheader] at h
      exact hdone h
    | some bytes =>
      rw [hheader] at h
      dsimp only at h ⊢
      split at h
      · next hmagic =>
        rw [if_pos hmagic]
        exact hdone h
      · next hmagic =>
        rw [if_neg hmagic]
        obtain ⟨⟨r₁, k₁⟩, hsetup, h⟩ := bind_eq_ok.mp h
        have hset := setupkvm_trace hsetup
        rw [hsetup, after_ok]
        cases r₁ with
        | none =>
          obtain ⟨rfl, -⟩ : k₁ = k' ∧ false = ok := by simpa using h
          dsimp only
          rw [List.append_nil]
          exact hset
        | some d =>
          obtain ⟨⟨k₃, r₃⟩, hbuild, h⟩ := bind_eq_ok.mp h
          refine hset.append ?_
          have hbuilt := buildImage_trace hbuild
          dsimp only
          rw [hbuild, after_ok]
          refine hbuilt.append ?_
          split at h
          · next heq =>
            obtain ⟨rfl, rfl⟩ := Prod.mk.inj heq
            obtain ⟨k₄, hfreevm, h⟩ := bind_eq_ok.mp h
            obtain ⟨rfl, -⟩ : k₄ = k' ∧ false = ok := by simpa using h
            exact freevm_trace hfreevm
          · next heq =>
            obtain ⟨rfl, rfl⟩ := Prod.mk.inj heq
            obtain ⟨k₄, hcommit, h⟩ := bind_eq_ok.mp h
            obtain ⟨rfl, -⟩ : k₄ = k' ∧ true = ok := by simpa using h
            exact commit_trace hcommit

private theorem growproc_trace {n : Int} {ok : Bool} (h : k.growproc cfg c n = .ok (k', ok)) :
    Trace cfg k (k.growMoments cfg c n) k' := by
  have hend : ∀ (k₁ : Kernel) (r : Nat), (if n ≠ 0 ∧ r = 0 then pure (k₁, false)
      else pure (k₁.setProc c { k₁.proc c with sz := r }, true) : Except Crash (Kernel × Bool)) = .ok (k', ok) →
      k₁.SameTables k' := by
    intro k₁ r h
    split at h
    · obtain ⟨rfl, -⟩ := Prod.mk.inj (Except.ok.inj h)
      exact .refl k₁
    · obtain ⟨rfl, -⟩ := Prod.mk.inj (Except.ok.inj h)
      exact .of_setProc rfl rfl
  simp only [growproc] at h
  simp only [growMoments]
  split at h
  · next hpos =>
    obtain ⟨⟨k₁, r⟩, hgrow, h⟩ := bind_eq_ok.mp h
    rw [if_pos hpos]
    exact (allocuvm_trace hgrow).to_same (hend k₁ r h)
  · next hpos =>
    rw [if_neg hpos]
    split at h
    · next hneg =>
      obtain ⟨⟨k₁, r⟩, hshrink, h⟩ := bind_eq_ok.mp h
      rw [if_pos hneg]
      exact (deallocuvm_trace hshrink).to_same (hend k₁ r h)
    · next hneg =>
      rw [if_neg hneg]
      exact .still (hend k (k.proc c).sz h)

end Kernel

namespace Call

variable {cfg : Config} {k k' : Kernel} {a : Call}

theorem Step.ok (h : Step cfg k a k') : a.perform cfg k = .ok k' := by
  unfold Step at h
  cases hp : a.perform cfg k with
  | error e => simp [hp, Except.toOption] at h
  | ok k₁ =>
    obtain rfl : k₁ = k' := by simpa [hp, Except.toOption] using h
    rfl

private theorem trace (h : a.perform cfg k = .ok k') : Kernel.Trace cfg k (a.moments cfg k) k' := by
  have hdrop : ∀ {β : Type} {x : Except Crash (Kernel × β)},
      (do let (k, _) ← x; return k) = .ok k' → ∃ b, x = .ok (k', b) := by
    intro β x hx
    obtain ⟨⟨k₁, b⟩, rfl, hx⟩ := bind_eq_ok.mp hx
    obtain rfl : k₁ = k' := by simpa using hx
    exact ⟨b, rfl⟩
  cases a with
  | allocuvm c d oldsz newsz isImportant =>
    obtain ⟨r, hcall⟩ := hdrop h
    exact Kernel.allocuvm_trace hcall
  | deallocuvm c d oldsz newsz =>
    obtain ⟨r, hcall⟩ := hdrop h
    exact Kernel.deallocuvm_trace hcall
  | retrievePage c cr2 =>
    obtain ⟨r, hcall⟩ := hdrop h
    exact Kernel.retrievePage_trace hcall
  | exec c path ip argv =>
    obtain ⟨r, hcall⟩ := hdrop h
    exact Kernel.exec_trace hcall
  | fork c =>
    obtain ⟨r, hcall⟩ := hdrop h
    exact Kernel.fork_trace hcall
  | exit c => exact Kernel.exit_trace h
  | wait c p => exact Kernel.wait_trace h
  | tick => exact .still (Kernel.tick_tables h)

end Call

private theorem Deed.trace {cfg : Config} {k k' : Kernel} {e : Deed} (h : e.perform cfg k = .ok k') :
    Kernel.Trace cfg k (e.moments cfg k) k' := by
  cases e with
  | call a => exact Call.trace h
  | growproc c n =>
    unfold Deed.perform at h
    obtain ⟨⟨k₁, ok⟩, hgrow, hk'⟩ := bind_eq_ok.mp h
    obtain rfl : k₁ = k' := by simpa using hk'
    exact Kernel.growproc_trace hgrow
  | referenced c i =>
    obtain rfl : k.setAccessed c i = k' := Except.ok.inj h
    exact .still (.of_proc rfl)

private theorem runMoments_trace {α : Type} {cfg : Config} {perform : Kernel → α → Except Crash Kernel}
    {moments : Kernel → α → List Moment} {k k' : Kernel} {as : List α}
    (hstep : ∀ k a k', perform k a = .ok k' → Kernel.Trace cfg k (moments k a) k')
    (hrun : Run (fun k a k' => perform k a = .ok k') k as k') :
    Kernel.Trace cfg k (runMoments perform moments k as) k' := by
  induction hrun with
  | nil k => exact .refl k
  | @cons k k₁ k' a as hfirst _ ih =>
    unfold runMoments
    rw [hfirst, after_ok]
    exact (hstep k a k₁ hfirst).append ih

theorem Call.run_trace {cfg : Config} {k k' : Kernel} {calls : List Call}
    (hrun : Run (Call.Step cfg) k calls k') :
    Kernel.Trace cfg k (Call.runMoments cfg k calls) k' :=
  runMoments_trace (fun _ _ _ => Call.trace) (hrun.mono fun _ _ _ => Call.Step.ok)

theorem Deed.run_trace {cfg : Config} {k k' : Kernel} {es : List Deed}
    (hrun : Run (Deed.Step cfg) k es k') :
    Kernel.Trace cfg k (Deed.runMoments cfg k es) k' :=
  runMoments_trace (fun _ _ _ => Deed.trace) hrun

end OsSessional.Paging
