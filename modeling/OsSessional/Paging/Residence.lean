import OsSessional.Lib.Arrivals
import OsSessional.Paging.Start
import OsSessional.Paging.Writes

/-!
# Order of residence

Written down one after the other, the writes to the RAM tables say which slots are taken and in what
order their pages came in. As long as no timer wraps, the timers of the entries follow that order,
and the policies that compare timers take the page they mean to.
-/

namespace OsSessional.Paging

open Function (update update_self update_of_ne)
open Outcome

/-- The RAM slots of each process in order of arrival. -/
abbrev Residents := Slot → List (Fin maxPyscPages)

def Write.apply (q : Residents) : Write → Residents
  | .arrived c i => update q c (q c ++ [i])
  | .evicted c i => update q c ((q c).erase i)
  | .removed c i => update q c ((q c).erase i)
  | .cleared c => update q c []
  | .inherited c np => update q np (q c)
  | .other => q

/-- Who is in RAM after the writes at these moments, starting from empty tables. -/
def residents (ms : List Moment) : Residents := ms.foldl (fun q m => m.write.apply q) fun _ => []

/-- One page of code, in no RAM slot. -/
def Solo.untracked : Solo where
  npages := 1
  nfree := 200
  slot _ := none
  guard := none
  contents n := UInt8.ofNat (n + 1)
  small := by decide
  slot_lt _ _ h := by simp at h
  slot_inj _ _ _ h := by simp at h

namespace Kernel

variable {cfg : Config} {k k' k₁ : Kernel} {c : Slot} {w : Write} {ms : List Moment}

/-- No timer has reached the largest `int`. -/
def TimersBelow (k : Kernel) : Prop := ∀ c, (k.proc c).timer < 2 ^ 31 - 1

/-- Every RAM table is ordered by its timers as `q` says. -/
def InOrder (k : Kernel) (q : Residents) : Prop := ∀ c,
  Arrivals (fun i => ((k.proc c).pagesInPhysicalMemory i).isUsed)
    (fun i => ((k.proc c).pagesInPhysicalMemory i).timer) (k.proc c).timer (q c)

/-- No RAM slot is in use, no timer negative. -/
structure Fresh (k : Kernel) : Prop where
  unused : ∀ c i, ((k.proc c).pagesInPhysicalMemory i).isUsed = false
  timer : ∀ c, 0 ≤ (k.proc c).timer
  below : k.TimersBelow

theorem fresh_untracked : Solo.untracked.kernel.Fresh := by
  have hproc : ∀ c, Solo.untracked.kernel.proc c = Solo.untracked.proc ∨
      Solo.untracked.kernel.proc c = Solo.idle := by
    intro c
    simp only [Solo.kernel]
    split
    · exact .inl rfl
    · exact .inr rfl
  refine ⟨?_, ?_, ?_⟩
  · intro c i
    rcases hproc c with h | h
    · rw [h]
      rfl
    · rw [h]
      rfl
  · intro c
    rcases hproc c with h | h
    · simp [h, Solo.proc]
    · simp [h, Solo.idle]
  · intro c
    rcases hproc c with h | h
    · simp [h, Solo.proc, maxPyscPages]
    · simp [h, Solo.idle]

section Order

variable {q : Residents}

theorem tick_of_lt {t : Int} (h₀ : 0 ≤ t) (h : t < 2 ^ 31 - 1) : Proc.tick t = t + 1 := by
  unfold Proc.tick
  rw [Int.bmod_eq_of_le] <;> omega

private theorem InOrder.stay {l : List (Fin maxPyscPages)} {p p' : Proc} (hs : p.SameStay p')
    (h : Arrivals (fun i => (p.pagesInPhysicalMemory i).isUsed)
      (fun i => (p.pagesInPhysicalMemory i).timer) p.timer l) :
    Arrivals (fun i => (p'.pagesInPhysicalMemory i).isUsed)
      (fun i => (p'.pagesInPhysicalMemory i).timer) p'.timer l := by
  rw [hs.timer]
  apply h.congr
  · intro i
    rw [hs.ram i]
  · intro i _
    rw [hs.ram i]
  · exact le_refl _

private theorem InOrder.write (h : k.InOrder q) {p : Proc} {l : List (Fin maxPyscPages)}
    (hl : Arrivals (fun i => (p.pagesInPhysicalMemory i).isUsed)
      (fun i => (p.pagesInPhysicalMemory i).timer) p.timer l) :
    (k.setProc c p).InOrder (update q c l) := by
  intro c'
  by_cases hc : c' = c
  · subst hc
    simpa using hl
  · simpa [hc, setProc_proc_of_ne hc] using h c'

private theorem InOrder.of_proc (h : k.InOrder q) (hproc : k'.proc = k.proc) : k'.InOrder q := by
  unfold InOrder
  rw [hproc]
  exact h

private theorem InOrder.vacate (h : k.InOrder q) {i : Fin maxPyscPages} {p : Proc} {e : PageData}
    (hfree : e.isUsed = false)
    (hram : p.pagesInPhysicalMemory = update (k.proc c).pagesInPhysicalMemory i e)
    (htimer : p.timer = (k.proc c).timer) :
    (k.setProc c p).InOrder (update q c ((q c).erase i)) := by
  refine h.write ?_
  rw [htimer, hram]
  refine (h c).leave (by simpa using hfree) ?_
  intro j hj
  simp [hj]

private theorem InOrder.fill (h : k.InOrder q) {i : Fin maxPyscPages} {p : Proc} {e : PageData}
    (htick : Proc.tick (k.proc c).timer = (k.proc c).timer + 1)
    (hfree : ((k.proc c).pagesInPhysicalMemory i).isUsed = false)
    (hused : e.isUsed = true) (hstamp : e.timer = (k.proc c).timer)
    (hram : p.pagesInPhysicalMemory = update (k.proc c).pagesInPhysicalMemory i e)
    (htimer : p.timer = Proc.tick (k.proc c).timer) :
    (k.setProc c p).InOrder (update q c (q c ++ [i])) := by
  refine h.write ?_
  rw [htimer, hram, htick]
  refine (h c).arrive hfree (by simpa using hused) (by simpa using hstamp) ?_
  intro j hj
  simp [hj]

theorem InOrder.evicted (h : k.InOrder q) {note : PageData → PageData → PageData}
    {i : Fin maxPyscPages} (hevict : k.evictPage cfg note c = .ok (k', some i)) :
    k'.InOrder (update q c ((q c).erase i)) := by
  rcases evictPage_ok hevict with ⟨hnone, -⟩ | ⟨i', j, f, page, hi, hev⟩
  · simp at hnone
  · obtain rfl : i = i' := by simpa using hi
    rw [hev.result]
    refine InOrder.of_proc (k := k.setProc c (evictedProc note (k.proc c) i j
      (f.overlay (pageBytes page) (pgSize * j) pgSize))) ?_ rfl
    exact h.vacate (e := { (k.proc c).pagesInPhysicalMemory i with isUsed := false }) rfl rfl rfl

private theorem InOrder.skip (h : k.InOrder q) {i : Fin maxPyscPages} {p : Proc} {e : PageData}
    (htick : Proc.tick (k.proc c).timer = (k.proc c).timer + 1)
    (hfree : ((k.proc c).pagesInPhysicalMemory i).isUsed = false)
    (hunused : e.isUsed = false)
    (hram : p.pagesInPhysicalMemory = update (k.proc c).pagesInPhysicalMemory i e)
    (htimer : p.timer = Proc.tick (k.proc c).timer) : (k.setProc c p).InOrder q := by
  rw [← Function.update_eq_self c q]
  refine h.write ?_
  rw [htimer, hram, htick]
  refine (h c).congr ?_ ?_ (by omega)
  · intro i'
    by_cases hi : i' = i
    · subst hi
      simp [hfree, hunused]
    · simp [hi]
  · intro i' hused
    have hi : i' ≠ i := by
      rintro rfl
      simp [hfree] at hused
    simp [hi]

theorem InOrder.step_of_tick (h : k.InOrder q) (hstep : TableStep cfg k w k')
    (hticks : ∀ c, (k'.proc c).timer = Proc.tick (k.proc c).timer →
      Proc.tick (k.proc c).timer = (k.proc c).timer + 1) : k'.InOrder (w.apply q) := by
  cases hstep with
  | evicted hevict => exact h.evicted hevict
  | @tracked c d va isImportant i hfree =>
    have htimer : ((k.proc c).updatePhysicalPageMetaData d va isImportant).timer =
        Proc.tick (k.proc c).timer := by
      simp [Proc.updatePhysicalPageMetaData, hfree]
    refine h.fill (hticks c (by simpa [updatePhysicalPageMetaData] using htimer))
      (Proc.freeRamIndex_free _ hfree) (e := ⟨d, true, va, (k.proc c).timer, 0, isImportant⟩) rfl rfl ?_ htimer
    simp [Proc.updatePhysicalPageMetaData, hfree]
  | @moved c j i hfree hused =>
    exact h.fill (hticks c (by simp [moveToRam])) hfree
      (e := { (k.proc c).pagesInDisc j with timer := (k.proc c).timer }) hused rfl rfl rfl
  | @stale c j i hfree hunused =>
    exact h.skip (hticks c (by simp [moveToRam])) hfree
      (e := { (k.proc c).pagesInDisc j with timer := (k.proc c).timer }) hunused rfl rfl
  | @removed c d va i hidx =>
    have hram : ((k.proc c).removePhysicalPageMetaData d va).pagesInPhysicalMemory =
        update (k.proc c).pagesInPhysicalMemory i (Proc.cleared ((k.proc c).pagesInPhysicalMemory i)) := by
      simp [Proc.removePhysicalPageMetaData, Proc.removeFrom, hidx]
    exact h.vacate rfl hram rfl
  | @created np k' hcreate =>
    obtain ⟨-, stack, rest, -, rfl⟩ := allocproc_some hcreate
    refine InOrder.write (k := { k with freelist := rest, nextpid := k.nextpid + 1 }) h ?_
    exact .empty (by simp [freshProc, Proc.clearMetaData]) (by simp [freshProc, Proc.clearMetaData])
  | @cleared c =>
    refine h.write ?_
    exact .empty (by simp [Proc.clearMetaData]) (h c).counter
  | @inherited c np d k' hram htimer hother =>
    intro c'
    by_cases hc : c' = np
    · subst hc
      simp only [Write.apply, update_self, hram, htimer]
      exact h c
    · simp only [Write.apply, update_of_ne hc]
      exact InOrder.stay (hother c' hc) (h c')
  | quiet hsame => exact fun c => InOrder.stay (hsame c) (h c)

private theorem InOrder.step (h : k.InOrder q) (hbelow : k.TimersBelow) (hstep : TableStep cfg k w k') :
    k'.InOrder (w.apply q) :=
  h.step_of_tick hstep fun c _ => tick_of_lt (h c).counter (hbelow c)

theorem Fresh.inOrder (h : k.Fresh) : k.InOrder fun _ => [] := fun c => .empty (h.unused c) (h.timer c)

theorem InOrder.still (h : k.InOrder q) (hsame : k.SameTables k') : k'.InOrder q :=
  fun c => InOrder.stay (hsame c) (h c)

private theorem InOrder.along (h : k.InOrder q) (htrace : Trace cfg k ms k')
    (hbelow : ∀ m ∈ ms, m.before.TimersBelow) :
    k'.InOrder (ms.foldl (fun q m => m.write.apply q) q) := by
  induction htrace generalizing q with
  | still hsame => exact h.still hsame
  | @moment k k₁ k₂ k' w ms hsame hstep _ ih =>
    have hnext : k₂.InOrder (w.apply q) :=
      (h.still hsame).step (hbelow ⟨k₁, w⟩ List.mem_cons_self) hstep
    exact ih hnext fun m hm => hbelow m (List.mem_cons_of_mem _ hm)

/-- What the policies that compare timers evict, when the pages of `p` came in as `q` says. -/
structure VictimInOrder (cfg : Config) (p : Proc) (q : List (Fin maxPyscPages)) : Prop where
  fifo : cfg.rAlgo = .FIFO → cfg.optimization = false →
    p.getReplacementPageIndexPhyMem cfg = q.head?
  fifo_optimized : cfg.rAlgo = .FIFO → cfg.optimization = true →
    p.getReplacementPageIndexPhyMem cfg =
      q.find? fun i => (p.pagesInPhysicalMemory i).isImportant != 1
  lifo : cfg.rAlgo = .LIFO → p.freeRamIndex = none →
    p.getReplacementPageIndexPhyMem cfg = q.getLast?

private theorem find?_true {α : Type*} (l : List α) : (l.find? fun _ => true) = l.head? := by
  cases l <;> rfl

private theorem InOrder.length (h : k.InOrder q) (hfull : (k.proc c).freeRamIndex = none) :
    1 < (q c).length := by
  have hused := (k.proc c).freeRamIndex_none hfull
  have hfirst := ((h c).mem ⟨0, by decide⟩).mpr (hused _)
  have hsecond := ((h c).mem ⟨1, by decide⟩).mpr (hused _)
  cases hq : q c with
  | nil => simp [hq] at hfirst
  | cons a l =>
    cases l with
    | nil =>
      rw [hq, List.mem_singleton] at hfirst hsecond
      rw [← hfirst] at hsecond
      simp at hsecond
    | cons b l => simp

theorem InOrder.victim_of_le (h : k.InOrder q) (hle : (k.proc c).timer ≤ 0x7fffffff) :
    VictimInOrder cfg (k.proc c) (q c) where
  fifo halgo hopt := by
    have hfirst := (h c).best_first (fun _ => true) hle
    rw [find?_true] at hfirst
    simpa [Proc.getReplacementPageIndexPhyMem, Proc.getReplacementPageIndexFIFO, halgo, hopt] using hfirst
  fifo_optimized halgo hopt := by
    have hfirst := (h c).best_first
      (fun i => ((k.proc c).pagesInPhysicalMemory i).isImportant != 1) hle
    simpa [Proc.getReplacementPageIndexPhyMem, Proc.getReplacementPageIndexFIFO, halgo, hopt, bne] using hfirst
  lifo halgo hfull := by
    have hlast := (h c).best_last (h.length hfull)
    simpa [Proc.getReplacementPageIndexPhyMem, Proc.getReplacementPageIndexLIFO, halgo] using hlast

private theorem InOrder.victim (h : k.InOrder q) (hbelow : k.TimersBelow) (c : Slot) :
    VictimInOrder cfg (k.proc c) (q c) := by
  apply h.victim_of_le
  have hlt := hbelow c
  omega

private theorem TableStep.victim {i : Fin maxPyscPages} (h : TableStep cfg k (.evicted c i) k') :
    (k.proc c).getReplacementPageIndexPhyMem cfg = some i := by
  cases h with
  | evicted hevict =>
    rcases evictPage_ok hevict with ⟨hnone, -⟩ | ⟨i', j, f, page, hi, hev⟩
    · simp at hnone
    · obtain rfl : i = i' := by simpa using hi
      exact hev.victim

end Order

/-- The calls of a run go through their moments, with nothing written in between. At every moment up to
which no timer has reached the largest `int`, and so at the end, the timers of the used RAM slots
increase in the order in which their pages came in; the page an eviction takes is then the first, the
first unimportant or the last of them. -/
theorem residence_of_run {k₀ : Kernel} {calls : List Call} (hfresh : k₀.Fresh)
    (hrun : Run (Call.Step cfg) k₀ calls k) :
    Trace cfg k₀ (Call.runMoments cfg k₀ calls) k ∧
      (∀ pre m post, Call.runMoments cfg k₀ calls = pre ++ m :: post →
        (∀ m' ∈ pre, m'.before.TimersBelow) → m.before.TimersBelow →
        m.before.InOrder (residents pre) ∧
          (∀ c, VictimInOrder cfg (m.before.proc c) (residents pre c)) ∧
          ∀ c i, m.write = .evicted c i →
            (m.before.proc c).getReplacementPageIndexPhyMem cfg = some i) ∧
      ((∀ m ∈ Call.runMoments cfg k₀ calls, m.before.TimersBelow) → k.TimersBelow →
        k.InOrder (residents (Call.runMoments cfg k₀ calls)) ∧
          ∀ c, VictimInOrder cfg (k.proc c) (residents (Call.runMoments cfg k₀ calls) c)) := by
  have htrace := Call.run_trace hrun
  refine ⟨htrace, ?_, ?_⟩
  · intro pre m post hmoments hpre hm
    rw [hmoments] at htrace
    have horder : m.before.InOrder (residents pre) := hfresh.inOrder.along htrace.before hpre
    refine ⟨horder, fun c => horder.victim hm c, fun c i hwrite => ?_⟩
    obtain ⟨k₂, hstep⟩ := htrace.at_moment (List.mem_append_right pre List.mem_cons_self)
    rw [hwrite] at hstep
    exact hstep.victim
  · intro hall hend
    have horder : k.InOrder (residents (Call.runMoments cfg k₀ calls)) :=
      hfresh.inOrder.along htrace hall
    exact ⟨horder, fun c => horder.victim hend c⟩

instance (k : Kernel) : Decidable k.TimersBelow :=
  inferInstanceAs (Decidable (∀ c, (k.proc c).timer < 2 ^ 31 - 1))

/-- A process outgrows its RAM slots, faults its first page in again and forks. -/
private def growFaultFork : List Call :=
  [.allocuvm Solo.main (Solo.frame 0) 4096 77824 0, .retrievePage Solo.main 4096, .fork Solo.main]

/-- The page-in evicts the page that came in fourth. -/
theorem residence_of_run_grow_fault_fork : ∃ k pre m post, ∃ i : Fin maxPyscPages,
    Run (Call.Step (Solo.config .FIFO)) Solo.untracked.kernel growFaultFork k ∧
      Call.runMoments (Solo.config .FIFO) Solo.untracked.kernel growFaultFork = pre ++ m :: post ∧
      m.write = .evicted Solo.main i ∧ (residents pre Solo.main).head? = some i ∧
      (m.before.proc Solo.main).getReplacementPageIndexPhyMem (Solo.config .FIFO) = some i ∧
      k.InOrder (residents (Call.runMoments (Solo.config .FIFO) Solo.untracked.kernel growFaultFork)) := by
  have hend : ((growFaultFork.foldlM (fun k (a : Call) => (a.perform (Solo.config .FIFO) k).toOption)
      Solo.untracked.kernel).map fun k => decide k.TimersBelow) = some true := by
    decide +kernel
  obtain ⟨k, hk, hbelow⟩ := Option.map_eq_some_iff.mp hend
  have hrun := Run.of_foldlM hk
  obtain ⟨-, hat, hafter⟩ := residence_of_run fresh_untracked hrun
  have hall : ∀ m ∈ Call.runMoments (Solo.config .FIFO) Solo.untracked.kernel growFaultFork,
      m.before.TimersBelow := by
    decide +kernel
  have hwrite : (Call.runMoments (Solo.config .FIFO) Solo.untracked.kernel growFaultFork)[21]?.map
      Moment.write = some (.evicted Solo.main ⟨3, by decide⟩) := by
    decide +kernel
  have hhead : (residents ((Call.runMoments (Solo.config .FIFO) Solo.untracked.kernel growFaultFork).take 21)
      Solo.main).head? = some ⟨3, by decide⟩ := by
    decide +kernel
  obtain ⟨m, hm, hwrite⟩ := Option.map_eq_some_iff.mp hwrite
  have hsplit := List.take_append_drop 21
    (Call.runMoments (Solo.config .FIFO) Solo.untracked.kernel growFaultFork)
  rw [List.drop_eq_getElem?_toList_append, hm] at hsplit
  have hmem := List.mem_of_getElem? hm
  obtain ⟨-, -, hvictim⟩ := hat _ m _ hsplit.symm (fun m' hm' => hall m' (List.mem_of_mem_take hm')) (hall m hmem)
  exact ⟨k, _, m, _, _, hrun, hsplit.symm, hwrite, hhead, hvictim _ _ hwrite,
    (hafter hall (of_decide_eq_true hbelow)).1⟩

end Kernel

end OsSessional.Paging
