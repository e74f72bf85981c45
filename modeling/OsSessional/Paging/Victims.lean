import OsSessional.Paging.Ages
import OsSessional.Paging.Residence

/-!
# Whether there is a victim

Each policy starts from an extreme value and takes an entry that beats it. The timers always leave
one that does, as long as none overflows; ages that have filled with set bits do not, and neither do pages
that are all important.
-/

namespace OsSessional.Paging

open Function (update update_self update_of_ne)
open Outcome History

namespace Kernel

section Statement

/-- No timer has overflowed. -/
def TimersSigned (k : Kernel) : Prop := ∀ c, 0 ≤ (k.proc c).timer

/-- `getReplacementPageIndexPhyMem` returns a slot in use. -/
def HasVictim (cfg : Config) (p : Proc) : Prop :=
  ∃ i, p.getReplacementPageIndexPhyMem cfg = some i ∧ (p.pagesInPhysicalMemory i).isUsed = true

/-- Under aging some age is not all ones, under the optimized FIFO some page is not important. -/
structure Choosable (cfg : Config) (p : Proc) : Prop where
  aging : cfg.rAlgo = .AGING → ∃ i, (p.pagesInPhysicalMemory i).ageCounter ≠ 0xffffffff
  optimized : cfg.rAlgo = .FIFO → cfg.optimization = true → ∃ i, (p.pagesInPhysicalMemory i).isImportant ≠ 1

end Statement

variable {cfg : Config} {k k' : Kernel} {c : Slot} {w : Write} {ms : List Moment} {q : Residents}

section Timers

private theorem tick_lt (t : Int) : Proc.tick t < 2 ^ 31 := by
  unfold Proc.tick
  have hlt := Int.bmod_lt (x := t + 1) (m := 2 ^ 32) (by decide)
  omega

private theorem tick_of_nonneg {t : Int} (h₀ : 0 ≤ t) (h : t < 2 ^ 31) (hnext : 0 ≤ Proc.tick t) :
    Proc.tick t = t + 1 := by
  apply tick_of_lt h₀
  by_contra hge
  obtain rfl : t = 2 ^ 31 - 1 := by omega
  exact absurd hnext (by decide)

private theorem TableStep.timer_lt
    (h : TableStep cfg k w k') (hlt : ∀ c, (k.proc c).timer < 2 ^ 31) (c : Slot) :
    (k'.proc c).timer < 2 ^ 31 := by
  have hset : ∀ (c' : Slot) (p : Proc), p.timer < 2 ^ 31 → ((k.setProc c' p).proc c).timer < 2 ^ 31 := by
    intro c' p hp
    by_cases hc : c = c'
    · subst hc
      rwa [setProc_proc_self]
    · rw [setProc_proc_of_ne hc]
      exact hlt c
  cases h with
  | evicted hevict =>
    rcases evictPage_ok hevict with ⟨hnone, -⟩ | ⟨i, j, f, page, -, hev⟩
    · simp at hnone
    · rw [hev.result]
      exact hset _ _ (hlt _)
  | @tracked c' d va isImportant i hfree =>
    apply hset
    simp only [Proc.updatePhysicalPageMetaData, hfree]
    exact tick_lt _
  | moved hfree hused => exact hset _ _ (tick_lt _)
  | stale hfree hunused => exact hset _ _ (tick_lt _)
  | removed h => exact hset _ _ (hlt _)
  | @created np k' hcreate =>
    obtain ⟨-, stack, rest, -, rfl⟩ := allocproc_some hcreate
    by_cases hc : c = np
    · subst hc
      simp [freshProc, Proc.clearMetaData]
    · rw [setProc_proc_of_ne hc]
      exact hlt c
  | cleared => exact hset _ _ (hlt _)
  | @inherited c' np d k' hram htimer hother =>
    by_cases hc : c = np
    · subst hc
      rw [htimer]
      exact hlt c'
    · rw [(hother c hc).timer]
      exact hlt c
  | quiet hsame =>
    rw [(hsame c).timer]
    exact hlt c

private theorem Trace.signed (h : Trace cfg k ms k') (hms : ∀ m ∈ ms, m.before.TimersSigned)
    (hend : k'.TimersSigned) : k.TimersSigned := by
  intro c
  cases h with
  | still hsame =>
    rw [← (hsame c).timer]
    exact hend c
  | @moment _ k₁ _ _ w _ hsame hstep hrest =>
    rw [← (hsame c).timer]
    exact hms ⟨k₁, w⟩ List.mem_cons_self c

private theorem InOrder.along_signed (h : k.InOrder q) (htrace : Trace cfg k ms k')
    (hlt : ∀ c, (k.proc c).timer < 2 ^ 31) (hms : ∀ m ∈ ms, m.before.TimersSigned)
    (hend : k'.TimersSigned) : k'.InOrder (ms.foldl (fun q m => m.write.apply q) q) := by
  induction htrace generalizing q with
  | still hsame => exact h.still hsame
  | @moment k k₁ k₂ k' w ms hsame hstep hrest ih =>
    have hlt₁ : ∀ c, (k₁.proc c).timer < 2 ^ 31 := by
      intro c
      rw [(hsame c).timer]
      exact hlt c
    have hms₂ : ∀ m ∈ ms, m.before.TimersSigned := fun m hm => hms m (List.mem_cons_of_mem _ hm)
    have horder : k₂.InOrder (w.apply q) := by
      apply (h.still hsame).step_of_tick hstep
      intro c htick
      apply tick_of_nonneg (hms ⟨k₁, w⟩ List.mem_cons_self c) (hlt₁ c)
      rw [← htick]
      exact hrest.signed hms₂ hend c
    exact ih horder (hstep.timer_lt hlt₁) hms₂ hend

end Timers

section Exists

private theorem hasVictim_iff {p : Proc} :
    HasVictim cfg p ↔ (p.getReplacementPageIndexPhyMem cfg).isSome = true := by
  rw [Option.isSome_iff_exists]
  constructor
  · exact fun ⟨i, hi, _⟩ => ⟨i, hi⟩
  · exact fun ⟨i, hi⟩ => ⟨i, hi, p.getReplacementPageIndexPhyMem_used cfg hi⟩

private theorem InOrder.hasVictim_iff (h : k.InOrder q)
    (hfull : ∀ i, ((k.proc c).pagesInPhysicalMemory i).isUsed = true)
    (htimer : (k.proc c).timer < 2 ^ 31 - 1) : HasVictim cfg (k.proc c) ↔ Choosable cfg (k.proc c) := by
  have hvictim : VictimInOrder cfg (k.proc c) (q c) := h.victim_of_le (by omega)
  have hmem : ∀ i, i ∈ q c := fun i => ((h c).mem i).mpr (hfull i)
  have hne : q c ≠ [] := List.ne_nil_of_mem (hmem ⟨0, by decide⟩)
  rw [Kernel.hasVictim_iff]
  cases halgo : cfg.rAlgo with
  | FIFO =>
    cases hopt : cfg.optimization with
    | false =>
      rw [hvictim.fifo halgo hopt]
      constructor
      · exact fun _ => ⟨fun h => by simp [halgo] at h, fun _ h => by simp [hopt] at h⟩
      · intro _
        rw [List.isSome_head?]
        simpa using hne
    | true =>
      rw [hvictim.fifo_optimized halgo hopt, List.find?_isSome]
      constructor
      · rintro ⟨i, -, hi⟩
        exact ⟨fun h => by simp [halgo] at h, fun _ _ => ⟨i, by simpa using hi⟩⟩
      · intro hchoosable
        obtain ⟨i, hi⟩ := hchoosable.optimized halgo hopt
        exact ⟨i, hmem i, by simpa using hi⟩
  | AGING =>
    rw [Option.isSome_iff_ne_none]
    simp only [Proc.getReplacementPageIndexPhyMem, halgo, Proc.getReplacementPageIndexAging, ne_eq,
      Scan.best_eq_none]
    constructor
    · intro hbeats
      refine ⟨fun _ => ?_, fun h => by simp [halgo] at h⟩
      by_contra hall
      apply hbeats
      intro i _
      rw [Classical.not_not.mp fun hne => hall ⟨i, hne⟩]
      decide
    · intro hchoosable hall
      obtain ⟨i, hi⟩ := hchoosable.aging halgo
      have hworst := of_decide_eq_false (hall i (hfull i))
      apply hi
      bv_omega
  | LIFO =>
    have hfree : (k.proc c).freeRamIndex = none := by
      cases hfree : (k.proc c).freeRamIndex with
      | none => rfl
      | some i =>
        have hunused := Proc.freeRamIndex_free _ hfree
        simp [hfull i] at hunused
    rw [hvictim.lifo halgo hfree]
    constructor
    · exact fun _ => ⟨fun h => by simp [halgo] at h, fun h => by simp [halgo] at h⟩
    · intro _
      rw [List.getLast?_isSome]
      simpa using hne

/-- Every deed of a run goes through its moments, the ones at which the policy is asked among them. At
every moment up to which no timer has overflowed, and so at the end, a process with a full RAM table
has a victim exactly when, under aging, some age is not all ones, and, under the optimized FIFO, some
page is not important. -/
theorem victim_exists_iff {k₀ : Kernel} {es : List Deed} (hfresh : k₀.Fresh)
    (hrun : Run (Deed.Step cfg) k₀ es k) :
    Trace cfg k₀ (Deed.runMoments cfg k₀ es) k ∧
      (∀ pre m post, Deed.runMoments cfg k₀ es = pre ++ m :: post →
        (∀ m' ∈ pre, m'.before.TimersSigned) → m.before.TimersSigned →
        ∀ c, (∀ i, ((m.before.proc c).pagesInPhysicalMemory i).isUsed = true) →
          (m.before.proc c).timer < 2 ^ 31 - 1 →
          (HasVictim cfg (m.before.proc c) ↔ Choosable cfg (m.before.proc c))) ∧
      ((∀ m ∈ Deed.runMoments cfg k₀ es, m.before.TimersSigned) → k.TimersSigned →
        ∀ c, (∀ i, ((k.proc c).pagesInPhysicalMemory i).isUsed = true) →
          (k.proc c).timer < 2 ^ 31 - 1 → (HasVictim cfg (k.proc c) ↔ Choosable cfg (k.proc c))) := by
  have htrace := Deed.run_trace hrun
  have hlt : ∀ c, (k₀.proc c).timer < 2 ^ 31 := by
    intro c
    have hbelow := hfresh.below c
    omega
  refine ⟨htrace, ?_, ?_⟩
  · intro pre m post hmoments hpre hm c hfull htimer
    rw [hmoments] at htrace
    exact (hfresh.inOrder.along_signed htrace.before hlt hpre hm).hasVictim_iff hfull htimer
  · intro hall hend c hfull htimer
    exact (hfresh.inOrder.along_signed htrace hlt hall hend).hasVictim_iff hfull htimer

instance (k : Kernel) : Decidable k.TimersSigned :=
  inferInstanceAs (Decidable (∀ c, 0 ≤ (k.proc c).timer))

/-- A process of 15 tracked pages, none important, evicts one for a sixteenth, and could go on. -/
theorem victim_exists_grown : ∃ k es, Run (Deed.Step ⟨.FIFO, true, 2 ^ 20, by decide⟩) Solo.untracked.kernel es k ∧
    (∀ i, ((k.proc Solo.main).pagesInPhysicalMemory i).isUsed = true) ∧
    HasVictim ⟨.FIFO, true, 2 ^ 20, by decide⟩ (k.proc Solo.main) := by
  have hend : (([Deed.growproc Solo.main 61440, .growproc Solo.main 4096].foldlM
      (fun k (e : Deed) => (e.perform ⟨.FIFO, true, 2 ^ 20, by decide⟩ k).toOption)
      Solo.untracked.kernel).map fun k => decide (k.TimersSigned ∧
        (∀ i, ((k.proc Solo.main).pagesInPhysicalMemory i).isUsed = true) ∧
        (∃ i, ((k.proc Solo.main).pagesInPhysicalMemory i).isImportant ≠ 1) ∧
        (k.proc Solo.main).timer < 2 ^ 31 - 1)) = some true := by
    decide +kernel
  obtain ⟨k, hk, hend⟩ := Option.map_eq_some_iff.mp hend
  obtain ⟨hsigned, hfull, hunimportant, htimer⟩ := of_decide_eq_true hend
  have hrun := (Run.of_foldlM hk).mono fun _ _ _ => toOption_eq_some.mp
  have hall : ∀ m ∈ Deed.runMoments ⟨.FIFO, true, 2 ^ 20, by decide⟩ Solo.untracked.kernel
      [.growproc Solo.main 61440, .growproc Solo.main 4096], m.before.TimersSigned := by
    decide +kernel
  obtain ⟨-, -, hafter⟩ := victim_exists_iff fresh_untracked hrun
  have hchoosable : Choosable ⟨.FIFO, true, 2 ^ 20, by decide⟩ (k.proc Solo.main) :=
    ⟨fun halgo => absurd halgo (by decide), fun _ _ => hunimportant⟩
  exact ⟨k, _, hrun, hfull, (hafter hall hsigned Solo.main hfull htimer).mpr hchoosable⟩

end Exists

section Saturation

/-- Every RAM slot of process `c` is in use, and the ticks found its page referenced `m` times. -/
structure Referenced (cfg : Config) (c : Slot) (m : Nat) (k : Kernel) : Prop where
  consistent : Consistent cfg allCounted k
  active : k.Active c
  used : ∀ i, ((k.proc c).pagesInPhysicalMemory i).isUsed = true
  age : ∀ i, ((k.proc c).pagesInPhysicalMemory i).ageCounter = push^[m] 0
  timer : (k.proc c).timer < 2 ^ 31 - 1

variable {m : Nat} {i j : Fin maxPyscPages}

private theorem Referenced.walked (h : Referenced cfg c m k) (i : Fin maxPyscPages) :
    k.setAccessed c i = k.walked c ((k.proc c).pagesInPhysicalMemory i).virtualAddress true ∧
      Quiet k (k.setAccessed c i) := by
  obtain ⟨n, -, -, hdir, hvpn, hP⟩ :=
    (h.consistent.sound c h.active.inUse h.active.pid).pageAt (i := i) (h.used i)
  have hdir' : ((k.proc c).pagesInPhysicalMemory i).pageDirectory = (k.proc c).pgdir := hdir
  have heq : k.setAccessed c i =
      k.walked c ((k.proc c).pagesInPhysicalMemory i).virtualAddress true := by
    simp only [setAccessed, Kernel.walked, hdir', if_true]
  refine ⟨heq, ?_⟩
  rw [heq]
  apply walked_quiet
  rw [← hdir', show vpn ((k.proc c).pagesInPhysicalMemory i).virtualAddress = n from hvpn]
  exact hP

private theorem Referenced.setAccessed (h : Referenced cfg c m k) (i : Fin maxPyscPages) :
    Referenced cfg c m (k.setAccessed c i) :=
  ⟨h.consistent.quiet (h.walked i).2, ⟨h.active.pid, h.active.unused, h.active.embryo, h.active.zombie⟩,
    h.used, h.age, h.timer⟩

private theorem Referenced.hasTable (h : Referenced cfg c m k) (i : Fin maxPyscPages) :
    k.hasTable ((k.proc c).pagesInPhysicalMemory i).pageDirectory
      (vpn ((k.proc c).pagesInPhysicalMemory i).virtualAddress) = true := by
  obtain ⟨n, -, -, -, hvpn, hP⟩ :=
    (h.consistent.sound c h.active.inUse h.active.pid).pageAt (i := i) (h.used i)
  rw [show vpn ((k.proc c).pagesInPhysicalMemory i).virtualAddress = n from hvpn]
  exact hasTable_of_hasFlag hP

private theorem Referenced.accessed (h : Referenced cfg c m k) (hj : j = i ∨ k.accessed c j = true) :
    (k.setAccessed c i).accessed c j = true := by
  change hasFlag ((k.setPte _ _ _).pte _ _) .A = true
  rw [setPte_pte (h.hasTable i)]
  split
  · rw [show pteA = Flag.A.mask from rfl, hasFlag_set]
    simp
  · next hne =>
    rcases hj with rfl | hj
    · exact absurd ⟨rfl, rfl⟩ hne
    · exact hj

private theorem Referenced.round (l : List (Fin maxPyscPages)) : ∀ k, Referenced cfg c m k →
    ∃ k', Run (Deed.Step cfg) k (l.map (.referenced c)) k' ∧ Referenced cfg c m k' ∧
      ∀ j, j ∈ l ∨ k.accessed c j = true → k'.accessed c j = true := by
  induction l with
  | nil =>
    intro k h
    refine ⟨k, .nil k, h, fun j hj => ?_⟩
    simpa using hj
  | cons i l ih =>
    intro k h
    obtain ⟨k', hrun, h', hall⟩ := ih _ (h.setAccessed i)
    refine ⟨k', .cons rfl hrun, h', fun j hj => hall j ?_⟩
    rcases hj with hj | hj
    · rcases List.mem_cons.mp hj with rfl | hj
      · exact .inr (h.accessed (.inl rfl))
      · exact .inl hj
    · exact .inr (h.accessed (.inr hj))

private theorem Aged.timer {c' : Slot} (h : Aged c' k k') (c : Slot) :
    (k'.proc c).timer = (k.proc c).timer := by
  cases h with
  | same => rfl
  | shifted _ _ =>
    by_cases hc : c = c'
    · subst hc
      simp [setRam]
    · simp [setRam, setProc_proc_of_ne hc]

private theorem Referenced.tick (h : Referenced cfg c m k) (hall : ∀ i, k.accessed c i = true) :
    ∃ k', Deed.Step cfg k (.call .tick) k' ∧ Referenced cfg c (m + 1) k' := by
  obtain ⟨k', hk'⟩ := h.consistent.tick_returns
  have hquiet := updateAgeForAllProcess_quiet hk'
  obtain ⟨-, hpid, -, hstate⟩ := hquiet.proc c
  have hentry : ∀ i, (k'.proc c).pagesInPhysicalMemory i =
      ((k.proc c).pagesInPhysicalMemory i).aged true := by
    intro i
    obtain ⟨b, hseen, hentry, -⟩ := tick_entry h.active (h.used i) hk'
    rw [h.consistent.seen h.active (h.used i) hk', hall i] at hseen
    rw [hentry, ← Except.ok.inj hseen]
  refine ⟨k', hk', h.consistent.quiet hquiet, ?_, ?_, ?_, ?_⟩
  · exact ⟨by rw [hpid]; exact h.active.pid, by rw [hstate]; exact h.active.unused,
      by rw [hstate]; exact h.active.embryo, by rw [hstate]; exact h.active.zombie⟩
  · intro i
    rw [hentry]
    exact h.used i
  · intro i
    rw [hentry, Function.iterate_succ_apply', ← h.age i]
    rfl
  · have htimer := updateAgeForAllProcess_keeps (I := fun s => (s.proc c).timer = (k.proc c).timer)
      (fun _ _ _ _ _ _ _ hs haged => (haged.timer c).trans hs) rfl hk'
    rw [htimer]
    exact h.timer

/-- All the pages are referenced, then there is a tick. -/
def busyTick (c : Slot) : List Deed := (List.finRange maxPyscPages).map (.referenced c) ++ [.call .tick]

private theorem Referenced.busy (h : Referenced cfg c 0 k) (m : Nat) :
    ∃ k', Run (Deed.Step cfg) k (List.replicate m (busyTick c)).flatten k' ∧ Referenced cfg c m k' := by
  induction m with
  | zero => exact ⟨k, .nil k, h⟩
  | succ m ih =>
    obtain ⟨k₁, hrun, h₁⟩ := ih
    obtain ⟨k₂, hround, h₂, hall⟩ := h₁.round (List.finRange maxPyscPages)
    obtain ⟨k₃, htick, h₃⟩ := h₂.tick fun i => hall i (.inl (List.mem_finRange i))
    refine ⟨k₃, ?_, h₃⟩
    rw [List.replicate_succ', List.flatten_append, List.flatten_singleton]
    exact hrun.append (hround.append (.cons htick (.nil k₃)))

private theorem Referenced.no_victim (h : Referenced cfg c 32 k) (halgo : cfg.rAlgo = .AGING) :
    ¬ HasVictim cfg (k.proc c) := by
  rw [hasVictim_iff, Bool.not_eq_true, Option.isSome_eq_false_iff, Option.isNone_iff_eq_none]
  simp only [Proc.getReplacementPageIndexPhyMem, halgo, Proc.getReplacementPageIndexAging, Scan.best_eq_none]
  intro i _
  rw [h.age i]
  decide

/-- All 15 pages of a process are referenced before each of 32 ticks. -/
theorem no_victim_saturated :
    ¬ ∀ (cfg : Config) (k₀ k : Kernel) (es : List Deed) (c : Slot), k₀.Fresh → Run (Deed.Step cfg) k₀ es k →
      (∀ i, ((k.proc c).pagesInPhysicalMemory i).isUsed = true) → (k.proc c).timer < 2 ^ 31 - 1 →
      HasVictim cfg (k.proc c) := by
  intro h
  have hend : (Solo.untracked.kernel.growproc (Solo.config .AGING) Solo.main 61440).toOption.map (fun r =>
      decide (Solo.untracked.kernel.Active Solo.main ∧ r.1.Active Solo.main ∧
        (∀ i, ((r.1.proc Solo.main).pagesInPhysicalMemory i).isUsed = true) ∧
        (∀ i, ((r.1.proc Solo.main).pagesInPhysicalMemory i).ageCounter = 0) ∧
        (r.1.proc Solo.main).timer < 2 ^ 31 - 1)) = some true := by
    decide +kernel
  obtain ⟨⟨k, ok⟩, hk, hend⟩ := Option.map_eq_some_iff.mp hend
  obtain ⟨hc, hactive, hused, hage, htimer⟩ := of_decide_eq_true hend
  rw [toOption_eq_some] at hk
  have hgrown : Deed.Step (Solo.config .AGING) Solo.untracked.kernel (.growproc Solo.main 61440) k := by
    simp only [Deed.Step, Deed.perform, hk]
    rfl
  have hstart : Referenced (Solo.config .AGING) Solo.main 0 k :=
    ⟨(Solo.untracked.started (le_refl _)).consistent.growproc hc hk, hactive, hused, hage, htimer⟩
  obtain ⟨k', hrun, hfull⟩ := hstart.busy 32
  exact hfull.no_victim rfl (h _ _ _ _ _ fresh_untracked (.cons hgrown hrun) hfull.used hfull.timer)

end Saturation

end Kernel

end OsSessional.Paging
