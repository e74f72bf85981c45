import Mathlib.Data.List.ReduceOption
import OsSessional.Lib.History
import OsSessional.Paging.Ownership

/-!
# Ages

The timer scan clears the accessed bit of a tracked page and, where it was set, pushes a set bit into
the page's age. Where it was clear the age stays as it is, so that an age counts the ticks that found
its page referenced.
-/

namespace OsSessional.Paging

open Function (update update_self update_of_ne)
open Outcome History

/-- The entry of a page after a tick that found its accessed bit to be `b`. -/
def PageData.aged (e : PageData) (b : Bool) : PageData :=
  { e with ageCounter := if b then push e.ageCounter else e.ageCounter }

namespace Kernel

section Statement

/-- The round of `updateAgeForAllProcess` for process `c`. -/
def ageProcess (k : Kernel) (c : Slot) : Except Crash Kernel :=
  if (k.proc c).pid > 2 ∧ (k.proc c).state ≠ .UNUSED ∧ (k.proc c).state ≠ .EMBRYO ∧
      (k.proc c).state ≠ .ZOMBIE then k.updateAgeForSingleProcess c
  else .ok k

private theorem updateAgeForAllProcess_eq (k : Kernel) :
    k.updateAgeForAllProcess = (List.finRange nProc).foldlM ageProcess k := rfl

/-- The accessed bit of the page in slot `i` of process `c`. -/
def accessed (k : Kernel) (c : Slot) (i : Fin maxPyscPages) : Bool :=
  let e := (k.proc c).pagesInPhysicalMemory i
  hasFlag (k.pte e.pageDirectory (vpn e.virtualAddress)) .A

/-- The accessed bit that `updateAgeForAllProcess` finds when it comes to slot `i` of process `c`. -/
def seen (k : Kernel) (c : Slot) (i : Fin maxPyscPages) : Except Crash Bool := do
  let k ← ((List.finRange nProc).take c).foldlM ageProcess k
  let k ← ((List.finRange maxPyscPages).take i).foldlM (updateAge c) k
  return k.accessed c i

/-- What happens while a page stays in slot `i` of process `c`: a tick, with the accessed bit it finds,
or anything else, which leaves the entry alone. -/
inductive Beat (c : Slot) (i : Fin maxPyscPages) (k : Kernel) : Option Bool → Kernel → Prop
  | tick {b : Bool} {k' : Kernel} (hactive : k.Active c) (hseen : k.seen c i = .ok b)
      (h : k.updateAgeForAllProcess = .ok k') : Beat c i k (some b) k'
  | other {k' : Kernel}
      (h : (k'.proc c).pagesInPhysicalMemory i = (k.proc c).pagesInPhysicalMemory i) : Beat c i k none k'

/-- The bits found at the ticks, the latest first. -/
def found (ls : List (Option Bool)) : List Bool := ls.reduceOption.reverse

/-- A page enters slot `i` of process `c` with age 0, and the ticks find it as `bs` says. -/
def Tracked (c : Slot) (i : Fin maxPyscPages) (bs : List Bool) (k : Kernel) : Prop :=
  ∃ k₀ ls, ((k₀.proc c).pagesInPhysicalMemory i).isUsed = true ∧
    ((k₀.proc c).pagesInPhysicalMemory i).ageCounter = 0 ∧ Run (Beat c i) k₀ ls k ∧ found ls = bs

/-- The age of the page in slot `i` of process `c` is its history `bs`, and a tick clears its accessed
bit. -/
structure AgeIsHistory (k : Kernel) (c : Slot) (i : Fin maxPyscPages) (bs : List Bool) : Prop where
  age : ∀ m < 32, ((k.proc c).pagesInPhysicalMemory i).ageCounter.getLsbD (31 - m) = bs.getD m false
  cleared : ∀ k', k.Active c → k.updateAgeForAllProcess = .ok k' → k'.accessed c i = false

/-- Where slot `i` was referenced at the last tick and slot `j` at none of the last 32, the aging policy
does not take slot `i`. -/
def PrefersStale (k : Kernel) (c : Slot) (i : Fin maxPyscPages) (bs bs' : List Bool) : Prop :=
  bs.getD 0 false = true → (∀ m < 32, bs'.getD m false = false) →
    ∀ cfg : Config, cfg.rAlgo = .AGING → (k.proc c).getReplacementPageIndexPhyMem cfg ≠ some i

end Statement

variable {k k' : Kernel} {c c' : Slot} {i j : Fin maxPyscPages} {b : Bool} {bs bs' : List Bool}

section Round

private theorem setRam_entry (k : Kernel) (c : Slot) (i : Fin maxPyscPages) (e : PageData) :
    ((k.setRam c i e).proc c).pagesInPhysicalMemory i = e := by
  simp [setRam]

private theorem updateAge_used (hused : ((k.proc c).pagesInPhysicalMemory i).isUsed = true)
    (h : updateAge c k i = .ok k') :
    (k'.proc c).pagesInPhysicalMemory i = ((k.proc c).pagesInPhysicalMemory i).aged (k.accessed c i) ∧
      k'.accessed c i = false := by
  dsimp only [updateAge] at h
  rw [if_pos hused] at h
  cases hw : k.walkpgdir ((k.proc c).pagesInPhysicalMemory i).pageDirectory
      ((k.proc c).pagesInPhysicalMemory i).virtualAddress with
  | none => simp [hw] at h
  | some pte =>
    obtain ⟨htable, rfl⟩ := walkpgdir_eq_some.mp hw
    simp only [hw] at h
    split at h
    · next hset =>
      have hfound : k.accessed c i = true := hset
      obtain rfl := Except.ok.inj h
      rw [hfound]
      constructor
      · rw [setRam_entry]
        rfl
      · simp only [accessed, setRam_entry]
        change hasFlag ((k.setPte _ _ _).pte _ _) .A = false
        rw [setPte_pte htable, if_pos ⟨rfl, rfl⟩, show pteA = Flag.A.mask from rfl, hasFlag_clear]
        simp
    · next hclear =>
      have hfound : k.accessed c i = false := by simpa [accessed] using hclear
      obtain rfl := Except.ok.inj h
      rw [hfound]
      exact ⟨rfl, rfl⟩

private theorem updateAge_other (hij : j ≠ i) (h : updateAge c k j = .ok k') :
    (k'.proc c).pagesInPhysicalMemory i = (k.proc c).pagesInPhysicalMemory i := by
  simp only [updateAge] at h
  split at h
  · split at h
    · simp at h
    · split at h
      · obtain rfl := Except.ok.inj h
        simp [setRam, Ne.symm hij]
      · obtain rfl := Except.ok.inj h
        rfl
  · obtain rfl := Except.ok.inj h
    rfl

private theorem Aged.proc_of_ne (h : Aged c' k k') (hc : c' ≠ c) : k'.proc c = k.proc c := by
  cases h with
  | same => rfl
  | shifted _ _ => simp [setRam, setProc_proc_of_ne (Ne.symm hc)]

private theorem Aged.clear {d : Frame} {n : Nat} (h : Aged c' k k') (hclear : hasFlag (k.pte d n) .A = false) :
    hasFlag (k'.pte d n) .A = false := by
  cases h with
  | same => exact hclear
  | shifted _ htable =>
    change hasFlag ((k.setPte _ _ _).pte d n) .A = false
    rw [setPte_pte htable]
    split
    · rw [show pteA = Flag.A.mask from rfl, hasFlag_clear]
      simp
    · exact hclear

private theorem ageProcess_keeps
    {I : Kernel → Prop} (hstep : ∀ s i s', I s → updateAge c s i = .ok s' → I s')
    (hI : I k) (h : ageProcess k c = .ok k') : I k' := by
  unfold ageProcess at h
  split at h
  · exact foldlM_keeps hstep _ hI h
  · obtain rfl := Except.ok.inj h
    exact hI

end Round

section Tick

/-- Slot `i` of process `c` holds `e`, and the accessed bit of its page is clear. -/
def Cleared (c : Slot) (i : Fin maxPyscPages) (e : PageData) (k : Kernel) : Prop :=
  (k.proc c).pagesInPhysicalMemory i = e ∧ k.accessed c i = false

private theorem Cleared.aged {e : PageData} (h : Cleared c i e k) (haged : Aged c' k k')
    (hentry : (k'.proc c).pagesInPhysicalMemory i = (k.proc c).pagesInPhysicalMemory i) :
    Cleared c i e k' := by
  refine ⟨hentry.trans h.1, ?_⟩
  unfold accessed
  rw [hentry]
  exact haged.clear h.2

theorem tick_entry (hc : k.Active c) (hused : ((k.proc c).pagesInPhysicalMemory i).isUsed = true)
    (h : k.updateAgeForAllProcess = .ok k') : ∃ b, k.seen c i = .ok b ∧
      Cleared c i (((k.proc c).pagesInPhysicalMemory i).aged b) k' := by
  rw [updateAgeForAllProcess_eq] at h
  obtain ⟨k₁, k₂, hbefore, hround, hafter⟩ := foldlM_finRange c h
  have hproc : k₁.proc c = k.proc c := by
    apply foldlM_keeps_mem (I := fun s => s.proc c = k.proc c) _ ?_ rfl hbefore
    intro s c' hc' s' hs hage
    apply ageProcess_keeps (I := fun s => s.proc c = k.proc c) ?_ hs hage
    intro s i' s' hs hage
    rw [(updateAge_ok hage).proc_of_ne (ne_of_mem_take hc'), hs]
  have hcond : (k₁.proc c).pid > 2 ∧ (k₁.proc c).state ≠ .UNUSED ∧ (k₁.proc c).state ≠ .EMBRYO ∧
      (k₁.proc c).state ≠ .ZOMBIE := by
    rw [hproc]
    exact ⟨hc.pid, hc.unused, hc.embryo, hc.zombie⟩
  unfold ageProcess at hround
  rw [if_pos hcond] at hround
  obtain ⟨k₃, k₄, hbefore', hslot, hafter'⟩ := foldlM_finRange i hround
  have hentry : (k₃.proc c).pagesInPhysicalMemory i = (k.proc c).pagesInPhysicalMemory i := by
    have hkept := foldlM_keeps_mem (I := fun s =>
      (s.proc c).pagesInPhysicalMemory i = (k₁.proc c).pagesInPhysicalMemory i) _
      (fun s j hj s' hs hage => (updateAge_other (ne_of_mem_take hj) hage).trans hs) rfl hbefore'
    rw [hkept, hproc]
  refine ⟨k₃.accessed c i, ?_, ?_⟩
  · simp only [seen, hbefore, ok_bind, hbefore']
    rfl
  · have hslot' := updateAge_used (by rw [hentry, hused]) hslot
    rw [hentry] at hslot'
    have hrest := foldlM_keeps_mem _
      (fun s j hj s' hs hage => Cleared.aged hs (updateAge_ok hage) (updateAge_other (ne_of_mem_drop hj) hage))
      hslot' hafter'
    apply foldlM_keeps_mem _ ?_ hrest hafter
    intro s c' hc' s' hs hage
    apply ageProcess_keeps ?_ hs hage
    intro s i' s' hs hage
    have haged := updateAge_ok hage
    exact hs.aged haged (by rw [haged.proc_of_ne (ne_of_mem_drop hc')])

end Tick

section Sound

variable {cfg : Config} {X : Frame → Prop}

private theorem updateAge_pte {d : Frame} {n : Nat} (h : updateAge c k j = .ok k')
    (hne : ((k.proc c).pagesInPhysicalMemory j).isUsed = true →
      ¬ (d = ((k.proc c).pagesInPhysicalMemory j).pageDirectory ∧
        n = vpn ((k.proc c).pagesInPhysicalMemory j).virtualAddress)) : k'.pte d n = k.pte d n := by
  cases hused : ((k.proc c).pagesInPhysicalMemory j).isUsed with
  | false =>
    simp only [updateAge, hused, Bool.false_eq_true, if_false] at h
    obtain rfl := Except.ok.inj h
    rfl
  | true =>
    dsimp only [updateAge] at h
    rw [if_pos hused] at h
    split at h
    · simp at h
    · next pte hw =>
      split at h
      · obtain rfl := Except.ok.inj h
        change (k.setPte _ _ _).pte d n = k.pte d n
        rw [setPte_pte (walkpgdir_eq_some.mp hw).1, if_neg (hne hused)]
      · obtain rfl := Except.ok.inj h
        rfl

private theorem Consistent.once (h : Consistent cfg X k) (hc : k.Active c) (hc' : k.Active c')
    (hused : ((k.proc c).pagesInPhysicalMemory i).isUsed = true)
    (hused' : ((k.proc c').pagesInPhysicalMemory j).isUsed = true)
    (hdir : ((k.proc c).pagesInPhysicalMemory i).pageDirectory =
      ((k.proc c').pagesInPhysicalMemory j).pageDirectory)
    (hpage : vpn ((k.proc c).pagesInPhysicalMemory i).virtualAddress =
      vpn ((k.proc c').pagesInPhysicalMemory j).virtualAddress) : c = c' ∧ i = j := by
  have hsound := h.sound c hc.inUse hc.pid
  obtain ⟨n, -, haddr, hlive, hvpn, -⟩ := hsound.pageAt (i := i) hused
  obtain ⟨n', -, haddr', hlive', hvpn', -⟩ := (h.sound c' hc'.inUse hc'.pid).pageAt (i := j) hused'
  obtain rfl : c = c' := h.pgdir_inj c c' hc.inUse hc'.inUse (hlive.symm.trans (hdir.trans hlive'))
  obtain rfl : n = n' := hvpn.symm.trans (hpage.trans hvpn')
  exact ⟨rfl, hsound.inj i j _ n hused hused' ⟨hlive, haddr⟩ ⟨hlive', haddr'⟩⟩

/-- A consistent kernel in which the page in slot `i` of process `c` has accessed bit `b`. -/
structure Waiting (cfg : Config) (X : Frame → Prop) (c : Slot) (i : Fin maxPyscPages) (b : Bool)
    (k : Kernel) : Prop where
  consistent : Consistent cfg X k
  active : k.Active c
  used : ((k.proc c).pagesInPhysicalMemory i).isUsed = true
  bit : k.accessed c i = b

private theorem Waiting.round (h : Waiting cfg X c i b k) (hc' : k.Active c') (hne : ¬ (c' = c ∧ j = i))
    (hage : updateAge c' k j = .ok k') : Waiting cfg X c i b k' := by
  have haged := updateAge_ok hage
  have hentry : (k'.proc c).pagesInPhysicalMemory i = (k.proc c).pagesInPhysicalMemory i := by
    by_cases hc : c' = c
    · subst hc
      exact updateAge_other (fun hj => hne ⟨rfl, hj⟩) hage
    · rw [haged.proc_of_ne hc]
  refine ⟨h.consistent.quiet haged.quiet, haged.active h.active, by rw [hentry, h.used], ?_⟩
  rw [← h.bit]
  unfold accessed
  rw [hentry]
  dsimp only
  rw [updateAge_pte hage]
  rintro hused' ⟨hdir, hpage⟩
  obtain ⟨rfl, rfl⟩ := h.consistent.once h.active hc' h.used hused' hdir hpage
  exact hne ⟨rfl, rfl⟩

theorem Consistent.seen (h : Consistent cfg X k) (hc : k.Active c)
    (hused : ((k.proc c).pagesInPhysicalMemory i).isUsed = true)
    (hk' : k.updateAgeForAllProcess = .ok k') : k.seen c i = .ok (k.accessed c i) := by
  rw [updateAgeForAllProcess_eq] at hk'
  obtain ⟨k₁, k₂, hbefore, hround, -⟩ := foldlM_finRange c hk'
  have hwait : Waiting cfg X c i (k.accessed c i) k := ⟨h, hc, hused, rfl⟩
  have hwait₁ : Waiting cfg X c i (k.accessed c i) k₁ := by
    apply foldlM_keeps_mem _ ?_ hwait hbefore
    intro s c' hc' s' hs hage
    unfold ageProcess at hage
    split at hage
    · next hcond =>
      have hactive : s.Active c' := ⟨hcond.1, hcond.2.1, hcond.2.2.1, hcond.2.2.2⟩
      have hall := foldlM_keeps (I := fun s => Waiting cfg X c i (k.accessed c i) s ∧ s.Active c')
        (fun s j s' hs hage => ⟨hs.1.round hs.2 (fun hsame => ne_of_mem_take hc' hsame.1) hage,
          (updateAge_ok hage).active hs.2⟩) _ ⟨hs, hactive⟩ hage
      exact hall.1
    · obtain rfl := Except.ok.inj hage
      exact hs
  have hactive := hwait₁.active
  unfold ageProcess at hround
  rw [if_pos ⟨hactive.pid, hactive.unused, hactive.embryo, hactive.zombie⟩] at hround
  obtain ⟨k₃, k₄, hbefore', -, -⟩ := foldlM_finRange i hround
  have hwait₃ : Waiting cfg X c i (k.accessed c i) k₃ :=
    foldlM_keeps_mem _ (fun s j hj s' hs hage =>
      hs.round hs.active (fun hsame => ne_of_mem_take hj hsame.2) hage) hwait₁ hbefore'
  simp only [Kernel.seen, hbefore, ok_bind, hbefore', hwait₃.bit]
  rfl

end Sound

section History

private theorem found_some (b : Bool) (ls : List (Option Bool)) :
    found (some b :: ls) = found ls ++ [b] := by
  simp [found, List.reduceOption_cons_of_some]

theorem Beat.walked (k : Kernel) (a : Nat) (walk : Bool) : Beat c i k none (k.walked c' a walk) := by
  apply Beat.other
  unfold Kernel.walked
  split <;> rfl

theorem Beat.run {ls : List (Option Bool)} (hrun : Run (Beat c i) k ls k')
    (hused : ((k.proc c).pagesInPhysicalMemory i).isUsed = true) :
    ((k'.proc c).pagesInPhysicalMemory i).isUsed = true ∧
      ((k'.proc c).pagesInPhysicalMemory i).ageCounter =
        push^[(found ls).count true] ((k.proc c).pagesInPhysicalMemory i).ageCounter := by
  induction hrun with
  | nil k => exact ⟨hused, rfl⟩
  | @cons k k₁ k' a ls hstep _ ih =>
    cases hstep with
    | other h =>
      rw [h] at ih
      exact ih hused
    | @tick b _ hactive hseen h =>
      obtain ⟨b', hseen', hentry, -⟩ := tick_entry hactive hused h
      obtain rfl : b = b' := Except.ok.inj (hseen.symm.trans hseen')
      rw [hentry] at ih
      obtain ⟨hused', hage⟩ := ih hused
      refine ⟨hused', ?_⟩
      rw [hage]
      rw [found_some, List.count_append]
      cases b with
      | true =>
        rw [show [true].count true = 1 from rfl, Function.iterate_succ_apply]
        rfl
      | false => rfl

private theorem Tracked.used (h : Tracked c i bs k) :
    ((k.proc c).pagesInPhysicalMemory i).isUsed = true := by
  obtain ⟨k₀, ls, hused, -, hrun, -⟩ := h
  exact (Beat.run hrun hused).1

private theorem Tracked.age (h : Tracked c i bs k) :
    ((k.proc c).pagesInPhysicalMemory i).ageCounter = push^[bs.count true] 0 := by
  obtain ⟨k₀, ls, hused, hage, hrun, rfl⟩ := h
  rw [(Beat.run hrun hused).2, hage]

private theorem Tracked.cleared
    (h : Tracked c i bs k) (hc : k.Active c) (hk' : k.updateAgeForAllProcess = .ok k') :
    k'.accessed c i = false := by
  obtain ⟨b, -, -, hclear⟩ := tick_entry hc h.used hk'
  exact hclear

private theorem Tracked.ageIsHistory_iff (h : Tracked c i bs k) :
    AgeIsHistory k c i bs ↔ Settled 32 bs := by
  rw [← counted_iff_settled]
  have hbits : ∀ m < 32, ((k.proc c).pagesInPhysicalMemory i).ageCounter.getLsbD (31 - m) =
      decide (m < bs.count true) := by
    intro m hm
    rw [h.age]
    exact fromTop_push_iterate _ m hm
  constructor
  · intro hhistory m hm
    rw [← hhistory.age m hm, hbits m hm]
  · intro hcounted
    refine ⟨fun m hm => ?_, fun k' hc hk' => h.cleared hc hk'⟩
    rw [hbits m hm, hcounted m hm]

private theorem Tracked.prefersStale
    (h : Tracked c i bs k) (h' : Tracked c j bs' k) (hsettled : Settled 32 bs') :
    PrefersStale k c i bs bs' := by
  intro hlast hnone cfg halgo hvictim
  have hzero : ((k.proc c).pagesInPhysicalMemory j).ageCounter = 0 := by
    rw [h'.age, hsettled.count_eq_zero (by decide) (hnone 0 (by decide))]
    rfl
  have hcount : 0 < bs.count true := by
    apply Nat.pos_of_ne_zero
    intro hzero
    rw [count_eq_zero_iff.mp hzero 0] at hlast
    simp at hlast
  have htop : fromTop ((k.proc c).pagesInPhysicalMemory i).ageCounter 0 = true := by
    rw [h.age, fromTop_push_iterate _ 0 (by decide)]
    exact decide_eq_true hcount
  have hne : ((k.proc c).pagesInPhysicalMemory i).ageCounter ≠ 0 := by
    intro hzero
    rw [hzero] at htop
    simp [fromTop] at htop
  simp only [Proc.getReplacementPageIndexPhyMem, halgo, Proc.getReplacementPageIndexAging] at hvictim
  have hleast := Scan.best_least (by simp) (by
    intro x y z hxy hyz
    exact decide_eq_true (BitVec.lt_trans (of_decide_eq_true hxy) (of_decide_eq_true hyz))) hvictim h'.used
  rw [hzero] at hleast
  exact absurd ((BitVec.pos_iff_ne_zero _).mpr hne) (of_decide_eq_false hleast)

/-- The ages of two pages of a process are their histories, and the policy goes by them, exactly when no
tick among the last 32 found either page unreferenced after a tick that had found it referenced. -/
theorem ages_follow_iff (h : Tracked c i bs k) (h' : Tracked c j bs' k) :
    (AgeIsHistory k c i bs ∧ AgeIsHistory k c j bs' ∧ PrefersStale k c i bs bs' ∧ PrefersStale k c j bs' bs) ↔
      Settled 32 bs ∧ Settled 32 bs' := by
  rw [h.ageIsHistory_iff, h'.ageIsHistory_iff]
  constructor
  · exact fun hall => ⟨hall.1, hall.2.1⟩
  · intro hsettled
    exact ⟨hsettled.1, hsettled.2, h.prefersStale h' hsettled.2, h'.prefersStale h hsettled.1⟩

instance (w : Nat) (bs : List Bool) : Decidable (Settled w bs) :=
  decidable_of_iff (∀ k < w, bs.getD k false = decide (k < bs.count true)) counted_iff_settled

/-- Page 0 is read before each of two ticks, page 2 is not. -/
theorem ages_follow_two_ticks : ∃ k bs bs', bs = [true, true] ∧ bs' = [false, false] ∧
    Tracked Solo.main ⟨0, by decide⟩ bs k ∧ Tracked Solo.main ⟨2, by decide⟩ bs' k ∧
      AgeIsHistory k Solo.main ⟨0, by decide⟩ bs ∧ AgeIsHistory k Solo.main ⟨2, by decide⟩ bs' ∧
      PrefersStale k Solo.main ⟨0, by decide⟩ bs bs' ∧ PrefersStale k Solo.main ⟨2, by decide⟩ bs' bs := by
  have hend : ((Solo.guarded.kernel.walked Solo.main 0 true).updateAgeForAllProcess.toOption.bind fun k =>
      (k.walked Solo.main 0 true).updateAgeForAllProcess.toOption.map fun _ =>
        decide ((Solo.guarded.kernel.walked Solo.main 0 true).Active Solo.main ∧
          ((Solo.guarded.kernel.walked Solo.main 0 true).seen Solo.main ⟨0, by decide⟩).toOption = some true ∧
          ((Solo.guarded.kernel.walked Solo.main 0 true).seen Solo.main ⟨2, by decide⟩).toOption = some false ∧
          (k.walked Solo.main 0 true).Active Solo.main ∧
          ((k.walked Solo.main 0 true).seen Solo.main ⟨0, by decide⟩).toOption = some true ∧
          ((k.walked Solo.main 0 true).seen Solo.main ⟨2, by decide⟩).toOption = some false)) = some true := by
    decide +kernel
  obtain ⟨k₁, hk₁, hend⟩ := Option.bind_eq_some_iff.mp hend
  obtain ⟨k₂, hk₂, hend⟩ := Option.map_eq_some_iff.mp hend
  obtain ⟨hactive, hread, hidle, hactive', hread', hidle'⟩ := of_decide_eq_true hend
  rw [toOption_eq_some] at hk₁ hk₂ hread hidle hread' hidle'
  have h : Tracked Solo.main ⟨0, by decide⟩ [true, true] k₂ :=
    ⟨Solo.guarded.kernel, _, rfl, rfl, .cons (.walked _ _ _) (.cons (.tick hactive hread hk₁)
      (.cons (.walked _ _ _) (.cons (.tick hactive' hread' hk₂) (.nil k₂)))), rfl⟩
  have h' : Tracked Solo.main ⟨2, by decide⟩ [false, false] k₂ :=
    ⟨Solo.guarded.kernel, _, rfl, rfl, .cons (.walked _ _ _) (.cons (.tick hactive hidle hk₁)
      (.cons (.walked _ _ _) (.cons (.tick hactive' hidle' hk₂) (.nil k₂)))), rfl⟩
  exact ⟨k₂, _, _, rfl, rfl, h, h', (ages_follow_iff h h').mpr ⟨by decide, by decide⟩⟩

/-- Page 0 is read before the first tick and not before the second: its age still has the top bit. -/
theorem age_keeps_old_bit :
    ¬ ∀ (k : Kernel) (c : Slot) (i : Fin maxPyscPages) (bs : List Bool), Tracked c i bs k →
      AgeIsHistory k c i bs := by
  intro h
  have hend : ((Solo.guarded.kernel.walked Solo.main 0 true).updateAgeForAllProcess.toOption.bind fun k =>
      k.updateAgeForAllProcess.toOption.map fun k' =>
        decide ((Solo.guarded.kernel.walked Solo.main 0 true).Active Solo.main ∧
          ((Solo.guarded.kernel.walked Solo.main 0 true).seen Solo.main ⟨0, by decide⟩).toOption = some true ∧
          k.Active Solo.main ∧ (k.seen Solo.main ⟨0, by decide⟩).toOption = some false ∧
          ((k'.proc Solo.main).pagesInPhysicalMemory ⟨0, by decide⟩).ageCounter.getLsbD 31 = true)) =
      some true := by
    decide +kernel
  obtain ⟨k₁, hk₁, hend⟩ := Option.bind_eq_some_iff.mp hend
  obtain ⟨k₂, hk₂, hend⟩ := Option.map_eq_some_iff.mp hend
  obtain ⟨hactive, hread, hactive', hidle, htop⟩ := of_decide_eq_true hend
  rw [toOption_eq_some] at hk₁ hk₂ hread hidle
  have htracked : Tracked Solo.main ⟨0, by decide⟩ [false, true] k₂ :=
    ⟨Solo.guarded.kernel, _, rfl, rfl, .cons (.walked _ _ _) (.cons (.tick hactive hread hk₁)
      (.cons (.tick hactive' hidle hk₂) (.nil k₂))), rfl⟩
  have hage := (h _ _ _ _ htracked).age 0 (by decide)
  rw [htop] at hage
  simp at hage

end History

end Kernel

end OsSessional.Paging
