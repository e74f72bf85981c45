import OsSessional.Lottery.Proportion
import OsSessional.Lottery.System

/-!
# The range of the lottery

Every process has a ticket in every run, so the sum the scheduler computes is right, and the lottery
safe, exactly when the tickets of the RUNNABLE processes add up to at most `RAND_MAX`. Nothing keeps
them below: two processes can each hold `RAND_MAX` tickets.
-/

namespace OsSessional.Lottery

open Function (update update_self update_of_ne)
open Draws

variable {ncpu : Nat} {s s' s₁ : State ncpu} {c : Fin ncpu} {d : Dispatch} {p q : Slot}

/-- Every process has a ticket; what runs on a CPU is RUNNING there alone; the child of a `fork` in
progress is EMBRYO and that fork's alone. -/
structure ProcInv (s : State ncpu) : Prop where
  ticket : ∀ p, (s.proc p).state ≠ .UNUSED → 1 ≤ (s.proc p).ticket
  running : ∀ c d, s.cpu c = some d → (s.proc d.slot).state = .RUNNING
  alone : ∀ c c' d d', s.cpu c = some d → s.cpu c' = some d' → d.slot = d'.slot → c = c'
  embryo : ∀ p np, s.child p = some np → (s.proc np).state = .EMBRYO
  own : ∀ p q np, s.child p = some np → s.child q = some np → p = q

private theorem default_ticket : (1 : Int32) ≤ 10 := by decide

theorem ProcInv.boot : ProcInv (State.boot : State ncpu) := by
  constructor
  · intro p
    by_cases hp : p = 0
    · subst hp
      intro _
      exact default_ticket
    · intro hused
      simp [State.boot, hp, Proc.zero] at hused
  · intro c d h
    simp [State.boot] at h
  · intro c c' d d' h
    simp [State.boot] at h
  · intro p np h
    simp [State.boot] at h
  · intro p q np h
    simp [State.boot] at h

/-- Sleeping processes may wake up and children may get another parent; nothing else changes. -/
structure Roused (s s' : State ncpu) : Prop where
  nextpid : s'.nextpid = s.nextpid
  ticks : s'.ticks = s.ticks
  cpu : s'.cpu = s.cpu
  child : s'.child = s.child
  proc : ∀ p, ∃ st parent, s'.proc p = { s.proc p with state := st, parent := parent } ∧
    (st = (s.proc p).state ∨ (s.proc p).state = .SLEEPING ∧ st = .RUNNABLE)

private theorem Roused.refl (s : State ncpu) :
    Roused s s := ⟨rfl, rfl, rfl, rfl, fun _ => ⟨_, _, rfl, .inl rfl⟩⟩

private theorem Roused.trans (h : Roused s s₁) (h' : Roused s₁ s') : Roused s s' := by
  constructor
  · rw [h'.nextpid, h.nextpid]
  · rw [h'.ticks, h.ticks]
  · rw [h'.cpu, h.cpu]
  · rw [h'.child, h.child]
  · intro p
    obtain ⟨st, parent, hp, hst⟩ := h.proc p
    obtain ⟨st', parent', hp', hst'⟩ := h'.proc p
    rw [hp] at hp' hst'
    refine ⟨st', parent', hp', ?_⟩
    rcases hst with rfl | ⟨hsleeps, rfl⟩
    · exact hst'
    · rcases hst' with rfl | ⟨hrunnable, -⟩
      · exact .inr ⟨hsleeps, rfl⟩
      · simp at hrunnable

theorem roused_wakeup1 (s : State ncpu) (chan : Chan) : Roused s (s.wakeup1 chan) := by
  refine ⟨rfl, rfl, rfl, rfl, ?_⟩
  intro p
  simp only [State.wakeup1]
  split
  · next hsleeps => exact ⟨_, _, rfl, .inr ⟨hsleeps.1, rfl⟩⟩
  · exact ⟨_, _, rfl, .inl rfl⟩

private theorem roused_wakeParent (s : State ncpu) (p : Slot) : Roused s (s.wakeParent p) := by
  unfold State.wakeParent
  split
  · exact roused_wakeup1 s _
  · exact .refl s

private theorem roused_passChildren (s : State ncpu) (p : Slot) : Roused s (s.passChildren p) := by
  have hpassed : Roused s { s with
      proc := fun q =>
        if (s.proc q).parent = some p then { s.proc q with parent := some s.initproc }
        else s.proc q } := by
    refine ⟨rfl, rfl, rfl, rfl, ?_⟩
    intro q
    dsimp only
    split
    · exact ⟨_, _, rfl, .inl rfl⟩
    · exact ⟨_, _, rfl, .inl rfl⟩
  unfold State.passChildren
  split
  · exact hpassed.trans (roused_wakeup1 _ _)
  · exact hpassed

/-- `exit` wakes its parent and passes its children on. -/
theorem roused_exit (s : State ncpu) (p : Slot) : Roused s ((s.wakeParent p).passChildren p) :=
  (roused_wakeParent s p).trans (roused_passChildren _ p)

/-- Sleeping processes may become RUNNABLE, and nothing else changes that matters here. -/
structure Woken (s s' : State ncpu) : Prop where
  cpu : s'.cpu = s.cpu
  child : s'.child = s.child
  ticket : ∀ p, (s'.proc p).ticket = (s.proc p).ticket
  state : ∀ p, (s'.proc p).state = (s.proc p).state ∨
    (s.proc p).state = .SLEEPING ∧ (s'.proc p).state = .RUNNABLE

theorem Roused.woken (h : Roused s s') : Woken s s' := by
  refine ⟨h.cpu, h.child, ?_, ?_⟩
  · intro p
    obtain ⟨st, parent, hp, -⟩ := h.proc p
    rw [hp]
  · intro p
    obtain ⟨st, parent, hp, hst⟩ := h.proc p
    rw [hp]
    exact hst

private theorem ProcInv.woken (h : ProcInv s) (hwoken : Woken s s') : ProcInv s' := by
  constructor
  · intro p hused
    rw [hwoken.ticket]
    apply h.ticket
    rcases hwoken.state p with hp | hp <;> simp_all
  · intro c d hd
    rw [hwoken.cpu] at hd
    have hrun := h.running c d hd
    rcases hwoken.state d.slot with hp | hp <;> simp_all
  · rw [hwoken.cpu]
    exact h.alone
  · intro p np hnp
    rw [hwoken.child] at hnp
    have hembryo := h.embryo p np hnp
    rcases hwoken.state np with hp | hp <;> simp_all
  · rw [hwoken.child]
    exact h.own

private theorem ProcInv.setProc (h : ProcInv s) {v : Proc} (hticket : v.state ≠ .UNUSED → 1 ≤ v.ticket)
    (hcpu : v.state = .RUNNING ∨ ∀ c d, s.cpu c = some d → d.slot ≠ p)
    (hchild : v.state = .EMBRYO ∨ ∀ q, s.child q ≠ some p) : ProcInv (s.setProc p v) := by
  constructor
  · intro q
    by_cases hq : q = p
    · subst hq
      simpa [State.setProc] using hticket
    · simpa [State.setProc, hq] using h.ticket q
  · intro c d hd
    by_cases hq : d.slot = p
    · rcases hcpu with hrun | hnone
      · simpa [State.setProc, hq] using hrun
      · exact absurd hq (hnone c d hd)
    · simpa [State.setProc, hq] using h.running c d hd
  · exact h.alone
  · intro q np hnp
    by_cases hq : np = p
    · subst hq
      rcases hchild with hembryo | hnone
      · simpa [State.setProc] using hembryo
      · exact absurd hnp (hnone q)
    · simpa [State.setProc, hq] using h.embryo q np hnp
  · exact h.own

theorem ProcInv.idle (h : ProcInv s) (hstate : (s.proc p).state ≠ .RUNNING) :
    ∀ c d, s.cpu c = some d → d.slot ≠ p := by
  rintro c d hd rfl
  exact hstate (h.running c d hd)

private theorem ProcInv.grown (h : ProcInv s) (hstate : (s.proc p).state ≠ .EMBRYO) :
    ∀ q, s.child q ≠ some p :=
  fun q hq => hstate (h.embryo q p hq)

private theorem ProcInv.leave (h : ProcInv s) (hd : s.cpu c = some d) {v : Proc}
    (hticket : v.ticket = (s.proc d.slot).ticket) : ProcInv ((s.setProc d.slot v).sched c d) := by
  have hrun := h.running c d hd
  have hslot : ∀ q, q ≠ d.slot → ((s.setProc d.slot v).sched c d).proc q = s.proc q := by
    intro q hq
    simp [State.sched, State.setProc, hq]
  constructor
  · intro q
    by_cases hq : q = d.slot
    · subst hq
      intro _
      have hown := h.ticket d.slot (by simp [hrun])
      simpa [State.sched, State.setProc, hticket] using hown
    · rw [hslot q hq]
      exact h.ticket q
  · intro c' d' hd'
    have hother : c' ≠ c ∧ s.cpu c' = some d' := by
      simp only [State.sched] at hd'
      by_cases hc : c' = c
      · subst hc
        simp at hd'
      · exact ⟨hc, by simpa [hc] using hd'⟩
    have hne : d'.slot ≠ d.slot := fun heq => hother.1 (h.alone c' c d' d hother.2 hd heq)
    rw [hslot _ hne]
    exact h.running c' d' hother.2
  · intro c₁ c₂ d₁ d₂ h₁ h₂
    simp only [State.sched] at h₁ h₂
    by_cases hc₁ : c₁ = c
    · simp [hc₁] at h₁
    · by_cases hc₂ : c₂ = c
      · simp [hc₂] at h₂
      · exact h.alone c₁ c₂ d₁ d₂ (by simpa [hc₁] using h₁) (by simpa [hc₂] using h₂)
  · intro q np hnp
    have hembryo := h.embryo q np hnp
    have hne : np ≠ d.slot := by
      rintro rfl
      simp [hrun] at hembryo
    rw [hslot np hne]
    exact hembryo
  · exact h.own

theorem ProcInv.sleep (h : ProcInv s) (hd : s.cpu c = some d) (chan : Chan) :
    ProcInv (s.sleep c d chan) :=
  h.leave hd rfl

theorem ProcInv.exit (h : ProcInv s) (hd : s.cpu c = some d) (hexit : s.exit c d = some s') :
    ProcInv s' := by
  unfold State.exit at hexit
  split at hexit
  · simp at hexit
  · obtain rfl := Option.some.inj hexit
    have hwoken := (roused_exit s d.slot).woken
    exact (h.woken hwoken).leave (by rw [hwoken.cpu]; exact hd) rfl

private theorem ProcInv.wait (h : ProcInv s) (hd : s.cpu c = some d) : ProcInv (s.wait c d) := by
  unfold State.wait
  split
  · next p hp =>
    have hzombie : (s.proc p).state = .ZOMBIE := by
      have hboth := Scan.first_spec hp
      simp only [Bool.and_eq_true, beq_iff_eq] at hboth
      exact hboth.2
    apply h.setProc
    · exact fun hused => absurd rfl hused
    · exact .inr (h.idle (by simp [hzombie]))
    · exact .inr (h.grown (by simp [hzombie]))
  · split
    · exact h
    · exact h.sleep hd _

private theorem ProcInv.kill (h : ProcInv s) (pid : Int32) : ProcInv (s.kill pid) := by
  unfold State.kill
  split
  · next p _ =>
    apply h.woken
    constructor
    · rfl
    · rfl
    · intro q
      by_cases hq : q = p
      · subst hq
        simp [State.setProc]
      · simp [State.setProc, hq]
    · intro q
      by_cases hq : q = p
      · subst hq
        simp only [State.setProc, update_self]
        split
        · next hsleeps => exact .inr ⟨hsleeps, rfl⟩
        · exact .inl rfl
      · simp [State.setProc, hq]
  · exact h

private theorem ProcInv.settickets (h : ProcInv s) {number : Int32} (hnumber : 1 ≤ number) (p : Slot) :
    ProcInv (s.settickets p number) := by
  unfold State.settickets
  split
  · next q _ =>
    apply h.setProc
    · exact fun _ => hnumber
    · by_cases hrun : (s.proc q).state = .RUNNING
      · exact .inl hrun
      · exact .inr (h.idle hrun)
    · by_cases hembryo : (s.proc q).state = .EMBRYO
      · exact .inl hembryo
      · exact .inr (h.grown hembryo)
  · exact h

private theorem ProcInv.sys_settickets
    (h : ProcInv s) (p : Slot) (arg : Option Int32) (leftover : Int32) :
    ProcInv (s.sys_settickets p arg leftover) := by
  simp only [State.sys_settickets]
  split
  · exact h
  · next hneg =>
    split
    · exact h.settickets default_ticket p
    · next hzero =>
      apply h.settickets _ p
      rw [Int32.not_lt, Int32.le_iff_toInt_le, Int32.toInt_zero] at hneg
      rw [← Int32.toInt_inj, Int32.toInt_zero] at hzero
      rw [Int32.le_iff_toInt_le, Int32.toInt_one]
      omega

private theorem ProcInv.allocproc (h : ProcInv s) {kallocs : Bool} {np : Option Slot}
    (hnone : s.child p = none) (halloc : s.allocproc kallocs = (np, s')) :
    ProcInv { s' with child := update s.child p np } := by
  unfold State.allocproc at halloc
  split at halloc
  · obtain ⟨rfl, rfl⟩ := Prod.mk.inj halloc
    rw [← hnone, Function.update_eq_self]
    exact h
  · next q hq =>
    have hunused : (s.proc q).state = .UNUSED := by simpa using Scan.first_spec hq
    have hidle := h.idle (p := q) (by simp [hunused])
    have hgrown := h.grown (p := q) (by simp [hunused])
    have hnext : ProcInv { s with nextpid := s.nextpid + 1 } :=
      ⟨h.ticket, h.running, h.alone, h.embryo, h.own⟩
    split at halloc
    · obtain ⟨rfl, rfl⟩ := Prod.mk.inj halloc
      have hset := hnext.setProc (p := q) (v := { s.proc q with
        pid := s.nextpid, ticket := 10, tick := 0, state := .EMBRYO })
        (fun _ => default_ticket) (.inr hidle) (.inl rfl)
      constructor
      · exact hset.ticket
      · exact hset.running
      · exact hset.alone
      · intro r np hnp
        by_cases hr : r = p
        · subst hr
          obtain rfl : q = np := by simpa using hnp
          simp [State.setProc]
        · exact hset.embryo r np (by simpa [hr] using hnp)
      · intro r r' np hnp hnp'
        by_cases hr : r = p <;> by_cases hr' : r' = p
        · rw [hr, hr']
        · rw [hr] at hnp
          obtain rfl : q = np := by simpa using hnp
          exact absurd (by simpa [hr'] using hnp') (hgrown r')
        · rw [hr'] at hnp'
          obtain rfl : q = np := by simpa using hnp'
          exact absurd (by simpa [hr] using hnp) (hgrown r)
        · exact h.own r r' np (by simpa [hr] using hnp) (by simpa [hr'] using hnp')
    · obtain ⟨rfl, rfl⟩ := Prod.mk.inj halloc
      rw [← hnone, Function.update_eq_self]
      exact hnext.setProc (fun hused => absurd rfl hused) (.inr hidle) (.inr hgrown)

private theorem ProcInv.copy (h : ProcInv s) (hd : s.cpu c = some d) {np : Slot}
    (hnp : s.child d.slot = some np) (copies : Bool) :
    ProcInv { s.copy d.slot np copies with child := update s.child d.slot none } := by
  have hembryo := h.embryo d.slot np hnp
  have hforked : ProcInv { s with child := update s.child d.slot none } := by
    constructor
    · exact h.ticket
    · exact h.running
    · exact h.alone
    · intro q np' hq
      by_cases hqd : q = d.slot
      · simp [hqd] at hq
      · exact h.embryo q np' (by simpa [hqd] using hq)
    · intro q q' np' hq hq'
      by_cases hqd : q = d.slot
      · simp [hqd] at hq
      · by_cases hqd' : q' = d.slot
        · simp [hqd'] at hq'
        · exact h.own q q' np' (by simpa [hqd] using hq) (by simpa [hqd'] using hq')
  have hidle : ∀ c d, s.cpu c = some d → d.slot ≠ np := h.idle (by simp [hembryo])
  have hgrown : ∀ q, update s.child d.slot none q ≠ some np := by
    intro q hq
    by_cases hqd : q = d.slot
    · simp [hqd] at hq
    · exact hqd (h.own q d.slot np (by simpa [hqd] using hq) hnp)
  have hparent := h.ticket d.slot (by simp [h.running c d hd])
  unfold State.copy
  split
  · exact hforked.setProc (fun _ => hparent) (.inr hidle) (.inr hgrown)
  · exact hforked.setProc (fun hused => absurd rfl hused) (.inr hidle) (.inr hgrown)

private theorem ProcInv.call (h : ProcInv s) (hd : s.cpu c = some d) {call : Call}
    (hcall : s.call c d call = some s') : ProcInv s' := by
  unfold State.call at hcall
  split at hcall
  · obtain rfl := Option.some.inj hcall
    exact h.leave hd rfl
  · obtain rfl := Option.some.inj hcall
    exact h.sleep hd _
  · next hnp =>
    obtain rfl := Option.some.inj hcall
    exact h.copy hd hnp _
  · next hnone =>
    obtain rfl := Option.some.inj hcall
    exact h.allocproc hnone rfl
  · exact h.exit hd hcall
  · obtain rfl := Option.some.inj hcall
    exact h.wait hd
  · obtain rfl := Option.some.inj hcall
    exact h.sys_settickets _ _ _
  · obtain rfl := Option.some.inj hcall
    exact h.kill _
  · simp at hcall

private theorem ProcInv.round (h : ProcInv s) {genrand : List UInt32}
    (hround : s.round c genrand = some s') : ProcInv s' := by
  unfold State.round at hround
  split at hround
  · next p hidle hlottery =>
    obtain rfl := Option.some.inj hround
    have hrunnable : (s.proc p).state = .RUNNABLE := Table.runnable_of_lottery hlottery
    have hset := h.setProc (p := p) (v := { s.proc p with state := .RUNNING })
      (fun _ => h.ticket p (by simp [hrunnable])) (.inl rfl)
      (.inr (h.grown (by simp [hrunnable])))
    have hfree := h.idle (p := p) (by simp [hrunnable])
    constructor
    · exact hset.ticket
    · intro c' d hd
      by_cases hc : c' = c
      · subst hc
        obtain rfl : ⟨p, s.ticks.toInt32⟩ = d := by simpa [State.dispatch] using hd
        simp [State.dispatch, State.setProc]
      · exact hset.running c' d (by simpa [State.dispatch, hc] using hd)
    · intro c₁ c₂ d₁ d₂ h₁ h₂ heq
      by_cases hc₁ : c₁ = c <;> by_cases hc₂ : c₂ = c
      · rw [hc₁, hc₂]
      · obtain rfl : ⟨p, s.ticks.toInt32⟩ = d₁ := by simpa [State.dispatch, hc₁] using h₁
        exact absurd heq.symm (hfree c₂ d₂ (by simpa [State.dispatch, hc₂] using h₂))
      · obtain rfl : ⟨p, s.ticks.toInt32⟩ = d₂ := by simpa [State.dispatch, hc₂] using h₂
        exact absurd heq (hfree c₁ d₁ (by simpa [State.dispatch, hc₁] using h₁))
      · exact h.alone c₁ c₂ d₁ d₂ (by simpa [State.dispatch, hc₁] using h₁)
          (by simpa [State.dispatch, hc₂] using h₂) heq
    · exact hset.embryo
    · exact h.own
  · obtain rfl := Option.some.inj hround
    exact h
  · simp at hround

theorem ProcInv.step {a : Act ncpu} (h : ProcInv s) (hstep : Step s a s') : ProcInv s' := by
  cases a with
  | round c genrand => exact h.round hstep
  | call c call =>
    obtain ⟨d, hd, hcall⟩ := Option.bind_eq_some_iff.mp hstep
    exact h.call hd hcall
  | timer =>
    obtain rfl := Option.some.inj hstep
    have hticks : ProcInv { s with ticks := s.ticks + 1 } :=
      ⟨h.ticket, h.running, h.alone, h.embryo, h.own⟩
    exact hticks.woken (roused_wakeup1 _ _).woken
  | wakeup chan =>
    obtain rfl := Option.some.inj hstep
    exact h.woken (roused_wakeup1 _ _).woken

private theorem ProcInv.reached {as : List (Act ncpu)} (hrun : Run Step State.boot as s) : ProcInv s :=
  hrun.keeps (fun _ _ _ h hstep => h.step hstep) .boot

/-- A scheduler round computes the sum of the tickets, and a draw up to it ends without a division by
zero. -/
structure LotterySafe (proc : Table) : Prop where
  total : (proc.getRunnableProcTickets).toInt = proc.allTickets
  range : 0 ≤ (proc.getRunnableProcTickets).toInt ∧ (proc.getRunnableProcTickets).toInt ≤ randMax
  num_bins : num_bins proc.getRunnableProcTickets ≠ 0
  bin_size : bin_size proc.getRunnableProcTickets ≠ 0
  accepts : ∃ x : UInt32, x.toNat ≤ randMax ∧ accepts proc.getRunnableProcTickets x = true
  lottery : ∀ genrand, proc.lottery genrand ≠ .error .divide

/-- In every run a round is safe exactly when the tickets fit. -/
theorem lottery_safe_iff {as : List (Act ncpu)} (hrun : Run Step State.boot as s) :
    LotterySafe s.proc ↔ s.proc.allTickets ≤ randMax := by
  constructor
  · intro h
    rw [← h.total]
    exact h.range.2
  · intro hmax
    have hpositive : s.proc.Positive := by
      intro p hrunnable
      apply (ProcInv.reached hrun).ticket
      rw [hrunnable]
      decide
    have htotal := Table.getRunnableProcTickets_of_le hpositive hmax
    have hpos := Table.allTickets_nonneg hpositive
    have hnonneg : 0 ≤ s.proc.getRunnableProcTickets := by
      rw [Int32.le_iff_toInt_le, htotal]
      exact hpos
    have hbins := num_bins_ne_zero hnonneg
    have hsize := bin_size_ne_zero hnonneg
    refine ⟨htotal, by omega, hbins, hsize, ⟨0, Nat.zero_le _, accepts_zero hnonneg⟩, ?_⟩
    intro genrand
    simp only [Table.lottery, random_at_most, if_neg hbins, if_neg hsize]
    cases genrand.find? (accepts s.proc.getRunnableProcTickets) <;> simp

/-- CPU 0 where there is one. -/
instance oneCpu : NeZero 1 := ⟨Nat.one_ne_zero⟩

/-- The first process forks and waits; its child takes some tickets, forks, and is preempted. -/
def forkRun (number : Int32) : List (Act 1) :=
  [.round 0 [0], .call 0 (.allocproc true), .call 0 (.copy true), .call 0 .wait, .round 0 [0],
    .call 0 (.settickets (some number) 0), .call 0 (.allocproc true), .call 0 (.copy true),
    .call 0 .yield]

/-- Two processes with 100 tickets each. -/
theorem lottery_safe_fork :
    ∃ s, (forkRun 100).foldlM act State.boot = some s ∧ s.proc.allTickets = 200 ∧
      LotterySafe s.proc := by
  obtain ⟨s, hs, htickets⟩ := Option.map_eq_some_iff.mp (by decide +kernel :
    ((forkRun 100).foldlM act State.boot).map (fun s => s.proc.allTickets) = some 200)
  have hfits : s.proc.allTickets ≤ randMax := by
    rw [htickets]
    decide
  exact ⟨s, hs, htickets, (lottery_safe_iff (.of_foldlM hs)).mpr hfits⟩

/-- Two processes with `RAND_MAX` tickets each: the sum wraps to -2, there are more bins than
generator values, and every value is rejected. -/
theorem tickets_overflow :
    ∃ s, Run Step State.boot (forkRun 2147483647) s ∧ s.proc.allTickets = 4294967294 ∧
      s.proc.getRunnableProcTickets = -2 ∧ (∀ x, accepts s.proc.getRunnableProcTickets x = false) ∧
      ¬ LotterySafe s.proc := by
  obtain ⟨s, hs, hfacts⟩ := Option.map_eq_some_iff.mp (by decide +kernel :
    ((forkRun 2147483647).foldlM act State.boot).map (fun s => decide
      (s.proc.allTickets = 4294967294 ∧ s.proc.getRunnableProcTickets = -2)) = some true)
  obtain ⟨htickets, htotal⟩ := of_decide_eq_true hfacts
  refine ⟨s, .of_foldlM hs, htickets, htotal, ?_, ?_⟩
  · intro x
    have hnone : num_rand - defect (-2) = 0 := by decide +kernel
    simp [accepts, htotal, hnone]
  · intro hsafe
    have hrange := hsafe.range.1
    rw [htotal] at hrange
    revert hrange
    decide

end OsSessional.Lottery
