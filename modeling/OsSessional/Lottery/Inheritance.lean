import OsSessional.Lottery.Tickets

/-!
# Tickets follow processes

`settickets` looks its caller up by pid. Pids are handed out in order, and a slot keeps the last one
until `wait` clears it, so before `nextpid` wraps no other slot carries the pid of a process. The
tickets of a parent therefore stay what they were when its `fork` began, until the child has them.
-/

namespace OsSessional.Lottery

open Function (update update_self update_of_ne)

variable {ncpu : Nat} {s s' s₁ : State ncpu} {c : Fin ncpu} {d : Dispatch} {p q : Slot}

/-- The system, with the tickets each process had when its last `fork` began. -/
structure Recorded (ncpu : Nat) where
  state : State ncpu
  atFork : Slot → Int32

def Recorded.boot : Recorded ncpu := ⟨State.boot, fun _ => 0⟩

def record (s : State ncpu) (atFork : Slot → Int32) : Act ncpu → Slot → Int32
  | .call c (.allocproc _) =>
    match s.cpu c with
    | some d => update atFork d.slot (s.proc d.slot).ticket
    | none => atFork
  | _ => atFork

/-- `argint` finds the argument of `settickets`. -/
def fetched : Act ncpu → Bool
  | .call _ (.settickets arg _) => arg.isSome
  | _ => true

/-- A step before `nextpid` wraps. -/
structure Recorded.Step (r : Recorded ncpu) (a : Act ncpu) (r' : Recorded ncpu) : Prop where
  step : Lottery.Step r.state a r'.state
  recorded : r'.atFork = record r.state r.atFork a
  fetched : fetched a = true
  unwrapped : 0 < r'.state.nextpid

/-- The process may run, now or later. -/
def ProcState.alive (st : ProcState) : Prop := st = .RUNNING ∨ st = .RUNNABLE ∨ st = .SLEEPING

/-- Processes change their states; no pid, no ticket and no `fork` is touched. -/
structure Quiet (s s' : State ncpu) : Prop where
  nextpid : s'.nextpid = s.nextpid
  child : s'.child = s.child
  pid : ∀ p, (s'.proc p).pid = (s.proc p).pid
  ticket : ∀ p, (s'.proc p).ticket = (s.proc p).ticket
  used : ∀ p, (s'.proc p).state ≠ .UNUSED → (s.proc p).state ≠ .UNUSED
  embryo : ∀ p, (s.proc p).state = .EMBRYO → (s'.proc p).state = .EMBRYO
  alive : ∀ p, s.child p ≠ none → (s.proc p).state.alive → (s'.proc p).state.alive

private theorem Quiet.refl (s : State ncpu) : Quiet s s :=
  ⟨rfl, rfl, fun _ => rfl, fun _ => rfl, fun _ => id, fun _ => id, fun _ _ => id⟩

private theorem Quiet.trans (h : Quiet s s₁) (h' : Quiet s₁ s') : Quiet s s' := by
  constructor
  · rw [h'.nextpid, h.nextpid]
  · rw [h'.child, h.child]
  · intro p
    rw [h'.pid, h.pid]
  · intro p
    rw [h'.ticket, h.ticket]
  · exact fun p hp => h.used p (h'.used p hp)
  · exact fun p hp => h'.embryo p (h.embryo p hp)
  · intro p hchild hp
    exact h'.alive p (by rwa [h.child]) (h.alive p hchild hp)

private theorem Quiet.setProc {v : Proc} (hpid : v.pid = (s.proc p).pid) (hticket : v.ticket = (s.proc p).ticket)
    (hstate : v.state = (s.proc p).state ∨
      (s.proc p).state.alive ∧ (v.state.alive ∨ v.state = .ZOMBIE ∧ s.child p = none)) :
    Quiet s (s.setProc p v) := by
  have hat : ∀ q, (s.setProc p v).proc q = if q = p then v else s.proc q := by
    intro q
    by_cases hq : q = p
    · subst hq
      simp [State.setProc]
    · simp [State.setProc, hq]
  constructor
  · rfl
  · rfl
  all_goals
    intro q
    rw [hat]
    split
  · next hq => rw [hq, hpid]
  · rfl
  · next hq => rw [hq, hticket]
  · rfl
  · next hq =>
    rw [hq]
    rcases hstate with hsame | ⟨halive, -⟩
    · rw [hsame]
      exact id
    · rcases halive with h | h | h <;> simp [h]
  · exact id
  · next hq =>
    rw [hq]
    rcases hstate with hsame | ⟨halive, -⟩
    · rw [hsame]
      exact id
    · rcases halive with h | h | h <;> simp [h]
  · exact id
  · next hq =>
    rw [hq]
    intro hchild halive
    rcases hstate with hsame | ⟨-, hv | hv⟩
    · rwa [hsame]
    · exact hv
    · exact absurd hv.2 hchild
  · exact fun _ => id

private theorem Roused.quiet (h : Roused s s') : Quiet s s' := by
  constructor
  · exact h.nextpid
  · exact h.child
  all_goals
    intro p
    obtain ⟨st, parent, hp, hst⟩ := h.proc p
    rw [hp]
  · rcases hst with rfl | ⟨hsleeps, rfl⟩
    · exact id
    · simp [hsleeps]
  · rcases hst with rfl | ⟨hsleeps, rfl⟩
    · exact id
    · simp [hsleeps]
  · rcases hst with rfl | ⟨hsleeps, rfl⟩
    · exact fun _ => id
    · exact fun _ _ => .inr (.inl rfl)

private theorem quiet_sched (hrun : (s.proc d.slot).state = .RUNNING) {v : Proc}
    (hpid : v.pid = (s.proc d.slot).pid) (hticket : v.ticket = (s.proc d.slot).ticket)
    (hv : v.state.alive ∨ v.state = .ZOMBIE ∧ s.child d.slot = none) :
    Quiet s ((s.setProc d.slot v).sched c d) := by
  have hproc : ((s.setProc d.slot v).sched c d).proc =
      (s.setProc d.slot { v with tick := v.tick + (s.ticks.toInt32 - d.tick_start) }).proc := by
    simp [State.sched, State.setProc]
  have hquiet : Quiet s (s.setProc d.slot { v with tick := v.tick + (s.ticks.toInt32 - d.tick_start) }) :=
    .setProc hpid hticket (.inr ⟨.inl hrun, hv⟩)
  exact ⟨rfl, rfl, by rw [hproc]; exact hquiet.pid, by rw [hproc]; exact hquiet.ticket,
    by rw [hproc]; exact hquiet.used, by rw [hproc]; exact hquiet.embryo,
    by rw [hproc]; exact hquiet.alive⟩

/-- What a step can do. -/
inductive Change (s : State ncpu) : Act ncpu → State ncpu → Prop
  | quiet {a : Act ncpu} {s' : State ncpu} (h : Quiet s s') : Change s a s'
  | alloc {c : Fin ncpu} {d : Dispatch} {q : Slot} {v : Proc} {np : Option Slot} (kallocs : Bool)
      (hd : s.cpu c = some d) (hnone : s.child d.slot = none) (hunused : (s.proc q).state = .UNUSED)
      (hpid : v.pid = s.nextpid)
      (hv : v.state = .EMBRYO ∧ np = some q ∨ v.state = .UNUSED ∧ np = none) :
      Change s (.call c (.allocproc kallocs))
        { { s with nextpid := s.nextpid + 1 }.setProc q v with child := update s.child d.slot np }
  | copied {c : Fin ncpu} {d : Dispatch} {np : Slot} {copies : Bool} (hd : s.cpu c = some d)
      (hnp : s.child d.slot = some np) :
      Change s (.call c (.copy copies))
        { s.copy d.slot np copies with child := update s.child d.slot none }
  | reaped {a : Act ncpu} {p : Slot} {v : Proc} (hzombie : (s.proc p).state = .ZOMBIE)
      (hpid : v.pid = 0) (hv : v.state = .UNUSED) : Change s a (s.setProc p v)
  | settickets {c : Fin ncpu} {d : Dispatch} {arg : Option Int32} {leftover : Int32} {s' : State ncpu}
      (hd : s.cpu c = some d) (hnone : s.child d.slot = none)
      (hs' : s' = s.sys_settickets d.slot arg leftover) :
      Change s (.call c (.settickets arg leftover)) s'

private theorem change_wait {a : Act ncpu} (hrun : (s.proc d.slot).state = .RUNNING) :
    Change s a (s.wait c d) := by
  unfold State.wait
  split
  · next p hp =>
    have hboth := Scan.first_spec hp
    simp only [Bool.and_eq_true, beq_iff_eq] at hboth
    exact .reaped hboth.2 rfl rfl
  · split
    · exact .quiet (.refl s)
    · exact .quiet (quiet_sched hrun rfl rfl (.inl (.inr (.inr rfl))))

private theorem change_exit {a : Act ncpu} (hrun : (s.proc d.slot).state = .RUNNING)
    (hnone : s.child d.slot = none) (hexit : s.exit c d = some s') : Change s a s' := by
  unfold State.exit at hexit
  split at hexit
  · simp at hexit
  · obtain rfl := Option.some.inj hexit
    have hquiet := (roused_exit s d.slot).quiet
    have hwoken := (roused_exit s d.slot).woken
    have hrun' : (((s.wakeParent d.slot).passChildren d.slot).proc d.slot).state = .RUNNING := by
      rcases hwoken.state d.slot with h | h
      · rw [h, hrun]
      · simp [hrun] at h
    refine .quiet (hquiet.trans (quiet_sched hrun' rfl rfl (.inr ⟨rfl, ?_⟩)))
    rw [hquiet.child, hnone]

private theorem quiet_kill (s : State ncpu) (pid : Int32) : Quiet s (s.kill pid) := by
  unfold State.kill
  split
  · next p _ =>
    refine Quiet.setProc (v := { s.proc p with
      killed := true
      state := if (s.proc p).state = .SLEEPING then .RUNNABLE else (s.proc p).state }) rfl rfl ?_
    dsimp only
    split
    · next hsleeps => exact .inr ⟨.inr (.inr hsleeps), .inl (.inr (.inl rfl))⟩
    · exact .inl rfl
  · exact .refl s

private theorem change_allocproc (hd : s.cpu c = some d) (hnone : s.child d.slot = none) {kallocs : Bool}
    {np : Option Slot} (halloc : s.allocproc kallocs = (np, s')) :
    Change s (.call c (.allocproc kallocs)) { s' with child := update s.child d.slot np } := by
  unfold State.allocproc at halloc
  split at halloc
  · obtain ⟨rfl, rfl⟩ := Prod.mk.inj halloc
    rw [← hnone, Function.update_eq_self]
    exact .quiet (.refl s)
  · next q hq =>
    have hunused : (s.proc q).state = .UNUSED := by simpa using Scan.first_spec hq
    split at halloc
    · obtain ⟨rfl, rfl⟩ := Prod.mk.inj halloc
      exact .alloc kallocs hd hnone hunused rfl (.inl ⟨rfl, rfl⟩)
    · obtain ⟨rfl, rfl⟩ := Prod.mk.inj halloc
      exact .alloc kallocs hd hnone hunused rfl (.inr ⟨rfl, rfl⟩)

private theorem change_call (h : ProcInv s) (hd : s.cpu c = some d) {call : Call}
    (hcall : s.call c d call = some s') : Change s (.call c call) s' := by
  have hrun := h.running c d hd
  unfold State.call at hcall
  split at hcall
  · obtain rfl := Option.some.inj hcall
    exact .quiet (quiet_sched hrun rfl rfl (.inl (.inr (.inl rfl))))
  · obtain rfl := Option.some.inj hcall
    exact .quiet (quiet_sched hrun rfl rfl (.inl (.inr (.inr rfl))))
  · next hnp =>
    obtain rfl := Option.some.inj hcall
    exact .copied hd hnp
  · next hnone =>
    obtain rfl := Option.some.inj hcall
    exact change_allocproc hd hnone rfl
  · next hnone => exact change_exit hrun hnone hcall
  · obtain rfl := Option.some.inj hcall
    exact change_wait hrun
  · next hnone =>
    obtain rfl := Option.some.inj hcall
    exact .settickets hd hnone rfl
  · obtain rfl := Option.some.inj hcall
    exact .quiet (quiet_kill s _)
  · simp at hcall

private theorem Change.of_step (h : ProcInv s) {a : Act ncpu} (hstep : Step s a s') : Change s a s' := by
  cases a with
  | round c genrand =>
    simp only [Step, act, State.round] at hstep
    split at hstep
    · next p _ hlottery =>
      obtain rfl := Option.some.inj hstep
      have hrunnable : (s.proc p).state = .RUNNABLE := Table.runnable_of_lottery hlottery
      have hset : Quiet s (s.setProc p { s.proc p with state := .RUNNING }) :=
        .setProc rfl rfl (.inr ⟨.inr (.inl hrunnable), .inl (.inl rfl)⟩)
      exact .quiet ⟨rfl, rfl, hset.pid, hset.ticket, hset.used, hset.embryo, hset.alive⟩
    · obtain rfl := Option.some.inj hstep
      exact .quiet (.refl s)
    · simp at hstep
  | call c call =>
    obtain ⟨d, hd, hcall⟩ := Option.bind_eq_some_iff.mp hstep
    exact change_call h hd hcall
  | timer =>
    obtain rfl := Option.some.inj hstep
    have hquiet := (roused_wakeup1 { s with ticks := s.ticks + 1 } .ticks).quiet
    exact .quiet ⟨rfl, rfl, hquiet.pid, hquiet.ticket, hquiet.used, hquiet.embryo, hquiet.alive⟩
  | wakeup chan =>
    obtain rfl := Option.some.inj hstep
    exact .quiet (roused_wakeup1 s chan).quiet

/-- Pids below `nextpid` are given to one slot each; a process in the middle of a `fork` is alive and
has the tickets it had at its beginning. -/
structure FollowInv (r : Recorded ncpu) : Prop where
  base : ProcInv r.state
  range : ∀ p, 0 ≤ (r.state.proc p).pid ∧ (r.state.proc p).pid < r.state.nextpid
  used : ∀ p, (r.state.proc p).state ≠ .UNUSED → (r.state.proc p).pid ≠ 0
  unique : ∀ p q, (r.state.proc p).pid = (r.state.proc q).pid → (r.state.proc p).pid ≠ 0 → p = q
  alive : ∀ p, r.state.child p ≠ none → (r.state.proc p).state.alive
  atFork : ∀ p, r.state.child p ≠ none → (r.state.proc p).ticket = r.atFork p

theorem FollowInv.boot : FollowInv (Recorded.boot : Recorded ncpu) := by
  have hpid : ∀ p, ((Recorded.boot : Recorded ncpu).state.proc p).pid = if p = 0 then 1 else 0 := by
    intro p
    by_cases hp : p = 0
    · subst hp
      rfl
    · simp [Recorded.boot, State.boot, hp, Proc.zero]
  constructor
  · exact .boot
  · intro p
    rw [hpid, show (Recorded.boot : Recorded ncpu).state.nextpid = 2 from rfl]
    split <;> exact ⟨by decide, by decide⟩
  · intro p hused
    rw [hpid]
    split
    · decide
    · next hp => simp [Recorded.boot, State.boot, hp, Proc.zero] at hused
  · intro p q hsame hne
    rw [hpid] at hsame hne
    rw [hpid q] at hsame
    split at hne
    · next hp =>
      rw [if_pos hp] at hsame
      split at hsame
      · next hq => rw [hp, hq]
      · simp at hsame
    · simp at hne
  · intro p hp
    simp [Recorded.boot, State.boot] at hp
  · intro p hp
    simp [Recorded.boot, State.boot] at hp

/-- The tickets after `settickets(number)`. -/
def asked (ticket number : Int32) : Int32 :=
  if number < 0 then ticket else if number = 0 then 10 else number

section Own

variable {r : Recorded ncpu}

private theorem FollowInv.settickets (h : FollowInv r) (hused : (r.state.proc p).state ≠ .UNUSED)
    (number : Int32) :
    r.state.settickets p number = r.state.setProc p { r.state.proc p with ticket := number } := by
  have hkey : Scan.Unshadowed (fun q => (r.state.proc q).pid) p := by
    intro q hq hsame
    obtain rfl := h.unique p q hsame.symm (h.used p hused)
    exact lt_irrefl _ hq
  unfold State.settickets
  rw [Scan.first_key hkey]

private theorem FollowInv.sys_settickets (h : FollowInv r) (hused : (r.state.proc p).state ≠ .UNUSED)
    (arg : Option Int32) (leftover : Int32) :
    r.state.sys_settickets p arg leftover = r.state.setProc p { r.state.proc p with
      ticket := asked (r.state.proc p).ticket (arg.getD leftover) } := by
  simp only [State.sys_settickets, asked]
  split
  · simp [State.setProc]
  · split
    · exact h.settickets hused 10
    · exact h.settickets hused _

end Own

private theorem record_of_child {a : Act ncpu} (hstep : Step s a s') {atFork : Slot → Int32}
    (hchild : s.child p ≠ none) : record s atFork a p = atFork p := by
  unfold record
  split
  · next c kallocs =>
    cases hd : s.cpu c with
    | none => rfl
    | some d =>
      change update atFork d.slot (s.proc d.slot).ticket p = atFork p
      rw [update_of_ne]
      rintro rfl
      simp only [Step, act, hd, Option.bind_some, State.call] at hstep
      cases hc : s.child d.slot with
      | none => exact hchild hc
      | some np => simp [hc] at hstep
  · rfl

section Step

variable {r r' : Recorded ncpu} {a : Act ncpu}

private theorem FollowInv.quiet
    (h : FollowInv r) (hbase : ProcInv r'.state) (hquiet : Quiet r.state r'.state)
    (hatFork : ∀ p, r.state.child p ≠ none → r'.atFork p = r.atFork p) : FollowInv r' := by
  constructor
  · exact hbase
  · intro p
    rw [hquiet.pid, hquiet.nextpid]
    exact h.range p
  · intro p hused
    rw [hquiet.pid]
    exact h.used p (hquiet.used p hused)
  · intro p q
    rw [hquiet.pid, hquiet.pid]
    exact h.unique p q
  · intro p hchild
    rw [hquiet.child] at hchild
    exact hquiet.alive p hchild (h.alive p hchild)
  · intro p hchild
    rw [hquiet.child] at hchild
    rw [hquiet.ticket, hatFork p hchild, h.atFork p hchild]

private theorem lt_succ_nextpid {x nextpid : Int32} (hx : x ≤ nextpid) (hpos : 0 < nextpid)
    (hnext : 0 < nextpid + 1) : x < nextpid + 1 := by
  have hmin := Int32.minValue_le_toInt nextpid
  have hlt := Int32.toInt_lt nextpid
  rw [Int32.lt_iff_toInt_lt, Int32.toInt_zero] at hpos hnext
  rw [Int32.le_iff_toInt_le] at hx
  rw [Int32.lt_iff_toInt_lt]
  rw [Int32.toInt_add, Int32.toInt_one] at hnext ⊢
  rw [Int.bmod_def] at hnext ⊢
  omega

private theorem FollowInv.setProc (h : FollowInv r) {v : Proc}
    (hbase : ProcInv r'.state) (hproc : r'.state.proc = update r.state.proc p v)
    (hle : ∀ q, (r.state.proc q).pid < r'.state.nextpid)
    (hrange : 0 ≤ v.pid ∧ v.pid < r'.state.nextpid) (hused : v.state ≠ .UNUSED → v.pid ≠ 0)
    (hunique : v.pid ≠ 0 → ∀ q, q ≠ p → (r.state.proc q).pid ≠ v.pid)
    (hforks : ∀ q, r'.state.child q ≠ none → q ≠ p ∧ (r.state.proc q).state.alive ∧
      (r.state.proc q).ticket = r'.atFork q) : FollowInv r' := by
  have hat : ∀ q, r'.state.proc q = if q = p then v else r.state.proc q := by
    intro q
    rw [hproc]
    by_cases hq : q = p
    · subst hq
      simp
    · simp [hq]
  constructor
  · exact hbase
  · intro q
    rw [hat]
    split
    · exact hrange
    · exact ⟨(h.range q).1, hle q⟩
  · intro q
    rw [hat]
    split
    · exact hused
    · exact h.used q
  · intro q q' hsame hne
    rw [hat] at hsame hne
    rw [hat q'] at hsame
    by_cases hq : q = p <;> by_cases hq' : q' = p
    · rw [hq, hq']
    · rw [if_pos hq] at hsame hne
      rw [if_neg hq'] at hsame
      exact absurd hsame.symm (hunique hne q' hq')
    · rw [if_neg hq] at hsame hne
      rw [if_pos hq'] at hsame
      rw [hsame] at hne
      exact absurd hsame (hunique hne q hq)
    · rw [if_neg hq] at hsame hne
      rw [if_neg hq'] at hsame
      exact h.unique q q' hsame hne
  · intro q hq
    obtain ⟨hne, halive, -⟩ := hforks q hq
    rwa [hat, if_neg hne]
  · intro q hq
    obtain ⟨hne, -, hticket⟩ := hforks q hq
    rwa [hat, if_neg hne]

theorem FollowInv.step (h : FollowInv r) (hstep : Recorded.Step r a r') : FollowInv r' := by
  have hbase := h.base.step hstep.step
  have hatFork : ∀ p, r.state.child p ≠ none → r'.atFork p = r.atFork p := by
    intro p hp
    rw [hstep.recorded]
    exact record_of_child hstep.step hp
  have hforks : ∀ p, r.state.child p ≠ none → (r.state.proc p).state.alive ∧
      (r.state.proc p).ticket = r'.atFork p := by
    intro p hp
    rw [hatFork p hp]
    exact ⟨h.alive p hp, h.atFork p hp⟩
  have hrunning : ∀ {c d}, r.state.cpu c = some d → (r.state.proc d.slot).state.alive :=
    fun hd => .inl (h.base.running _ _ hd)
  have hpos : 0 < r.state.nextpid := Int32.lt_of_le_of_lt (h.range 0).1 (h.range 0).2
  have hunwrapped := hstep.unwrapped
  obtain ⟨s', atFork⟩ := r'
  cases Change.of_step h.base hstep.step with
  | quiet hquiet => exact h.quiet hbase hquiet hatFork
  | @alloc c d q v np kallocs hd hnone hunused hpid hv =>
    have hrecorded : atFork d.slot = (r.state.proc d.slot).ticket := by
      have hrec := hstep.recorded
      simp only [record, hd] at hrec
      rw [hrec, update_self]
    have hlt : ∀ q, (r.state.proc q).pid < r.state.nextpid + 1 :=
      fun q => lt_succ_nextpid (Int32.le_of_lt (h.range q).2) hpos hunwrapped
    apply h.setProc hbase rfl hlt
    · rw [hpid]
      exact ⟨Int32.le_of_lt hpos, lt_succ_nextpid (Int32.le_refl _) hpos hunwrapped⟩
    · intro _
      rw [hpid]
      exact (Int32.ne_of_lt hpos).symm
    · intro _ q' _
      rw [hpid]
      exact Int32.ne_of_lt (h.range q').2
    · intro q' hq'
      have hnotq : ∀ {p}, (r.state.proc p).state.alive → p ≠ q := by
        rintro p halive rfl
        simp [hunused, ProcState.alive] at halive
      by_cases hself : q' = d.slot
      · rw [hself]
        exact ⟨hnotq (hrunning hd), hrunning hd, hrecorded.symm⟩
      · have hchild : r.state.child q' ≠ none := by simpa [hself] using hq'
        obtain ⟨halive, hticket⟩ := hforks q' hchild
        exact ⟨hnotq halive, halive, hticket⟩
  | @copied c d np copies hd hnp =>
    have hembryo := h.base.embryo d.slot np hnp
    obtain ⟨v, hcopy, hpid⟩ : ∃ v, r.state.copy d.slot np copies = r.state.setProc np v ∧
        v.pid = (r.state.proc np).pid := by
      cases copies <;> exact ⟨_, rfl, rfl⟩
    apply h.setProc (p := np) (v := v) hbase
    · simp only [hcopy]
      rfl
    · simp only [hcopy]
      exact fun q => (h.range q).2
    · simp only [hcopy, hpid]
      exact h.range np
    · intro _
      rw [hpid]
      exact h.used np (by simp [hembryo])
    · intro hne q hq hsame
      rw [hpid] at hsame
      apply hq
      apply h.unique q np hsame
      rwa [hsame, ← hpid]
    · intro q hq
      have hself : q ≠ d.slot := by
        rintro rfl
        simp at hq
      have hchild : r.state.child q ≠ none := by simpa [hcopy, hself] using hq
      obtain ⟨halive, hticket⟩ := hforks q hchild
      refine ⟨?_, halive, hticket⟩
      rintro rfl
      simp [hembryo, ProcState.alive] at halive
  | @reaped _ p v hzombie hpid hv =>
    apply h.setProc hbase rfl (fun q => (h.range q).2)
    · rw [hpid]
      exact ⟨Int32.le_refl _, hpos⟩
    · exact fun hused => absurd hv hused
    · exact fun hne => absurd hpid hne
    · intro q hq
      obtain ⟨halive, hticket⟩ := hforks q hq
      refine ⟨?_, halive, hticket⟩
      rintro rfl
      simp [hzombie, ProcState.alive] at halive
  | @settickets c d arg leftover _ hd hnone hs' =>
    have hused : (r.state.proc d.slot).state ≠ .UNUSED := by simp [h.base.running c d hd]
    rw [h.sys_settickets hused arg leftover] at hs'
    obtain rfl := hs'
    apply h.setProc hbase rfl (fun q => (h.range q).2) (h.range d.slot)
    · exact fun _ => h.used d.slot hused
    · intro hne q hq hsame
      apply hq
      apply h.unique q d.slot hsame
      rwa [hsame]
    · intro q hq
      obtain ⟨halive, hticket⟩ := hforks q hq
      refine ⟨?_, halive, hticket⟩
      rintro rfl
      exact hq hnone

end Step

/-- Every process has tickets; a child has those its parent had when it called `fork`; `settickets`
changes the tickets of its caller only. -/
structure TicketsFollow (r : Recorded ncpu) : Prop where
  ticket : ∀ p, (r.state.proc p).state ≠ .UNUSED → 1 ≤ (r.state.proc p).ticket
  child : ∀ a r' np, Recorded.Step r a r' → (r.state.proc np).state = .EMBRYO →
    (r'.state.proc np).state = .RUNNABLE → ∃ parent, r.state.child parent = some np ∧
      (r'.state.proc np).parent = some parent ∧ (r'.state.proc np).ticket = r.atFork parent
  settickets : ∀ c d arg leftover r', r.state.cpu c = some d →
    Recorded.Step r (.call c (.settickets (some arg) leftover)) r' →
      r'.state = r.state.setProc d.slot { r.state.proc d.slot with
        ticket := asked (r.state.proc d.slot).ticket arg }

private theorem FollowInv.child {r r' : Recorded ncpu} {a : Act ncpu} {np : Slot} (h : FollowInv r)
    (hstep : Recorded.Step r a r') (hembryo : (r.state.proc np).state = .EMBRYO)
    (hrunnable : (r'.state.proc np).state = .RUNNABLE) :
    ∃ parent, r.state.child parent = some np ∧ (r'.state.proc np).parent = some parent ∧
      (r'.state.proc np).ticket = r.atFork parent := by
  obtain ⟨s', atFork⟩ := r'
  have hmoved : ∀ {p v}, (update r.state.proc p v np).state = .RUNNABLE → np = p := by
    intro p v hnew
    by_contra hne
    rw [update_of_ne hne, hembryo] at hnew
    simp at hnew
  cases Change.of_step h.base hstep.step with
  | quiet hquiet =>
    have hstays := hquiet.embryo np hembryo
    rw [hrunnable] at hstays
    simp at hstays
  | @alloc c d q v np' kallocs hd hnone hunused hpid hv =>
    obtain rfl := hmoved hrunnable
    simp [hunused] at hembryo
  | @copied c d np' copies hd hnp =>
    cases copies with
    | false =>
      obtain rfl := hmoved hrunnable
      simp [State.copy, State.setProc] at hrunnable
    | true =>
      obtain rfl := hmoved hrunnable
      refine ⟨d.slot, hnp, ?_, ?_⟩
      · simp [State.copy, State.setProc]
      · have hticket := h.atFork d.slot (by simp [hnp])
        simpa [State.copy, State.setProc] using hticket
  | reaped hzombie hpid hv =>
    obtain rfl := hmoved hrunnable
    simp [hzombie] at hembryo
  | @settickets c d arg leftover _ hd hnone hs' =>
    have hrun := h.base.running c d hd
    rw [h.sys_settickets (by simp [hrun]) arg leftover] at hs'
    obtain rfl := hs'
    obtain rfl := hmoved hrunnable
    simp [hrun] at hembryo

/-- In every run before `nextpid` wraps the tickets follow the processes. -/
theorem tickets_follow_of_run {r : Recorded ncpu} {as : List (Act ncpu)}
    (hrun : Run Recorded.Step Recorded.boot as r) : TicketsFollow r := by
  have h : FollowInv r := hrun.keeps (fun _ _ _ h hstep => h.step hstep) .boot
  refine ⟨h.base.ticket, fun a r' np hstep => h.child hstep, ?_⟩
  intro c d arg leftover r' hd hstep
  have hused : (r.state.proc d.slot).state ≠ .UNUSED := by simp [h.base.running c d hd]
  have hcall : r.state.call c d (.settickets (some arg) leftover) = some r'.state := by
    simpa [Step, act, hd] using hstep.step
  have hs' : r'.state = r.state.sys_settickets d.slot (some arg) leftover := by
    cases hchild : r.state.child d.slot with
    | none =>
      simp only [State.call, hchild] at hcall
      exact (Option.some.inj hcall).symm
    | some np => simp [State.call, hchild] at hcall
  exact hs'.trans (h.sys_settickets hused (some arg) leftover)

/-- The recorded system, computed. -/
def Recorded.next (r : Recorded ncpu) (a : Act ncpu) : Option (Recorded ncpu) :=
  (Lottery.act r.state a).bind fun s =>
    if fetched a ∧ 0 < s.nextpid then some ⟨s, record r.state r.atFork a⟩ else none

private theorem Recorded.step_of_next {r r' : Recorded ncpu} {a : Act ncpu} (h : r.next a = some r') :
    Recorded.Step r a r' := by
  obtain ⟨s, hs, hnext⟩ := Option.bind_eq_some_iff.mp h
  split at hnext
  · next hboth =>
    obtain rfl := Option.some.inj hnext
    exact ⟨hs, rfl, hboth.1, hboth.2⟩
  · simp at hnext

/-- The child takes 100 tickets and forks: its child, in the third slot, has 100 tickets as well. -/
theorem tickets_follow_of_run_fork :
    ∃ r : Recorded 1, Run Recorded.Step Recorded.boot (forkRun 100) r ∧
      (r.state.proc 2).ticket = 100 ∧ TicketsFollow r := by
  obtain ⟨r, hr, hticket⟩ := Option.map_eq_some_iff.mp (by decide +kernel :
    ((forkRun 100).foldlM Recorded.next Recorded.boot).map (fun r => (r.state.proc 2).ticket) =
      some 100)
  have hrun := (Run.of_foldlM hr).mono fun _ _ _ hnext => Recorded.step_of_next hnext
  exact ⟨r, hrun, hticket, tickets_follow_of_run hrun⟩

end OsSessional.Lottery
