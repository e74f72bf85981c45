import OsSessional.Lottery.Tickets
import OsSessional.Lib.Threads
import Mathlib.Data.Int.ModEq

/-!
# Tick accounting

On one CPU `ticks` stands still while `ptable.lock` is held, so the difference the scheduler charges
is the number of timer interrupts that arrived between the dispatch and the return. Nobody reaps the
dispatched process or gives its slot away in between.
-/

namespace OsSessional.Lottery

open Function (update update_self update_of_ne)

variable {s s' s₁ : State 1} {c : Fin 1} {d : Dispatch} {p q : Slot}

/-- The system on one CPU and what the timer interrupts add up to: for each slot those that arrived
while its process was dispatched, those with no process dispatched, and the ticks left in the slots
that were allocated again, 0 for a first use. -/
structure Books where
  state : State 1
  spent : Slot → Nat
  idle : Nat
  gone : List Int32

def Books.boot : Books := ⟨State.boot, fun _ => 0, 0, []⟩

/-- The books after a step. -/
def Books.enter (b : Books) (state : State 1) : Act 1 → Books
  | .timer =>
    match b.state.cpu 0 with
    | some d => { b with state := state, spent := update b.spent d.slot (b.spent d.slot + 1) }
    | none => { b with state := state, idle := b.idle + 1 }
  | .call _ (.allocproc _) =>
    match Scan.first fun p => (b.state.proc p).state == .UNUSED with
    | some q =>
      { b with
        state := state
        spent := update b.spent q 0
        gone := (b.state.proc q).tick :: b.gone }
    | none => { b with state := state }
  | _ => { b with state := state }

def Books.Step (b : Books) (a : Act 1) (b' : Books) : Prop :=
  Lottery.Step b.state a b'.state ∧ b' = b.enter b'.state a

/-- What the return to the scheduler will charge. -/
def State.charge (s : State 1) (p : Slot) : Int32 :=
  match s.cpu 0 with
  | some d => if d.slot = p then s.ticks.toInt32 - d.tick_start else 0
  | none => 0

private theorem toInt_add_modEq (x y : Int32) : (x + y).toInt ≡ x.toInt + y.toInt [ZMOD 2 ^ 32] := by
  rw [Int32.toInt_add]
  exact Int.bmod_emod

structure BooksInv (b : Books) : Prop where
  each : ∀ p, (b.state.proc p).tick.toInt + (b.state.charge p).toInt ≡ b.spent p [ZMOD 2 ^ 32]
  sum : (∑ p, (b.spent p : Int)) + (b.gone.map Int32.toInt).sum + b.idle ≡
    b.state.ticks.toNat [ZMOD 2 ^ 32]

private theorem BooksInv.boot : BooksInv .boot := by
  constructor
  · intro p
    have htick : (Books.boot.state.proc p).tick = 0 := by
      by_cases hp : p = 0
      · subst hp
        rfl
      · simp [Books.boot, State.boot, hp, Proc.zero]
    rw [htick]
    exact .rfl
  · simp [Books.boot, State.boot]

/-- A step that neither dispatches nor charges. -/
structure Still (s s' : State 1) : Prop where
  cpu : s'.cpu = s.cpu
  ticks : s'.ticks = s.ticks
  tick : ∀ p, (s'.proc p).tick = (s.proc p).tick

private theorem Still.refl (s : State 1) : Still s s := ⟨rfl, rfl, fun _ => rfl⟩

private theorem Still.setProc {v : Proc} (htick : v.tick = (s.proc p).tick) :
    Still s (s.setProc p v) := by
  refine ⟨rfl, rfl, ?_⟩
  intro q
  by_cases hq : q = p
  · subst hq
    simpa [State.setProc] using htick
  · simp [State.setProc, hq]

private theorem Roused.still (h : Roused s s') : Still s s' := by
  refine ⟨h.cpu, h.ticks, ?_⟩
  intro p
  obtain ⟨st, parent, hp, -⟩ := h.proc p
  rw [hp]

section Step

variable {b : Books}

private theorem BooksInv.still (h : BooksInv b) (hstill : Still b.state s') :
    BooksInv { b with state := s' } := by
  constructor
  · intro p
    have hcharge : s'.charge p = b.state.charge p := by
      simp only [State.charge, hstill.cpu, hstill.ticks]
    rw [hstill.tick, hcharge]
    exact h.each p
  · rw [hstill.ticks]
    exact h.sum

private theorem BooksInv.returned
    (h : BooksInv b) (hstill : Still b.state s) (hd : b.state.cpu c = some d)
    {v : Proc} (hv : v.tick = (s.proc d.slot).tick) :
    BooksInv { b with state := (s.setProc d.slot v).sched c d } := by
  obtain rfl : c = 0 := Subsingleton.elim c 0
  constructor
  · intro p
    have hbefore := h.each p
    rw [← hstill.tick] at hbefore
    have hnone : ((s.setProc d.slot v).sched 0 d).charge p = 0 := by
      simp [State.charge, State.sched]
    rw [hnone, Int32.toInt_zero, add_zero]
    by_cases hp : p = d.slot
    · subst hp
      have hcharge : b.state.charge d.slot = s.ticks.toInt32 - d.tick_start := by
        simp only [State.charge, hd, if_pos, hstill.ticks]
      have htick : (((s.setProc d.slot v).sched 0 d).proc d.slot).tick =
          (s.proc d.slot).tick + (s.ticks.toInt32 - d.tick_start) := by
        simp [State.sched, State.setProc, hv]
      rw [htick]
      rw [hcharge] at hbefore
      exact (toInt_add_modEq _ _).trans hbefore
    · have hcharge : b.state.charge p = 0 := by
        simp only [State.charge, hd, if_neg (Ne.symm hp)]
      have htick : (((s.setProc d.slot v).sched 0 d).proc p).tick = (s.proc p).tick := by
        simp [State.sched, State.setProc, hp]
      rw [htick]
      rwa [hcharge, Int32.toInt_zero, add_zero] at hbefore
  · have hsum := h.sum
    rw [← hstill.ticks] at hsum
    exact hsum

private theorem BooksInv.dispatch (h : BooksInv b) (hidle : b.state.cpu c = none) (p : Slot) :
    BooksInv { b with state := b.state.dispatch c p } := by
  obtain rfl : c = 0 := Subsingleton.elim c 0
  have hstill : Still b.state (b.state.setProc p { b.state.proc p with state := .RUNNING }) :=
    .setProc rfl
  constructor
  · intro q
    have hcharge : (b.state.dispatch 0 p).charge q = b.state.charge q := by
      simp only [State.charge, State.dispatch, update_self, hidle]
      split
      · exact Int32.sub_self _
      · rfl
    rw [hcharge]
    rw [show ((b.state.dispatch 0 p).proc q).tick = (b.state.proc q).tick from hstill.tick q]
    exact h.each q
  · exact h.sum

private theorem BooksInv.alloc (h : BooksInv b) (hcharge : b.state.charge q = 0)
    (hcpu : s'.cpu = b.state.cpu) (hticks : s'.ticks = b.state.ticks)
    (htick : ∀ p, (s'.proc p).tick = if p = q then 0 else (b.state.proc p).tick) :
    BooksInv { b with
      state := s'
      spent := update b.spent q 0
      gone := (b.state.proc q).tick :: b.gone } := by
  constructor
  · intro p
    have hsame : s'.charge p = b.state.charge p := by simp only [State.charge, hcpu, hticks]
    dsimp only
    rw [htick, hsame]
    by_cases hp : p = q
    · subst hp
      rw [if_pos rfl, update_self, hcharge]
      exact .rfl
    · rw [if_neg hp, update_of_ne hp]
      exact h.each p
  · have hq := h.each q
    have htally := tally_update (fun _ (n : Nat) => (n : Int)) b.spent q 0
    have hsum := h.sum
    unfold tally at htally
    rw [hcharge, Int32.toInt_zero, add_zero] at hq
    simp only [Nat.cast_zero, add_zero] at htally
    rw [← htally] at hsum
    dsimp only
    rw [hticks, List.map_cons, List.sum_cons]
    refine Int.ModEq.trans ?_ hsum
    rw [← add_assoc]
    exact ((hq.add_left _).add_right _).add_right _

theorem BooksInv.timer (h : BooksInv b) :
    BooksInv (b.enter { b.state with ticks := b.state.ticks + 1 } .timer) := by
  have hticks : ((b.state.ticks + 1).toNat : Int) ≡ b.state.ticks.toNat + 1 [ZMOD 2 ^ 32] := by
    rw [UInt32.toNat_add]
    push_cast
    exact Int.mod_modEq _ _
  cases hcpu : b.state.cpu 0 with
  | none =>
    simp only [Books.enter, hcpu]
    constructor
    · intro p
      have hcharge : b.state.charge p = 0 := by simp only [State.charge, hcpu]
      have hafter : State.charge { b.state with ticks := b.state.ticks + 1 } p = 0 := by
        simp only [State.charge, hcpu]
      have hp := h.each p
      rw [hcharge] at hp
      rw [hafter]
      exact hp
    · refine Int.ModEq.trans ?_ hticks.symm
      push_cast
      rw [← add_assoc]
      exact h.sum.add_right 1
  | some d =>
    simp only [Books.enter, hcpu]
    constructor
    · intro p
      have hp := h.each p
      by_cases hd : d.slot = p
      · subst hd
        have hbefore : b.state.charge d.slot = b.state.ticks.toInt32 - d.tick_start := by
          simp only [State.charge, hcpu, if_pos]
        have hafter : State.charge { b.state with ticks := b.state.ticks + 1 } d.slot =
            (b.state.ticks.toInt32 - d.tick_start) + 1 := by
          have hone : UInt32.toInt32 1 = 1 := rfl
          simp only [State.charge, hcpu, if_pos, UInt32.toInt32_add, hone, Int32.sub_eq_add_neg]
          rw [Int32.add_assoc, Int32.add_comm 1, ← Int32.add_assoc]
        rw [hbefore] at hp
        rw [hafter]
        dsimp only
        rw [update_self]
        push_cast
        refine Int.ModEq.trans ((toInt_add_modEq _ _).add_left _) ?_
        rw [← add_assoc]
        exact hp.add_right 1
      · have hbefore : b.state.charge p = 0 := by simp only [State.charge, hcpu, if_neg hd]
        have hafter : State.charge { b.state with ticks := b.state.ticks + 1 } p = 0 := by
          simp only [State.charge, hcpu, if_neg hd]
        rw [hbefore] at hp
        rw [hafter]
        dsimp only
        rw [update_of_ne (Ne.symm hd)]
        exact hp
    · have htally := tally_update (fun _ (n : Nat) => (n : Int)) b.spent d.slot (b.spent d.slot + 1)
      have hsum := h.sum
      unfold tally at htally
      push_cast at htally
      refine Int.ModEq.trans ?_ hticks.symm
      dsimp only
      have hone : ∑ p, (update b.spent d.slot (b.spent d.slot + 1) p : Int) =
          ∑ p, (b.spent p : Int) + 1 := by
        omega
      rw [hone, add_right_comm _ (1 : Int), add_right_comm _ (1 : Int)]
      exact hsum.add_right 1

theorem BooksInv.exit (h : BooksInv b) (hd : b.state.cpu c = some d)
    (hexit : b.state.exit c d = some s') : BooksInv { b with state := s' } := by
  unfold State.exit at hexit
  split at hexit
  · simp at hexit
  · obtain rfl := Option.some.inj hexit
    exact h.returned (roused_exit _ d.slot).still hd rfl

theorem BooksInv.wait (h : BooksInv b) (hd : b.state.cpu c = some d) :
    BooksInv { b with state := b.state.wait c d } := by
  unfold State.wait
  split
  · exact h.still (.setProc rfl)
  · split
    · exact h
    · exact h.returned (.refl _) hd rfl

private theorem still_kill (s : State 1) (pid : Int32) : Still s (s.kill pid) := by
  unfold State.kill
  split
  · exact .setProc rfl
  · exact .refl s

private theorem still_settickets (s : State 1) (p : Slot) (number : Int32) :
    Still s (s.settickets p number) := by
  unfold State.settickets
  split
  · exact .setProc rfl
  · exact .refl s

private theorem still_sys_settickets (s : State 1) (p : Slot) (arg : Option Int32) (leftover : Int32) :
    Still s (s.sys_settickets p arg leftover) := by
  simp only [State.sys_settickets]
  split
  · exact .refl s
  · split <;> exact still_settickets s p _

private theorem still_copy (s : State 1) (p np : Slot) (copies : Bool) :
    Still s (s.copy p np copies) := by
  unfold State.copy
  split <;> exact .setProc rfl

private theorem BooksInv.allocproc (h : BooksInv b) (hbase : ProcInv b.state) {kallocs : Bool}
    {np : Option Slot} {child : Slot → Option Slot}
    (halloc : b.state.allocproc kallocs = (np, s')) :
    BooksInv (b.enter { s' with child := child } (.call c (.allocproc kallocs))) := by
  unfold State.allocproc at halloc
  cases hfirst : Scan.first fun p => (b.state.proc p).state == .UNUSED with
  | none =>
    simp only [hfirst] at halloc
    obtain ⟨-, rfl⟩ := Prod.mk.inj halloc
    simp only [Books.enter, hfirst]
    exact h.still ⟨rfl, rfl, fun _ => rfl⟩
  | some q =>
    have hunused : (b.state.proc q).state = .UNUSED := by simpa using Scan.first_spec hfirst
    have hcharge : b.state.charge q = 0 := by
      unfold State.charge
      split
      · next d hd => exact if_neg (hbase.idle (by simp [hunused]) 0 d hd)
      · rfl
    have htick : ∀ v : Proc, v.tick = 0 → ∀ p, (update b.state.proc q v p).tick =
        if p = q then 0 else (b.state.proc p).tick := by
      intro v hv p
      by_cases hp : p = q
      · subst hp
        simpa using hv
      · simp [hp]
    simp only [hfirst] at halloc
    simp only [Books.enter, hfirst]
    split at halloc
    · obtain ⟨-, rfl⟩ := Prod.mk.inj halloc
      exact h.alloc hcharge rfl rfl (htick _ rfl)
    · obtain ⟨-, rfl⟩ := Prod.mk.inj halloc
      exact h.alloc hcharge rfl rfl (htick _ rfl)

private theorem BooksInv.call (h : BooksInv b) (hbase : ProcInv b.state) (hd : b.state.cpu c = some d)
    {call : Call} (hcall : b.state.call c d call = some s') :
    BooksInv (b.enter s' (.call c call)) := by
  unfold State.call at hcall
  split at hcall
  · obtain rfl := Option.some.inj hcall
    exact h.returned (.refl _) hd rfl
  · obtain rfl := Option.some.inj hcall
    exact h.returned (.refl _) hd rfl
  · obtain rfl := Option.some.inj hcall
    have hcopy := still_copy b.state d.slot
    exact h.still ⟨(hcopy _ _).cpu, (hcopy _ _).ticks, (hcopy _ _).tick⟩
  · obtain rfl := Option.some.inj hcall
    exact h.allocproc hbase rfl
  · exact h.exit hd hcall
  · obtain rfl := Option.some.inj hcall
    exact h.wait hd
  · obtain rfl := Option.some.inj hcall
    exact h.still (still_sys_settickets _ _ _ _)
  · obtain rfl := Option.some.inj hcall
    exact h.still (still_kill _ _)
  · simp at hcall

private theorem BooksInv.step {b' : Books} {a : Act 1} (h : BooksInv b) (hbase : ProcInv b.state)
    (hstep : Books.Step b a b') : BooksInv b' := by
  obtain ⟨hmoves, hbooks⟩ := hstep
  rw [hbooks]
  generalize b'.state = s' at hmoves
  cases a with
  | round c genrand =>
    simp only [Lottery.Step, act, State.round] at hmoves
    split at hmoves
    · next p hidle _ =>
      obtain rfl := Option.some.inj hmoves
      exact h.dispatch hidle p
    · obtain rfl := Option.some.inj hmoves
      exact h
    · simp at hmoves
  | call c call =>
    obtain ⟨d, hd, hcall⟩ := Option.bind_eq_some_iff.mp hmoves
    exact h.call hbase hd hcall
  | timer =>
    obtain rfl := Option.some.inj hmoves
    have hwoken := (roused_wakeup1 { b.state with ticks := b.state.ticks + 1 } .ticks).still
    have htimer := h.timer
    cases hcpu : b.state.cpu 0 with
    | none =>
      simp only [Books.enter, hcpu] at htimer ⊢
      exact htimer.still hwoken
    | some d =>
      simp only [Books.enter, hcpu] at htimer ⊢
      exact htimer.still hwoken
  | wakeup chan =>
    obtain rfl := Option.some.inj hmoves
    exact h.still (roused_wakeup1 _ _).still

end Step

/-- What holds at the end of a round. The counts in `tick` and `ticks` wrap at 32 bits. -/
structure TicksBalance (b : Books) : Prop where
  each : ∀ p, (b.state.proc p).tick.toInt ≡ b.spent p [ZMOD 2 ^ 32]
  exact : ∀ p, b.spent p < 2 ^ 31 → (b.state.proc p).tick.toInt = b.spent p
  sum : (∑ p, (b.state.proc p).tick.toInt) + (b.gone.map Int32.toInt).sum + b.idle ≡
    b.state.ticks.toNat [ZMOD 2 ^ 32]

/-- In every run on one CPU the books balance whenever no process is dispatched. -/
theorem ticks_balance_of_run {b : Books} {as : List (Act 1)} (hrun : Run Books.Step .boot as b)
    (hidle : b.state.cpu 0 = none) : TicksBalance b := by
  have h : ProcInv b.state ∧ BooksInv b := by
    apply hrun.keeps _ ⟨.boot, .boot⟩
    intro b a b' h hstep
    exact ⟨h.1.step hstep.1, h.2.step h.1 hstep⟩
  have heach : ∀ p, (b.state.proc p).tick.toInt ≡ b.spent p [ZMOD 2 ^ 32] := by
    intro p
    have hp := h.2.each p
    rwa [show b.state.charge p = 0 by simp only [State.charge, hidle], Int32.toInt_zero,
      add_zero] at hp
  refine ⟨heach, ?_, ?_⟩
  · intro p hlt
    have hp := heach p
    have hmin := Int32.le_toInt (b.state.proc p).tick
    have hmax := Int32.toInt_lt (b.state.proc p).tick
    unfold Int.ModEq at hp
    omega
  · have hcredited : ∑ p, (b.state.proc p).tick.toInt ≡ ∑ p, (b.spent p : Int) [ZMOD 2 ^ 32] := by
      rw [Int.modEq_iff_dvd, ← Finset.sum_sub_distrib]
      apply Finset.dvd_sum
      intro p _
      exact Int.modEq_iff_dvd.mp (heach p)
    exact ((hcredited.add_right _).add_right _).trans h.2.sum

/-- The books, computed. -/
def Books.next (b : Books) (a : Act 1) : Option Books :=
  (act b.state a).map fun s => b.enter s a

private theorem Books.enter_state (b : Books) (s : State 1) (a : Act 1) : (b.enter s a).state = s := by
  unfold Books.enter
  split
  · split <;> rfl
  · split <;> rfl
  · rfl

private theorem Books.step_of_next {b b' : Books} {a : Act 1} (h : b.next a = some b') :
    Books.Step b a b' := by
  obtain ⟨s, hs, rfl⟩ := Option.map_eq_some_iff.mp h
  constructor
  · rw [Books.enter_state]
    exact hs
  · rw [Books.enter_state]

/-- One tick with nobody dispatched; two while the first process runs and forks; one while its child
runs and exits; the child's slot is then given to another child. -/
def tickRun : List (Act 1) :=
  [.timer, .round 0 [0], .timer, .call 0 (.allocproc true), .call 0 (.copy true), .timer,
    .call 0 .wait, .round 0 [0], .timer, .call 0 .exit, .round 0 [0], .call 0 .wait,
    .call 0 (.allocproc true), .call 0 (.copy true), .call 0 .yield]

theorem ticks_balance_of_run_fork :
    ∃ b, Run Books.Step .boot tickRun b ∧ b.idle = 1 ∧ b.spent 0 = 2 ∧ b.gone = [1, 0] ∧
      TicksBalance b := by
  have hcheck : ((tickRun.foldlM Books.next .boot).map fun b => decide
      (b.idle = 1 ∧ b.spent 0 = 2 ∧ b.gone = [1, 0] ∧ (b.state.cpu 0).isNone)) = some true := by
    decide +kernel
  obtain ⟨b, hb, hfacts⟩ := Option.map_eq_some_iff.mp hcheck
  obtain ⟨hidle, hspent, hgone, hnone⟩ := of_decide_eq_true hfacts
  have hrun := (Run.of_foldlM hb).mono fun _ _ _ hnext => Books.step_of_next hnext
  exact ⟨b, hrun, hidle, hspent, hgone, ticks_balance_of_run hrun (Option.isNone_iff_eq_none.mp hnone)⟩

end OsSessional.Lottery
