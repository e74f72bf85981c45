import OsSessional.Airport.Counter

/-!
# The VIP channel

A passenger who goes back waits for `L_to_R == 0` in one region and sets `VIP_lane_lock` in the next;
a passenger who comes back clears it whoever else is still walking. The channel is one way as long as
the test still holds when the lock is set and the last walker is the one who clears it.
-/

namespace OsSessional.Airport

open Function (update update_self update_of_ne)

variable {n : Nat} {cfg : Config n} {s s' : State n} {i : Fin n}

/-- Between the lock and the unlock of a region. -/
def Pc.inside : Pc → Bool
  | .count _ .enter => false
  | .count _ _ => true
  | _ => false

/-- A region is one step: no other thread moves while a passenger is inside one. -/
def Atomic (s : State n) : Act n → Prop
  | .passenger i _ => ∀ j, (s.pc j).inside = true → j = i
  | .broadcast => ∀ j, (s.pc j).inside = false

instance (s : State n) : DecidablePred (Atomic s)
  | .passenger i _ => inferInstanceAs (Decidable (∀ j, (s.pc j).inside = true → j = i))
  | .broadcast => inferInstanceAs (Decidable (∀ j, (s.pc j).inside = false))

/-- The lock is set while `L_to_R > 0` is false, and cleared by the last walker. -/
def LaneKept (s : State n) : Act n → Prop
  | .passenger i _ =>
    (s.pc i = .hopOn → ¬ s.L_to_R > 0) ∧ (s.pc i = .walkRL → ∀ j, s.pc j = .walkRL → j = i)
  | .broadcast => True

instance (s : State n) : DecidablePred (LaneKept s)
  | .passenger i _ => inferInstanceAs (Decidable ((s.pc i = .hopOn → ¬ s.L_to_R > 0) ∧
      (s.pc i = .walkRL → ∀ j, s.pc j = .walkRL → j = i)))
  | .broadcast => isTrue trivial

/-- Nobody walks left to right while somebody walks right to left. -/
def OneWay (s : State n) : Prop := ∀ i j again, s.pc i = .walkLR again → s.pc j ≠ .walkRL

theorem Atomic.apart {a : Act n} (h : Atomic s a) : Apart cfg s a := by
  cases a with
  | broadcast => trivial
  | passenger i draw =>
    simp only [Apart]
    intro m hm j m' hm'
    have hji : j = i := by
      apply h j
      cases hj : s.pc j with
      | count u ph => cases ph <;> simp_all [Pc.updating, Pc.inside]
      | _ => simp [hj, Pc.updating] at hm'
    subst hji
    cases hj : s.pc j with
    | count u ph => cases ph <;> simp [hj, Pc.updating, Pc.loading] at hm hm'
    | _ => simp [hj, Pc.updating] at hm'

/-- In the VIP channel or about to enter it from the left. -/
def onLane : Pc → Bool
  | .testLane _ | .asleepLane _ | .walkLR _ => true
  | _ => false

structure LaneInv (cfg : Config n) (s : State n) : Prop where
  counter : CounterInv cfg s
  counted : ∀ i, onLane (s.pc i) = true → counted (cfg.isVIP i) (s.pc i) = true
  locked : ∀ i, s.pc i = .walkRL → s.VIP_lane_lock = true
  oneWay : OneWay s

private theorem LaneInv.init : LaneInv cfg cfg.init := by
  have hpc : ∀ i, cfg.init.pc i = .arrival := fun _ => rfl
  constructor
  · exact .init
  · intro i h
    simp [hpc, onLane] at h
  · intro i h
    simp [hpc] at h
  · intro i j again h
    simp [hpc] at h

private theorem LaneInv.lane_empty (h : LaneInv cfg s) (hzero : ¬ s.L_to_R > 0) :
    onLane (s.pc i) = false := by
  by_contra hlane
  have hcounted := h.counted i (by simpa using hlane)
  have hshare : counts cfg i (s.pc i) ≤ tally (counts cfg) s.pc := by
    apply le_tally
    intro j p
    unfold counts
    split <;> decide
  rw [← h.counter.value, counts, if_pos hcounted] at hshare
  omega

private theorem LaneInv.goto (h : LaneInv cfg s) {s₁ : State n} {p : Pc}
    (hcounter : CounterInv cfg (s₁.goto i p)) (hpc : s₁.pc = s.pc)
    (hcounted : onLane p = true → Airport.counted (cfg.isVIP i) p = true)
    (hlock : ∀ j, j ≠ i → s.pc j = .walkRL → s₁.VIP_lane_lock = true)
    (hLR : ∀ again, p = .walkLR again → s.VIP_lane_lock = false)
    (hRL : p = .walkRL → s₁.VIP_lane_lock = true ∧ ¬ s.L_to_R > 0) : LaneInv cfg (s₁.goto i p) := by
  have hat : ∀ {j q}, (s₁.goto i p).pc j = q → j = i ∧ p = q ∨ j ≠ i ∧ s.pc j = q := by
    intro j q hj
    by_cases hji : j = i
    · subst hji
      rw [goto_self] at hj
      exact .inl ⟨rfl, hj⟩
    · rw [goto_of_ne s₁ hji, hpc] at hj
      exact .inr ⟨hji, hj⟩
  constructor
  · exact hcounter
  · intro j hj
    rcases hat (q := (s₁.goto i p).pc j) rfl with ⟨rfl, hp⟩ | ⟨hji, hp⟩
    · rw [← hp] at hj ⊢
      exact hcounted hj
    · rw [← hp] at hj ⊢
      exact h.counted j hj
  · intro j hj
    rcases hat hj with ⟨-, hp⟩ | ⟨hji, hp⟩
    · exact (hRL hp).1
    · exact hlock j hji hp
  · intro j j' again hj hj'
    rcases hat hj with ⟨-, hp⟩ | ⟨hji, hp⟩ <;> rcases hat hj' with ⟨-, hp'⟩ | ⟨hji', hp'⟩
    · simp [hp] at hp'
    · have hopen := hLR again hp
      rw [h.locked j' hp'] at hopen
      simp at hopen
    · have hempty := h.lane_empty (i := j) (hRL hp').2
      simp [hp, onLane] at hempty
    · exact h.oneWay j j' again hp hp'

private theorem LaneInv.counts {u : Update} {ph : Phase} (h : LaneInv cfg s) (hpc : s.pc i = .count u ph)
    (hcounter : CounterInv cfg s') (hstep : State.Counts cfg s i u ph s') : LaneInv cfg s' := by
  cases hstep with
  | lock _ | load _ | skip _ | store _ =>
    refine h.goto hcounter rfl ?_ ?_ ?_ ?_
    · simp [onLane]
    · exact fun j _ hj => h.locked j hj
    · simp
    · simp
  | unlock =>
    refine h.goto hcounter rfl ?_ ?_ ?_ ?_
    · cases u <;> simp [onLane, State.afterUpdate, Airport.counted]
    · exact fun j _ hj => h.locked j hj
    · cases u <;> simp [State.afterUpdate]
    · cases u <;> simp [State.afterUpdate]

private theorem LaneInv.next (h : LaneInv cfg s) {draw : Nat} (hcounter : CounterInv cfg s')
    (hkept : LaneKept s (.passenger i draw)) (hnext : State.Next cfg s i s') : LaneInv cfg s' := by
  cases hnext with
  | counts hpc hcounts => exact h.counts hpc hcounter hcounts
  | leaveKiosk hpc =>
    refine h.goto hcounter rfl ?_ ?_ ?_ ?_
    · cases hVIP : cfg.isVIP i <;> simp [onLane, Airport.counted]
    · exact fun j _ hj => h.locked j hj
    · split <;> simp
    · split <;> simp
  | laneLocked hpc _ =>
    refine h.goto hcounter rfl ?_ ?_ ?_ ?_
    · intro _
      simpa [hpc, onLane, Airport.counted] using h.counted i
    · exact fun j _ hj => h.locked j hj
    · simp
    · simp
  | laneOpen hpc hlock =>
    refine h.goto hcounter rfl ?_ ?_ ?_ ?_
    · intro _
      simpa [hpc, onLane, Airport.counted] using h.counted i
    · exact fun j _ hj => h.locked j hj
    · exact fun _ _ => hlock
    · simp
  | hopOn hpc =>
    refine h.goto hcounter rfl ?_ ?_ ?_ ?_
    · simp [onLane]
    · exact fun _ _ _ => rfl
    · simp
    · exact fun _ => ⟨rfl, hkept.1 hpc⟩
  | walkedRL hpc =>
    refine h.goto hcounter rfl ?_ ?_ ?_ ?_
    · simp [onLane]
    · exact fun j hji hj => absurd (hkept.2 hpc j hj) hji
    · simp
    · simp
  | waitKiosk _ _ | takeKiosk _ _ | giveKiosk _ | chooseBelt _ | waitBelt _ | leaveBelt _ | walkedLR _
  | lost _ | kept _ | goBack _ | backBusy _ _ | backClear _ _ | hopOff _ | board _ =>
    refine h.goto hcounter rfl ?_ ?_ ?_ ?_
    · simp [onLane]
    · exact fun j _ hj => h.locked j hj
    · simp
    · simp

private theorem wakes_walking {p q : Pc} (h : s.Wakes p q) :
    onLane q = onLane p ∧ (∀ again, q = .walkLR again → p = .walkLR again) ∧
      (q = .walkRL → p = .walkRL) := by
  cases h with
  | same => exact ⟨rfl, fun _ hq => hq, fun hq => hq⟩
  | back _ => simp [onLane]
  | lane _ _ => simp [onLane]

private theorem LaneInv.broadcast (h : LaneInv cfg s) : LaneInv cfg s.broadcast_function := by
  have hcounter := h.counter.broadcast
  obtain ⟨pc, atLane, heq, hwakes⟩ := s.broadcast_cases
  rw [heq] at hcounter ⊢
  constructor
  · exact hcounter
  · intro j hj
    have hlane := (wakes_walking (hwakes j)).1
    rw [(wakes_counted (hwakes j) (cfg.isVIP j)).1]
    exact h.counted j (hlane ▸ hj)
  · exact fun j hj => h.locked j ((wakes_walking (hwakes j)).2.2 hj)
  · intro j j' again hj hj'
    exact h.oneWay j j' again ((wakes_walking (hwakes j)).2.1 again hj)
      ((wakes_walking (hwakes j')).2.2 hj')

private theorem LaneInv.step {a : Act n} (h : LaneInv cfg s) (hatomic : Atomic s a) (hkept : LaneKept s a)
    (hstep : Step cfg s a s') : LaneInv cfg s' := by
  have hcounter := h.counter.step hatomic.apart hstep
  cases a with
  | passenger i draw => exact h.next hcounter hkept (State.next_cases hstep)
  | broadcast =>
    obtain rfl := Option.some.inj hstep
    exact h.broadcast

/-- The channel is one way in every run that keeps it. -/
theorem lane_of_run {as : List (Act n)}
    (hrun : Run (fun s a s' => Atomic s a ∧ LaneKept s a ∧ Step cfg s a s') cfg.init as s) :
    OneWay s := by
  have hinv : LaneInv cfg s := by
    apply hrun.keeps _ .init
    intro s a s' h hstep
    exact h.step hstep.1 hstep.2.1 hstep.2.2
  exact hinv.oneWay

/-- The steps of a run that keeps the channel. -/
def keptStep (cfg : Config n) (s : State n) (a : Act n) : Option (State n) :=
  if Atomic s a ∧ LaneKept s a then act cfg s a else none

/-- The passenger walks back, and the VIP stops at the lock. -/
theorem lane_of_run_two :
    ∃ s, (steps 0 17 ++ steps 1 9).foldlM (keptStep twoPassengers) twoPassengers.init = some s ∧
      s.pc 0 = .walkRL ∧ s.pc 1 = .asleepLane false ∧ OneWay s := by
  have hcheck : (((steps 0 17 ++ steps 1 9).foldlM (keptStep twoPassengers)
      twoPassengers.init).map fun s => decide (s.pc 0 = .walkRL ∧ s.pc 1 = .asleepLane false)) =
        some true := by decide +kernel
  obtain ⟨s, hs, hpcs⟩ := Option.map_eq_some_iff.mp hcheck
  obtain ⟨h0, h1⟩ := of_decide_eq_true hpcs
  have hrun := (Run.of_foldlM hs).mono fun s a s' hstep => by
    simp only [keptStep] at hstep
    split at hstep
    · next hboth => exact And.intro hboth.1 (And.intro hboth.2 hstep)
    · simp at hstep
  exact ⟨s, hs, h0, h1, lane_of_run hrun⟩

/-- The passenger has found `L_to_R` at zero when the VIP checks in and enters the channel; then the
passenger sets the lock and walks against the VIP. -/
theorem lane_shared :
    ∃ s, Run (fun s a s' => Atomic s a ∧ Step twoPassengers s a s') twoPassengers.init
        (steps 0 16 ++ steps 1 9 ++ steps 0 1) s ∧
      s.pc 1 = .walkLR false ∧ s.pc 0 = .walkRL ∧ ¬ OneWay s := by
  have hcheck : (((steps 0 16 ++ steps 1 9 ++ steps 0 1).foldlM
      (fun s a => if Atomic s a then act twoPassengers s a else none) twoPassengers.init).map
        fun s => decide (s.pc 1 = .walkLR false ∧ s.pc 0 = .walkRL)) = some true := by
    decide +kernel
  obtain ⟨s, hs, hpcs⟩ := Option.map_eq_some_iff.mp hcheck
  obtain ⟨h1, h0⟩ := of_decide_eq_true hpcs
  have hrun := (Run.of_foldlM hs).mono fun s a s' hstep => by
    split at hstep
    · next hatomic => exact And.intro hatomic hstep
    · simp at hstep
  exact ⟨s, hrun, h1, h0, fun hone => hone 1 0 false h1 h0⟩

end OsSessional.Airport
