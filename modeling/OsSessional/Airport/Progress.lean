import OsSessional.Airport.Kiosk
import OsSessional.Airport.Lane

/-!
# No deadlock

Every passenger that cannot move waits for another one. A full kiosk area or belt holds somebody who
is about to leave it; whoever waits at `VIP_lane_lock` waits for the walker who set it, and whoever
waits for `L_to_R` for a passenger on the way to the gate, who does not wait for the counter.
-/

namespace OsSessional.Airport

open Function (update update_self update_of_ne)

variable {n : Nat} {cfg : Config n} {s s' : State n} {i : Fin n}

/-- Passenger `i` is not held up: no other passenger is inside a region, and its next step is enabled
or the condition it waits for holds. -/
def CanStep (cfg : Config n) (s : State n) (i : Fin n) : Prop :=
  (∀ draw, Atomic s (.passenger i draw)) ∧
    ((∀ draw, (s.next cfg i draw).isSome = true) ∨ (s.pc i = .asleepBack ∧ s.L_to_R = 0) ∨
      ∃ again, s.pc i = .asleepLane again ∧ s.VIP_lane_lock = false)

/-- One for a passenger on belt `b`. -/
def onBelt (b : Nat) (_ : Fin n) : Pc → Int
  | .leaveBelt belt_id => if belt_id = b then 1 else 0
  | _ => 0

/-- The mutex a passenger holds. -/
def Pc.holds : Pc → Option Mutex
  | .count _ .enter => none
  | .count u _ => some u.mutex
  | _ => none

/-- Whoever holds a mutex is inside its region, alone; the lock is set while somebody walks back; a
semaphore counts the free places on its belt. -/
structure ProgressInv (cfg : Config n) (s : State n) : Prop where
  holder : ∀ m j, s.owner m = some j → (s.pc j).holds = some m
  alone : ∀ i j, (s.pc i).inside = true → (s.pc j).inside = true → i = j
  walker : s.VIP_lane_lock = true → ∃ j, s.pc j = .walkRL
  belt : ∀ b, s.belt_capacity_sem b + tally (onBelt b) s.pc = cfg.passengers_per_belt

private theorem ProgressInv.init : ProgressInv cfg cfg.init := by
  have hpc : ∀ i, cfg.init.pc i = .arrival := fun _ => rfl
  constructor
  · intro m j h
    simp [Config.init] at h
  · intro i j h
    simp [hpc, Pc.inside] at h
  · intro h
    simp [Config.init] at h
  · intro b
    have hzero : tally (onBelt b) cfg.init.pc = 0 := tally_eq_zero _ fun _ => rfl
    rw [hzero]
    exact add_zero _

private theorem ProgressInv.goto (h : ProgressInv cfg s) {s₁ : State n} {p : Pc} (hpc : s₁.pc = s.pc)
    (howner : ∀ m j, j ≠ i → s₁.owner m = some j → s.owner m = some j)
    (hholds : ∀ m, s₁.owner m = some i → p.holds = some m)
    (hatomic : ∀ j, (s.pc j).inside = true → j = i)
    (hlock : s₁.VIP_lane_lock = true → p = .walkRL ∨ s.VIP_lane_lock = true ∧ s.pc i ≠ .walkRL)
    (hbelt : ∀ b, (s₁.belt_capacity_sem b : Int) + onBelt b i p =
      s.belt_capacity_sem b + onBelt b i (s.pc i)) : ProgressInv cfg (s₁.goto i p) := by
  have hat : ∀ j, (s₁.goto i p).pc j = if j = i then p else s.pc j := by
    intro j
    by_cases hji : j = i
    · subst hji
      rw [goto_self, if_pos rfl]
    · rw [goto_of_ne s₁ hji, hpc, if_neg hji]
  constructor
  · intro m j hm
    rw [hat]
    split
    · next hji =>
      subst hji
      exact hholds m hm
    · next hji => exact h.holder m j (howner m j hji hm)
  · intro j j' hj hj'
    rw [hat] at hj hj'
    have hself : ∀ {j}, (if j = i then p else s.pc j).inside = true → j = i := by
      intro j hj
      split at hj
      · assumption
      · exact hatomic j hj
    rw [hself hj, hself hj']
  · intro hset
    rcases hlock hset with hp | ⟨hold, hne⟩
    · exact ⟨i, by rw [hat, if_pos rfl, hp]⟩
    · obtain ⟨j, hj⟩ := h.walker hold
      refine ⟨j, ?_⟩
      rw [hat, if_neg, hj]
      rintro rfl
      exact hne hj
  · intro b
    have htally := tally_update (onBelt b) s.pc i p
    have hinv := h.belt b
    have hstep := hbelt b
    simp only [State.goto, hpc]
    omega

theorem goto_belt (s : State n) (i : Fin n) (p : Pc) :
    (s.goto i p).belt_capacity_sem = s.belt_capacity_sem := rfl

private theorem next_belt {draw : Nat} (h : s.next cfg i draw = some s') (b : Nat) :
    (s'.belt_capacity_sem b : Int) + onBelt b i (s'.pc i) =
      s.belt_capacity_sem b + onBelt b i (s.pc i) := by
  cases State.next_cases h with
  | @waitBelt belt_id sem hpc =>
    simp only [State.next, hpc] at h
    split at h
    · next hsem =>
      have hsame := congrFun (congrArg State.belt_capacity_sem (Option.some.inj h)) b
      simp only [State.goto] at hsame
      rw [goto_self, hpc]
      simp only [State.goto, ← hsame, onBelt]
      by_cases hb : b = belt_id
      · subst hb
        simp
        omega
      · simp [hb, Ne.symm hb]
    · simp at h
  | @leaveBelt belt_id sem hpc =>
    simp only [State.next, hpc] at h
    have hsame := congrFun (congrArg State.belt_capacity_sem (Option.some.inj h)) b
    simp only [State.goto] at hsame
    rw [goto_self, hpc]
    simp only [State.goto, ← hsame, onBelt]
    by_cases hb : b = belt_id
    · subst hb
      simp
    · simp [hb, Ne.symm hb]
  | counts hpc hcounts =>
    cases hcounts with
    | unlock =>
      rename_i u
      rw [goto_self, hpc]
      cases u <;> rfl
    | lock _ | load _ | skip _ | store _ =>
      rw [goto_self, hpc]
      rfl
  | leaveKiosk hpc =>
    rw [goto_self, hpc]
    cases cfg.isVIP i <;> rfl
  | walkedLR hpc =>
    rw [goto_self, hpc]
    rfl
  | waitKiosk hpc _ | takeKiosk hpc _ | giveKiosk hpc | chooseBelt hpc | laneLocked hpc _
  | laneOpen hpc _ | lost hpc | kept hpc | goBack hpc | backBusy hpc _ | backClear hpc _ | hopOn hpc
  | walkedRL hpc | hopOff hpc | board hpc =>
    rw [goto_self, hpc]
    rfl

private theorem ProgressInv.counts (h : ProgressInv cfg s) {u : Update} {ph : Phase}
    (hpc : s.pc i = .count u ph) (hatomic : ∀ j, (s.pc j).inside = true → j = i)
    (hbelt : ∀ b, (s'.belt_capacity_sem b : Int) + onBelt b i (s'.pc i) =
      s.belt_capacity_sem b + onBelt b i (s.pc i))
    (hstep : State.Counts cfg s i u ph s') : ProgressInv cfg s' := by
  have hself : ∀ m, s.owner m = some i → ph ≠ .enter ∧ m = u.mutex := by
    intro m hm
    have hholds := h.holder m i hm
    rw [hpc] at hholds
    cases ph <;> simp_all [Pc.holds]
  have hlock : s.VIP_lane_lock = true → s.VIP_lane_lock = true ∧ s.pc i ≠ .walkRL := by
    intro hset
    exact ⟨hset, by simp [hpc]⟩
  cases hstep with
  | lock hfree =>
    refine h.goto rfl ?_ ?_ hatomic (fun hset => .inr (hlock hset)) (fun b => ?_)
    · intro m j hji hm
      by_cases hmu : m = u.mutex
      · subst hmu
        simp only [update_self] at hm
        exact absurd (Option.some.inj hm).symm hji
      · simpa only [update_of_ne hmu] using hm
    · intro m hm
      by_cases hmu : m = u.mutex
      · rw [hmu]
        rfl
      · simp only [update_of_ne hmu] at hm
        exact absurd (hself m hm).2 hmu
    · simpa only [goto_self, goto_belt] using hbelt b
  | load _ | skip _ | store _ =>
    refine h.goto rfl (fun _ _ _ hm => hm) ?_ hatomic (fun hset => .inr (hlock hset)) (fun b => ?_)
    · intro m hm
      rw [(hself m hm).2]
      rfl
    · simpa only [goto_self, goto_belt] using hbelt b
  | unlock =>
    refine h.goto rfl ?_ ?_ hatomic (fun hset => .inr (hlock hset)) (fun b => ?_)
    · intro m j _ hm
      by_cases hmu : m = u.mutex
      · subst hmu
        simp at hm
      · simpa only [update_of_ne hmu] using hm
    · intro m hm
      by_cases hmu : m = u.mutex
      · subst hmu
        simp at hm
      · simp only [update_of_ne hmu] at hm
        exact absurd (hself m hm).2 hmu
    · simpa only [goto_self, goto_belt] using hbelt b

private theorem ProgressInv.next (h : ProgressInv cfg s) {draw : Nat}
    (hatomic : ∀ j, (s.pc j).inside = true → j = i) (hnext : s.next cfg i draw = some s') :
    ProgressInv cfg s' := by
  have hbelt := next_belt hnext
  have hnone : (s.pc i).holds = none → ∀ m, s.owner m ≠ some i := by
    intro hout m hm
    rw [h.holder m i hm] at hout
    simp at hout
  cases State.next_cases hnext with
  | counts hpc hcounts => exact h.counts hpc hatomic hbelt hcounts
  | hopOn hpc =>
    refine h.goto rfl (fun _ _ _ hm => hm) ?_ hatomic (fun _ => .inl rfl) (fun b => ?_)
    · exact fun m hm => absurd hm (hnone (by rw [hpc]; rfl) m)
    · simpa only [goto_self, goto_belt] using hbelt b
  | walkedRL hpc =>
    refine h.goto rfl (fun _ _ _ hm => hm) ?_ hatomic (by simp) (fun b => ?_)
    · exact fun m hm => absurd hm (hnone (by rw [hpc]; rfl) m)
    · simpa only [goto_self, goto_belt] using hbelt b
  | waitKiosk hpc _ | takeKiosk hpc _ | giveKiosk hpc | leaveKiosk hpc | chooseBelt hpc | waitBelt hpc
  | leaveBelt hpc | laneLocked hpc _ | laneOpen hpc _ | walkedLR hpc | lost hpc | kept hpc | goBack hpc
  | backBusy hpc _ | backClear hpc _ | hopOff hpc | board hpc =>
    refine h.goto rfl (fun _ _ _ hm => hm) ?_ hatomic (fun hset => .inr ⟨hset, by simp [hpc]⟩)
      (fun b => ?_)
    · exact fun m hm => absurd hm (hnone (by rw [hpc]; rfl) m)
    · simpa only [goto_self, goto_belt] using hbelt b

private theorem wakes_places {p q : Pc} (h : s.Wakes p q) :
    q.holds = p.holds ∧ q.inside = p.inside ∧ (p = .walkRL → q = .walkRL) ∧
      ∀ b, onBelt b i q = onBelt b i p := by
  cases h with
  | same => exact ⟨rfl, rfl, id, fun _ => rfl⟩
  | back _ => exact ⟨rfl, rfl, by simp, fun _ => rfl⟩
  | lane _ _ => exact ⟨rfl, rfl, by simp, fun _ => rfl⟩

private theorem ProgressInv.broadcast (h : ProgressInv cfg s) :
    ProgressInv cfg s.broadcast_function := by
  obtain ⟨pc, atLane, heq, hwakes⟩ := s.broadcast_cases
  rw [heq]
  constructor
  · intro m j hm
    rw [show (pc j).holds = (s.pc j).holds from (wakes_places (i := j) (hwakes j)).1]
    exact h.holder m j hm
  · intro i j hi hj
    rw [(wakes_places (i := i) (hwakes i)).2.1] at hi
    rw [(wakes_places (i := j) (hwakes j)).2.1] at hj
    exact h.alone i j hi hj
  · intro hset
    obtain ⟨j, hj⟩ := h.walker hset
    exact ⟨j, (wakes_places (i := j) (hwakes j)).2.2.1 hj⟩
  · intro b
    have hsame : tally (onBelt b) pc = tally (onBelt b) s.pc := by
      apply tally_congr
      intro j
      exact (wakes_places (hwakes j)).2.2.2 b
    rw [hsame]
    exact h.belt b

private theorem ProgressInv.step {a : Act n} (h : ProgressInv cfg s) (hatomic : Atomic s a)
    (hstep : Step cfg s a s') : ProgressInv cfg s' := by
  cases a with
  | passenger i draw => exact h.next hatomic hstep
  | broadcast =>
    obtain rfl := Option.some.inj hstep
    exact h.broadcast

private theorem ProgressInv.canStep_inside (h : ProgressInv cfg s) (hinside : (s.pc i).inside = true) :
    CanStep cfg s i := by
  refine ⟨fun _ j hj => h.alone j i hj hinside, .inl fun draw => ?_⟩
  cases hpc : s.pc i with
  | count u ph =>
    cases ph with
    | enter => simp [hpc, Pc.inside] at hinside
    | locked =>
      simp only [State.next, hpc, State.count]
      split <;> rfl
    | loaded x => simp [State.next, hpc, State.count]
    | stored => simp [State.next, hpc, State.count]
  | _ => simp [hpc, Pc.inside] at hinside

section Outside

variable (hout : ∀ j, (s.pc j).inside = false)
include hout

private theorem canStep_of_some (h : ∀ draw, (s.next cfg i draw).isSome = true) : CanStep cfg s i := by
  refine ⟨?_, .inl h⟩
  intro _ j hj
  simp [hout j] at hj

private theorem ProgressInv.free (h : ProgressInv cfg s) (m : Mutex) : s.owner m = none := by
  cases howner : s.owner m with
  | none => rfl
  | some j =>
    have hholds := h.holder m j howner
    have hj := hout j
    cases hpc : s.pc j with
    | count u ph => cases ph <;> simp_all [Pc.holds, Pc.inside]
    | _ => simp [hpc, Pc.holds] at hholds

private theorem ProgressInv.canStep_kiosk (h : ProgressInv cfg s) (hkiosk : KioskInv cfg s)
    (hin : inKiosk i (s.pc i) ≠ 0) : CanStep cfg s i := by
  apply canStep_of_some hout
  intro draw
  cases hpc : s.pc i with
  | takeKiosk =>
    have hQ := hkiosk.queue_ne_nil hpc
    simp only [State.next, hpc]
    split
    · rfl
    · next hnil => exact absurd hnil hQ
  | count u ph =>
    cases ph with
    | enter => simp [State.next, hpc, State.count, h.free hout]
    | _ => simpa [hpc, Pc.inside] using hout i
  | giveKiosk kiosk_id => simp [State.next, hpc]
  | leaveKiosk => simp [State.next, hpc]
  | _ => simp [hpc, inKiosk] at hin

/-- A passenger waits for somebody in the kiosk area or on its belt, for the walker or for `L_to_R`,
or goes on. -/
theorem ProgressInv.progress_at (h : ProgressInv cfg s) (hkiosk : KioskInv cfg s)
    (hkiosks : 1 ≤ cfg.kiosks) (hbelt : 1 ≤ cfg.passengers_per_belt) (hleft : s.pc i ≠ .boarded)
    (hback : s.pc i = .asleepBack → s.L_to_R = 0) : ∃ j, s.pc j ≠ .boarded ∧ CanStep cfg s j := by
  cases hpc : s.pc i with
  | arrival =>
    by_cases hsem : 0 < s.kiosk_capacity_sem
    · exact ⟨i, hleft, canStep_of_some hout fun draw => by simp [State.next, hpc, hsem]⟩
    · have hfull : tally inKiosk s.pc ≠ 0 := by
        have hcapacity := hkiosk.capacity
        omega
      obtain ⟨j, hj⟩ := exists_of_tally_ne_zero inKiosk hfull
      refine ⟨j, ?_, h.canStep_kiosk hout hkiosk hj⟩
      intro hboarded
      simp [hboarded, inKiosk] at hj
  | takeKiosk => exact ⟨i, hleft, h.canStep_kiosk hout hkiosk (by simp [hpc, inKiosk])⟩
  | waitBelt belt_id =>
    by_cases hsem : 0 < s.belt_capacity_sem belt_id
    · exact ⟨i, hleft, canStep_of_some hout fun draw => by simp [State.next, hpc, hsem]⟩
    · have hfull : tally (onBelt belt_id) s.pc ≠ 0 := by
        have hcapacity := h.belt belt_id
        omega
      obtain ⟨j, hj⟩ := exists_of_tally_ne_zero (onBelt belt_id) hfull
      cases hpcj : s.pc j with
      | leaveBelt belt_id =>
        exact ⟨j, by simp [hpcj], canStep_of_some hout fun draw => by simp [State.next, hpcj]⟩
      | _ => simp [hpcj, onBelt] at hj
  | asleepLane again =>
    cases hlock : s.VIP_lane_lock with
    | false =>
      refine ⟨i, hleft, ?_, .inr (.inr ⟨again, hpc, hlock⟩)⟩
      intro _ j hj
      simp [hout j] at hj
    | true =>
      obtain ⟨j, hj⟩ := h.walker hlock
      exact ⟨j, by simp [hj], canStep_of_some hout fun draw => by simp [State.next, hj]⟩
  | asleepBack =>
    refine ⟨i, hleft, ?_, .inr (.inl ⟨hpc, hback hpc⟩)⟩
    intro _ j hj
    simp [hout j] at hj
  | count u ph =>
    cases ph with
    | enter =>
      refine ⟨i, hleft, canStep_of_some hout fun draw => ?_⟩
      simp [State.next, hpc, State.count, h.free hout]
    | _ => simpa [hpc, Pc.inside] using hout i
  | boarded => exact absurd hpc hleft
  | _ => exact ⟨i, hleft, canStep_of_some hout fun draw => by simp [State.next, hpc]⟩

end Outside

private theorem broadcast_inside (s : State n) (j : Fin n) :
    (s.broadcast_function.pc j).inside = (s.pc j).inside := by
  obtain ⟨pc, atLane, heq, hwakes⟩ := s.broadcast_cases
  rw [heq]
  exact (wakes_places (i := j) (hwakes j)).2.1

private theorem broadcast_twice (s : State n) (j : Fin n) :
    ((s.pc j = .asleepBack ∧ s.L_to_R = 0) →
      s.broadcast_function.broadcast_function.pc j = .testBack) ∧
    ∀ again, (s.pc j = .asleepLane again ∧ s.VIP_lane_lock = false) →
      s.broadcast_function.broadcast_function.pc j = .testLane again := by
  constructor
  · intro h
    cases hlane : s.atLane <;> cases hlock : s.VIP_lane_lock <;>
      simp [State.broadcast_function, State.wakeBack, State.wakeLane, hlane, hlock, h.1, h.2]
  · intro again h
    cases hlane : s.atLane <;> by_cases hcount : s.L_to_R = 0 <;>
      simp [State.broadcast_function, State.wakeBack, State.wakeLane, hlane, hcount, h.1, h.2]

/-- Whoever can step does so at once or after `broadcast_function` has woken it. -/
theorem CanStep.woken (h : CanStep cfg s i) : ∃ as s', (∀ a ∈ as, a = .broadcast) ∧
    Run (fun s a s' => Atomic s a ∧ Step cfg s a s') s as s' ∧
    ∀ draw, (s'.next cfg i draw).isSome = true := by
  have hrounds (hasleep : (s.pc i).inside = false) :
      Run (fun s a s' => Atomic s a ∧ Step cfg s a s') s [.broadcast, .broadcast]
        s.broadcast_function.broadcast_function := by
    have hout : ∀ j, (s.pc j).inside = false := by
      intro j
      by_contra hj
      have hin : (s.pc j).inside = true := by simpa using hj
      rw [h.1 0 j hin, hasleep] at hin
      contradiction
    refine .cons ⟨hout, rfl⟩ (.cons ⟨?_, rfl⟩ (.nil _))
    intro j
    rw [broadcast_inside]
    exact hout j
  rcases h.2 with hnext | hback | hlane
  · exact ⟨[], s, by simp, .nil _, hnext⟩
  · have hpc := (broadcast_twice s i).1 hback
    refine ⟨_, _, by simp, hrounds (by rw [hback.1]; rfl), fun draw => ?_⟩
    simp [State.next, hpc]
  · rcases hlane with ⟨again, hlane⟩
    have hpc := (broadcast_twice s i).2 again hlane
    refine ⟨_, _, by simp, hrounds (by rw [hlane.1]; rfl), fun draw => ?_⟩
    simp [State.next, hpc]

/-- In every reachable state with a passenger left, some passenger left can take its next step. -/
theorem progress_of_run (hkiosks : 1 ≤ cfg.kiosks) (hbelt : 1 ≤ cfg.passengers_per_belt)
    {as : List (Act n)} (hrun : Run (fun s a s' => Atomic s a ∧ Step cfg s a s') cfg.init as s)
    (hleft : ∃ i, s.pc i ≠ .boarded) : ∃ i, s.pc i ≠ .boarded ∧ CanStep cfg s i := by
  have h : ProgressInv cfg s := hrun.keeps (fun _ _ _ h hstep => h.step hstep.1 hstep.2) .init
  have hkiosk : KioskInv cfg s := .reached (hrun.mono fun _ _ _ hstep => hstep.2)
  have hcounter : CounterInv cfg s :=
    hrun.keeps (fun _ _ _ h hstep => h.step hstep.1.apart hstep.2) .init
  by_cases hin : ∃ j, (s.pc j).inside = true
  · obtain ⟨j, hj⟩ := hin
    refine ⟨j, ?_, h.canStep_inside hj⟩
    intro hboarded
    simp [hboarded, Pc.inside] at hj
  · have hout : ∀ j, (s.pc j).inside = false := by simpa using hin
    obtain ⟨i, hi⟩ := hleft
    by_cases hwaits : s.pc i = .asleepBack ∧ s.L_to_R ≠ 0
    · -- whoever is counted in `L_to_R` is not asleep in front of it
      have hsome : tally (counts cfg) s.pc ≠ 0 := by
        rw [← hcounter.value]
        exact hwaits.2
      obtain ⟨j, hj⟩ := exists_of_tally_ne_zero (counts cfg) hsome
      apply h.progress_at hout hkiosk hkiosks hbelt (i := j)
      · intro hboarded
        simp [hboarded, counts, counted] at hj
      · intro hasleep
        simp [hasleep, counts, counted] at hj
    · apply h.progress_at hout hkiosk hkiosks hbelt hi
      intro hasleep
      by_contra hne
      exact hwaits ⟨hasleep, hne⟩

/-- The VIP sleeps at the lock while the passenger walks back. -/
theorem progress_of_run_two :
    ∃ s, Run (fun s a s' => Atomic s a ∧ Step twoPassengers s a s') twoPassengers.init
        (steps 0 17 ++ steps 1 9) s ∧
      s.pc 1 = .asleepLane false ∧ ∃ i, s.pc i ≠ .boarded ∧ CanStep twoPassengers s i := by
  have hcheck : (((steps 0 17 ++ steps 1 9).foldlM
      (fun s a => if Atomic s a then act twoPassengers s a else none) twoPassengers.init).map
        fun s => decide (s.pc 1 = .asleepLane false)) = some true := by
    decide +kernel
  obtain ⟨s, hs, hpc⟩ := Option.map_eq_some_iff.mp hcheck
  have hasleep := of_decide_eq_true hpc
  have hrun := (Run.of_foldlM hs).mono fun s a s' hstep => by
    split at hstep
    · next hatomic => exact And.intro hatomic hstep
    · simp at hstep
  exact ⟨s, hrun, hasleep, progress_of_run (by decide) (by decide) hrun ⟨1, by simp [hasleep]⟩⟩

end OsSessional.Airport
