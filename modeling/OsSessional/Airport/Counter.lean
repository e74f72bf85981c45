import OsSessional.Airport.Passenger

/-!
# The lane counter

`L_to_R` counts the passengers on their way through the VIP channel to the gate. Three of its
updates are made under `L_to_R_mutex` and one under `special_kiosk_mutex`, so a load under one can
fall between load and store under the other. Where none does, the counter is exact.
-/

namespace OsSessional.Airport

open Function (update update_self update_of_ne)

variable {n : Nat} {cfg : Config n} {s s' : State n} {i : Fin n}

/-- The passenger has executed one more increment than decrements. -/
def counted (isVIP : Bool) : Pc → Bool
  | .arrival | .takeKiosk | .giveKiosk _ => false
  | .count .kiosk .stored => isVIP
  | .count .kiosk _ => false
  | .leaveKiosk | .chooseBelt | .waitBelt _ | .leaveBelt _ => isVIP
  | .testLane again | .asleepLane again | .walkLR again => again || isVIP
  | .count .boarding .stored => false
  | .count .boarding _ => isVIP
  | .toss | .goBack | .testBack | .asleepBack | .hopOn | .walkRL | .hopOff => false
  | .count .special .stored => true
  | .count .special _ => false
  | .count .again .stored => false
  | .count .again _ => true
  | .board | .boarded => false

/-- The passengers on their way: incremented, and not yet decremented. -/
def State.onTheWay (cfg : Config n) (s : State n) : Finset (Fin n) :=
  Finset.univ.filter fun i => counted (cfg.isVIP i) (s.pc i) = true

/-- Some passenger is between the load and the store of an update. -/
def State.Updating (s : State n) : Prop := ∃ i u x, s.pc i = .count u (.loaded x)

/-- With no update in progress the counter tells how many passengers are on their way. -/
def CountExact (cfg : Config n) (s : State n) : Prop :=
  ¬ s.Updating → s.L_to_R = (s.onTheWay cfg).card

/-- The mutex of an update between its load and its store. -/
def Pc.updating : Pc → Option Mutex
  | .count u (.loaded _) => some u.mutex
  | _ => none

/-- The mutex under which the passenger loads the counter next, if it does. -/
def Pc.loading (isVIP : Bool) : Pc → Option Mutex
  | .count u .locked => if u.applies isVIP then some u.mutex else none
  | _ => none

/-- Nobody loads the counter while a passenger is between load and store under the other mutex. -/
def Apart (cfg : Config n) (s : State n) : Act n → Prop
  | .passenger i _ =>
    ∀ m ∈ (s.pc i).loading (cfg.isVIP i), ∀ j, ∀ m' ∈ (s.pc j).updating, m' = m
  | .broadcast => True

instance (cfg : Config n) (s : State n) : DecidablePred (Apart cfg s)
  | .passenger i _ => inferInstanceAs (Decidable (∀ m ∈ (s.pc i).loading (cfg.isVIP i),
      ∀ j, ∀ m' ∈ (s.pc j).updating, m' = m))
  | .broadcast => isTrue trivial

def counts (cfg : Config n) (i : Fin n) (p : Pc) : Int := if counted (cfg.isVIP i) p then 1 else 0

private theorem tally_counts (cfg : Config n) (s : State n) :
    tally (counts cfg) s.pc = (s.onTheWay cfg).card := by
  unfold tally counts State.onTheWay
  rw [Finset.card_filter]
  push_cast
  rfl

structure CounterInv (cfg : Config n) (s : State n) : Prop where
  value : s.L_to_R = tally (counts cfg) s.pc
  owner : ∀ i u ph, s.pc i = .count u ph → ph ≠ .enter → s.owner u.mutex = some i
  applies : ∀ i u x, s.pc i = .count u (.loaded x) → u.applies (cfg.isVIP i) = true
  fresh : ∀ i u x, s.pc i = .count u (.loaded x) → x = s.L_to_R
  single : ∀ i j u u' x y, s.pc i = .count u (.loaded x) → s.pc j = .count u' (.loaded y) → i = j

theorem CounterInv.init : CounterInv cfg cfg.init := by
  have hpc : ∀ i, cfg.init.pc i = .arrival := fun _ => rfl
  constructor
  · have hzero : tally (counts cfg) cfg.init.pc = 0 := tally_eq_zero _ fun _ => rfl
    rw [hzero]
    rfl
  · intro i u ph h
    simp [hpc] at h
  · intro i u x h
    simp [hpc] at h
  · intro i u x h
    simp [hpc] at h
  · intro i j u u' x y h
    simp [hpc] at h

theorem goto_self (s : State n) (i : Fin n) (p : Pc) : (s.goto i p).pc i = p := update_self ..

theorem goto_of_ne (s : State n) {i j : Fin n} (hne : j ≠ i) (p : Pc) :
    (s.goto i p).pc j = s.pc j := update_of_ne hne ..

private theorem CounterInv.goto (h : CounterInv cfg s) {s₁ : State n} {p : Pc} (hpc : s₁.pc = s.pc)
    (hL : s₁.L_to_R = s.L_to_R) (howner : s₁.owner = s.owner)
    (hcounted : counted (cfg.isVIP i) p = counted (cfg.isVIP i) (s.pc i))
    (hp : ∀ u ph, p = .count u ph → ph = .enter) : CounterInv cfg (s₁.goto i p) := by
  have hother : ∀ j u ph, (s₁.goto i p).pc j = .count u ph → ph ≠ .enter → s.pc j = .count u ph := by
    intro j u ph hj hph
    by_cases hji : j = i
    · subst hji
      rw [goto_self] at hj
      exact absurd (hp u ph hj) hph
    · rwa [goto_of_ne s₁ hji, hpc] at hj
  constructor
  · have htally := tally_update (counts cfg) s.pc i p
    have hsame : counts cfg i p = counts cfg i (s.pc i) := by simp only [counts, hcounted]
    have hvalue := h.value
    simp only [State.goto, hpc, hL]
    omega
  · intro j u ph hj hph
    rw [show (s₁.goto i p).owner = s.owner from howner]
    exact h.owner j u ph (hother j u ph hj hph) hph
  · intro j u x hj
    exact h.applies j u x (hother j u _ hj (by simp))
  · intro j u x hj
    rw [show (s₁.goto i p).L_to_R = s.L_to_R from hL]
    exact h.fresh j u x (hother j u _ hj (by simp))
  · intro j j' u u' x y hj hj'
    exact h.single j j' u u' x y (hother j u _ hj (by simp)) (hother j' u' _ hj' (by simp))

theorem wakes_counted {p q : Pc} (h : s.Wakes p q) (isVIP : Bool) :
    counted isVIP q = counted isVIP p ∧ ∀ u ph, q = .count u ph → p = .count u ph := by
  cases h with
  | same => exact ⟨rfl, fun _ _ hq => hq⟩
  | back _ => exact ⟨rfl, fun _ _ hq => by simp at hq⟩
  | lane _ _ => exact ⟨rfl, fun _ _ hq => by simp at hq⟩

theorem CounterInv.broadcast (h : CounterInv cfg s) : CounterInv cfg s.broadcast_function := by
  obtain ⟨pc, atLane, heq, hwakes⟩ := s.broadcast_cases
  have hpc : ∀ j u ph, pc j = .count u ph → s.pc j = .count u ph :=
    fun j => (wakes_counted (hwakes j) true).2
  rw [heq]
  constructor
  · have hsame : tally (counts cfg) pc = tally (counts cfg) s.pc := by
      apply tally_congr
      intro j
      simp only [counts, (wakes_counted (hwakes j) (cfg.isVIP j)).1]
    rw [hsame]
    exact h.value
  · exact fun j u ph hj hph => h.owner j u ph (hpc j u ph hj) hph
  · exact fun j u x hj => h.applies j u x (hpc j u _ hj)
  · exact fun j u x hj => h.fresh j u x (hpc j u _ hj)
  · exact fun j j' u u' x y hj hj' => h.single j j' u u' x y (hpc j u _ hj) (hpc j' u' _ hj')

section Region

variable {u : Update} {ph : Phase}

private theorem counted_outside (isVIP : Bool) (u : Update) :
    counted isVIP (.count u .locked) = counted isVIP (.count u .enter) ∧
      counted isVIP (State.afterUpdate u) = counted isVIP (.count u .stored) ∧
      ∀ x, counted isVIP (.count u (.loaded x)) = counted isVIP (.count u .locked) := by
  cases u <;> exact ⟨rfl, by simp [counted, State.afterUpdate], fun _ => rfl⟩

private theorem counts_stored (cfg : Config n) (x : Int) :
    counts cfg i (.count u .stored) = counts cfg i (.count u (.loaded x)) +
      if u.applies (cfg.isVIP i) then u.delta else 0 := by
  cases u <;> cases hVIP : cfg.isVIP i <;>
    simp [counts, counted, Update.applies, Update.delta, hVIP]

private theorem CounterInv.lock (h : CounterInv cfg s) (hpc : s.pc i = .count u .enter)
    (hfree : s.owner u.mutex = none) :
    CounterInv cfg ({ s with owner := update s.owner u.mutex (some i) }.goto i (.count u .locked)) := by
  have hother : ∀ j u' ph, (update s.pc i (.count u .locked)) j = .count u' ph → ph ≠ .locked →
      s.pc j = .count u' ph := by
    intro j u' ph hj hph
    by_cases hji : j = i
    · subst hji
      rw [update_self] at hj
      simp_all
    · rwa [update_of_ne hji] at hj
  constructor
  · have htally := tally_update (counts cfg) s.pc i (.count u .locked)
    have hsame : counts cfg i (.count u .locked) = counts cfg i (s.pc i) := by
      simp only [counts, hpc, (counted_outside _ u).1]
    have hvalue := h.value
    simp only [State.goto]
    omega
  · intro j u' ph hj hph
    simp only [State.goto] at hj ⊢
    by_cases hji : j = i
    · subst hji
      rw [update_self] at hj
      obtain ⟨rfl, -⟩ : u = u' ∧ Phase.locked = ph := by simpa using hj
      rw [update_self]
    · rw [update_of_ne hji] at hj
      have howner := h.owner j u' ph hj hph
      have hne : u'.mutex ≠ u.mutex := by
        intro heq
        rw [heq, hfree] at howner
        simp at howner
      rw [update_of_ne hne, howner]
  · exact fun j u' x hj => h.applies j u' x (hother j u' _ hj (by simp))
  · exact fun j u' x hj => h.fresh j u' x (hother j u' _ hj (by simp))
  · exact fun j j' u' u'' x y hj hj' => h.single j j' u' u'' x y (hother j u' _ hj (by simp))
      (hother j' u'' _ hj' (by simp))

private theorem CounterInv.load (h : CounterInv cfg s) (hpc : s.pc i = .count u .locked)
    (happlies : u.applies (cfg.isVIP i) = true)
    (hapart : ∀ j, ∀ m ∈ (s.pc j).updating, m = u.mutex) :
    CounterInv cfg (s.goto i (.count u (.loaded s.L_to_R))) := by
  have hnone : ∀ j u' x, s.pc j ≠ .count u' (.loaded x) := by
    intro j u' x hj
    have howner := h.owner j u' _ hj (by simp)
    have hmutex : u'.mutex = u.mutex := hapart j _ (by rw [hj]; rfl)
    rw [hmutex, h.owner i u _ hpc (by simp)] at howner
    obtain rfl : i = j := by simpa using howner
    simp [hpc] at hj
  have hat : ∀ j u' x, (s.goto i (.count u (.loaded s.L_to_R))).pc j = .count u' (.loaded x) →
      j = i ∧ u' = u ∧ x = s.L_to_R := by
    intro j u' x hj
    by_cases hji : j = i
    · subst hji
      rw [goto_self] at hj
      simp_all
    · rw [goto_of_ne s hji] at hj
      exact absurd hj (hnone j u' x)
  constructor
  · have htally := tally_update (counts cfg) s.pc i (.count u (.loaded s.L_to_R))
    have hsame : counts cfg i (.count u (.loaded s.L_to_R)) = counts cfg i (s.pc i) := by
      simp only [counts, hpc, (counted_outside _ u).2.2]
    have hvalue := h.value
    simp only [State.goto]
    omega
  · intro j u' ph hj hph
    by_cases hji : j = i
    · subst hji
      rw [goto_self] at hj
      obtain ⟨rfl, -⟩ : u = u' ∧ Phase.loaded s.L_to_R = ph := by simpa using hj
      exact h.owner j u _ hpc (by simp)
    · rw [goto_of_ne s hji] at hj
      exact h.owner j u' ph hj hph
  · intro j u' x hj
    obtain ⟨rfl, rfl, -⟩ := hat j u' x hj
    exact happlies
  · intro j u' x hj
    exact (hat j u' x hj).2.2
  · intro j j' u' u'' x y hj hj'
    rw [(hat j u' x hj).1, (hat j' u'' y hj').1]

private theorem CounterInv.stored (h : CounterInv cfg s) {L : Int} (hpc : s.pc i = .count u ph)
    (hph : ph ≠ .enter) (hL : L = s.L_to_R + (counts cfg i (.count u .stored) - counts cfg i (s.pc i)))
    (hother : L = s.L_to_R ∨ ∃ x, ph = .loaded x) :
    CounterInv cfg ({ s with L_to_R := L }.goto i (.count u .stored)) := by
  have hat : ∀ j u' x, ({ s with L_to_R := L }.goto i (.count u .stored)).pc j =
      .count u' (.loaded x) → j ≠ i ∧ s.pc j = .count u' (.loaded x) := by
    intro j u' x hj
    by_cases hji : j = i
    · subst hji
      rw [goto_self] at hj
      simp at hj
    · rw [goto_of_ne _ hji] at hj
      exact ⟨hji, hj⟩
  constructor
  · have htally := tally_update (counts cfg) s.pc i (.count u .stored)
    have hvalue := h.value
    simp only [State.goto]
    omega
  · intro j u' ph' hj hph'
    by_cases hji : j = i
    · subst hji
      rw [goto_self] at hj
      obtain ⟨rfl, -⟩ : u = u' ∧ Phase.stored = ph' := by simpa using hj
      exact h.owner j u ph hpc hph
    · rw [goto_of_ne _ hji] at hj
      exact h.owner j u' ph' hj hph'
  · exact fun j u' x hj => h.applies j u' x (hat j u' x hj).2
  · intro j u' x hj
    obtain ⟨hne, hj⟩ := hat j u' x hj
    rcases hother with hsame | ⟨y, hy⟩
    · rw [hsame]
      exact h.fresh j u' x hj
    · rw [hy] at hpc
      exact absurd (h.single j i u' u x y hj hpc) hne
  · exact fun j j' u' u'' x y hj hj' => h.single j j' u' u'' x y (hat j u' x hj).2 (hat j' u'' y hj').2

private theorem CounterInv.unlock (h : CounterInv cfg s) (hpc : s.pc i = .count u .stored) :
    CounterInv cfg ({ s with owner := update s.owner u.mutex none }.goto i (State.afterUpdate u)) := by
  have hafter : ∀ u' ph, State.afterUpdate u ≠ .count u' ph := by
    intro u' ph
    cases u <;> simp [State.afterUpdate]
  have hother : ∀ j u' ph, (update s.pc i (State.afterUpdate u)) j = .count u' ph →
      j ≠ i ∧ s.pc j = .count u' ph := by
    intro j u' ph hj
    by_cases hji : j = i
    · subst hji
      rw [update_self] at hj
      exact absurd hj (hafter u' ph)
    · rw [update_of_ne hji] at hj
      exact ⟨hji, hj⟩
  constructor
  · have htally := tally_update (counts cfg) s.pc i (State.afterUpdate u)
    have hsame : counts cfg i (State.afterUpdate u) = counts cfg i (s.pc i) := by
      simp only [counts, hpc, (counted_outside _ u).2.1]
    have hvalue := h.value
    simp only [State.goto]
    omega
  · intro j u' ph hj hph
    obtain ⟨hne, hj⟩ := hother j u' ph hj
    have howner := h.owner j u' ph hj hph
    have hmutex : u'.mutex ≠ u.mutex := by
      intro heq
      rw [heq, h.owner i u _ hpc (by simp)] at howner
      exact hne (by simpa using howner.symm)
    simp only [State.goto]
    rw [update_of_ne hmutex, howner]
  · exact fun j u' x hj => h.applies j u' x (hother j u' _ hj).2
  · exact fun j u' x hj => h.fresh j u' x (hother j u' _ hj).2
  · exact fun j j' u' u'' x y hj hj' => h.single j j' u' u'' x y (hother j u' _ hj).2
      (hother j' u'' _ hj').2

private theorem CounterInv.counts (h : CounterInv cfg s) (hpc : s.pc i = .count u ph)
    (hapart : ph = .locked → u.applies (cfg.isVIP i) = true →
      ∀ j, ∀ m ∈ (s.pc j).updating, m = u.mutex)
    (hstep : State.Counts cfg s i u ph s') : CounterInv cfg s' := by
  cases hstep with
  | lock hfree => exact h.lock hpc hfree
  | load happlies => exact h.load hpc happlies (hapart rfl happlies)
  | skip happlies =>
    have hskip := counts_stored (i := i) (u := u) cfg 0
    have hlocked : Airport.counts cfg i (.count u (.loaded 0)) = Airport.counts cfg i (s.pc i) := by
      simp only [Airport.counts, hpc, (counted_outside _ u).2.2]
    rw [happlies, hlocked, if_neg Bool.false_ne_true] at hskip
    exact h.stored hpc (by simp) (by omega) (.inl rfl)
  | store x =>
    have hstored := counts_stored (i := i) (u := u) cfg x
    rw [h.applies i u x hpc, if_pos rfl, ← hpc] at hstored
    have hfresh := h.fresh i u x hpc
    exact h.stored hpc (by simp) (by omega) (.inr ⟨x, rfl⟩)
  | unlock => exact h.unlock hpc

end Region

private theorem CounterInv.next
    (h : CounterInv cfg s) {draw : Nat} (hapart : Apart cfg s (.passenger i draw))
    (hnext : State.Next cfg s i s') : CounterInv cfg s' := by
  cases hnext with
  | counts hpc hcounts =>
    apply h.counts hpc _ hcounts
    intro hlocked happlies
    subst hlocked
    exact hapart _ (by simp [hpc, Pc.loading, happlies])
  | leaveKiosk hpc =>
    refine h.goto rfl rfl rfl ?_ ?_
    · cases hVIP : cfg.isVIP i <;> simp [hpc, counted]
    · cases cfg.isVIP i <;> simp
  | @walkedLR again hpc =>
    refine h.goto rfl rfl rfl ?_ ?_
    · cases again <;> simp [hpc, counted]
    · cases again <;> simp
  | waitKiosk hpc _ | takeKiosk hpc _ | giveKiosk hpc | chooseBelt hpc | waitBelt hpc
  | leaveBelt hpc | laneLocked hpc _ | laneOpen hpc _ | lost hpc | kept hpc | goBack hpc
  | backBusy hpc _ | backClear hpc _ | hopOn hpc | walkedRL hpc | hopOff hpc | board hpc =>
    refine h.goto rfl rfl rfl ?_ ?_
    · simp [hpc, counted]
    · simp

theorem CounterInv.step {a : Act n} (h : CounterInv cfg s) (hapart : Apart cfg s a)
    (hstep : Step cfg s a s') : CounterInv cfg s' := by
  cases a with
  | passenger i draw => exact h.next hapart (State.next_cases hstep)
  | broadcast =>
    obtain rfl := Option.some.inj hstep
    exact h.broadcast

/-- What the counter tells in a state. -/
structure CounterSafe (cfg : Config n) (s : State n) : Prop where
  exact : CountExact cfg s
  nonneg : ¬ s.Updating → 0 ≤ s.L_to_R
  boarded : (∀ i, s.pc i = .boarded) → s.L_to_R = 0

theorem CounterInv.safe (h : CounterInv cfg s) : CounterSafe cfg s := by
  have hvalue : s.L_to_R = (s.onTheWay cfg).card := by rw [h.value, tally_counts]
  constructor
  · exact fun _ => hvalue
  · intro _
    rw [hvalue]
    exact Int.natCast_nonneg _
  · intro hall
    rw [h.value]
    apply tally_eq_zero
    intro i
    rw [hall i]
    rfl

/-- No update is lost in a run that keeps the two mutexes apart. -/
theorem counter_of_run {as : List (Act n)}
    (hrun : Run (fun s a s' => Apart cfg s a ∧ Step cfg s a s') cfg.init as s) : CounterSafe cfg s := by
  have hinv : CounterInv cfg s := by
    apply hrun.keeps _ .init
    intro s a s' h hstep
    exact h.step hstep.1 hstep.2
  exact hinv.safe

/-- A passenger and a VIP at two kiosks. -/
def twoPassengers : Config 2 := ⟨2, 1, 1, fun i => i = 1⟩

/-- A number of steps of one passenger; `rand()` is odd. -/
def steps (i : Fin 2) (k : Nat) : List (Act 2) := List.replicate k (.passenger i 1)

/-- The VIP checks in while the other passenger is on its way back; both updates count. -/
theorem counter_of_run_two :
    ∃ s, (steps 0 23 ++ steps 1 7).foldlM
        (fun s a => if Apart twoPassengers s a then act twoPassengers s a else none)
        twoPassengers.init = some s ∧
      s.L_to_R = 2 ∧ CounterSafe twoPassengers s := by
  obtain ⟨s, hs, hL⟩ := Option.map_eq_some_iff.mp
    (by decide +kernel : ((steps 0 23 ++ steps 1 7).foldlM
      (fun s a => if Apart twoPassengers s a then act twoPassengers s a else none)
      twoPassengers.init).map State.L_to_R = some 2)
  have hrun := (Run.of_foldlM hs).mono fun s a s' hstep => by
    split at hstep
    · next hapart => exact And.intro hapart hstep
    · simp at hstep
  exact ⟨s, hs, hL, counter_of_run hrun⟩

/-- The passenger loads the counter at the special kiosk, the VIP loads, stores and leaves its
region, and the passenger's store overwrites the VIP's. -/
theorem update_lost :
    ∃ s, Run (Step twoPassengers) twoPassengers.init (steps 0 21 ++ steps 1 7 ++ steps 0 1) s ∧
      s.L_to_R = 1 ∧ (s.onTheWay twoPassengers).card = 2 ∧ ¬ CountExact twoPassengers s := by
  have hcheck : (((steps 0 21 ++ steps 1 7 ++ steps 0 1).foldlM (act twoPassengers)
      twoPassengers.init).map fun s => decide (s.L_to_R = 1 ∧
        (s.onTheWay twoPassengers).card = 2 ∧ ∀ i, (s.pc i).updating = none)) = some true := by
    decide +kernel
  obtain ⟨s, hs, hfacts⟩ := Option.map_eq_some_iff.mp hcheck
  obtain ⟨hL, hcard, hnone⟩ := of_decide_eq_true hfacts
  refine ⟨s, .of_foldlM hs, hL, hcard, ?_⟩
  intro hexact
  have hidle : ¬ s.Updating := by
    intro hupdating
    obtain ⟨i, u, x, hi⟩ := hupdating
    simpa [hi, Pc.updating] using hnone i
  have hvalue := hexact hidle
  omega

end OsSessional.Airport
