import OsSessional.Airport.Passenger

/-!
# Kiosks

`kiosk_capacity_sem` counts the passengers that may still enter, `Q` the kiosks nobody stands at.
Semaphore and queue change in separate steps. Between `sem_wait` and `sem_post` a passenger passes
five places, and at one of them it has a kiosk in hand; what the two tallies add up to never
changes.
-/

namespace OsSessional.Airport

open Function (update)

variable {n : Nat} {cfg : Config n} {s s' : State n} {i : Fin n}

/-- One for a passenger between `sem_wait` and `sem_post`. -/
def inKiosk (_ : Fin n) : Pc → Int
  | .takeKiosk => 1
  | .giveKiosk _ => 1
  | .count .kiosk _ => 1
  | .leaveKiosk => 1
  | _ => 0

/-- The kiosk a passenger has popped and not yet pushed. -/
def kioskOf : Pc → Option Nat
  | .giveKiosk kiosk_id => some kiosk_id
  | _ => none

/-- The kiosks passengers have in hand. -/
def State.taken (s : State n) : List Nat := (List.finRange n).filterMap fun i => kioskOf (s.pc i)

/-- The kiosk in hand as a multiset. -/
def inHand (_ : Fin n) (p : Pc) : Multiset Nat := (kioskOf p).elim 0 fun kiosk_id => {kiosk_id}

private theorem tally_inHand (s : State n) : tally inHand s.pc = (s.taken : Multiset Nat) := by
  have hlist : ∀ l : List (Fin n), (l.map fun i => inHand i (s.pc i)).sum =
      ((l.filterMap fun i => kioskOf (s.pc i) : List Nat) : Multiset Nat) := by
    intro l
    induction l with
    | nil => rfl
    | cons i l ih =>
      rw [List.map_cons, List.sum_cons, ih]
      cases hk : kioskOf (s.pc i) with
      | none => simp [inHand, hk]
      | some kiosk_id => simp [inHand, hk]
  unfold tally State.taken
  rw [Fin.sum_univ_def]
  exact hlist (List.finRange n)

structure KioskInv (cfg : Config n) (s : State n) : Prop where
  capacity : s.kiosk_capacity_sem + tally inKiosk s.pc = cfg.kiosks
  ids : (s.Q : Multiset Nat) + tally inHand s.pc = (List.range' 1 cfg.kiosks : List Nat)

private theorem KioskInv.init : KioskInv cfg cfg.init where
  capacity := by
    have hzero : tally inKiosk cfg.init.pc = 0 := tally_eq_zero _ fun _ => rfl
    rw [hzero]
    exact add_zero _
  ids := by
    have hnone : tally inHand cfg.init.pc = 0 := tally_eq_zero _ fun _ => rfl
    rw [hnone]
    exact add_zero _

private theorem KioskInv.goto (h : KioskInv cfg s) {s₁ : State n} {p : Pc} (hpc : s₁.pc = s.pc)
    (hcapacity : (s₁.kiosk_capacity_sem : Int) + inKiosk i p = s.kiosk_capacity_sem + inKiosk i (s.pc i))
    (hids : (s₁.Q : Multiset Nat) + inHand i p = s.Q + inHand i (s.pc i)) :
    KioskInv cfg (s₁.goto i p) where
  capacity := by
    have htally := tally_update inKiosk s.pc i p
    have hinv := h.capacity
    simp only [State.goto, hpc]
    omega
  ids := by
    have htally := tally_update inHand s.pc i p
    simp only [State.goto, hpc]
    apply add_right_cancel (b := inHand i (s.pc i))
    calc (s₁.Q : Multiset Nat) + tally inHand (update s.pc i p) + inHand i (s.pc i)
        = s₁.Q + (tally inHand s.pc + inHand i p) := by rw [add_assoc, htally]
      _ = s₁.Q + inHand i p + tally inHand s.pc := by rw [add_comm (tally inHand s.pc), add_assoc]
      _ = s.Q + inHand i (s.pc i) + tally inHand s.pc := by rw [hids]
      _ = s.Q + tally inHand s.pc + inHand i (s.pc i) := by rw [add_right_comm]
      _ = _ := by rw [h.ids]

private theorem wakes_kiosk {p q : Pc} (h : s.Wakes p q) :
    inKiosk i q = inKiosk i p ∧ inHand i q = inHand i p := by
  cases h <;> exact ⟨rfl, rfl⟩

private theorem KioskInv.broadcast (h : KioskInv cfg s) : KioskInv cfg s.broadcast_function := by
  obtain ⟨pc, atLane, heq, hwakes⟩ := s.broadcast_cases
  rw [heq]
  constructor
  · simp only [tally_congr inKiosk fun j => (wakes_kiosk (hwakes j)).1]
    exact h.capacity
  · simp only [tally_congr inHand fun j => (wakes_kiosk (hwakes j)).2]
    exact h.ids

theorem KioskInv.counts (h : KioskInv cfg s) {u : Update} {ph : Phase} (hpc : s.pc i = .count u ph)
    (hstep : State.Counts cfg s i u ph s') : KioskInv cfg s' := by
  have hsame : ∀ ph', inKiosk i (.count u ph') = inKiosk i (.count u ph) := by
    intro ph'
    cases u <;> rfl
  cases hstep with
  | lock hfree => exact h.goto rfl (by rw [hpc, hsame]) (by rw [hpc]; rfl)
  | load happlies => exact h.goto rfl (by rw [hpc, hsame]) (by rw [hpc]; rfl)
  | skip happlies => exact h.goto rfl (by rw [hpc, hsame]) (by rw [hpc]; rfl)
  | store x => exact h.goto rfl (by rw [hpc, hsame]) (by rw [hpc]; rfl)
  | unlock =>
    refine h.goto rfl ?_ ?_
    · rw [hpc]
      cases u <;> rfl
    · rw [hpc]
      cases u <;> rfl

private theorem KioskInv.next (h : KioskInv cfg s) (hstep : State.Next cfg s i s') :
    KioskInv cfg s' := by
  cases hstep with
  | waitKiosk hpc hsem =>
    refine h.goto rfl ?_ ?_
    · simp only [hpc, inKiosk]
      omega
    · simp [hpc, inHand, kioskOf]
  | @takeKiosk kiosk_id rest hpc hQ =>
    refine h.goto rfl ?_ ?_
    · simp [hpc, inKiosk]
    · simp only [hpc, hQ, inHand, kioskOf, Option.elim_some, Option.elim_none, add_zero]
      rw [add_comm, Multiset.singleton_add, Multiset.cons_coe]
  | giveKiosk hpc =>
    refine h.goto rfl ?_ ?_
    · simp [hpc, inKiosk]
    · simp [hpc, inHand, kioskOf, ← Multiset.coe_add]
  | counts hpc hcounts => exact h.counts hpc hcounts
  | leaveKiosk hpc =>
    refine h.goto rfl ?_ ?_
    · cases cfg.isVIP i <;> simp [hpc, inKiosk]
    · cases cfg.isVIP i <;> simp [hpc, inHand, kioskOf]
  | walkedLR hpc =>
    refine h.goto rfl ?_ ?_
    · split <;> simp [hpc, inKiosk]
    · split <;> simp [hpc, inHand, kioskOf]
  | chooseBelt hpc | waitBelt hpc | leaveBelt hpc | laneLocked hpc _ | laneOpen hpc _ | lost hpc
  | kept hpc | goBack hpc | backBusy hpc _ | backClear hpc _ | hopOn hpc | walkedRL hpc | hopOff hpc
  | board hpc =>
    refine h.goto rfl ?_ ?_
    · simp [hpc, inKiosk]
    · simp [hpc, inHand, kioskOf]

private theorem KioskInv.step {a : Act n} (h : KioskInv cfg s) (hstep : Step cfg s a s') :
    KioskInv cfg s' := by
  cases a with
  | passenger i draw => exact h.next (State.next_cases hstep)
  | broadcast =>
    obtain rfl := Option.some.inj hstep
    exact h.broadcast

theorem KioskInv.reached {as : List (Act n)} (hrun : Run (Step cfg) cfg.init as s) : KioskInv cfg s :=
  hrun.keeps (fun _ _ _ h hstep => h.step hstep) .init

/-- One for a passenger behind the semaphore without a kiosk in hand. -/
def withoutKiosk (i : Fin n) (p : Pc) : Int := inKiosk i p - (inHand i p).card

private theorem withoutKiosk_nonneg (i : Fin n) (p : Pc) : 0 ≤ withoutKiosk i p := by
  cases p with
  | count u ph => cases u <;> simp [withoutKiosk, inKiosk, inHand, kioskOf]
  | _ => simp [withoutKiosk, inKiosk, inHand, kioskOf]

theorem KioskInv.queue_ne_nil (h : KioskInv cfg s) (hpc : s.pc i = .takeKiosk) : s.Q ≠ [] := by
  have hwaiting : withoutKiosk i (s.pc i) ≤ tally withoutKiosk s.pc := le_tally withoutKiosk_nonneg i
  rw [hpc, show withoutKiosk i .takeKiosk = 1 from rfl] at hwaiting
  have hsplit : tally withoutKiosk s.pc =
      tally inKiosk s.pc - (tally inHand s.pc).card := by
    unfold tally withoutKiosk
    rw [Finset.sum_sub_distrib, Multiset.card_sum]
    push_cast
    rfl
  have hlength : s.Q.length + (tally inHand s.pc).card = cfg.kiosks := by
    have hids := congrArg Multiset.card h.ids
    simpa using hids
  have hcapacity := h.capacity
  intro hnil
  rw [hnil, List.length_nil] at hlength
  omega

/-- The kiosks in the queue and in hand are all kiosks, each once; nobody pops an empty queue. -/
structure KiosksSafe (cfg : Config n) (s : State n) : Prop where
  perm : (s.Q ++ s.taken).Perm (List.range' 1 cfg.kiosks)
  exclusive : ∀ i j kiosk_id, s.pc i = .giveKiosk kiosk_id → s.pc j = .giveKiosk kiosk_id → i = j
  pop : ∀ i, s.pc i = .takeKiosk → s.Q ≠ []

/-- In every interleaving the kiosks are handed out one to one. -/
theorem kiosks_of_run {as : List (Act n)} (hrun : Run (Step cfg) cfg.init as s) : KiosksSafe cfg s := by
  have h := KioskInv.reached hrun
  have hperm : (s.Q ++ s.taken).Perm (List.range' 1 cfg.kiosks) := by
    rw [← Multiset.coe_eq_coe, ← Multiset.coe_add, ← tally_inHand]
    exact h.ids
  refine ⟨hperm, ?_, fun i => h.queue_ne_nil⟩
  intro i j kiosk_id hi hj
  have hnodup : s.taken.Nodup :=
    (List.nodup_append.mp (hperm.nodup_iff.mpr List.nodup_range')).2.1
  by_contra hne
  have hpairs := List.pairwise_filterMap.mp hnodup
  have hsymm : Std.Symm fun i j => ∀ x, kioskOf (s.pc i) = some x →
      ∀ y, kioskOf (s.pc j) = some y → x ≠ y :=
    ⟨fun _ _ hij x hx y hy => (hij y hy x hx).symm⟩
  have hdistinct := hpairs.forall (List.mem_finRange i) (List.mem_finRange j) hne
  exact hdistinct kiosk_id (by rw [hi]; rfl) kiosk_id (by rw [hj]; rfl) rfl

/-- Three passengers at two kiosks; the third takes the one the first gave back. -/
theorem kiosks_of_run_three :
    ∃ s, [Act.passenger 0 0, .passenger 0 0, .passenger 1 0, .passenger 1 0, .passenger 0 0,
        .passenger 0 0, .passenger 0 0, .passenger 0 0, .passenger 0 0, .passenger 0 0,
        .passenger 2 0, .passenger 2 0].foldlM (act (n := 3) ⟨2, 1, 1, fun _ => true⟩)
          (Config.init ⟨2, 1, 1, fun _ => true⟩) = some s ∧
      s.taken = [2, 1] ∧ KiosksSafe ⟨2, 1, 1, fun _ => true⟩ s := by
  obtain ⟨s, hs, htaken⟩ := Option.map_eq_some_iff.mp
    (by decide +kernel : (([Act.passenger 0 0, .passenger 0 0, .passenger 1 0, .passenger 1 0,
      .passenger 0 0, .passenger 0 0, .passenger 0 0, .passenger 0 0, .passenger 0 0,
      .passenger 0 0, .passenger 2 0, .passenger 2 0].foldlM
        (act (n := 3) ⟨2, 1, 1, fun _ => true⟩) (Config.init ⟨2, 1, 1, fun _ => true⟩)).map
          State.taken) = some [2, 1])
  exact ⟨s, hs, htaken, kiosks_of_run (.of_foldlM hs)⟩

end OsSessional.Airport
