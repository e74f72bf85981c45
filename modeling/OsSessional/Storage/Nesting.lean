import OsSessional.Storage.LogSpace
import Mathlib.Data.Finset.Union

/-!
# Operations inside operations

A process may begin an operation while it has one open: `exec` loads a program inside one, and every page
that `allocuvm` sends to the swap file there is written by `filewrite` in an operation of its own. The
inner operation has an index of its own here; while it is under way the outer one stands still. An inner
one that sleeps in `begin_op` keeps the outer one, and with it the transaction, open.
-/

namespace OsSessional.Storage

open Function (update update_self update_of_ne)
open Paging (maxOpBlocks)

/-- Whose step it is. -/
def LogAct.actor {ι : Type} : LogAct ι → Option ι
  | .call i | .test i | .see i _ _ | .modify i _ _ | .check i | .log_write i | .end_op i | .work i _
  | .leave i => some i
  | .recover _ | .crash => none

/-- Who calls `begin_op`. -/
def LogAct.called {ι : Type} : LogAct ι → Option ι
  | .call i => some i
  | _ => none

namespace Pc

/-- In `begin_op`. -/
def Waits (p : Pc) : Prop := p = .begin_op ∨ p = .asleep

instance (p : Pc) : Decidable p.Waits :=
  match p with
  | .begin_op => isTrue (.inl rfl)
  | .asleep => isTrue (.inr rfl)
  | .out | .inOp _ | .dirtied _ _ | .tested _ _ | .commit _ _ | .leave =>
    isFalse fun h => by rcases h with h | h <;> contradiction

instance (p : Pc) : Decidable (p = .out) :=
  match p with
  | .out => isTrue rfl
  | .begin_op | .asleep | .inOp _ | .dirtied _ _ | .tested _ _ | .commit _ _ | .leave =>
    isFalse fun h => by contradiction

instance (p : Pc) : Decidable (∃ w, p = .inOp w) :=
  match p with
  | .inOp w => isTrue ⟨w, rfl⟩
  | .out | .begin_op | .asleep | .dirtied _ _ | .tested _ _ | .commit _ _ | .leave =>
    isFalse fun h => by
      rcases h with ⟨w, hw⟩
      contradiction

theorem Waits.wake {p : Pc} (h : p.Waits) : p.wake.Waits := by
  rcases h with rfl | rfl
  · exact .inl rfl
  · exact .inl rfl

theorem waits_wake {p : Pc} : p.wake.Waits ↔ p.Waits := by
  cases p <;> simp [Waits, Pc.wake]

theorem Waits.not_inside {p : Pc} (h : p.Waits) : p.inside = false := by
  rcases h with rfl | rfl
  · rfl
  · rfl

theorem Waits.ne_out {p : Pc} (h : p.Waits) : p ≠ .out := by
  rcases h with rfl | rfl
  · simp
  · simp

/-- The block that a call has changed and not logged yet. -/
def pending : Pc → Finset Nat
  | .dirtied _ b => {b}
  | .tested _ b => {b}
  | _ => ∅

@[simp] theorem pending_wake (p : Pc) : p.wake.pending = p.pending := by cases p <;> rfl

end Pc

namespace Log

variable {ι : Type} {outer : ι → Option ι} {s s' : Log ι} {i : ι}

section Discipline

/-- A process with an inner operation under way moves in that one, and it begins one only inside its outer
operation. -/
structure Nested (outer : ι → Option ι) (s : Log ι) (a : LogAct ι) : Prop where
  free : ∀ i, a.actor = some i → ∀ k, outer k = some i → s.pc k = .out
  within : ∀ i, a.called = some i → ∀ j, outer i = some j →
    (∃ w, s.pc j = .inOp w) ∧ ∀ k, outer k = some j → s.pc k = .out

instance [Fintype ι] [DecidableEq ι] (a : LogAct ι) : Decidable (Nested outer s a) :=
  decidable_of_iff
    ((∀ i, a.actor = some i → ∀ k, outer k = some i → s.pc k = .out) ∧
      ∀ i, a.called = some i → ∀ j, outer i = some j →
        (∃ w, s.pc j = .inOp w) ∧ ∀ k, outer k = some j → s.pc k = .out)
    ⟨fun h => ⟨h.1, h.2⟩, fun h => ⟨h.free, h.within⟩⟩

/-- Where the operations are. -/
structure Nests (outer : ι → Option ι) (s : Log ι) : Prop where
  inOp : ∀ i j, outer i = some j → s.pc i ≠ .out → ∃ w, s.pc j = .inOp w
  one : ∀ i i' j, outer i = some j → outer i' = some j → s.pc i ≠ .out → s.pc i' ≠ .out → i = i'

theorem Nests.free (h : Nests outer s) (hpc : ∀ w, s.pc i ≠ .inOp w) (k : ι) (hk : outer k = some i) :
    s.pc k = .out := by
  by_contra hout
  rcases h.inOp k i hk hout with ⟨w, hw⟩
  exact hpc w hw

theorem nests_reset : Nests outer (reset : Log ι) :=
  ⟨fun _ _ _ h => absurd rfl h, fun _ _ _ _ _ h => absurd rfl h⟩

variable [DecidableEq ι]

/-- The steps of processes that nest their operations. -/
def NestedStep (area : LogArea) (outer : ι → Option ι) (s : Log ι) (a : LogAct ι) (s' : Log ι) : Prop :=
  Nested outer s a ∧ Step area s a s'

private theorem Nests.moved (hflat : ∀ i j, outer i = some j → outer j = none) (h : Nests outer s) {p : Pc}
    (hfree : ∀ k, outer k = some i → s.pc k = .out)
    (hwithin : s.pc i ≠ .out ∨
      ∀ j, outer i = some j → (∃ w, s.pc j = .inOp w) ∧ ∀ k, outer k = some j → s.pc k = .out)
    (hpc : ∀ k, s'.pc k = update s.pc i p k ∨ s'.pc k = (update s.pc i p k).wake) : Nests outer s' := by
  have hself : outer i ≠ some i := by
    intro hi
    rw [hflat i i hi] at hi
    contradiction
  have hout : ∀ k, k ≠ i → s'.pc k ≠ .out → s.pc k ≠ .out := by
    intro k hk hne hpck
    rcases hpc k with hk' | hk'
    · rw [update_of_ne hk, hpck] at hk'
      exact hne hk'
    · rw [update_of_ne hk, hpck] at hk'
      exact hne hk'
  have hin : ∀ k w, k ≠ i → s.pc k = .inOp w → s'.pc k = .inOp w := by
    intro k w hk hw
    rcases hpc k with hk' | hk'
    · rw [hk', update_of_ne hk, hw]
    · rw [hk', update_of_ne hk, hw]
      rfl
  constructor
  · intro x y hx hne
    have hyi : y ≠ i := by
      rintro rfl
      have hxy : x ≠ y := by
        rintro rfl
        exact hself hx
      exact hout x hxy hne (hfree x hx)
    have hold : ∃ w, s.pc y = .inOp w := by
      by_cases hxi : x = i
      · rw [hxi] at hx
        rcases hwithin with hactive | hcall
        · exact h.inOp i y hx hactive
        · exact (hcall y hx).1
      · exact h.inOp x y hx (hout x hxi hne)
    rcases hold with ⟨w, hw⟩
    exact ⟨w, hin y w hyi hw⟩
  · intro x x' y hx hx' hne hne'
    have hother : ∀ k, k ≠ i → outer i = some y → outer k = some y → s'.pc k ≠ .out → False := by
      intro k hki hi hk hnek
      rcases hwithin with hactive | hcall
      · exact hki (h.one k i y hk hi (hout k hki hnek) hactive)
      · exact hout k hki hnek ((hcall y hi).2 k hk)
    by_cases hxi : x = i
    · by_cases hxi' : x' = i
      · rw [hxi, hxi']
      · exact (hother x' hxi' (hxi ▸ hx) hx' hne').elim
    · by_cases hxi' : x' = i
      · exact (hother x hxi (hxi' ▸ hx') hx hne).elim
      · exact h.one x x' y hx hx' (hout x hxi hne) (hout x' hxi' hne')

theorem Nests.step {area : LogArea} {a : LogAct ι} (hflat : ∀ i j, outer i = some j → outer j = none)
    (h : Nests outer s) (hstep : NestedStep area outer s a s') : Nests outer s' := by
  rcases hstep with ⟨hnested, io, hstep⟩
  have hmoves {t : Log ι} {i : ι} (p : Pc) (hi : a.actor = some i) (hpc : s.pc i ≠ .out)
      (ht : ∀ k, t.pc k = update s.pc i p k ∨ t.pc k = (update s.pc i p k).wake) : Nests outer t :=
    h.moved hflat (hnested.free i hi) (.inl hpc) ht
  cases act_cases hstep with
  | @call i hboot hpc =>
    exact h.moved hflat (hnested.free i rfl) (.inr (hnested.within i rfl)) fun k => .inl rfl
  | waits hpc hbusy => exact hmoves _ rfl (by rw [hpc]; simp) fun k => .inl rfl
  | enters hpc hbusy => exact hmoves _ rfl (by rw [hpc]; simp) fun k => .inl rfl
  | see hboot => exact h
  | modify hpc _ _ _ => exact hmoves _ rfl (by rw [hpc]; simp) fun k => .inl rfl
  | check hpc hpanics => exact hmoves _ rfl (by rw [hpc]; simp) fun k => .inl rfl
  | log_write hpc => exact hmoves _ rfl (by rw [hpc]; simp) fun k => .inl rfl
  | ends hpc hcommitting hmore => exact hmoves _ rfl (by rw [hpc]; simp) fun k => .inr rfl
  | lastEnds hpc hcommitting hlast => exact hmoves _ rfl (by rw [hpc]; simp) fun k => .inl rfl
  | works hpc hjob => exact hmoves _ rfl (by rw [hpc]; simp) fun k => .inl rfl
  | worked hpc hjob => exact hmoves _ rfl (by rw [hpc]; simp) fun k => .inl rfl
  | leave hpc => exact hmoves _ rfl (by rw [hpc]; simp) fun k => .inr rfl
  | readHead hboot => exact ⟨h.inOp, h.one⟩
  | recovers hboot hjob => exact ⟨h.inOp, h.one⟩
  | recovered hboot hjob => exact ⟨h.inOp, h.one⟩
  | crash => exact nests_reset

end Discipline

section Counts

variable [Fintype ι]

/-- The blocks that calls are about to log, and that are not in the log yet. -/
def coming (s : Log ι) : Finset Nat := (Finset.univ.biUnion fun i => (s.pc i).pending) \ s.lh.toFinset

/-- The blocks in the log once the calls inside have logged what they have changed. -/
def claimed (s : Log ι) : Nat := s.lh.length + s.coming.card

/-- The operations that wait to begin inside another one. -/
def waitingInside (outer : ι → Option ι) (s : Log ι) : Finset ι :=
  Finset.univ.filter fun i => (s.pc i).Waits ∧ (outer i).isSome = true

theorem mem_coming {s : Log ι} {b : Nat} : b ∈ s.coming ↔ (∃ i, b ∈ (s.pc i).pending) ∧ b ∉ s.lh := by
  simp [coming]

private theorem claimed_congr (hlh : s'.lh = s.lh) (hpending : ∀ k, (s'.pc k).pending = (s.pc k).pending) :
    s'.claimed = s.claimed := by
  simp only [claimed, coming, hlh, hpending]

variable [DecidableEq ι] {area : LogArea}

omit [DecidableEq ι] in
theorem claimed_wakeup : s.wakeup.claimed = s.claimed :=
  claimed_congr rfl fun k => by rw [wakeup_pc, Pc.pending_wake]

theorem claimed_goto {p : Pc} (h : p.pending = (s.pc i).pending) : (s.goto i p).claimed = s.claimed :=
  claimed_congr rfl fun k => by rw [goto_pc, update_pc (f := Pc.pending) h k]

private theorem le_claimed_modify {w : List Nat} {b : Nat} (hpc : s.pc i = .inOp w) :
    s.claimed ≤ (s.goto i (.dirtied w b)).claimed := by
  apply Nat.add_le_add_left
  apply Finset.card_le_card
  intro x hx
  rcases mem_coming.mp hx with ⟨⟨k, hk⟩, hnew⟩
  refine mem_coming.mpr ⟨⟨k, ?_⟩, hnew⟩
  have hki : k ≠ i := by
    rintro rfl
    rw [hpc] at hk
    simp [Pc.pending] at hk
  rw [goto_pc, update_of_ne hki]
  exact hk

theorem claimed_log_write {w : List Nat} {b : Nat} (hpc : s.pc i = .tested w b) :
    ({ s with lh := s.absorb b }.goto i (.inOp (b :: w))).claimed = s.claimed := by
  have hmine : b ∈ (s.pc i).pending := by
    rw [hpc]
    exact Finset.mem_singleton_self b
  have hcoming : ({ s with lh := s.absorb b }.goto i (.inOp (b :: w))).coming = s.coming.erase b := by
    ext x
    rw [mem_coming, Finset.mem_erase, mem_coming]
    constructor
    · intro hx
      rcases hx with ⟨⟨k, hk⟩, hnew⟩
      have hnot : ¬ (x ∈ s.lh ∨ x = b) := mt mem_absorb.mpr hnew
      refine ⟨fun hxb => hnot (.inr hxb), ⟨k, ?_⟩, fun hold => hnot (.inl hold)⟩
      by_cases hki : k = i
      · rw [hki, goto_pc, update_self] at hk
        simp [Pc.pending] at hk
      · rw [goto_pc, update_of_ne hki] at hk
        exact hk
    · intro hx
      rcases hx with ⟨hxb, ⟨k, hk⟩, hnew⟩
      have hki : k ≠ i := by
        rintro rfl
        rw [hpc] at hk
        exact hxb (Finset.mem_singleton.mp hk)
      refine ⟨⟨k, ?_⟩, fun habsorb => ?_⟩
      · rw [goto_pc, update_of_ne hki]
        exact hk
      · rcases mem_absorb.mp habsorb with hold | hxb'
        · exact hnew hold
        · exact hxb hxb'
  have hlength : (s.absorb b).length = if b ∈ s.lh then s.lh.length else s.lh.length + 1 := by
    unfold absorb
    split
    · rfl
    · rw [List.length_append, List.length_singleton]
  have hgoal : (s.absorb b).length + (s.coming.erase b).card = s.lh.length + s.coming.card := by
    rw [hlength]
    by_cases hb : b ∈ s.lh
    · have hout : b ∉ s.coming := fun hin => (mem_coming.mp hin).2 hb
      rw [if_pos hb, Finset.erase_eq_of_notMem hout]
    · have hin : b ∈ s.coming := mem_coming.mpr ⟨⟨i, hmine⟩, hb⟩
      have hcard := Finset.card_erase_add_one hin
      rw [if_neg hb]
      omega
  unfold claimed
  rw [hcoming]
  exact hgoal

omit [DecidableEq ι] in
private theorem Nests.waitingInside_le (h : Nests outer s) :
    (s.waitingInside outer).card ≤
      ((Finset.univ.filter fun i => (s.pc i).inside = true).filter fun i => (s.pc i).pending = ∅).card := by
  have houter : ∀ i ∈ s.waitingInside outer, ∃ j, outer i = some j ∧ s.pc i ≠ .out := by
    intro i hi
    rcases (Finset.mem_filter.mp hi).2 with ⟨hwaits, hsome⟩
    rcases Option.isSome_iff_exists.mp hsome with ⟨j, hj⟩
    exact ⟨j, hj, hwaits.ne_out⟩
  refine Finset.card_le_card_of_injOn (fun i => (outer i).getD i) ?_ ?_
  · intro i hi
    rcases houter i hi with ⟨j, hj, hactive⟩
    rcases h.inOp i j hj hactive with ⟨w, hw⟩
    change (outer i).getD i ∈ (_ : Finset ι)
    rw [hj, Option.getD_some, Finset.mem_filter, Finset.mem_filter, hw]
    exact ⟨⟨Finset.mem_univ j, rfl⟩, rfl⟩
  · intro i hi i' hi' heq
    rcases houter i hi with ⟨j, hj, hactive⟩
    rcases houter i' hi' with ⟨j', hj', hactive'⟩
    simp only [hj, hj', Option.getD_some] at heq
    subst heq
    exact h.one i i' j hj hj' hactive hactive'

omit [DecidableEq ι] in
/-- The calls inside: one for each block that is coming, and one for each operation that waits inside
another. -/
theorem Control.le_outstanding (h : Control area s) (hnests : Nests outer s) :
    s.coming.card + (s.waitingInside outer).card ≤ s.outstanding := by
  have hcoming : s.coming.card ≤
      ((Finset.univ.filter fun i => (s.pc i).inside = true).filter fun i => ¬ (s.pc i).pending = ∅).card := by
    have hsub : s.coming ⊆
        ((Finset.univ.filter fun i => (s.pc i).inside = true).filter fun i => ¬ (s.pc i).pending = ∅).biUnion
          fun i => (s.pc i).pending := by
      intro b hb
      rcases (mem_coming.mp hb).1 with ⟨i, hi⟩
      refine Finset.mem_biUnion.mpr ⟨i, ?_, hi⟩
      have hin : (s.pc i).inside = true := by cases hpc : s.pc i <;> simp [hpc, Pc.pending, Pc.inside] at hi ⊢
      simp [hin, Finset.ne_empty_of_mem hi]
    have hone := Finset.card_biUnion_le_card_mul
      ((Finset.univ.filter fun i => (s.pc i).inside = true).filter fun i => ¬ (s.pc i).pending = ∅)
      (fun i => (s.pc i).pending) 1 fun i _ => by cases s.pc i <;> simp [Pc.pending]
    rw [Nat.mul_one] at hone
    exact (Finset.card_le_card hsub).trans hone
  have hsplit := Finset.card_filter_add_card_filter_not
    (s := Finset.univ.filter fun i => (s.pc i).inside = true) fun i => (s.pc i).pending = ∅
  have hinside : s.inside = (Finset.univ.filter fun i => (s.pc i).inside = true).card := by
    rw [Finset.card_filter]
    rfl
  have hwaiting := hnests.waitingInside_le
  rw [h.count, hinside]
  omega

/-- Who has more to log than it takes, and waits as long as it likes. -/
structure Jammed (area : LogArea) (outer : ι → Option ι) (i : ι) (s : Log ι) : Prop where
  control : Control area s
  nests : Nests outer s
  waits : (s.pc i).Waits
  holds : (s.waitingInside outer).Nonempty
  full : logSize < s.claimed + ((s.waitingInside outer).card + 1) * maxOpBlocks

namespace Jammed

variable (h : Jammed area outer i s)

include h

omit [DecidableEq ι] in
private theorem busy : s.busy = true := by
  have hout := h.control.le_outstanding h.nests
  have hfull := h.full
  have hroom : s.lh.length + (s.outstanding + 1) * maxOpBlocks > logSize := by
    unfold claimed at hfull
    have hmax : 0 < maxOpBlocks := by decide
    have hmul : (s.coming.card + (s.waitingInside outer).card + 1) * maxOpBlocks ≤
        (s.outstanding + 1) * maxOpBlocks := Nat.mul_le_mul_right _ (by omega)
    have hcoming : s.coming.card ≤ s.coming.card * maxOpBlocks := Nat.le_mul_of_pos_right _ hmax
    rw [Nat.add_assoc, Nat.add_mul] at hmul
    omega
  simp only [Log.busy, hroom, decide_true, Bool.or_true]

omit [DecidableEq ι] in
private theorem holder : ∃ j w, s.pc j = .inOp w ∧ ∃ k, outer k = some j ∧ s.pc k ≠ .out := by
  rcases h.holds with ⟨k, hk⟩
  rcases (Finset.mem_filter.mp hk).2 with ⟨hwaits, hsome⟩
  rcases Option.isSome_iff_exists.mp hsome with ⟨j, hj⟩
  rcases h.nests.inOp k j hj hwaits.ne_out with ⟨w, hw⟩
  exact ⟨j, w, hw, k, hj, hwaits.ne_out⟩

omit [DecidableEq ι] in
private theorem not_working (j : ι) : (s.pc j).working = false := by
  rcases h.holder with ⟨x, w, hx, -⟩
  exact h.control.calm (h.control.not_committing (i := x) (by rw [hx]; rfl)) j

/-- A step leaves whoever waits waiting, and takes no claim back. -/
private theorem keeps {a : LogAct ι} (hcrash : a ≠ .crash) (hstep : NestedStep area outer s a s') :
    (∀ k, (s.pc k).Waits → (s'.pc k).Waits) ∧ s.claimed ≤ s'.claimed := by
  have hbusy := h.busy
  have hup := h.control.up h.waits.ne_out
  rcases hstep with ⟨hnested, io, hclient⟩
  have hothers {j : ι} (p : Pc) (hj : (s.pc j).inside = true) (k : ι) (hk : (s.pc k).Waits) :
      (update s.pc j p k).Waits := by
    have hkj : k ≠ j := by
      rintro rfl
      rw [hk.not_inside] at hj
      contradiction
    rw [update_of_ne hkj]
    exact hk
  cases act_cases hclient with
  | @call j hboot hpc =>
    refine ⟨fun k hk => ?_, (claimed_goto (by rw [hpc]; rfl)).ge⟩
    have hkj : k ≠ j := by
      rintro rfl
      exact hk.ne_out hpc
    rw [goto_pc, update_of_ne hkj]
    exact hk
  | @waits j hpc hbusy =>
    refine ⟨fun k hk => ?_, (claimed_goto (by rw [hpc]; rfl)).ge⟩
    rw [goto_pc]
    by_cases hkj : k = j
    · rw [hkj, update_self]
      exact .inr rfl
    · rw [update_of_ne hkj]
      exact hk
  | enters hpc hfree =>
    rw [hbusy] at hfree
    contradiction
  | see hboot => exact ⟨fun k hk => hk, le_refl _⟩
  | modify hpc _ _ _ => exact ⟨hothers _ (by rw [hpc]; rfl), le_claimed_modify hpc⟩
  | check hpc hpanics => exact ⟨hothers _ (by rw [hpc]; rfl), (claimed_goto (by rw [hpc]; rfl)).ge⟩
  | log_write hpc => exact ⟨hothers _ (by rw [hpc]; rfl), (claimed_log_write hpc).ge⟩
  | @ends j w hpc hcommitting hmore =>
    refine ⟨fun k hk => ?_, ?_⟩
    · rw [wakeup_pc]
      exact (hothers _ (by rw [hpc]; rfl) k hk).wake
    · rw [claimed_wakeup]
      exact (claimed_goto (by rw [hpc]; rfl)).ge
  | @lastEnds j w hpc hcommitting hlast =>
    -- the operation that is held open is another one
    rcases h.holder with ⟨x, w', hx, k, hk, hactive⟩
    have hxj : x ≠ j := by
      rintro rfl
      exact hactive (hnested.free x rfl k hk)
    have hout := h.control.outside_of_last (i := j) (by rw [hpc]; rfl) hlast hxj
    rw [hx] at hout
    contradiction
  | @works j v job job' st st' io hpc hjob =>
    have hfalse := h.not_working j
    rw [hpc] at hfalse
    contradiction
  | @worked j v job st io hpc hjob =>
    have hfalse := h.not_working j
    rw [hpc] at hfalse
    contradiction
  | @leave j hpc =>
    have hfalse := h.not_working j
    rw [hpc] at hfalse
    contradiction
  | readHead hboot =>
    rw [hup] at hboot
    contradiction
  | recovers hboot hjob =>
    rw [hup] at hboot
    contradiction
  | recovered hboot hjob =>
    rw [hup] at hboot
    contradiction
  | crash => contradiction

theorem step (hflat : ∀ i j, outer i = some j → outer j = none) {a : LogAct ι} (hcrash : a ≠ .crash)
    (hstep : NestedStep area outer s a s') : Jammed area outer i s' := by
  have hkeeps := h.keeps hcrash hstep
  have hnests := h.nests.step hflat hstep
  rcases hstep with ⟨hnested, io, hclient⟩
  have hsub : s.waitingInside outer ⊆ s'.waitingInside outer := by
    intro k hk
    rcases Finset.mem_filter.mp hk with ⟨hmem, hwaits, hsome⟩
    exact Finset.mem_filter.mpr ⟨hmem, hkeeps.1 k hwaits, hsome⟩
  refine ⟨h.control.step hclient, hnests, hkeeps.1 i h.waits, h.holds.mono hsub, ?_⟩
  have hcard : ((s.waitingInside outer).card + 1) * maxOpBlocks ≤
      ((s'.waitingInside outer).card + 1) * maxOpBlocks :=
    Nat.mul_le_mul_right _ (Nat.add_le_add_right (Finset.card_le_card hsub) 1)
  have hfull := h.full
  have hclaimed := hkeeps.2
  omega

end Jammed

end Counts

end Log

end OsSessional.Storage
