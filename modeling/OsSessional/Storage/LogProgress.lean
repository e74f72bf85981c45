import OsSessional.Storage.Nesting

/-!
# Who waits for good

A process that sleeps in `begin_op` waits for a call inside or for a commit. From every state the calls
inside can end, but for those that are held open by an operation waiting inside them; if there are none,
the last call commits. Then the one that waited gets in, unless the log is too full.
-/

namespace OsSessional.Storage

open Function (update update_self update_of_ne)
open Paging (maxOpBlocks)

/-- How many jobs are left, this one included, with `n` entries. -/
def Job.left (n : Nat) : Job → Nat
  | .copy tail => (n - tail) + n + 4
  | .commit => n + 3
  | .install tail => (n - tail) + 2
  | .clear => 1

/-- How many steps a job needs from a stage on. -/
def Stage.left : Stage → Nat
  | .read => 3
  | .hold _ => 2
  | .flush => 1

/-- How many steps a call needs to leave. -/
def Pc.toEnd : Pc → Nat
  | .inOp _ => 1
  | .dirtied _ _ => 3
  | .tested _ _ => 2
  | _ => 0

@[simp] theorem Pc.toEnd_wake (p : Pc) : p.wake.toEnd = p.toEnd := by cases p <;> rfl

private theorem Job.left_next {lh : List Nat} {job job' : Job} (h : job.next lh = some job') :
    job'.left (job'.head lh).length < job.left lh.length := by
  cases job with
  | copy tail =>
    simp only [Job.next] at h
    split at h
    · obtain rfl := Option.some.inj h
      simp only [Job.left, Job.head]
      omega
    · obtain rfl := Option.some.inj h
      simp only [Job.left, Job.head]
      omega
  | commit =>
    obtain rfl := Option.some.inj h
    simp only [Job.left, Job.head]
    omega
  | install tail =>
    simp only [Job.next] at h
    split at h
    · obtain rfl := Option.some.inj h
      simp only [Job.left, Job.head]
      omega
    · obtain rfl := Option.some.inj h
      simp only [Job.left]
      omega
  | clear => contradiction

private theorem Job.left_head (lh : List Nat) (job : Job) :
    job.left (job.head lh).length = job.left lh.length := by
  cases job <;> rfl

private theorem Log.doJob_less {ι : Type} {s : Log ι} {area : LogArea} {job job' : Job} {st st' : Stage}
    {v : Block} {io : Option Io} (h : s.doJob area job v st = (some (job', st'), io)) :
    3 * job'.left (job'.head s.lh).length + st'.left < 3 * job.left s.lh.length + st.left := by
  cases st with
  | read =>
    simp only [doJob, Prod.mk.injEq, Option.some.injEq] at h
    rcases h with ⟨⟨rfl, rfl⟩, -⟩
    rw [Job.left_head]
    simp only [Stage.left]
    omega
  | hold w =>
    simp only [doJob, Prod.mk.injEq, Option.some.injEq] at h
    rcases h with ⟨⟨rfl, rfl⟩, -⟩
    rw [Job.left_head]
    simp only [Stage.left]
    omega
  | flush =>
    simp only [doJob, Prod.mk.injEq, Option.map_eq_some_iff] at h
    rcases h with ⟨⟨job'', hnext, rfl, rfl⟩, -⟩
    have hless := Job.left_next hnext
    simp only [Stage.left]
    omega

namespace Log

section Busy

variable {ι : Type} {s s' : Log ι} {i : ι}

/-- Who sleeps would not be let in. -/
def Asleep (s : Log ι) : Prop := ∀ i, s.pc i = .asleep → s.busy = true

private theorem busy_of_committing (h : s.committing = true) : s.busy = true := by
  simp [busy, h]

private theorem busy_mono (h : s.busy = true) (hcommitting : s'.committing = s.committing)
    (hlh : s.lh.length ≤ s'.lh.length) (hout : s.outstanding ≤ s'.outstanding) : s'.busy = true := by
  simp only [busy, Bool.or_eq_true, decide_eq_true_eq] at h ⊢
  rcases h with h | h
  · exact .inl (hcommitting.trans h)
  · have hmul := Nat.mul_le_mul_right maxOpBlocks (Nat.add_le_add_right hout 1)
    exact .inr (by omega)

private theorem length_le_absorb (b : Nat) : s.lh.length ≤ (s.absorb b).length := by
  unfold absorb
  split
  · exact le_refl _
  · simp

end Busy

section Reaches

variable {ι : Type} {area : LogArea} {outer : ι → Option ι} {s s' : Log ι} {i : ι}

private theorem nested_of_free {a : LogAct ι} (hactor : a.actor = some i) (hcall : a.called = none)
    (hfree : ∀ k, outer k = some i → s.pc k = .out) : Nested outer s a where
  free j hj := by
    obtain rfl : i = j := Option.some.inj (hactor.symm.trans hj)
    exact hfree
  within j hj := by
    rw [hcall] at hj
    contradiction

variable [DecidableEq ι]

/-- The processes can go on, without a crash, from one state to another. -/
def Reaches (area : LogArea) (outer : ι → Option ι) (s s' : Log ι) : Prop :=
  ∃ as, Run (NestedStep area outer) s as s' ∧ ∀ a ∈ as, a ≠ .crash

private theorem Reaches.refl (s : Log ι) : Reaches area outer s s := ⟨[], .nil s, by simp⟩

private theorem Reaches.head {s₁ : Log ι} {a : LogAct ι} (hstep : NestedStep area outer s a s₁)
    (hcrash : a ≠ .crash) (h : Reaches area outer s₁ s') : Reaches area outer s s' := by
  rcases h with ⟨as, hrun, hno⟩
  refine ⟨a :: as, .cons hstep hrun, fun b hb => ?_⟩
  rcases List.mem_cons.mp hb with rfl | hb
  · exact hcrash
  · exact hno b hb

end Reaches

variable {ι : Type} [Fintype ι] [DecidableEq ι] {area : LogArea} {outer : ι → Option ι} {s s' : Log ι}
  {i : ι}

omit [DecidableEq ι] in
private theorem Control.not_busy
    (h : Control area s) (hup : s.boot = .up) (hcommitting : s.committing = false)
    (hout : s.outstanding = 0) : s.busy = false := by
  simp [busy, hcommitting, hout, h.idle hup hcommitting hout, logSize, maxOpBlocks]

/-- What holds of the states that are reached. -/
structure Live (area : LogArea) (outer : ι → Option ι) (s : Log ι) : Prop where
  fits : Fits area s
  nests : Nests outer s
  asleep : s.Asleep

omit [Fintype ι] [DecidableEq ι] in
private theorem asleep_wakeup : s.wakeup.Asleep := by
  intro j hj
  rw [wakeup_pc] at hj
  cases hpc : s.pc j <;> rw [hpc] at hj <;> contradiction

omit [Fintype ι] in
private theorem asleep_goto (lh : List Nat) {p : Pc} (h : s.Asleep) (hp : p ≠ .asleep)
    (hlh : s.lh.length ≤ lh.length) : ({ s with lh := lh }.goto i p).Asleep := by
  intro j hj
  by_cases hji : j = i
  · rw [hji, goto_pc, update_self] at hj
    exact absurd hj hp
  · rw [goto_pc, update_of_ne hji] at hj
    exact busy_mono (h j hj) rfl hlh (le_refl _)

private theorem Live.step {a : LogAct ι} (hlimit : area.opBlocks ≤ maxOpBlocks)
    (hflat : ∀ i j, outer i = some j → outer j = none) (h : Live area outer s)
    (hstep : NestedStep area outer s a s') : Live area outer s' := by
  have hnests := h.nests.step hflat hstep
  rcases hstep with ⟨hnested, io, hclient⟩
  refine ⟨h.fits.step hlimit hclient, hnests, ?_⟩
  have hasleep := h.asleep
  have hcontrol := h.fits.control
  have hdown (hboot : s.boot ≠ .up) (j : ι) : s.pc j ≠ .asleep := by
    rw [(hcontrol.quiet hboot).1 j]
    simp
  cases act_cases hclient with
  | call hboot hpc => exact asleep_goto s.lh hasleep (by simp) (le_refl _)
  | @waits i hpc hbusy => exact fun j _ => hbusy
  | @enters i hpc hbusy =>
    intro j hj
    by_cases hji : j = i
    · rw [hji, goto_pc, update_self] at hj
      contradiction
    · rw [goto_pc, update_of_ne hji] at hj
      have htrue := hasleep j hj
      rw [hbusy] at htrue
      contradiction
  | see hboot => exact hasleep
  | modify hpc hhome hword hblocks => exact asleep_goto s.lh hasleep (by simp) (le_refl _)
  | check hpc hpanics => exact asleep_goto s.lh hasleep (by simp) (le_refl _)
  | log_write hpc => exact asleep_goto _ hasleep (by simp) (length_le_absorb _)
  | ends hpc hcommitting hmore => exact asleep_wakeup
  | lastEnds hpc hcommitting hlast => exact fun j _ => busy_of_committing rfl
  | @works i v job job' st st' io hpc hjob =>
    have hcommitting := hcontrol.committing (i := i) (by rw [hpc]; rfl)
    exact fun j _ => busy_of_committing hcommitting
  | @worked i v job st io hpc hjob =>
    have hcommitting := hcontrol.committing (i := i) (by rw [hpc]; rfl)
    exact fun j _ => busy_of_committing hcommitting
  | leave hpc => exact asleep_wakeup
  | readHead hboot => exact fun j hj => absurd hj (hdown (by rw [hboot]; simp) j)
  | recovers hboot hjob => exact fun j hj => absurd hj (hdown (by rw [hboot]; simp) j)
  | recovered hboot hjob => exact fun j hj => absurd hj (hdown (by rw [hboot]; simp) j)
  | crash => exact fun j hj => by contradiction

omit [DecidableEq ι] in
private theorem live_reset : Live area outer (reset : Log ι) :=
  ⟨fits_reset, nests_reset, fun j hj => by contradiction⟩

private theorem enters_of_not_busy (h : Live area outer s) (hwaits : (s.pc i).Waits)
    (hbusy : s.busy = false) : ∃ s', Reaches area outer s s' ∧ s'.pc i = .inOp [] := by
  have hbegin : s.pc i = .begin_op := by
    rcases hwaits with hpc | hpc
    · exact hpc
    · have htrue := h.asleep i hpc
      rw [hbusy] at htrue
      contradiction
  have hnested : Nested outer s (.test i) :=
    nested_of_free rfl rfl (h.nests.free (by rw [hbegin]; simp))
  have hstep : Client area s (.test i) none
      ({ s with outstanding := s.outstanding + 1 }.goto i (.inOp [])) := by
    simp only [Client, act, hbegin, hbusy]
    rfl
  refine ⟨_, .head ⟨hnested, none, hstep⟩ (by simp) (.refl _), ?_⟩
  rw [goto_pc, update_self]

private theorem reaches_leave {j : ι} (hlimit : area.opBlocks ≤ maxOpBlocks)
    (hflat : ∀ i j, outer i = some j → outer j = none) (h : Live area outer s)
    (hpc : s.pc j = .leave) (hwaits : (s.pc i).Waits) :
    ∃ s', Reaches area outer s s' ∧ s'.pc i = .inOp [] := by
  have hup := h.fits.control.up (i := j) (by rw [hpc]; simp)
  have hout := (h.fits.control.alone (h.fits.control.committing (i := j) (by rw [hpc]; rfl))).1
  have hclient : Client area s (.leave j) none ({ s with committing := false }.goto j .out).wakeup := by
    simp only [Client, act, hpc]
  have hstep : NestedStep area outer s (.leave j) ({ s with committing := false }.goto j .out).wakeup :=
    ⟨nested_of_free rfl rfl (h.nests.free (by rw [hpc]; simp)), none, hclient⟩
  have hne : i ≠ j := by
    rintro rfl
    rw [hpc] at hwaits
    rcases hwaits with h | h <;> contradiction
  have hlive := h.step hlimit hflat hstep
  have hwaits' : (({ s with committing := false }.goto j .out).wakeup.pc i).Waits := by
    rw [wakeup_pc, goto_pc, update_of_ne hne]
    exact hwaits.wake
  rcases enters_of_not_busy hlive hwaits' (hlive.fits.control.not_busy hup rfl hout) with
    ⟨s', hreach, hin⟩
  exact ⟨s', .head hstep (by simp) hreach, hin⟩

private theorem reaches_commit {j : ι} {job : Job} {st : Stage} (hlimit : area.opBlocks ≤ maxOpBlocks)
    (hflat : ∀ i j, outer i = some j → outer j = none) (n : Nat) (h : Live area outer s)
    (hpc : s.pc j = .commit job st) (hwaits : (s.pc i).Waits)
    (hn : 3 * job.left s.lh.length + st.left ≤ n) :
    ∃ s', Reaches area outer s s' ∧ s'.pc i = .inOp [] := by
  induction n generalizing s job st with
  | zero => cases st <;> simp [Stage.left] at hn
  | succ n ih =>
    have hne : i ≠ j := by
      rintro rfl
      rw [hpc] at hwaits
      rcases hwaits with h | h <;> contradiction
    have hnested : Nested outer s (.work j fun _ => 0) :=
      nested_of_free rfl rfl (h.nests.free (by rw [hpc]; simp))
    -- the step leaves the waiting process where it is
    have hstay (lh : List Nat) (p : Pc) : ((({ s with lh := lh } : Log ι).goto j p).pc i).Waits := by
      rw [goto_pc, update_of_ne hne]
      exact hwaits
    have hself (lh : List Nat) (p : Pc) : (({ s with lh := lh } : Log ι).goto j p).pc j = p := by
      rw [goto_pc, update_self]
    cases hdo : s.doJob area job (fun _ => 0) st with
    | mk next io =>
      cases next with
      | none =>
        have hstep : NestedStep area outer s (.work j fun _ => 0) (s.goto j .leave) :=
          ⟨hnested, io, by simp only [Client, act, hpc, hdo]⟩
        rcases reaches_leave hlimit hflat (h.step hlimit hflat hstep) (hself s.lh .leave)
          (hstay s.lh .leave) with ⟨s', hreach, hin⟩
        exact ⟨s', .head hstep (by simp) hreach, hin⟩
      | some next =>
        rcases next with ⟨job', st'⟩
        have hstep : NestedStep area outer s (.work j fun _ => 0)
            ({ s with lh := job'.head s.lh }.goto j (.commit job' st')) :=
          ⟨hnested, io, by simp only [Client, act, hpc, hdo]⟩
        have hless := doJob_less hdo
        have hfewer : 3 * job'.left (job'.head s.lh).length + st'.left ≤ n := by omega
        rcases ih (h.step hlimit hflat hstep) (hself _ _) (hstay _ _) hfewer with ⟨s', hreach, hin⟩
        exact ⟨s', .head hstep (by simp) hreach, hin⟩

/-- Process `j` comes to `p`, closer to its end; others may be woken, and no block is claimed anew. -/
structure Nearer (s s₁ : Log ι) (j : ι) (p : Pc) : Prop where
  less : p.toEnd < (s.pc j).toEnd
  pc : ∀ k, s₁.pc k = update s.pc j p k ∨ s₁.pc k = (update s.pc j p k).wake
  calm : ¬ p.Waits
  boot : s₁.boot = s.boot
  commits : s₁.committing = true → s₁.pc j = s.firstJob
  claimed : s₁.claimed = s.claimed

private theorem step_inside {j : ι} (h : Live area outer s) (hlimit : area.opBlocks < maxOpBlocks)
    (hsize : logSize ≤ area.size) (hin : (s.pc j).inside = true)
    (hfree : ∀ k, outer k = some j → s.pc k = .out) :
    ∃ a p, ∃ s₁ : Log ι, a ≠ .crash ∧ NestedStep area outer s a s₁ ∧ Nearer s s₁ j p := by
  have hcommitting := h.fits.control.not_committing hin
  have hfalse {t : Log ι} (ht : t.committing = false) {q : Prop} : t.committing = true → q := by
    intro htrue
    rw [ht] at htrue
    contradiction
  cases hpc : s.pc j with
  | inOp w =>
    by_cases hlast : s.outstanding - 1 = 0
    · have hclient : Client area s (.end_op j) none
          ({ s with outstanding := 0, committing := true }.goto j s.firstJob) := by
        simp only [Client, act, hpc, hcommitting, hlast]
        rfl
      have hfirst : s.firstJob.toEnd < 1 ∧ ¬ s.firstJob.Waits ∧ s.firstJob.pending = ∅ := by
        unfold firstJob
        split
        · exact ⟨Nat.zero_lt_one, by simp [Pc.Waits], rfl⟩
        · exact ⟨Nat.zero_lt_one, by simp [Pc.Waits], rfl⟩
      refine ⟨.end_op j, s.firstJob, _, by simp,
        ⟨nested_of_free rfl rfl hfree, none, hclient⟩, ?_, fun k => .inl rfl, hfirst.2.1, rfl,
        fun _ => ?_, claimed_goto ?_⟩
      · rw [hpc]
        exact hfirst.1
      · rw [goto_pc, update_self]
      · rw [hpc]
        exact hfirst.2.2
    · have hclient : Client area s (.end_op j) none
          ({ s with outstanding := s.outstanding - 1 }.goto j .out).wakeup := by
        simp only [Client, act, hpc, hcommitting, if_neg hlast]
        rfl
      refine ⟨.end_op j, .out, _, by simp, ⟨nested_of_free rfl rfl hfree, none, hclient⟩, ?_,
        fun k => .inr rfl, by simp [Pc.Waits], rfl, hfalse hcommitting, ?_⟩
      · rw [hpc]
        exact Nat.zero_lt_one
      · rw [claimed_wakeup]
        exact claimed_goto (by rw [hpc]; rfl)
  | dirtied w b =>
    have hfails := h.fits.not_fails hlimit hsize j
    simp only [fails, hpc] at hfails
    have hclient : Client area s (.check j) none (s.goto j (.tested w b)) := by
      simp only [Client, act, hpc, hfails]
      rfl
    refine ⟨.check j, .tested w b, _, by simp, ⟨nested_of_free rfl rfl hfree, none, hclient⟩, ?_,
      fun k => .inl rfl, by simp [Pc.Waits], rfl, hfalse hcommitting, claimed_goto (by rw [hpc]; rfl)⟩
    rw [hpc]
    exact Nat.lt_succ_self 2
  | tested w b =>
    have hclient : Client area s (.log_write j) (some (.pin (area.at_ b)))
        ({ s with lh := s.absorb b }.goto j (.inOp (b :: w))) := by
      simp only [Client, act, hpc]
    refine ⟨.log_write j, .inOp (b :: w), _, by simp,
      ⟨nested_of_free rfl rfl hfree, _, hclient⟩, ?_, fun k => .inl rfl, by simp [Pc.Waits], rfl,
      hfalse hcommitting, claimed_log_write hpc⟩
    rw [hpc]
    exact Nat.lt_succ_self 1
  | _ =>
    rw [hpc] at hin
    contradiction

private theorem tally_nearer {s₁ : Log ι} {j : ι} {p : Pc} (h : Nearer s s₁ j p) :
    tally (fun _ p => Pc.toEnd p) s₁.pc < tally (fun _ p => Pc.toEnd p) s.pc := by
  have hupdate := tally_update (fun _ p => Pc.toEnd p) s.pc j p
  have hsame : tally (fun _ p => Pc.toEnd p) s₁.pc =
      tally (fun _ p => Pc.toEnd p) (update s.pc j p) := by
    refine tally_congr _ fun k => ?_
    rcases h.pc k with hk | hk <;> rw [hk]
    exact Pc.toEnd_wake _
  have hless := h.less
  omega

private theorem Nearer.waits_iff {s₁ : Log ι} {j : ι} {p : Pc} (h : Nearer s s₁ j p)
    (hin : (s.pc j).inside = true) (k : ι) : (s₁.pc k).Waits ↔ (s.pc k).Waits := by
  have hupdate : (update s.pc j p k).Waits ↔ (s.pc k).Waits := by
    by_cases hkj : k = j
    · subst hkj
      rw [update_self]
      refine ⟨fun hp => absurd hp h.calm, fun hk => ?_⟩
      rw [hk.not_inside] at hin
      contradiction
    · rw [update_of_ne hkj]
  rcases h.pc k with hk | hk
  · rw [hk, hupdate]
  · rw [hk, Pc.waits_wake, hupdate]

private theorem exists_free (hcontrol : Control area s)
    (hflat : ∀ i j, outer i = some j → outer j = none)
    (hsome : ∃ j, (s.pc j).inside = true ∧ ∀ k, outer k = some j → ¬ (s.pc k).Waits) :
    ∃ j, (s.pc j).inside = true ∧ ∀ k, outer k = some j → s.pc k = .out := by
  rcases hsome with ⟨j, hin, hnone⟩
  by_cases hfree : ∀ k, outer k = some j → s.pc k = .out
  · exact ⟨j, hin, hfree⟩
  · -- the operation under way inside `j` is not waiting, so it is inside as well
    push Not at hfree
    rcases hfree with ⟨k, hk, hactive⟩
    have hinside : (s.pc k).inside = true := by
      have hcalm := hcontrol.calm (hcontrol.not_committing hin) k
      have hwaits := hnone k hk
      cases hpc : s.pc k with
      | out => exact absurd hpc hactive
      | begin_op => exact absurd (.inl hpc) hwaits
      | asleep => exact absurd (.inr hpc) hwaits
      | inOp w => rfl
      | dirtied w b => rfl
      | tested w b => rfl
      | commit job st =>
        rw [hpc] at hcalm
        contradiction
      | leave =>
        rw [hpc] at hcalm
        contradiction
    refine ⟨k, hinside, fun x hx => ?_⟩
    rw [hflat x k hx] at hk
    contradiction

private theorem settled (h : Live area outer s)
    (hheld : ∀ j, (s.pc j).inside = true → ∃ k, outer k = some j ∧ (s.pc k).Waits) :
    s.outstanding = (s.waitingInside outer).card ∧ s.claimed = s.lh.length := by
  have hcontrol := h.fits.control
  have hcoming : s.coming = ∅ := by
    by_contra hne
    rcases Finset.nonempty_of_ne_empty hne with ⟨b, hb⟩
    rcases (mem_coming.mp hb).1 with ⟨j, hj⟩
    have hin : (s.pc j).inside = true := by
      cases hpc : s.pc j <;> simp [hpc, Pc.pending, Pc.inside] at hj ⊢
    rcases hheld j hin with ⟨k, hk, hwaits⟩
    rcases h.nests.inOp k j hk hwaits.ne_out with ⟨w, hw⟩
    rw [hw] at hj
    simp [Pc.pending] at hj
  have hle := hcontrol.le_outstanding h.nests
  have hge : s.outstanding ≤ (s.waitingInside outer).card := by
    have hsub : (Finset.univ.filter fun j => (s.pc j).inside = true) ⊆
        (s.waitingInside outer).image fun k => (outer k).getD k := by
      intro j hj
      rcases hheld j (Finset.mem_filter.mp hj).2 with ⟨k, hk, hwaits⟩
      refine Finset.mem_image.mpr ⟨k, Finset.mem_filter.mpr ⟨Finset.mem_univ k, hwaits, ?_⟩, ?_⟩
      · rw [hk]
        rfl
      · rw [hk, Option.getD_some]
    have hcard := (Finset.card_le_card hsub).trans Finset.card_image_le
    rw [Finset.card_filter] at hcard
    rw [hcontrol.count]
    exact hcard
  constructor
  · omega
  · rw [claimed, hcoming, Finset.card_empty, Nat.add_zero]

private theorem reaches_in (hlimit : area.opBlocks < maxOpBlocks) (hsize : logSize ≤ area.size)
    (hflat : ∀ i j, outer i = some j → outer j = none) (n : Nat) (h : Live area outer s)
    (hup : s.boot = .up) (hcommitting : s.committing = false) (hwaits : (s.pc i).Waits)
    (hroom : s.waitingInside outer = ∅ ∨
      s.claimed + ((s.waitingInside outer).card + 1) * maxOpBlocks ≤ logSize)
    (hn : tally (fun _ p => Pc.toEnd p) s.pc < n) :
    ∃ s', Reaches area outer s s' ∧ s'.pc i = .inOp [] := by
  induction n generalizing s with
  | zero => omega
  | succ n ih =>
    by_cases hsome : ∃ j, (s.pc j).inside = true ∧ ∀ k, outer k = some j → ¬ (s.pc k).Waits
    · rcases exists_free h.fits.control hflat hsome with ⟨j, hin, hfree⟩
      rcases step_inside h hlimit hsize hin hfree with ⟨a, p, s₁, hcrash, hstep, hnear⟩
      have hlive := h.step hlimit.le hflat hstep
      have hwaits₁ := (hnear.waits_iff hin i).mpr hwaits
      have hsame : s₁.waitingInside outer = s.waitingInside outer :=
        Finset.filter_congr fun k _ => by rw [hnear.waits_iff hin k]
      have hrest : ∃ s', Reaches area outer s₁ s' ∧ s'.pc i = .inOp [] := by
        cases hcommit : s₁.committing with
        | false =>
          have hless := tally_nearer hnear
          rw [← hsame, ← hnear.claimed] at hroom
          exact ih hlive (hnear.boot.trans hup) hcommit hwaits₁ hroom (by omega)
        | true =>
          have hfirst := hnear.commits hcommit
          unfold firstJob at hfirst
          split at hfirst
          · exact reaches_commit hlimit.le hflat _ hlive hfirst hwaits₁ (le_refl _)
          · exact reaches_leave hlimit.le hflat hlive hfirst hwaits₁
      rcases hrest with ⟨s', hreach, hin'⟩
      exact ⟨s', .head hstep hcrash hreach, hin'⟩
    · push Not at hsome
      rcases settled h hsome with ⟨hout, hclaimed⟩
      apply enters_of_not_busy h hwaits
      rcases hroom with hnone | hroom
      · rw [hnone, Finset.card_empty] at hout
        exact h.fits.control.not_busy hup hcommitting hout
      · rw [hclaimed, ← hout] at hroom
        simp only [busy, hcommitting, Bool.false_or, decide_eq_false_iff_not]
        omega

/-- Two operations of one process: that of `exec` and, inside it, one of `filewrite`. -/
inductive Ops where
  | exec | filewrite
deriving DecidableEq

instance : Fintype Ops where
  elems := {.exec, .filewrite}
  complete o := by cases o <;> decide

def Ops.around : Ops → Option Ops
  | .exec => none
  | .filewrite => some .exec

/-- `filewrite` from its `begin_op` to its `end_op`, for `n` blocks. -/
def filewriteOp (first n : Nat) : List (LogAct Ops) :=
  [.call .filewrite, .test .filewrite] ++
    (List.range n).flatMap (fun b =>
      [.modify .filewrite (first + b) fun _ => 0, .check .filewrite, .log_write .filewrite]) ++
    [.end_op .filewrite]

end Log

end OsSessional.Storage
