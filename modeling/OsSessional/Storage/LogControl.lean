import OsSessional.Lib.Threads
import OsSessional.Storage.Log

/-!
# Who is inside and who commits

`log.outstanding` counts the calls between `begin_op` and `end_op`; nobody commits while one of them
is inside, one process at a time commits, and the in-memory log is empty when nobody is inside and
nobody commits. These hold over all interleavings of the processes, crashes and recoveries.
-/

namespace OsSessional.Storage

open Function (update update_self update_of_ne)
open Paging (maxOpBlocks)

namespace Pc

/-- Between `begin_op` and `end_op`. -/
def inside : Pc → Bool
  | .inOp _ => true
  | .dirtied _ _ => true
  | .tested _ _ => true
  | _ => false

/-- In `end_op`, with `log.committing` set. -/
def working : Pc → Bool
  | .commit _ _ => true
  | .leave => true
  | _ => false

/-- The blocks the call has logged. -/
def logged : Pc → List Nat
  | .inOp w => w
  | .dirtied w _ => w
  | .tested w _ => w
  | _ => []

/-- With the one it is about to log. -/
def blocks : Pc → List Nat
  | .inOp w => w
  | .dirtied w b => b :: w
  | .tested w b => b :: w
  | _ => []

/-- How many blocks the call may still add, with `limit` for each call. -/
def spare (limit : Nat) (p : Pc) : Nat := if p.inside then limit - p.logged.dedup.length else 0

@[simp] theorem inside_wake (p : Pc) : p.wake.inside = p.inside := by cases p <;> rfl
@[simp] theorem working_wake (p : Pc) : p.wake.working = p.working := by cases p <;> rfl
@[simp] theorem logged_wake (p : Pc) : p.wake.logged = p.logged := by cases p <;> rfl
@[simp] theorem blocks_wake (p : Pc) : p.wake.blocks = p.blocks := by cases p <;> rfl
@[simp] theorem spare_wake (limit : Nat) (p : Pc) : p.wake.spare limit = p.spare limit := by
  cases p <;> rfl

private theorem spare_le (limit : Nat) (p : Pc) : p.spare limit ≤ if p.inside then limit else 0 := by
  unfold spare
  split
  · exact Nat.sub_le _ _
  · exact le_refl _

end Pc

namespace Log

section Fields

variable {ι : Type} (s : Log ι)

@[simp] theorem wakeup_lh : s.wakeup.lh = s.lh := rfl
@[simp] theorem wakeup_outstanding : s.wakeup.outstanding = s.outstanding := rfl
@[simp] theorem wakeup_committing : s.wakeup.committing = s.committing := rfl
@[simp] theorem wakeup_boot : s.wakeup.boot = s.boot := rfl
@[simp] theorem wakeup_pc (j : ι) : s.wakeup.pc j = (s.pc j).wake := rfl

variable [DecidableEq ι] (i : ι) (p : Pc)

@[simp] theorem goto_lh : (s.goto i p).lh = s.lh := rfl
@[simp] theorem goto_outstanding : (s.goto i p).outstanding = s.outstanding := rfl
@[simp] theorem goto_committing : (s.goto i p).committing = s.committing := rfl
@[simp] theorem goto_boot : (s.goto i p).boot = s.boot := rfl
@[simp] theorem goto_pc : (s.goto i p).pc = update s.pc i p := rfl

end Fields

variable {ι : Type} [Fintype ι] [DecidableEq ι] {area : LogArea} {s s' : Log ι} {i : ι}

omit [Fintype ι] [DecidableEq ι] in
theorem wakeup_working {j : ι} (hworks : (s.wakeup.pc j).working = true) : s.wakeup.pc j = s.pc j := by
  rw [wakeup_pc] at hworks ⊢
  cases hpc : s.pc j with
  | asleep =>
    rw [hpc] at hworks
    contradiction
  | _ => rfl

/-- How many calls are inside. -/
def inside (s : Log ι) : Nat := tally (fun _ p => if Pc.inside p then 1 else 0) s.pc

/-- How many blocks they may still add. -/
def spare (area : LogArea) (s : Log ι) : Nat := tally (fun _ p => p.spare area.opBlocks) s.pc

/-- Who is where. -/
structure Control (area : LogArea) (s : Log ι) : Prop where
  count : s.outstanding = s.inside
  quiet : s.boot ≠ .up → (∀ i, s.pc i = .out) ∧ s.committing = false
  calm : s.committing = false → ∀ i, (s.pc i).working = false
  alone : s.committing = true → s.outstanding = 0 ∧ (∃ i, (s.pc i).working = true) ∧
    ∀ i j, (s.pc i).working = true → (s.pc j).working = true → i = j
  idle : s.boot = .up → s.committing = false → s.outstanding = 0 → s.lh = []
  cleared : (∀ i st, s.pc i = .commit .clear st → s.lh = []) ∧ (∀ i, s.pc i = .leave → s.lh = []) ∧
    ∀ st, s.boot = .work .clear st → s.lh = []
  limit : ∀ i, (s.pc i).blocks.dedup.length ≤ area.opBlocks
  logged : ∀ i, ∀ b ∈ (s.pc i).logged, b ∈ s.lh

private theorem inside_goto (s : Log ι) (i : ι) (p : Pc) :
    (s.goto i p).inside + (if (s.pc i).inside then 1 else 0) =
    s.inside + (if p.inside then 1 else 0) :=
  tally_update (fun _ p => if Pc.inside p then 1 else 0) s.pc i p

theorem spare_goto (area : LogArea) (s : Log ι) (i : ι) (p : Pc) : (s.goto i p).spare area + (s.pc i).spare area.opBlocks =
    s.spare area + p.spare area.opBlocks :=
  tally_update (fun _ p => Pc.spare area.opBlocks p) s.pc i p

omit [DecidableEq ι] in
private theorem inside_wakeup : s.wakeup.inside = s.inside :=
  tally_congr _ fun j => by rw [wakeup_pc, Pc.inside_wake]

omit [DecidableEq ι] in
theorem spare_wakeup : s.wakeup.spare area = s.spare area :=
  tally_congr _ fun j => by rw [wakeup_pc, Pc.spare_wake]

omit [Fintype ι] in
theorem update_pc {β : Type} {f : Pc → β} {p : Pc} (h : f p = f (s.pc i)) (j : ι) :
    f (update s.pc i p j) = f (s.pc j) := by
  by_cases hj : j = i
  · rw [hj, update_self, h]
  · rw [update_of_ne hj]

omit [DecidableEq ι] in
theorem spare_le_inside (area : LogArea) (s : Log ι) : s.spare area ≤ s.inside * area.opBlocks := by
  unfold spare inside tally
  rw [Finset.sum_mul]
  refine Finset.sum_le_sum fun j _ => ?_
  refine (Pc.spare_le _ _).trans ?_
  rw [ite_mul, one_mul, zero_mul]

omit [Fintype ι] [DecidableEq ι] in
theorem mem_absorb {b x : Nat} : x ∈ s.absorb b ↔ x ∈ s.lh ∨ x = b := by
  unfold absorb
  split
  · next hb => exact ⟨Or.inl, fun hx => hx.elim id fun heq => heq ▸ hb⟩
  · rw [List.mem_append, List.mem_singleton]

namespace Control

variable (h : Control area s)

include h

omit [DecidableEq ι] in
theorem outstanding_pos (hin : (s.pc i).inside = true) : 0 < s.outstanding := by
  rw [h.count]
  have hle := Finset.single_le_sum (f := fun j => if (s.pc j).inside then 1 else 0)
    (fun j _ => Nat.zero_le _) (Finset.mem_univ i)
  rw [hin] at hle
  exact hle

/-- The last call inside is the only one. -/
theorem outside_of_last (hin : (s.pc i).inside = true) (hlast : s.outstanding - 1 = 0) {j : ι}
    (hne : j ≠ i) : (s.pc j).inside = false := by
  by_contra hj
  have hle := Finset.sum_le_sum_of_subset (f := fun k => if (s.pc k).inside then 1 else 0)
    (Finset.subset_univ {j, i})
  rw [Finset.sum_pair hne, if_pos hin, if_pos (by simpa using hj)] at hle
  have hcount : 2 ≤ s.outstanding := h.count ▸ hle
  omega

omit [DecidableEq ι] in
/-- Nobody commits while a call is inside. -/
theorem not_committing (hin : (s.pc i).inside = true) : s.committing = false := by
  by_contra hcommitting
  have hzero := (h.alone (by simpa using hcommitting)).1
  have hpos := h.outstanding_pos hin
  omega

omit [DecidableEq ι] in
theorem up (hpc : s.pc i ≠ .out) : s.boot = .up := by
  by_contra hboot
  exact hpc ((h.quiet hboot).1 i)

omit [DecidableEq ι] in
theorem committing (hworks : (s.pc i).working = true) : s.committing = true := by
  by_contra hcommitting
  have hcalm := h.calm (by simpa using hcommitting) i
  rw [hworks] at hcalm
  contradiction

omit [DecidableEq ι] in
private theorem outside (hcommitting : s.committing = true) (j : ι) : (s.pc j).inside = false := by
  by_contra hin
  have hfalse := h.not_committing (i := j) (by simpa using hin)
  rw [hcommitting] at hfalse
  contradiction

omit h in
private theorem logged_nil {p : Pc} (hout : p.inside = false) : p.logged = [] := by
  cases p <;> simp [Pc.inside, Pc.logged] at hout ⊢

private theorem stay {p : Pc} (hboot : s.boot = .up) (hinside : p.inside = (s.pc i).inside)
    (hworking : p.working = false) (hold : (s.pc i).working = false)
    (hlogged : p.logged = (s.pc i).logged) (hlimit : p.blocks.dedup.length ≤ area.opBlocks) :
    Control area (s.goto i p) where
  count := by
    have hgoto := inside_goto s i p
    rw [hinside] at hgoto
    rw [goto_outstanding, h.count]
    omega
  quiet hne := absurd hboot hne
  calm hcommitting j := by
    rw [goto_pc, update_pc (f := Pc.working) (hworking.trans hold.symm) j]
    exact h.calm hcommitting j
  alone hcommitting := by
    have hsame := update_pc (s := s) (i := i) (f := Pc.working) (hworking.trans hold.symm)
    rcases h.alone hcommitting with ⟨hzero, ⟨j, hj⟩, huniq⟩
    refine ⟨hzero, ⟨j, ?_⟩, fun j k hj hk => ?_⟩
    · rw [goto_pc, hsame]
      exact hj
    · rw [goto_pc, hsame] at hj hk
      exact huniq j k hj hk
  idle := h.idle
  cleared := by
    have hworks {q : Pc} (hq : q.working = true) {j : ι} (hj : (s.goto i p).pc j = q) :
        s.pc j = q := by
      by_cases hji : j = i
      · rw [hji, goto_pc, update_self] at hj
        rw [hj, hq] at hworking
        contradiction
      · rw [goto_pc, update_of_ne hji] at hj
        exact hj
    exact ⟨fun j st hj => h.cleared.1 j st (hworks rfl hj),
      fun j hj => h.cleared.2.1 j (hworks rfl hj), h.cleared.2.2⟩
  limit j := by
    by_cases hj : j = i
    · rw [hj, goto_pc, update_self]
      exact hlimit
    · rw [goto_pc, update_of_ne hj]
      exact h.limit j
  logged j := by
    rw [goto_pc, update_pc (f := Pc.logged) hlogged j]
    exact h.logged j

omit [DecidableEq ι] in
private theorem woken : Control area s.wakeup where
  count := by
    rw [inside_wakeup]
    exact h.count
  quiet hne := by
    refine ⟨fun j => ?_, (h.quiet hne).2⟩
    rw [wakeup_pc, (h.quiet hne).1 j]
    rfl
  calm hcommitting j := by
    rw [wakeup_pc, Pc.working_wake]
    exact h.calm hcommitting j
  alone hcommitting := by
    rcases h.alone hcommitting with ⟨hzero, ⟨j, hj⟩, huniq⟩
    refine ⟨hzero, ⟨j, by rw [wakeup_pc, Pc.working_wake]; exact hj⟩, fun j k hj hk => ?_⟩
    rw [wakeup_pc, Pc.working_wake] at hj hk
    exact huniq j k hj hk
  idle := h.idle
  cleared := by
    have hworks {q : Pc} (hq : q.working = true) {j : ι} (hj : s.wakeup.pc j = q) : s.pc j = q :=
      (wakeup_working (by rw [hj]; exact hq)).symm.trans hj
    exact ⟨fun j st hj => h.cleared.1 j st (hworks rfl hj),
      fun j hj => h.cleared.2.1 j (hworks rfl hj), h.cleared.2.2⟩
  limit j := by
    rw [wakeup_pc, Pc.blocks_wake]
    exact h.limit j
  logged j := by
    rw [wakeup_pc, Pc.logged_wake]
    exact h.logged j

private theorem enters (hpc : s.pc i = .begin_op) (hbusy : s.busy = false) :
    Control area ({ s with outstanding := s.outstanding + 1 }.goto i (.inOp [])) := by
  have hboot := h.up (i := i) (by rw [hpc]; simp)
  have hcommitting : s.committing = false := by
    simp only [busy, Bool.or_eq_false_iff] at hbusy
    exact hbusy.1
  have hcalm : ∀ j, (update s.pc i (.inOp []) j).working = false := by
    intro j
    rw [update_pc (f := Pc.working) (by rw [hpc]; rfl) j]
    exact h.calm hcommitting j
  have hnot {q : Pc} (hq : q.working = true) (j : ι) : update s.pc i (.inOp []) j ≠ q := by
    intro hj
    have hfalse := hcalm j
    rw [hj, hq] at hfalse
    contradiction
  exact {
    count := by
      have hgoto := inside_goto s i (.inOp [])
      rw [hpc] at hgoto
      have hcount := h.count
      simp only [Pc.inside, Bool.false_eq_true, if_false, if_true] at hgoto
      exact (congrArg (· + 1) hcount).trans hgoto.symm
    quiet := fun hne => absurd hboot hne
    calm := fun _ => hcalm
    alone := fun htrue => by
      rw [show _ = s.committing from rfl, hcommitting] at htrue
      contradiction
    idle := fun _ _ hzero => absurd hzero (Nat.succ_ne_zero _)
    cleared := ⟨fun j st hj => absurd hj (hnot rfl j), fun j hj => absurd hj (hnot rfl j),
      h.cleared.2.2⟩
    limit := fun j => by
      by_cases hj : j = i
      · rw [hj, goto_pc, update_self]
        exact Nat.zero_le _
      · rw [goto_pc, update_of_ne hj]
        exact h.limit j
    logged := fun j => by
      rw [goto_pc, update_pc (f := Pc.logged) (by rw [hpc]; rfl) j]
      exact h.logged j }

omit [DecidableEq ι] in
private theorem no_worker (hin : (s.pc i).inside = true) {q : Pc} (hq : q.working = true) (j : ι) :
    s.pc j ≠ q := by
  intro hj
  have hcalm := h.calm (h.not_committing hin) j
  rw [hj, hq] at hcalm
  contradiction

private theorem logs {w : List Nat} {b : Nat} (hpc : s.pc i = .tested w b) :
    Control area ({ s with lh := s.absorb b }.goto i (.inOp (b :: w))) := by
  have hin : (s.pc i).inside = true := by rw [hpc]; rfl
  have hboot := h.up (i := i) (by rw [hpc]; simp)
  have hworking := update_pc (s := s) (i := i) (f := Pc.working) (p := .inOp (b :: w)) (by rw [hpc]; rfl)
  have hnot {q : Pc} (hq : q.working = true) (j : ι) : update s.pc i (.inOp (b :: w)) j ≠ q := by
    intro hj
    have hcalm := h.calm (h.not_committing hin) j
    rw [← hworking, hj, hq] at hcalm
    contradiction
  exact {
    count := by
      have hgoto := inside_goto s i (.inOp (b :: w))
      rw [hpc] at hgoto
      simp only [Pc.inside, if_true] at hgoto
      exact h.count.trans (Nat.add_right_cancel hgoto).symm
    quiet := fun hne => absurd hboot hne
    calm := fun hcommitting j => by
      rw [goto_pc, hworking]
      exact h.calm hcommitting j
    alone := fun htrue => by
      rw [show _ = s.committing from rfl, h.not_committing hin] at htrue
      contradiction
    idle := fun _ _ hzero => absurd hzero (Nat.pos_iff_ne_zero.mp (h.outstanding_pos hin))
    cleared := by
      refine ⟨fun j st hj => absurd hj (hnot rfl j), fun j hj => absurd hj (hnot rfl j), ?_⟩
      intro st hst
      rw [show _ = s.boot from rfl, hboot] at hst
      contradiction
    limit := fun j => by
      rw [goto_pc, update_pc (f := Pc.blocks) (by rw [hpc]; rfl) j]
      exact h.limit j
    logged := fun j x hx => by
      by_cases hj : j = i
      · rw [hj, goto_pc, update_self] at hx
        rcases List.mem_cons.mp hx with rfl | hx
        · exact mem_absorb.mpr (Or.inr rfl)
        · refine mem_absorb.mpr (Or.inl (h.logged i x ?_))
          rw [hpc]
          exact hx
      · rw [goto_pc, update_of_ne hj] at hx
        exact mem_absorb.mpr (Or.inl (h.logged j x hx)) }

private theorem ends {w : List Nat} (hpc : s.pc i = .inOp w) (hmore : s.outstanding - 1 ≠ 0) :
    Control area ({ s with outstanding := s.outstanding - 1 }.goto i .out) := by
  have hin : (s.pc i).inside = true := by rw [hpc]; rfl
  have hboot := h.up (i := i) (by rw [hpc]; simp)
  have hworking := update_pc (s := s) (i := i) (f := Pc.working) (p := .out) (by rw [hpc]; rfl)
  have hnot {q : Pc} (hq : q.working = true) (j : ι) : update s.pc i .out j ≠ q := by
    intro hj
    have hcalm := h.calm (h.not_committing hin) j
    rw [← hworking, hj, hq] at hcalm
    contradiction
  exact {
    count := by
      have hgoto := inside_goto s i .out
      have hcount := h.count
      rw [hpc] at hgoto
      simp only [Pc.inside, if_true, Bool.false_eq_true, if_false, Nat.add_zero] at hgoto
      have hout : s.outstanding - 1 = (s.goto i .out).inside := by omega
      exact hout
    quiet := fun hne => absurd hboot hne
    calm := fun hcommitting j => by
      rw [goto_pc, hworking]
      exact h.calm hcommitting j
    alone := fun htrue => by
      rw [show _ = s.committing from rfl, h.not_committing hin] at htrue
      contradiction
    idle := fun _ _ hzero => absurd hzero hmore
    cleared := ⟨fun j st hj => absurd hj (hnot rfl j), fun j hj => absurd hj (hnot rfl j),
      h.cleared.2.2⟩
    limit := fun j => by
      by_cases hj : j = i
      · rw [hj, goto_pc, update_self]
        exact Nat.zero_le _
      · rw [goto_pc, update_of_ne hj]
        exact h.limit j
    logged := fun j x hx => by
      by_cases hj : j = i
      · rw [hj, goto_pc, update_self] at hx
        simp [Pc.logged] at hx
      · rw [goto_pc, update_of_ne hj] at hx
        exact h.logged j x hx }

private theorem lastEnds {w : List Nat} (hpc : s.pc i = .inOp w) (hlast : s.outstanding - 1 = 0) :
    Control area ({ s with outstanding := 0, committing := true }.goto i s.firstJob) := by
  have hin : (s.pc i).inside = true := by rw [hpc]; rfl
  have hboot := h.up (i := i) (by rw [hpc]; simp)
  have hfirst : s.firstJob.working = true ∧ s.firstJob.inside = false ∧ s.firstJob.blocks = [] ∧
      s.firstJob.logged = [] := by
    unfold firstJob
    split <;> exact ⟨rfl, rfl, rfl, rfl⟩
  have hothers (j : ι) (hj : j ≠ i) : (s.pc j).working = false :=
    h.calm (h.not_committing hin) j
  exact {
    count := by
      have hgoto := inside_goto s i s.firstJob
      have hcount := h.count
      rw [hin, hfirst.2.1] at hgoto
      simp only [if_true, Bool.false_eq_true, if_false, Nat.add_zero] at hgoto
      have hzero : 0 = (s.goto i s.firstJob).inside := by omega
      exact hzero
    quiet := fun hne => absurd hboot hne
    calm := fun hfalse => by simp at hfalse
    alone := fun _ => by
      refine ⟨rfl, ⟨i, by rw [goto_pc, update_self]; exact hfirst.1⟩, ?_⟩
      have hi : ∀ j, (update s.pc i s.firstJob j).working = true → j = i := by
        intro j hj
        by_contra hne
        rw [update_of_ne hne, hothers j hne] at hj
        contradiction
      exact fun j k hj hk => (hi j hj).trans (hi k hk).symm
    idle := fun _ hfalse => by simp at hfalse
    cleared := by
      have hi {q : Pc} (hq : q.working = true) {j : ι} (hj : update s.pc i s.firstJob j = q) :
          s.firstJob = q := by
        by_cases hji : j = i
        · rw [hji, update_self] at hj
          exact hj
        · rw [update_of_ne hji] at hj
          exact absurd hj (h.no_worker hin hq j)
      refine ⟨fun j st hj => ?_, fun j hj => ?_, h.cleared.2.2⟩
      · have hfirst := hi rfl hj
        unfold firstJob at hfirst
        split at hfirst <;> simp at hfirst
      · have hfirst := hi rfl hj
        unfold firstJob at hfirst
        split at hfirst
        · simp at hfirst
        · next hempty =>
          have hnil : s.lh = [] := List.eq_nil_of_length_eq_zero (by omega)
          exact hnil
    limit := fun j => by
      by_cases hj : j = i
      · rw [hj, goto_pc, update_self, hfirst.2.2.1]
        exact Nat.zero_le _
      · rw [goto_pc, update_of_ne hj]
        exact h.limit j
    logged := fun j x hx => by
      by_cases hj : j = i
      · rw [hj, goto_pc, update_self, hfirst.2.2.2] at hx
        simp at hx
      · rw [goto_pc, update_of_ne hj] at hx
        exact h.logged j x hx }

private theorem works {p : Pc} {lh : List Nat} (hold : (s.pc i).working = true) (hnew : p.working = true)
    (hblocks : p.blocks = []) (hcleared : p = .leave ∨ (∃ st, p = .commit .clear st) → lh = []) :
    Control area ({ s with lh := lh }.goto i p) := by
  have hcommitting := h.committing hold
  have hboot := h.up (i := i) (by rintro hpc; rw [hpc] at hold; contradiction)
  have hworking := update_pc (s := s) (i := i) (f := Pc.working) (hnew.trans hold.symm)
  have houtside : p.inside = false := by cases p <;> simp_all [Pc.working, Pc.inside]
  rcases h.alone hcommitting with ⟨hzero, -, huniq⟩
  have hi {q : Pc} (hq : q.working = true) {j : ι} (hj : update s.pc i p j = q) : p = q := by
    by_cases hji : j = i
    · rw [hji, update_self] at hj
      exact hj
    · rw [update_of_ne hji] at hj
      exact absurd (huniq j i (by rw [hj]; exact hq) hold) hji
  exact {
    count := by
      have hgoto := inside_goto s i p
      rw [h.outside hcommitting i, houtside] at hgoto
      exact h.count.trans (Nat.add_right_cancel hgoto).symm
    quiet := fun hne => absurd hboot hne
    calm := fun hfalse => by
      rw [show _ = s.committing from rfl, hcommitting] at hfalse
      contradiction
    alone := fun _ => by
      refine ⟨hzero, ⟨i, by rw [goto_pc, update_self]; exact hnew⟩, fun j k hj hk => ?_⟩
      rw [goto_pc, hworking] at hj hk
      exact huniq j k hj hk
    idle := fun _ hfalse => by
      rw [show _ = s.committing from rfl, hcommitting] at hfalse
      contradiction
    cleared := by
      refine ⟨fun j st hj => hcleared (Or.inr ⟨st, hi rfl hj⟩), fun j hj => hcleared (Or.inl (hi rfl hj)), ?_⟩
      intro st hst
      rw [show _ = s.boot from rfl, hboot] at hst
      contradiction
    limit := fun j => by
      by_cases hj : j = i
      · rw [hj, goto_pc, update_self, hblocks]
        exact Nat.zero_le _
      · rw [goto_pc, update_of_ne hj]
        exact h.limit j
    logged := fun j x hx => by
      have hout : (update s.pc i p j).inside = false := by
        by_cases hj : j = i
        · rw [hj, update_self, houtside]
        · rw [update_of_ne hj, h.outside hcommitting j]
      rw [goto_pc, logged_nil hout] at hx
      simp at hx }

private theorem leaves (hpc : s.pc i = .leave) :
    Control area ({ s with committing := false }.goto i .out) := by
  have hcommitting := h.committing (i := i) (by rw [hpc]; rfl)
  have hboot := h.up (i := i) (by rw [hpc]; simp)
  rcases h.alone hcommitting with ⟨hzero, -, huniq⟩
  have hcalm (j : ι) : (update s.pc i .out j).working = false := by
    by_cases hj : j = i
    · rw [hj, update_self]
      rfl
    · rw [update_of_ne hj]
      by_contra hworks
      exact hj (huniq j i (by simpa using hworks) (by rw [hpc]; rfl))
  have hnot {q : Pc} (hq : q.working = true) (j : ι) : update s.pc i .out j ≠ q := by
    intro hj
    have hfalse := hcalm j
    rw [hj, hq] at hfalse
    contradiction
  exact {
    count := by
      have hgoto := inside_goto s i .out
      rw [hpc] at hgoto
      exact h.count.trans (Nat.add_right_cancel hgoto).symm
    quiet := fun hne => absurd hboot hne
    calm := fun _ => hcalm
    alone := fun htrue => by simp at htrue
    idle := fun _ _ _ => h.cleared.2.1 i hpc
    cleared := ⟨fun j st hj => absurd hj (hnot rfl j), fun j hj => absurd hj (hnot rfl j),
      h.cleared.2.2⟩
    limit := fun j => by
      rw [goto_pc, update_pc (f := Pc.blocks) (by rw [hpc]; rfl) j]
      exact h.limit j
    logged := fun j => by
      rw [goto_pc, update_pc (f := Pc.logged) (by rw [hpc]; rfl) j]
      exact h.logged j }

end Control

omit [DecidableEq ι] in
private theorem control_booting {s : Log ι} (hpc : ∀ i, s.pc i = .out) (hout : s.outstanding = 0)
    (hcommitting : s.committing = false) (hcleared : ∀ st, s.boot = .work .clear st → s.lh = [])
    (hup : s.boot = .up → s.lh = []) : Control area s where
  count := by
    rw [hout]
    exact (tally_eq_zero _ fun j => by rw [hpc]; rfl).symm
  quiet _ := ⟨hpc, hcommitting⟩
  calm _ j := by
    rw [hpc]
    rfl
  alone htrue := by
    rw [hcommitting] at htrue
    contradiction
  idle hboot _ _ := hup hboot
  cleared := by
    refine ⟨fun j st hj => ?_, fun j hj => ?_, hcleared⟩
    · rw [hpc] at hj
      contradiction
    · rw [hpc] at hj
      contradiction
  limit j := by
    rw [hpc]
    exact Nat.zero_le _
  logged j x hx := by
    rw [hpc] at hx
    simp [Pc.logged] at hx

omit [DecidableEq ι] in
theorem control_reset : Control area (reset : Log ι) :=
  control_booting (fun _ => rfl) rfl rfl (fun _ hst => nomatch hst) (fun hup => nomatch hup)

omit [Fintype ι] [DecidableEq ι] in
theorem doJob_none {job : Job} {v : Block} {st : Stage} {io : Option Io}
    (h : s.doJob area job v st = (none, io)) :
    job = .clear ∧ st = .flush ∧ io = some (.flush area.header) := by
  cases st with
  | flush =>
    simp only [doJob, Prod.mk.injEq, Option.map_eq_none_iff] at h
    cases job with
    | clear => exact ⟨rfl, rfl, h.2.symm⟩
    | copy tail =>
      have hnext := h.1
      by_cases htail : tail + 1 < s.lh.length <;> simp [Job.next, htail] at hnext
    | commit => exact absurd h.1 (by simp [Job.next])
    | install tail =>
      have hnext := h.1
      by_cases htail : tail + 1 < s.lh.length <;> simp [Job.next, htail] at hnext
  | read => simp [doJob] at h
  | hold v => simp [doJob] at h

theorem Control.step {a : LogAct ι} {io : Option Io} (h : Control area s)
    (hstep : Client area s a io s') : Control area s' := by
  cases act_cases hstep with
  | @call i hboot hpc =>
    exact h.stay hboot (by rw [hpc]; rfl) rfl (by rw [hpc]; rfl) (by rw [hpc]; rfl) (Nat.zero_le _)
  | @waits i hpc hbusy =>
    exact h.stay (h.up (i := i) (by rw [hpc]; simp)) (by rw [hpc]; rfl) rfl (by rw [hpc]; rfl)
      (by rw [hpc]; rfl) (Nat.zero_le _)
  | enters hpc hbusy => exact h.enters hpc hbusy
  | see hboot => exact h
  | @modify i w b v hpc hhome hword hlimit =>
    exact h.stay (h.up (i := i) (by rw [hpc]; simp)) (by rw [hpc]; rfl) rfl (by rw [hpc]; rfl)
      (by rw [hpc]; rfl) hlimit
  | @check i w b hpc hpanics =>
    have hlimit := h.limit i
    rw [hpc] at hlimit
    exact h.stay (h.up (i := i) (by rw [hpc]; simp)) (by rw [hpc]; rfl) rfl (by rw [hpc]; rfl)
      (by rw [hpc]; rfl) hlimit
  | log_write hpc => exact h.logs hpc
  | ends hpc hcommitting hmore => exact (h.ends hpc hmore).woken
  | lastEnds hpc hcommitting hlast => exact h.lastEnds hpc hlast
  | @works i v job job' st st' io hpc hjob =>
    refine h.works (by rw [hpc]; rfl) rfl rfl ?_
    rintro (hfalse | ⟨st, heq⟩)
    · contradiction
    · rw [Pc.commit.injEq] at heq
      rw [heq.1]
      rfl
  | @worked i v job st io hpc hjob =>
    refine h.works (i := i) (p := .leave) (by rw [hpc]; rfl) rfl rfl fun _ => ?_
    exact h.cleared.1 i st ((doJob_none hjob).1 ▸ hpc)
  | leave hpc => exact (h.leaves hpc).woken
  | @readHead v hboot =>
    rcases h.quiet (by rw [hboot]; simp) with ⟨hpc, hcommitting⟩
    have hout : s.outstanding = 0 := by
      rw [h.count]
      exact tally_eq_zero _ fun j => by rw [hpc]; rfl
    refine control_booting hpc hout hcommitting ?_ ?_
    · intro st hst
      dsimp only at hst ⊢
      split at hst
      · simp at hst
      · exact List.eq_nil_of_length_eq_zero (by omega)
    · intro hup
      dsimp only at hup
      split at hup <;> contradiction
  | @recovers v job job' st st' io hboot hjob =>
    rcases h.quiet (by rw [hboot]; simp) with ⟨hpc, hcommitting⟩
    have hout : s.outstanding = 0 := by
      rw [h.count]
      exact tally_eq_zero _ fun j => by rw [hpc]; rfl
    refine control_booting hpc hout hcommitting ?_ (by simp)
    intro st hst
    rw [Boot.work.injEq] at hst
    dsimp only
    rw [hst.1]
    rfl
  | @recovered v job st io hboot hjob =>
    rcases h.quiet (by rw [hboot]; simp) with ⟨hpc, hcommitting⟩
    have hout : s.outstanding = 0 := by
      rw [h.count]
      exact tally_eq_zero _ fun j => by rw [hpc]; rfl
    refine control_booting hpc hout hcommitting (by simp) fun _ => ?_
    exact h.cleared.2.2 st ((doJob_none hjob).1 ▸ hboot)
  | crash => exact control_reset

end Log

end OsSessional.Storage
