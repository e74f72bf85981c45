import OsSessional.Lib.Runs
import OsSessional.Storage.LogControl

/-!
# Space in the log

`begin_op` lets a call in when the blocks logged so far and `MAXOPBLOCKS` for every call inside fit
`LOGSIZE`. The blocks logged together with what the calls inside may still log stay below that, with
two blocks to spare for each block a call leaves unused. As one block of the log area is the header,
a call may log fewer than `MAXOPBLOCKS` blocks.
-/

namespace OsSessional.Storage

open Function (update update_self update_of_ne)
open Paging (maxOpBlocks)

namespace Log

variable {ι : Type} [Fintype ι] [DecidableEq ι] {area : LogArea} {s s' : Log ι} {i : ι}

/-- The blocks logged and those that may still be logged fit the log. -/
structure Fits (area : LogArea) (s : Log ι) : Prop where
  control : Control area s
  room : s.boot = .up → s.lh.length + s.spare area + 2 * (maxOpBlocks - area.opBlocks) ≤ logSize

private theorem room_stay {lh : List Nat} {k : Nat} (p : Pc)
    (hspare : p.spare area.opBlocks ≤ (s.pc i).spare area.opBlocks)
    (hroom : lh.length + s.spare area + k ≤ logSize) :
    lh.length + (s.goto i p).spare area + k ≤ logSize := by
  have hgoto := spare_goto area s i p
  omega

omit [Fintype ι] [DecidableEq ι] in
private theorem length_absorb (b : Nat) :
    (s.absorb b).length = if b ∈ s.lh then s.lh.length else s.lh.length + 1 := by
  unfold absorb
  split
  · rfl
  · rw [List.length_append, List.length_singleton]

omit [DecidableEq ι] in
private theorem Control.spare_zero (h : Control area s) (hout : s.outstanding = 0) :
    s.spare area = 0 := by
  have hle := spare_le_inside area s
  rw [← h.count, hout] at hle
  omega

omit [DecidableEq ι] in
private theorem Control.spare_logs (h : Control area s) {w : List Nat} {b : Nat}
    (hpc : s.pc i = .tested w b) (hnew : b ∉ s.lh) :
    (Pc.inOp (b :: w)).spare area.opBlocks + 1 = (s.pc i).spare area.opBlocks := by
  have hlogged : b ∉ w := by
    intro hb
    refine hnew (h.logged i b ?_)
    rw [hpc]
    exact hb
  have hlimit := h.limit i
  rw [hpc] at hlimit ⊢
  simp only [Pc.blocks, List.dedup_cons_of_notMem hlogged, List.length_cons] at hlimit
  simp only [Pc.spare, Pc.inside, Pc.logged, if_true, List.dedup_cons_of_notMem hlogged,
    List.length_cons]
  omega

omit [Fintype ι] [DecidableEq ι] in
private theorem spare_absorbed (area : LogArea) {w : List Nat} {b : Nat} (hpc : s.pc i = .tested w b) :
    (Pc.inOp (b :: w)).spare area.opBlocks ≤ (s.pc i).spare area.opBlocks := by
  rw [hpc]
  simp only [Pc.spare, Pc.inside, Pc.logged, if_true]
  by_cases hb : b ∈ w
  · rw [List.dedup_cons_of_mem hb]
  · rw [List.dedup_cons_of_notMem hb, List.length_cons]
    omega

omit [DecidableEq ι] in
private theorem Control.room_enters (h : Control area s) (hboot : s.boot = .up) (hbusy : s.busy = false)
    (hlimit : area.opBlocks ≤ maxOpBlocks) :
    s.lh.length + (s.spare area + area.opBlocks) + 2 * (maxOpBlocks - area.opBlocks) ≤ logSize := by
  simp only [busy, Bool.or_eq_false_iff, decide_eq_false_iff_not, not_lt] at hbusy
  rcases hbusy with ⟨hcommitting, hroom⟩
  have hspare := spare_le_inside area s
  rw [← h.count] at hspare
  rcases Nat.eq_zero_or_pos s.outstanding with hzero | hpos
  · rw [h.idle hboot hcommitting hzero, h.spare_zero hzero, List.length_nil]
    simp only [logSize, maxOpBlocks] at hlimit ⊢
    omega
  · have hcalls : (s.outstanding + 1) * area.opBlocks + (s.outstanding + 1) * (maxOpBlocks - area.opBlocks) =
        (s.outstanding + 1) * maxOpBlocks := by
      rw [← Nat.mul_add, Nat.add_sub_cancel' hlimit]
    have htwo : 2 * (maxOpBlocks - area.opBlocks) ≤ (s.outstanding + 1) * (maxOpBlocks - area.opBlocks) :=
      Nat.mul_le_mul_right _ (by omega)
    rw [Nat.succ_mul] at hcalls
    omega

theorem Fits.step {a : LogAct ι} {io : Option Io} (hlimit : area.opBlocks ≤ maxOpBlocks)
    (h : Fits area s) (hstep : Client area s a io s') : Fits area s' := by
  refine ⟨h.control.step hstep, fun hup => ?_⟩
  cases act_cases hstep with
  | @call i hboot hpc => exact room_stay _ (by rw [hpc]; exact Nat.le_refl _) (h.room hup)
  | @waits i hpc hbusy => exact room_stay _ (by rw [hpc]; exact Nat.le_refl _) (h.room hup)
  | @enters i hpc hbusy =>
    have hroom := h.control.room_enters hup hbusy hlimit
    have hgoto := spare_goto area s i (.inOp [])
    rw [hpc] at hgoto
    have hspare : (s.goto i (.inOp [])).spare area = s.spare area + area.opBlocks := hgoto
    rw [← hspare] at hroom
    exact hroom
  | see hboot => exact h.room hup
  | @modify i w b v hpc _ _ _ => exact room_stay _ (by rw [hpc]; exact Nat.le_refl _) (h.room hup)
  | @check i w b hpc hpanics => exact room_stay _ (by rw [hpc]; exact Nat.le_refl _) (h.room hup)
  | @log_write i w b hpc =>
    have hroom := h.room hup
    have hgoto := spare_goto area s i (.inOp (b :: w))
    have hgoal : (s.absorb b).length + (s.goto i (.inOp (b :: w))).spare area +
        2 * (maxOpBlocks - area.opBlocks) ≤ logSize := by
      rw [length_absorb]
      split
      · have hspare := spare_absorbed area hpc
        omega
      · next hnew =>
        have hspare := h.control.spare_logs hpc hnew
        omega
    exact hgoal
  | @ends i w hpc hcommitting hmore =>
    rw [wakeup_lh, spare_wakeup]
    exact room_stay _ (Nat.zero_le _) (h.room hup)
  | @lastEnds i w hpc hcommitting hlast =>
    refine room_stay s.firstJob ?_ (h.room hup)
    have hzero : s.firstJob.spare area.opBlocks = 0 := by
      unfold firstJob
      split <;> rfl
    rw [hzero]
    exact Nat.zero_le _
  | @works i v job job' st st' io hpc hjob =>
    have hlh : (job'.head s.lh).length ≤ s.lh.length := by
      cases job' <;> simp [Job.head]
    have hroom := h.room hup
    have hgoal : (job'.head s.lh).length + s.spare area + 2 * (maxOpBlocks - area.opBlocks) ≤ logSize := by
      omega
    exact room_stay (.commit job' st') (Nat.zero_le _) hgoal
  | worked hpc hjob => exact room_stay _ (Nat.zero_le _) (h.room hup)
  | leave hpc =>
    rw [wakeup_lh, spare_wakeup]
    exact room_stay _ (Nat.zero_le _) (h.room hup)
  | @readHead v hboot =>
    dsimp only at hup
    split at hup <;> contradiction
  | recovers hboot hjob => contradiction
  | @recovered v job st io hboot hjob =>
    have hzero : s.spare area = 0 := by
      refine tally_eq_zero _ fun j => ?_
      rw [(h.control.quiet (by rw [hboot]; simp)).1 j]
      rfl
    have hnil : s.lh = [] := h.control.cleared.2.2 st ((doJob_none hjob).1 ▸ hboot)
    have hgoal : s.lh.length + s.spare area + 2 * (maxOpBlocks - area.opBlocks) ≤ logSize := by
      rw [hzero, hnil, List.length_nil]
      simp only [logSize, maxOpBlocks]
      omega
    exact hgoal
  | crash => contradiction

omit [DecidableEq ι] in
theorem fits_reset : Fits area (reset : Log ι) := ⟨control_reset, fun hup => nomatch hup⟩

/-- The steps of the log, whatever the reads return. -/
def Step (area : LogArea) (s : Log ι) (a : LogAct ι) (s' : Log ι) : Prop :=
  ∃ io, Client area s a io s'

private theorem fits_of_run {as : List (LogAct ι)} (hlimit : area.opBlocks ≤ maxOpBlocks)
    (hrun : Run (Step area) reset as s) : Fits area s :=
  hrun.keeps (fun _ _ _ h ⟨_, hstep⟩ => h.step hlimit hstep) fits_reset

omit [DecidableEq ι] in
theorem Fits.not_fails (h : Fits area s) (hlimit : area.opBlocks < maxOpBlocks)
    (hsize : logSize ≤ area.size) (i : ι) : s.fails area i = false := by
  unfold fails
  cases hpc : s.pc i with
  | inOp w => exact h.control.not_committing (i := i) (by rw [hpc]; rfl)
  | dirtied w b =>
    have hroom := h.room (h.control.up (i := i) (by rw [hpc]; simp))
    have hout := h.control.outstanding_pos (i := i) (by rw [hpc]; rfl)
    simp only [panics, Bool.or_eq_false_iff, decide_eq_false_iff_not]
    omega
  | _ => rfl

section Full

omit [Fintype ι] in
private theorem run_enters (area : LogArea) (hboot : s.boot = .up) (hpc : s.pc i = .out) (hbusy : s.busy = false) :
    Run (Step area) s [.call i, .test i]
      ({ s with outstanding := s.outstanding + 1 }.goto i (.inOp [])) := by
  have hcall : Step area s (.call i) (s.goto i .begin_op) :=
    ⟨none, by simp only [Client, act, hboot, hpc]⟩
  have htest : Step area (s.goto i .begin_op) (.test i)
      ({ s.goto i .begin_op with outstanding := s.outstanding + 1 }.goto i (.inOp [])) :=
    ⟨none, by simp [Client, act, goto_pc, update_self, show (s.goto i .begin_op).busy = false from hbusy]⟩
  have hsame : ({ s.goto i .begin_op with outstanding := s.outstanding + 1 } : Log ι).goto i (.inOp []) =
      { s with outstanding := s.outstanding + 1 }.goto i (.inOp []) := by
    simp [goto]
  rw [hsame] at htest
  exact .cons hcall (.cons htest (.nil _))

omit [Fintype ι] in
private theorem step_modify (area : LogArea) {w : List Nat} {b : Nat} (hpc : s.pc i = .inOp w)
    (hhome : area.Home (area.at_ b)) (hword : b < 2 ^ 32) (hnew : b ∉ w)
    (hnodup : w.Nodup) (hlimit : w.length < area.opBlocks) :
    Step area s (.modify i b fun _ => 0) (s.goto i (.dirtied w b)) := by
  refine ⟨some (.put (area.at_ b) fun _ => 0), ?_⟩
  have hlen : (b :: w).dedup.length ≤ area.opBlocks := by
    rw [List.dedup_cons_of_notMem hnew, hnodup.dedup]
    exact hlimit
  simp only [Client, act, hpc]
  rw [if_pos ⟨hhome, hword, hlen⟩]

omit [Fintype ι] [DecidableEq ι] in
private theorem not_panics (hsize : area.size = logSize) (hlen : s.lh.length + 1 < logSize)
    (hout : 0 < s.outstanding) : s.panics area = false := by
  simp only [panics, Bool.or_eq_false_iff, decide_eq_false_iff_not]
  omega

omit [Fintype ι] in
private theorem run_log_write (area : LogArea) {w : List Nat} {b : Nat} (hpc : s.pc i = .dirtied w b)
    (hpanics : s.panics area = false) (hnew : b ∉ s.lh) :
    Run (Step area) s [.check i, .log_write i]
      ({ s with lh := s.lh ++ [b] }.goto i (.inOp (b :: w))) := by
  have hcheck : Step area s (.check i) (s.goto i (.tested w b)) := by
    refine ⟨none, ?_⟩
    simp only [Client, act, hpc, hpanics]
    rfl
  have hlog : Step area (s.goto i (.tested w b)) (.log_write i)
      ({ s.goto i (.tested w b) with lh := s.absorb b }.goto i (.inOp (b :: w))) :=
    ⟨some (.pin (area.at_ b)), by simp only [Client, act, goto_pc, update_self]; rfl⟩
  have hsame : ({ s.goto i (.tested w b) with lh := s.absorb b } : Log ι).goto i (.inOp (b :: w)) =
      { s with lh := s.lh ++ [b] }.goto i (.inOp (b :: w)) := by
    simp [goto, absorb, hnew]
  rw [hsame] at hlog
  exact .cons hcheck (.cons hlog (.nil _))

omit [Fintype ι] in
private theorem run_logs {b : Nat} (k : Nat) (hpc : s.pc i = .inOp []) (hout : 0 < s.outstanding)
    (hhome : area.start + area.size ≤ b) (hword : b + k ≤ 2 ^ 32) (hnew : ∀ x ∈ s.lh, x < b)
    (hlimit : k ≤ area.opBlocks) (hfits : s.lh.length + k < logSize) (hsize : area.size = logSize) :
    ∃ as, Run (Step area) s as
      ({ s with lh := s.lh ++ List.range' b k }.goto i (.inOp (List.range' b k).reverse)) := by
  induction k with
  | zero =>
    have hsame : ({ s with lh := s.lh ++ List.range' b 0 } : Log ι).goto i
        (.inOp (List.range' b 0).reverse) = s := by
      simp [goto, ← hpc]
    rw [hsame]
    exact ⟨[], .nil s⟩
  | succ k ih =>
    rcases ih (by omega) (by omega) (by omega) with ⟨as, hrun⟩
    have hnotin : b + k ∉ (List.range' b k).reverse := by simp
    have hfresh : b + k ∉ s.lh ++ List.range' b k := by
      simp only [List.mem_append, List.mem_range'_1, not_or, not_and, not_lt]
      exact ⟨fun hb => by have := hnew _ hb; omega, fun _ => le_refl _⟩
    have hmodify := step_modify area (i := i) (b := b + k)
      (s := ({ s with lh := s.lh ++ List.range' b k } : Log ι).goto i (.inOp (List.range' b k).reverse))
      (by rw [goto_pc, update_self]) ⟨rfl, Or.inr (hhome.trans (Nat.le_add_right b k))⟩ (by omega)
      hnotin (List.nodup_reverse.mpr List.nodup_range')
      (by rw [List.length_reverse, List.length_range']; omega)
    have hlogs := run_log_write area (i := i) (b := b + k) (w := (List.range' b k).reverse)
      (s := (({ s with lh := s.lh ++ List.range' b k } : Log ι).goto i
        (.inOp (List.range' b k).reverse)).goto i (.dirtied (List.range' b k).reverse (b + k)))
      (by rw [goto_pc, update_self])
      (not_panics hsize
        (by rw [goto_lh, goto_lh, List.length_append, List.length_range']; omega) hout) hfresh
    have hlogged := hrun.append (.cons hmodify hlogs)
    refine ⟨as ++ [.modify i (b + k) fun _ => 0, .check i, .log_write i], ?_⟩
    convert hlogged using 1
    simp [goto, List.range'_concat]

omit [Fintype ι] in
private theorem run_fills (area : LogArea) {b : Nat} (k : Nat) (hpc : s.pc i = .inOp []) (hout : s.outstanding = 3)
    (hhome : area.start + area.size ≤ b) (hword : b + k ≤ 2 ^ 32) (hnew : ∀ x ∈ s.lh, x < b)
    (hlimit : k ≤ area.opBlocks) (hfits : s.lh.length + k < logSize) (hsize : area.size = logSize) :
    ∃ as, ∃ s', Run (Step area) s as s' ∧ s'.outstanding = 3 ∧ s'.lh.length = s.lh.length + k ∧
      (∀ x ∈ s'.lh, x < b + k) ∧ s'.pc i = .inOp (List.range' b k).reverse ∧
      ∀ j, j ≠ i → s'.pc j = s.pc j := by
  rcases run_logs k hpc (hout ▸ Nat.succ_pos 2) hhome hword hnew hlimit hfits hsize with ⟨as, hrun⟩
  refine ⟨as, _, hrun, hout, ?_, ?_, ?_, fun j hj => ?_⟩
  · rw [goto_lh, List.length_append, List.length_range']
  · intro x hx
    rw [goto_lh, List.mem_append, List.mem_range'_1] at hx
    rcases hx with hx | hx
    · exact Nat.lt_add_right k (hnew x hx)
    · exact hx.2
  · rw [goto_pc, update_self]
  · rw [goto_pc, update_of_ne hj]

private theorem readHead_zero : readHead (fun _ => 0) = [] := rfl

omit [Fintype ι] in
private theorem run_recovers (area : LogArea) :
    ∃ as, Run (Step area) (reset : Log ι) as { (reset : Log ι) with boot := .up } := by
  have hread : Step area (reset : Log ι) (.recover fun _ => 0)
      { (reset : Log ι) with boot := .work .clear .read } := by
    refine ⟨some (.see area.header fun _ => 0), ?_⟩
    simp [Client, act, reset, readHead_zero]
  have hwork (st st' : Stage) (io : Option Io)
      (hjob : (reset : Log ι).doJob area .clear (fun _ => 0) st = (some (.clear, st'), io)) :
      Step area { (reset : Log ι) with boot := .work .clear st } (.recover fun _ => 0)
        { (reset : Log ι) with boot := .work .clear st' } := by
    have hjob' : doJob area { (reset : Log ι) with boot := .work .clear st } .clear (fun _ => 0) st =
        (some (.clear, st'), io) := hjob
    refine ⟨io, ?_⟩
    simp only [Client, act, hjob']
    rfl
  have hlast : Step area { (reset : Log ι) with boot := .work .clear .flush } (.recover fun _ => 0)
      { (reset : Log ι) with boot := .up } := ⟨_, rfl⟩
  exact ⟨_, .cons hread (.cons (hwork _ _ _ rfl) (.cons (hwork _ _ _ rfl) (.cons hlast (.nil _))))⟩

omit [Fintype ι] in
private theorem run_three (area : LogArea) {i j k : ι} (hij : i ≠ j) (hik : i ≠ k) (hjk : j ≠ k) :
    ∃ as, ∃ s : Log ι, Run (Step area) reset as s ∧ s.outstanding = 3 ∧ s.lh = [] ∧
      s.pc i = .inOp [] ∧ s.pc j = .inOp [] ∧ s.pc k = .inOp [] := by
  rcases run_recovers (ι := ι) area with ⟨as, hup⟩
  have hfirst := run_enters area (s := { (reset : Log ι) with boot := .up }) (i := i) rfl rfl rfl
  have hsecond := run_enters area (i := j)
    (s := ({ (reset : Log ι) with boot := .up, outstanding := 1 }).goto i (.inOp []))
    rfl (by rw [goto_pc, update_of_ne hij.symm]; rfl) rfl
  have hthird := run_enters area (i := k)
    (s := (({ (reset : Log ι) with boot := .up, outstanding := 2 }).goto i (.inOp [])).goto j (.inOp []))
    rfl (by rw [goto_pc, update_of_ne hjk.symm, goto_pc, update_of_ne hik.symm]; rfl) rfl
  refine ⟨_, _, hup.append (hfirst.append (hsecond.append hthird)), rfl, rfl, ?_, ?_, ?_⟩
  · rw [goto_pc, update_of_ne hik, goto_pc, update_of_ne hij, goto_pc, update_self]
  · rw [goto_pc, update_of_ne hjk, goto_pc, update_self]
  · rw [goto_pc, update_self]

private theorem exists_fails (hcard : 3 ≤ Fintype.card ι) (hsize : area.size = logSize)
    (hwords : area.start + 2 * logSize ≤ 2 ^ 32) (hmany : maxOpBlocks ≤ area.opBlocks) :
    ∃ as, ∃ s : Log ι, Run (Step area) reset as s ∧ ∃ i, s.fails area i = true := by
  rcases Fintype.two_lt_card_iff.mp hcard with ⟨i, j, k, hij, hik, hjk⟩
  rcases run_three area hij hik hjk with ⟨as, s, hrun, hout, hlh, hi, hj, hk⟩
  have hthirty : logSize = 30 := rfl
  have hten : maxOpBlocks = 10 := rfl
  have hzero : s.lh.length = 0 := by rw [hlh, List.length_nil]
  rcases run_fills area (b := area.start + area.size) 10 hi hout (le_refl _) (by omega)
    (by simp [hlh]) hmany (by omega) hsize with ⟨as₁, s₁, h₁, hout₁, hlen₁, hlow₁, -, hpc₁⟩
  rcases run_fills area (i := j) 10 ((hpc₁ j hij.symm).trans hj) hout₁ (Nat.le_add_right _ _) (by omega)
    hlow₁ hmany (by omega) hsize with ⟨as₂, s₂, h₂, hout₂, hlen₂, hlow₂, -, hpc₂⟩
  rcases run_fills area (i := k) 9 ((hpc₂ k hjk.symm).trans ((hpc₁ k hik.symm).trans hk)) hout₂ (by omega)
    (by omega) hlow₂ (by omega) (by omega) hsize with ⟨as₃, s₃, h₃, hout₃, hlen₃, -, hk₃, -⟩
  have hlast := step_modify area (b := area.start + area.size + 10 + 10 + 9) hk₃
    ⟨rfl, Or.inr (by show _ ≤ area.start + area.size + 10 + 10 + 9; omega)⟩ (by omega) (by simp)
    (List.nodup_reverse.mpr List.nodup_range')
    (by rw [List.length_reverse, List.length_range']; omega)
  refine ⟨_, _, hrun.append (h₁.append (h₂.append (h₃.append (.cons hlast (.nil _))))), k, ?_⟩
  have hpanics : s₃.panics area = true := by
    simp only [panics, Bool.or_eq_true, decide_eq_true_eq]
    omega
  unfold fails
  rw [goto_pc, update_self]
  exact hpanics

end Full

/-- With the log area that `mkfs` lays out, whatever three or more processes do, no test of
`log_write` and `end_op` panics if every call writes fewer than `MAXOPBLOCKS` blocks; calls that
write `MAXOPBLOCKS` can make one panic. -/
theorem never_fails_iff (hcard : 3 ≤ Fintype.card ι) (hsize : area.size = logSize)
    (hwords : area.start + 2 * logSize ≤ 2 ^ 32) :
    (∀ as, ∀ s : Log ι, Run (Step area) reset as s → ∀ i, s.fails area i = false) ↔
      area.opBlocks < maxOpBlocks := by
  constructor
  · intro hnever
    by_contra hmany
    rcases exists_fails hcard hsize hwords (not_lt.mp hmany) with ⟨as, s, hrun, i, hfails⟩
    rw [hnever as s hrun i] at hfails
    contradiction
  · intro hlimit as s hrun i
    exact (fits_of_run hlimit.le hrun).not_fails hlimit hsize.ge i

/-- The log of the file system that `mkfs` makes. -/
def mkfsLog : LogArea := ⟨1, 2, logSize, maxOpBlocks - 1⟩

theorem never_fails_iff_mkfs : mkfsLog.opBlocks = 9 ∧
    ((∀ as, ∀ s : Log (Fin 3), Run (Step mkfsLog) reset as s → ∀ i, s.fails mkfsLog i = false) ↔
      mkfsLog.opBlocks < maxOpBlocks) :=
  ⟨rfl, never_fails_iff (by decide) rfl (by decide)⟩

end Log

end OsSessional.Storage
