import OsSessional.Storage.LogSpace
import OsSessional.Storage.Recycling
import OsSessional.Storage.Transactions

/-!
# The file system survives a crash

The log over the buffer cache, with any number of processes and a crash at any moment, commits at
once all the writes of the calls that ran together: a restart finds what the blocks held at the last
moment when nobody was inside, and finds all of it when the last call has returned.
-/

namespace OsSessional.Storage

open Function (update update_self update_of_ne)
open Paging (maxOpBlocks)

/-- The block a process has changed and not logged yet. -/
def Pc.dirties : Pc → Option Nat
  | .dirtied _ b => some b
  | .tested _ b => some b
  | _ => none

private theorem Pc.dirties_of_outside {p : Pc} (h : p.inside = false) : p.dirties = none := by
  cases p with
  | dirtied w b => contradiction
  | tested w b => contradiction
  | _ => rfl

@[simp] theorem Pc.dirties_wake (p : Pc) : p.wake.dirties = p.dirties := by cases p <;> rfl

/-- What is seen of a step of the log. -/
def Log.event {ι : Type} (area : LogArea) (s : Log ι) : LogAct ι → Option FileEvent
  | .test _ => if s.busy then none else some .begins
  | .see _ b v => if area.Home (area.at_ b) then some (.reads (area.at_ b) v) else none
  | .modify _ b v => some (.writes (area.at_ b) v)
  | .end_op _ => some .ends
  | .work i _ =>
    match s.pc i with
    | .commit job st => job.event st
    | _ => none
  | .recover _ =>
    match s.boot with
    | .work job st => job.event st
    | _ => none
  | .crash => some .crash
  | _ => none

/-- The log with its blocks and the file store it stands for. -/
structure Safe {ι : Type} [Fintype ι] [DecidableEq ι] (area : LogArea) (s : Log ι) (t : Store)
    (f : FileStore) : Prop where
  fits : Log.Fits area s
  covers : Covers area s.lh
  active : f.active = s.outstanding
  durable : Durable area t f
  shown : s.boot = .up → Shown area t f
  off : s.boot = .readHead → t.mem = t.disk ∧ Settled area f
  recovering : ∀ job st, s.boot = .work job st → Doing area s.lh t f job ∧ Holds area s.lh t job st
  erased : s.boot = .up → s.committing = false → readHead (t.disk area.header) = []
  unlogged : s.boot = .up → s.committing = false → ∀ b, area.Home b → b.blockno ∉ s.lh →
    (∀ i, (s.pc i).dirties ≠ some b.blockno) → f.current b = f.durable b
  dirty : ∀ i b, (s.pc i).dirties = some b → area.Home (area.at_ b) ∧ b < 2 ^ 32
  committing : ∀ i job st, s.pc i = .commit job st →
    Doing area s.lh t f job ∧ Holds area s.lh t job st
  leaving : ∀ i, s.pc i = .leave → Cleared area t f

namespace Safe

variable {ι : Type} [Fintype ι] [DecidableEq ι] {area : LogArea} {s s' : Log ι} {t t' : Store}
  {f : FileStore} {i : ι} {a : LogAct ι} {io : Option Io}

theorem frame (h : Safe area s t f) (hfits : Log.Fits area s') (hlh : s'.lh = s.lh)
    (hboot : s'.boot = s.boot) (hcommitting : s'.committing = s.committing)
    (hworks : ∀ j, (s'.pc j).working = true → s'.pc j = s.pc j)
    (hdirty : ∀ j, (s'.pc j).dirties = (s.pc j).dirties) :
    Safe area s' t { f with active := s'.outstanding } where
  fits := hfits
  covers := hlh ▸ h.covers
  active := rfl
  durable := ⟨h.durable.recovered, h.durable.header⟩
  shown hup := h.shown (hboot ▸ hup)
  off hoff := h.off (hboot ▸ hoff)
  recovering job st hwork := by
    rcases h.recovering job st (hboot ▸ hwork) with ⟨hdoing, hholds⟩
    rw [hlh]
    exact ⟨hdoing.active _, hholds⟩
  erased hup hfalse := h.erased (hboot ▸ hup) (hcommitting ▸ hfalse)
  unlogged hup hfalse b hb hentry hclean := by
    rw [hlh] at hentry
    exact h.unlogged (hboot ▸ hup) (hcommitting ▸ hfalse) b hb hentry fun j hj =>
      hclean j ((hdirty j).trans hj)
  dirty j b hb := h.dirty j b ((hdirty j).symm.trans hb)
  committing j job st hpc := by
    rw [hworks j (by rw [hpc]; rfl)] at hpc
    rcases h.committing j job st hpc with ⟨hdoing, hholds⟩
    rw [hlh]
    exact ⟨hdoing.active _, hholds⟩
  leaving j hpc := by
    rw [hworks j (by rw [hpc]; rfl)] at hpc
    have hcleared := h.leaving j hpc
    exact ⟨hcleared.erased, hcleared.shown, hcleared.settled⟩

private theorem moves {p : Pc} (h : Safe area s t f) (hfits : Log.Fits area (s.goto i p))
    (hworks : p.working = false) (hdirty : p.dirties = (s.pc i).dirties) :
    Safe area (s.goto i p) t f := by
  have hframe := h.frame hfits rfl rfl rfl (fun j hj => ?_) (Log.update_pc hdirty)
  · rw [Log.goto_outstanding, ← h.active] at hframe
    exact hframe
  · by_cases hji : j = i
    · rw [hji, Log.goto_pc, update_self, hworks] at hj
      contradiction
    · rw [Log.goto_pc, update_of_ne hji]

private theorem running (hfits : Log.Fits area s) (hup : s.boot = .up) (hcommitting : s.committing = false)
    (hcovers : Covers area s.lh) (hactive : f.active = s.outstanding) (hdurable : Durable area t f)
    (hshown : Shown area t f) (herased : readHead (t.disk area.header) = [])
    (hunlogged : ∀ b, area.Home b → b.blockno ∉ s.lh →
      (∀ i, (s.pc i).dirties ≠ some b.blockno) → f.current b = f.durable b)
    (hdirty : ∀ i b, (s.pc i).dirties = some b → area.Home (area.at_ b) ∧ b < 2 ^ 32) :
    Safe area s t f where
  fits := hfits
  covers := hcovers
  active := hactive
  durable := hdurable
  shown _ := hshown
  off hoff := nomatch hup.symm.trans hoff
  recovering _ _ hwork := nomatch hup.symm.trans hwork
  erased _ _ := herased
  unlogged _ _ := hunlogged
  dirty := hdirty
  committing j job st hpc := by
    have hcalm := hfits.control.calm hcommitting j
    rw [hpc] at hcalm
    contradiction
  leaving j hpc := by
    have hcalm := hfits.control.calm hcommitting j
    rw [hpc] at hcalm
    contradiction

private theorem working (hfits : Log.Fits area s) (hup : s.boot = .up) (hworks : (s.pc i).working = true)
    (hcovers : Covers area s.lh) (hactive : f.active = s.outstanding) (hdurable : Durable area t f)
    (hshown : Shown area t f)
    (hdirty : ∀ i b, (s.pc i).dirties = some b → area.Home (area.at_ b) ∧ b < 2 ^ 32)
    (hcommitting : ∀ job st, s.pc i = .commit job st →
      Doing area s.lh t f job ∧ Holds area s.lh t job st)
    (hleaving : s.pc i = .leave → Cleared area t f) : Safe area s t f := by
  have htrue := hfits.control.committing hworks
  rcases hfits.control.alone htrue with ⟨-, -, huniq⟩
  exact {
    fits := hfits
    covers := hcovers
    active := hactive
    durable := hdurable
    shown := fun _ => hshown
    off := fun hoff => nomatch hup.symm.trans hoff
    recovering := fun _ _ hwork => nomatch hup.symm.trans hwork
    erased := fun _ hfalse => nomatch htrue.symm.trans hfalse
    unlogged := fun _ hfalse => nomatch htrue.symm.trans hfalse
    dirty := hdirty
    committing := fun j job st hpc => by
      have hj : j = i := huniq j i (by rw [hpc]; rfl) hworks
      exact hcommitting job st (hj ▸ hpc)
    leaving := fun j hpc => by
      have hj : j = i := huniq j i (by rw [hpc]; rfl) hworks
      exact hleaving (hj ▸ hpc) }

private theorem modifies {w : List Nat} {b : Nat} {v : Block} (h : Safe area s t f)
    (hfits : Log.Fits area (s.goto i (.dirtied w b))) (hpc : s.pc i = .inOp w)
    (hhome : area.Home (area.at_ b)) (hword : b < 2 ^ 32) :
    Safe area (s.goto i (.dirtied w b)) (t.put (area.at_ b) v) (f.write (area.at_ b) v) := by
  have hboot := h.fits.control.up (i := i) (by rw [hpc]; simp)
  have hcommitting := h.fits.control.not_committing (i := i) (by rw [hpc]; rfl)
  refine running hfits hboot hcommitting h.covers h.active ⟨h.durable.recovered, h.durable.header⟩ ?_
    (h.erased hboot hcommitting) ?_ ?_
  · intro b' hb'
    rw [Store.put_mem, FileStore.write_current]
    by_cases heq : b' = area.at_ b
    · rw [heq, update_self, update_self]
    · rw [update_of_ne heq, update_of_ne heq]
      exact h.shown hboot b' hb'
  · intro b' hb' hentry hclean
    have hne : b' ≠ area.at_ b := by
      intro heq
      refine hclean i ?_
      rw [Log.goto_pc, update_self, heq]
      rfl
    rw [FileStore.write_current, update_of_ne hne, FileStore.write_durable]
    refine h.unlogged hboot hcommitting b' hb' hentry fun j hj => ?_
    by_cases hji : j = i
    · rw [hji, hpc] at hj
      contradiction
    · refine hclean j ?_
      rw [Log.goto_pc, update_of_ne hji]
      exact hj
  · intro j b' hb'
    by_cases hji : j = i
    · rw [hji, Log.goto_pc, update_self] at hb'
      rw [← Option.some.inj hb']
      exact ⟨hhome, hword⟩
    · rw [Log.goto_pc, update_of_ne hji] at hb'
      exact h.dirty j b' hb'

omit [Fintype ι] [DecidableEq ι] in
private theorem covers_absorb {b : Nat} (h : Covers area s.lh) (hhome : area.Home (area.at_ b))
    (hword : b < 2 ^ 32) (hroom : (s.absorb b).length < area.size)
    (hshort : (s.absorb b).length < 2 ^ 32) : Covers area (s.absorb b) := by
  refine ⟨?_, fun x hx => ?_, fun x hx => ?_, hroom, hshort⟩
  · unfold Log.absorb
    split
    · exact h.nodup
    · next hnew => exact List.nodup_append_comm.mp (List.nodup_cons.mpr ⟨hnew, h.nodup⟩)
  · rcases Log.mem_absorb.mp hx with hx | rfl
    · exact h.home x hx
    · exact hhome
  · rcases Log.mem_absorb.mp hx with hx | rfl
    · exact h.word x hx
    · exact hword

theorem logs {w : List Nat} {b : Nat} (h : Safe area s t f)
    (hfits : Log.Fits area ({ s with lh := s.absorb b }.goto i (.inOp (b :: w))))
    (hpc : s.pc i = .tested w b) (hlimit : area.opBlocks < maxOpBlocks) (hsize : logSize ≤ area.size) :
    Safe area ({ s with lh := s.absorb b }.goto i (.inOp (b :: w))) t f := by
  have hboot := h.fits.control.up (i := i) (by rw [hpc]; simp)
  have hcommitting := h.fits.control.not_committing (i := i) (by rw [hpc]; rfl)
  have hroom := hfits.room hboot
  rw [Log.goto_lh] at hroom
  rcases h.dirty i b (by rw [hpc]; rfl) with ⟨hhome, hword⟩
  have hthirty : logSize = 30 := rfl
  refine running hfits hboot hcommitting
    (covers_absorb h.covers hhome hword (by dsimp only at hroom; omega) (by dsimp only at hroom; omega))
    h.active h.durable (h.shown hboot) (h.erased hboot hcommitting) ?_ ?_
  · intro b' hb' hentry hclean
    have hnew : b'.blockno ∉ s.lh ∧ b'.blockno ≠ b := not_or.mp fun hmem =>
      hentry (Log.mem_absorb.mpr hmem)
    refine h.unlogged hboot hcommitting b' hb' hnew.1 fun j hj => ?_
    by_cases hji : j = i
    · rw [hji, hpc] at hj
      exact hnew.2 (Option.some.inj hj).symm
    · refine hclean j ?_
      rw [Log.goto_pc, update_of_ne hji]
      exact hj
  · intro j b' hb'
    by_cases hji : j = i
    · rw [hji, Log.goto_pc, update_self] at hb'
      contradiction
    · rw [Log.goto_pc, update_of_ne hji] at hb'
      exact h.dirty j b' hb'

private theorem lastEnds {w : List Nat} (h : Safe area s t f)
    (hfits : Log.Fits area ({ s with outstanding := 0, committing := true }.goto i s.firstJob))
    (hpc : s.pc i = .inOp w) (hlast : s.outstanding - 1 = 0) :
    Safe area ({ s with outstanding := 0, committing := true }.goto i s.firstJob) t
      { f with active := f.active - 1 } := by
  have hboot := h.fits.control.up (i := i) (by rw [hpc]; simp)
  have hcommitting := h.fits.control.not_committing (i := i) (by rw [hpc]; rfl)
  have hfirst : s.firstJob.working = true ∧ s.firstJob.dirties = none := by
    unfold Log.firstJob
    split <;> exact ⟨rfl, rfl⟩
  -- the other processes are outside, so nobody has a changed block that is not in the log
  have hclean (j : ι) : (s.pc j).dirties = none := by
    by_cases hji : j = i
    · rw [hji, hpc]
      rfl
    · have hout := h.fits.control.outside_of_last (i := i) (by rw [hpc]; rfl) hlast hji
      exact Pc.dirties_of_outside hout
  have hunlogged : Unlogged area s.lh f := fun b hb hnew =>
    h.unlogged hboot hcommitting b hb hnew fun j hj => by
      rw [hclean j] at hj
      contradiction
  have hself : ({ s with outstanding := 0, committing := true }.goto i s.firstJob).pc i = s.firstJob := by
    rw [Log.goto_pc, update_self]
  refine working hfits hboot (i := i) (by rw [hself]; exact hfirst.1) h.covers ?_
    ⟨h.durable.recovered, h.durable.header⟩ (h.shown hboot) ?_ ?_ ?_
  · show f.active - 1 = 0
    rw [h.active, hlast]
  · intro j b hb
    by_cases hji : j = i
    · rw [hji, hself, hfirst.2] at hb
      contradiction
    · rw [Log.goto_pc, update_of_ne hji, hclean j] at hb
      contradiction
  · intro job st hjob
    rw [hself, Log.firstJob] at hjob
    split at hjob
    · next hsome =>
      rw [Pc.commit.injEq] at hjob
      rcases hjob with ⟨rfl, rfl⟩
      exact ⟨(Doing.start h.covers hsome (h.erased hboot hcommitting) (h.shown hboot) hunlogged).active _,
        trivial⟩
    · contradiction
  · intro hleave
    rw [hself, Log.firstJob] at hleave
    split at hleave
    · contradiction
    · next hempty =>
      have hnil : s.lh = [] := List.eq_nil_of_length_eq_zero (by omega)
      exact ⟨h.erased hboot hcommitting, h.shown hboot, fun b hb => hunlogged b hb (by simp [hnil])⟩

private theorem works {job : Job} {st : Stage} {v : Block} {next : Option (Job × Stage)} {p : Pc} {lh : List Nat}
    (h : Safe area s t f) (hfits : Log.Fits area ({ s with lh := lh }.goto i p))
    (hpc : s.pc i = .commit job st) (hdo : s.doJob area job v st = (next, io))
    (hserves : t.Serves io t')
    (hnext : (∃ job' st', next = some (job', st') ∧ p = .commit job' st' ∧ lh = job'.head s.lh) ∨
      next = none ∧ p = .leave ∧ lh = s.lh) :
    ∃ f', FileStore.Step f (job.event st) f' ∧ Safe area ({ s with lh := lh }.goto i p) t' f' := by
  have hboot := h.fits.control.up (i := i) (by rw [hpc]; simp)
  have htrue := h.fits.control.committing (i := i) (by rw [hpc]; rfl)
  have hzero := (h.fits.control.alone htrue).1
  rcases h.committing i job st hpc with ⟨hdoing, hholds⟩
  rcases hdoing.doJob h.durable hholds (h.active.trans hzero) hdo hserves with
    ⟨f', hstep, hcurrent, hactive, hdurable, hkeeps, hgoes⟩
  have hself : ({ s with lh := lh }.goto i p).pc i = p := by rw [Log.goto_pc, update_self]
  have hp : p.working = true ∧ p.dirties = none := by
    rcases hnext with ⟨job', st', -, rfl, -⟩ | ⟨-, rfl, -⟩ <;> exact ⟨rfl, rfl⟩
  have hcovers : Covers area lh := by
    rcases hnext with ⟨job', st', -, -, rfl⟩ | ⟨-, -, rfl⟩
    · cases job' with
      | clear => exact Covers.nil (lt_of_le_of_lt (Nat.zero_le _) h.covers.room)
      | _ => exact h.covers
    · exact h.covers
  refine ⟨f', hstep, working hfits hboot (i := i) (by rw [hself]; exact hp.1) hcovers
    (hactive.trans h.active) hdurable ?_ ?_ ?_ ?_⟩
  · intro b hb
    rw [hcurrent]
    rcases hkeeps b hb with hsame | hcur
    · exact hsame.trans (h.shown hboot b hb)
    · exact hcur
  · intro j b hb
    by_cases hji : j = i
    · rw [hji, hself, hp.2] at hb
      contradiction
    · rw [Log.goto_pc, update_of_ne hji] at hb
      exact h.dirty j b hb
  · intro job' st' hjob
    rw [hself] at hjob
    rcases hnext with ⟨job'', st'', hsome, rfl, rfl⟩ | ⟨-, rfl, -⟩
    · rw [Pc.commit.injEq] at hjob
      rcases hjob with ⟨rfl, rfl⟩
      exact hgoes.more _ _ hsome
    · contradiction
  · intro hleave
    rw [hself] at hleave
    rcases hnext with ⟨job'', st'', -, rfl, -⟩ | ⟨hnone, -, -⟩
    · contradiction
    · exact hgoes.last hnone

private theorem booting (hfits : Log.Fits area s) (hdown : s.boot ≠ .up) (hcovers : Covers area s.lh)
    (hactive : f.active = 0) (hdurable : Durable area t f)
    (hoff : s.boot = .readHead → t.mem = t.disk ∧ Settled area f)
    (hrecovering : ∀ job st, s.boot = .work job st →
      Doing area s.lh t f job ∧ Holds area s.lh t job st) : Safe area s t f := by
  have hpc := (hfits.control.quiet hdown).1
  have hzero : s.outstanding = 0 := by
    rw [hfits.control.count]
    exact tally_eq_zero _ fun j => by rw [hpc]; rfl
  exact {
    fits := hfits
    covers := hcovers
    active := hactive.trans hzero.symm
    durable := hdurable
    shown := fun hup => absurd hup hdown
    off := hoff
    recovering := hrecovering
    erased := fun hup => absurd hup hdown
    unlogged := fun hup => absurd hup hdown
    dirty := fun j b hb => by
      rw [hpc] at hb
      contradiction
    committing := fun j job st hj => by
      rw [hpc] at hj
      contradiction
    leaving := fun j hj => by
      rw [hpc] at hj
      contradiction }

private theorem crashed (h : Durable area t f) : Safe area (Log.reset : Log ι) t.crash f.crash := by
  refine booting Log.fits_reset (by simp [Log.reset])
    (Covers.nil (lt_of_le_of_lt (Nat.zero_le _) h.header.room)) rfl ⟨h.recovered, h.header⟩
    (fun _ => ⟨rfl, fun b _ => rfl⟩) fun job st hwork => ?_
  contradiction

private theorem readsHead {v : Block} (h : Safe area s t f) (hboot : s.boot = .readHead)
    (hfits : Log.Fits area { s with
      lh := readHead v
      boot := if 0 < (readHead v).length then .work (.install 0) .read else .work .clear .read })
    (hv : v = t.mem area.header) :
    Safe area { s with
      lh := readHead v
      boot := if 0 < (readHead v).length then .work (.install 0) .read else .work .clear .read } t f := by
  rcases h.off hboot with ⟨hmem, hsettled⟩
  have hhead : readHead (t.disk area.header) = readHead v := by rw [hv, hmem]
  have hcovers : Covers area (readHead v) := hhead ▸ h.durable.header
  have hcurrent (b : BlockId) (hb : area.Home b) (hnew : b.blockno ∉ readHead v) :
      t.mem b = f.current b := by
    have hne : ∀ i < (readHead v).length, entry area (readHead v) i ≠ b := fun i hi heq =>
      hnew ((mem_entries hb).mpr ⟨i, hi, heq⟩)
    rw [hsettled b hb, ← h.durable.recovered b hb, recovered_of_ne hhead hne, hmem]
  have hzero : s.outstanding = 0 := by
    have hcount := hfits.control.count
    rw [hcount]
    exact tally_eq_zero _ fun j => by rw [(h.fits.control.quiet (by rw [hboot]; simp)).1 j]; rfl
  refine booting hfits ?_ hcovers (h.active.trans hzero) h.durable ?_ ?_
  · dsimp only
    split <;> simp
  · intro hoff
    dsimp only at hoff
    split at hoff <;> contradiction
  · intro job st hwork
    dsimp only at hwork ⊢
    split at hwork
    · next hsome =>
      rw [Boot.work.injEq] at hwork
      rcases hwork with ⟨rfl, rfl⟩
      refine ⟨.install hcovers hsome hhead (fun i _ => by rw [hmem])
        (fun i hi => absurd hi (Nat.not_lt_zero i)) (fun b hb => ?_) hsettled, trivial⟩
      by_cases hentry : b.blockno ∈ readHead v
      · rcases (mem_entries hb).mp hentry with ⟨i, hi, heq⟩
        exact Or.inr ⟨i, Nat.zero_le i, hi, heq⟩
      · exact Or.inl (hcurrent b hb hentry)
    · next hempty =>
      have hnil : readHead v = [] := List.eq_nil_of_length_eq_zero (by omega)
      rw [Boot.work.injEq] at hwork
      rcases hwork with ⟨rfl, rfl⟩
      refine ⟨.clear (recovered_nil (hhead.trans hnil)) (fun b hb => ?_) hsettled, trivial⟩
      exact hcurrent b hb (by rw [hnil]; simp)

private theorem recovers {job : Job} {st : Stage} {v : Block} {next : Option (Job × Stage)} {lh : List Nat}
    {boot : Boot} (h : Safe area s t f) (hfits : Log.Fits area { s with lh := lh, boot := boot })
    (hboot : s.boot = .work job st) (hdo : s.doJob area job v st = (next, io))
    (hserves : t.Serves io t')
    (hnext : (∃ job' st', next = some (job', st') ∧ boot = .work job' st' ∧ lh = job'.head s.lh) ∨
      next = none ∧ boot = .up ∧ lh = s.lh) :
    ∃ f', FileStore.Step f (job.event st) f' ∧ Safe area { s with lh := lh, boot := boot } t' f' := by
  rcases h.fits.control.quiet (by rw [hboot]; simp) with ⟨hpc, hcommitting⟩
  have hzero : s.outstanding = 0 := by
    rw [h.fits.control.count]
    exact tally_eq_zero _ fun j => by rw [hpc]; rfl
  rcases h.recovering job st hboot with ⟨hdoing, hholds⟩
  rcases hdoing.doJob h.durable hholds (h.active.trans hzero) hdo hserves with
    ⟨f', hstep, hcurrent, hactive, hdurable, -, hgoes⟩
  refine ⟨f', hstep, ?_⟩
  rcases hnext with ⟨job', st', hsome, rfl, rfl⟩ | ⟨hnone, rfl, rfl⟩
  · have hcovers : Covers area (job'.head s.lh) := by
      cases job' with
      | clear => exact Covers.nil (lt_of_le_of_lt (Nat.zero_le _) h.covers.room)
      | _ => exact h.covers
    refine booting hfits (by simp) hcovers (hactive.trans (h.active.trans hzero)) hdurable
      (fun hoff => by simp at hoff) fun job'' st'' hwork => ?_
    rw [Boot.work.injEq] at hwork
    rcases hwork with ⟨rfl, rfl⟩
    exact hgoes.more _ _ hsome
  · have hcleared := hgoes.last hnone
    refine running hfits rfl hcommitting h.covers (hactive.trans h.active) hdurable hcleared.shown
      hcleared.erased (fun b hb _ _ => hcleared.settled b hb) fun j b hb => ?_
    rw [show _ = s.pc j from rfl, hpc] at hb
    contradiction

private theorem leaves (h : Safe area s t f) (hpc : s.pc i = .leave)
    (hfits : Log.Fits area ({ s with committing := false }.goto i .out).wakeup) :
    Safe area ({ s with committing := false }.goto i .out).wakeup t f := by
  have hboot := h.fits.control.up (i := i) (by rw [hpc]; simp)
  have hcleared := h.leaving i hpc
  refine running hfits hboot rfl h.covers h.active h.durable hcleared.shown hcleared.erased
    (fun b hb _ _ => hcleared.settled b hb) fun j b hb => ?_
  rw [Log.wakeup_pc, Pc.dirties_wake, Log.goto_pc] at hb
  by_cases hji : j = i
  · rw [hji, update_self] at hb
    contradiction
  · rw [update_of_ne hji] at hb
    exact h.dirty j b hb

private theorem ends {w : List Nat} (h : Safe area s t f) (hpc : s.pc i = .inOp w)
    (hfits : Log.Fits area ({ s with outstanding := s.outstanding - 1 }.goto i .out).wakeup) :
    Safe area ({ s with outstanding := s.outstanding - 1 }.goto i .out).wakeup t
      { f with active := f.active - 1 } := by
  rw [h.active]
  refine h.frame hfits rfl rfl rfl (fun j hj => ?_) fun j => ?_
  · have hwoken := Log.wakeup_working hj
    rw [hwoken, Log.goto_pc] at hj ⊢
    by_cases hji : j = i
    · rw [hji, update_self] at hj
      contradiction
    · exact update_of_ne hji ..
  · rw [Log.wakeup_pc, Pc.dirties_wake]
    exact Log.update_pc (by rw [hpc]; rfl) j

private theorem enters (h : Safe area s t f) (hpc : s.pc i = .begin_op)
    (hfits : Log.Fits area ({ s with outstanding := s.outstanding + 1 }.goto i (.inOp []))) :
    Safe area ({ s with outstanding := s.outstanding + 1 }.goto i (.inOp [])) t
      { f with active := f.active + 1 } := by
  rw [h.active]
  refine h.frame hfits rfl rfl rfl (fun j hj => ?_) (Log.update_pc (by rw [hpc]; rfl))
  rw [Log.goto_pc] at hj ⊢
  by_cases hji : j = i
  · rw [hji, update_self] at hj
    contradiction
  · exact update_of_ne hji ..

/-- The step lemma: a step of the log over its blocks is one of the file store. -/
private theorem step (hlimit : area.opBlocks < maxOpBlocks) (hsize : logSize ≤ area.size) (h : Safe area s t f)
    (hstep : Log.Client area s a io s') (hserves : t.Serves io t') :
    ∃ f', FileStore.Step f (s.event area a) f' ∧ Safe area s' t' f' := by
  have hfits := h.fits.step hlimit.le hstep
  cases Log.act_cases hstep with
  | @call i hboot hpc =>
    cases hserves
    exact ⟨f, .idle f, h.moves hfits rfl (by rw [hpc]; rfl)⟩
  | @waits i hpc hbusy =>
    cases hserves
    rw [Log.event, if_pos hbusy]
    exact ⟨f, .idle f, h.moves hfits rfl (by rw [hpc]; rfl)⟩
  | enters hpc hbusy =>
    cases hserves
    rw [Log.event, if_neg (by simp [hbusy])]
    exact ⟨_, .begins f, h.enters hpc hfits⟩
  | @see i b v hboot =>
    rcases hserves with _ | ⟨hstore⟩
    cases hstore
    refine ⟨f, ?_, h⟩
    by_cases hhome : area.Home (area.at_ b)
    · rw [Log.event, if_pos hhome, h.shown hboot _ hhome]
      exact .reads f (area.at_ b)
    · rw [Log.event, if_neg hhome]
      exact .idle f
  | @modify i w b v hpc hhome hword hblocks =>
    rcases hserves with _ | ⟨hstore⟩
    cases hstore
    have hpos := h.fits.control.outstanding_pos (i := i) (by rw [hpc]; rfl)
    exact ⟨_, .writes f (area.at_ b) v (h.active ▸ hpos), h.modifies hfits hpc hhome hword⟩
  | @check i w b hpc hpanics =>
    cases hserves
    exact ⟨f, .idle f, h.moves hfits rfl (by rw [hpc]; rfl)⟩
  | @log_write i w b hpc =>
    rcases hserves with _ | ⟨hstore⟩
    cases hstore
    exact ⟨f, .idle f, h.logs hfits hpc hlimit hsize⟩
  | @ends i w hpc hcommitting hmore =>
    cases hserves
    exact ⟨_, .ends f, h.ends hpc hfits⟩
  | lastEnds hpc hcommitting hlast =>
    cases hserves
    exact ⟨_, .ends f, h.lastEnds hfits hpc hlast⟩
  | works hpc hjob =>
    simp only [Log.event, hpc]
    exact h.works hfits hpc hjob hserves (Or.inl ⟨_, _, rfl, rfl, rfl⟩)
  | worked hpc hjob =>
    simp only [Log.event, hpc]
    exact h.works hfits hpc hjob hserves (Or.inr ⟨rfl, rfl, rfl⟩)
  | leave hpc =>
    cases hserves
    exact ⟨f, .idle f, h.leaves hpc hfits⟩
  | readHead hboot =>
    rcases hserves with _ | ⟨hstore⟩
    cases hstore
    simp only [Log.event, hboot]
    exact ⟨f, .idle f, h.readsHead hboot hfits rfl⟩
  | recovers hboot hjob =>
    simp only [Log.event, hboot]
    exact h.recovers hfits hboot hjob hserves (Or.inl ⟨_, _, rfl, rfl, rfl⟩)
  | recovered hboot hjob =>
    simp only [Log.event, hboot]
    exact h.recovers hfits hboot hjob hserves (Or.inr ⟨rfl, rfl, rfl⟩)
  | crash =>
    rcases hserves with _ | ⟨hstore⟩
    cases hstore
    exact ⟨f.crash, .crash f, crashed h.durable⟩

end Safe

section Run

variable {ι : Type} [Fintype ι] [DecidableEq ι] {area : LogArea}

/-- The file store a machine comes up with. -/
def FileStore.found (area : LogArea) (disk : BlockId → Block) : FileStore :=
  ⟨recovered area disk, recovered area disk, 0⟩

private theorem safe_reset {disk : BlockId → Block} (hhead : Covers area (readHead (disk area.header))) :
    Safe area (Log.reset : Log ι) ⟨disk, disk⟩ (.found area disk) :=
  Safe.crashed (t := ⟨disk, disk⟩) (f := .found area disk) ⟨fun _ _ => rfl, hhead⟩

variable {n : Nat} {κ : Type} [Fintype κ] [DecidableEq κ]

/-- A step of the machine with one of the file store beside it, which is idle, or begins, ends or commits
calls, reads or writes as the log does, and has as many calls inside. -/
structure Beside (area : LogArea) (x : (Log ι × Bcache n κ) × FileStore) (e : Option (LogAct ι))
    (y : (Log ι × Bcache n κ) × FileStore) : Prop where
  machine : Joint (Log.Client area) Bcache.Step x.1 e y.1
  files : FileStore.Step x.2 (e.bind (x.1.1.event area)) y.2
  active : y.2.active = y.1.1.outstanding

/-- The log over the cache, which stands for a block store. -/
def Stands (area : LogArea) (x : Log ι × Bcache n κ) (f : FileStore) : Prop :=
  ∃ t, (x.2.Sessions ∧ x.2.Agrees t) ∧ Safe area x.1 t f

private theorem Stands.step {x x' : Log ι × Bcache n κ} {e : Option (LogAct ι)} {f : FileStore}
    (hlimit : area.opBlocks < maxOpBlocks) (hsize : logSize ≤ area.size) (h : Stands area x f)
    (hstep : Joint (Log.Client area) Bcache.Step x e x') :
    ∃ f', FileStore.Step f (e.bind (x.1.event area)) f' ∧ Stands area x' f' := by
  rcases x with ⟨s, c⟩
  rcases x' with ⟨s', c'⟩
  rcases h with ⟨t, hcache, hsafe⟩
  rcases Bcache.simulates_store.joint hstep hcache with ⟨t', hcache', hjoint | ⟨rfl, hsame, rfl⟩⟩
  · cases hjoint with
    | own hclient =>
      rcases hsafe.step hlimit hsize hclient .idle with ⟨f', hfiles, hsafe'⟩
      exact ⟨f', hfiles, _, hcache', hsafe'⟩
    | uses hclient hspec =>
      rcases hsafe.step hlimit hsize hclient (.serves hspec) with ⟨f', hfiles, hsafe'⟩
      exact ⟨f', hfiles, _, hcache', hsafe'⟩
    | silent hspec => cases hspec
  · obtain rfl : s' = s := hsame
    exact ⟨f, .idle f, _, hcache', hsafe⟩

private theorem beside_of_run {x x' : Log ι × Bcache n κ} {es : List (Option (LogAct ι))} {f : FileStore}
    (hlimit : area.opBlocks < maxOpBlocks) (hsize : logSize ≤ area.size)
    (hrun : Run (Joint (Log.Client area) Bcache.Step) x es x') (h : Stands area x f) :
    ∃ f', Run (Beside area) (x, f) es (x', f') ∧ Stands area x' f' := by
  induction hrun generalizing f with
  | nil x => exact ⟨f, .nil _, h⟩
  | cons hstep _ ih =>
    rcases h.step hlimit hsize hstep with ⟨f₁, hfiles, h₁⟩
    rcases ih h₁ with ⟨f', hrun, h'⟩
    have hactive : f₁.active = _ := h₁.choose_spec.2.active
    exact ⟨f', .cons ⟨hstep, hfiles, hactive⟩ hrun, h'⟩

/-- In every interleaving of system calls, commits, disc interrupts, recoveries and crashes, over a
buffer cache of any size, the calls read and write a file store whose writes become durable together
while no call is inside. A restart, whenever it comes, finds what is durable; when nobody is in a
call or commits, that is everything written. -/
theorem crash_safe_of_run {c c' : Bcache n κ} {s' : Log ι} {es : List (Option (LogAct ι))}
    (hlimit : area.opBlocks < maxOpBlocks) (hsize : logSize ≤ area.size) (hboot : c.Booted)
    (hhead : Covers area (readHead (c.disk area.header)))
    (hrun : Run (Joint (Log.Client area) Bcache.Step) (Log.reset, c) es (s', c')) :
    ∃ f, Run (Beside area) ((Log.reset, c), .found area c.disk) es ((s', c'), f) ∧
      (∀ b, area.Home b → recovered area c'.disk b = f.durable b) ∧
      (s'.boot = .up → ∀ p i w, c'.place p = .held i w → area.Home (c'.buf i).id →
        (c'.buf i).data = f.current (c'.buf i).id) ∧
      (s'.boot = .up → s'.outstanding = 0 → s'.committing = false →
        ∀ b, area.Home b → c'.disk b = f.current b) := by
  rcases beside_of_run hlimit hsize hrun ⟨_, hboot.agrees, safe_reset hhead⟩ with
    ⟨f, hspec, t, ⟨hsessions, hagrees⟩, h⟩
  refine ⟨f, hspec, fun b hb => ?_, ?_, ?_⟩
  · rw [← hagrees.disk]
    exact h.durable.recovered b hb
  · intro hup p i w hp hhome
    rw [← h.shown hup _ hhome]
    exact hagrees.data i (hsessions.asked p i (by rw [hp]; rfl)) (hagrees.valid p i w hp)
  · intro hup hout hcommitting b hb
    have hnil := h.fits.control.idle hup hcommitting hout
    have hsettled := h.unlogged hup hcommitting b hb (by rw [hnil]; simp) fun j hj => ?_
    · rw [hsettled, ← h.durable.recovered b hb, recovered_nil (h.erased hup hcommitting), hagrees.disk]
    · have hin : (s'.pc j).inside = false := by
        by_contra hin
        have hpos : 0 < s'.outstanding := h.fits.control.outstanding_pos (i := j) (by simpa using hin)
        omega
      rw [Pc.dirties_of_outside hin] at hj
      contradiction

/-- The machine stopped after a commit of block `40`, before the block was in its place. -/
def stopped : Bcache 3 (Fin 3) where
  buf _ := ⟨false, false, ⟨0, 0⟩, 0, fun _ => 0⟩
  lock _ := none
  chain := .binit
  disk b := if b = ⟨1, 2⟩ then fun k => if k = 0 then 1 else if k = 4 then 40 else 0
    else if b = ⟨1, 3⟩ then fun _ => 9 else fun _ => 0
  place _ := .idle

/-- It stops again when the recovery has read the header; the block is still to be had. -/
theorem crash_safe_of_run_stopped : ∃ c' es f,
    Run (Joint (Log.Client Log.mkfsLog) Bcache.Step) ((Log.reset : Log (Fin 3)), stopped) es
      (Log.reset, c') ∧
    Run (Beside Log.mkfsLog) ((Log.reset, stopped), .found Log.mkfsLog stopped.disk) es
      ((Log.reset, c'), f) ∧
    stopped.disk ⟨1, 40⟩ 0 = 0 ∧ recovered Log.mkfsLog c'.disk ⟨1, 40⟩ = f.durable ⟨1, 40⟩ ∧
    recovered Log.mkfsLog c'.disk ⟨1, 40⟩ 0 = 9 := by
  have hhead : readHead (stopped.disk Log.mkfsLog.header) = [40] := rfl
  have hfetch : ∃ c, Run (Joint (Log.Client Log.mkfsLog) Bcache.Step)
      ((Log.reset : Log (Fin 3)), stopped) [none, none, none, none] (Log.reset, c) ∧
      c.place 0 = .held 0 false ∧ (c.buf 0).id = Log.mkfsLog.header ∧ c.disk = stopped.disk :=
    ⟨_, .cons (.silent ⟨.session 0 (.bget ⟨1, 2⟩), rfl⟩)
      (.cons (.silent ⟨.session 0 .acquiresleep, rfl⟩) (.cons (.silent ⟨.session 0 .bread, rfl⟩)
      (.cons (.silent ⟨.session 0 .ideintr, rfl⟩) (.nil _)))), rfl, rfl, rfl⟩
  rcases hfetch with ⟨c, hfetch, hplace, hid, hdisk⟩
  have hsee : Bcache.Step c (some (.see Log.mkfsLog.header (c.buf 0).data)) c := by
    refine ⟨.session 0 .see, ?_⟩
    simp only [Bcache.act, Bcache.next, hplace, hid]
  have hread : Log.Client Log.mkfsLog (Log.reset : Log (Fin 3)) (.recover (c.buf 0).data)
      (some (.see Log.mkfsLog.header (c.buf 0).data)) _ := rfl
  have hcrash (s : Log (Fin 3)) : Joint (Log.Client Log.mkfsLog) Bcache.Step (s, c) (some .crash)
      (Log.reset, c.cold) := .uses (a := .crash) rfl ⟨.crash, rfl⟩
  have hrun := hfetch.append (.cons (.uses hread hsee) (.cons (hcrash _) (.nil _)))
  have hcold : c.cold.disk = stopped.disk := hdisk
  rcases crash_safe_of_run (by decide) (by decide) ⟨rfl⟩
    ⟨by rw [hhead]; decide, by rw [hhead]; decide, by rw [hhead]; decide, by decide, by decide⟩ hrun with
    ⟨f, hspec, hdurable, -, -⟩
  refine ⟨_, _, f, hrun, hspec, rfl, hdurable ⟨1, 40⟩ ⟨rfl, by decide⟩, ?_⟩
  rw [hcold]
  rfl

end Run

end OsSessional.Storage
