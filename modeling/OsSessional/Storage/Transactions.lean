import OsSessional.Storage.Recovery

/-!
# Transactions

What the log is for: a store whose writes become durable together, when nobody is in a call. The
jobs of a commit and of the recovery at boot keep what a restart would find, but for the one write of
the header that commits.
-/

namespace OsSessional.Storage

open Function (update update_self update_of_ne)

/-- What a restart finds, what is read now, and how many calls are inside. -/
structure FileStore where
  durable : BlockId → Block
  current : BlockId → Block
  active : Nat

/-- What is seen of a file store. -/
inductive FileEvent
  | begins
  | ends
  | commits
  | reads (b : BlockId) (v : Block)
  | writes (b : BlockId) (v : Block)
  | crash

namespace FileStore

variable (f : FileStore)

def write (b : BlockId) (v : Block) : FileStore := { f with current := update f.current b v }

def commit : FileStore := { f with durable := f.current }

def crash : FileStore := { f with current := f.durable, active := 0 }

@[simp] theorem write_current (b : BlockId) (v : Block) : (f.write b v).current = update f.current b v := rfl
@[simp] theorem write_durable (b : BlockId) (v : Block) : (f.write b v).durable = f.durable := rfl
@[simp] theorem write_active (b : BlockId) (v : Block) : (f.write b v).active = f.active := rfl
@[simp] theorem crash_current : f.crash.current = f.durable := rfl
@[simp] theorem crash_durable : f.crash.durable = f.durable := rfl

/-- A call may write; the writes of all calls become durable at once when none is inside. -/
inductive Step : FileStore → Option FileEvent → FileStore → Prop
  | idle (f : FileStore) : Step f none f
  | begins (f : FileStore) : Step f (some .begins) { f with active := f.active + 1 }
  | ends (f : FileStore) : Step f (some .ends) { f with active := f.active - 1 }
  | commits (f : FileStore) (hactive : f.active = 0) : Step f (some .commits) f.commit
  | reads (f : FileStore) (b : BlockId) : Step f (some (.reads b (f.current b))) f
  | writes (f : FileStore) (b : BlockId) (v : Block) (hactive : 0 < f.active) :
      Step f (some (.writes b v)) (f.write b v)
  | crash (f : FileStore) : Step f (some .crash) f.crash

end FileStore

variable {ι : Type} {area : LogArea} {s : Log ι} {lh : List Nat} {t t' : Store}
  {f : FileStore} {job job' : Job} {st st' : Stage} {v : Block} {io : Option Io}

/-- The steps of the store that a client asks for, if any. -/
inductive Store.Serves (t : Store) : Option Io → Store → Prop
  | idle : Serves t none t
  | serves {io : Io} {t' : Store} (h : Store.Step t (some io) t') : Serves t (some io) t'

/-- What is read has reached the disc, so far as it lies outside of the log. -/
def Settled (area : LogArea) (f : FileStore) : Prop := ∀ b, area.Home b → f.current b = f.durable b

/-- The buffers show the file store. -/
def Shown (area : LogArea) (t : Store) (f : FileStore) : Prop :=
  ∀ b, area.Home b → t.mem b = f.current b

/-- What is not in the log has not changed. -/
def Unlogged (area : LogArea) (lh : List Nat) (f : FileStore) : Prop :=
  ∀ b, area.Home b → b.blockno ∉ lh → f.current b = f.durable b

/-- The blocks of the first entries are in the log. -/
def Saved (area : LogArea) (lh : List Nat) (t : Store) (f : FileStore) (tail : Nat) : Prop :=
  ∀ i < tail, t.mem (area.slot i) = f.current (entry area lh i) ∧
    t.disk (area.slot i) = f.current (entry area lh i)

/-- What is seen of a step of a job: the header that commits is written. -/
def Job.event (job : Job) : Stage → Option FileEvent
  | .flush => if job = .commit then some .commits else none
  | _ => none

/-- How far a commit or a recovery has come. -/
inductive Doing (area : LogArea) (lh : List Nat) (t : Store) (f : FileStore) : Job → Prop
  | copy {tail : Nat} (hcovers : Covers area lh) (htail : tail < lh.length)
      (herased : readHead (t.disk area.header) = []) (hshown : Shown area t f)
      (hunlogged : Unlogged area lh f) (hsaved : Saved area lh t f tail) : Doing area lh t f (.copy tail)
  | commit (hcovers : Covers area lh) (hsome : lh ≠ []) (herased : readHead (t.disk area.header) = [])
      (hshown : Shown area t f) (hunlogged : Unlogged area lh f) (hsaved : Saved area lh t f lh.length) :
      Doing area lh t f .commit
  | install {tail : Nat} (hcovers : Covers area lh) (htail : tail < lh.length)
      (hhead : readHead (t.disk area.header) = lh)
      (hclean : ∀ i < lh.length, t.mem (area.slot i) = t.disk (area.slot i))
      (hdone : ∀ i < tail, t.disk (entry area lh i) = t.disk (area.slot i))
      (hshown : ∀ b, area.Home b → t.mem b = f.current b ∨
        ∃ i, tail ≤ i ∧ i < lh.length ∧ entry area lh i = b)
      (hsettled : Settled area f) : Doing area lh t f (.install tail)
  | clear (hdone : recovered area t.disk = t.disk) (hshown : Shown area t f) (hsettled : Settled area f) :
      Doing area lh t f .clear

/-- What a job has in hand. -/
def Holds (area : LogArea) (lh : List Nat) (t : Store) (job : Job) : Stage → Prop
  | .read => True
  | .hold v => v = t.mem (job.src area lh)
  | .flush => match job with
    | .copy _ => t.mem (job.dst area lh) = t.mem (job.src area lh)
    | .commit => readHead (t.mem area.header) = lh
    | .install _ => t.mem (job.dst area lh) = t.mem (job.src area lh)
    | .clear => readHead (t.mem area.header) = []

/-- A restart would find what is durable. -/
structure Durable (area : LogArea) (t : Store) (f : FileStore) : Prop where
  recovered : ∀ b, area.Home b → recovered area t.disk b = f.durable b
  header : Covers area (readHead (t.disk area.header))

/-- What a store shows at home changes to what it should show only. -/
def Keeps (area : LogArea) (t t' : Store) (f : FileStore) : Prop :=
  ∀ b, area.Home b → t'.mem b = t.mem b ∨ t'.mem b = f.current b

/-- The log has been cleared. -/
structure Cleared (area : LogArea) (t : Store) (f : FileStore) : Prop where
  erased : readHead (t.disk area.header) = []
  shown : Shown area t f
  settled : Settled area f

namespace Doing

theorem start (hcovers : Covers area lh) (hsome : 0 < lh.length)
    (herased : readHead (t.disk area.header) = []) (hshown : Shown area t f)
    (hunlogged : Unlogged area lh f) : Doing area lh t f (.copy 0) :=
  .copy hcovers hsome herased hshown hunlogged fun _ hi => absurd hi (Nat.not_lt_zero _)

section Put

variable {b : BlockId}

private theorem put_mem_of_ne (h : b ≠ job.dst area lh) :
    (t.put (job.dst area lh) v).mem b = t.mem b := update_of_ne h ..

private theorem shown_put (hshown : Shown area t f) (hdst : ∀ b, area.Home b → b ≠ job.dst area lh) :
    Shown area (t.put (job.dst area lh) v) f := by
  intro b hb
  rw [put_mem_of_ne (hdst b hb)]
  exact hshown b hb

private theorem saved_put {tail : Nat} (hsaved : Saved area lh t f tail)
    (hdst : ∀ i < tail, area.slot i ≠ job.dst area lh) :
    Saved area lh (t.put (job.dst area lh) v) f tail := by
  intro i hi
  rw [put_mem_of_ne (hdst i hi)]
  exact hsaved i hi

private theorem install_current {tail : Nat} (hd : Durable area t f) (hcovers : Covers area lh)
    (htail : tail < lh.length) (hhead : readHead (t.disk area.header) = lh)
    (hsettled : Settled area f) : t.disk (area.slot tail) = f.current (entry area lh tail) := by
  have hhome := hcovers.entry_home htail
  rw [hsettled _ hhome, ← hd.recovered _ hhome, recovered_entry hhead hcovers htail]

private theorem put (h : Doing area lh t f job) (hd : Durable area t f)
    (hhold : Holds area lh t job (.hold v)) :
    Doing area lh (t.put (job.dst area lh) (job.data lh v)) f job ∧
      Holds area lh (t.put (job.dst area lh) (job.data lh v)) job .flush ∧
      Keeps area t (t.put (job.dst area lh) (job.data lh v)) f := by
  have hkeeps (hdst : ∀ b, area.Home b → b ≠ job.dst area lh) :
      Keeps area t (t.put (job.dst area lh) (job.data lh v)) f :=
    fun b hb => Or.inl (put_mem_of_ne (hdst b hb))
  cases h with
  | @copy tail hcovers htail herased hshown hunlogged hsaved =>
    have hdst (b : BlockId) (hb : area.Home b) : b ≠ area.slot tail :=
      hb.ne_slot (hcovers.slot_room htail)
    refine ⟨.copy hcovers htail herased (shown_put hshown hdst) hunlogged (saved_put hsaved ?_), ?_,
      hkeeps hdst⟩
    · intro i hi heq
      have hslot := LogArea.slot_inj heq
      omega
    · have hsrc : (t.put (area.slot tail) v).mem (entry area lh tail) = t.mem (entry area lh tail) :=
        update_of_ne (hcovers.entry_ne_slot htail htail) ..
      exact (update_self ..).trans (hhold.trans hsrc.symm)
  | commit hcovers hsome herased hshown hunlogged hsaved =>
    have hdst (b : BlockId) (hb : area.Home b) : b ≠ area.header :=
      hb.ne_header (lt_of_le_of_lt (Nat.zero_le _) hcovers.room)
    refine ⟨.commit hcovers hsome herased (shown_put hshown hdst) hunlogged
      (saved_put hsaved fun i _ => LogArea.slot_ne_header), ?_, hkeeps hdst⟩
    refine (congrArg readHead (update_self ..)).trans ?_
    exact readHead_writeHead hcovers.short hcovers.word v
  | @install tail hcovers htail hhead hclean hdone hshown hsettled =>
    have hslot (i : Nat) (hi : i < lh.length) : area.slot i ≠ entry area lh tail :=
      (hcovers.entry_ne_slot htail hi).symm
    have hv : v = t.disk (area.slot tail) := hhold.trans (hclean tail htail)
    refine ⟨.install hcovers htail hhead ?_ hdone ?_ hsettled, ?_, ?_⟩
    · intro i hi
      exact (put_mem_of_ne (hslot i hi)).trans (hclean i hi)
    · intro b hb
      by_cases hbe : entry area lh tail = b
      · exact Or.inr ⟨tail, le_refl _, htail, hbe⟩
      · have hne : b ≠ (Job.install tail).dst area lh := fun heq => hbe heq.symm
        rw [put_mem_of_ne hne]
        exact hshown b hb
    · exact (update_self ..).trans (hhold.trans (put_mem_of_ne (hslot tail htail)).symm)
    · intro b hb
      by_cases hbe : b = entry area lh tail
      · right
        rw [hbe]
        exact (update_self ..).trans (hv.trans (install_current hd hcovers htail hhead hsettled))
      · exact Or.inl (put_mem_of_ne hbe)
  | clear hdone hshown hsettled =>
    have hdst (b : BlockId) (hb : area.Home b) : b ≠ area.header :=
      hb.ne_header (lt_of_le_of_lt (Nat.zero_le _) hd.header.room)
    refine ⟨.clear hdone (shown_put hshown hdst) hsettled, ?_, hkeeps hdst⟩
    refine (congrArg readHead (update_self ..)).trans ?_
    exact readHead_writeHead (by simp) (by simp) v

end Put

section Flush

/-- What a job's last step leads to. -/
structure Leads (area : LogArea) (lh : List Nat) (t : Store) (f : FileStore) (job : Job) (f' : FileStore) :
    Prop where
  step : FileStore.Step f (job.event .flush) f'
  current : f'.current = f.current
  active : f'.active = f.active
  durable : Durable area (t.flush (job.dst area lh)) f'
  next : ∀ job', job.next lh = some job' →
    Doing area (job'.head lh) (t.flush (job.dst area lh)) f' job'
  last : job.next lh = none → Cleared area (t.flush (job.dst area lh)) f'

private theorem flush_copy {tail : Nat} (h : Doing area lh t f (.copy tail)) (hd : Durable area t f)
    (hhold : Holds area lh t (.copy tail) .flush) : Leads area lh t f (.copy tail) f := by
  cases h with
  | copy hcovers htail herased hshown hunlogged hsaved =>
    have hheader : (t.flush (area.slot tail)).disk area.header = t.disk area.header :=
      update_of_ne LogArea.slot_ne_header.symm ..
    have herased' : readHead ((t.flush (area.slot tail)).disk area.header) = [] := by
      rw [hheader, herased]
    have hsaved' : Saved area lh (t.flush (area.slot tail)) f (tail + 1) := by
      intro i hi
      have hmem : t.mem (area.slot tail) = f.current (entry area lh tail) :=
        hhold.trans (hshown _ (hcovers.entry_home htail))
      rcases Nat.lt_succ_iff_lt_or_eq.mp hi with hlt | heq
      · rw [Store.flush_mem, Store.flush_disk,
          update_of_ne fun heq => (Nat.ne_of_lt hlt) (LogArea.slot_inj heq)]
        exact hsaved i hlt
      · rw [heq, Store.flush_mem, Store.flush_disk, update_self]
        exact ⟨hmem, hmem⟩
    have hnext : tail + 1 < lh.length →
        Doing area lh (t.flush (area.slot tail)) f (.copy (tail + 1)) := fun hlt =>
      .copy hcovers hlt herased' hshown hunlogged hsaved'
    have hcommit : ¬ tail + 1 < lh.length → Doing area lh (t.flush (area.slot tail)) f .commit := by
      intro hlast
      have hlen : tail + 1 = lh.length := by omega
      exact .commit hcovers (List.ne_nil_of_length_pos (by omega)) herased' hshown hunlogged
        (hlen ▸ hsaved')
    exact {
      step := .idle f
      current := rfl
      active := rfl
      durable := by
        refine ⟨fun b hb => ?_, ?_⟩
        · exact (recovered_slot herased hb (hcovers.slot_room htail)).trans (hd.recovered b hb)
        · have hheader' : Covers area (readHead ((t.flush (area.slot tail)).disk area.header)) := by
            rw [hheader]
            exact hd.header
          exact hheader'
      next := by
        intro job' hjob
        simp only [Job.next] at hjob
        split at hjob
        · next hlt =>
          rw [← Option.some.inj hjob]
          exact hnext hlt
        · next hlast =>
          rw [← Option.some.inj hjob]
          exact hcommit hlast
      last := fun hnone => by
        simp only [Job.next] at hnone
        split at hnone <;> contradiction }

private theorem flush_commit (h : Doing area lh t f .commit) (hd : Durable area t f)
    (hhold : Holds area lh t .commit .flush) (hactive : f.active = 0) :
    Leads area lh t f .commit f.commit := by
  cases h with
  | commit hcovers hsome herased hshown hunlogged hsaved =>
    have hhead : readHead ((t.flush area.header).disk area.header) = lh :=
      (congrArg readHead (update_self ..)).trans hhold
    have hslot (i : Nat) : (t.flush area.header).disk (area.slot i) = t.disk (area.slot i) :=
      update_of_ne LogArea.slot_ne_header ..
    have hhome (b : BlockId) (hb : area.Home b) :
        (t.flush area.header).disk b = t.disk b :=
      update_of_ne (hb.ne_header (lt_of_le_of_lt (Nat.zero_le _) hcovers.room)) ..
    exact {
      step := .commits f hactive
      current := rfl
      active := rfl
      durable := by
        refine ⟨fun b hb => ?_, ?_⟩
        · show recovered area (t.flush area.header).disk b = f.current b
          by_cases hentry : ∃ i < lh.length, entry area lh i = b
          · rcases hentry with ⟨i, hi, rfl⟩
            rw [recovered_entry hhead hcovers hi, hslot, (hsaved i hi).2]
          · have hne : ∀ i < lh.length, entry area lh i ≠ b := fun i hi heq => hentry ⟨i, hi, heq⟩
            rw [recovered_of_ne hhead hne, hhome b hb,
              hunlogged b hb fun hmem => hentry ((mem_entries hb).mp hmem), ← hd.recovered b hb,
              recovered_nil herased]
        · have hheader : Covers area (readHead ((t.flush area.header).disk area.header)) := by
            rw [hhead]
            exact hcovers
          exact hheader
      next := by
        intro job' hjob
        rw [← Option.some.inj hjob]
        refine .install hcovers (List.length_pos_iff.mpr hsome) hhead ?_
          (fun i hi => absurd hi (Nat.not_lt_zero i)) (fun b hb => Or.inl (hshown b hb)) fun _ _ => rfl
        intro i hi
        exact ((hsaved i hi).1.trans (hsaved i hi).2.symm).trans (hslot i).symm
      last := fun hnone => by contradiction }

private theorem flush_install {tail : Nat} (h : Doing area lh t f (.install tail))
    (hd : Durable area t f) (hhold : Holds area lh t (.install tail) .flush) :
    Leads area lh t f (.install tail) f := by
  cases h with
  | install hcovers htail hhead hclean hdone hshown hsettled =>
    have hheader : (t.flush (entry area lh tail)).disk area.header = t.disk area.header :=
      update_of_ne (hcovers.entry_ne_header htail).symm ..
    have hhead' : readHead ((t.flush (entry area lh tail)).disk area.header) = lh := by
      rw [hheader, hhead]
    have hslot (i : Nat) (hi : i < lh.length) :
        (t.flush (entry area lh tail)).disk (area.slot i) = t.disk (area.slot i) :=
      update_of_ne (hcovers.entry_ne_slot htail hi).symm ..
    have hdone' (i : Nat) (hi : i < tail + 1) :
        (t.flush (entry area lh tail)).disk (entry area lh i) =
          (t.flush (entry area lh tail)).disk (area.slot i) := by
      rw [hslot i (by omega)]
      rcases Nat.lt_succ_iff_lt_or_eq.mp hi with hlt | rfl
      · have hne : entry area lh i ≠ entry area lh tail := fun heq =>
          (Nat.ne_of_lt hlt) (hcovers.entry_inj (hlt.trans htail) htail heq)
        rw [Store.flush_disk, update_of_ne hne]
        exact hdone i hlt
      · rw [Store.flush_disk, update_self]
        exact hhold.trans (hclean i htail)
    have hshown' (b : BlockId) (hb : area.Home b) : t.mem b = f.current b ∨
        ∃ i, tail + 1 ≤ i ∧ i < lh.length ∧ entry area lh i = b := by
      rcases hshown b hb with hsame | ⟨i, hlow, hi, rfl⟩
      · exact Or.inl hsame
      · rcases Nat.lt_or_eq_of_le hlow with hlt | rfl
        · exact Or.inr ⟨i, hlt, hi, rfl⟩
        · left
          exact hhold.trans ((hclean tail htail).trans
            (install_current hd hcovers htail hhead hsettled))
    have hnext : tail + 1 < lh.length →
        Doing area lh (t.flush (entry area lh tail)) f (.install (tail + 1)) := fun hlt =>
      .install hcovers hlt hhead' (fun i hi => (hclean i hi).trans (hslot i hi).symm) hdone' hshown'
        hsettled
    have hclear : ¬ tail + 1 < lh.length →
        Doing area [] (t.flush (entry area lh tail)) f .clear := by
      intro hlast
      refine .clear (recovered_done hhead' fun i hi => hdone' i (by omega)) (fun b hb => ?_) hsettled
      rcases hshown' b hb with hsame | ⟨i, hlow, hi, -⟩
      · exact hsame
      · omega
    exact {
      step := .idle f
      current := rfl
      active := rfl
      durable := by
        refine ⟨fun b hb => ?_, ?_⟩
        · have hsame := recovered_install (v := t.mem (entry area lh tail)) hhead hcovers htail
          exact (congrFun hsame b).trans (hd.recovered b hb)
        · have hheader' : Covers area (readHead ((t.flush (entry area lh tail)).disk area.header)) := by
            rw [hheader]
            exact hd.header
          exact hheader'
      next := by
        intro job' hjob
        simp only [Job.next] at hjob
        split at hjob
        · next hlt =>
          rw [← Option.some.inj hjob]
          exact hnext hlt
        · next hlast =>
          rw [← Option.some.inj hjob]
          exact hclear hlast
      last := fun hnone => by
        simp only [Job.next] at hnone
        split at hnone <;> contradiction }

private theorem flush_clear (h : Doing area lh t f .clear) (hd : Durable area t f)
    (hhold : Holds area lh t .clear .flush) : Leads area lh t f .clear f := by
  cases h with
  | clear hdone hshown hsettled =>
    have herased : readHead ((t.flush area.header).disk area.header) = [] :=
      (congrArg readHead (update_self ..)).trans hhold
    have hsize : 0 < area.size := lt_of_le_of_lt (Nat.zero_le _) hd.header.room
    exact {
      step := .idle f
      current := rfl
      active := rfl
      durable := by
        refine ⟨fun b hb => ?_, ?_⟩
        · have hhome : (t.flush area.header).disk b = t.disk b :=
            update_of_ne (hb.ne_header hsize) ..
          have hsame := congrFun hdone b
          rw [hd.recovered b hb] at hsame
          show recovered area (t.flush area.header).disk b = f.durable b
          rw [recovered_nil herased, hhome, hsame]
        · have hheader : Covers area (readHead ((t.flush area.header).disk area.header)) := by
            rw [herased]
            exact Covers.nil hsize
          exact hheader
      next := fun job' hjob => by contradiction
      last := fun _ => ⟨herased, hshown, hsettled⟩ }

private theorem flush (h : Doing area lh t f job) (hd : Durable area t f)
    (hhold : Holds area lh t job .flush) (hactive : f.active = 0) :
    ∃ f', Leads area lh t f job f' := by
  cases job with
  | copy tail => exact ⟨f, flush_copy h hd hhold⟩
  | commit => exact ⟨f.commit, flush_commit h hd hhold hactive⟩
  | install tail => exact ⟨f, flush_install h hd hhold⟩
  | clear => exact ⟨f, flush_clear h hd hhold⟩

end Flush

private theorem head (h : Doing area lh t f job) : Doing area (job.head lh) t f job := by
  cases h with
  | clear hdone hshown hsettled => exact .clear hdone hshown hsettled
  | copy hcovers htail herased hshown hunlogged hsaved =>
    exact .copy hcovers htail herased hshown hunlogged hsaved
  | commit hcovers hsome herased hshown hunlogged hsaved =>
    exact .commit hcovers hsome herased hshown hunlogged hsaved
  | install hcovers htail hhead hclean hdone hshown hsettled =>
    exact .install hcovers htail hhead hclean hdone hshown hsettled

private theorem holds_head (h : Holds area lh t job st) : Holds area (job.head lh) t job st := by
  cases job with
  | clear => cases st <;> exact h
  | _ => exact h

theorem active (h : Doing area lh t f job) (k : Nat) : Doing area lh t { f with active := k } job := by
  cases h with
  | clear hdone hshown hsettled => exact .clear hdone hshown hsettled
  | copy hcovers htail herased hshown hunlogged hsaved =>
    exact .copy hcovers htail herased hshown hunlogged hsaved
  | commit hcovers hsome herased hshown hunlogged hsaved =>
    exact .commit hcovers hsome herased hshown hunlogged hsaved
  | install hcovers htail hhead hclean hdone hshown hsettled =>
    exact .install hcovers htail hhead hclean hdone hshown hsettled

/-- What a step of a job leads to, with `next` to be done after it. -/
structure Goes (area : LogArea) (lh : List Nat) (t' : Store) (f' : FileStore)
    (next : Option (Job × Stage)) : Prop where
  more : ∀ job st, next = some (job, st) →
    Doing area (job.head lh) t' f' job ∧ Holds area (job.head lh) t' job st
  last : next = none → Cleared area t' f'

theorem doJob {next : Option (Job × Stage)} (h : Doing area s.lh t f job) (hd : Durable area t f)
    (hhold : Holds area s.lh t job st) (hactive : f.active = 0)
    (hdo : s.doJob area job v st = (next, io)) (hserves : t.Serves io t') :
    ∃ f', FileStore.Step f (job.event st) f' ∧ f'.current = f.current ∧ f'.active = f.active ∧
      Durable area t' f' ∧ Keeps area t t' f ∧ Goes area s.lh t' f' next := by
  cases st with
  | read =>
    simp only [Log.doJob, Prod.mk.injEq] at hdo
    rcases hdo with ⟨rfl, rfl⟩
    rcases hserves with _ | ⟨hstore⟩
    cases hstore
    refine ⟨f, .idle f, rfl, rfl, hd, fun b _ => Or.inl rfl, ⟨fun job' st' hsome => ?_, by simp⟩⟩
    simp only [Option.some.injEq, Prod.mk.injEq] at hsome
    rcases hsome with ⟨rfl, rfl⟩
    exact ⟨h.head, holds_head rfl⟩
  | hold w =>
    simp only [Log.doJob, Prod.mk.injEq] at hdo
    rcases hdo with ⟨rfl, rfl⟩
    rcases hserves with _ | ⟨hstore⟩
    cases hstore
    rcases h.put hd hhold with ⟨hput, hflush, hkeeps⟩
    refine ⟨f, .idle f, rfl, rfl, ⟨hd.recovered, hd.header⟩, hkeeps,
      ⟨fun job' st' hsome => ?_, by simp⟩⟩
    simp only [Option.some.injEq, Prod.mk.injEq] at hsome
    rcases hsome with ⟨rfl, rfl⟩
    exact ⟨hput.head, holds_head hflush⟩
  | flush =>
    simp only [Log.doJob, Prod.mk.injEq] at hdo
    rcases hdo with ⟨rfl, rfl⟩
    rcases hserves with _ | ⟨hstore⟩
    cases hstore
    rcases h.flush hd hhold hactive with ⟨f', hleads⟩
    refine ⟨f', hleads.step, hleads.current, hleads.active, hleads.durable, fun b _ => Or.inl rfl, ?_⟩
    refine ⟨fun job' st' hsome => ?_, fun hnone => hleads.last (Option.map_eq_none_iff.mp hnone)⟩
    rcases Option.map_eq_some_iff.mp hsome with ⟨job'', hnext, heq⟩
    simp only [Prod.mk.injEq] at heq
    rcases heq with ⟨rfl, rfl⟩
    exact ⟨hleads.next _ hnext, trivial⟩

end Doing

end OsSessional.Storage
