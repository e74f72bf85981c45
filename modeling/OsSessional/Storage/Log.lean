import Mathlib.Data.List.Dedup
import Mathlib.Data.List.GetD
import OsSessional.Lib.RedoLog
import OsSessional.Paging.Blocks
import OsSessional.Storage.Store

/-!
# The log

`log.c`: system calls that write blocks run between `begin_op` and `end_op`; the blocks they log are
written together when the last of them ends, first to the log area, then, after the header that
commits them, to their places. The committing process and the one that recovers at boot copy one
block at a time: they read it, put it into another buffer and write that. Regions under `log.lock`
are one step each. A process that begins an operation inside an open one counts as two here.
-/

namespace OsSessional.Storage

open Function (update)
open Paging (word setWord maxOpBlocks)

def logSize : Nat := maxOpBlocks * 3

/-- `log.dev`, `log.start` and `log.size`, with the most blocks that one system call writes. -/
structure LogArea where
  dev : Nat
  start : Nat
  size : Nat
  opBlocks : Nat

namespace LogArea

variable (area : LogArea)

/-- Block `b` of the device. -/
def at_ (b : Nat) : BlockId := ⟨area.dev, b⟩

/-- The block where entry `tail` of the log is kept. -/
def slot (tail : Nat) : BlockId := area.at_ (area.start + tail + 1)

/-- The header block. -/
def header : BlockId := area.at_ area.start

/-- A block outside of the log. -/
def Home (b : BlockId) : Prop :=
  b.dev = area.dev ∧ (b.blockno < area.start ∨ area.start + area.size ≤ b.blockno)

instance (b : BlockId) : Decidable (area.Home b) :=
  inferInstanceAs (Decidable (_ ∧ (_ ∨ _)))

end LogArea

section Header

open Paging (word_setWord_self word_setWord_of_ne)

/-- The block numbers in a `struct logheader`: `n` is its first word. -/
def readHead (v : Block) : List Nat := (List.range (word v 0)).map fun i => word v (i + 1)

/-- The header with `lh` over what the block held. -/
def writeHead (lh : List Nat) (v : Block) : Block :=
  (List.range lh.length).foldl (fun v i => setWord v (i + 1) (lh.getD i 0)) (setWord v 0 lh.length)

private theorem words_writeHead (lh : List Nat) (v : Block) (k : Nat) :
    let w := (List.range k).foldl (fun v i => setWord v (i + 1) (lh.getD i 0)) v
    word w 0 = word v 0 ∧ ∀ i < k, lh.getD i 0 < 2 ^ 32 → word w (i + 1) = lh.getD i 0 := by
  induction k with
  | zero => exact ⟨rfl, by simp⟩
  | succ k ih =>
    rw [List.range_succ, List.foldl_append]
    refine ⟨?_, ?_⟩
    · rw [List.foldl_cons, List.foldl_nil, word_setWord_of_ne _ _ (by omega)]
      exact ih.1
    · intro i hi hword
      rw [List.foldl_cons, List.foldl_nil]
      by_cases hik : i = k
      · rw [hik] at hword ⊢
        rw [word_setWord_self _ _ hword]
      · rw [word_setWord_of_ne _ _ (by omega)]
        exact ih.2 i (by omega) hword

theorem readHead_writeHead {lh : List Nat} (hlen : lh.length < 2 ^ 32) (hword : ∀ b ∈ lh, b < 2 ^ 32)
    (v : Block) : readHead (writeHead lh v) = lh := by
  have hwords := words_writeHead lh (setWord v 0 lh.length) lh.length
  have hn : word (writeHead lh v) 0 = lh.length := hwords.1.trans (word_setWord_self _ _ hlen)
  unfold readHead
  rw [hn]
  apply List.ext_getElem
  · simp
  · intro i hi hi'
    have hget : lh.getD i 0 = lh[i] := List.getD_eq_getElem _ _ hi'
    rw [List.getElem_map, List.getElem_range]
    have hw := hwords.2 i hi' (by rw [hget]; exact hword _ (List.getElem_mem hi'))
    exact hw.trans hget

end Header

/-- What `install_trans`, `write_log` and `write_head` do in turn: `copy` entry `tail` to the log,
`commit` the header, `install` entry `tail`, `clear` the header. -/
inductive Job
  | copy (tail : Nat)
  | commit
  | install (tail : Nat)
  | clear
  deriving DecidableEq

/-- A job reads a block, puts it into the buffer of another, and writes that. -/
inductive Stage
  | read
  | hold (v : Block)
  | flush

/-- Where a process is: in `begin_op` before a test or asleep; in a system call that has logged
`w`; there with the data of block `b` changed, before and after the tests of `log_write`; in
`commit`; about to leave `end_op`. -/
inductive Pc
  | out
  | begin_op
  | asleep
  | inOp (w : List Nat)
  | dirtied (w : List Nat) (b : Nat)
  | tested (w : List Nat) (b : Nat)
  | commit (job : Job) (st : Stage)
  | leave

/-- What `wakeup(&log)` does to a process. -/
def Pc.wake : Pc → Pc
  | .asleep => .begin_op
  | p => p

/-- The recovery at boot: `read_head`, the rest of `recover_from_log`, and done. -/
inductive Boot
  | readHead
  | work (job : Job) (st : Stage)
  | up

/-- `struct log`, with the processes that use it. -/
structure Log (ι : Type) where
  lh : List Nat
  outstanding : Nat
  committing : Bool
  boot : Boot
  pc : ι → Pc

/-- Which process moves and how; `see` and `modify` choose a block. `work` carries what a read
returns. -/
inductive LogAct (ι : Type)
  | call (i : ι)
  | test (i : ι)
  | see (i : ι) (b : Nat) (v : Block)
  | modify (i : ι) (b : Nat) (v : Block)
  | check (i : ι)
  | log_write (i : ι)
  | end_op (i : ι)
  | work (i : ι) (v : Block)
  | leave (i : ι)
  | recover (v : Block)
  | crash

section Jobs

variable (area : LogArea) (lh : List Nat)

/-- The block of entry `tail`. -/
def entry (tail : Nat) : BlockId := area.at_ (lh.getD tail 0)

def Job.src : Job → BlockId
  | .copy tail => entry area lh tail
  | .commit => area.header
  | .install tail => area.slot tail
  | .clear => area.header

def Job.dst : Job → BlockId
  | .copy tail => area.slot tail
  | .commit => area.header
  | .install tail => entry area lh tail
  | .clear => area.header

/-- What is put there, given what was read. -/
def Job.data : Job → Block → Block
  | .copy _, v => v
  | .commit, v => writeHead lh v
  | .install _, v => v
  | .clear, v => writeHead [] v

/-- The next job. -/
def Job.next : Job → Option Job
  | .copy tail => if tail + 1 < lh.length then some (.copy (tail + 1)) else some .commit
  | .commit => some (.install 0)
  | .install tail => if tail + 1 < lh.length then some (.install (tail + 1)) else some .clear
  | .clear => none

/-- The in-memory header a job leaves: `log.lh.n = 0` comes before the last `write_head`. -/
def Job.head : Job → List Nat
  | .clear => []
  | _ => lh

end Jobs

namespace Log

variable {ι : Type} [DecidableEq ι] (area : LogArea) (s : Log ι)

def goto (i : ι) (p : Pc) : Log ι := { s with pc := update s.pc i p }

/-- `wakeup(&log)`. -/
def wakeup : Log ι := { s with pc := fun i => (s.pc i).wake }

/-- The test of `begin_op`. -/
def busy : Bool := s.committing || decide (s.lh.length + (s.outstanding + 1) * maxOpBlocks > logSize)

/-- `log_write` adds a block that is not in the log yet. -/
def absorb (b : Nat) : List Nat := if b ∈ s.lh then s.lh else s.lh ++ [b]

/-- The two panics of `log_write`. -/
def panics : Bool :=
  decide (s.lh.length ≥ logSize) || decide (s.lh.length ≥ area.size - 1) || decide (s.outstanding < 1)

/-- A step of a job; `none` for the job means that it was the last one. -/
def doJob (job : Job) (v : Block) : Stage → Option (Job × Stage) × Option Io
  | .read => (some (job, .hold v), some (.see (job.src area s.lh) v))
  | .hold v => (some (job, .flush), some (.put (job.dst area s.lh) (job.data s.lh v)))
  | .flush => ((job.next s.lh).map (·, .read), some (.flush (job.dst area s.lh)))

/-- The first job of a commit, if there is anything to commit. -/
def firstJob : Pc := if 0 < s.lh.length then .commit (.copy 0) .read else .leave

/-- The machine comes up: `initlog` has not read the log yet. -/
def reset : Log ι :=
  { lh := [], outstanding := 0, committing := false, boot := .readHead, pc := fun _ => .out }

/-- A step and what it does to the store; `none` where it cannot be taken. -/
def act : LogAct ι → Option (Log ι × Option Io)
  | .call i =>
    match s.boot, s.pc i with
    | .up, .out => some (s.goto i .begin_op, none)
    | _, _ => none
  | .test i =>
    match s.pc i with
    | .begin_op =>
      if s.busy then some (s.goto i .asleep, none)
      else some ({ s with outstanding := s.outstanding + 1 }.goto i (.inOp []), none)
    | _ => none
  | .see i b v =>
    match s.boot, s.pc i with
    | .up, .out => some (s, some (.see (area.at_ b) v))
    | .up, .inOp _ => some (s, some (.see (area.at_ b) v))
    | _, _ => none
  | .modify i b v =>
    match s.pc i with
    | .inOp w =>
      if area.Home (area.at_ b) ∧ b < 2 ^ 32 ∧ (b :: w).dedup.length ≤ area.opBlocks then
        some (s.goto i (.dirtied w b), some (.put (area.at_ b) v))
      else none
    | _ => none
  | .check i =>
    match s.pc i with
    | .dirtied w b => if s.panics area then none else some (s.goto i (.tested w b), none)
    | _ => none
  | .log_write i =>
    match s.pc i with
    | .tested w b =>
      some ({ s with lh := s.absorb b }.goto i (.inOp (b :: w)), some (.pin (area.at_ b)))
    | _ => none
  | .end_op i =>
    match s.pc i with
    | .inOp _ =>
      if s.committing then none
      else if s.outstanding - 1 = 0 then
        some ({ s with outstanding := 0, committing := true }.goto i s.firstJob, none)
      else some (({ s with outstanding := s.outstanding - 1 }.goto i .out).wakeup, none)
    | _ => none
  | .work i v =>
    match s.pc i with
    | .commit job st =>
      match s.doJob area job v st with
      | (some (job', st'), io) => some ({ s with lh := job'.head s.lh }.goto i (.commit job' st'), io)
      | (none, io) => some (s.goto i .leave, io)
    | _ => none
  | .leave i =>
    match s.pc i with
    | .leave => some (({ s with committing := false }.goto i .out).wakeup, none)
    | _ => none
  | .recover v =>
    match s.boot with
    | .readHead =>
      let lh := readHead v
      some ({ s with
        lh := lh
        boot := if 0 < lh.length then .work (.install 0) .read else .work .clear .read },
        some (.see area.header v))
    | .work job st =>
      match s.doJob area job v st with
      | (some (job', st'), io) => some ({ s with lh := job'.head s.lh, boot := .work job' st' }, io)
      | (none, io) => some ({ s with boot := .up }, io)
    | .up => none
  | .crash => some (reset, some .crash)

section Cases

variable {area s} {s' : Log ι} {a : LogAct ι}

/-- The steps of the log. -/
inductive Moves (area : LogArea) (s : Log ι) : LogAct ι → Log ι → Option Io → Prop
  | call {i : ι} (hboot : s.boot = .up) (hpc : s.pc i = .out) :
      Moves area s (.call i) (s.goto i .begin_op) none
  | waits {i : ι} (hpc : s.pc i = .begin_op) (hbusy : s.busy = true) :
      Moves area s (.test i) (s.goto i .asleep) none
  | enters {i : ι} (hpc : s.pc i = .begin_op) (hbusy : s.busy = false) :
      Moves area s (.test i) ({ s with outstanding := s.outstanding + 1 }.goto i (.inOp [])) none
  | see {i : ι} {b : Nat} {v : Block} (hboot : s.boot = .up) :
      Moves area s (.see i b v) s (some (.see (area.at_ b) v))
  | modify {i : ι} {w : List Nat} {b : Nat} {v : Block} (hpc : s.pc i = .inOp w)
      (hhome : area.Home (area.at_ b)) (hword : b < 2 ^ 32)
      (hlimit : (b :: w).dedup.length ≤ area.opBlocks) :
      Moves area s (.modify i b v) (s.goto i (.dirtied w b)) (some (.put (area.at_ b) v))
  | check {i : ι} {w : List Nat} {b : Nat} (hpc : s.pc i = .dirtied w b)
      (hpanics : s.panics area = false) : Moves area s (.check i) (s.goto i (.tested w b)) none
  | log_write {i : ι} {w : List Nat} {b : Nat} (hpc : s.pc i = .tested w b) :
      Moves area s (.log_write i) ({ s with lh := s.absorb b }.goto i (.inOp (b :: w)))
        (some (.pin (area.at_ b)))
  | ends {i : ι} {w : List Nat} (hpc : s.pc i = .inOp w) (hcommitting : s.committing = false)
      (hmore : s.outstanding - 1 ≠ 0) :
      Moves area s (.end_op i)
        ({ s with outstanding := s.outstanding - 1 }.goto i .out).wakeup none
  | lastEnds {i : ι} {w : List Nat} (hpc : s.pc i = .inOp w) (hcommitting : s.committing = false)
      (hlast : s.outstanding - 1 = 0) :
      Moves area s (.end_op i)
        ({ s with outstanding := 0, committing := true }.goto i s.firstJob) none
  | works {i : ι} {v : Block} {job job' : Job} {st st' : Stage} {io : Option Io}
      (hpc : s.pc i = .commit job st)
      (hjob : s.doJob area job v st = (some (job', st'), io)) :
      Moves area s (.work i v) ({ s with lh := job'.head s.lh }.goto i (.commit job' st')) io
  | worked {i : ι} {v : Block} {job : Job} {st : Stage} {io : Option Io}
      (hpc : s.pc i = .commit job st) (hjob : s.doJob area job v st = (none, io)) :
      Moves area s (.work i v) (s.goto i .leave) io
  | leave {i : ι} (hpc : s.pc i = .leave) :
      Moves area s (.leave i) ({ s with committing := false }.goto i .out).wakeup none
  | readHead {v : Block} (hboot : s.boot = .readHead) :
      Moves area s (.recover v)
        { s with
          lh := readHead v
          boot := if 0 < (readHead v).length then .work (.install 0) .read else .work .clear .read }
        (some (.see area.header v))
  | recovers {v : Block} {job job' : Job} {st st' : Stage} {io : Option Io}
      (hboot : s.boot = .work job st) (hjob : s.doJob area job v st = (some (job', st'), io)) :
      Moves area s (.recover v) { s with lh := job'.head s.lh, boot := .work job' st' } io
  | recovered {v : Block} {job : Job} {st : Stage} {io : Option Io} (hboot : s.boot = .work job st)
      (hjob : s.doJob area job v st = (none, io)) :
      Moves area s (.recover v) { s with boot := .up } io
  | crash : Moves area s .crash reset (some .crash)

theorem act_cases {io : Option Io} (h : s.act area a = some (s', io)) : Moves area s a s' io := by
  cases a with
  | call i =>
    simp only [act] at h
    split at h
    · next hboot hpc =>
      simp only [Option.some.injEq, Prod.mk.injEq] at h
      rcases h with ⟨rfl, rfl⟩
      exact .call hboot hpc
    · contradiction
  | test i =>
    simp only [act] at h
    split at h
    · next hpc =>
      split at h
      · next hbusy =>
        simp only [Option.some.injEq, Prod.mk.injEq] at h
        rcases h with ⟨rfl, rfl⟩
        exact .waits hpc hbusy
      · next hbusy =>
        simp only [Option.some.injEq, Prod.mk.injEq] at h
        rcases h with ⟨rfl, rfl⟩
        exact .enters hpc (by simpa using hbusy)
    · contradiction
  | see i b v =>
    simp only [act] at h
    split at h
    · next hboot _ =>
      simp only [Option.some.injEq, Prod.mk.injEq] at h
      rcases h with ⟨rfl, rfl⟩
      exact .see hboot
    · next hboot _ =>
      simp only [Option.some.injEq, Prod.mk.injEq] at h
      rcases h with ⟨rfl, rfl⟩
      exact .see hboot
    · contradiction
  | modify i b v =>
    simp only [act] at h
    split at h
    · next hpc =>
      split at h
      · next hok =>
        simp only [Option.some.injEq, Prod.mk.injEq] at h
        rcases h with ⟨rfl, rfl⟩
        exact .modify hpc hok.1 hok.2.1 hok.2.2
      · contradiction
    · contradiction
  | check i =>
    simp only [act] at h
    split at h
    · next hpc =>
      split at h
      · contradiction
      · next hpanics =>
        simp only [Option.some.injEq, Prod.mk.injEq] at h
        rcases h with ⟨rfl, rfl⟩
        exact .check hpc (by simpa using hpanics)
    · contradiction
  | log_write i =>
    simp only [act] at h
    split at h
    · next hpc =>
      simp only [Option.some.injEq, Prod.mk.injEq] at h
      rcases h with ⟨rfl, rfl⟩
      exact .log_write hpc
    · contradiction
  | end_op i =>
    simp only [act] at h
    split at h
    · next hpc =>
      split at h
      · contradiction
      · next hcommitting =>
        split at h
        · next hlast =>
          simp only [Option.some.injEq, Prod.mk.injEq] at h
          rcases h with ⟨rfl, rfl⟩
          exact .lastEnds hpc (by simpa using hcommitting) hlast
        · next hmore =>
          simp only [Option.some.injEq, Prod.mk.injEq] at h
          rcases h with ⟨rfl, rfl⟩
          exact .ends hpc (by simpa using hcommitting) hmore
    · contradiction
  | work i v =>
    simp only [act] at h
    split at h
    · next hpc =>
      split at h
      · next hjob =>
        simp only [Option.some.injEq, Prod.mk.injEq] at h
        rcases h with ⟨rfl, rfl⟩
        exact .works hpc hjob
      · next hjob =>
        simp only [Option.some.injEq, Prod.mk.injEq] at h
        rcases h with ⟨rfl, rfl⟩
        exact .worked hpc hjob
    · contradiction
  | leave i =>
    simp only [act] at h
    split at h
    · next hpc =>
      simp only [Option.some.injEq, Prod.mk.injEq] at h
      rcases h with ⟨rfl, rfl⟩
      exact .leave hpc
    · contradiction
  | recover v =>
    simp only [act] at h
    split at h
    · next hboot =>
      simp only [Option.some.injEq, Prod.mk.injEq] at h
      rcases h with ⟨rfl, rfl⟩
      exact .readHead hboot
    · next hboot =>
      split at h
      · next hjob =>
        simp only [Option.some.injEq, Prod.mk.injEq] at h
        rcases h with ⟨rfl, rfl⟩
        exact .recovers hboot hjob
      · next hjob =>
        simp only [Option.some.injEq, Prod.mk.injEq] at h
        rcases h with ⟨rfl, rfl⟩
        exact .recovered hboot hjob
    · contradiction
  | crash =>
    simp only [act, Option.some.injEq, Prod.mk.injEq] at h
    rcases h with ⟨rfl, rfl⟩
    exact .crash

end Cases

/-- The panics of `log_write`, and that of `end_op`. -/
def fails (i : ι) : Bool :=
  match s.pc i with
  | .dirtied _ _ => s.panics area
  | .inOp _ => s.committing
  | _ => false

/-- A step of the log as a client of the store. -/
def Client (s : Log ι) (a : LogAct ι) (io : Option Io) (s' : Log ι) : Prop :=
  s.act area a = some (s', io)

end Log

end OsSessional.Storage
