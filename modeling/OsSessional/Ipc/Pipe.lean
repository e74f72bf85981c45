import Mathlib.Data.Fintype.Basic
import OsSessional.Lib.Ring
import OsSessional.Lib.Runs

/-!
# Pipes

`pipe.c`: any number of processes read and write one pipe. What happens between `acquire` and the next
`release` or `sleep` is one step; a process that sleeps has `p->lock` until it has `ptable.lock`. `kill`
takes `ptable.lock` only. A file's reference count keeps an end open while a process is inside a call on it.
-/

namespace OsSessional.Ipc

open Function (update)

def pipeSize : Nat := 512

structure Pipe where
  data : Nat → UInt8
  nread : UInt32
  nwrite : UInt32
  readopen : Bool
  writeopen : Bool

namespace Pipe

variable (p : Pipe)

/-- The counters of a pipe with its data. -/
def ring : Ring UInt8 := ⟨p.data, p.nread, p.nwrite⟩

def full : Bool := p.nwrite == p.nread + UInt32.ofNat pipeSize

def empty : Bool := p.nread == p.nwrite

/-- `p->data[p->nwrite++ % PIPESIZE] = x` -/
def put (x : UInt8) : Pipe :=
  { p with data := update p.data (p.nwrite.toNat % pipeSize) x, nwrite := p.nwrite + 1 }

/-- `p->data[p->nread % PIPESIZE]` -/
def front : UInt8 := p.data (p.nread.toNat % pipeSize)

def take : Pipe := { p with nread := p.nread + 1 }

/-- The loop of `pipewrite` up to a full pipe: what was put, and what is left to put. -/
def fill (p : Pipe) : List UInt8 → Pipe × List UInt8 × List UInt8
  | [] => (p, [], [])
  | x :: addr =>
    if p.full then (p, [], x :: addr)
    else
      let r := (p.put x).fill addr
      (r.1, x :: r.2.1, r.2.2)

/-- The loop of `piperead` after the wait. -/
def drain (p : Pipe) : Nat → Pipe × List UInt8
  | 0 => (p, [])
  | n + 1 =>
    if p.empty then (p, [])
    else
      let r := p.take.drain n
      (r.1, p.front :: r.2)

@[simp] theorem put_readopen (x : UInt8) : (p.put x).readopen = p.readopen := rfl
@[simp] theorem put_writeopen (x : UInt8) : (p.put x).writeopen = p.writeopen := rfl
@[simp] theorem take_readopen : p.take.readopen = p.readopen := rfl
@[simp] theorem take_writeopen : p.take.writeopen = p.writeopen := rfl

end Pipe

/-- Where a process is: outside; in `pipewrite` of `n` bytes with `addr` still to put, awake, in `sleep`
with `p->lock` still held, or asleep on `&p->nwrite`; or so in `piperead` of `n` bytes. -/
inductive Pc
  | out
  | pipewrite (addr : List UInt8) (n : Nat)
  | fullLocked (addr : List UInt8) (n : Nat)
  | fullSleep (addr : List UInt8) (n : Nat)
  | piperead (n : Nat)
  | emptyLocked (n : Nat)
  | emptySleep (n : Nat)

namespace Pc

def writing : Pc → Bool
  | .pipewrite _ _ => true
  | .fullLocked _ _ => true
  | .fullSleep _ _ => true
  | _ => false

def reading : Pc → Bool
  | .piperead _ => true
  | .emptyLocked _ => true
  | .emptySleep _ => true
  | _ => false

/-- In `sleep`, with `p->lock`. -/
def locks : Pc → Bool
  | .fullLocked _ _ => true
  | .emptyLocked _ => true
  | _ => false

/-- In a call on the end that can be written, or on the other one. -/
def uses (writable : Bool) (pc : Pc) : Bool := if writable then pc.writing else pc.reading

/-- `wakeup(&p->nread)` -/
def wakeRead : Pc → Pc
  | .emptySleep n => .piperead n
  | pc => pc

/-- `wakeup(&p->nwrite)` -/
def wakeWrite : Pc → Pc
  | .fullSleep addr n => .pipewrite addr n
  | pc => pc

end Pc

structure State (ι : Type) where
  pipe : Pipe
  /-- The process that has `p->lock` between two steps. -/
  lock : Option ι
  killed : ι → Bool
  pc : ι → Pc

/-- Which process moves and how; `turn` is what it does from `acquire` to `release` or `sleep`, or
in `sleep`. -/
inductive Act (ι : Type)
  | pipewrite (i : ι) (addr : List UInt8)
  | piperead (i : ι) (n : Nat)
  | turn (i : ι)
  | kill (i : ι)
  | pipeclose (writable : Bool)

/-- What a step puts into the pipe or takes from it, and what the call returns, unless it sleeps. -/
inductive Event (ι : Type)
  | other
  | wrote (i : ι) (bs : List UInt8) (ret : Option Int)
  | read (i : ι) (n : Nat) (bs : List UInt8) (ret : Option Int)

namespace Event

variable {ι : Type}

def sent : Event ι → List UInt8
  | .wrote _ bs _ => bs
  | _ => []

def received : Event ι → List UInt8
  | .read _ _ bs _ => bs
  | _ => []

/-- A write that fails after it has put something. -/
def Abandons (e : Event ι) : Prop := ∃ i bs, e = .wrote i bs (some (-1)) ∧ bs ≠ []

end Event

namespace State

variable {ι : Type} (s : State ι)

def wakeRead : State ι := { s with pc := fun i => (s.pc i).wakeRead }

def wakeWrite : State ι := { s with pc := fun i => (s.pc i).wakeWrite }

@[simp] theorem wakeRead_pipe : s.wakeRead.pipe = s.pipe := rfl
@[simp] theorem wakeRead_lock : s.wakeRead.lock = s.lock := rfl
@[simp] theorem wakeRead_killed : s.wakeRead.killed = s.killed := rfl
@[simp] theorem wakeRead_pc (i : ι) : s.wakeRead.pc i = (s.pc i).wakeRead := rfl
@[simp] theorem wakeWrite_pipe : s.wakeWrite.pipe = s.pipe := rfl
@[simp] theorem wakeWrite_lock : s.wakeWrite.lock = s.lock := rfl
@[simp] theorem wakeWrite_killed : s.wakeWrite.killed = s.killed := rfl
@[simp] theorem wakeWrite_pc (i : ι) : s.wakeWrite.pc i = (s.pc i).wakeWrite := rfl

variable [DecidableEq ι]

def goto (i : ι) (pc : Pc) : State ι := { s with pc := update s.pc i pc }

@[simp] theorem goto_pipe (i : ι) (pc : Pc) : (s.goto i pc).pipe = s.pipe := rfl
@[simp] theorem goto_lock (i : ι) (pc : Pc) : (s.goto i pc).lock = s.lock := rfl
@[simp] theorem goto_killed (i : ι) (pc : Pc) : (s.goto i pc).killed = s.killed := rfl
@[simp] theorem goto_pc (i : ι) (pc : Pc) : (s.goto i pc).pc = update s.pc i pc := rfl

/-- The part of `pipewrite` from one `acquire` to the next `release` or `sleep`. -/
def pipewrite (i : ι) (addr : List UInt8) (n : Nat) : State ι × Event ι :=
  let r := s.pipe.fill addr
  let s : State ι := { s with pipe := r.1 }
  if r.2.2 = [] then ((s.goto i .out).wakeRead, .wrote i r.2.1 (some n))
  else if s.pipe.readopen = false ∨ s.killed i = true then (s.goto i .out, .wrote i r.2.1 (some (-1)))
  else ({ (s.goto i (.fullLocked r.2.2 n)).wakeRead with lock := some i }, .wrote i r.2.1 none)

def piperead (i : ι) (n : Nat) : State ι × Event ι :=
  if s.pipe.empty = true ∧ s.pipe.writeopen = true then
    if s.killed i = true then (s.goto i .out, .read i n [] (some (-1)))
    else ({ s.goto i (.emptyLocked n) with lock := some i }, .read i n [] none)
  else
    let r := s.pipe.drain n
    (({ s with pipe := r.1 }.goto i .out).wakeWrite, .read i n r.2 (some r.2.length))

/-- `sleep` gives up `p->lock` when `wakeup` can no longer miss the process. -/
def sleep (i : ι) (pc : Pc) : State ι := { s.goto i pc with lock := none }

/-- `kill` rouses a process that sleeps. -/
def kill (i : ι) : State ι :=
  { s.goto i (s.pc i).wakeRead.wakeWrite with killed := update s.killed i true }

def pipeclose (writable : Bool) : State ι :=
  if writable then { s with pipe := { s.pipe with writeopen := false } }.wakeRead
  else { s with pipe := { s.pipe with readopen := false } }.wakeWrite

/-- A step and what is seen of it; `none` where it cannot be taken. -/
def act [Fintype ι] : Act ι → Option (State ι × Event ι)
  | .pipewrite i addr =>
    match s.pc i with
    | .out => if s.pipe.writeopen then some (s.goto i (.pipewrite addr addr.length), .other) else none
    | _ => none
  | .piperead i n =>
    match s.pc i with
    | .out => if s.pipe.readopen then some (s.goto i (.piperead n), .other) else none
    | _ => none
  | .turn i =>
    match s.pc i with
    | .pipewrite addr n => if s.lock = none then some (s.pipewrite i addr n) else none
    | .fullLocked addr n => some (s.sleep i (.fullSleep addr n), .other)
    | .piperead n => if s.lock = none then some (s.piperead i n) else none
    | .emptyLocked n => some (s.sleep i (.emptySleep n), .other)
    | _ => none
  | .kill i => some (s.kill i, .other)
  | .pipeclose writable =>
    if s.lock = none ∧ ∀ i, (s.pc i).uses writable = false then
      some (s.pipeclose writable, .other)
    else none

/-- A step and what is seen of it. -/
def Step [Fintype ι] (s : State ι) (e : Event ι) (s' : State ι) : Prop := ∃ a, s.act a = some (s', e)

/-- The pipe as `pipealloc` leaves it, with nobody in a call. -/
structure Opened (s : State ι) : Prop where
  counters : s.pipe.nread = 0 ∧ s.pipe.nwrite = 0
  ends : s.pipe.readopen = true ∧ s.pipe.writeopen = true
  lock : s.lock = none
  out : ∀ i, s.pc i = .out

end State

end OsSessional.Ipc
