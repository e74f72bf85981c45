import OsSessional.Lib.Runs
import OsSessional.Lottery.ProcTable

/-!
# Processes under the lottery scheduler

The steps of `proc.c` that change the process table, each made under `ptable.lock`: a scheduler round
up to the dispatch, and what a dispatched process does. `fork` takes two steps, since other processes
may run between `allocproc` and the moment the child becomes RUNNABLE. A wake-up leaves `chan` as it
is; only sleeping processes are looked up by it.
-/

namespace OsSessional.Lottery

open Function (update)

/-- A process on a CPU, and `tick_start` of the round that dispatched it. -/
structure Dispatch where
  slot : Slot
  tick_start : Int32

/-- `ptable`, the counters, and what runs on each CPU. `child` is `np` of a `fork` in progress. -/
structure State (ncpu : Nat) where
  proc : Table
  nextpid : Int32
  ticks : UInt32
  initproc : Slot
  cpu : Fin ncpu → Option Dispatch
  child : Slot → Option Slot

/-- What the running process does. -/
inductive Call
  | yield
  | sleep (chan : Chan)
  | allocproc (kallocs : Bool)
  | copy (copies : Bool)
  | exit
  | wait
  | settickets (arg : Option Int32) (leftover : Int32)
  | kill (pid : Int32)

inductive Act (ncpu : Nat)
  | round (c : Fin ncpu) (genrand : List UInt32)
  | call (c : Fin ncpu) (call : Call)
  | timer
  | wakeup (chan : Chan)

/-- An entry of `ptable` in zeroed memory. -/
def Proc.zero : Proc := ⟨.UNUSED, 0, none, none, false, 0, 0⟩

variable {ncpu : Nat}

namespace State

/-- The state `userinit` leaves. -/
def boot : State ncpu where
  proc := update (fun _ => Proc.zero) 0 ⟨.RUNNABLE, 1, none, none, false, 10, 0⟩
  nextpid := 2
  ticks := 0
  initproc := 0
  cpu _ := none
  child _ := none

variable (s : State ncpu)

def setProc (p : Slot) (q : Proc) : State ncpu := { s with proc := update s.proc p q }

@[simp] theorem setProc_cpu (p : Slot) (q : Proc) : (s.setProc p q).cpu = s.cpu := rfl
@[simp] theorem setProc_child (p : Slot) (q : Proc) : (s.setProc p q).child = s.child := rfl

def wakeup1 (chan : Chan) : State ncpu :=
  { s with
    proc := fun p =>
      if (s.proc p).state = .SLEEPING ∧ (s.proc p).chan = some chan then
        { s.proc p with state := .RUNNABLE }
      else s.proc p }

/-- `allocproc`; without a frame for the kernel stack the slot is UNUSED again. -/
def allocproc (kallocs : Bool) : Option Slot × State ncpu :=
  match Scan.first fun p => (s.proc p).state == .UNUSED with
  | none => (none, s)
  | some p =>
    let q := { s.proc p with pid := s.nextpid, ticket := 10, tick := 0 }
    let s := { s with nextpid := s.nextpid + 1 }
    if kallocs then (some p, s.setProc p { q with state := .EMBRYO })
    else (none, s.setProc p { q with state := .UNUSED })

/-- `fork` after `allocproc`; without frames for `copyuvm` the slot is UNUSED again. -/
def copy (curproc np : Slot) (copies : Bool) : State ncpu :=
  if copies then
    s.setProc np { s.proc np with
      ticket := (s.proc curproc).ticket
      parent := some curproc
      state := .RUNNABLE }
  else s.setProc np { s.proc np with state := .UNUSED }

/-- `swtch` back to the scheduler, which charges the ticks and gives up the process. -/
def sched (c : Fin ncpu) (d : Dispatch) : State ncpu :=
  { s.setProc d.slot { s.proc d.slot with
      tick := (s.proc d.slot).tick + (s.ticks.toInt32 - d.tick_start) } with
    cpu := update s.cpu c none }

def yield (c : Fin ncpu) (d : Dispatch) : State ncpu :=
  (s.setProc d.slot { s.proc d.slot with state := .RUNNABLE }).sched c d

def sleep (c : Fin ncpu) (d : Dispatch) (chan : Chan) : State ncpu :=
  (s.setProc d.slot { s.proc d.slot with state := .SLEEPING, chan := some chan }).sched c d

/-- The loop of `exit` over the children. -/
def passChildren (curproc : Slot) : State ncpu :=
  let passed := { s with
    proc := fun p =>
      if (s.proc p).parent = some curproc then { s.proc p with parent := some s.initproc }
      else s.proc p }
  if ∃ p, (s.proc p).parent = some curproc ∧ (s.proc p).state = .ZOMBIE then
    passed.wakeup1 (.proc s.initproc)
  else passed

/-- `wakeup1(curproc->parent)`. -/
def wakeParent (curproc : Slot) : State ncpu :=
  match (s.proc curproc).parent with
  | some parent => s.wakeup1 (.proc parent)
  | none => s

def exit (c : Fin ncpu) (d : Dispatch) : Option (State ncpu) :=
  if d.slot = s.initproc then none
  else
    let s := (s.wakeParent d.slot).passChildren d.slot
    some ((s.setProc d.slot { s.proc d.slot with state := .ZOMBIE }).sched c d)

/-- One scan of `wait`: it frees the first exited child, gives up, or sleeps until the next. -/
def wait (c : Fin ncpu) (d : Dispatch) : State ncpu :=
  match Scan.first fun p =>
      (s.proc p).parent == some d.slot && (s.proc p).state == .ZOMBIE with
  | some p =>
    s.setProc p { s.proc p with pid := 0, parent := none, killed := false, state := .UNUSED }
  | none =>
    if (∀ p, (s.proc p).parent ≠ some d.slot) ∨ (s.proc d.slot).killed then s
    else s.sleep c d (.proc d.slot)

def settickets (curproc : Slot) (number : Int32) : State ncpu :=
  match Scan.first fun p => (s.proc p).pid == (s.proc curproc).pid with
  | some p => s.setProc p { s.proc p with ticket := number }
  | none => s

/-- `number` keeps what was on the stack when `argint` fails. -/
def sys_settickets (curproc : Slot) (arg : Option Int32) (leftover : Int32) : State ncpu :=
  let number := arg.getD leftover
  if number < 0 then s
  else if number = 0 then s.settickets curproc 10
  else s.settickets curproc number

def kill (pid : Int32) : State ncpu :=
  match Scan.first fun p => (s.proc p).pid == pid with
  | some p =>
    s.setProc p { s.proc p with
      killed := true
      state := if (s.proc p).state = .SLEEPING then .RUNNABLE else (s.proc p).state }
  | none => s

/-- A call of the process dispatched on `c`. In the middle of a `fork` there is only its rest. -/
def call (c : Fin ncpu) (d : Dispatch) (call : Call) : Option (State ncpu) :=
  match call, s.child d.slot with
  | .yield, _ => some (s.yield c d)
  | .sleep chan, _ => some (s.sleep c d chan)
  | .copy copies, some np =>
    some { s.copy d.slot np copies with child := update s.child d.slot none }
  | .allocproc kallocs, none =>
    match s.allocproc kallocs with
    | (np, s') => some { s' with child := update s.child d.slot np }
  | .exit, none => s.exit c d
  | .wait, none => some (s.wait c d)
  | .settickets arg leftover, none => some (s.sys_settickets d.slot arg leftover)
  | .kill pid, none => some (s.kill pid)
  | _, _ => none

/-- The dispatch at the end of a round. -/
def dispatch (c : Fin ncpu) (p : Slot) : State ncpu :=
  { s.setProc p { s.proc p with state := .RUNNING } with
    cpu := update s.cpu c (some ⟨p, s.ticks.toInt32⟩) }

/-- A round on an idle CPU, as far as the generator values given take it. -/
def round (c : Fin ncpu) (genrand : List UInt32) : Option (State ncpu) :=
  match s.cpu c, s.proc.lottery genrand with
  | none, .ok (some (some p)) => some (s.dispatch c p)
  | none, .ok (some none) => some s
  | _, _ => none

end State

def act (s : State ncpu) : Act ncpu → Option (State ncpu)
  | .round c genrand => s.round c genrand
  | .call c call => (s.cpu c).bind fun d => s.call c d call
  | .timer => some ({ s with ticks := s.ticks + 1 }.wakeup1 .ticks)
  | .wakeup chan => some (s.wakeup1 chan)

def Step (s : State ncpu) (a : Act ncpu) (s' : State ncpu) : Prop := act s a = some s'

end OsSessional.Lottery
