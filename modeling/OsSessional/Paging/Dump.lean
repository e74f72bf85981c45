import OsSessional.Paging.Proc

/-!
# What the dump follows

`exit` calls `procdump`, which walks the page directory of every slot that is not `UNUSED`. A slot
leaves `UNUSED` in `allocproc`, but gets its directory from `fork` only after `createSwapFile` has
slept, and `wait` leaves the old pointer behind.

A system call is cut where the process sleeps in the file system: `fork` in `createSwapFile` and in
the copy of the swap file, `exec` while it reads the program and while it replaces the swap file,
`exit` before and after its dump. Between two cuts nobody else runs. Page tables, pages and stacks
are left out; a pointer to a directory carries the call of `setupkvm` that returned it, so that a frame
given out a second time is another directory.
-/

namespace OsSessional.Paging.Dump

open Function (update)

/-- A page directory: its frame, and the number of the call of `setupkvm` that returned it. -/
structure Dir where
  addr : Frame
  call : Nat
  deriving DecidableEq

/-- The fields of `struct proc` that `procdump` reads, and `parent`. -/
structure Proc where
  state : ProcState
  pid : Nat
  pgdir : Option Dir
  parent : Option Slot

/-- Where a process sleeps or was left off: outside the calls below, in `allocproc` for a child, in
the copy of the swap file for a child, in `exec` with its new directory, in `exec` with its old one, in
`exit` before the dump, in `exit` after it. -/
inductive Place
  | user
  | creating (np : Slot)
  | copying (np : Slot)
  | loading (pgdir : Dir)
  | replacing (oldpgdir : Option Dir)
  | closing
  | leaving
  deriving DecidableEq

/-- The process table with the places of its processes. `live` remembers for which process, by slot
and pid, each directory was set up, until `freevm` releases it. -/
structure State where
  proc : Slot → Proc
  place : Slot → Place
  nextpid : Nat
  calls : Nat
  live : Dir → Option (Slot × Nat)

/-- How `copyuvm` ends: `setupkvm` fails, a page cannot be copied, or all is copied. -/
inductive Copyuvm
  | noDir
  | failed (addr : Frame)
  | copied (addr : Frame)

def initproc : Slot := ⟨0, zero_lt_nProc⟩

/-- The process is there and has not ended. -/
def Awake (st : ProcState) : Prop := st = .SLEEPING ∨ st = .RUNNABLE ∨ st = .RUNNING

instance (st : ProcState) : Decidable (Awake st) := by
  unfold Awake
  infer_instance

namespace State

def setProc (s : State) (p : Slot) (v : Proc) : State := { s with proc := update s.proc p v }

def moveTo (s : State) (c : Slot) (dest : Place) : State := { s with place := update s.place c dest }

/-- `procdump`: the slots it prints, each with the page directory it follows. -/
def procdump (s : State) : List (Slot × Option Dir) :=
  (List.finRange nProc).filterMap fun p =>
    if (s.proc p).state = .UNUSED then none else some (p, (s.proc p).pgdir)

/-- `setupkvm` for process `c`, on the frame `kalloc` returned. -/
def setupkvm (s : State) (c : Slot) (addr : Frame) : Dir × State :=
  (⟨addr, s.calls⟩,
    { s with
      calls := s.calls + 1
      live := update s.live ⟨addr, s.calls⟩ (some (c, (s.proc c).pid)) })

/-- `freevm`; it panics on a null pointer. -/
def freevm (s : State) : Option Dir → Option State
  | none => none
  | some d => some { s with live := update s.live d none }

def unusedSlot (s : State) : Option Slot := Scan.first fun p => (s.proc p).state = .UNUSED

/-- `allocproc`, but for `createSwapFile`; `stack` says whether `kalloc` finds a frame for the kernel
stack. -/
def allocproc (s : State) (stack : Bool) : Option Slot × State :=
  match s.unusedSlot with
  | none => (none, s)
  | some np =>
    let s := { s.setProc np { s.proc np with state := .EMBRYO, pid := s.nextpid } with
      nextpid := s.nextpid + 1 }
    if stack then (some np, s) else (none, s.setProc np { s.proc np with state := .UNUSED })

/-- `copyuvm` for the child in slot `np`. -/
def copyuvm (s : State) (np : Slot) : Copyuvm → Option Dir × State
  | .noDir => (none, s)
  | .failed addr =>
    let (d, s) := s.setupkvm np addr
    (none, { s with live := update s.live d none })
  | .copied addr =>
    let (d, s) := s.setupkvm np addr
    (some d, s)

/-- The end of `fork`. -/
def runnable (s : State) (c np : Slot) : State :=
  (s.setProc np { s.proc np with state := .RUNNABLE }).moveTo c .user

/-- `fork` from `copyuvm` to the copy of the swap file, which only a process with `pid > 2` makes. -/
def copyChild (s : State) (c np : Slot) (r : Copyuvm) : State :=
  match s.copyuvm np r with
  | (none, s) => (s.setProc np { s.proc np with pgdir := none, state := .UNUSED }).moveTo c .user
  | (some d, s) =>
    let s := (s.setProc np { s.proc np with pgdir := some d, parent := some c }).moveTo c (.copying np)
    if (s.proc c).pid > 2 then s else s.runnable c np

/-- `fork` up to `createSwapFile`, which only a child with `pid > 2` gets. -/
def fork (s : State) (c : Slot) (stack : Bool) (r : Copyuvm) : State :=
  match s.allocproc stack with
  | (none, s) => s
  | (some np, s) =>
    let s := s.moveTo c (.creating np)
    if (s.proc np).pid > 2 then s else s.copyChild c np r

/-- `exec` up to its new directory. -/
def exec (s : State) (c : Slot) : Option Frame → State
  | none => s
  | some addr =>
    let (d, s) := s.setupkvm c addr
    s.moveTo c (.loading d)

/-- `bad` in `exec`. -/
def bad (s : State) (c : Slot) (pgdir : Dir) : Option State :=
  (s.freevm (some pgdir)).map (·.moveTo c .user)

/-- The end of `exec`. -/
def replaced (s : State) (c : Slot) (oldpgdir : Option Dir) : Option State :=
  (s.freevm oldpgdir).map (·.moveTo c .user)

/-- `exec` commits to the user image; only a process with `pid > 2` has a swap file to replace. -/
def commit (s : State) (c : Slot) (pgdir : Dir) : Option State :=
  let oldpgdir := (s.proc c).pgdir
  let s := (s.setProc c { s.proc c with pgdir := some pgdir }).moveTo c (.replacing oldpgdir)
  if (s.proc c).pid > 2 then some s else s.replaced c oldpgdir

/-- The end of `exit`: abandoned children go to `initproc`. -/
def leave (s : State) (c : Slot) : State :=
  let s := { s with
    proc := fun p =>
      if (s.proc p).parent = some c then { s.proc p with parent := some initproc } else s.proc p }
  (s.setProc c { s.proc c with state := .ZOMBIE }).moveTo c .user

/-- `wait` where it finds the zombie at `p`; the pointer to the directory stays. -/
def wait (s : State) (p : Slot) : Option State :=
  (s.freevm (s.proc p).pgdir).map fun s =>
    s.setProc p { s.proc p with pid := 0, parent := none, state := .UNUSED }

/-- Process `c` has the CPU at this place. -/
def Runs (s : State) (c : Slot) (dest : Place) : Prop := (s.proc c).state = .RUNNING ∧ s.place c = dest

instance (s : State) (c : Slot) (dest : Place) : Decidable (s.Runs c dest) := by
  unfold Runs
  infer_instance

end State

inductive Act
  | sched (c : Slot) (st : ProcState)
  | fork (c : Slot) (stack : Bool) (r : Copyuvm)
  | copy (c np : Slot) (r : Copyuvm)
  | runnable (c np : Slot)
  | exec (c : Slot) (addr : Option Frame)
  | bad (c : Slot) (pgdir : Dir)
  | commit (c : Slot) (pgdir : Dir)
  | replaced (c : Slot) (oldpgdir : Option Dir)
  | exit (c : Slot)
  | dump (c : Slot)
  | leave (c : Slot)
  | wait (c p : Slot)

namespace State

/-- What the call of `procdump` in `exit` goes through, when process `c` gets there. -/
def exitDump (s : State) (c : Slot) : Option (List (Slot × Option Dir)) :=
  if s.Runs c .closing then some s.procdump else none

/-- A process runs from one place to the next, or moves between the states of a process that has
not ended. -/
def act (s : State) : Act → Option State
  | .sched c st =>
    if Awake (s.proc c).state ∧ Awake st then some (s.setProc c { s.proc c with state := st }) else none
  | .fork c stack r => if s.Runs c .user then some (s.fork c stack r) else none
  | .copy c np r => if s.Runs c (.creating np) then some (s.copyChild c np r) else none
  | .runnable c np => if s.Runs c (.copying np) then some (s.runnable c np) else none
  | .exec c addr => if s.Runs c .user then some (s.exec c addr) else none
  | .bad c pgdir => if s.Runs c (.loading pgdir) then s.bad c pgdir else none
  | .commit c pgdir => if s.Runs c (.loading pgdir) then s.commit c pgdir else none
  | .replaced c oldpgdir => if s.Runs c (.replacing oldpgdir) then s.replaced c oldpgdir else none
  | .exit c => if s.Runs c .user ∧ c ≠ initproc then some (s.moveTo c .closing) else none
  | .dump c => (s.exitDump c).map fun _ => s.moveTo c .leaving
  | .leave c => if s.Runs c .leaving then some (s.leave c) else none
  | .wait c p =>
    if s.Runs c .user ∧ (s.proc p).parent = some c ∧ (s.proc p).state = .ZOMBIE then s.wait p else none

/-- The zeroed process table. -/
def blank : State where
  proc _ := ⟨.UNUSED, 0, none, none⟩
  place _ := .user
  nextpid := 1
  calls := 0
  live _ := none

/-- `userinit`, on the frame `setupkvm` gets. -/
def userinit (addr : Frame) : State :=
  let s := (blank.allocproc true).2
  let (d, s) := s.setupkvm initproc addr
  s.setProc initproc { s.proc initproc with pgdir := some d, state := .RUNNABLE }

end State

/-- The next state of the process table. -/
def Step (s : State) (a : Act) (s' : State) : Prop := s.act a = some s'

/-- What the dump follows for a slot is a directory set up for its process and not released. -/
def Live (s : State) (e : Slot × Option Dir) : Prop :=
  ∃ d, e.2 = some d ∧ s.live d = some (e.1, (s.proc e.1).pid)

end OsSessional.Paging.Dump
