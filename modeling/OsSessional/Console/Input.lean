import OsSessional.Lib.Ring
import OsSessional.Lib.Runs

/-!
# The console's input

The input side of `console.c`: the keyboard interrupt edits a line in a ring with three running
counters, and processes read what was entered. What happens between `acquire` and the next `release` or
`sleep` is one step of a reader; a key is one step of the interrupt. `kill` does not wait for `cons.lock`.
-/

namespace OsSessional.Console

open Function (update)

/-- `INPUT_BUF` -/
def inputBuf : Nat := 128

def newline : UInt8 := 10

/-- `C(x)`: `x - '@'` -/
def ctrl (x : Char) : UInt8 := x.toUInt8 - 64

/-- `'\x7f'` -/
def delete : UInt8 := 127

/-- `'\r'` -/
def carriageReturn : UInt8 := 13

structure Input where
  buf : Nat → UInt8
  r : UInt32
  w : UInt32
  e : UInt32

namespace Input

/-- The ring from the read index to the edit index. -/
def ring (input : Input) : Ring UInt8 := ⟨input.buf, input.r, input.e⟩

theorem less {e w : UInt32} (h : e ≠ w) : (e - 1 - w).toNat < (e - w).toNat := by
  have hne : e.toNat ≠ w.toNat := fun heq => h (UInt32.toNat_inj.mp heq)
  have he := e.toNat_lt
  have hw := w.toNat_lt
  rw [UInt32.toNat_sub, UInt32.toNat_sub, UInt32.toNat_sub]
  have hone : (1 : UInt32).toNat = 1 := rfl
  omega

/-- The loop of `case C('U')`. -/
def killLine (input : Input) : Input :=
  if _h : input.e ≠ input.w ∧ input.buf ((input.e - 1).toNat % inputBuf) ≠ newline then
    killLine { input with e := input.e - 1 }
  else input
termination_by (input.e - input.w).toNat
decreasing_by exact less _h.1

/-- `input.buf[input.e++ % INPUT_BUF] = c` -/
def put (input : Input) (c : UInt8) : Input :=
  { input with buf := update input.buf (input.e.toNat % inputBuf) c, e := input.e + 1 }

/-- One character in `consoleintr`, and whether it calls `wakeup(&input.r)`. -/
def intr (input : Input) (c : UInt8) : Input × Bool :=
  -- the process listing
  if c = ctrl 'P' then (input, false)
  else if c = ctrl 'U' then (input.killLine, false)
  else if c = ctrl 'H' ∨ c = delete then
    if input.e ≠ input.w then ({ input with e := input.e - 1 }, false) else (input, false)
  else if c ≠ 0 ∧ input.e - input.r < UInt32.ofNat inputBuf then
    let c := if c = carriageReturn then newline else c
    let input := input.put c
    if c = newline ∨ c = ctrl 'D' ∨ input.e = input.r + UInt32.ofNat inputBuf then
      ({ input with w := input.e }, true)
    else (input, false)
  else (input, false)

/-- What one pass of `consoleread` through the buffer leaves: the bytes it took out, those it copied, its
`n`, and whether it has to wait. -/
structure Pass where
  input : Input
  taken : List UInt8
  copied : List UInt8
  n : Nat
  waits : Bool

/-- The outer loop of `consoleread`, up to its end or to `sleep`. -/
def drain (target : Nat) : Nat → Input → Pass
  | 0, input => ⟨input, [], [], 0, false⟩
  | n + 1, input =>
    if input.r = input.w then ⟨input, [], [], n + 1, true⟩
    else
      let c := input.buf (input.r.toNat % inputBuf)
      let next : Input := { input with r := input.r + 1 }
      if c = ctrl 'D' then
        -- saved for the next call where this one has bytes
        if n + 1 < target then ⟨input, [], [], n + 1, false⟩ else ⟨next, [c], [], n + 1, false⟩
      else if c = newline then ⟨next, [c], [c], n, false⟩
      else
        let rest := drain target n next
        { rest with taken := c :: rest.taken, copied := c :: rest.copied }

end Input

/-- The locals of `consoleread`, and the bytes it has copied. -/
structure Call where
  target : Nat
  dst : List UInt8
  n : Nat

/-- Where a process is: outside, in `consoleread`, in `sleep` with `cons.lock` still held, or asleep on
`&input.r`. -/
inductive Pc
  | out
  | consoleread (call : Call)
  | sleep (call : Call)
  | asleep (call : Call)

/-- A process that sleeps is made runnable. -/
def Pc.wake : Pc → Pc
  | .asleep call => .consoleread call
  | pc => pc

structure State (ι : Type) where
  input : Input
  /-- The process that has `cons.lock` between two steps. -/
  lock : Option ι
  killed : ι → Bool
  pc : ι → Pc

inductive Act (ι : Type)
  | key (c : UInt8)
  | consoleread (i : ι) (n : Nat)
  | turn (i : ι)
  | kill (i : ι)

/-- A key, or the bytes a reader takes out of the buffer. A call that returns has copied `dst`; it fails
where `out` is `none`. -/
inductive Event (ι : Type)
  | other
  | key (c : UInt8)
  | took (i : ι) (bs : List UInt8)
  | returned (i : ι) (target : Nat) (bs : List UInt8) (out : Option (List UInt8 × Nat))

namespace State

variable {ι : Type} [DecidableEq ι] (s : State ι)

def goto (i : ι) (pc : Pc) : State ι := { s with pc := update s.pc i pc }

/-- `wakeup(&input.r)` -/
def wakeup : State ι := { s with pc := fun i => (s.pc i).wake }

def consoleintr (c : UInt8) : State ι × Event ι :=
  let r := s.input.intr c
  let s : State ι := { s with input := r.1 }
  (if r.2 then s.wakeup else s, .key c)

/-- `consoleread` from where it has `cons.lock` to `release` or `sleep`. -/
def consoleread (i : ι) (call : Call) : State ι × Event ι :=
  let pass := s.input.drain call.target call.n
  let s : State ι := { s with input := pass.input }
  let dst := call.dst ++ pass.copied
  if pass.waits = true then
    if s.killed i = true then (s.goto i .out, .returned i call.target pass.taken none)
    else ({ s.goto i (.sleep ⟨call.target, dst, pass.n⟩) with lock := some i }, .took i pass.taken)
  else (s.goto i .out, .returned i call.target pass.taken (some (dst, call.target - pass.n)))

/-- `sleep` gives up `cons.lock` when `wakeup` can no longer miss the process. -/
def sleep (i : ι) (call : Call) : State ι := { s.goto i (.asleep call) with lock := none }

def kill (i : ι) : State ι :=
  { s.goto i (s.pc i).wake with killed := update s.killed i true }

/-- A step and what is seen of it; `none` where it cannot be taken. -/
def act : Act ι → Option (State ι × Event ι)
  | .key c => if s.lock = none then some (s.consoleintr c) else none
  | .consoleread i n =>
    match s.pc i with
    | .out => some (s.goto i (.consoleread ⟨n, [], n⟩), .other)
    | _ => none
  | .turn i =>
    match s.pc i with
    | .consoleread call => if s.lock = none then some (s.consoleread i call) else none
    | .sleep call => some (s.sleep i call, .other)
    | _ => none
  | .kill i => some (s.kill i, .other)

def Step (s : State ι) (e : Event ι) (s' : State ι) : Prop := ∃ a, s.act a = some (s', e)

/-- The console after `consoleinit`. -/
structure Booted (s : State ι) : Prop where
  counters : s.input.r = 0 ∧ s.input.w = 0 ∧ s.input.e = 0
  lock : s.lock = none
  out : ∀ i, s.pc i = .out

end State

end OsSessional.Console
