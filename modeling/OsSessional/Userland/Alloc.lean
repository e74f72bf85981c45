import Mathlib.Algebra.Group.Nat.Defs
import Mathlib.Logic.Function.Basic
import OsSessional.Lib.Runs
import OsSessional.Lib.Spans

/-!
# The user's allocator

`umalloc.c`: free blocks are in a circular list by address, which begins at `base`, a block of no
size in the program's data. Addresses and sizes count headers of eight bytes, and the break is at a
whole header. The loops take fuel; the kernel's answer to `sbrk` is given.
-/

namespace OsSessional.Userland

open Function (update update_self update_of_ne)

/-- `union header` -/
structure Header where
  ptr : Nat
  size : Nat
  deriving DecidableEq

/-- `sizeof(Header)` -/
def headerSize : Nat := 8

/-- What `malloc` makes of the bytes asked for, in the arithmetic of `uint`. -/
def units (nbytes : Nat) : Nat := (nbytes + headerSize - 1) % 2 ^ 32 / headerSize + 1

structure Heap where
  mem : Nat → Header
  freep : Option Nat
  /-- The size of the process. -/
  brk : Nat

namespace Heap

variable (h : Heap)

/-- The links of the list. -/
def next (p : Nat) : Nat := (h.mem p).ptr

/-- `*p = x` -/
def put (p : Nat) (x : Header) : Heap := { h with mem := update h.mem p x }

@[simp] theorem put_freep (p : Nat) (x : Header) : (h.put p x).freep = h.freep := rfl

@[simp] theorem put_brk (p : Nat) (x : Header) : (h.put p x).brk = h.brk := rfl

@[simp] theorem mem_put (p : Nat) (x : Header) : (h.put p x).mem p = x := update_self ..

theorem mem_put_ne {p u : Nat} (hne : u ≠ p) (x : Header) : (h.put p x).mem u = h.mem u :=
  update_of_ne hne ..

@[simp] theorem next_put (p : Nat) (x : Header) : (h.put p x).next p = x.ptr :=
  congrArg Header.ptr (h.mem_put p x)

theorem next_put_ne {p u : Nat} (hne : u ≠ p) (x : Header) : (h.put p x).next u = h.next u :=
  congrArg Header.ptr (h.mem_put_ne hne x)

theorem next_put_update (p : Nat) (x : Header) : (h.put p x).next = update h.next p x.ptr := by
  funext u
  by_cases hu : u = p
  · rw [hu, next_put, update_self]
  · rw [h.next_put_ne hu, update_of_ne hu]

/-- The loop of `free`. -/
def place (bp : Nat) : Nat → Nat → Option Nat
  | 0, _ => none
  | fuel + 1, p =>
    if p < bp ∧ bp < h.next p then some p
    else if h.next p ≤ p ∧ (p < bp ∨ bp < h.next p) then some p
    else place bp fuel (h.next p)

/-- `free` with the place `p` it found: the block is joined to its upper neighbour. -/
def joinUpper (bp p : Nat) : Heap :=
  if bp + (h.mem bp).size = h.next p then
    h.put bp ⟨h.next (h.next p), (h.mem bp).size + (h.mem (h.next p)).size⟩
  else h.put bp { h.mem bp with ptr := h.next p }

/-- And then to its lower one. -/
def joinLower (bp p : Nat) : Heap :=
  if p + (h.mem p).size = bp then h.put p ⟨h.next bp, (h.mem p).size + (h.mem bp).size⟩
  else h.put p { h.mem p with ptr := bp }

@[simp] theorem joinUpper_brk (bp p : Nat) : (h.joinUpper bp p).brk = h.brk := by
  unfold joinUpper
  split <;> rfl

@[simp] theorem joinLower_brk (bp p : Nat) : (h.joinLower bp p).brk = h.brk := by
  unfold joinLower
  split <;> rfl

def free (fuel ap : Nat) : Option Heap :=
  let bp := ap - 1
  match h.freep with
  | none => none
  | some p =>
    match h.place bp fuel p with
    | none => none
    | some p => some { (h.joinUpper bp p).joinLower bp p with freep := some p }

/-- `sbrk(n)` with `n` read as an `int`: the old break. `grants` says whether the kernel finds the
memory for a growth below `KERNBASE`. A negative `n` goes through `deallocuvm`, which leaves the size
alone where `sz + n` is not below it. -/
def sbrk (grants : Bool) (n : Nat) : Option (Nat × Heap) :=
  let sz := headerSize * h.brk
  let newsz := (sz + n) % 2 ^ 32
  if n = 0 then some (h.brk, h)
  else if n < 2 ^ 31 then
    if grants = true ∧ newsz < 2 ^ 31 then some (h.brk, { h with brk := newsz / headerSize }) else none
  else if sz ≤ newsz then some (h.brk, h)
  else if newsz = 0 then none
  else some (h.brk, { h with brk := newsz / headerSize })

/-- The block that `morecore` asks for. -/
def request (nu : Nat) : Nat := if nu < 4096 then 4096 else nu

/-- `morecore`; its result is 0 where `sbrk` fails. -/
def morecore (fuel : Nat) (grants : Bool) (nu : Nat) : Option (Heap × Option Nat) :=
  match h.sbrk grants (request nu * headerSize % 2 ^ 32) with
  | none => some (h, none)
  | some (hp, h') =>
    let h' := h'.put hp { h'.mem hp with size := request nu }
    (h'.free fuel (hp + 1)).map fun h'' => (h'', h''.freep)

/-- The block `p` behind `prevp`, or the end of it. -/
def take (nunits prevp p : Nat) : Heap × Nat :=
  if (h.mem p).size = nunits then
    ({ h.put prevp { h.mem prevp with ptr := h.next p } with freep := some prevp }, p + 1)
  else
    let size := (h.mem p).size - nunits
    let h := h.put p { h.mem p with size := size }
    ({ h.put (p + size) { h.mem (p + size) with size := nunits } with freep := some prevp },
      p + size + 1)

/-- The loop of `malloc`. -/
def search (grants : Bool) (nunits : Nat) : Nat → Heap → Nat → Nat → Option (Heap × Option Nat)
  | 0, _, _, _ => none
  | fuel + 1, h, prevp, p =>
    if nunits ≤ (h.mem p).size then
      let r := h.take nunits prevp p
      some (r.1, some r.2)
    else if h.freep = some p then
      match h.morecore fuel grants nunits with
      | none => none
      | some (h', none) => some (h', none)
      | some (h', some p) => search grants nunits fuel h' p (h'.next p)
    else search grants nunits fuel h p (h.next p)

/-- `freep` and `base` as the first call of `malloc` sets them. -/
def start (base : Nat) : Heap :=
  match h.freep with
  | none => { h.put base ⟨base, 0⟩ with freep := some base }
  | some _ => h

def malloc (base fuel : Nat) (grants : Bool) (nbytes : Nat) : Option (Heap × Option Nat) :=
  let h := h.start base
  match h.freep with
  | none => none
  | some prevp => search grants (units nbytes) fuel h prevp (h.next prevp)

end Heap

/-- A program with its heap. `live` has the bytes asked for under the header of each block in its hands,
`area` the units that `morecore` got, and `wrote` what the program last put into its blocks. -/
structure Program where
  heap : Heap
  live : Nat → Option Nat
  area : Set Nat
  wrote : Nat → Option Header

inductive Act
  | malloc (nbytes : Nat) (grants : Bool)
  | free (ap : Nat)
  | write (u : Nat) (x : Header)
  | sbrk (n : Nat)

namespace Program

/-- What a program may do: free its blocks, write into them and move the break upwards. -/
inductive Step (base : Nat) : Program → Act → Program → Prop
  | malloc {s : Program} {fuel nbytes a : Nat} {grants : Bool} {h : Heap}
      (hcall : s.heap.malloc base fuel grants nbytes = some (h, some (a + 1))) :
      Step base s (.malloc nbytes grants)
        { heap := h, live := update s.live a (some nbytes), area := s.area ∪ Set.Ico s.heap.brk h.brk,
          wrote := s.wrote }
  | null {s : Program} {fuel nbytes : Nat} {grants : Bool} {h : Heap}
      (hcall : s.heap.malloc base fuel grants nbytes = some (h, none)) :
      Step base s (.malloc nbytes grants)
        { s with heap := h, area := s.area ∪ Set.Ico s.heap.brk h.brk }
  | free {s : Program} {fuel a n : Nat} {h : Heap} (hlive : s.live a = some n)
      (hcall : s.heap.free fuel (a + 1) = some h) :
      Step base s (.free (a + 1))
        { s with
          heap := h, live := update s.live a none
          wrote := fun u => if a ≤ u ∧ u < a + units n then none else s.wrote u }
  | write {s : Program} {a n u : Nat} (hlive : s.live a = some n) (hlow : a < u)
      (hhigh : u < a + units n) (x : Header) :
      Step base s (.write u x)
        { s with heap := s.heap.put u x, wrote := update s.wrote u (some x) }
  | sbrk {s : Program} {n : Nat} (hroom : headerSize * (s.heap.brk + n) < 2 ^ 31) :
      Step base s (.sbrk n) { s with heap := { s.heap with brk := s.heap.brk + n } }

/-- Before the first call, with `base` in the program's data. -/
structure Fresh (base : Nat) (s : Program) : Prop where
  freep : s.heap.freep = none
  below : base < s.heap.brk
  room : headerSize * s.heap.brk < 2 ^ 31
  live : ∀ a, s.live a = none
  area : s.area = ∅
  wrote : ∀ u, s.wrote u = none

end Program

end OsSessional.Userland
