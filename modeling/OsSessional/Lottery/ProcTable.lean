import OsSessional.Lib.Scan
import OsSessional.Lottery.Rand
import Mathlib.Algebra.BigOperators.Fin

/-!
# The process table and the lottery

`getRunnableProcTickets` and the loop of `scheduler` that looks for the winner, both over
`ptable.proc`. `int` and `long` have 32 bits.
-/

namespace OsSessional.Lottery

inductive ProcState
  | UNUSED | EMBRYO | SLEEPING | RUNNABLE | RUNNING | ZOMBIE
  deriving DecidableEq

abbrev nProc : Nat := 64

/-- Index into `ptable.proc`. -/
abbrev Slot := Fin nProc

instance : NeZero nProc := ⟨by decide⟩

/-- What a process sleeps on: its own entry in `wait`, `ticks`, or something outside this model. -/
inductive Chan
  | proc (p : Slot)
  | ticks
  | other (n : Nat)
  deriving DecidableEq

/-- The fields of `struct proc` that process management reads or writes. -/
structure Proc where
  state : ProcState
  pid : Int32
  parent : Option Slot
  chan : Option Chan
  killed : Bool
  ticket : Int32
  tick : Int32

abbrev Table := Slot → Proc

namespace Table

variable (proc : Table)

def Runnable (p : Slot) : Prop := (proc p).state = .RUNNABLE

instance : DecidablePred (Runnable proc) := fun p =>
  inferInstanceAs (Decidable ((proc p).state = .RUNNABLE))

/-- One round of the loop in `getRunnableProcTickets`. -/
def addTickets (total : Int32) (p : Slot) : Int32 :=
  if Runnable proc p then total + (proc p).ticket else total

def getRunnableProcTickets : Int32 := (List.finRange nProc).foldl (addTickets proc) 0

/-- The loop of `scheduler` from some slot on. -/
def scan (win_ticket : Int32) : Int32 → List Slot → Option Slot
  | _, [] => none
  | cur_total, p :: rest =>
    if Runnable proc p then
      let cur_total := cur_total + (proc p).ticket
      if cur_total > win_ticket then some p else scan win_ticket cur_total rest
    else scan win_ticket cur_total rest

/-- The process the scheduler dispatches for a number drawn. -/
def winner (win_ticket : Int32) : Option Slot := scan proc win_ticket 0 (List.finRange nProc)

/-- The lottery of one round: `none` while every generator value was rejected, else whom the round
dispatches, if anybody. -/
def lottery (genrand : List UInt32) : Except Trap (Option (Option Slot)) :=
  match random_at_most (getRunnableProcTickets proc) genrand with
  | .error e => .error e
  | .ok none => .ok none
  | .ok (some win_ticket) => .ok (some (winner proc win_ticket))

/-- The tickets a slot takes part with. -/
def tickets (p : Slot) : Int := if Runnable proc p then (proc p).ticket.toInt else 0

/-- The tickets of all RUNNABLE processes. -/
def allTickets : Int := ∑ p, tickets proc p

variable {proc}

private theorem foldl_addTickets (l : List Slot) (total : Int32) :
    (l.foldl (addTickets proc) total).toInt =
      (total.toInt + (l.map (tickets proc)).sum).bmod (2 ^ 32) := by
  induction l generalizing total with
  | nil => simp
  | cons p l ih =>
    rw [List.foldl_cons, ih]
    simp only [List.map_cons, List.sum_cons, addTickets, tickets]
    split
    · rw [Int32.toInt_add, Int.bmod_add_bmod, add_assoc]
    · rw [zero_add]

theorem sum_finRange (f : Slot → Int) : ((List.finRange nProc).map f).sum = ∑ p, f p := by
  rw [← List.ofFn_eq_map, List.sum_ofFn]

theorem getRunnableProcTickets_toInt :
    (getRunnableProcTickets proc).toInt = (allTickets proc).bmod (2 ^ 32) := by
  unfold getRunnableProcTickets allTickets
  rw [foldl_addTickets, sum_finRange, Int32.toInt_zero, zero_add]

private theorem runnable_of_scan {win_ticket : Int32} {l : List Slot} {cur_total : Int32} {p : Slot}
    (h : scan proc win_ticket cur_total l = some p) : Runnable proc p := by
  induction l generalizing cur_total with
  | nil => simp [scan] at h
  | cons q l ih =>
    simp only [scan] at h
    split at h
    · next hrunnable =>
      split at h
      · obtain rfl : q = p := by simpa using h
        exact hrunnable
      · exact ih h
    · exact ih h

theorem runnable_of_lottery {genrand : List UInt32} {p : Slot}
    (h : lottery proc genrand = .ok (some (some p))) : (proc p).state = .RUNNABLE := by
  unfold lottery at h
  split at h
  · simp at h
  · simp at h
  · simp only [Except.ok.injEq, Option.some.injEq] at h
    exact runnable_of_scan h

end Table

end OsSessional.Lottery
