import OsSessional.Lottery.Inheritance

/-!
# The argument of `settickets`

A system call fetches its arguments from the user stack, as far as the stack pointer leads into the
memory of the process. `sys_settickets` does not look at what `argint` returns: where the fetch fails,
the request is whatever the variable held before.
-/

namespace OsSessional.Lottery

open Function (update update_self update_of_ne)

/-- What a process brings into a system call: `tf->esp`, `sz`, and its memory. -/
structure User where
  esp : UInt32
  sz : UInt32
  byte : UInt32 → UInt8

namespace User

variable (u : User)

/-- `*(int*)(addr)`. -/
def int (addr : UInt32) : Int32 :=
  ((u.byte addr).toUInt32 ||| (u.byte (addr + 1)).toUInt32 <<< 8 ||| (u.byte (addr + 2)).toUInt32 <<< 16 |||
    (u.byte (addr + 3)).toUInt32 <<< 24).toInt32

/-- `none` where it returns -1 and leaves `*ip` alone. -/
def fetchint (addr : UInt32) : Option Int32 :=
  if addr ≥ u.sz ∨ addr + 4 > u.sz then none else some (u.int addr)

def argint (n : UInt32) : Option Int32 := u.fetchint (u.esp + 4 + 4 * n)

/-- The first argument lies in the memory of the process. -/
def Readable : Prop := u.esp + 4 < u.sz ∧ u.esp + 8 ≤ u.sz

variable {u}

private theorem argint_isSome_iff : (u.argint 0).isSome = true ↔ u.Readable := by
  have hzero : u.esp + 4 + 4 * 0 = u.esp + 4 := by simp
  have height : u.esp + 4 + 4 = u.esp + 8 := by
    rw [UInt32.add_assoc]
    rfl
  unfold argint fetchint Readable
  rw [hzero, height]
  split
  · next hout =>
    simp only [Option.isSome_none, Bool.false_eq_true, false_iff, not_and_or, UInt32.not_lt, UInt32.not_le]
    exact hout
  · next hin =>
    rw [not_or] at hin
    simpa using hin

end User

namespace State

variable {ncpu : Nat}

/-- `sys_settickets` with the value it returns. `leftover` is what its variable held before. -/
def settickets_call (s : State ncpu) (curproc : Slot) (u : User) (leftover : Int32) : Int32 × State ncpu :=
  (if (u.argint 0).getD leftover < 0 then -1 else 0, s.sys_settickets curproc (u.argint 0) leftover)

end State

section Call

variable {ncpu : Nat} {s : State ncpu} {u : User} {p : Slot}

/-- The call of process `p` rejects an argument that is missing or negative, and grants what a valid one
asks for. -/
structure TakesArgument (s : State ncpu) (u : User) (p : Slot) (leftover : Int32) : Prop where
  rejected : (∀ n, u.argint 0 = some n → n < 0) → (s.settickets_call p u leftover).1 = -1 ∧
    ∀ q, ((s.settickets_call p u leftover).2.proc q).ticket = (s.proc q).ticket
  granted : ∀ n, u.argint 0 = some n → 0 ≤ n →
    ((s.settickets_call p u leftover).2.proc p).ticket = if n = 0 then 10 else n

/-- No slot before `p` carries its pid. -/
def OwnPid (s : State ncpu) (p : Slot) : Prop := Scan.Unshadowed (fun q => (s.proc q).pid) p

private theorem settickets_ticket (s : State ncpu) (p : Slot) (number : Int32) :
    ((s.settickets p number).proc p).ticket = number ↔ OwnPid s p ∨ (s.proc p).ticket = number := by
  unfold State.settickets
  cases hfirst : Scan.first fun q => (s.proc q).pid == (s.proc p).pid with
  | none =>
    have hself := Scan.first_eq_none.mp hfirst p
    simp at hself
  | some q =>
    by_cases hq : q = p
    · subst hq
      have hown : OwnPid s q := by
        intro q' hlt hsame
        have hleast := Scan.first_least hfirst hlt
        simp [hsame] at hleast
      simp [State.setProc, hown]
    · have hshadowed : ¬ OwnPid s p := by
        intro hown
        have hkey := Scan.first_key hown
        exact hq (Option.some.inj (hfirst.symm.trans hkey))
      simp [State.setProc, Ne.symm hq, hshadowed]

private theorem sys_settickets_some
    (s : State ncpu) (p : Slot) {n : Int32} (hn : 0 ≤ n) (leftover : Int32) :
    s.sys_settickets p (some n) leftover = s.settickets p (if n = 0 then 10 else n) := by
  simp only [State.sys_settickets, Option.getD_some, if_neg (Int32.not_lt.mpr hn)]
  split <;> rfl

/-- The call takes its argument and nothing from the stack of the kernel exactly when the argument can be
read; what a valid one asks for reaches its caller if the pid leads there. -/
theorem settickets_argument_iff (s : State ncpu) (u : User) (p : Slot) :
    (∀ leftover, TakesArgument s u p leftover) ↔ u.Readable ∧ ∀ n, u.argint 0 = some n → 0 ≤ n →
      OwnPid s p ∨ (s.proc p).ticket = if n = 0 then 10 else n := by
  constructor
  · intro h
    constructor
    · rw [← User.argint_isSome_iff]
      cases harg : u.argint 0 with
      | some n => rfl
      | none =>
        have hreturned := ((h 1).rejected (by simp [harg])).1
        simp [State.settickets_call, harg] at hreturned
    · intro n harg hn
      have hgranted := (h 0).granted n harg hn
      simp only [State.settickets_call, harg, sys_settickets_some s p hn] at hgranted
      exact (settickets_ticket s p _).mp hgranted
  · rintro ⟨hreadable, hreach⟩ leftover
    obtain ⟨n, harg⟩ := Option.isSome_iff_exists.mp (User.argint_isSome_iff.mpr hreadable)
    constructor
    · intro hnegative
      have hneg := hnegative n harg
      simp [State.settickets_call, State.sys_settickets, harg, hneg]
    · intro m hm hpos
      simp only [State.settickets_call, hm, sys_settickets_some s p hpos]
      exact (settickets_ticket s p _).mpr (hreach m hm hpos)

/-- The first process asks for 7 tickets, with the argument on its stack. -/
def asking (sz : UInt32) : User where
  esp := 0x2ff0
  sz
  byte addr := if addr = 0x2ff4 then 7 else 0

theorem settickets_argument_seven : ∀ leftover, TakesArgument (State.boot : State 1) (asking 0x3000) 0 leftover := by
  apply (settickets_argument_iff _ _ _).mpr
  constructor
  · exact ⟨by decide, by decide⟩
  · intro n _ _
    refine .inl ?_
    intro q hq
    exact absurd hq (Fin.not_lt_zero q)

/-- With the stack pointer at the end of memory the process gets the tickets a stack slot of the kernel
happens to hold. -/
theorem settickets_takes_leftover : ¬ ∀ (s : State 1) (u : User) (p : Slot) (leftover : Int32),
    TakesArgument s u p leftover := by
  intro h
  have hmissing : (asking 0x2ff4).argint 0 = none := by decide
  have hkept := ((h State.boot (asking 0x2ff4) 0 1000000).rejected (by simp [hmissing])).2 0
  revert hkept
  decide +kernel

/-- A step before `nextpid` wraps. -/
def Unwrapped (s : State ncpu) (a : Act ncpu) (s' : State ncpu) : Prop := Step s a s' ∧ 0 < s'.nextpid

/-- The same step with what `sys_settickets` goes by as the argument it read. -/
def Act.read : Act ncpu → Act ncpu
  | .call c (.settickets arg leftover) => .call c (.settickets (some (arg.getD leftover)) leftover)
  | a => a

private theorem step_read {s' : State ncpu} {a : Act ncpu} (h : Step s a s') :
    Step s a.read s' ∧ fetched a.read = true := by
  cases a with
  | call c call =>
    cases call with
    | settickets arg leftover =>
      have hsame : ∀ d, s.call c d (.settickets (some (arg.getD leftover)) leftover) =
          s.call c d (.settickets arg leftover) := by
        intro d
        cases hchild : s.child d.slot with
        | none => simp only [State.call, hchild, State.sys_settickets, Option.getD_some]
        | some np => simp only [State.call, hchild]
      refine ⟨?_, rfl⟩
      simpa only [Step, act, Act.read, hsame] using h
    | _ => exact ⟨h, rfl⟩
  | _ => exact ⟨h, rfl⟩

/-- Before `nextpid` wraps a pid leads to its process. -/
theorem ownPid_of_run {as : List (Act ncpu)} (hrun : Run Unwrapped State.boot as s)
    (hused : (s.proc p).state ≠ .UNUSED) : OwnPid s p := by
  have hkeep : ∃ atFork, FollowInv ⟨s, atFork⟩ := by
    apply hrun.keeps _ ⟨_, .boot⟩
    rintro s₁ a s₂ ⟨atFork, h⟩ ⟨hstep, hpos⟩
    obtain ⟨hread, hfetched⟩ := step_read hstep
    exact ⟨record s₁ atFork a.read, h.step ⟨hread, rfl, hfetched, hpos⟩⟩
  obtain ⟨atFork, h⟩ := hkeep
  intro q hq hsame
  obtain rfl := h.unique p q hsame.symm (h.used p hused)
  exact lt_irrefl _ hq

end Call

end OsSessional.Lottery
