import OsSessional.Paging.Kept

/-!
# Evictions and swap files

`allocuvm` evicts for every process, but only a process with `pid > 2` owns a swap file. Such a
process owns one from `allocproc` to `exit`, `exec` included; the first two processes never do, and
get along without as long as the pages they add fit the free RAM slots.
-/

namespace OsSessional.Paging

open Outcome

namespace Kernel

variable {cfg : Config} {k k' : Kernel} {c : Slot}

/-- Every process that pages to a swap file has one, and pids are handed out in order. -/
structure Backed (k : Kernel) : Prop where
  file : ∀ c, k.Active c → (k.proc c).swapFile.isSome = true
  pid : ∀ c, k.InUse c → (k.proc c).pid < k.nextpid

/-- The process in slot `c` may make a call. -/
def Runs (k : Kernel) (c : Slot) : Prop := k.InUse c ∧ (k.proc c).state ≠ .ZOMBIE

theorem Runs.active (h : k.Runs c) (hpid : 2 < (k.proc c).pid) : k.Active c :=
  ⟨hpid, h.1.1, h.1.2, h.2⟩

section Backed

private theorem Backed.spares (h : k.Backed) (hother : Spares c k k') (hnext : k.nextpid ≤ k'.nextpid)
    (hfile : k'.Active c → (k'.proc c).swapFile.isSome = true)
    (hpid : k'.InUse c → (k'.proc c).pid < k'.nextpid) : k'.Backed where
  file c' hc' := by
    by_cases hc : c' = c
    · subst hc
      exact hfile hc'
    · obtain ⟨h1, h2, h3, h4⟩ := hc'
      rw [hother.pid c' hc] at h1
      rw [hother.state c' hc] at h2 h3 h4
      exact hother.file c' hc (h.file c' ⟨h1, h2, h3, h4⟩)
  pid c' hc' := by
    by_cases hc : c' = c
    · subst hc
      exact hpid hc'
    · simp only [InUse, hother.state c' hc] at hc'
      rw [hother.pid c' hc]
      exact lt_of_lt_of_le (h.pid c' hc') hnext

private theorem Backed.kept (h : k.Backed) (hk : Kept c k k') : k'.Backed := by
  apply h.spares (hk.spares c) (le_of_eq hk.nextpid.symm)
  · rintro ⟨h1, h2, h3, h4⟩
    rw [hk.state] at h2 h3 h4
    rw [hk.pid] at h1
    exact hk.file (h.file c ⟨h1, h2, h3, h4⟩)
  · intro hc
    simp only [InUse, hk.state] at hc
    rw [hk.pid, hk.nextpid]
    exact h.pid c hc

private theorem Backed.vacate (h : k.Backed) (hother : Spares c k k') (hnext : k.nextpid ≤ k'.nextpid)
    (hstate : (k'.proc c).state = .UNUSED) : k'.Backed := by
  apply h.spares hother hnext
  · exact fun hc => absurd hstate hc.unused
  · exact fun hc => absurd hstate hc.1

private theorem Backed.exit (h : k.Backed) (hc : k.InUse c) (hexit : k.exit c = .ok k') : k'.Backed := by
  obtain ⟨hother, hstate, hpid, hnext⟩ := exit_spares hexit
  apply h.spares hother (le_of_eq hnext.symm)
  · exact fun hc => absurd hstate hc.zombie
  · rw [hpid, hnext]
    exact fun _ => h.pid c hc

private theorem Backed.fork {r : Kernel × Option Slot} (h : k.Backed) (hr : ForkEnd k r) :
    r.1.Backed := by
  cases hr with
  | noSlot => exact h
  | failed hunused hother hstate hnext => exact h.vacate hother (by simp only; omega) hstate
  | born hunused hother hstate hpid hfile hnext =>
    apply h.spares hother (by rw [hnext]; omega)
    · intro hc
      have hlt := hc.pid
      exact hfile (by omega)
    · exact fun _ => by rw [hpid, hnext]; omega

end Backed

end Kernel

/-- A way into the kernel: a system call or a page fault of the process in a slot, or a timer
tick. -/
inductive Entry
  | growproc (c : Slot) (n : Int)
  | fault (c : Slot) (cr2 : Nat)
  | exec (c : Slot) (path : Nat) (ip : Option Inode) (argv : List Nat)
  | fork (c : Slot)
  | exit (c : Slot)
  | wait (c p : Slot)
  | tick

namespace Entry

def perform (cfg : Config) (k : Kernel) : Entry → Except Crash Kernel
  | .growproc c n => do
    let (k, _) ← k.growproc cfg c n
    return k
  | .fault c cr2 => k.trap cfg c 3 cr2
  | .exec c path ip argv => do
    let (k, _) ← k.exec cfg c path ip argv
    return k
  | .fork c => do
    let (k, _) ← k.fork cfg c
    return k
  | .exit c => k.exit c
  | .wait c p => k.wait cfg c p
  | .tick => k.updateAgeForAllProcess

/-- The process runs, and `wait` has found a zombie. -/
def Allowed (k : Kernel) : Entry → Prop
  | .growproc c _ => k.Runs c
  | .fault c _ => k.Runs c
  | .exec c _ _ _ => k.Runs c
  | .fork c => k.Runs c
  | .exit c => k.Runs c
  | .wait c p => k.Runs c ∧ (k.proc p).state = .ZOMBIE
  | .tick => True

/-- A process with `pid > 2`, or RAM slots for the pages asked for as far as the frames go, or a
fault at a page that is not paged out. -/
def Covered (k : Kernel) : Entry → Prop
  | .growproc c n => 2 < (k.proc c).pid ∨
    min (k.pagesAsked c n) k.freelist.length ≤ (k.proc c).freeRam
  | .fault c cr2 => 2 < (k.proc c).pid ∨ hasFlag (k.pte (k.proc c).pgdir (vpn cr2)) .PG = false
  | .exec c _ ip _ => 2 < (k.proc c).pid ∨
    min (ip.elim 0 Inode.span) k.freelist.length ≤ (k.proc c).freeRam
  | _ => True

instance (k : Kernel) (c : Slot) : Decidable (k.Runs c) :=
  inferInstanceAs (Decidable ((_ ∧ _) ∧ _))

instance (k : Kernel) (a : Entry) : Decidable (a.Allowed k) := by
  cases a <;> simp only [Allowed] <;> infer_instance

instance (k : Kernel) (a : Entry) : Decidable (a.Covered k) := by
  cases a <;> simp only [Covered] <;> infer_instance

/-- The kernel after an entry that returned, where the entry was allowed and `cond` held. -/
def next (cfg : Config) (cond : Kernel → Entry → Bool) (k : Kernel) (a : Entry) : Option Kernel :=
  if a.Allowed k ∧ cond k a = true then (a.perform cfg k).toOption else none

def Step (cfg : Config) (cond : Kernel → Entry → Bool) (k : Kernel) (a : Entry) (k' : Kernel) : Prop :=
  a.next cfg cond k = some k'

variable {cfg : Config} {cond : Kernel → Entry → Bool} {k k' : Kernel} {a : Entry}

private theorem Step.ok (h : Step cfg cond k a k') :
    a.Allowed k ∧ cond k a = true ∧ a.perform cfg k = .ok k' := by
  unfold Step next at h
  split at h
  · next hcond =>
    refine ⟨hcond.1, hcond.2, ?_⟩
    cases hp : a.perform cfg k with
    | error e => simp [hp, Except.toOption] at h
    | ok k₁ =>
      obtain rfl : k₁ = k' := by simpa [hp, Except.toOption] using h
      rfl
  · simp at h

private theorem perform_ensures (h : k.Backed) (hallowed : a.Allowed k) (hcovered : a.Covered k) :
    Ensures (Slip True) Kernel.Backed (a.perform cfg k) := by
  cases a with
  | growproc c n =>
    have hready : Kernel.Ready True k c (k.pagesAsked c n) :=
      fun _ => hcovered.imp (fun hpid => h.file c (hallowed.active hpid)) id
    refine (Kernel.growproc_ensures hready).bind ?_
    exact fun r hr => .pure (h.kept hr)
  | fault c cr2 =>
    refine (Kernel.trap_ensures ?_).mono ?_
    · exact fun _ => hcovered.imp (fun hpid => h.file c (hallowed.active hpid)) id
    · rintro k' ⟨k₁, hkept, rfl | hexit⟩
      · exact h.kept hkept
      · refine (h.kept hkept).exit ?_ hexit
        simp only [Kernel.InUse, hkept.state]
        exact hallowed.1
  | exec c path ip argv =>
    have hready : ∀ f, ip = some f → Kernel.Ready True k c f.span := by
      rintro f rfl _
      exact hcovered.imp (fun hpid => h.file c (hallowed.active hpid)) id
    refine (Kernel.exec_ensures hready).bind ?_
    exact fun r hr => .pure (h.kept hr)
  | fork c =>
    refine (Kernel.fork_ensures hallowed.1.1 ?_).bind ?_
    · intro _ hpid
      have hlt := h.pid c hallowed.1
      exact ⟨h.file c (hallowed.active hpid), by omega⟩
    · exact fun r hr => .pure (h.fork hr)
  | exit c =>
    cases hexit : k.exit c with
    | ok k' =>
      simp only [perform, hexit]
      exact .ok (h.exit hallowed.1 hexit)
    | error e =>
      simp only [perform, hexit]
      exact .error (Kernel.exit_error hexit)
  | wait c p =>
    apply Kernel.wait_ensures.mono
    intro k' hk'
    obtain ⟨hother, hstate, hnext⟩ := hk'
    exact h.vacate hother (le_of_eq hnext.symm) hstate
  | tick =>
    exact Kernel.tick_ensures (fun _ _ _ h₁ hk => h₁.kept hk) h

end Entry

namespace Kernel

variable {cfg : Config} {k : Kernel}

/-- Only the first two processes are there yet. -/
def Booted (k : Kernel) : Prop := ∀ c, k.InUse c → (k.proc c).pid ≤ 2 ∧ (k.proc c).pid < k.nextpid

private theorem Booted.backed (h : k.Booted) : k.Backed where
  file c hc := by
    have hle := (h c hc.inUse).1
    have hlt := hc.pid
    omega
  pid c hc := (h c hc).2

/-- In every state the system reaches by covered entries, each process that pages to a swap file has
one, and no covered entry calls for a swap file that is not there. -/
theorem backed_of_run {k₀ : Kernel} {as : List Entry} (hboot : k₀.Booted)
    (hrun : Run (Entry.Step cfg fun k a => decide (a.Covered k)) k₀ as k) :
    (∀ c, k.Active c → (k.proc c).swapFile.isSome = true) ∧
      ∀ a : Entry, a.Allowed k → a.Covered k → a.perform cfg k ≠ .error .nullSwapFile := by
  have h : k.Backed := by
    refine hrun.keeps ?_ hboot.backed
    intro k a k' hback hstep
    obtain ⟨hallowed, hcovered, hok⟩ := hstep.ok
    have hensures : Ensures (Slip True) _ (a.perform cfg k) :=
      Entry.perform_ensures hback hallowed (by simpa using hcovered)
    rw [hok] at hensures
    exact hensures.of_ok
  refine ⟨h.file, ?_⟩
  intro a hallowed hcovered
  exact (Entry.perform_ensures h hallowed hcovered).ne_error ⟨trivial, rfl⟩

end Kernel

/-- The machine with its first process only. -/
def Solo.first : Kernel :=
  { Solo.untracked.kernel with nextpid := 2 }.setProc Solo.main
    { Solo.untracked.proc with pid := 1, swapFile := none }

/-- The slots of its first two descendants. -/
def Solo.child : Slot := ⟨1, one_lt_nProc⟩
def Solo.grandchild : Slot := ⟨2, by decide⟩

namespace Kernel

theorem booted_first : Solo.first.Booted := by
  intro c hc
  by_cases hmain : c = Solo.main
  · subst hmain
    have hpid : (Solo.first.proc Solo.main).pid = 1 := by simp [Solo.first]
    have hnext : Solo.first.nextpid = 2 := rfl
    omega
  · have hidle : Solo.first.proc c = Solo.idle := by
      unfold Solo.first
      rw [setProc_proc_of_ne hmain]
      simp [Solo.kernel, hmain]
    simp [InUse, hidle, Solo.idle] at hc

/-- The second process, forked by the first, asks for sixteen pages. -/
theorem eviction_without_swap_file :
    ¬ ∀ (cfg : Config) (k₀ k : Kernel) (as : List Entry), k₀.Booted →
      Run (Entry.Step cfg fun _ _ => true) k₀ as k →
      ∀ a : Entry, a.Allowed k → a.perform cfg k ≠ .error .nullSwapFile := by
  intro h
  have hslip : (((Entry.fork Solo.main).next (Solo.config .FIFO) (fun _ _ => true) Solo.first).map
      fun k => decide ((Entry.growproc Solo.child 65536).Allowed k) &&
        decide (stop ((Entry.growproc Solo.child 65536).perform (Solo.config .FIFO) k) =
          some .nullSwapFile)) = some true := by
    decide +kernel
  obtain ⟨k, hk, hend⟩ := Option.map_eq_some_iff.mp hslip
  simp only [Bool.and_eq_true, decide_eq_true_eq] at hend
  exact h (Solo.config .FIFO) Solo.first k [.fork Solo.main] booted_first (.cons hk (.nil k)) _ hend.1
    (stop_eq_some.mp hend.2)

/-- The first process forks twice; the second forks a third, which evicts and faults a page in. -/
theorem backed_of_run_fork_grow_fault :
    ∃ k, [Entry.fork Solo.main, .growproc Solo.child 16384, .fork Solo.child,
        .growproc Solo.grandchild 65536, .fault Solo.grandchild 4096].foldlM
          (fun k a => a.next (Solo.config .FIFO) (fun k a => decide (a.Covered k)) k) Solo.first = some k ∧
      (∀ c, k.Active c → (k.proc c).swapFile.isSome = true) ∧
      ∀ a : Entry, a.Allowed k → a.Covered k → a.perform (Solo.config .FIFO) k ≠ .error .nullSwapFile := by
  obtain ⟨k, hk⟩ := Option.isSome_iff_exists.mp
    (by decide +kernel : ([Entry.fork Solo.main, .growproc Solo.child 16384, .fork Solo.child,
      .growproc Solo.grandchild 65536, .fault Solo.grandchild 4096].foldlM
        (fun k (a : Entry) => a.next (Solo.config .FIFO) (fun k a => decide (a.Covered k)) k)
        Solo.first).isSome = true)
  exact ⟨k, hk, backed_of_run booted_first (.of_foldlM hk)⟩

end Kernel

end OsSessional.Paging
