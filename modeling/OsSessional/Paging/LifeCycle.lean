import OsSessional.Paging.Owners
import OsSessional.Paging.CopyFrames
import OsSessional.Paging.Backing
import Mathlib.Data.Set.Function

/-!
# The life of a swap file

The kernel of the pager next to the file system. A swap file is made in `allocproc`, replaced in
`exec` and removed in `exit`. `fork` has allocated the process when it copies the address space, and
its way out after a failed copy gives back the kernel stack but not the swap file.
-/

namespace OsSessional.Paging

open Function (update update_self update_of_ne)
open Outcome

/-- The ways a call may stop. -/
inductive Halt
  | kernel (e : Crash)
  | files (e : Panic)

structure Machine where
  kernel : Kernel
  files : FileSystem

namespace Machine

variable (cfg : Config)

/-- `createSwapFile` as `allocproc` calls it, for the process that will be in slot `np`. -/
def allocFile (m : Machine) : Except Halt FileSystem :=
  match m.kernel.allocproc.1 with
  | none => .ok m.files
  | some np =>
    if m.kernel.nextpid > 2 then (m.files.createSwapFile np m.kernel.nextpid).mapError .files
    else .ok m.files

def fork (m : Machine) (c : Slot) : Except Halt (Machine × Option Slot) := do
  let files ← m.allocFile
  let (k, r) ← (m.kernel.fork cfg c).mapError .kernel
  match r with
  | none => return (⟨k, files⟩, none)
  | some np =>
    let files ← (files.inherit c np).mapError .files
    return (⟨k, files⟩, some np)

/-- The swap file after a successful `exec`. -/
def replaceFile (m : Machine) (c : Slot) : Except Halt FileSystem :=
  let pid := (m.kernel.proc c).pid
  if pid > 2 then
    (do
      let files ← m.files.removeSwapFile c pid
      files.createSwapFile c pid : Except Panic FileSystem).mapError .files
  else .ok m.files

def exec (m : Machine) (c : Slot) (path : Nat) (ip : Option Inode) (argv : List Nat) :
    Except Halt (Machine × Bool) := do
  let (k, ok) ← (m.kernel.exec cfg c path ip argv).mapError .kernel
  if ok then return (⟨k, ← m.replaceFile c⟩, true) else return (⟨k, m.files⟩, false)

def exit (m : Machine) (c : Slot) : Except Halt Machine := do
  let k ← (m.kernel.exit c).mapError .kernel
  let files ← (m.files.release c (m.kernel.proc c).pid).mapError .files
  return ⟨k, files⟩

/-- The `T_PGFLT` case of `trap` in user mode. -/
def trap (m : Machine) (c : Slot) (cr2 : Nat) : Except Halt Machine := do
  let (k, serviced) ←
    (if m.kernel.checkPTForPage (m.kernel.proc c).pgdir cr2 then m.kernel.retrievePage cfg c cr2
      else .ok (m.kernel, false) : Except Crash (Kernel × Bool)).mapError .kernel
  if serviced then return ⟨k, m.files⟩
  else exit ⟨k.setProc c { k.proc c with killed := true }, m.files⟩ c

def perform (m : Machine) : Entry → Except Halt Machine
  | .fault c cr2 => m.trap cfg c cr2
  | .exec c path ip argv => do
    let (m, _) ← m.exec cfg c path ip argv
    return m
  | .fork c => do
    let (m, _) ← m.fork cfg c
    return m
  | .exit c => m.exit c
  | a => do
    let k ← (a.perform cfg m.kernel).mapError .kernel
    return ⟨k, m.files⟩

/-- A `fork` that gets past `allocproc` has the frames to copy the address space; its pid fits the
path of the swap file. -/
def Completes (k : Kernel) : Entry → Prop
  | .fork c => k.allocproc.1 = none ∨ k.nextpid ≤ 2 ∨
    k.nextpid < pidLimit ∧
      1 + k.copyFrames (k.proc c).pgdir (k.proc c).sz ≤ k.freelist.length
  | _ => True

instance (k : Kernel) : (a : Entry) → Decidable (Completes k a)
  | .fork c => inferInstanceAs (Decidable (k.allocproc.1 = none ∨ k.nextpid ≤ 2 ∨
      k.nextpid < pidLimit ∧ 1 + k.copyFrames (k.proc c).pgdir (k.proc c).sz ≤ k.freelist.length))
  | .growproc .. | .fault .. | .exec .. | .exit .. | .wait .. | .tick => inferInstanceAs (Decidable True)

/-- The machine after a call that returned, where the call was allowed and `cond` held. -/
def next (cond : Kernel → Entry → Bool) (m : Machine) (a : Entry) : Option Machine :=
  if a.Allowed m.kernel ∧ cond m.kernel a = true then (m.perform cfg a).toOption else none

def Step (cond : Kernel → Entry → Bool) (m : Machine) (a : Entry) (m' : Machine) : Prop :=
  m.next cfg cond a = some m'

/-- The open swap files and the entries `/.swap<pid>` belong to the live processes with `pid > 2`, one
each. -/
structure OneToOne (m : Machine) : Prop where
  pid : Set.InjOn (fun c => (m.kernel.proc c).pid) {c | m.kernel.Active c}
  file : Set.BijOn m.files.swapFile {c | m.kernel.Active c}
    {p | ∃ f, p = some f ∧ (m.files.ftable f).isSwap = true}
  ref : ∀ f, (m.files.ftable f).isSwap = true → (m.files.ftable f).ref = 1
  entry : ∀ pid, 2 < pid → FileSystem.entries (swapName pid) m.files.root =
    if ∃ c, m.kernel.Active c ∧ (m.kernel.proc c).pid = pid then 1 else 0
  names : ∀ c f, m.kernel.Active c → m.files.swapFile c = some f →
    m.files.dirlookup (swapName (m.kernel.proc c).pid) = some (m.files.ftable f).ip

/-- Only the first two processes are there, no swap file is open, and none is left on the disc. -/
structure Booted (m : Machine) : Prop where
  kernel : m.kernel.Booted
  closed : ∀ f, (m.files.ftable f).isSwap = false
  entry : ∀ pid, 2 < pid → FileSystem.entries (swapName pid) m.files.root = 0
  held : ∀ f, FileSystem.held m.files.ofile f ≤ (m.files.ftable f).ref

/-- The pid of the process in a slot, if it has a swap file. -/
def owner (k : Kernel) (c : Slot) : Option Nat := if k.Active c then some (k.proc c).pid else none

/-- What every run keeps. -/
structure Matched (m : Machine) : Prop where
  below : ∀ c, m.kernel.InUse c → (m.kernel.proc c).pid < m.kernel.nextpid
  owned : m.files.Owned (owner m.kernel)

variable {cfg} {m m' : Machine} {k k' : Kernel} {files files' : FileSystem} {c np : Slot} {a : Entry}

private theorem mapError_ok {ε ε' α : Type} {f : ε → ε'} {x : Except ε α} {a : α} :
    x.mapError f = .ok a ↔ x = .ok a := by
  cases x <;> simp [Except.mapError]

section Owners

private theorem owner_eq_some {pid : Nat} :
    owner k c = some pid ↔ k.Active c ∧ (k.proc c).pid = pid := by
  unfold owner
  split
  · next h => simp [h]
  · next h => simp [h]

private theorem owner_of_state (h : (k.proc c).state = .UNUSED ∨ (k.proc c).state = .EMBRYO ∨
    (k.proc c).state = .ZOMBIE) : owner k c = none := by
  unfold owner
  rw [if_neg]
  rintro ⟨-, h1, h2, h3⟩
  rcases h with h | h | h
  · exact h1 h
  · exact h2 h
  · exact h3 h

private theorem owner_congr (hpid : (k'.proc c).pid = (k.proc c).pid) (hstate : (k'.proc c).state = (k.proc c).state) :
    owner k' c = owner k c := by
  have hactive : k'.Active c ↔ k.Active c := by
    constructor
    · rintro ⟨h1, h2, h3, h4⟩
      rw [hpid] at h1
      rw [hstate] at h2 h3 h4
      exact ⟨h1, h2, h3, h4⟩
    · rintro ⟨h1, h2, h3, h4⟩
      rw [← hpid] at h1
      rw [← hstate] at h2 h3 h4
      exact ⟨h1, h2, h3, h4⟩
  simp only [owner, hactive, hpid]

private theorem owner_kept (h : Kernel.Kept c k k') : owner k' = owner k := by
  funext c'
  by_cases hc : c' = c
  · subst hc
    exact owner_congr h.pid h.state
  · exact owner_congr (by rw [h.other c' hc]) (by rw [h.other c' hc])

private theorem owner_spares (h : Kernel.Spares np k k') :
    owner k' = update (owner k) np (owner k' np) := by
  funext c
  by_cases hc : c = np
  · subst hc
    simp
  · rw [update_of_ne hc]
    exact owner_congr (h.pid c hc) (h.state c hc)

end Owners

private theorem Matched.oneToOne (h : m.Matched) : m.OneToOne := by
  have hbacks : ∀ c f, m.kernel.Active c → m.files.swapFile c = some f →
      m.files.Backs f (m.kernel.proc c).pid := by
    intro c f hc hf
    obtain ⟨f', hf', hback⟩ := h.owned.file c _ (owner_eq_some.mpr ⟨hc, rfl⟩)
    obtain rfl : f' = f := Option.some.inj (hf'.symm.trans hf)
    exact hback
  constructor
  · intro c hc c' hc' heq
    exact h.owned.pid_inj c c' _ (owner_eq_some.mpr ⟨hc, heq⟩) (owner_eq_some.mpr ⟨hc', rfl⟩)
  · refine ⟨?_, ?_, ?_⟩
    · intro c hc
      obtain ⟨f, hf, hback⟩ := h.owned.file c _ (owner_eq_some.mpr ⟨hc, rfl⟩)
      exact ⟨f, hf, hback.swap⟩
    · intro c hc c' hc' heq
      obtain ⟨f, hf, -⟩ := h.owned.file c _ (owner_eq_some.mpr ⟨hc, rfl⟩)
      rw [hf] at heq
      exact h.owned.inode c c' _ _ f f (owner_eq_some.mpr ⟨hc, rfl⟩) (owner_eq_some.mpr ⟨hc', rfl⟩) hf
        heq.symm rfl
    · rintro p ⟨f, rfl, hswap⟩
      obtain ⟨c, pid, hc, hf⟩ := h.owned.file_only f hswap
      exact ⟨c, (owner_eq_some.mp hc).1, hf⟩
  · intro f hswap
    obtain ⟨c, pid, hc, hf⟩ := h.owned.file_only f hswap
    exact (hbacks c f (owner_eq_some.mp hc).1 hf).ref
  · intro pid hpid
    split
    · next hex =>
      obtain ⟨c, hc⟩ := hex
      exact h.owned.entry c pid (owner_eq_some.mpr hc)
    · next hnone =>
      refine h.owned.entry_only pid hpid fun c hc => hnone ?_
      exact ⟨c, owner_eq_some.mp hc⟩
  · exact fun c f hc hf => (hbacks c f hc hf).entry

private theorem Booted.matched (h : m.Booted) : m.Matched := by
  have hnone : ∀ c pid, owner m.kernel c ≠ some pid := by
    intro c pid hc
    obtain ⟨hactive, -⟩ := owner_eq_some.mp hc
    have hle := (h.kernel c ⟨hactive.unused, hactive.embryo⟩).1
    have hlt := hactive.pid
    omega
  refine ⟨fun c hc => (h.kernel c hc).2, ?_⟩
  constructor
  · exact fun c pid hc => absurd hc (hnone c pid)
  · exact fun c _ pid hc => absurd hc (hnone c pid)
  · exact fun c pid hc => absurd hc (hnone c pid)
  · intro f hf
    simp [h.closed f] at hf
  · exact fun c pid hc => absurd hc (hnone c pid)
  · exact fun pid hpid _ => h.entry pid hpid
  · exact fun c _ pid _ _ _ hc => absurd hc (hnone c pid)
  · exact h.held
  · intro f hf
    simp [h.closed f] at hf

section Calls

private theorem Matched.kept (h : m.Matched) (hk : Kernel.Kept c m.kernel k) : Matched ⟨k, m.files⟩ where
  below c' hc' := by
    by_cases hc : c' = c
    · subst hc
      simp only [Kernel.InUse, hk.state] at hc' ⊢
      rw [hk.pid, hk.nextpid]
      exact h.below c' hc'
    · simp only [Kernel.InUse, hk.other c' hc] at hc' ⊢
      rw [hk.nextpid]
      exact h.below c' hc'
  owned := by
    rw [show owner (⟨k, m.files⟩ : Machine).kernel = owner m.kernel from owner_kept hk]
    exact h.owned

private theorem Matched.vacated (h : m.Matched) (hother : Kernel.Spares np m.kernel k)
    (hnext : m.kernel.nextpid ≤ k.nextpid) (hpid : k.InUse np → (k.proc np).pid < k.nextpid)
    (hfiles : files.Owned (update (owner m.kernel) np (owner k np))) : Matched ⟨k, files⟩ where
  below c hc := by
    by_cases hcn : c = np
    · subst hcn
      exact hpid hc
    · simp only [Kernel.InUse, hother.state c hcn] at hc ⊢
      rw [hother.pid c hcn]
      exact lt_of_lt_of_le (h.below c hc) hnext
  owned := by
    rw [show owner (⟨k, files⟩ : Machine).kernel = owner k from rfl, owner_spares hother]
    exact hfiles

private theorem owner_of_runs (h : k.Runs c) :
    owner k c = if 2 < (k.proc c).pid then some (k.proc c).pid else none := by
  unfold owner
  split
  · next hactive => rw [if_pos hactive.pid]
  · next hnot =>
    rw [if_neg]
    exact fun hpid => hnot (h.active hpid)

private theorem Matched.exit (h : m.Matched) (hc : m.kernel.Runs c) (hexit : m.exit c = .ok m') :
    m'.Matched := by
  unfold Machine.exit at hexit
  obtain ⟨k, hkernel, hrest⟩ := bind_eq_ok.mp hexit
  obtain ⟨files, hfiles, hend⟩ := bind_eq_ok.mp hrest
  obtain rfl := pure_eq_ok.mp hend
  obtain ⟨hother, hstate, hpid, hnext⟩ := Kernel.exit_spares (mapError_ok.mp hkernel)
  apply h.vacated hother (le_of_eq hnext.symm)
  · rw [hpid, hnext]
    exact fun _ => h.below c hc.1
  · rw [owner_of_state (.inr (.inr hstate))]
    exact h.owned.release (owner_of_runs hc) (mapError_ok.mp hfiles)

private theorem Matched.trap {cr2 : Nat} (h : m.Matched) (hc : m.kernel.Runs c) (htrap : m.trap cfg c cr2 = .ok m') :
    m'.Matched := by
  unfold Machine.trap at htrap
  obtain ⟨⟨k, serviced⟩, hpage, hend⟩ := bind_eq_ok.mp htrap
  have hkept : Kernel.Kept c m.kernel k := by
    replace hpage := mapError_ok.mp hpage
    split at hpage
    · have hensures : Ensures (Slip False) _ (m.kernel.retrievePage cfg c cr2) :=
        Kernel.retrievePage_ensures False.elim
      rw [hpage] at hensures
      exact hensures.of_ok
    · obtain ⟨rfl, -⟩ : m.kernel = k ∧ false = serviced := by simpa using hpage
      exact .refl c _
  cases serviced with
  | true =>
    obtain rfl := pure_eq_ok.mp hend
    exact h.kept hkept
  | false =>
    have hkilled : Kernel.Kept c m.kernel (k.setProc c { k.proc c with killed := true }) :=
      hkept.trans (.of_setProc rfl rfl id)
    refine (h.kept hkilled).exit ?_ hend
    simp only [Kernel.Runs, Kernel.InUse, hkilled.state]
    exact hc

private theorem Matched.exec {path : Nat} {ip : Option Inode} {argv : List Nat} {ok : Bool} (h : m.Matched)
    (hc : m.kernel.Runs c) (hexec : m.exec cfg c path ip argv = .ok (m', ok)) : m'.Matched := by
  unfold Machine.exec at hexec
  obtain ⟨⟨k, ok'⟩, hkernel, hend⟩ := bind_eq_ok.mp hexec
  have hkept : Kernel.Kept c m.kernel k := by
    have hensures : Ensures (Slip False) _ (m.kernel.exec cfg c path ip argv) :=
      Kernel.exec_ensures fun _ _ => False.elim
    rw [mapError_ok.mp hkernel] at hensures
    exact hensures.of_ok
  cases ok' with
  | false =>
    obtain ⟨rfl, -⟩ : ⟨k, m.files⟩ = m' ∧ false = ok := by simpa using hend
    exact h.kept hkept
  | true =>
    simp only [if_true] at hend
    obtain ⟨files, hreplace, hend⟩ := bind_eq_ok.mp hend
    obtain ⟨rfl, -⟩ : ⟨k, files⟩ = m' ∧ true = ok := by simpa using hend
    simp only [replaceFile] at hreplace
    split at hreplace
    · next hpid =>
      obtain ⟨files₁, hremove, hcreate⟩ := bind_eq_ok.mp (mapError_ok.mp hreplace)
      have howner := owner_of_runs hc
      rw [if_pos hpid] at howner
      have hreplaced : Matched ⟨m.kernel, files⟩ := ⟨h.below, h.owned.replaced howner hremove hcreate⟩
      exact hreplaced.kept hkept
    · obtain rfl := Except.ok.inj hreplace
      exact h.kept hkept

private theorem Matched.wait {p : Slot} (h : m.Matched) (hp : (m.kernel.proc p).state = .ZOMBIE)
    (hwait : m.kernel.wait cfg c p = .ok k) : Matched ⟨k, m.files⟩ := by
  have hensures : Ensures (Slip False) _ (m.kernel.wait cfg c p) := Kernel.wait_ensures
  rw [hwait] at hensures
  obtain ⟨hother, hstate, hnext⟩ := hensures.of_ok
  apply h.vacated hother (le_of_eq hnext.symm)
  · exact fun hp' => absurd hstate hp'.1
  · rw [owner_of_state (.inl hstate), ← owner_of_state (.inr (.inr hp)), Function.update_eq_self]
    exact h.owned

private theorem Matched.tick (h : m.Matched) (htick : m.kernel.updateAgeForAllProcess = .ok k) :
    Matched ⟨k, m.files⟩ := by
  have hkeeps : ∀ (k k' : Kernel) (c : Slot), Matched ⟨k, m.files⟩ → Kernel.Kept c k k' →
      Matched ⟨k', m.files⟩ := fun _ _ _ h₁ hk => h₁.kept hk
  have hensures : Ensures (Slip False) _ m.kernel.updateAgeForAllProcess := Kernel.tick_ensures hkeeps h
  rw [htick] at hensures
  exact hensures.of_ok

end Calls

section Fork

private theorem fork_result (hc : (k.proc c).state ≠ .UNUSED) (hframes : k.allocproc.1 = none ∨
      1 + k.copyFrames (k.proc c).pgdir (k.proc c).sz ≤ k.freelist.length) :
    Ensures (fun _ => False) (fun r => r.2 = k.allocproc.1) (k.fork cfg c) := by
  unfold Kernel.fork
  cases halloc : k.allocproc with
  | mk r k₁ =>
    cases r with
    | none => exact .ok rfl
    | some np =>
      simp only
      obtain ⟨hunused, stack, rest, hfree, rfl⟩ := Kernel.allocproc_some halloc
      have hne : c ≠ np := by
        rintro rfl
        exact hc hunused
      rw [Kernel.setProc_proc_of_ne hne]
      have henough : Kernel.copyFrames ({ k with freelist := rest, nextpid := k.nextpid + 1 }.setProc np
          (k.freshProc np stack)) (k.proc c).pgdir (k.proc c).sz ≤ rest.length := by
        rcases hframes with hnone | hle
        · simp [halloc] at hnone
        · simp only [hfree, List.length_cons] at hle
          have hsame : Kernel.copyFrames ({ k with freelist := rest, nextpid := k.nextpid + 1 }.setProc np
            (k.freshProc np stack)) (k.proc c).pgdir (k.proc c).sz =
              k.copyFrames (k.proc c).pgdir (k.proc c).sz := rfl
          omega
      refine (Kernel.copyuvm_frames henough).bind ?_
      rintro ⟨r, k₂⟩ hsome
      obtain ⟨d, rfl⟩ := Option.isSome_iff_exists.mp hsome
      simp only
      cases k₂.setProc np _ |>.copySwapFile c np with
      | error e => exact .error id
      | ok k₃ => exact .ok rfl

private theorem Matched.fork {r : Option Slot} (h : m.Matched) (hc : m.kernel.Runs c)
    (hcompletes : Completes m.kernel (.fork c)) (hfork : m.fork cfg c = .ok (m', r)) : m'.Matched := by
  unfold Machine.fork at hfork
  obtain ⟨files, halloc, hrest⟩ := bind_eq_ok.mp hfork
  obtain ⟨⟨k, r'⟩, hkernel, hend⟩ := bind_eq_ok.mp hrest
  replace hkernel := mapError_ok.mp hkernel
  have hends : Kernel.ForkEnd m.kernel (k, r') := by
    have hensures : Ensures (Slip False) _ (m.kernel.fork cfg c) :=
      Kernel.fork_ensures hc.1.1 False.elim
    rw [hkernel] at hensures
    exact hensures.of_ok
  have hfile : m.kernel.allocproc.1 = none ∨ m.kernel.nextpid ≤ 2 → files = m.files := by
    intro hcase
    unfold allocFile at halloc
    split at halloc
    · exact (Except.ok.inj halloc).symm
    · next np hnp =>
      rcases hcase with hnone | hle
      · simp [hnone] at hnp
      · rw [if_neg (by omega)] at halloc
        exact (Except.ok.inj halloc).symm
  have hresult : r' = m.kernel.allocproc.1 ∨ m.kernel.nextpid ≤ 2 := by
    rcases hcompletes with hnone | hle | ⟨-, hframes⟩
    · have hensures : Ensures _ _ (m.kernel.fork cfg c) := fork_result hc.1.1 (.inl hnone)
      rw [hkernel] at hensures
      exact .inl hensures.of_ok
    · exact .inr hle
    · have hensures : Ensures _ _ (m.kernel.fork cfg c) := fork_result hc.1.1 (.inr hframes)
      rw [hkernel] at hensures
      exact .inl hensures.of_ok
  cases hends with
  | noSlot =>
    obtain ⟨rfl, -⟩ : ⟨m.kernel, files⟩ = m' ∧ none = r := by simpa using hend
    rw [hfile (hresult.imp Eq.symm id)]
    exact h
  | failed hunused hother hstate hnext =>
    obtain ⟨rfl, -⟩ : ⟨k, files⟩ = m' ∧ none = r := by simpa using hend
    rw [hfile (hresult.imp Eq.symm id)]
    apply h.vacated hother (by omega)
    · exact fun hnp => absurd hstate hnp.1
    · rw [owner_of_state (.inl hstate), ← owner_of_state (.inl hunused), Function.update_eq_self]
      exact h.owned
  | @born np _ hunused hother hstate hpid _ hnext =>
    simp only at hend
    obtain ⟨files₁, hinherit, hend⟩ := bind_eq_ok.mp hend
    obtain ⟨rfl, -⟩ : ⟨k, files₁⟩ = m' ∧ some np = r := by simpa using hend
    have hbefore := owner_of_state (k := m.kernel) (c := np) (.inl hunused)
    have howned : files.Owned (update (owner m.kernel) np (owner k np)) := by
      rcases Nat.lt_or_ge 2 m.kernel.nextpid with hlt | hle
      · -- the child has the swap file that `allocproc` has made
        have hnp : m.kernel.allocproc.1 = some np := by
          rcases hresult with hnp | hle
          · exact hnp.symm
          · omega
        have hlimit : m.kernel.nextpid < pidLimit := by
          rcases hcompletes with hnone | hle | ⟨hlimit, -⟩
          · simp [hnp] at hnone
          · omega
          · exact hlimit
        have hafter : owner k np = some m.kernel.nextpid := by
          refine owner_eq_some.mpr ⟨⟨?_, ?_, ?_, ?_⟩, hpid⟩
          · omega
          · simp [hstate]
          · simp [hstate]
          · simp [hstate]
        have hfresh : ∀ c', owner m.kernel c' ≠ some m.kernel.nextpid := by
          intro c' hc'
          obtain ⟨hactive, heq⟩ := owner_eq_some.mp hc'
          have hbelow := h.below c' hactive.inUse
          omega
        simp only [allocFile, hnp] at halloc
        rw [if_pos hlt] at halloc
        obtain ⟨f, inum, hcreated⟩ :=
          FileSystem.createSwapFile_ok (h.owned.entry_only _ hlt hfresh) (mapError_ok.mp halloc)
        rw [hafter]
        exact h.owned.created hbefore hlt hlimit hfresh hcreated
      · have hafter : owner k np = none := by
          unfold owner
          rw [if_neg]
          rintro ⟨hlt, -⟩
          omega
        rw [hfile (.inr hle), hafter, ← hbefore, Function.update_eq_self]
        exact h.owned
    apply h.vacated hother (by omega)
    · exact fun _ => by omega
    · exact howned.inherit (mapError_ok.mp hinherit)

end Fork

private theorem Matched.step (h : m.Matched) (hstep : Step cfg (fun k a => decide (Completes k a)) m a m') :
    m'.Matched := by
  unfold Step next at hstep
  split at hstep
  · next hcond =>
    obtain ⟨hallowed, hcompletes⟩ := hcond
    replace hcompletes := of_decide_eq_true hcompletes
    have hperform : m.perform cfg a = .ok m' := by
      cases hp : m.perform cfg a with
      | error e => simp [hp, Except.toOption] at hstep
      | ok m₁ => simpa [hp, Except.toOption] using hstep
    cases a with
    | growproc c n =>
      obtain ⟨k, hkernel, hend⟩ := bind_eq_ok.mp hperform
      obtain rfl := pure_eq_ok.mp hend
      obtain ⟨⟨k₁, ok⟩, hgrow, hend⟩ := bind_eq_ok.mp (mapError_ok.mp hkernel)
      obtain rfl := pure_eq_ok.mp hend
      have hensures : Ensures (Slip False) _ (m.kernel.growproc cfg c n) :=
        Kernel.growproc_ensures False.elim
      rw [hgrow] at hensures
      exact h.kept hensures.of_ok
    | fault c cr2 => exact h.trap hallowed hperform
    | exec c path ip argv =>
      obtain ⟨⟨m₁, ok⟩, hexec, hend⟩ := bind_eq_ok.mp hperform
      obtain rfl := pure_eq_ok.mp hend
      exact h.exec hallowed hexec
    | fork c =>
      obtain ⟨⟨m₁, r⟩, hfork, hend⟩ := bind_eq_ok.mp hperform
      obtain rfl := pure_eq_ok.mp hend
      exact h.fork hallowed hcompletes hfork
    | exit c => exact h.exit hallowed hperform
    | wait c p =>
      obtain ⟨k, hkernel, hend⟩ := bind_eq_ok.mp hperform
      obtain rfl := pure_eq_ok.mp hend
      exact h.wait hallowed.2 (mapError_ok.mp hkernel)
    | tick =>
      obtain ⟨k, hkernel, hend⟩ := bind_eq_ok.mp hperform
      obtain rfl := pure_eq_ok.mp hend
      exact h.tick (mapError_ok.mp hkernel)
  · simp at hstep

/-- In every state of a run whose forks complete, open swap files, entries and live processes are in
one-to-one correspondence. -/
theorem oneToOne_of_run {m₀ : Machine} {as : List Entry} (hboot : m₀.Booted)
    (hrun : Run (Step cfg fun k a => decide (Completes k a)) m₀ as m) : m.OneToOne := by
  have h : m.Matched := hrun.keeps (fun _ _ _ h₁ hstep => h₁.step hstep) hboot.matched
  exact h.oneToOne

end Machine

/-- A file system with nothing in it but the root directory. -/
def Solo.disk : FileSystem where
  ftable _ := ⟨.FD_NONE, 0, 0, 0, 0⟩
  dinode i := if i = rootIno then ⟨.T_DIR, 1⟩ else ⟨.FREE, 0⟩
  iref i := if i = rootIno then 1 else 0
  ninodes := 200
  isdirempty _ := true
  root := []
  swapFile _ := none
  ofile _ := none
  cwd _ := rootIno

/-- The first process with `n` free frames. -/
def Solo.machine (n : Nat) : Machine where
  kernel := { Solo.first with freelist := (List.range n).map fun i => Solo.frame (10 + i) }
  files := Solo.disk

namespace Machine

private theorem booted_machine (n : Nat) : (Solo.machine n).Booted where
  kernel := by
    unfold Kernel.Booted Kernel.InUse
    rw [show (Solo.machine n).kernel.proc = Solo.first.proc from rfl]
    exact Kernel.booted_first
  closed f := by simp [Solo.machine, Solo.disk, File.isSwap]
  entry pid _ := by simp [Solo.machine, Solo.disk, FileSystem.entries]
  held f := by
    have hnone : FileSystem.held (Solo.machine n).files.ofile f = 0 := by
      apply tally_eq_zero
      intro i
      simp [Solo.machine, Solo.disk]
    rw [hnone]
    exact Nat.zero_le _

/-- The second process forks when the frames last for the first half of the copy. -/
theorem fork_leaves_swap_file :
    ¬ ∀ (cfg : Config) (m₀ m : Machine) (as : List Entry), m₀.Booted →
      Run (Step cfg fun _ _ => true) m₀ as m → m.OneToOne := by
  intro h
  have hleft : (([Entry.fork Solo.main, .fork Solo.child].foldlM
      (fun m a => next (Solo.config .FIFO) (fun _ _ => true) m a) (Solo.machine 100)).map fun m =>
        (FileSystem.entries (swapName 3) m.files.root,
          decide (∃ c, m.kernel.Active c ∧ (m.kernel.proc c).pid = 3))) = some (1, false) := by
    decide +kernel
  obtain ⟨m, hm, hend⟩ := Option.map_eq_some_iff.mp hleft
  simp only [Prod.mk.injEq, decide_eq_false_iff_not] at hend
  have hentry := (h (Solo.config .FIFO) (Solo.machine 100) m _ (booted_machine 100) (.of_foldlM hm)).entry 3
    (by decide)
  rw [if_neg hend.2] at hentry
  omega

/-- The second process forks a third, which forks a fourth and exits; the third is reaped. -/
theorem oneToOne_of_run_fork_exit_wait :
    ∃ m, [Entry.fork Solo.main, .fork Solo.child, .fork Solo.grandchild, .exit Solo.grandchild,
        .wait Solo.child Solo.grandchild].foldlM
          (fun m a => next (Solo.config .FIFO) (fun k a => decide (Completes k a)) m a)
          (Solo.machine 300) = some m ∧ m.OneToOne := by
  obtain ⟨m, hm⟩ := Option.isSome_iff_exists.mp
    (by decide +kernel : ([Entry.fork Solo.main, .fork Solo.child, .fork Solo.grandchild,
      .exit Solo.grandchild, .wait Solo.child Solo.grandchild].foldlM
        (fun m a => next (Solo.config .FIFO) (fun k a => decide (Completes k a)) m a)
        (Solo.machine 300)).isSome = true)
  exact ⟨m, hm, oneToOne_of_run (booted_machine 300) (.of_foldlM hm)⟩

end Machine

end OsSessional.Paging
