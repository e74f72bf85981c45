import OsSessional.Lib.Runs
import OsSessional.Paging.Growth

/-!
# The running machine

User loads and stores as the MMU lets them through, the faults they raise, `growproc` calls and
timer ticks. An access that completes may have walked the page table and set `PTE_A`; with the
translation still cached it does not.
-/

namespace OsSessional.Paging

open Function (update)
open Outcome

/-- What a user process or the timer does next. -/
inductive Op
  | load (a : Nat) (walk : Bool)
  | store (a : Nat) (b : Byte) (walk : Bool)
  | growproc (n : Int)
  | tick

/-- What it came to: the byte loaded or stored, the size after a call, or nothing to see. -/
inductive Event
  | loaded (a : Nat) (b : Byte)
  | stored (a : Nat) (b : Byte)
  | faulted (a : Nat)
  | resized (sz : Nat)
  | ticked
  deriving DecidableEq

/-- The address an operation touches lies in the user half. -/
def Op.User : Op → Prop
  | .load a _ => a < kernBase
  | .store a _ _ => a < kernBase
  | .growproc _ => True
  | .tick => True

instance (op : Op) : Decidable op.User := by
  cases op <;> simp only [Op.User] <;> infer_instance

theorem mod_pgSize_lt (a : Nat) : a % pgSize < pgSize := Nat.mod_lt _ (by decide)

def pageOffset (a : Nat) : Fin pgSize := ⟨a % pgSize, mod_pgSize_lt a⟩

namespace Kernel

variable (cfg : Config)

/-- The frame a user access goes to; `none` when the MMU raises a page fault. -/
def access (k : Kernel) (c : Slot) (a : Nat) (write : Bool) : Option Frame :=
  let p := k.pte (k.proc c).pgdir (vpn a)
  if hasFlag p .P && hasFlag p .U && (!write || hasFlag p .W) then some (pteAddr p) else none

/-- The page walk of an access sets the accessed bit. -/
def walked (k : Kernel) (c : Slot) (a : Nat) (walk : Bool) : Kernel :=
  if walk then
    k.setPte (k.proc c).pgdir (vpn a) (k.pte (k.proc c).pgdir (vpn a) ||| pteA)
  else k

def perform (k : Kernel) (c : Slot) : Op → Except Crash (Kernel × Event)
  | .load a walk =>
    match k.access c a false with
    | some fr => .ok (k.walked c a walk, .loaded a (k.mem fr (pageOffset a)))
    | none => do return (← k.trap cfg c 3 a, .faulted a)
  | .store a b walk =>
    match k.access c a true with
    | some fr =>
      .ok ((k.walked c a walk).setMem fr (update (k.mem fr) (pageOffset a) b), .stored a b)
    | none => do return (← k.trap cfg c 3 a, .faulted a)
  | .growproc n => do
    let (k, _) ← k.growproc cfg c n
    return (k, .resized (k.proc c).sz)
  | .tick => do return (← k.updateAgeForAllProcess, .ticked)

/-- Process `c` is one of those that page to a swap file, and has not ended. -/
structure Active (k : Kernel) (c : Slot) : Prop where
  pid : 2 < (k.proc c).pid
  unused : (k.proc c).state ≠ .UNUSED
  embryo : (k.proc c).state ≠ .EMBRYO
  zombie : (k.proc c).state ≠ .ZOMBIE

instance (k : Kernel) (c : Slot) : Decidable (k.Active c) :=
  decidable_of_iff (2 < (k.proc c).pid ∧ (k.proc c).state ≠ .UNUSED ∧
    (k.proc c).state ≠ .EMBRYO ∧ (k.proc c).state ≠ .ZOMBIE)
    ⟨fun ⟨h1, h2, h3, h4⟩ => ⟨h1, h2, h3, h4⟩, fun ⟨h1, h2, h3, h4⟩ => ⟨h1, h2, h3, h4⟩⟩

/-- The page an operation would fault in, if it faults on a paged-out page. -/
def fetches (k : Kernel) (c : Slot) : Op → Option Nat
  | .load a _ =>
    if (k.access c a false).isNone && hasFlag (k.pte (k.proc c).pgdir (vpn a)) .PG then
      some (a / pgSize) else none
  | .store a _ _ =>
    if (k.access c a true).isNone && hasFlag (k.pte (k.proc c).pgdir (vpn a)) .PG then
      some (a / pgSize) else none
  | _ => none

variable {cfg} {k k' : Kernel} {c : Slot} {e : Event} {op : Op}

/-- The four kinds of step, with what each did to the kernel. -/
inductive Stepped (cfg : Config) (c : Slot) (k : Kernel) (op : Op) : Event → Kernel → Prop
  | loaded {a : Nat} {walk : Bool} {fr : Frame} (hop : op = .load a walk) (ha : a < kernBase)
      (h : k.access c a false = some fr) :
      Stepped cfg c k op (.loaded a (k.mem fr (pageOffset a))) (k.walked c a walk)
  | stored {a : Nat} {b : Byte} {walk : Bool} {fr : Frame} (hop : op = .store a b walk)
      (ha : a < kernBase) (h : k.access c a true = some fr) :
      Stepped cfg c k op (.stored a b)
        ((k.walked c a walk).setMem fr (update (k.mem fr) (pageOffset a) b))
  | faulted {a : Nat} {k' : Kernel} (ha : a < kernBase)
      (hfetch : hasFlag (k.pte (k.proc c).pgdir (a / pgSize)) .PG = true →
        k.fetches c op = some (a / pgSize))
      (h : Faulted cfg c (a / pgSize) k k') : Stepped cfg c k op (.faulted a) k'
  | resized {n : Int} {k' : Kernel} {ok : Bool} (hop : op = .growproc n)
      (h : k.growproc cfg c n = .ok (k', ok)) : Stepped cfg c k op (.resized (k'.proc c).sz) k'
  | ticked {k' : Kernel} (hop : op = .tick) (h : k.updateAgeForAllProcess = .ok k') :
      Stepped cfg c k op .ticked k'

theorem perform_ok (huser : op.User) (h : k.perform cfg c op = .ok (k', e)) :
    Stepped cfg c k op e k' := by
  cases op with
  | load a walk =>
    simp only [perform] at h
    cases hacc : k.access c a false with
    | some fr =>
      simp only [hacc, Except.ok.injEq, Prod.mk.injEq] at h
      obtain ⟨rfl, rfl⟩ := h
      exact .loaded rfl huser hacc
    | none =>
      simp only [hacc, bind_eq_ok] at h
      obtain ⟨k₁, htrap, h⟩ := h
      obtain ⟨rfl, rfl⟩ : k₁ = k' ∧ Event.faulted a = e := by simpa using h
      refine .faulted huser ?_ (trap_ok huser htrap)
      intro hPG
      simp [fetches, hacc, vpn_of_lt huser, hPG]
  | store a b walk =>
    simp only [perform] at h
    cases hacc : k.access c a true with
    | some fr =>
      simp only [hacc, Except.ok.injEq, Prod.mk.injEq] at h
      obtain ⟨rfl, rfl⟩ := h
      exact .stored rfl huser hacc
    | none =>
      simp only [hacc, bind_eq_ok] at h
      obtain ⟨k₁, htrap, h⟩ := h
      obtain ⟨rfl, rfl⟩ : k₁ = k' ∧ Event.faulted a = e := by simpa using h
      refine .faulted huser ?_ (trap_ok huser htrap)
      intro hPG
      simp [fetches, hacc, vpn_of_lt huser, hPG]
  | growproc n =>
    simp only [perform, bind_eq_ok] at h
    obtain ⟨⟨k₁, ok⟩, hgrow, h⟩ := h
    obtain ⟨rfl, rfl⟩ : k₁ = k' ∧ Event.resized (k₁.proc c).sz = e := by simpa using h
    exact .resized rfl hgrow
  | tick =>
    simp only [perform, bind_eq_ok] at h
    obtain ⟨k₁, htick, h⟩ := h
    obtain ⟨rfl, rfl⟩ : k₁ = k' ∧ Event.ticked = e := by simpa using h
    exact .ticked rfl htick

theorem access_some {a : Nat} {write : Bool} {fr : Frame} (h : k.access c a write = some fr) :
    hasFlag (k.pte (k.proc c).pgdir (vpn a)) .P = true ∧
      hasFlag (k.pte (k.proc c).pgdir (vpn a)) .U = true ∧
      fr = pteAddr (k.pte (k.proc c).pgdir (vpn a)) := by
  simp only [access] at h
  split at h
  · next hcond =>
    simp only [Bool.and_eq_true] at hcond
    exact ⟨hcond.1.1, hcond.1.2, by simpa using h.symm⟩
  · simp at h

section Walked

variable {a : Nat} {walk : Bool}

@[simp] theorem walked_proc : (k.walked c a walk).proc = k.proc := by
  cases walk <;> rfl
@[simp] theorem walked_mem : (k.walked c a walk).mem = k.mem := by
  cases walk <;> rfl
@[simp] theorem walked_freelist : (k.walked c a walk).freelist = k.freelist := by
  cases walk <;> rfl
@[simp] theorem walked_nextpid : (k.walked c a walk).nextpid = k.nextpid := by
  cases walk <;> rfl

private theorem walked_pde (d : Frame) : ((k.walked c a walk).dirs d).pde = (k.dirs d).pde := by
  cases walk with
  | false => rfl
  | true => exact setPte_pde

private theorem walked_pte (hP : hasFlag (k.pte (k.proc c).pgdir (vpn a)) .P = true) (d : Frame) (n : Nat) :
    Space.SameEntry ((k.walked c a walk).pte d n) (k.pte d n) := by
  cases walk with
  | false => exact .refl _
  | true =>
    simp only [walked, if_true, setPte_pte (hasTable_of_hasFlag hP)]
    split
    · next h =>
      obtain ⟨rfl, rfl⟩ := h
      exact Space.sameEntry_setA _
    · exact .refl _

private theorem walked_alike (hP : hasFlag (k.pte (k.proc c).pgdir (vpn a)) .P = true) (c' : Slot) :
    Space.Alike (k.space c') ((k.walked c a walk).space c') :=
  ⟨walked_pte hP, fun i => by simp [space], by simp [space], by simp [space]⟩

theorem walked_quiet (hP : hasFlag (k.pte (k.proc c).pgdir (vpn a)) .P = true) :
    Quiet k (k.walked c a walk) :=
  ⟨walked_alike hP, by simp, by simp, walked_pde, by simp, by simp⟩

end Walked

end Kernel

end OsSessional.Paging
