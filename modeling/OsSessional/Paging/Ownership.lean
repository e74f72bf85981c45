import OsSessional.Paging.Safe
import OsSessional.Paging.Start

/-!
# The running system

All processes together: each may grow, shrink, fault and fork, and the timer ticks in between.
From a state in which every paging process has just come out of an exec, the RAM tables stay sound
and every frame stays in one place.
-/

namespace OsSessional.Paging

open Outcome

/-- A step of the system: an operation of a process, or a fork. -/
inductive Action
  | user (c : Slot) (op : Op)
  | fork (c : Slot)

namespace Kernel

variable {cfg : Config} {k k' : Kernel} {c : Slot} {a : Action} {op : Op}

/-- The system moves when an active process performs an operation whose page-in, if it is one,
gets a frame, or forks successfully. -/
def act (cfg : Config) (k : Kernel) : Action → Option Kernel
  | .user c op =>
    if k.Active c ∧ op.User ∧ ((k.fetches c op).isSome = true → k.freelist ≠ []) then
      match k.perform cfg c op with
      | .ok (k', _) => some k'
      | .error _ => none
    else none
  | .fork c =>
    if k.Active c then
      match k.fork cfg c with
      | .ok (k', some _) => some k'
      | _ => none
    else none

def SysStep (cfg : Config) (k : Kernel) (a : Action) (k' : Kernel) : Prop := k.act cfg a = some k'

/-- The two kinds of step. -/
inductive Acted (cfg : Config) (k : Kernel) : Action → Kernel → Prop
  | user {c : Slot} {op : Op} {k' : Kernel} {e : Event} (hc : k.Active c) (huser : op.User)
      (hfree : (k.fetches c op).isSome = true → k.freelist ≠ [])
      (h : k.perform cfg c op = .ok (k', e)) : Acted cfg k (.user c op) k'
  | fork {c np : Slot} {k' : Kernel} (hc : k.Active c) (h : k.fork cfg c = .ok (k', some np)) :
      Acted cfg k (.fork c) k'

theorem acted (h : SysStep cfg k a k') : Acted cfg k a k' := by
  cases a with
  | user c op =>
    simp only [SysStep, act] at h
    split at h
    · next hcond =>
      obtain ⟨hc, huser, hfree⟩ := hcond
      split at h
      · next k₁ e hok =>
        obtain rfl : k₁ = k' := by simpa using h
        exact .user hc huser hfree hok
      · simp at h
    · simp at h
  | fork c =>
    simp only [SysStep, act] at h
    split at h
    · next hc =>
      split at h
      · next k₁ np hok =>
        obtain rfl : k₁ = k' := by simpa using h
        exact .fork hc hok
      · simp at h
    · simp at h

private theorem Consistent.acted (h : Consistent cfg allCounted k) (ha : Acted cfg k a k') :
    Consistent cfg allCounted k' := by
  cases ha with
  | user hc huser hfree hstep => exact h.performed hc huser hfree hstep
  | fork hc hfork => exact h.fork hc hfork

private theorem Consistent.reached {k₀ : Kernel} {as : List Action} (h : Consistent cfg allCounted k₀)
    (hrun : Run (SysStep cfg) k₀ as k) : Consistent cfg allCounted k :=
  hrun.keeps (fun _ _ _ h hstep => h.acted (Kernel.acted hstep)) h

/-- Every state the system reaches is consistent. -/
theorem Started.reached {k₀ : Kernel} {as : List Action} (h : Started cfg k₀)
    (hrun : Run (SysStep cfg) k₀ as k) : Consistent cfg allCounted k :=
  h.consistent.reached hrun

/-- The RAM table of process `c` against its page tables. -/
structure RamSound (k : Kernel) (c : Slot) : Prop where
  present : ∀ i, let e := (k.proc c).pagesInPhysicalMemory i; e.isUsed = true →
    k.hasTable e.pageDirectory (vpn e.virtualAddress) = true ∧
    hasFlag (k.pte e.pageDirectory (vpn e.virtualAddress)) .P = true ∧
    hasFlag (k.pte e.pageDirectory (vpn e.virtualAddress)) .PG = false
  distinct : ∀ i i', let e := (k.proc c).pagesInPhysicalMemory i
    let e' := (k.proc c).pagesInPhysicalMemory i'
    e.isUsed = true → e'.isUsed = true → e.pageDirectory = e'.pageDirectory →
    e.virtualAddress = e'.virtualAddress → i = i'
  paged : ∀ n < userPages, hasFlag (k.pte (k.proc c).pgdir n) .PG = true →
    hasFlag (k.pte (k.proc c).pgdir n) .P = false ∧ pteAddr (k.pte (k.proc c).pgdir n) = 0

/-- No frame is mapped by two present user entries, and none is on the free list while mapped. -/
structure FramesOwned (k : Kernel) : Prop where
  unshared : ∀ c c' n n', k.InUse c → k.InUse c' → n < userPages → n' < userPages →
    hasFlag (k.pte (k.proc c).pgdir n) .P = true → hasFlag (k.pte (k.proc c').pgdir n') .P = true →
    pteAddr (k.pte (k.proc c).pgdir n) = pteAddr (k.pte (k.proc c').pgdir n') → c = c' ∧ n = n'
  notFree : ∀ c n, k.InUse c → n < userPages → hasFlag (k.pte (k.proc c).pgdir n) .P = true →
    pteAddr (k.pte (k.proc c).pgdir n) ∉ k.freelist

/-- What the pager may rely on while it works on process `c`. -/
structure PagerSafe (cfg : Config) (k : Kernel) (c : Slot) : Prop where
  frees_victim : ∀ note k' i, k.evictPage cfg note c = .ok (k', some i) →
    let e := (k.proc c).pagesInPhysicalMemory i
    e.isUsed = true ∧ hasFlag (k.pte e.pageDirectory (vpn e.virtualAddress)) .P = true ∧
      k'.freelist = pteAddr (k.pte e.pageDirectory (vpn e.virtualAddress)) :: k.freelist
  installs_frame : ∀ n fr, n < userPages → fr ∈ k.freelist →
    hasFlag (k.pte (k.proc c).pgdir n) .PG = true →
    pteAddr (pageInPte (k.pte (k.proc c).pgdir n) (some fr)) = fr
  ages : Returns (k.updateAgeForSingleProcess c)
  performs : ∀ op : Op, op.User → ((k.fetches c op).isSome = true → k.freelist ≠ []) →
    Returns (k.perform cfg c op)

private theorem Consistent.ramSound
    (h : Consistent cfg allCounted k) (hc : k.InUse c) (hpid : 2 < (k.proc c).pid) :
    RamSound k c where
  present i hi := by
    have hs := h.sound c hc hpid
    obtain ⟨n, hn, haddr, hdir, hvpn, hP⟩ := hs.pageAt (i := i) hi
    simp only [space] at hdir hvpn hP
    rw [hvpn]
    exact ⟨hasTable_of_hasFlag hP, hP, hs.not_paged hdir hn hP⟩
  distinct i i' hi hi' hdir haddr := by
    obtain ⟨d, n, -, -, hnames, -⟩ := (h.sound c hc hpid).ram i hi
    exact (h.sound c hc hpid).inj i i' d n hi hi' hnames
      ⟨hdir.symm.trans hnames.dir, haddr.symm.trans hnames.addr⟩
  paged n hn hPG := (h.sound c hc hpid).paged _ n rfl hn hPG

private theorem Consistent.framesOwned (h : Consistent cfg allCounted k) : FramesOwned k where
  unshared c c' n n' hc hc' hn hn' hP hP' heq := by
    have hheld := held_page (X := allCounted) (L := k.Live) ⟨c, hc, rfl⟩ hn hP id
    have hheld' := held_page (X := allCounted) (L := k.Live) ⟨c', hc', rfl⟩ hn' hP' id
    rw [← heq] at hheld'
    have howner := h.frames.ledger.inj (.page (k.proc c).pgdir n) (.page (k.proc c').pgdir n') _
      hheld hheld'
    simp only [Owner.page.injEq] at howner
    exact ⟨h.pgdir_inj c c' hc hc' howner.1, howner.2⟩
  notFree c n hc hn hP :=
    h.frames.ledger.not_free (.page (k.proc c).pgdir n) _ (held_page (X := allCounted) (L := k.Live) ⟨c, hc, rfl⟩ hn hP id)

private theorem Consistent.pagerSafe (h : Consistent cfg allCounted k) (hc : k.Active c) :
    PagerSafe cfg k c where
  frees_victim note k' i hevict := by
    rcases evictPage_ok hevict with ⟨hnone, -⟩ | ⟨i', j, f, page, hi, hev⟩
    · simp at hnone
    · obtain rfl : i = i' := by simpa using hi
      have hused := (k.proc c).getReplacementPageIndexPhyMem_used cfg hev.victim
      refine ⟨hused, ((h.ramSound hc.inUse hc.pid).present i hused).2.1, ?_⟩
      rw [hev.result]
      simp
  installs_frame n fr hn hmem hPG := by
    have halign := h.frames.aligned_free hmem
    exact pteAddr_pageInPte _ (by simpa using halign)
      ((h.sound c hc.inUse hc.pid).paged _ n rfl hn hPG).2
  ages := h.age_returns hc
  performs op huser hfree := h.perform_returns hc huser hfree

/-- In every state the system reaches the RAM tables are sound, every mapped frame has one owner,
and so evictions, page-ins and the timer work on what they mean to, without a panic. -/
theorem ram_sound_of_run {k₀ : Kernel} {as : List Action} (hstart : Started cfg k₀)
    (hrun : Run (SysStep cfg) k₀ as k) :
    (∀ c, k.InUse c → 2 < (k.proc c).pid → RamSound k c) ∧ FramesOwned k ∧
      ∀ c, k.Active c → PagerSafe cfg k c := by
  have h := hstart.reached hrun
  exact ⟨fun c hc hpid => h.ramSound hc hpid, h.framesOwned, fun c hc => h.pagerSafe hc⟩

/-- A process grows until pages go out to disc, faults one of them in and forks. -/
theorem ram_sound_of_run_grow_load_fork :
    ∃ k, [Action.user Solo.main (.growproc 57344), .user Solo.main (.load 0 true),
        .fork Solo.main].foldlM (act (Solo.config .AGING))
          Solo.guarded.kernel = some k ∧
      (∀ c, k.InUse c → 2 < (k.proc c).pid → RamSound k c) ∧ FramesOwned k ∧
      ∀ c, k.Active c → PagerSafe (Solo.config .AGING) k c := by
  obtain ⟨k, hk⟩ := Option.isSome_iff_exists.mp
    (by decide +kernel : ([Action.user Solo.main (.growproc 57344), .user Solo.main (.load 0 true),
      .fork Solo.main].foldlM (act (Solo.config .AGING))
        Solo.guarded.kernel).isSome = true)
  exact ⟨k, hk, ram_sound_of_run (Solo.started _ (le_refl _)) (.of_foldlM hk)⟩

end Kernel

end OsSessional.Paging
