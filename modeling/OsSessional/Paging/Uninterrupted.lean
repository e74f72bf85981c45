import OsSessional.Paging.Exec
import OsSessional.Paging.Fork
import OsSessional.Paging.LiveDump

/-!
# Calls that nobody interrupts

The calls of the kernel change the process table the way runs of the dump's table do in which one
process does all the steps.
-/

namespace OsSessional.Paging

open Function (update update_self update_of_ne)
open Outcome

namespace Kernel

variable {cfg : Config} {k k' : Kernel} {c : Slot} {d : Frame}

section Freevm

private theorem freeTables_local :
    ∀ (is : List Nat) (k : Kernel), freeTables cfg d is k = .ok k' → Local c d k k' := by
  intro is
  induction is with
  | nil =>
    intro k h
    obtain rfl : k = k' := by simpa [freeTables] using h
    exact .refl c d k
  | cons i is ih =>
    intro k h
    unfold freeTables at h
    split at h
    · exact ih k h
    · obtain ⟨k₁, hfree, h⟩ := bind_eq_ok.mp h
      obtain ⟨-, rfl⟩ := kfree_ok hfree
      exact Local.of_freed.trans (ih _ h)

private theorem freevm_local (h : k.freevm cfg c d = .ok k') : Local c d k k' := by
  unfold freevm at h
  split at h
  · simp at h
  · simp only [bind_eq_ok] at h
    obtain ⟨⟨k₁, r⟩, hdealloc, k₂, htables, hfree⟩ := h
    obtain ⟨-, rfl⟩ := kfree_ok hfree
    have hdropped : Local c d k k₁ := by
      rcases deallocuvm_ok (le_refl _) hdealloc with ⟨-, rfl, -⟩ | ⟨-, hrun, -⟩
      · exact .refl c d _
      · exact hrun.keeps_const (I := Local c d k) (fun _ _ _ _ _ hI hdrop => hI.trans (.of_dropped hdrop))
          (.refl c d k)
    exact (hdropped.trans (freeTables_local _ _ htables)).trans .of_freed

end Freevm

end Kernel

namespace Dump

variable {cfg : Config} {k k' : Kernel} {s s₁ s' : State} {c np p : Slot} {d : Frame} {v : Paging.Proc} {w : Proc}

/-- What the dump sees of a slot. -/
structure SameRow (v : Paging.Proc) (w : Proc) : Prop where
  state : w.state = v.state
  pid : w.pid = v.pid
  pgdir : (w.pgdir.map Dir.addr).getD 0 = v.pgdir

structure Agrees (k : Kernel) (s : State) : Prop where
  nextpid : s.nextpid = k.nextpid
  row : ∀ p, SameRow (k.proc p) (s.proc p)

private theorem Agrees.row_change
    (h : Agrees k s) (hproc : s'.proc = update s.proc p w) (hrow : SameRow (k'.proc p) w)
    (hk : ∀ p', p' ≠ p → SameRow (k.proc p') (s.proc p') → SameRow (k'.proc p') (s.proc p'))
    (hnext : s'.nextpid = k'.nextpid) : Agrees k' s' where
  nextpid := hnext
  row p' := by
    by_cases he : p' = p
    · rw [he, hproc, update_self]
      exact hrow
    · rw [hproc, update_of_ne he]
      exact hk p' he (h.row p')

private theorem Agrees.unusedSlot (h : Agrees k s) : s.unusedSlot = k.unusedSlot := by
  unfold State.unusedSlot Kernel.unusedSlot
  congr 1
  funext p
  rw [(h.row p).state]

private theorem allocproc_slot (h : k.allocproc = (some np, k')) : k.unusedSlot = some np := by
  unfold Kernel.allocproc at h
  cases hslot : k.unusedSlot with
  | none => simp [hslot] at h
  | some np' =>
    cases hfree : k.freelist with
    | nil => simp [hslot, Kernel.kalloc, hfree] at h
    | cons stack rest =>
      simp only [hslot, Kernel.kalloc, Kernel.setProc_freelist, hfree, Prod.mk.injEq, Option.some.injEq] at h
      rw [h.1]

private theorem Agrees.allocproc (h : Agrees k s) (halloc : k.allocproc = (some np, k')) : ∃ s',
    s.allocproc true = (some np, s') ∧ Agrees k' s' ∧ s'.place = s.place ∧
      (∀ p, p ≠ np → s'.proc p = s.proc p) ∧ (s.proc np).state = .UNUSED := by
  obtain ⟨hunused, stack, rest, -, rfl⟩ := Kernel.allocproc_some halloc
  have hslot : s.unusedSlot = some np := by rw [h.unusedSlot, allocproc_slot halloc]
  refine ⟨{ s.setProc np { s.proc np with state := .EMBRYO, pid := s.nextpid } with nextpid := s.nextpid + 1 },
    by simp only [State.allocproc, hslot, if_true], ?_, rfl, fun p hp => ?_, ?_⟩
  · refine h.row_change rfl ?_ ?_ (congrArg (· + 1) h.nextpid)
    · rw [Kernel.setProc_proc_self]
      exact ⟨rfl, h.nextpid, (h.row np).pgdir⟩
    · intro p hp hrow
      rwa [Kernel.setProc_proc_of_ne hp]
  · exact update_of_ne hp ..
  · rw [(h.row np).state, hunused]

private theorem fork_rows (hc : (k.proc c).state ≠ .UNUSED) (hsz : (k.proc c).sz ≤ kernBase)
    (h : k.fork cfg c = .ok (k', some np)) : ∃ k₁ d, k.allocproc = (some np, k₁) ∧
      (k'.proc np).state = .RUNNABLE ∧ (k'.proc np).pid = (k₁.proc np).pid ∧ (k'.proc np).pgdir = d ∧
      (∀ p, p ≠ np → k'.proc p = k₁.proc p) ∧ k'.nextpid = k₁.nextpid := by
  obtain ⟨hne, k₁, k₂, k₃, d, halloc, -, hcopy, hswap, rfl⟩ := Kernel.fork_parts hc h
  obtain ⟨hproc, hnext⟩ := Kernel.copyuvm_proc hsz hcopy
  obtain ⟨f, rfl⟩ : ∃ f, k₃ = (k₂.setProc np { k₂.proc np with
      pgdir := d, sz := (k₂.proc c).sz, timer := (k₂.proc c).timer, pageFault := 0 }).setSwapFile np f := by
    unfold Kernel.copySwapFile at hswap
    split at hswap
    · split at hswap
      · exact ⟨_, (Except.ok.inj hswap).symm⟩
      · simp at hswap
    · exact ⟨_, (Except.ok.inj hswap).symm.trans (Kernel.setSwapFile_self rfl).symm⟩
  refine ⟨k₁, d, halloc, ?_, ?_, ?_, ?_, hnext⟩
  · simp
  · simp [Kernel.setSwapFile, hproc]
  · simp [Kernel.setSwapFile]
  · intro p hp
    simp [Kernel.setSwapFile, Kernel.setProc_proc_of_ne hp, hproc]

private theorem fork_run (hc : s.Runs c .user) (hs₁ : s.allocproc true = (some np, s₁)) (hne : c ≠ np)
    (hsame : s₁.proc c = s.proc c) (hplace : s₁.place = s.place) (d : Frame) : ∃ as s', Run Step s as s' ∧
      s'.proc = update s₁.proc np ⟨.RUNNABLE, (s₁.proc np).pid, some ⟨d, s₁.calls⟩, some c⟩ ∧
      s'.place = s.place ∧ s'.nextpid = s₁.nextpid := by
  -- up to the directory of the child, with or without a sleep in `createSwapFile`
  let s₂ := s₁.moveTo c (.creating np)
  have hruns : s₂.Runs c (.creating np) := by
    refine ⟨?_, update_self ..⟩
    rw [← hc.1, ← hsame]
    rfl
  have hcopied : ∃ as, Run Step s as (s₂.copyChild c np (.copied d)) := by
    by_cases hbig : (s₂.proc np).pid > 2
    · have hfork : Step s (.fork c true (.copied d)) s₂ := by
        simp only [Step, State.act, if_pos hc, State.fork, hs₁]
        exact congrArg some (if_pos hbig)
      have hcopy : Step s₂ (.copy c np (.copied d)) (s₂.copyChild c np (.copied d)) := by
        simp only [Step, State.act, if_pos hruns]
      exact ⟨_, .cons hfork (.cons hcopy (.nil _))⟩
    · have hfork : Step s (.fork c true (.copied d)) (s₂.copyChild c np (.copied d)) := by
        simp only [Step, State.act, if_pos hc, State.fork, hs₁]
        exact congrArg some (if_neg hbig)
      exact ⟨_, .cons hfork (.nil _)⟩
  obtain ⟨as, hrun⟩ := hcopied
  -- and on to the end, with or without a sleep in the copy of the swap file
  let s₃ := (((s₂.setupkvm np d).2.setProc np { s₂.proc np with
    pgdir := some (s₂.setupkvm np d).1, parent := some c }).moveTo c (.copying np))
  have hruns₃ : s₃.Runs c (.copying np) := by
    refine ⟨?_, update_self ..⟩
    rw [← hruns.1]
    exact congrArg Proc.state (update_of_ne hne ..)
  have hended : ∃ as, Run Step (s₂.copyChild c np (.copied d)) as (s₃.runnable c np) := by
    by_cases hbig : (s₃.proc c).pid > 2
    · have hhere : s₂.copyChild c np (.copied d) = s₃ := if_pos hbig
      have hlast : Step s₃ (.runnable c np) (s₃.runnable c np) := by
        simp only [Step, State.act, if_pos hruns₃]
      rw [hhere]
      exact ⟨_, .cons hlast (.nil _)⟩
    · have hhere : s₂.copyChild c np (.copied d) = s₃.runnable c np := if_neg hbig
      rw [hhere]
      exact ⟨[], .nil _⟩
  obtain ⟨as', hrun'⟩ := hended
  refine ⟨as ++ as', s₃.runnable c np, hrun.append hrun', ?_, ?_, rfl⟩
  · simp [s₃, s₂, State.runnable, State.setProc, State.moveTo, State.setupkvm]
  · have hback : update s.place c .user = s.place := by rw [← hc.2, Function.update_eq_self]
    simp [s₃, s₂, State.runnable, State.setProc, State.moveTo, State.setupkvm, hplace, hback]

/-- A `fork` that succeeds. -/
theorem Agrees.fork (h : Agrees k s) (hc : s.Runs c .user) (hsz : (k.proc c).sz ≤ kernBase)
    (hf : k.fork cfg c = .ok (k', some np)) : ∃ as s', Run Step s as s' ∧ Agrees k' s' ∧ s'.place = s.place := by
  have hused : (k.proc c).state ≠ .UNUSED := by simp [← (h.row c).state, hc.1]
  obtain ⟨k₁, d, halloc, hstate, hpid, hpgdir, hother, hnext⟩ := fork_rows hused hsz hf
  obtain ⟨s₁, hs₁, h₁, hplace₁, hrest, hunused⟩ := h.allocproc halloc
  have hne : c ≠ np := hc.ne_unused (.inl hunused)
  obtain ⟨as, s', hrun, hproc, hplace, hnextpid⟩ := fork_run hc hs₁ hne (hrest c hne) hplace₁ d
  refine ⟨as, s', hrun, h₁.row_change hproc ?_ ?_ ?_, hplace⟩
  · exact ⟨hstate.symm, (h₁.row np).pid.trans hpid.symm, hpgdir.symm⟩
  · intro p hp hrow
    rwa [hother p hp]
  · rw [hnextpid, hnext]
    exact h₁.nextpid

private theorem SameRow.freevm (hf : k.freevm cfg c d = .ok k') (hrow : SameRow (k.proc p) w) :
    SameRow (k'.proc p) w := by
  have hl := Kernel.freevm_local hf
  by_cases he : p = c
  · subst he
    exact ⟨hrow.state.trans hl.state.symm, hrow.pid.trans hl.pid.symm, hrow.pgdir.trans hl.pgdir.symm⟩
  · rwa [hl.other p he]

private theorem pgdir_of_freevm (hrow : SameRow v w) (hf : k.freevm cfg c v.pgdir = .ok k') :
    ∃ dir, w.pgdir = some dir := by
  apply Option.ne_none_iff_exists'.mp
  intro hnone
  have hzero : v.pgdir = 0 := by simp [← hrow.pgdir, hnone]
  rw [hzero] at hf
  simp [Kernel.freevm] at hf

theorem Agrees.exit (h : Agrees k s) (hc : s.Runs c .user) (hinit : c ≠ initproc) (he : k.exit c = .ok k') :
    ∃ as s', Run Step s as s' ∧ Agrees k' s' ∧ s'.place = s.place := by
  have hruns : ∀ dest, (s.moveTo c dest).Runs c dest := fun dest => ⟨hc.1, update_self ..⟩
  have hexit : Step s (.exit c) (s.moveTo c .closing) := by
    simp only [Step, State.act, if_pos (show s.Runs c .user ∧ c ≠ initproc from ⟨hc, hinit⟩)]
  have hmoved : (s.moveTo c .closing).moveTo c .leaving = s.moveTo c .leaving := by
    simp [State.moveTo]
  have hdump : Step (s.moveTo c .closing) (.dump c) (s.moveTo c .leaving) := by
    simp only [Step, State.act, State.exitDump, if_pos (hruns .closing), Option.map_some, hmoved]
  have hleave : Step (s.moveTo c .leaving) (.leave c) ((s.moveTo c .leaving).leave c) := by
    simp only [Step, State.act, if_pos (hruns .leaving)]
  refine ⟨_, _, .cons hexit (.cons hdump (.cons hleave (.nil _))), ⟨?_, ?_⟩, ?_⟩
  · rw [Kernel.exit_ok he]
    exact h.nextpid
  · intro p
    have hrow := h.row p
    rw [Kernel.exit_ok he]
    have hadopted : SameRow (k.proc p)
        (if (s.proc p).parent = some c then { s.proc p with parent := some initproc } else s.proc p) := by
      by_cases hparent : (s.proc p).parent = some c
      · rw [if_pos hparent]
        exact ⟨hrow.state, hrow.pid, hrow.pgdir⟩
      · rwa [if_neg hparent]
    by_cases hp : p = c
    · subst hp
      rw [Kernel.setProc_proc_self]
      simp only [State.leave, State.moveTo, State.setProc, update_self]
      exact ⟨rfl, hadopted.pid, hadopted.pgdir⟩
    · rw [Kernel.setProc_proc_of_ne hp]
      simp only [State.leave, State.moveTo, State.setProc, update_of_ne hp]
      exact hadopted
  · have hback : update s.place c .user = s.place := by rw [← hc.2, Function.update_eq_self]
    simp [State.leave, State.moveTo, State.setProc, hback]

theorem Agrees.wait (h : Agrees k s) (hc : s.Runs c .user) (hparent : (s.proc p).parent = some c)
    (hzombie : (k.proc p).state = .ZOMBIE) (hw : k.wait cfg c p = .ok k') :
    ∃ s', Step s (.wait c p) s' ∧ Agrees k' s' := by
  simp only [Kernel.wait, bind_eq_ok] at hw
  obtain ⟨k₁, hstack, k₂, hf, hw⟩ := hw
  obtain rfl := Except.ok.inj hw
  have hkfree : ∃ fr, k₁ = k.freed fr := by
    unfold Kernel.kfreeStack at hstack
    split at hstack
    · simp at hstack
    · exact ⟨_, (Kernel.kfree_ok hstack).2⟩
  obtain ⟨fr, rfl⟩ := hkfree
  have hrows : ∀ p', SameRow (((k.freed fr).setProc p { (k.freed fr).proc p with kstack := none }).proc p')
      (s.proc p') := by
    intro p'
    have hrow := h.row p'
    by_cases he : p' = p
    · subst he
      rw [Kernel.setProc_proc_self]
      exact ⟨hrow.state, hrow.pid, hrow.pgdir⟩
    · rwa [Kernel.setProc_proc_of_ne he]
  obtain ⟨dir, hdir⟩ := pgdir_of_freevm (hrows p) hf
  have hstate : (s.proc p).state = .ZOMBIE := by rw [(h.row p).state, hzombie]
  refine ⟨({ s with live := update s.live dir none } : State).setProc p
    { s.proc p with pid := 0, parent := none, state := .UNUSED }, ?_, ?_⟩
  · simp only [Step, State.act, if_pos (show s.Runs c .user ∧ (s.proc p).parent = some c ∧
      (s.proc p).state = .ZOMBIE from ⟨hc, hparent, hstate⟩), State.wait, hdir, State.freevm, Option.map_some]
  · constructor
    · exact h.nextpid.trans (Kernel.freevm_local hf).nextpid.symm
    · intro p'
      have hrow := (hrows p').freevm hf
      by_cases he : p' = p
      · subst he
        simp only [Kernel.setProc_proc_self, State.setProc, update_self]
        exact ⟨rfl, rfl, hrow.pgdir⟩
      · simp only [Kernel.setProc_proc_of_ne he, State.setProc, update_of_ne he]
        exact hrow

private theorem commit_run {dir old : Dir} (hc : s.Runs c (.loading dir)) (hold : (s.proc c).pgdir = some old) :
    ∃ as s', Run Step s as s' ∧ s'.proc = update s.proc c { s.proc c with pgdir := some dir } ∧
      s'.place = update s.place c .user ∧ s'.nextpid = s.nextpid := by
  let s₁ := (s.setProc c { s.proc c with pgdir := some dir }).moveTo c (.replacing (some old))
  let s₂ := ({ s₁ with live := update s₁.live old none } : State).moveTo c .user
  have hruns : s₁.Runs c (.replacing (some old)) := by
    refine ⟨?_, update_self ..⟩
    simpa [s₁, State.moveTo, State.setProc] using hc.1
  have hplace : s₂.place = update s.place c .user := by simp [s₂, s₁, State.moveTo, State.setProc]
  by_cases hbig : (s₁.proc c).pid > 2
  · have hcommit : Step s (.commit c dir) s₁ := by
      simp only [Step, State.act, if_pos hc, State.commit, hold]
      exact if_pos hbig
    have hreplaced : Step s₁ (.replaced c (some old)) s₂ := by
      simp only [Step, State.act, if_pos hruns]
      rfl
    exact ⟨_, s₂, .cons hcommit (.cons hreplaced (.nil _)), rfl, hplace, rfl⟩
  · have hcommit : Step s (.commit c dir) s₂ := by
      simp only [Step, State.act, if_pos hc, State.commit, hold]
      exact if_neg hbig
    exact ⟨_, s₂, .cons hcommit (.nil _), rfl, hplace, rfl⟩

/-- `exec` from where it commits to the new image. -/
theorem Agrees.commit (h : Agrees k s) {dir : Dir} (hc : s.Runs c (.loading dir)) {sz path : Nat}
    (hk : k.commit cfg c dir.addr sz path = .ok k') :
    ∃ as s', Run Step s as s' ∧ Agrees k' s' ∧ s'.place = update s.place c .user := by
  simp only [Kernel.commit, bind_eq_ok] at hk
  obtain ⟨_, -, hf⟩ := hk
  obtain ⟨old, hold⟩ := pgdir_of_freevm (h.row c) hf
  obtain ⟨as, s₂, hrun, hproc, hplace, hnextpid⟩ := commit_run hc hold
  have hagrees : ∀ k₂ : Kernel, k₂.nextpid = k.nextpid → (∀ p, SameRow (k₂.proc p) (s₂.proc p)) →
      k₂.freevm cfg c (k.proc c).pgdir = .ok k' → Agrees k' s₂ := by
    intro k₂ hnext hrows hf
    constructor
    · rw [hnextpid, h.nextpid, ← hnext, (Kernel.freevm_local hf).nextpid]
    · exact fun p => (hrows p).freevm hf
  refine ⟨as, s₂, hrun, ?_, hplace⟩
  have hrow : ∀ v : Paging.Proc, v.state = (k.proc c).state → v.pid = (k.proc c).pid → v.pgdir = dir.addr →
      SameRow v (s₂.proc c) := by
    intro v hstate hpid hpgdir
    rw [hproc, update_self]
    exact ⟨(h.row c).state.trans hstate.symm, (h.row c).pid.trans hpid.symm, hpgdir.symm⟩
  have hrest : ∀ p, p ≠ c → SameRow (k.proc p) (s₂.proc p) := by
    intro p he
    rw [hproc, update_of_ne he]
    exact h.row p
  split at hf
  all_goals
    refine hagrees _ ?_ ?_ hf
    · rfl
    intro p
    by_cases he : p = c
    · subst he
      apply hrow <;> simp [Kernel.createSwapFile, Kernel.removeSwapFile, Kernel.setSwapFile]
    · have hother := hrest p he
      simpa [Kernel.createSwapFile, Kernel.removeSwapFile, Kernel.setSwapFile, Kernel.setProc_proc_of_ne he]
        using hother

end Dump

end OsSessional.Paging
