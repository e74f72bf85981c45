import OsSessional.Paging.Machine

/-!
# All processes together

The state of the whole kernel is consistent when the ledger of all live directories is sound,
directories are not shared, and every paging process runs a sound image. Each operation of one
process keeps this for all of them.
-/

namespace OsSessional.Paging

open Function (update update_self update_of_ne)

namespace Space

theorem Sound.congr {s s' : Space} {d : Frame} (h : Sound (· = d) s)
    (hpte : ∀ n, s'.pte d n = s.pte d n) (hram : s'.ram = s.ram) : Sound (· = d) s' where
  ram i hi := by
    rw [hram] at hi ⊢
    obtain ⟨d', n, rfl, hn, hnames, hP⟩ := h.ram i hi
    exact ⟨d', n, rfl, hn, hnames, by rwa [hpte]⟩
  inj := by rw [hram]; exact h.inj
  paged d' n hd hn hPG := by
    obtain rfl : d' = d := hd
    rw [hpte] at hPG ⊢
    exact h.paged d' n rfl hn hPG

theorem Image.congr {s s' : Space} {d : Frame} {m hi : Nat} (h : Image d m hi s)
    (hpte : ∀ n, s'.pte d n = s.pte d n) (hram : s'.ram = s.ram) (hdisc : s'.disc = s.disc)
    (hswap : s'.swap = s.swap) : Image d m hi s' where
  sound := h.sound.congr hpte hram
  fence :=
    { le := h.fence.le
      blocked := by rw [hdisc]; exact h.fence.blocked
      file := by rw [hswap]; exact h.fence.file
      own := by rw [hdisc]; exact h.fence.own
      paged := fun n hn hPG => by
        rw [hpte] at hPG
        rw [hdisc]
        exact h.fence.paged n hn hPG }
  beyond n hn hlt := by
    simp only [Unmapped, hpte]
    exact h.beyond n hn hlt

private theorem Sound.of_unused {s s' : Space} {d : Frame} (h : Sound (· = d) s) (hpte : s'.pte = s.pte)
    (hram : ∀ i, (s'.ram i).isUsed = false) : Sound (· = d) s' where
  ram i hi := by simp [hram i] at hi
  inj i _ _ _ hi := by simp [hram i] at hi
  paged := by rw [hpte]; exact h.paged

end Space

namespace Kernel

variable {cfg : Config} {X : Frame → Prop} {k k' k₁ : Kernel} {c c' : Slot}

/-- Slot `c` holds a process with an address space. -/
def InUse (k : Kernel) (c : Slot) : Prop :=
  (k.proc c).state ≠ .UNUSED ∧ (k.proc c).state ≠ .EMBRYO

/-- The directories of all processes. -/
def Live (k : Kernel) (d : Frame) : Prop := ∃ c, k.InUse c ∧ (k.proc c).pgdir = d

structure Consistent (cfg : Config) (X : Frame → Prop) (k : Kernel) : Prop where
  frames : FramesSound cfg X k.Live k
  pgdir_inj : ∀ c c', k.InUse c → k.InUse c' → (k.proc c).pgdir = (k.proc c').pgdir → c = c'
  image : ∀ c, k.Active c → (k.proc c).sz < kernBase ∧
    ∃ m, (k.space c).Image (k.proc c).pgdir m (pages (k.proc c).sz)
  sound : ∀ c, k.InUse c → 2 < (k.proc c).pid → (k.space c).Sound (· = (k.proc c).pgdir)
  nextpid : 2 < k.nextpid

theorem Active.inUse (h : k.Active c) : k.InUse c := ⟨h.unused, h.embryo⟩

theorem Active.live (h : k.Active c) : k.Live (k.proc c).pgdir := ⟨c, h.inUse, rfl⟩

/-- The image of an active process, together with the ledger. -/
theorem Consistent.healthy (h : Consistent cfg X k) (hc : k.Active c) :
    ∃ m, Healthy cfg X k.Live c (k.proc c).pgdir m (pages (k.proc c).sz) k := by
  obtain ⟨-, m, himage⟩ := h.image c hc
  exact ⟨m, himage, h.frames⟩

theorem Consistent.uncount (h : Consistent cfg allCounted k)
    (hX : ∀ fr, ValidFrame cfg fr → ¬ X fr) : Consistent cfg X k :=
  ⟨h.frames.uncount hX, h.pgdir_inj, h.image, h.sound, h.nextpid⟩

/-- One process moved on, everything outside its directory is as it was. -/
private theorem Consistent.step (h : Consistent cfg X k) (hc : k.Active c) {p : Proc}
    (hl : Local c (k.proc c).pgdir k k₁) (hframes : FramesSound cfg X k.Live k₁)
    (hpgdir : p.pgdir = (k.proc c).pgdir) (hpid : p.pid = (k.proc c).pid)
    (hunused : p.state ≠ .UNUSED) (hembryo : p.state ≠ .EMBRYO)
    (hsound : ((k₁.setProc c p).space c).Sound (· = (k.proc c).pgdir))
    (himage : p.state ≠ .ZOMBIE → p.sz < kernBase ∧
      ∃ m, ((k₁.setProc c p).space c).Image (k.proc c).pgdir m (pages p.sz)) :
    Consistent cfg X (k₁.setProc c p) ∧ (k₁.setProc c p).Live = k.Live := by
  have hother : ∀ c', c' ≠ c → (k₁.setProc c p).proc c' = k.proc c' := by
    intro c' hne
    rw [setProc_proc_of_ne hne, hl.other c' hne]
  have hdir : ∀ c', ((k₁.setProc c p).proc c').pgdir = (k.proc c').pgdir := by
    intro c'
    by_cases hne : c' = c
    · subst hne
      simpa using hpgdir
    · rw [hother c' hne]
  have hinUse : ∀ c', (k₁.setProc c p).InUse c' ↔ k.InUse c' := by
    intro c'
    by_cases hne : c' = c
    · subst hne
      simp only [InUse, setProc_proc_self]
      exact ⟨fun _ => hc.inUse, fun _ => ⟨hunused, hembryo⟩⟩
    · simp only [InUse, hother c' hne]
  have hlive : (k₁.setProc c p).Live = k.Live := by
    funext d
    simp only [Live, hinUse, hdir]
  have hpte : ∀ c', c' ≠ c → k.InUse c' → ∀ n,
      ((k₁.setProc c p).space c').pte (k.proc c').pgdir n = (k.space c').pte (k.proc c').pgdir n := by
    intro c' hne hc' n
    refine hl.pte ?_ n
    exact fun hsame => hne (h.pgdir_inj c' c hc' hc.inUse hsame)
  have hspace : ∀ c', c' ≠ c →
      ((k₁.setProc c p).space c').ram = (k.space c').ram ∧
      ((k₁.setProc c p).space c').disc = (k.space c').disc ∧
      ((k₁.setProc c p).space c').swap = (k.space c').swap := by
    intro c' hne
    simp [space, hother c' hne]
  refine ⟨⟨?_, ?_, ?_, ?_, ?_⟩, hlive⟩
  · rw [hlive]
    exact hframes.of_eq rfl rfl
  · intro c₁ c₂ h₁ h₂ heq
    rw [hdir, hdir] at heq
    exact h.pgdir_inj c₁ c₂ ((hinUse c₁).mp h₁) ((hinUse c₂).mp h₂) heq
  · intro c' hc'
    rw [hdir]
    by_cases hne : c' = c
    · subst hne
      have hz := hc'.zombie
      simp only [setProc_proc_self] at hz ⊢
      exact himage hz
    · obtain ⟨hpid', hun', hem', hz'⟩ := hc'
      rw [hother c' hne] at hpid' hun' hem' hz' ⊢
      obtain ⟨hsz, m, hi⟩ := h.image c' ⟨hpid', hun', hem', hz'⟩
      obtain ⟨hram, hdisc, hswap⟩ := hspace c' hne
      exact ⟨hsz, m, hi.congr (hpte c' hne ⟨hun', hem'⟩) hram hdisc hswap⟩
  · intro c' hc' hpid'
    rw [hdir]
    by_cases hne : c' = c
    · subst hne
      exact hsound
    · rw [hother c' hne] at hpid'
      obtain ⟨hram, -, -⟩ := hspace c' hne
      have hc₀ := (hinUse c').mp hc'
      exact (h.sound c' hc₀ hpid').congr (hpte c' hne hc₀) hram
  · have := h.nextpid
    rw [← hl.nextpid] at this
    exact this

private theorem Consistent.local (h : Consistent cfg X k) (hc : k.Active c)
    (hl : Local c (k.proc c).pgdir k k') {m : Nat}
    (hk : Healthy cfg X k.Live c (k.proc c).pgdir m (pages (k.proc c).sz) k') :
    Consistent cfg X k' := by
  have hstep := h.step hc (p := k'.proc c) hl hk.frames hl.pgdir hl.pid
    (by rw [hl.state]; exact hc.unused) (by rw [hl.state]; exact hc.embryo)
    (by rw [setProc_self]; exact hk.image.sound)
    (by
      rw [setProc_self, hl.sz]
      exact fun _ => ⟨(h.image c hc).1, m, hk.image⟩)
  rw [setProc_self] at hstep
  exact hstep.1

theorem Consistent.growproc (h : Consistent cfg X k) (hc : k.Active c) {n : Int} {ok : Bool}
    (hg : k.growproc cfg c n = .ok (k', ok)) : Consistent cfg X k' := by
  obtain ⟨m, hh⟩ := h.healthy hc
  obtain ⟨hsz, -⟩ := h.image c hc
  obtain ⟨k₁, sz, hl, rfl, hsz', hh₁⟩ := hh.resized hc.live hsz (growproc_ok hsz hg)
  refine (h.step hc (p := { k₁.proc c with sz := sz }) hl hh₁.frames hl.pgdir hl.pid ?_ ?_ ?_ ?_).1
  · simpa [hl.state] using hc.unused
  · simpa [hl.state] using hc.embryo
  · exact hh₁.image.sound.congr (fun _ => rfl) (by simp [space])
  · exact fun _ => ⟨hsz', m, hh₁.image.congr (fun _ => rfl) (by simp [space]) (by simp [space])
      (by simp [space])⟩

private theorem Consistent.exited (h : Consistent cfg X k) (hc : k.Active c)
    (hl : Local c (k.proc c).pgdir k k₁) {m hi : Nat}
    (hk : Healthy cfg X k.Live c (k.proc c).pgdir m hi k₁) :
    Consistent cfg X (k₁.setProc c (exited { k₁.proc c with killed := true })) := by
  refine (h.step hc (p := Kernel.exited { k₁.proc c with killed := true }) hl hk.frames hl.pgdir
    hl.pid (by simp [Kernel.exited]) (by simp [Kernel.exited]) ?_ (by simp [Kernel.exited])).1
  refine hk.image.sound.of_unused rfl ?_
  simp [space, Kernel.exited, Proc.clearMetaData]

private theorem Consistent.faulted
    (h : Consistent cfg X k) (hc : k.Active c) {n : Nat} (hn : n < userPages)
    (hfree : hasFlag (k.pte (k.proc c).pgdir n) .PG = true → k.freelist = [] → X (v2p none))
    (hf : Faulted cfg c n k k') : Consistent cfg X k' := by
  obtain ⟨m, hh⟩ := h.healthy hc
  cases hf with
  | serviced hPG hready hfetch =>
    obtain ⟨hh', hl⟩ := hh.fetched rfl hc.live hn hPG hready (hfree hPG) hfetch
    exact h.local hc hl hh'
  | notPaged hPG => exact h.exited hc (.refl _ _ k) hh
  | refused hPG hready hfetch =>
    obtain ⟨hh', hl⟩ := hh.fetched rfl hc.live hn hPG hready (hfree hPG) hfetch
    exact h.exited hc hl hh'

/-- Accessed bits and ages may change anywhere. -/
theorem Consistent.quiet (h : Consistent cfg X k) (hq : Quiet k k') : Consistent cfg X k' := by
  have hinUse : ∀ c, k'.InUse c ↔ k.InUse c := by
    intro c
    simp only [InUse, (hq.proc c).2.2.2]
  have hlive : k'.Live = k.Live := by
    funext d
    simp only [Live, hinUse, (hq.proc _).1]
  have hactive : ∀ c, k'.Active c → k.Active c := by
    rintro c ⟨h1, h2, h3, h4⟩
    rw [(hq.proc c).2.2.2] at h2 h3 h4
    rw [(hq.proc c).2.1] at h1
    exact ⟨h1, h2, h3, h4⟩
  refine ⟨?_, ?_, ?_, ?_, by rw [hq.nextpid]; exact h.nextpid⟩
  · rw [hlive]
    exact h.frames.alike hq.freelist (hq.alike ⟨0, by decide⟩).pte hq.pde
  · intro c₁ c₂ h₁ h₂ heq
    rw [(hq.proc c₁).1, (hq.proc c₂).1] at heq
    exact h.pgdir_inj c₁ c₂ ((hinUse c₁).mp h₁) ((hinUse c₂).mp h₂) heq
  · intro c' hc'
    rw [(hq.proc c').1, (hq.proc c').2.2.1]
    obtain ⟨hsz, m, hi⟩ := h.image c' (hactive c' hc')
    exact ⟨hsz, m, hi.alike (hq.alike c')⟩
  · intro c' hc' hpid
    rw [(hq.proc c').1]
    rw [(hq.proc c').2.1] at hpid
    exact (h.sound c' ((hinUse c').mp hc') hpid).alike (hq.alike c')

private theorem Consistent.walked (h : Consistent cfg X k) {a : Nat} {walk : Bool}
    (hP : hasFlag (k.pte (k.proc c).pgdir (vpn a)) .P = true) : Consistent cfg X (k.walked c a walk) :=
  h.quiet (walked_quiet hP)

private theorem Consistent.setMem (h : Consistent cfg X k) {fr : Frame} {pg : Page} :
    Consistent cfg X (k.setMem fr pg) :=
  ⟨h.frames.of_eq rfl rfl, h.pgdir_inj, fun c hc => h.image c ⟨hc.1, hc.2, hc.3, hc.4⟩, h.sound,
    h.nextpid⟩

/-- Every operation of a paging process keeps the kernel consistent, as long as its page-ins map
frames that count. -/
theorem Consistent.performed (h : Consistent cfg X k) (hc : k.Active c) {op : Op} {e : Event}
    (huser : op.User) (hfree : (k.fetches c op).isSome = true → k.freelist = [] → X (v2p none))
    (hstep : k.perform cfg c op = .ok (k', e)) : Consistent cfg X k' := by
  cases perform_ok huser hstep with
  | loaded hop ha hacc => exact h.walked (access_some hacc).1
  | stored hop ha hacc => exact (h.walked (access_some hacc).1).setMem
  | @faulted a k' ha hfetch hf =>
    refine h.faulted hc (page_lt_userPages ha) ?_ hf
    intro hPG
    exact hfree (by simp [hfetch hPG])
  | resized hop hg => exact h.growproc hc hg
  | ticked hop ht => exact h.quiet (updateAgeForAllProcess_quiet ht)

end Kernel

end OsSessional.Paging
