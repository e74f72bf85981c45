import OsSessional.Paging.Moves
import OsSessional.Paging.Ownership

/-!
# Permissions

`mappages` and `clearpteu` decide which pages a process may write and which are its own to use. A
record of these decisions is kept next to the kernel, a child inherits the record of its parent.
Every present page is as the record says, so long as no page is faulted in that the record does not
give to the user: `retrievePage` forces `PTE_W` and `PTE_U`.
-/

namespace OsSessional.Paging

open Function (update update_self update_of_ne)
open Outcome

/-- `PTE_W` and `PTE_U` of an entry. -/
def permission (p : PTE) : Bool × Bool := (hasFlag p .W, hasFlag p .U)

/-- The permissions of a page `allocuvm` maps. -/
def userPerm : Bool × Bool := (true, true)

namespace Space

variable {perm : Nat → Bool × Bool} {s s' : Space} {d : Frame} {m n lo hi hi' : Nat}

/-- The present pages of `d` have the permissions on record. -/
def Protects (perm : Nat → Bool × Bool) (d : Frame) (s : Space) : Prop :=
  ∀ n < userPages, hasFlag (s.pte d n) .P = true → permission (s.pte d n) = perm n

private theorem SameEntry.permission {p q : PTE} (h : SameEntry p q) :
    Paging.permission p = Paging.permission q := by
  simp only [Paging.permission, h.flag .W (by decide), h.flag .U (by decide)]

private theorem UserPte.permission {v : PTE} (h : UserPte v) : Paging.permission v = userPerm := by
  simp only [Paging.permission, h.writable, h.user, userPerm]

private theorem Protects.same (h : Protects perm d s)
    (hpte : ∀ n, SameEntry (s'.pte d n) (s.pte d n)) : Protects perm d s' := by
  intro n hn hP
  rw [(hpte n).flag .P (by decide)] at hP
  rw [(hpte n).permission]
  exact h n hn hP

private theorem Protects.set (h : Protects perm d s) {v : PTE}
    (hv : hasFlag v .P = true → permission v = perm n) (hpte : s'.pte = setEntry s.pte d n v) :
    Protects perm d s' := by
  intro n' hn' hP
  by_cases hne : n' = n
  · subst hne
    rw [hpte, setEntry_self] at hP ⊢
    exact hv hP
  · rw [hpte, setEntry_of_ne fun _ => hne] at hP ⊢
    exact h n' hn' hP

theorem Protects.map (h : Protects perm d s) {v : PTE} (hv : UserPte v) (hn : perm n = userPerm) :
    Protects perm d (s.map d n v) :=
  h.set (fun _ => hv.permission.trans hn.symm) rfl

private theorem Protects.evict (h : Protects perm d s) (hs : Sound (· = d) s) {i : Fin maxPyscPages}
    (he : Evict s i s') : Protects perm d s' := by
  obtain ⟨v, -, -, -, hpte⟩ := he.pte hs
  apply h.set _ hpte
  intro hP
  simp [hasFlag_pageOutPte] at hP

private theorem Protects.room (h : Protects perm d s) (hs : Sound (· = d) s) {i : Fin maxPyscPages}
    (hroom : Room i s s') : Protects perm d s' := by
  cases hroom with
  | free _ => exact h
  | evicted he => exact h.evict hs he

private theorem Protects.place (h : Protects perm d s) (hs : Sound (· = d) s) (hn : perm n = userPerm)
    (hplace : Place d n s s') : Protects perm d s' := by
  cases hplace with
  | untracked habsent hv => exact h.map hv hn
  | tracked habsent hv hfree hnames hused => exact h.map hv hn
  | @evicting v i e s₁ habsent hv hevict hnames hused =>
    have hout : Protects perm d s₁ := (h.map hv hn).evict (hs.map hv.present hv.inMemory) hevict
    exact hout

private theorem Protects.drop (h : Protects perm d s) (hdrop : Drop d n s s') : Protects perm d s' := by
  have hzero : hasFlag (0 : PTE) .P = true → permission 0 = perm n := by simp
  cases hdrop with
  | present hP => exact h.set hzero rfl
  | paged hP hPG => exact h.set hzero rfl
  | unmapped _ => exact h

private theorem Protects.fetch (h : Protects perm d s) (hs : Sound (· = d) s) (hn : perm n = userPerm)
    {ok : Bool} (hf : Fetch d n s s' ok) : Protects perm d s' := by
  cases hf with
  | noVictim => exact h
  | missing hroom habsent hv hindex => exact (h.room hs hroom).map hv hn
  | unread hroom habsent hv => exact (h.room hs hroom).map hv hn
  | moved hroom habsent hv hindex => exact (h.room hs hroom).map hv hn

private theorem Protects.placed (h : Protects perm d s) (hs : Image d m lo s) (hle : lo ≤ hi)
    (hhi : hi ≤ userPages) (hperm : ∀ n, lo ≤ n → perm n = userPerm)
    (hrun : RangeRun (Place d) hi lo s s') : Protects perm d s' ∧ Image d m hi s' := by
  have hkeep := hrun.keeps (I := fun n s => Protects perm d s ∧ Image d m n s)
    (fun n _ _ hlo hn hI hp => ⟨hI.1.place hI.2.sound (hperm n hlo) hp,
      hp.image (by omega) hI.2⟩) ⟨h, hs⟩
  rwa [max_eq_right hle] at hkeep

private theorem Protects.dropped (h : Protects perm d s) (hrun : RangeRun (Drop d) hi lo s s') :
    Protects perm d s' :=
  hrun.keeps_const (I := Protects perm d) (fun _ _ _ _ _ hI hd => hI.drop hd) h

private theorem Protects.resize (h : Protects perm d s) (hs : Image d m hi s)
    (hperm : ∀ n, hi ≤ n → perm n = userPerm) (hm : Move d none hi s hi' s') :
    Protects perm d s' := by
  cases hm with
  | alike ha => exact h.same (ha.pte d)
  | grow hle hhi hplaced => exact (h.placed hs hle hhi hperm hplaced).1
  | undone hle hmid hhi hplaced hdropped =>
    exact (h.placed hs hle (by omega) hperm hplaced).1.dropped hdropped
  | shrink hle hhi hle' hdropped => exact h.dropped hdropped

private theorem Protects.rewrite
    (h : Protects perm d s) (hs : Image d m hi s) {perm' : Nat → Bool × Bool}
    (hsame : ∀ n < hi, perm' n = perm n) : Protects perm' d s := by
  intro n hn hP
  by_cases hlt : n < hi
  · rw [hsame n hlt]
    exact h n hn hP
  · simp [(hs.beyond n (by omega) hn).1] at hP

end Space

/-- The kernel, and for each process and page the permissions the page was last mapped with. -/
structure Recorded where
  kernel : Kernel
  perm : Slot → Nat → Bool × Bool

namespace Recorded

/-- The record of a process after `op`: `growproc` maps the pages from the old size on anew. -/
def remapped (perm : Nat → Bool × Bool) (sz : Nat) : Op → Nat → Bool × Bool
  | .growproc _, n => if n < pages sz then perm n else userPerm
  | _, n => perm n

/-- The record made of the page tables as they are. -/
def start (k : Kernel) : Recorded :=
  ⟨k, fun c n => permission (k.pte (k.proc c).pgdir n)⟩

/-- A step of the system, where `allow` admits it. -/
def next (cfg : Config) (allow : Recorded → Action → Bool) (r : Recorded) (a : Action) :
    Option Recorded :=
  if allow r a then
    match a with
    | .user c op =>
      if r.kernel.Active c ∧ op.User then
        match r.kernel.perform cfg c op with
        | .ok (k, _) =>
          some ⟨k, update r.perm c (remapped (r.perm c) (r.kernel.proc c).sz op)⟩
        | .error _ => none
      else none
    | .fork c =>
      if r.kernel.Active c then
        match r.kernel.fork cfg c with
        | .ok (k, some np) => some ⟨k, update r.perm np (r.perm c)⟩
        | _ => none
      else none
  else none

def Step (cfg : Config) (allow : Recorded → Action → Bool) (r : Recorded) (a : Action)
    (r' : Recorded) : Prop := r.next cfg allow a = some r'

def anyAction (_ : Recorded) (_ : Action) : Bool := true

/-- The page an action faults in, if it faults one in, is on record as a user page. -/
def keepsRecord (r : Recorded) : Action → Bool
  | .user c op => (r.kernel.fetches c op).all fun n => r.perm c n == userPerm
  | .fork _ => true

/-- In every process the present pages have the permissions on record. -/
def Protected (r : Recorded) : Prop :=
  ∀ c, r.kernel.InUse c → (r.kernel.space c).Protects (r.perm c) (r.kernel.proc c).pgdir

/-- The two kinds of step. -/
inductive Stepped (cfg : Config) (allow : Recorded → Action → Bool) (r : Recorded) :
    Action → Recorded → Prop
  | user {c : Slot} {op : Op} {e : Event} {k : Kernel} (hallow : allow r (.user c op) = true)
      (hc : r.kernel.Active c) (huser : op.User) (h : r.kernel.perform cfg c op = .ok (k, e)) :
      Stepped cfg allow r (.user c op)
        ⟨k, update r.perm c (remapped (r.perm c) (r.kernel.proc c).sz op)⟩
  | fork {c np : Slot} {k : Kernel} (hc : r.kernel.Active c)
      (h : r.kernel.fork cfg c = .ok (k, some np)) :
      Stepped cfg allow r (.fork c) ⟨k, update r.perm np (r.perm c)⟩

variable {cfg : Config} {allow : Recorded → Action → Bool} {r r' : Recorded} {a : Action}

private theorem stepped (h : Step cfg allow r a r') : Stepped cfg allow r a r' := by
  unfold Step next at h
  split at h
  · next hallow =>
    cases a with
    | user c op =>
      simp only at h
      split at h
      · next hcond =>
        split at h
        · next k e hok =>
          obtain rfl := Option.some.inj h
          exact .user hallow hcond.1 hcond.2 hok
        · simp at h
      · simp at h
    | fork c =>
      simp only at h
      split at h
      · next hc =>
        split at h
        · next k np hok =>
          obtain rfl := Option.some.inj h
          exact .fork hc hok
        · simp at h
      · simp at h
  · simp at h

end Recorded

namespace Kernel

variable {cfg : Config} {X : Frame → Prop} {k k' k₁ : Kernel} {c c' np : Slot} {op : Op} {e : Event}
  {perm : Nat → Bool × Bool}

/-- Process `c` moved: process `c'` keeps its directory, and the pages in it if the two do not
share it. -/
structure Spared (c c' : Slot) (k k' : Kernel) : Prop where
  pgdir : (k'.proc c').pgdir = (k.proc c').pgdir
  state : (k'.proc c').state = (k.proc c').state
  pte : (k.proc c').pgdir ≠ (k.proc c).pgdir →
    ∀ n, Space.SameEntry (k'.pte (k.proc c').pgdir n) (k.pte (k.proc c').pgdir n)

private theorem Spared.of_quiet (h : Quiet k k') (c c' : Slot) : Spared c c' k k' :=
  ⟨(h.proc c').1, (h.proc c').2.2.2, fun _ => (h.alike c').pte _⟩

private theorem Spared.of_local (hl : Local c (k.proc c).pgdir k k') (hne : c' ≠ c) :
    Spared c c' k k' := by
  refine ⟨by rw [hl.other c' hne], by rw [hl.other c' hne], ?_⟩
  intro hdir n
  rw [hl.pte hdir]
  exact .refl _

private theorem Spared.setProc (h : Spared c c' k k₁) (hne : c' ≠ c) (p : Proc) :
    Spared c c' k (k₁.setProc c p) where
  pgdir := by rw [setProc_proc_of_ne hne, h.pgdir]
  state := by rw [setProc_proc_of_ne hne, h.state]
  pte := h.pte

private theorem Consistent.spared (h : Consistent cfg X k) (hc : k.Active c) (hne : c' ≠ c)
    (hs : Stepped cfg c k op e k') : Spared c c' k k' := by
  obtain ⟨hsz, m, himage⟩ := h.image c hc
  have hvalid : FreeValid cfg k := h.frames.valid_free
  cases hs with
  | loaded hop ha hacc => exact .of_quiet (walked_quiet (access_some hacc).1) c c'
  | @stored a b walk fr hop ha hacc =>
    have hwalked : Spared c c' k (k.walked c a walk) :=
      .of_quiet (walked_quiet (access_some hacc).1) c c'
    exact ⟨hwalked.pgdir, hwalked.state, hwalked.pte⟩
  | faulted ha hfetch hf =>
    cases hf with
    | serviced hPG hready hfetched =>
      exact .of_local (fetched_space hvalid himage.sound hready hfetched).2 hne
    | notPaged hPG => exact (Spared.of_local (.refl _ _ k) hne).setProc hne _
    | refused hPG hready hfetched =>
      exact (Spared.of_local (fetched_space hvalid himage.sound hready hfetched).2 hne).setProc hne _
  | resized hop hg =>
    obtain ⟨m, hh⟩ := h.healthy hc
    obtain ⟨k₁, sz, hl, rfl, -, -⟩ := hh.resized hc.live hsz (growproc_ok hsz hg)
    exact (Spared.of_local hl hne).setProc hne _
  | ticked hop ht => exact .of_quiet (updateAgeForAllProcess_quiet ht) c c'

end Kernel

namespace Recorded

open Kernel

variable {cfg : Config} {allow : Recorded → Action → Bool} {r r' : Recorded} {k' : Kernel}
  {c np : Slot} {op : Op} {e : Event}

private theorem remapped_of_lt {perm : Nat → Bool × Bool} {sz n : Nat} (hn : n < pages sz) :
    remapped perm sz op n = perm n := by
  cases op <;> simp [remapped, hn]

private theorem Protected.own (h : r.Protected) (hk : Consistent cfg nullFrame r.kernel)
    (hc : r.kernel.Active c) (hallow : keepsRecord r (.user c op) = true)
    (hs : Kernel.Stepped cfg c r.kernel op e k') :
    (k'.space c).Protects (remapped (r.perm c) (r.kernel.proc c).sz op) (k'.proc c).pgdir := by
  obtain ⟨hsz, m, himage⟩ := hk.image c hc
  have hvalid : FreeValid cfg r.kernel := hk.frames.valid_free
  have hown : (r.kernel.space c).Protects (remapped (r.perm c) (r.kernel.proc c).sz op)
      (r.kernel.proc c).pgdir := (h c hc.inUse).rewrite himage fun n hn => remapped_of_lt hn
  have hquiet : ∀ {k₁}, Quiet r.kernel k₁ →
      (k₁.space c).Protects (remapped (r.perm c) (r.kernel.proc c).sz op) (k₁.proc c).pgdir := by
    intro k₁ hq
    rw [(hq.proc c).1]
    exact hown.same ((hq.alike c).pte _)
  have hfetched : ∀ {n : Nat} {mem : Option Frame} {k₀ k₁ : Kernel} {ok : Bool},
      r.kernel.fetches c op = some n → PageReady r.kernel c mem k₀ → Fetched cfg c n mem k₀ k₁ ok →
      (k₁.space c).Protects (remapped (r.perm c) (r.kernel.proc c).sz op) (k₁.proc c).pgdir := by
    intro n mem k₀ k₁ ok hn hready hf
    obtain ⟨hfetch, hl⟩ := fetched_space hvalid himage.sound hready hf
    rw [hl.pgdir]
    apply hown.fetch himage.sound _ hfetch
    have hrecord : r.perm c n = userPerm := by simpa [keepsRecord, hn] using hallow
    cases op with
    | growproc x => simp [fetches] at hn
    | tick => simp [fetches] at hn
    | load a walk => exact hrecord
    | store a b walk => exact hrecord
  cases hs with
  | loaded hop ha hacc => exact hquiet (walked_quiet (access_some hacc).1)
  | @stored a b walk fr hop ha hacc =>
    have hwalked : Quiet r.kernel (r.kernel.walked c a walk) := walked_quiet (access_some hacc).1
    have hsame := hquiet hwalked
    exact hsame
  | faulted ha hfetch hf =>
    cases hf with
    | serviced hPG hready hf => exact hfetched (hfetch hPG) hready hf
    | notPaged hPG =>
      simp only [setProc_proc_self]
      exact hown
    | refused hPG hready hf =>
      simp only [setProc_proc_self]
      exact hfetched (hfetch hPG) hready hf
  | @resized x k₁ ok hop hg =>
    obtain ⟨hmove, -, hpgdir, -⟩ := Moved.resized hvalid hsz himage (growproc_ok hsz hg)
    rw [hpgdir]
    refine hown.resize himage ?_ hmove
    intro n hn
    simp [hop, remapped, Nat.not_lt.mpr hn]
  | ticked hop ht => exact hquiet (updateAgeForAllProcess_quiet ht)

private theorem Protected.user (h : r.Protected) (hk : Consistent cfg nullFrame r.kernel)
    (hc : r.kernel.Active c) (hallow : keepsRecord r (.user c op) = true)
    (hs : Kernel.Stepped cfg c r.kernel op e k') :
    Protected ⟨k', update r.perm c (remapped (r.perm c) (r.kernel.proc c).sz op)⟩ := by
  intro c' hc'
  by_cases hne : c' = c
  · subst hne
    simpa using h.own hk hc hallow hs
  · obtain ⟨hpgdir, hstate, hpte⟩ := hk.spared hc hne hs
    have hin : r.kernel.InUse c' := by simpa only [InUse, hstate] using hc'
    simp only [update_of_ne hne, hpgdir]
    exact (h c' hin).same (hpte fun hsame => hne (hk.pgdir_inj c' c hin hc.inUse hsame))

private theorem Protected.fork (h : r.Protected) (hk : Consistent cfg nullFrame r.kernel)
    (hc : r.kernel.Active c) (hf : r.kernel.fork cfg c = .ok (k', some np)) :
    Protected ⟨k', update r.perm np (r.perm c)⟩ := by
  obtain ⟨d, hforked⟩ := hk.forked hc hf
  obtain ⟨p, parent, -, -, hchild⟩ := hforked.child
  intro c' hc'
  by_cases hne : c' = np
  · subst hne
    intro n hn hP
    have hd : (k'.proc c').pgdir = d := by simp [hchild, forkedProc]
    simp only [space, update_self, hd] at hP ⊢
    by_cases hlt : n < pages (r.kernel.proc c).sz
    · cases hPG : hasFlag (r.kernel.pte (r.kernel.proc c).pgdir n) .PG with
      | true =>
        rw [(hforked.done n hlt).paged hPG] at hP
        simp [(by decide : hasFlag ptePG .P = false)] at hP
      | false =>
        obtain ⟨hpresent, hflag⟩ := (hforked.done n hlt).resident hPG
        have hparent := h c hc.inUse n hn hpresent
        simp only [permission, hflag]
        exact hparent
    · rw [hforked.todo n (by omega)] at hP
      simp at hP
  · have hproc := hforked.other c' hne
    have hin : r.kernel.InUse c' := by simpa only [InUse, hproc] using hc'
    have hdir : (r.kernel.proc c').pgdir ≠ d := fun he => hforked.fresh ⟨c', hin, he⟩
    simp only [update_of_ne hne, hproc]
    apply (h c' hin).same
    intro n
    simp only [space, hforked.pte _ hdir]
    exact .refl _

/-- The record and the consistency of the kernel hold along every run that keeps to the record. -/
private theorem Protected.step (h : r.Protected) (hk : Consistent cfg nullFrame r.kernel) {a : Action}
    (hstep : Step cfg keepsRecord r a r') : r'.Protected ∧ Consistent cfg nullFrame r'.kernel := by
  cases stepped hstep with
  | user hallow hc huser hok =>
    exact ⟨h.user hk hc hallow (perform_ok huser hok), hk.performed hc huser (fun _ _ => rfl) hok⟩
  | fork hc hok => exact ⟨h.fork hk hc hok, hk.fork hc hok⟩

private theorem start_protected (k : Kernel) : (start k).Protected := fun _ _ _ _ _ => rfl

private theorem Protected.no_access
    (h : r.Protected) (hc : r.kernel.InUse c) {a : Nat} (ha : a < kernBase)
    (hguard : (r.perm c (a / pgSize)).2 = false) (write : Bool) :
    r.kernel.access c a write = none := by
  cases hacc : r.kernel.access c a write with
  | none => rfl
  | some fr =>
    obtain ⟨hP, hU, -⟩ := access_some hacc
    rw [vpn_of_lt ha] at hP hU
    have hsame := h c hc (a / pgSize) (page_lt_userPages ha) hP
    rw [← hsame] at hguard
    simp only [permission] at hguard
    exact absurd (hU.symm.trans hguard) (by simp)

/-- Along every run in which pages are faulted in only if they are on record as user pages, every
present page of every process has the permissions it was last mapped with, and a page without
`PTE_U` on record stays out of reach of its process. -/
theorem protected_of_run {k₀ : Kernel} {as : List Action} (hstart : Started cfg k₀)
    (hrun : Run (Step cfg keepsRecord) (start k₀) as r) :
    r.Protected ∧ ∀ c a write, r.kernel.InUse c → a < kernBase →
      (r.perm c (a / pgSize)).2 = false → r.kernel.access c a write = none := by
  have hkeep := hrun.keeps (I := fun r => r.Protected ∧ Consistent cfg nullFrame r.kernel)
    (fun _ _ _ h hstep => h.1.step h.2 hstep)
    ⟨start_protected k₀, hstart.consistent.uncount nullFrame_invalid⟩
  exact ⟨hkeep.1, fun c a write hc ha hguard => hkeep.1.no_access hc ha hguard write⟩

/-- A process grows until pages go out to disc, faults its code in again and forks. -/
theorem protected_of_run_grow_load_fork :
    ∃ r, [Action.user Solo.main (.growproc 57344), .user Solo.main (.load 0 true),
        .fork Solo.main].foldlM (next (Solo.config .AGING) keepsRecord)
          (start Solo.guarded.kernel) = some r ∧
      (r.Protected ∧ ∀ c a write, r.kernel.InUse c → a < kernBase →
        (r.perm c (a / pgSize)).2 = false → r.kernel.access c a write = none) := by
  obtain ⟨r, hr⟩ := Option.isSome_iff_exists.mp
    (by decide +kernel : ([Action.user Solo.main (.growproc 57344), .user Solo.main (.load 0 true),
      .fork Solo.main].foldlM (next (Solo.config .AGING) keepsRecord)
        (start Solo.guarded.kernel)).isSome = true)
  exact ⟨r, hr, protected_of_run (Solo.started _ (le_refl _)) (.of_foldlM hr)⟩

/-- The guard page goes out to disc, the process touches it, and it comes back as a user page that
the process then reads. -/
theorem guard_opens : Started (Solo.config .FIFO) Solo.guarded.kernel ∧
    ∃ r, [Action.user Solo.main (.growproc 57344),
      .user Solo.main (.load 4096 true)].foldlM (next (Solo.config .FIFO) anyAction)
        (start Solo.guarded.kernel) = some r ∧
    r.perm Solo.main 1 = (true, false) ∧ ¬ r.Protected ∧
      (r.kernel.access Solo.main 4096 false).isSome = true := by
  have hrun : ([Action.user Solo.main (.growproc 57344),
      .user Solo.main (.load 4096 true)].foldlM (next (Solo.config .FIFO) anyAction)
        (start Solo.guarded.kernel)).map (fun r => ((r.kernel.proc Solo.main).state,
          r.perm Solo.main 1, (r.kernel.access Solo.main 4096 false).isSome)) =
      some (.RUNNING, (true, false), true) := by decide +kernel
  obtain ⟨r, hr, hsome⟩ := Option.map_eq_some_iff.mp hrun
  simp only [Prod.mk.injEq] at hsome
  obtain ⟨hstate, hperm, hacc⟩ := hsome
  refine ⟨Solo.started _ (le_refl _), r, hr, hperm, ?_, hacc⟩
  intro hprotected
  have hin : r.kernel.InUse Solo.main := by simp [InUse, hstate]
  have hguard : (r.perm Solo.main (4096 / pgSize)).2 = false := by
    rw [show 4096 / pgSize = 1 from rfl, hperm]
  have hnone := hprotected.no_access hin (by decide) hguard false
  rw [hnone] at hacc
  exact absurd hacc (by decide)

end Recorded

end OsSessional.Paging
