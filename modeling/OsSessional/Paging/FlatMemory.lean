import OsSessional.Paging.Contents
import OsSessional.Paging.FaultService

/-!
# One flat memory

What a process may expect of its addresses: a load returns the byte last stored, or the one the page
came with. The kernel that pages behind its back refines this memory along every run in which a
page-in gets a frame and page 0 is not fetched through an entry that is not in use.
-/

namespace OsSessional.Paging

open Function (update update_self update_of_ne)

/-- Bytes by address, and how many of them there are. -/
structure FlatMemory where
  sz : Nat
  byte : Nat → Byte

namespace FlatMemory

/-- The pages from the old size on are fresh. -/
def resize (m : FlatMemory) (sz : Nat) : FlatMemory :=
  ⟨sz, fun a => if a / pgSize < pages m.sz then m.byte a else 0⟩

/-- The memory after an operation that came to an event; `none` where it would not come to that. -/
def next (m : FlatMemory) : Op × Event → Option FlatMemory
  | (.load a _, .loaded a' b) => if a' = a ∧ b = m.byte a then some m else none
  | (.store a b _, .stored a' b') =>
    if a' = a ∧ b' = b then some { m with byte := update m.byte a b } else none
  | (.load a _, .faulted a') => if a' = a then some m else none
  | (.store a _ _, .faulted a') => if a' = a then some m else none
  | (.growproc _, .resized sz) => some (m.resize sz)
  | (.tick, .ticked) => some m
  | _ => none

def Step (m : FlatMemory) (x : Op × Event) (m' : FlatMemory) : Prop := m.next x = some m'

/-- The memory of process `c` while all its pages are resident. -/
def initial (k : Kernel) (c : Slot) : FlatMemory where
  sz := (k.proc c).sz
  byte a := k.mem (pteAddr (k.pte (k.proc c).pgdir (a / pgSize))) (pageOffset a)

def page (m : FlatMemory) (n : Nat) : Page := fun x => m.byte (n * pgSize + x)

variable {m : FlatMemory} {a n : Nat} {b : Byte}

private theorem page_addr (n : Nat) (x : Fin pgSize) : (n * pgSize + x) / pgSize = n := by
  have hx := x.isLt
  rw [Nat.mul_comm, Nat.mul_add_div (by decide), Nat.div_eq_of_lt hx, Nat.add_zero]

private theorem pageOffset_addr (n : Nat) (x : Fin pgSize) : pageOffset (n * pgSize + x) = x := by
  apply Fin.ext
  simp only [pageOffset]
  rw [Nat.mul_comm, Nat.mul_add_mod, Nat.mod_eq_of_lt x.isLt]

private theorem page_byte (m : FlatMemory) (a : Nat) :
    m.page (a / pgSize) (pageOffset a) = m.byte a := by
  simp only [page, pageOffset]
  rw [Nat.div_add_mod']

private theorem page_store : { m with byte := update m.byte a b }.page =
    update m.page (a / pgSize) (update (m.page (a / pgSize)) (pageOffset a) b) := by
  funext n x
  by_cases hn : n = a / pgSize
  · subst hn
    rw [update_self]
    by_cases hx : x = pageOffset a
    · subst hx
      simp only [page, pageOffset, update_self, Nat.div_add_mod']
    · rw [update_of_ne hx]
      simp only [page]
      rw [update_of_ne]
      rintro heq
      exact hx (by rw [← heq, pageOffset_addr])
  · rw [update_of_ne hn]
    simp only [page]
    rw [update_of_ne]
    rintro rfl
    exact hn (page_addr n x).symm

private theorem page_resize {sz : Nat} :
    (m.resize sz).page = fun n => if n < pages m.sz then m.page n else fun _ => 0 := by
  funext n x
  simp only [page, resize, page_addr]
  split <;> rfl

private theorem page_initial {k : Kernel} {c : Slot} :
    (initial k c).page = fun n => k.mem (pteAddr (k.pte (k.proc c).pgdir n)) := by
  funext n x
  simp only [page, initial, page_addr, pageOffset_addr]

end FlatMemory

namespace Kernel

variable {cfg : Config} {k k' k₀ : Kernel} {c : Slot} {d : Frame} {m : Nat} {flat : FlatMemory}
  {op : Op} {e : Event} {xs : List (Op × Event)}

/-- An operation that pages transparently: what it faults in gets a frame and is not page 0 through
an entry that is not in use. -/
def transparent (c : Slot) (k : Kernel) (op : Op) : Bool :=
  soundFetch c k op && ((k.fetches c op).isNone || !k.freelist.isEmpty)

/-- Process `c` sees the memory `flat`. -/
structure Refines (cfg : Config) (c : Slot) (d : Frame) (m : Nat) (k : Kernel) (flat : FlatMemory) :
    Prop where
  consistent : Consistent cfg allCounted k
  agreed : Agreed cfg c d m k
  sz : flat.sz = (k.proc c).sz
  holds : Holds k c d m flat.page

private theorem Refines.filled (h : Refines cfg c d m k flat) :
    Filled cfg k.Live c d m flat.page (pages (k.proc c).sz) k :=
  ⟨h.agreed.pgdir, ⟨h.agreed.image, h.consistent.frames⟩, h.agreed.agree, h.holds⟩

private theorem transparent_frame
    (h : transparent c k op = true) (hfetch : (k.fetches c op).isSome = true) :
    k.freelist ≠ [] := by
  intro hnil
  cases hf : k.fetches c op <;> simp_all [transparent]

private theorem Refines.matches (h : Refines cfg c d m k flat) {n : Nat} (hn : n < userPages)
    (hPG : hasFlag (k.pte d n) .PG = true) (hallow : transparent c k op = true)
    (hfetch : k.fetches c op = some n) : (k.space c).Matches n := by
  apply h.agreed.matches hn hPG
  rintro rfl
  simp only [transparent, Bool.and_eq_true] at hallow
  simpa [soundFetch, hfetch] using hallow.1

private theorem perform_faulted {a : Nat} (h : k.perform cfg c op = .ok (k', .faulted a)) :
    (∃ walk, op = .load a walk) ∨ ∃ b walk, op = .store a b walk := by
  cases op with
  | load a' walk =>
    simp only [perform] at h
    split at h
    · simp at h
    · obtain ⟨k₁, -, h⟩ := Outcome.bind_eq_ok.mp h
      obtain ⟨-, rfl⟩ : k₁ = k' ∧ a' = a := by simpa using h
      exact .inl ⟨walk, rfl⟩
  | store a' b walk =>
    simp only [perform] at h
    split at h
    · simp at h
    · obtain ⟨k₁, -, h⟩ := Outcome.bind_eq_ok.mp h
      obtain ⟨-, rfl⟩ : k₁ = k' ∧ a' = a := by simpa using h
      exact .inr ⟨b, walk, rfl⟩
  | growproc n =>
    simp only [perform, Outcome.bind_eq_ok] at h
    obtain ⟨x, -, h⟩ := h
    simp at h
  | tick =>
    simp only [perform, Outcome.bind_eq_ok] at h
    obtain ⟨x, -, h⟩ := h
    simp at h

/-- An operation comes to what the flat memory says, and leaves what it says. -/
private theorem Refines.step (h : Refines cfg c d m k flat) (hc : k.Active c) (huser : op.User)
    (hallow : transparent c k op = true) (hstep : k.perform cfg c op = .ok (k', e)) :
    ∃ flat', flat.next (op, e) = some flat' ∧ (k'.Active c → Refines cfg c d m k' flat') := by
  have hcons := h.consistent.performed hc huser (fun hsome hnil =>
    absurd hnil (transparent_frame hallow hsome)) hstep
  have hagreed : k'.Active c → Agreed cfg c d m k' :=
    h.agreed.step huser (by simp only [transparent, Bool.and_eq_true] at hallow; exact hallow.1) hstep
  have hd : k.Live d := h.agreed.pgdir ▸ hc.live
  have hquiet : Quiet k k' → k'.Active c → Refines cfg c d m k' flat := by
    intro hq hc'
    exact ⟨hcons, hagreed hc', by rw [(hq.proc c).2.2.1]; exact h.sz, h.holds.quiet hq⟩
  cases perform_ok huser hstep with
  | @loaded a walk fr hop ha hacc =>
    subst hop
    obtain ⟨hP, -, rfl⟩ := access_some hacc
    refine ⟨flat, ?_, hquiet (walked_quiet hP)⟩
    rw [h.agreed.pgdir, vpn_of_lt ha] at hP ⊢
    rw [h.holds.resident _ (page_lt_userPages ha) hP, flat.page_byte]
    simp [FlatMemory.next]
  | @stored a b walk fr hop ha hacc =>
    subst hop
    obtain ⟨hP, -, rfl⟩ := access_some hacc
    refine ⟨{ flat with byte := update flat.byte a b }, by simp [FlatMemory.next], ?_⟩
    intro hc'
    have hq : Quiet k (k.walked c a walk) := walked_quiet hP
    have hw := h.agreed.image.alike (hq.alike c)
    have ha' := h.agreed.agree.alike (hq.alike c)
    have hframes : FramesSound cfg allCounted k.Live (k.walked c a walk) :=
      h.consistent.frames.alike hq.freelist (hq.alike c).pte hq.pde
    have hn := page_lt_userPages ha
    have hentry : k.pte d (a / pgSize) = k.pte (k.proc c).pgdir (vpn a) := by
      rw [h.agreed.pgdir, vpn_of_lt ha]
    have hsame : Space.SameEntry ((k.walked c a walk).pte d (a / pgSize)) (k.pte d (a / pgSize)) :=
      (hq.alike c).pte d (a / pgSize)
    have hstored := (h.holds.quiet hq).store hframes hd hw.sound ha' hn
      (by rw [hsame.flag .P (by decide), hentry, hP]) (pageOffset a) b
    rw [hsame.addr, walked_mem, hentry, ← FlatMemory.page_store] at hstored
    exact ⟨hcons, hagreed hc', by simpa using h.sz, by simpa using hstored⟩
  | @faulted a k' ha hfetch hf =>
    have hnext : flat.next (op, .faulted a) = some flat := by
      rcases perform_faulted hstep with ⟨walk, rfl⟩ | ⟨b, walk, rfl⟩
      · simp [FlatMemory.next]
      · simp [FlatMemory.next]
    refine ⟨flat, hnext, ?_⟩
    intro hc'
    cases hf with
    | serviced hPG hready hfetched =>
      have hn := page_lt_userPages ha
      have hfetches := hfetch hPG
      rw [h.agreed.pgdir] at hPG
      have hfilled := h.filled.serviced hd hn hPG (transparent_frame hallow (by simp [hfetches]))
        (h.matches hn hPG hallow hfetches) hready hfetched
      have hl := fetched_space h.agreed.free (h.agreed.pgdir ▸ h.agreed.image.sound) hready hfetched
      exact ⟨hcons, hagreed hc', by rw [hl.2.sz]; exact h.sz, hfilled.holds⟩
    | notPaged hPG => exact absurd hc' exited_not_active
    | refused hPG hready hfetched => exact absurd hc' exited_not_active
  | @resized x k' ok hop hg =>
    subst hop
    refine ⟨flat.resize (k'.proc c).sz, rfl, ?_⟩
    intro hc'
    have hpage : (flat.resize (k'.proc c).sz).page =
        fun n => if n < pages flat.sz then flat.page n else fun _ => 0 := FlatMemory.page_resize
    have hfilled := h.filled
    have hrewritten : Holds k c d m (flat.resize (k'.proc c).sz).page := by
      apply h.holds.rewrite h.agreed.image h.agreed.agree
      intro n hn
      rw [hpage, h.sz]
      simp [hn]
    have hzero : ∀ n, pages (k.proc c).sz ≤ n →
        (flat.resize (k'.proc c).sz).page n = fun _ => 0 := by
      intro n hn
      rw [hpage, h.sz]
      simp [Nat.not_lt.mpr hn]
    have hstart : Filled cfg k.Live c d m (flat.resize (k'.proc c).sz).page
      (pages (k.proc c).sz) k := ⟨hfilled.pgdir, hfilled.healthy, hfilled.agree, hrewritten⟩
    have hpgdir := h.agreed.pgdir
    subst hpgdir
    exact ⟨hcons, hagreed hc', rfl,
      (hstart.resized hd h.agreed.sz_lt hzero (growproc_ok h.agreed.sz_lt hg)).holds⟩
  | ticked hop ht =>
    subst hop
    exact ⟨flat, rfl, hquiet (updateAgeForAllProcess_quiet ht)⟩

private theorem AfterExec.refines (h : AfterExec k c) (hk : Consistent cfg allCounted k) :
    ∃ m, Refines cfg c (k.proc c).pgdir m k (.initial k c) := by
  obtain ⟨m, himage, hagree⟩ := h.image
  refine ⟨m, hk, ⟨rfl, h.sz_lt, himage, hagree, hk.frames.valid_free⟩, rfl, ?_, ?_⟩
  · intro n _ _
    rw [FlatMemory.page_initial]
  · intro j n f hj hused hnames
    obtain ⟨v, hv, -, hPG⟩ := hagree.names j hj hused
    have hno := h.no_paged hv
    simp only [space] at hPG
    simp [hno] at hPG

private theorem AfterExec.seesFlat (h : AfterExec k₀ c) (hk : Consistent cfg allCounted k₀)
    (hrun : Run (OpStep cfg c (transparent c)) k₀ xs k) :
    ∃ flat, Run FlatMemory.Step (.initial k₀ c) xs flat := by
  obtain ⟨m, hrefines⟩ := h.refines hk
  obtain ⟨flat, hflat, -⟩ := hrun.simulate
    (R := fun k flat => k.Active c → Refines cfg c (k₀.proc c).pgdir m k flat)
    (by
      intro k₁ flat₁ x k₂ hR hstep
      obtain ⟨hc₁, huser, hallow, hperform⟩ := hstep.performed
      exact (hR hc₁).step hc₁ huser hallow hperform)
    (fun _ => hrefines)
  exact ⟨flat, hflat⟩

/-- Along every run of a process in which a page-in gets a frame and page 0 is not fetched through an
entry out of use, its loads and stores come to what one flat memory says, which starts as the exec
left it: a load returns the byte last stored, and a page that is allocated again holds zeros. -/
theorem flat_of_run (hstart : Started cfg k₀) (hc : k₀.Active c)
    (hrun : Run (OpStep cfg c (transparent c)) k₀ xs k) :
    ∃ flat, Run FlatMemory.Step (.initial k₀ c) xs flat :=
  (hstart.exec c hc.inUse hc.pid).seesFlat hstart.consistent hrun

/-- A process stores to a page, outgrows its RAM slots, and loads the byte back after a fault. -/
theorem flat_of_run_store_grow_load :
    ∃ k flat, Run (OpStep (Solo.config .FIFO) Solo.main (transparent Solo.main)) Solo.full.kernel
        [(Op.store 0 7 true, .stored 0 7), (.growproc 4096, .resized 65536),
          (.load 0 true, .faulted 0), (.load 0 true, .loaded 0 7)] k ∧
      Run FlatMemory.Step (.initial Solo.full.kernel Solo.main)
        [(Op.store 0 7 true, .stored 0 7), (.growproc 4096, .resized 65536),
          (.load 0 true, .faulted 0), (.load 0 true, .loaded 0 7)] flat := by
  obtain ⟨k, hk⟩ := Option.isSome_iff_exists.mp
    (by decide +kernel : ([(Op.store 0 7 true, Event.stored 0 7), (.growproc 4096, .resized 65536),
      (.load 0 true, .faulted 0), (.load 0 true, .loaded 0 7)].foldlM
        (runOp (Solo.config .FIFO) Solo.main (transparent Solo.main))
        Solo.full.kernel).isSome = true)
  have hrun := Run.of_foldlM hk
  obtain ⟨flat, hflat⟩ := flat_of_run (Solo.full.started (le_refl _)) (by decide) hrun
  exact ⟨k, flat, hrun, hflat⟩

/-- Pages 14, 15 and 0 go out, a shrink frees the first two disc slots, page 0 is faulted in through
the wrong one, and the load returns a byte of the page that is gone. -/
theorem stale_load :
    (∃ k, Run (OpStep (Solo.config .AGING) Solo.main anyOp) Solo.late.kernel
      (Solo.staleRun ++ [(.load 0 true, .loaded 0 0)]) k) ∧
    Started (Solo.config .AGING) Solo.late.kernel ∧
    ∀ flat, ¬ Run FlatMemory.Step (.initial Solo.late.kernel Solo.main)
      (Solo.staleRun ++ [(.load 0 true, .loaded 0 0)]) flat := by
  refine ⟨?_, Solo.late.started (le_refl _), ?_⟩
  · obtain ⟨k, hk⟩ := Option.isSome_iff_exists.mp
      (by decide +kernel : ((Solo.staleRun ++ [(Op.load 0 true, Event.loaded 0 0)]).foldlM
        (runOp (Solo.config .AGING) Solo.main anyOp) Solo.late.kernel).isSome = true)
    exact ⟨k, .of_foldlM hk⟩
  · intro flat hrun
    have hnone : (Solo.staleRun ++ [(Op.load 0 true, Event.loaded 0 0)]).foldlM FlatMemory.next
        (.initial Solo.late.kernel Solo.main) = none := Option.isNone_iff_eq_none.mp (by decide +kernel)
    have hsome := Run.to_foldlM hrun
    rw [hnone] at hsome
    simp at hsome

end Kernel

end OsSessional.Paging
