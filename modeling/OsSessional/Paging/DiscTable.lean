import OsSessional.Paging.Moves
import OsSessional.Paging.Start

/-!
# The disc table

A page-in looks its page up by address alone, in slots that may not be in use. Removals leave
address 0 behind, so page 0 may match a slot it never had; every other page finds its own. Where
that does not happen the used disc entries are exactly the pages that are paged out.
-/

namespace OsSessional.Paging

open Function (update update_self update_of_ne)

namespace Proc

variable (p : Proc)

/-- The eviction of a page-in is about to overwrite disc slot `i`. -/
def taken (i : Fin discPages) : Bool :=
  p.freeRamIndex.isNone && p.getAvailablePageIndexDisk == some i

/-- The disc entry a page-in at `va` matches. -/
def matchIndex (va : Nat) : Option (Fin discPages) :=
  Scan.first fun i => (p.pagesInDisc i).virtualAddress == va && !p.taken i

/-- A page-in at `va` matches an entry that is not in use. -/
def Shadowed (va : Nat) : Bool :=
  match p.matchIndex va with
  | some i => !(p.pagesInDisc i).isUsed
  | none => false

end Proc

namespace Space

variable {s s' s₁ : Space} {d : Frame} {m n : Nat}

theorem Evict.disc {i : Fin maxPyscPages} (h : Evict s i s₁) (hs : Sound (· = d) s)
    (hP : hasFlag (s.pte d n) .P = false) :
    ∃ j e, Scan.first (fun j => !(s.disc j).isUsed) = some j ∧ e.virtualAddress ≠ n * pgSize ∧
      s₁.disc = update s.disc j e := by
  obtain ⟨hnote, hi, hj, hf, hroom⟩ := h
  refine ⟨_, _, hj, ?_, rfl⟩
  obtain ⟨v, -, haddr, hdir, -, hPv⟩ := hs.pageAt hi
  rw [hnote.addr, haddr]
  intro he
  obtain rfl := page_ext he
  rw [hdir, hP] at hPv
  simp at hPv

private theorem matches_of_ne_zero (hs : Sound (· = d) s) (ha : DiscAgree d m s) (hn : n < userPages)
    (hPG : hasFlag (s.pte d n) .PG = true) (hne : n ≠ 0) : Matches n s := by
  intro i s₁ j hroom hindex
  have ha₁ := hroom.discAgree hs ha
  have hPG₁ := hPG
  rw [← hroom.pte_of_absent hs (hs.paged d n rfl hn hPG).1] at hPG₁
  obtain ⟨j₀, hj₀, hused, hnames⟩ := ha₁.entry hn hPG₁
  have hown := ha₁.index hj₀ hused hnames hne
  rw [hindex] at hown
  obtain rfl : j = j₀ := by simpa using hown
  exact hused

/-- A page-in that served page `n`: its own disc entry is free again and no other one changed, and
the page is present and in the RAM table. -/
structure PagedIn (d : Frame) (n : Nat) (s s' : Space) : Prop where
  freed : ∀ j, (s.disc j).isUsed = true → Names (s.disc j) d n → (s'.disc j).isUsed = false
  kept : ∀ j, (s.disc j).isUsed = true → ¬ Names (s.disc j) d n → s'.disc j = s.disc j
  present : hasFlag (s'.pte d n) .P = true ∧ hasFlag (s'.pte d n) .PG = false
  tracked : ∃ i, (s'.ram i).isUsed = true ∧ Names (s'.ram i) d n

private theorem Room.disc {i : Fin maxPyscPages} (h : Room i s s₁) {j : Fin discPages}
    (hused : (s.disc j).isUsed = true) : s₁.disc j = s.disc j := by
  cases h with
  | free _ => rfl
  | evicted he =>
    obtain ⟨hnote, hi, hj, hf, hroom⟩ := he
    have hfree := Scan.first_spec hj
    simp only [Space.evict]
    rw [update_of_ne]
    rintro rfl
    simp [hused] at hfree

private theorem Fetch.pagedIn {hi : Nat} (h : Fetch d n s s' true) (hs : Image d discPages hi s)
    (ha : DiscAgree d discPages s) (hn : n < userPages) (hPG : hasFlag (s.pte d n) .PG = true)
    (hmatch : Matches n s) : PagedIn d n s s' := by
  have hP := (hs.sound.paged d n rfl hn hPG).1
  cases h with
  | missing hroom habsent hv hindex =>
    have hPG₁ := hPG
    rw [← hroom.pte_of_absent hs.sound hP] at hPG₁
    have hsome := (hroom.image hs).fence.index_isSome hn hPG₁
    simp [hindex] at hsome
  | @moved i s₁ v j t hroom habsent hv hindex =>
    have hused := hmatch i s₁ j hroom hindex
    have ha₁ := hroom.discAgree hs.sound ha
    have hnames : Names (s₁.disc j) d n := ⟨ha₁.own j j.isLt hused, discIndex_addr hindex⟩
    refine ⟨?_, ?_, ?_, ?_⟩
    · intro j' hused' hnames'
      have hsame := hroom.disc hused'
      rw [← hsame] at hused' hnames'
      obtain rfl := ha₁.inj j' j n j'.isLt j.isLt hused' hused hnames' hnames
      simp [Space.move]
    · intro j' hused' hnames'
      have hsame := hroom.disc hused'
      have hne : j' ≠ j := by
        rintro rfl
        exact hnames' (hsame ▸ hnames)
      simp [Space.move, Space.map, hne, hsame]
    · simpa [Space.move, Space.map] using ⟨hv.present, hv.inMemory⟩
    · exact ⟨i, by simpa [Space.move, Space.map] using hused,
        ⟨by simpa [Space.move, Space.map] using hnames.dir,
          by simpa [Space.move, Space.map] using hnames.addr⟩⟩

/-- The used disc entries are, one for one, the pages that are paged out. -/
structure DiscSound (d : Frame) (s : Space) : Prop where
  entry : ∀ n < userPages, hasFlag (s.pte d n) .PG = true →
    ∃! j, (s.disc j).isUsed = true ∧ Names (s.disc j) d n
  page : ∀ j, (s.disc j).isUsed = true →
    ∃ n < userPages, Names (s.disc j) d n ∧ hasFlag (s.pte d n) .PG = true

private theorem DiscAgree.sound (ha : DiscAgree d discPages s) : DiscSound d s where
  entry n hn hPG := by
    obtain ⟨j, -, hused, hnames⟩ := ha.entry hn hPG
    refine ⟨j, ⟨hused, hnames⟩, ?_⟩
    rintro j' ⟨hused', hnames'⟩
    exact ha.inj j' j n j'.isLt j.isLt hused' hused hnames' hnames
  page j hused := ha.names j j.isLt hused

end Space

namespace Kernel

variable {cfg : Config} {k k' k₁ : Kernel} {c : Slot} {d : Frame} {m n : Nat}

private theorem matches_of_not_shadowed (hs : (k.space c).Sound (· = d))
    (hP : hasFlag (k.pte d n) .P = false) (h : (k.proc c).Shadowed (n * pgSize) = false) :
    (k.space c).Matches n := by
  have hfirst : ∀ j, (k.proc c).matchIndex (n * pgSize) = some j →
      ((k.proc c).pagesInDisc j).isUsed = true := by
    intro j hj
    simpa [Proc.Shadowed, hj] using h
  have htaken : ∀ a, (k.proc c).taken a = true → (k.proc c).freeRamIndex = none ∧
      (k.proc c).getAvailablePageIndexDisk = some a := by
    intro a ha
    simpa [Proc.taken] using ha
  intro i s₁ j hroom hindex
  cases hroom with
  | free hfree =>
    refine hfirst j ?_
    have hnone : ∀ a, (k.proc c).taken a = false := by
      intro a
      by_contra ha
      have hfull := (k.proc c).freeRamIndex_none (htaken a (by simpa using ha)).1 i
      simp only [space] at hfree
      simp [hfree] at hfull
    simpa [Proc.matchIndex, hnone, Space.discIndex, space] using hindex
  | evicted hevict =>
    obtain ⟨j₀, e, hj₀, hne, hdisc⟩ := hevict.disc hs hP
    have hj : j ≠ j₀ := by
      rintro rfl
      have haddr := Space.discIndex_addr hindex
      rw [hdisc, update_self] at haddr
      exact hne haddr
    rw [hdisc, update_of_ne hj]
    have haddr : ((k.proc c).pagesInDisc j).virtualAddress = n * pgSize := by
      have h₁ := Space.discIndex_addr hindex
      rwa [hdisc, update_of_ne hj] at h₁
    have hspares : (k.proc c).taken j = false := by
      by_contra ha
      exact hj (Option.some.inj ((htaken j (by simpa using ha)).2.symm.trans hj₀))
    cases hmatch : (k.proc c).matchIndex (n * pgSize) with
    | none =>
      have hno := Scan.first_eq_none.mp hmatch j
      simp [haddr, hspares] at hno
    | some a =>
      have hused := hfirst a hmatch
      have ha := Scan.first_spec hmatch
      simp only [Bool.and_eq_true, beq_iff_eq] at ha
      rcases lt_trichotomy a j with hlt | rfl | hlt
      · -- a slot before `j` that still carries the address is the one the eviction overwrote
        have hbefore := Scan.first_least hindex hlt
        have hslot : a = j₀ := by
          by_contra hne'
          rw [hdisc, update_of_ne hne'] at hbefore
          simp only [beq_eq_false_iff_ne] at hbefore
          exact hbefore ha.1
        have hfree := Scan.first_spec hj₀
        rw [← hslot] at hfree
        simp only [space, hused] at hfree
        simp at hfree
      · exact hused
      · have hbefore := Scan.first_least hmatch hlt
        simp [haddr, hspares] at hbefore

/-- The page-in of page 0 is the only one that may go astray; every other operation is admitted. -/
def soundFetch (c : Slot) (k : Kernel) (op : Op) : Bool :=
  !(k.fetches c op == some 0 && (k.proc c).Shadowed 0)

/-- A process whose disc table agrees with its page directory. -/
structure Agreed (cfg : Config) (c : Slot) (d : Frame) (m : Nat) (k : Kernel) : Prop where
  pgdir : (k.proc c).pgdir = d
  sz_lt : (k.proc c).sz < kernBase
  image : (k.space c).Image d m (pages (k.proc c).sz)
  agree : (k.space c).DiscAgree d m
  free : FreeValid cfg k

theorem AfterExec.agreed (h : AfterExec k c) (hfree : FreeValid cfg k)
    (hdisc : ∀ j, ((k.proc c).pagesInDisc j).isUsed = false) :
    Agreed cfg c (k.proc c).pgdir discPages k := by
  have hagree := h.discAgree (le_refl discPages) (fun j hj => absurd j.isLt (by omega))
    fun j _ => hdisc j
  exact ⟨rfl, h.sz_lt, ⟨h.sound, hagree.toFence, h.beyond⟩, hagree, hfree⟩

/-- What a page-in of page `n` finds, where page 0 is not shadowed. -/
theorem Agreed.matches (h : Agreed cfg c d m k) (hn : n < userPages)
    (hPG : hasFlag (k.pte d n) .PG = true) (hsh : n = 0 → (k.proc c).Shadowed 0 = false) :
    (k.space c).Matches n := by
  by_cases hzero : n = 0
  · subst hzero
    have hP := (h.image.sound.paged d 0 rfl hn hPG).1
    refine matches_of_not_shadowed h.image.sound hP ?_
    rw [Nat.zero_mul]
    exact hsh rfl
  · exact Space.matches_of_ne_zero h.image.sound h.agree hn hPG hzero

theorem fetches_some {op : Op} (huser : op.User) (h : k.fetches c op = some n) :
    n < userPages ∧ hasFlag (k.pte (k.proc c).pgdir n) .PG = true := by
  cases op with
  | load a walk =>
    simp only [fetches] at h
    split at h
    · next hcond =>
      obtain rfl : a / pgSize = n := by simpa using h
      rw [Bool.and_eq_true, vpn_of_lt huser] at hcond
      exact ⟨page_lt_userPages huser, hcond.2⟩
    · simp at h
  | store a b walk =>
    simp only [fetches] at h
    split at h
    · next hcond =>
      obtain rfl : a / pgSize = n := by simpa using h
      rw [Bool.and_eq_true, vpn_of_lt huser] at hcond
      exact ⟨page_lt_userPages huser, hcond.2⟩
    · simp at h
  | growproc n => simp [fetches] at h
  | tick => simp [fetches] at h

theorem Agreed.step (h : Agreed cfg c d m k) {op : Op} {e : Event} (huser : op.User)
    (hsound : soundFetch c k op = true) (hstep : k.perform cfg c op = .ok (k', e))
    (hc : k'.Active c) : Agreed cfg c d m k' := by
  obtain ⟨rfl, hsz, hs, ha, hv⟩ := h
  have hmoved := (perform_ok huser hstep).moved hv hsz hs hc
  refine ⟨hmoved.pgdir, hmoved.sz_lt, hmoved.move.image hs, hmoved.move.discAgree hs ha ?_,
    hmoved.free⟩
  intro n hn
  obtain ⟨hlt, hPG⟩ := fetches_some huser hn
  refine Agreed.matches (k := k) (c := c) (m := m) ⟨rfl, hsz, hs, ha, hv⟩ hlt hPG ?_
  rintro rfl
  simpa [soundFetch, hn] using hsound

private theorem Agreed.reached {k₀ : Kernel} {xs : List (Op × Event)} (h : Agreed cfg c d m k₀)
    (hrun : Run (OpStep cfg c (soundFetch c)) k₀ xs k) (hc : k.Active c) : Agreed cfg c d m k := by
  refine hrun.keeps (I := fun k => k.Active c → Agreed cfg c d m k) ?_ (fun _ => h) hc
  intro k₁ x k₂ hI hstep hc₂
  obtain ⟨hc₁, huser, hallow, hperform⟩ := hstep.performed
  exact (hI hc₁).step huser hallow hperform hc₂

/-- Where page 0 is never fetched through an entry that is not in use, and the exec left no used
disc entry behind, the used disc entries are one for one the pages that are paged out, and a
page-in frees exactly the entry of its page. -/
theorem disc_sound_of_run {k₀ : Kernel} {xs : List (Op × Event)} (hstart : AfterExec k₀ c)
    (hfree : FreeValid cfg k₀) (hdisc : ∀ j, ((k₀.proc c).pagesInDisc j).isUsed = false)
    (hrun : Run (OpStep cfg c (soundFetch c)) k₀ xs k) (hc : k.Active c) :
    (k.space c).DiscSound (k.proc c).pgdir ∧
      ∀ a k', a < kernBase → hasFlag (k.pte (k.proc c).pgdir (a / pgSize)) .PG = true →
        (a / pgSize = 0 → (k.proc c).Shadowed 0 = false) →
        k.retrievePage cfg c a = .ok (k', true) →
        (k.space c).PagedIn (k.proc c).pgdir (a / pgSize) (k'.space c) := by
  obtain ⟨hpgdir, hsz, hs, ha, hv⟩ := (hstart.agreed hfree hdisc).reached hrun hc
  rw [← hpgdir] at hs ha
  refine ⟨ha.sound, ?_⟩
  intro a k' hlt hPG hsh hfetch
  have hn := page_lt_userPages hlt
  obtain ⟨mem, k₁, hready, hfetched⟩ := retrievePage_ok hlt hfetch
  have hmatch := Agreed.matches (k := k) (c := c) (m := discPages) ⟨rfl, hsz, hs, ha, hv⟩ hn hPG hsh
  exact (fetched_space hv hs.sound hready hfetched).1.pagedIn hs ha hn hPG hmatch

end Kernel

namespace Solo

variable (s : Solo) {cfg : Config}

theorem freeValid (hcfg : cfg.kernelEnd ≤ 2 ^ 20) : Kernel.FreeValid cfg s.kernel :=
  (s.framesSound hcfg).valid_free

end Solo

namespace Kernel

/-- A page goes out, comes back and is read. -/
theorem disc_sound_of_run_grow_load :
    ∃ k, [(Op.growproc 4096, Event.resized 65536), (.load 0 true, .faulted 0),
        (.load 0 true, .loaded 0 1)].foldlM
          (runOp (Solo.config .FIFO) Solo.main (soundFetch Solo.main)) Solo.full.kernel = some k ∧
      (k.space Solo.main).DiscSound (k.proc Solo.main).pgdir := by
  have hcheck : (([(Op.growproc 4096, Event.resized 65536), (.load 0 true, .faulted 0),
      (.load 0 true, .loaded 0 1)].foldlM
        (runOp (Solo.config .FIFO) Solo.main (soundFetch Solo.main)) Solo.full.kernel).map
          fun k => decide (k.Active Solo.main)) = some true := by decide +kernel
  obtain ⟨k, hk, hc⟩ := Option.map_eq_some_iff.mp hcheck
  exact ⟨k, hk, (disc_sound_of_run Solo.full.afterExec
    (Solo.full.freeValid (le_refl _)) (fun _ => rfl) (.of_foldlM hk) (of_decide_eq_true hc)).1⟩

/-- Two pages go out, the lower disc slot is freed by a shrink, and the fault on page 0 in the
higher one takes the freed slot: page 0 is back, and its disc entry is still in use. -/
theorem disc_entry_leaked :
    ∃ k, Run (OpStep (Solo.config .AGING) Solo.main anyOp) Solo.late.kernel Solo.staleRun k ∧
      AfterExec Solo.late.kernel Solo.main ∧
      (∀ j, ((Solo.late.kernel.proc Solo.main).pagesInDisc j).isUsed = false) ∧
      k.Active Solo.main ∧ ¬ (k.space Solo.main).DiscSound (k.proc Solo.main).pgdir := by
  have hcheck : ((Solo.staleRun.foldlM (runOp (Solo.config .AGING) Solo.main anyOp)
      Solo.late.kernel).map fun k => decide (k.Active Solo.main ∧
        ((k.proc Solo.main).pagesInDisc ⟨1, by decide⟩).isUsed = true ∧
        ((k.proc Solo.main).pagesInDisc ⟨1, by decide⟩).virtualAddress = 0 ∧
        hasFlag (k.pte (k.proc Solo.main).pgdir 0) .PG = false)) = some true := by decide +kernel
  obtain ⟨k, hk, hfacts⟩ := Option.map_eq_some_iff.mp hcheck
  obtain ⟨hc, hused, haddr, hPG⟩ := of_decide_eq_true hfacts
  refine ⟨k, .of_foldlM hk, Solo.late.afterExec, fun _ => rfl, hc, ?_⟩
  intro hsound
  obtain ⟨n, -, hnames, hPG'⟩ := hsound.page _ hused
  have hn : n = 0 := Space.page_ext (by rw [Nat.zero_mul, ← haddr]; exact hnames.addr.symm)
  subst hn
  rw [show (k.space Solo.main).pte = k.pte from rfl, hPG] at hPG'
  simp at hPG'

end Kernel

end OsSessional.Paging
