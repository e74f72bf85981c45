import OsSessional.Paging.Proc

/-!
# Address spaces as the pager's tables see them

What one process's two metadata tables can name: the entries of the page directories, the two
tables and the swap file. Frames, contents and other processes play no part here. The kernel
operations act on this view by a few updates, and the agreement between page table and metadata
is kept by each of them.
-/

namespace OsSessional.Paging

open Function (update update_self update_of_ne)

structure Space where
  pte : Frame → Nat → PTE
  ram : RamTable
  disc : DiscTable
  swap : Option SwapFile

def Kernel.space (k : Kernel) (c : Slot) : Space :=
  ⟨k.pte, (k.proc c).pagesInPhysicalMemory, (k.proc c).pagesInDisc, (k.proc c).swapFile⟩

/-- One entry replaced. -/
def setEntry (E : Frame → Nat → PTE) (d : Frame) (n : Nat) (v : PTE) : Frame → Nat → PTE :=
  fun d' n' => if d' = d ∧ n' = n then v else E d' n'

@[simp] theorem setEntry_self (E : Frame → Nat → PTE) (d : Frame) (n : Nat) (v : PTE) :
    setEntry E d n v d n = v := by
  simp [setEntry]

theorem setEntry_of_ne {E : Frame → Nat → PTE} {d d' : Frame} {n n' : Nat} {v : PTE}
    (h : d' = d → n' ≠ n) : setEntry E d n v d' n' = E d' n' := by
  unfold setEntry
  rw [if_neg]
  exact fun ⟨hd, hn⟩ => h hd hn

theorem Kernel.setPte_pte_eq {k : Kernel} {d : Frame} {n : Nat} {v : PTE}
    (h : k.hasTable d n) : (k.setPte d n v).pte = setEntry k.pte d n v := by
  funext d' n'
  rw [Kernel.setPte_pte h]
  rfl

/-- A table entry names the page with number `n` of directory `d`. -/
structure Names (e : PageData) (d : Frame) (n : Nat) : Prop where
  dir : e.pageDirectory = d
  addr : e.virtualAddress = n * pgSize

theorem vpn_mul {n : Nat} (h : n < userPages) : vpn (n * pgSize) = n := by
  have hn : n < 2 ^ 20 := lt_trans h (by decide)
  simp only [vpn, pgSize]
  omega

/-- What the disc entry of an evicted page takes over from its RAM entry. -/
structure IsNote (note : PageData → PageData → PageData) : Prop where
  used : ∀ v o, (note v o).isUsed = true
  dir : ∀ v o, (note v o).pageDirectory = v.pageDirectory
  addr : ∀ v o, (note v o).virtualAddress = v.virtualAddress

theorem isNote_reallocateNote : IsNote Kernel.reallocateNote := ⟨by simp [Kernel.reallocateNote],
  fun _ _ => rfl, fun _ _ => rfl⟩

theorem isNote_retrieveNote : IsNote Kernel.retrieveNote := ⟨by simp [Kernel.retrieveNote],
  fun _ _ => rfl, fun _ _ => rfl⟩

namespace Space

/-- Page `n` of `d` is neither present nor paged out. -/
def Unmapped (s : Space) (d : Frame) (n : Nat) : Prop :=
  hasFlag (s.pte d n) .P = false ∧ hasFlag (s.pte d n) .PG = false

variable (L : Frame → Prop) (s : Space)

/-- The RAM table is sound for the live directories `L`: what it names is present, nothing is
named twice, and a paged-out entry is neither present nor keeps an address. -/
structure Sound : Prop where
  ram : ∀ i, (s.ram i).isUsed = true → ∃ d n, L d ∧ n < userPages ∧ Names (s.ram i) d n ∧
    hasFlag (s.pte d n) .P = true
  inj : ∀ i i' d n, (s.ram i).isUsed = true → (s.ram i').isUsed = true →
    Names (s.ram i) d n → Names (s.ram i') d n → i = i'
  paged : ∀ d n, L d → n < userPages → hasFlag (s.pte d n) .PG = true →
    hasFlag (s.pte d n) .P = false ∧ pteAddr (s.pte d n) = 0

variable {L s}

theorem Sound.pageAt (h : Sound L s) {i : Fin maxPyscPages} (hi : (s.ram i).isUsed = true) :
    ∃ n, n < userPages ∧ (s.ram i).virtualAddress = n * pgSize ∧ L (s.ram i).pageDirectory ∧
      vpn (s.ram i).virtualAddress = n ∧ hasFlag (s.pte (s.ram i).pageDirectory n) .P = true := by
  obtain ⟨d, n, hd, hn, hnames, hP⟩ := h.ram i hi
  obtain rfl := hnames.dir
  exact ⟨n, hn, hnames.addr, hd, by rw [hnames.addr, vpn_mul hn], hP⟩

theorem Sound.not_paged (h : Sound L s) {d : Frame} {n : Nat} (hd : L d) (hn : n < userPages)
    (hP : hasFlag (s.pte d n) .P = true) : hasFlag (s.pte d n) .PG = false := by
  by_contra hPG
  have := (h.paged d n hd hn (by simpa using hPG)).1
  simp [hP] at this

theorem page_ext {m n : Nat} (h : m * pgSize = n * pgSize) : m = n :=
  Nat.eq_of_mul_eq_mul_right (by decide) h

/-- RAM slot `i` is written out to disc slot `j`. -/
def evict (s : Space) (note : PageData → PageData → PageData) (i : Fin maxPyscPages)
    (j : Fin discPages) (f : SwapFile) : Space :=
  let d := (s.ram i).pageDirectory
  let n := vpn (s.ram i).virtualAddress
  { pte := setEntry s.pte d n (pageOutPte (s.pte d n))
    ram := update s.ram i { s.ram i with isUsed := false }
    disc := update s.disc j (note (s.ram i) (s.disc j))
    swap := some f }

theorem Sound.evict (h : Sound L s) {note : PageData → PageData → PageData}
    {i : Fin maxPyscPages} {j : Fin discPages} {f : SwapFile} (hi : (s.ram i).isUsed = true) :
    Sound L (s.evict note i j f) := by
  obtain ⟨m, hm, haddr, hL, hvpn, hP⟩ := h.pageAt hi
  have other : ∀ i', ((s.evict note i j f).ram i').isUsed = true →
      i' ≠ i ∧ (s.evict note i j f).ram i' = s.ram i' := by
    intro i' hi'
    have hne : i' ≠ i := by
      rintro rfl
      simp [Space.evict] at hi'
    exact ⟨hne, by simp [Space.evict, hne]⟩
  refine ⟨?_, ?_, ?_⟩
  · intro i' hi'
    obtain ⟨hne, heq⟩ := other i' hi'
    rw [heq] at hi' ⊢
    obtain ⟨d, n, hd, hn, hnames, hP'⟩ := h.ram i' hi'
    refine ⟨d, n, hd, hn, hnames, ?_⟩
    simp only [Space.evict]
    rw [setEntry_of_ne, hP']
    rintro rfl hnm
    rw [hvpn] at hnm
    subst hnm
    exact hne (h.inj i' i _ _ hi' hi hnames ⟨rfl, haddr⟩)
  · intro i' i'' d n hi' hi'' hn' hn''
    obtain ⟨_, he'⟩ := other i' hi'
    obtain ⟨_, he''⟩ := other i'' hi''
    rw [he'] at hi' hn'
    rw [he''] at hi'' hn''
    exact h.inj i' i'' d n hi' hi'' hn' hn''
  · intro d n hd hn hPG
    simp only [Space.evict, hvpn] at hPG ⊢
    by_cases hat : d = (s.ram i).pageDirectory ∧ n = m
    · obtain ⟨rfl, rfl⟩ := hat
      rw [setEntry_self]
      exact ⟨by simp [hasFlag_pageOutPte], by simp⟩
    · rw [setEntry_of_ne (fun h1 h2 => hat ⟨h1, h2⟩)] at hPG ⊢
      exact h.paged d n hd hn hPG

/-- No used RAM entry names page `n` of `d`. -/
def Untracked (s : Space) (d : Frame) (n : Nat) : Prop :=
  ∀ i, (s.ram i).isUsed = true → ¬ Names (s.ram i) d n

theorem Sound.untracked (h : Sound L s) {d : Frame} {n : Nat} (hn : n < userPages)
    (hP : hasFlag (s.pte d n) .P = false) : s.Untracked d n := by
  intro i hi hnames
  obtain ⟨m, hm, haddr, -, -, hP'⟩ := h.pageAt hi
  obtain rfl : m = n := page_ext (haddr.symm.trans hnames.addr)
  rw [hnames.dir, hP] at hP'
  exact absurd hP' (by simp)

private theorem Sound.of_ram (h : Sound L s) {ram : RamTable}
    (hsub : ∀ i, (ram i).isUsed = true → ram i = s.ram i) : Sound L { s with ram := ram } where
  ram i hi := by
    have heq := hsub i hi
    simp only [heq] at hi ⊢
    exact h.ram i hi
  inj i i' d n hi hi' hn hn' := by
    have heq := hsub i hi
    have heq' := hsub i' hi'
    simp only [heq] at hi hn
    simp only [heq'] at hi' hn'
    exact h.inj i i' d n hi hi' hn hn'
  paged := h.paged

/-- Entry `n` of `d` replaced. -/
def map (s : Space) (d : Frame) (n : Nat) (v : PTE) : Space := { s with pte := setEntry s.pte d n v }

/-- An entry may become present. -/
theorem Sound.map (h : Sound L s) {d : Frame} {n : Nat} {v : PTE} (hP : hasFlag v .P = true)
    (hPG : hasFlag v .PG = false) : Sound L (s.map d n v) where
  ram i hi := by
    obtain ⟨d', n', hd', hn', hnames, hP'⟩ := h.ram i hi
    refine ⟨d', n', hd', hn', hnames, ?_⟩
    simp only [Space.map, setEntry]
    split
    · exact hP
    · exact hP'
  inj := h.inj
  paged d' n' hd' hn' hPG' := by
    simp only [Space.map, setEntry] at hPG' ⊢
    split
    · next heq => simp [heq, hPG] at hPG'
    · next hne =>
      rw [if_neg hne] at hPG'
      exact h.paged d' n' hd' hn' hPG'

private theorem Sound.unmap (h : Sound L s) {d : Frame} {n : Nat} (hfree : s.Untracked d n) :
    Sound L (s.map d n 0) where
  ram i hi := by
    obtain ⟨d', n', hd', hn', hnames, hP'⟩ := h.ram i hi
    refine ⟨d', n', hd', hn', hnames, ?_⟩
    simp only [Space.map]
    rw [setEntry_of_ne, hP']
    rintro rfl rfl
    exact hfree i hi hnames
  inj := h.inj
  paged d' n' hd' hn' hPG' := by
    simp only [Space.map, setEntry] at hPG' ⊢
    split
    · next heq => simp [heq] at hPG'
    · next hne =>
      rw [if_neg hne] at hPG'
      exact h.paged d' n' hd' hn' hPG'

/-- RAM slot `i` filled. -/
def track (s : Space) (i : Fin maxPyscPages) (e : PageData) : Space :=
  { s with ram := update s.ram i e }

theorem Sound.track (h : Sound L s) {i : Fin maxPyscPages} {e : PageData}
    (he : e.isUsed = true → ∃ d n, L d ∧ n < userPages ∧ Names e d n ∧
      hasFlag (s.pte d n) .P = true ∧ s.Untracked d n) : Sound L (s.track i e) where
  ram i' hi' := by
    by_cases hii : i' = i
    · subst hii
      simp only [Space.track, update_self] at hi' ⊢
      obtain ⟨d, n, hd, hn, hnames, hP, -⟩ := he hi'
      exact ⟨d, n, hd, hn, hnames, hP⟩
    · simp only [Space.track, update_of_ne hii] at hi' ⊢
      exact h.ram i' hi'
  inj i₁ i₂ d n h₁ h₂ hn₁ hn₂ := by
    by_cases hi₁ : i₁ = i <;> by_cases hi₂ : i₂ = i
    · rw [hi₁, hi₂]
    · subst hi₁
      simp only [Space.track, update_self, update_of_ne hi₂] at h₁ h₂ hn₁ hn₂
      obtain ⟨d', n', -, -, hnames, -, hfree⟩ := he h₁
      obtain rfl : d' = d := hnames.dir.symm.trans hn₁.dir
      obtain rfl : n' = n := page_ext (hnames.addr.symm.trans hn₁.addr)
      exact absurd hn₂ (hfree i₂ h₂)
    · subst hi₂
      simp only [Space.track, update_self, update_of_ne hi₁] at h₁ h₂ hn₁ hn₂
      obtain ⟨d', n', -, -, hnames, -, hfree⟩ := he h₂
      obtain rfl : d' = d := hnames.dir.symm.trans hn₂.dir
      obtain rfl : n' = n := page_ext (hnames.addr.symm.trans hn₂.addr)
      exact absurd hn₁ (hfree i₁ h₁)
    · simp only [Space.track, update_of_ne hi₁, update_of_ne hi₂] at h₁ h₂ hn₁ hn₂
      exact h.inj i₁ i₂ d n h₁ h₂ hn₁ hn₂
  paged := h.paged

section Removal

variable {m : Nat} {table : Fin m → PageData} {d : Frame} {n : Nat}

theorem namedIndex_some {i : Fin m} (h : Proc.namedIndex table d (n * pgSize) = some i) :
    (table i).isUsed = true ∧ Names (table i) d n := by
  have hspec := Scan.first_spec h
  simp only [Bool.and_eq_true, beq_iff_eq] at hspec
  exact ⟨hspec.1.1, hspec.1.2, hspec.2⟩

theorem namedIndex_none (h : Proc.namedIndex table d (n * pgSize) = none) (i : Fin m)
    (hi : (table i).isUsed = true) : ¬ Names (table i) d n := by
  intro hnames
  have hnone := Scan.first_eq_none.mp h i
  simp [hi, hnames.dir, hnames.addr] at hnone

/-- The slots a removal leaves in use are as they were. -/
theorem removeFrom_used {i : Fin m}
    (hi : (Proc.removeFrom table d (n * pgSize) i).isUsed = true) :
    Proc.removeFrom table d (n * pgSize) i = table i ∧ (table i).isUsed = true := by
  unfold Proc.removeFrom at hi ⊢
  cases hidx : Proc.namedIndex table d (n * pgSize) with
  | none => simpa [hidx] using hi
  | some i₀ =>
    simp only [hidx] at hi ⊢
    have hne : i ≠ i₀ := by
      rintro rfl
      simp [Proc.cleared] at hi
    rw [update_of_ne hne] at hi ⊢
    exact ⟨rfl, hi⟩

/-- A removal only touches a slot that names the page. -/
theorem removeFrom_of_ne {i : Fin m} (hi : (table i).isUsed = true → ¬ Names (table i) d n) :
    Proc.removeFrom table d (n * pgSize) i = table i := by
  unfold Proc.removeFrom
  cases hidx : Proc.namedIndex table d (n * pgSize) with
  | none => rfl
  | some i₀ =>
    obtain ⟨hused, hnames⟩ := namedIndex_some hidx
    have hne : i ≠ i₀ := by
      rintro rfl
      exact hi hused hnames
    simp [hne]

private theorem removeFrom_unnamed
    (hinj : ∀ i i', (table i).isUsed = true → (table i').isUsed = true →
      Names (table i) d n → Names (table i') d n → i = i') (i : Fin m)
    (hi : (Proc.removeFrom table d (n * pgSize) i).isUsed = true) :
    ¬ Names (Proc.removeFrom table d (n * pgSize) i) d n := by
  obtain ⟨heq, hused⟩ := removeFrom_used hi
  rw [heq]
  intro hnames
  unfold Proc.removeFrom at hi
  cases hidx : Proc.namedIndex table d (n * pgSize) with
  | none => exact namedIndex_none hidx i hused hnames
  | some i₀ =>
    obtain ⟨hused₀, hnames₀⟩ := namedIndex_some hidx
    obtain rfl := hinj i i₀ hused hused₀ hnames hnames₀
    simp [hidx, Proc.cleared] at hi

end Removal

/-- A present page unmapped, with its RAM entry. -/
def dropRam (s : Space) (d : Frame) (n : Nat) : Space :=
  { s with pte := setEntry s.pte d n 0, ram := Proc.removeFrom s.ram d (n * pgSize) }

/-- A paged-out page unmapped, with its disc entry. -/
def dropDisc (s : Space) (d : Frame) (n : Nat) : Space :=
  { s with pte := setEntry s.pte d n 0, disc := Proc.removeFrom s.disc d (n * pgSize) }

theorem Sound.dropRam (h : Sound L s) (d : Frame) (n : Nat) : Sound L (s.dropRam d n) := by
  have hram : Sound L { s with ram := Proc.removeFrom s.ram d (n * pgSize) } :=
    h.of_ram fun i hi => (removeFrom_used hi).1
  exact hram.unmap (removeFrom_unnamed fun i i' => h.inj i i' d n)

theorem Sound.dropDisc (h : Sound L s) {d : Frame} {n : Nat} (hn : n < userPages)
    (hP : hasFlag (s.pte d n) .P = false) : Sound L (s.dropDisc d n) := by
  have hclear := h.unmap (h.untracked hn hP)
  exact ⟨hclear.ram, hclear.inj, hclear.paged⟩

/-- Disc entry `j` moved to RAM slot `i`. -/
def move (s : Space) (j : Fin discPages) (i : Fin maxPyscPages) (t : Int) : Space :=
  { s with
    ram := update s.ram i { s.disc j with timer := t }
    disc := update s.disc j { s.disc j with isUsed := false } }

theorem Sound.move (h : Sound L s) {j : Fin discPages} {i : Fin maxPyscPages} {t : Int}
    (hj : (s.disc j).isUsed = true → ∃ d n, L d ∧ n < userPages ∧ Names (s.disc j) d n ∧
      hasFlag (s.pte d n) .P = true ∧ s.Untracked d n) : Sound L (s.move j i t) := by
  have htrack : Sound L (s.track i { s.disc j with timer := t }) := by
    refine h.track ?_
    intro hused
    obtain ⟨d, n, hd, hn, hnames, hP, hfree⟩ := hj hused
    exact ⟨d, n, hd, hn, ⟨hnames.dir, hnames.addr⟩, hP, hfree⟩
  exact ⟨htrack.ram, htrack.inj, htrack.paged⟩

/-- Two entries that agree on everything but the accessed bit. -/
structure SameEntry (p q : PTE) : Prop where
  flag : ∀ f, f ≠ .A → hasFlag p f = hasFlag q f
  addr : pteAddr p = pteAddr q

theorem SameEntry.refl (p : PTE) : SameEntry p p := ⟨fun _ _ => rfl, rfl⟩

private theorem SameEntry.trans {p q r : PTE} (h : SameEntry p q) (h' : SameEntry q r) : SameEntry p r :=
  ⟨fun f hf => (h.flag f hf).trans (h'.flag f hf), h.addr.trans h'.addr⟩

theorem sameEntry_clearA (p : PTE) : SameEntry (p &&& ~~~pteA) p := by
  refine ⟨?_, pteAddr_and_not_flag p .A⟩
  intro f hf
  have hclear := hasFlag_clear p .A f
  rw [show p &&& ~~~pteA = p &&& ~~~Flag.mask .A from rfl, hclear]
  simp [Ne.symm hf]

theorem sameEntry_setA (p : PTE) : SameEntry (p ||| pteA) p := by
  refine ⟨?_, pteAddr_set p .A⟩
  intro f hf
  have hset := hasFlag_set p .A f
  rw [show p ||| pteA = p ||| Flag.mask .A from rfl, hset]
  simp [Ne.symm hf]

/-- Two spaces whose entries agree up to the accessed bit and whose RAM entries agree on what
they name. -/
structure Alike (s s' : Space) : Prop where
  pte : ∀ d n, SameEntry (s'.pte d n) (s.pte d n)
  ram : ∀ i, (s'.ram i).isUsed = (s.ram i).isUsed ∧
    (s'.ram i).pageDirectory = (s.ram i).pageDirectory ∧
    (s'.ram i).virtualAddress = (s.ram i).virtualAddress
  disc : s'.disc = s.disc
  swap : s'.swap = s.swap

theorem Alike.refl (s : Space) : Alike s s :=
  ⟨fun _ _ => .refl _, fun _ => ⟨rfl, rfl, rfl⟩, rfl, rfl⟩

theorem Alike.trans {s₁ s₂ s₃ : Space} (h : Alike s₁ s₂) (h' : Alike s₂ s₃) : Alike s₁ s₃ where
  pte d n := (h'.pte d n).trans (h.pte d n)
  ram i := by
    obtain ⟨hused, hdir, haddr⟩ := h.ram i
    rw [← hused, ← hdir, ← haddr]
    exact h'.ram i
  disc := h'.disc.trans h.disc
  swap := h'.swap.trans h.swap

theorem Alike.names {s' : Space} (h : Alike s s') {i : Fin maxPyscPages} {d : Frame} {n : Nat} :
    Names (s'.ram i) d n ↔ Names (s.ram i) d n := by
  obtain ⟨-, hdir, haddr⟩ := h.ram i
  constructor
  · exact fun ⟨h1, h2⟩ => ⟨hdir ▸ h1, haddr ▸ h2⟩
  · exact fun ⟨h1, h2⟩ => ⟨hdir ▸ h1, haddr ▸ h2⟩

theorem Sound.alike {s' : Space} (h : Sound L s) (ha : Alike s s') : Sound L s' where
  ram i hi := by
    rw [(ha.ram i).1] at hi
    obtain ⟨d, n, hd, hn, hnames, hP⟩ := h.ram i hi
    exact ⟨d, n, hd, hn, ha.names.mpr hnames, by rw [(ha.pte d n).flag .P (by decide), hP]⟩
  inj i i' d n hi hi' hn hn' := by
    rw [(ha.ram i).1] at hi
    rw [(ha.ram i').1] at hi'
    exact h.inj i i' d n hi hi' (ha.names.mp hn) (ha.names.mp hn')
  paged d n hd hn hPG := by
    rw [(ha.pte d n).flag .PG (by decide)] at hPG
    obtain ⟨hP, haddr⟩ := h.paged d n hd hn hPG
    exact ⟨by rw [(ha.pte d n).flag .P (by decide), hP], by rw [(ha.pte d n).addr, haddr]⟩

end Space

end OsSessional.Paging
