import OsSessional.Paging.Disc

/-!
# One image under the pager

Placing, dropping and fetching a page as the tables of one process see them, and what each keeps:
the soundness of the RAM table, the fence of the disc table and, where no page-in goes astray, the
agreement of the disc table and the tracking of every present page. The kernel operations act as
these steps.
-/

namespace OsSessional.Paging

open Function (update update_self update_of_ne)

namespace Space

variable {s s' : Space} {d : Frame} {m n hi : Nat}

/-- An eviction with all its guards. -/
inductive Evict (s : Space) : Fin maxPyscPages → Space → Prop
  | intro {note : PageData → PageData → PageData} {i : Fin maxPyscPages} {j : Fin discPages}
      {f : SwapFile} {src : Nat → Byte} (hnote : IsNote note) (hi : (s.ram i).isUsed = true)
      (hj : Scan.first (fun j => !(s.disc j).isUsed) = some j) (hf : s.swap = some f)
      (hroom : pgSize * j ≤ f.size) :
      Evict s i (s.evict note i j (f.overlay src (pgSize * j) pgSize))

/-- An entry as `allocuvm` and `retrievePage` make it: present, writable and user. -/
structure UserPte (v : PTE) : Prop where
  present : hasFlag v .P = true
  inMemory : hasFlag v .PG = false
  writable : hasFlag v .W = true
  user : hasFlag v .U = true

/-- Page `n` is mapped and, where there is or can be made room, tracked in slot `i`. -/
inductive Place (d : Frame) (n : Nat) (s : Space) : Space → Prop
  | untracked {v : PTE} (habsent : hasFlag (s.pte d n) .P = false) (hv : UserPte v) :
      Place d n s (s.map d n v)
  | tracked {v : PTE} {i : Fin maxPyscPages} {e : PageData}
      (habsent : hasFlag (s.pte d n) .P = false) (hv : UserPte v)
      (hfree : (s.ram i).isUsed = false) (hnames : Names e d n) (hused : e.isUsed = true) :
      Place d n s ((s.map d n v).track i e)
  | evicting {v : PTE} {i : Fin maxPyscPages} {e : PageData} {s₁ : Space}
      (habsent : hasFlag (s.pte d n) .P = false) (hv : UserPte v)
      (hevict : Evict (s.map d n v) i s₁) (hnames : Names e d n) (hused : e.isUsed = true) :
      Place d n s (s₁.track i e)

/-- Page `n` is unmapped, if it is mapped at all. -/
inductive Drop (d : Frame) (n : Nat) (s : Space) : Space → Prop
  | present (hP : hasFlag (s.pte d n) .P = true) : Drop d n s (s.dropRam d n)
  | paged (hP : hasFlag (s.pte d n) .P = false) (hPG : hasFlag (s.pte d n) .PG = true) :
      Drop d n s (s.dropDisc d n)
  | unmapped (h : s.Unmapped d n) : Drop d n s s

/-- RAM slot `i` is available, if need be through an eviction. -/
inductive Room (i : Fin maxPyscPages) (s : Space) : Space → Prop
  | free (h : (s.ram i).isUsed = false) : Room i s s
  | evicted {s₁ : Space} (h : Evict s i s₁) : Room i s s₁

/-- Page `n` is fetched: marked present, and the entry that carries its address moved. -/
inductive Fetch (d : Frame) (n : Nat) (s : Space) : Space → Bool → Prop
  | noVictim : Fetch d n s s false
  | missing {i : Fin maxPyscPages} {s₁ : Space} {v : PTE} (hroom : Room i s s₁)
      (habsent : hasFlag (s₁.pte d n) .P = false) (hv : UserPte v)
      (hindex : s₁.discIndex (n * pgSize) = none) : Fetch d n s (s₁.map d n v) true
  | unread {i : Fin maxPyscPages} {s₁ : Space} {v : PTE} (hroom : Room i s s₁)
      (habsent : hasFlag (s₁.pte d n) .P = false) (hv : UserPte v) :
      Fetch d n s (s₁.map d n v) false
  | moved {i : Fin maxPyscPages} {s₁ : Space} {v : PTE} {j : Fin discPages} {t : Int}
      (hroom : Room i s s₁) (habsent : hasFlag (s₁.pte d n) .P = false) (hv : UserPte v)
      (hindex : s₁.discIndex (n * pgSize) = some j) :
      Fetch d n s ((s₁.map d n v).move j i t) true

/-- What holds of every image at every moment: pages from `hi` on are unmapped. -/
structure Image (d : Frame) (m hi : Nat) (s : Space) : Prop where
  sound : Sound (· = d) s
  fence : Fence d m s
  beyond : ∀ n, hi ≤ n → n < userPages → s.Unmapped d n

private theorem unmapped_map {v : PTE} {n' : Nat} (hne : n' ≠ n) (h : s.Unmapped d n') :
    (s.map d n v).Unmapped d n' := by
  simp only [Unmapped, Space.map]
  rw [setEntry_of_ne fun _ => hne]
  exact h

/-- An eviction concerns a present page, and marks it paged out. -/
theorem Evict.pte {i : Fin maxPyscPages} (h : Evict s i s') (hs : Sound (· = d) s) :
    ∃ v, v < userPages ∧ Names (s.ram i) d v ∧ hasFlag (s.pte d v) .P = true ∧
      s'.pte = setEntry s.pte d v (pageOutPte (s.pte d v)) := by
  obtain ⟨hnote, hi, hj, hf, hroom⟩ := h
  obtain ⟨v, hv, haddr, hdir, hvpn, hP⟩ := hs.pageAt hi
  refine ⟨v, hv, ⟨hdir, haddr⟩, by rwa [hdir] at hP, ?_⟩
  simp only [Space.evict, hvpn, hdir]

private theorem Evict.free {i : Fin maxPyscPages} (h : Evict s i s') : (s'.ram i).isUsed = false := by
  obtain ⟨hnote, hi, hj, hf, hroom⟩ := h
  simp [Space.evict]

private theorem Evict.ram_of_ne {i i' : Fin maxPyscPages} (h : Evict s i s') (hne : i' ≠ i) :
    s'.ram i' = s.ram i' := by
  obtain ⟨hnote, hi, hj, hf, hroom⟩ := h
  simp [Space.evict, hne]

private theorem Evict.sound {i : Fin maxPyscPages} {L : Frame → Prop} (h : Evict s i s')
    (hs : Sound L s) : Sound L s' := by
  obtain ⟨hnote, hi, hj, hf, hroom⟩ := h
  exact hs.evict hi

private theorem Evict.image {i : Fin maxPyscPages} (h : Evict s i s') (hs : Image d m hi s) :
    Image d m hi s' := by
  obtain ⟨v, hv, -, hP, hpte⟩ := h.pte hs.sound
  refine ⟨h.sound hs.sound, ?_, ?_⟩
  · obtain ⟨hnote, hused, hj, hf, hroom⟩ := h
    exact hs.fence.evict hs.sound hnote hused (by simpa using Scan.first_spec hj) hf hroom
  · intro n hn hlt
    have hun := hs.beyond n hn hlt
    have hne : n ≠ v := by
      rintro rfl
      simp [hun.1] at hP
    simp only [Unmapped, hpte]
    rw [setEntry_of_ne fun _ => hne]
    exact hun

private theorem Evict.discAgree {i : Fin maxPyscPages} (h : Evict s i s') (hs : Sound (· = d) s)
    (ha : DiscAgree d m s) : DiscAgree d m s' := by
  obtain ⟨hnote, hused, hj, hf, hroom⟩ := h
  exact ha.evict hs hnote hused hj hf hroom

private theorem Evict.untracked {i : Fin maxPyscPages} (h : Evict s i s') (hfree : s.Untracked d n) :
    s'.Untracked d n := by
  intro i' hused
  have hne : i' ≠ i := by
    rintro rfl
    simp [h.free] at hused
  rw [h.ram_of_ne hne] at hused ⊢
  exact hfree i' hused

theorem Room.image {i : Fin maxPyscPages} (h : Room i s s') (hs : Image d m hi s) :
    Image d m hi s' := by
  cases h with
  | free h => exact hs
  | evicted h => exact h.image hs

theorem Room.discAgree {i : Fin maxPyscPages} (h : Room i s s') (hs : Sound (· = d) s)
    (ha : DiscAgree d m s) : DiscAgree d m s' := by
  cases h with
  | free h => exact ha
  | evicted h => exact h.discAgree hs ha

private theorem Room.free_slot {i : Fin maxPyscPages} (h : Room i s s') : (s'.ram i).isUsed = false := by
  cases h with
  | free h => exact h
  | evicted h => exact h.free

/-- Making room changes no entry but that of a present page. -/
theorem Room.pte_of_absent {i : Fin maxPyscPages} (h : Room i s s') (hs : Sound (· = d) s)
    (habsent : hasFlag (s.pte d n) .P = false) : s'.pte d n = s.pte d n := by
  cases h with
  | free h => rfl
  | evicted h =>
    obtain ⟨v, -, -, hP, hpte⟩ := h.pte hs
    rw [hpte, setEntry_of_ne]
    rintro - rfl
    simp [habsent] at hP

section Place

variable (h : Place d n s s')
include h

theorem Place.image (hn : n < userPages) (hs : Image d m n s) : Image d m (n + 1) s' := by
  have hmap : ∀ {v : PTE}, UserPte v → Image d m (n + 1) (s.map d n v) := by
    intro v hv
    refine ⟨hs.sound.map hv.present hv.inMemory, hs.fence.map hv.inMemory, ?_⟩
    intro n' hn' hlt
    exact unmapped_map (by omega) (hs.beyond n' (by omega) hlt)
  cases h with
  | untracked habsent hv => exact hmap hv
  | @tracked v i e habsent hv hfree hnames hused =>
    have himage := hmap hv
    refine ⟨himage.sound.track fun _ => ?_, himage.fence.track, himage.beyond⟩
    exact ⟨d, n, rfl, hn, hnames, by simpa [Space.map] using hv.present, hs.sound.untracked hn habsent⟩
  | @evicting v i e s₁ habsent hv hevict hnames hused =>
    have hfree : (s.map d n v).Untracked d n := hs.sound.untracked hn habsent
    have himage := hevict.image (hmap hv)
    refine ⟨himage.sound.track fun _ => ?_, himage.fence.track, himage.beyond⟩
    obtain ⟨w, -, hwnames, -, hpte⟩ := hevict.pte (hs.sound.map hv.present hv.inMemory)
    have hused : ((s.map d n v).ram i).isUsed = true := by
      obtain ⟨_, hi, _, _, _⟩ := hevict
      exact hi
    have hne : n ≠ w := by
      rintro rfl
      exact hfree i hused hwnames
    refine ⟨d, n, rfl, hn, hnames, ?_, hevict.untracked hfree⟩
    rw [hpte, setEntry_of_ne fun _ => hne]
    simpa [Space.map] using hv.present

theorem Place.discAgree (hn : n < userPages) (hs : Image d m n s) (ha : DiscAgree d m s) :
    DiscAgree d m s' := by
  have hPG₀ := (hs.beyond n (le_refl _) hn).2
  cases h with
  | untracked habsent hv => exact ha.map hv.inMemory hPG₀
  | tracked habsent hv hfree hnames hused => exact (ha.map hv.inMemory hPG₀).track
  | evicting habsent hv hevict hnames hused =>
    exact (hevict.discAgree (hs.sound.map hv.present hv.inMemory) (ha.map hv.inMemory hPG₀)).track

end Place

section Drop

variable (h : Drop d n s s')
include h

theorem Drop.image (hn : n < userPages) (hs : Image d m hi s) : Image d m hi s' := by
  have hbeyond : ∀ {s₁ : Space}, s₁.pte = setEntry s.pte d n 0 →
      ∀ n', hi ≤ n' → n' < userPages → s₁.Unmapped d n' := by
    intro s₁ hpte n' hn' hlt
    simp only [Unmapped, hpte, setEntry]
    split
    · simp
    · exact hs.beyond n' hn' hlt
  cases h with
  | present hP => exact ⟨hs.sound.dropRam d n, hs.fence.dropRam, hbeyond rfl⟩
  | paged hP hPG => exact ⟨hs.sound.dropDisc hn hP, hs.fence.dropDisc hn hPG, hbeyond rfl⟩
  | unmapped h => exact hs

private theorem Drop.unmapped_self : s'.Unmapped d n := by
  cases h with
  | present hP => simp [Unmapped, Space.dropRam]
  | paged hP hPG => simp [Unmapped, Space.dropDisc]
  | unmapped h => exact h

theorem Drop.pte_of_ne {n' : Nat} (hne : n' ≠ n) : s'.pte d n' = s.pte d n' := by
  cases h with
  | present hP => exact setEntry_of_ne fun _ => hne
  | paged hP hPG => exact setEntry_of_ne fun _ => hne
  | unmapped h => rfl

theorem Drop.discAgree (hn : n < userPages) (hs : Sound (· = d) s) (ha : DiscAgree d m s) :
    DiscAgree d m s' := by
  cases h with
  | present hP => exact ha.dropRam (hs.not_paged rfl hn hP)
  | paged hP hPG => exact ha.dropDisc hn hPG
  | unmapped h => exact ha

end Drop

/-- After a run of drops the pages it passed are unmapped. -/
theorem dropped_run_unmapped {lo : Nat} (hrun : RangeRun (Drop d) hi lo s s') :
    ∀ n, lo ≤ n → n < hi → s'.Unmapped d n := by
  have hkeep := hrun.keeps (I := fun i s => ∀ n, lo ≤ n → n < i → s.Unmapped d n)
    (fun i s₁ s₂ _ _ hI hd n hn hlt => by
      by_cases hni : n = i
      · subst hni
        exact hd.unmapped_self
      · have hun := hI n hn (by omega)
        simp only [Unmapped, hd.pte_of_ne hni] at hun ⊢
        exact hun) (by omega)
  exact fun n hn hlt => hkeep n hn (by omega)

/-- What page `n` of a fetch finds in the disc table. -/
def Matches (n : Nat) (s : Space) : Prop :=
  ∀ (i : Fin maxPyscPages) s₁ j, Room i s s₁ → s₁.discIndex (n * pgSize) = some j →
    (s₁.disc j).isUsed = true

section Fetch

variable {ok : Bool} (h : Fetch d n s s' ok)
include h

theorem Fetch.image (hn : n < userPages) (hs : Image d m hi s)
    (hPG₀ : hasFlag (s.pte d n) .PG = true) : Image d m hi s' := by
  have hlt : n < hi := by
    by_contra hge
    simp [(hs.beyond n (by omega) hn).2] at hPG₀
  have hmap : ∀ {i : Fin maxPyscPages} {s₁ : Space} {v : PTE}, Room i s s₁ → UserPte v →
      Image d m hi (s₁.map d n v) := by
    intro i s₁ v hroom hv
    have himage := hroom.image hs
    refine ⟨himage.sound.map hv.present hv.inMemory, himage.fence.map hv.inMemory, ?_⟩
    intro n' hn' hlt'
    exact unmapped_map (by omega) (himage.beyond n' hn' hlt')
  cases h with
  | noVictim => exact hs
  | missing hroom habsent hv hindex => exact hmap hroom hv
  | unread hroom habsent hv => exact hmap hroom hv
  | @moved i s₁ v j t hroom habsent hv hindex =>
    have himage := hmap hroom hv
    have himage₁ := hroom.image hs
    have hPG₁ : hasFlag (s₁.pte d n) .PG = true := by
      rw [hroom.pte_of_absent hs.sound (hs.sound.paged d n rfl hn hPG₀).1, hPG₀]
    refine ⟨himage.sound.move fun hused => ?_, himage₁.fence.fetch hn hPG₁ hindex hv.inMemory,
      himage.beyond⟩
    have hjm := himage₁.fence.index_lt hn hPG₁ hindex
    refine ⟨d, n, rfl, hn, ⟨himage₁.fence.own j hjm hused, discIndex_addr hindex⟩, ?_,
      himage₁.sound.untracked hn habsent⟩
    simpa [Space.map] using hv.present

/-- A fetch that served its page through the disc table left every other page as it was. -/
theorem Fetch.discAgree (hn : n < userPages) (hs : Image d m hi s) (ha : DiscAgree d m s)
    (hPG₀ : hasFlag (s.pte d n) .PG = true) (hmatch : Matches n s) (hok : ok = true) :
    DiscAgree d m s' := by
  have hP₀ := (hs.sound.paged d n rfl hn hPG₀).1
  cases h with
  | noVictim => simp at hok
  | missing hroom habsent hv hindex =>
    have hPG₁ := hPG₀
    rw [← hroom.pte_of_absent hs.sound hP₀] at hPG₁
    have hsome := (hroom.image hs).fence.index_isSome hn hPG₁
    simp [hindex] at hsome
  | unread hroom habsent hv => simp at hok
  | @moved i s₁ v j t hroom habsent hv hindex =>
    have hPG₁ := hPG₀
    rw [← hroom.pte_of_absent hs.sound hP₀] at hPG₁
    exact (hroom.discAgree hs.sound ha).fetch hn hPG₁ hindex (hmatch i s₁ j hroom hindex) hv.inMemory

end Fetch

theorem Image.alike (h : Image d m hi s) (ha : Alike s s') : Image d m hi s' where
  sound := h.sound.alike ha
  fence := h.fence.alike ha
  beyond n hn hlt := by
    have hun := h.beyond n hn hlt
    exact ⟨by rw [(ha.pte d n).flag .P (by decide), hun.1],
      by rw [(ha.pte d n).flag .PG (by decide), hun.2]⟩

/-- An image may be cut off at pages that are unmapped. -/
theorem Image.lower (h : Image d m hi s) {lo : Nat}
    (hun : ∀ n, lo ≤ n → n < hi → s.Unmapped d n) : Image d m lo s :=
  ⟨h.sound, h.fence, fun n hn hlt => by
    by_cases hhi : hi ≤ n
    · exact h.beyond n hhi hlt
    · exact hun n hn (by omega)⟩

section Tracked

variable {S : Nat → Prop}

/-- Every present page in `S` has a RAM entry. -/
def TrackedOn (S : Nat → Prop) (d : Frame) (s : Space) : Prop :=
  ∀ n < userPages, S n → hasFlag (s.pte d n) .P = true →
    ∃ i, (s.ram i).isUsed = true ∧ Names (s.ram i) d n

/-- Every present page has a RAM entry. -/
def Tracked (d : Frame) (s : Space) : Prop := TrackedOn (fun _ => True) d s

private theorem TrackedOn.map {v : PTE} (h : TrackedOn S d s) (hn : ¬ S n) :
    TrackedOn S d (s.map d n v) := by
  intro n' hn' hS hP
  have hne : n' ≠ n := by
    rintro rfl
    exact hn hS
  simp only [Space.map] at hP ⊢
  rw [setEntry_of_ne fun _ => hne] at hP
  exact h n' hn' hS hP

private theorem TrackedOn.evict {i : Fin maxPyscPages} (h : TrackedOn S d s) (hs : Sound (· = d) s)
    (he : Evict s i s') : TrackedOn S d s' := by
  obtain ⟨v, -, hv, -, hpte⟩ := he.pte hs
  intro n hn hS hP
  by_cases hnv : n = v
  · subst hnv
    simp [hpte, hasFlag_pageOutPte] at hP
  · rw [hpte, setEntry_of_ne fun _ => hnv] at hP
    obtain ⟨i', hused, hnames⟩ := h n hn hS hP
    have hne : i' ≠ i := by
      rintro rfl
      exact hnv (page_ext (hnames.addr.symm.trans hv.addr))
    exact ⟨i', by rw [he.ram_of_ne hne, hused], by rwa [he.ram_of_ne hne]⟩

private theorem TrackedOn.fill {t : Space} {i : Fin maxPyscPages} {e : PageData}
    (h : TrackedOn S d s) (hfree : (s.ram i).isUsed = false) (hnames : Names e d n)
    (hused : e.isUsed = true) (hpte : ∀ n', n' ≠ n → t.pte d n' = s.pte d n')
    (hram : t.ram = update s.ram i e) : TrackedOn (fun n' => n' = n ∨ S n') d t := by
  intro n' hn' hS hP
  rw [hram]
  by_cases hne : n' = n
  · subst hne
    exact ⟨i, by simpa using hused, by simpa using hnames⟩
  · rw [hpte n' hne] at hP
    obtain ⟨i', hused', hnames'⟩ := h n' hn' (hS.resolve_left hne) hP
    have hii : i' ≠ i := by
      rintro rfl
      simp [hfree] at hused'
    exact ⟨i', by simpa [hii] using hused', by simpa [hii] using hnames'⟩

theorem TrackedOn.mono {S' : Nat → Prop} (h : TrackedOn S d s)
    (hsub : ∀ n, n < userPages → hasFlag (s.pte d n) .P = true → S' n → S n) :
    TrackedOn S' d s :=
  fun n hn hS hP => h n hn (hsub n hn hP hS) hP

theorem TrackedOn.drop (h : TrackedOn S d s) (hdrop : Drop d n s s') : TrackedOn S d s' := by
  cases hdrop with
  | present hP =>
    intro n' hn' hS hP'
    have hne : n' ≠ n := by
      rintro rfl
      simp [Space.dropRam] at hP'
    simp only [Space.dropRam] at hP' ⊢
    rw [setEntry_of_ne fun _ => hne] at hP'
    obtain ⟨i, hused, hnames⟩ := h n' hn' hS hP'
    have hkeep : Proc.removeFrom s.ram d (n * pgSize) i = s.ram i :=
      removeFrom_of_ne fun _ hnames' => hne (page_ext (hnames.addr.symm.trans hnames'.addr))
    exact ⟨i, by rw [hkeep, hused], by rwa [hkeep]⟩
  | paged hP hPG =>
    intro n' hn' hS hP'
    have hne : n' ≠ n := by
      rintro rfl
      simp [Space.dropDisc] at hP'
    simp only [Space.dropDisc] at hP' ⊢
    rw [setEntry_of_ne fun _ => hne] at hP'
    exact h n' hn' hS hP'
  | unmapped _ => exact h

theorem TrackedOn.alike (h : TrackedOn S d s) (ha : Alike s s') : TrackedOn S d s' := by
  intro n hn hS hP
  rw [(ha.pte d n).flag .P (by decide)] at hP
  obtain ⟨i, hused, hnames⟩ := h n hn hS hP
  exact ⟨i, by rw [(ha.ram i).1, hused], ha.names.mpr hnames⟩

theorem TrackedOn.place (h : TrackedOn S d s) (hs : Sound (· = d) s)
    (hS : ¬ S n) (hplace : Place d n s s') : TrackedOn S d s' := by
  cases hplace with
  | untracked habsent hv => exact h.map hS
  | @tracked v i e habsent hv hfree hnames hused =>
    have hmap : TrackedOn S d (s.map d n v) := h.map hS
    exact (hmap.fill (t := (s.map d n v).track i e) hfree hnames hused (fun _ _ => rfl) rfl).mono
      fun _ _ _ h => .inr h
  | @evicting v i e s₁ habsent hv hevict hnames hused =>
    have hmap : TrackedOn S d (s.map d n v) := h.map hS
    have hout := hmap.evict (hs.map hv.present hv.inMemory) hevict
    exact (hout.fill (t := s₁.track i e) hevict.free hnames hused (fun _ _ => rfl) rfl).mono
      fun _ _ _ h => .inr h

private theorem Tracked.map_ne {v : PTE} (h : Tracked d s) : TrackedOn (· ≠ n) d (s.map d n v) :=
  (h.mono fun _ _ _ _ => trivial).map fun hn => hn rfl

theorem Tracked.track {v : PTE} {i : Fin maxPyscPages} {e : PageData} (h : Tracked d s)
    (hfree : (s.ram i).isUsed = false) (hnames : Names e d n) (hused : e.isUsed = true) :
    Tracked d ((s.map d n v).track i e) :=
  ((h.map_ne (n := n) (v := v)).fill (t := (s.map d n v).track i e) hfree hnames hused
    (fun _ _ => rfl) rfl).mono fun n' _ _ _ => em (n' = n)

theorem Tracked.evict_track {v : PTE} {i : Fin maxPyscPages} {e : PageData} {s₁ : Space}
    (h : Tracked d s) (hs : Sound (· = d) (s.map d n v)) (hevict : Evict (s.map d n v) i s₁)
    (hnames : Names e d n) (hused : e.isUsed = true) : Tracked d (s₁.track i e) :=
  ((h.map_ne.evict hs hevict).fill (t := s₁.track i e) hevict.free hnames hused
    (fun _ _ => rfl) rfl).mono fun n' _ _ _ => em (n' = n)

theorem Tracked.fetch (h : Tracked d s) (hn : n < userPages) (hs : Image d m hi s)
    (hPG₀ : hasFlag (s.pte d n) .PG = true) (hmatch : Matches n s) (hf : Fetch d n s s' true) :
    Tracked d s' := by
  have hP₀ := (hs.sound.paged d n rfl hn hPG₀).1
  cases hf with
  | missing hroom habsent hv hindex =>
    have hPG₁ := hPG₀
    rw [← hroom.pte_of_absent hs.sound hP₀] at hPG₁
    have hsome := (hroom.image hs).fence.index_isSome hn hPG₁
    simp [hindex] at hsome
  | @moved i s₁ v j t hroom habsent hv hindex =>
    have hPG₁ := hPG₀
    rw [← hroom.pte_of_absent hs.sound hP₀] at hPG₁
    have hused := hmatch i s₁ j hroom hindex
    have hjm := (hroom.image hs).fence.index_lt hn hPG₁ hindex
    have hnames : Names { s₁.disc j with timer := t } d n :=
      ⟨(hroom.image hs).fence.own j hjm hused, discIndex_addr hindex⟩
    have hroom' : TrackedOn (fun _ => True) d s₁ := by
      cases hroom with
      | free _ => exact h
      | evicted he => exact TrackedOn.evict h hs.sound he
    refine (hroom'.fill (t := (s₁.map d n v).move j i t) hroom.free_slot hnames hused
      (fun _ hne => setEntry_of_ne fun _ => hne) rfl).mono fun _ _ _ h => .inr h

end Tracked

end Space

end OsSessional.Paging
