import OsSessional.Paging.Fetch

/-!
# The disc table

Two statements about the disc table of one image. The fence holds through every operation: below
slot `m` lie the entries of the image, slot `m` (if there is one) is in use and stays so, and the
swap file never reaches it. The agreement holds as long as no page-in matches an entry of another
page: below the fence, used entries and paged-out pages are in one-to-one correspondence. Only page 0,
whose address every entry has that was never written, can leave this agreement.
-/

namespace OsSessional.Paging

open Function (update update_self update_of_ne)

namespace Space

variable {L : Frame → Prop} {s : Space} {d : Frame} {m n : Nat}

structure Fence (d : Frame) (m : Nat) (s : Space) : Prop where
  le : m ≤ discPages
  blocked : ∀ j : Fin discPages, j.val = m → (s.disc j).isUsed = true
  file : ∃ f, s.swap = some f ∧ f.size ≤ m * pgSize
  own : ∀ j : Fin discPages, j.val < m → (s.disc j).isUsed = true → (s.disc j).pageDirectory = d
  paged : ∀ n < userPages, hasFlag (s.pte d n) .PG = true →
    ∃ j : Fin discPages, j.val < m ∧ (s.disc j).isUsed = true ∧ Names (s.disc j) d n

/-- The search of `retrievePage`. -/
def discIndex (s : Space) (va : Nat) : Option (Fin discPages) :=
  Scan.first fun j => (s.disc j).virtualAddress == va

theorem discIndex_addr {va : Nat} {j : Fin discPages} (h : s.discIndex va = some j) :
    (s.disc j).virtualAddress = va := by
  simpa using Scan.first_spec h

theorem Fence.slot_lt (h : Fence d m s) {j : Fin discPages} {f : SwapFile}
    (hj : (s.disc j).isUsed = false) (hf : s.swap = some f) (hroom : pgSize * j ≤ f.size) :
    j.val < m := by
  obtain ⟨f', hf', hsize⟩ := h.file
  obtain rfl : f = f' := Option.some.inj (hf.symm.trans hf')
  have hle : j.val ≤ m := by
    have : pgSize * j ≤ m * pgSize := le_trans hroom hsize
    rw [Nat.mul_comm] at this
    exact Nat.le_of_mul_le_mul_right this (by decide)
  have hne : j.val ≠ m := by
    intro he
    simp [h.blocked j he] at hj
  omega

theorem Fence.map (h : Fence d m s) {d' : Frame} {n : Nat} {v : PTE}
    (hPG : hasFlag v .PG = false) : Fence d m (s.map d' n v) where
  le := h.le
  blocked := h.blocked
  file := h.file
  own := h.own
  paged n' hn' hPG' := by
    simp only [Space.map, setEntry] at hPG'
    split at hPG'
    · simp [hPG] at hPG'
    · exact h.paged n' hn' hPG'

theorem Fence.track (h : Fence d m s) {i : Fin maxPyscPages} {e : PageData} :
    Fence d m (s.track i e) :=
  ⟨h.le, h.blocked, h.file, h.own, h.paged⟩

theorem Fence.dropRam (h : Fence d m s) {n : Nat} : Fence d m (s.dropRam d n) := by
  have hmap : Fence d m (s.map d n 0) := h.map (by simp)
  exact ⟨hmap.le, hmap.blocked, hmap.file, hmap.own, hmap.paged⟩

theorem Fence.removed (h : Fence d m s) (hn : n < userPages) (hPG : hasFlag (s.pte d n) .PG = true) :
    ∃ j : Fin discPages, j.val < m ∧ (s.disc j).isUsed = true ∧ Names (s.disc j) d n ∧
      Proc.removeFrom s.disc d (n * pgSize) = update s.disc j (Proc.cleared (s.disc j)) := by
  obtain ⟨j₀, hj₀, hused₀, hnames₀⟩ := h.paged n hn hPG
  cases hidx : Proc.namedIndex s.disc d (n * pgSize) with
  | none => exact absurd hnames₀ (namedIndex_none hidx j₀ hused₀)
  | some j₁ =>
    have hle : j₁ ≤ j₀ := by
      by_contra hlt
      have hleast := Scan.first_least hidx (show j₀ < j₁ by omega)
      simp [hused₀, hnames₀.dir, hnames₀.addr] at hleast
    obtain ⟨hused₁, hnames₁⟩ := namedIndex_some hidx
    exact ⟨j₁, by omega, hused₁, hnames₁, by simp [Proc.removeFrom, hidx]⟩

theorem Fence.dropDisc (h : Fence d m s) (hn : n < userPages)
    (hPG : hasFlag (s.pte d n) .PG = true) : Fence d m (s.dropDisc d n) where
  le := h.le
  blocked j hj := by
    obtain ⟨j₁, hlt, -, -, hremoved⟩ := h.removed hn hPG
    have hne : j ≠ j₁ := by
      rintro rfl
      omega
    simp [Space.dropDisc, hremoved, hne, h.blocked j hj]
  file := h.file
  own j hj hused := by
    obtain ⟨heq, hused'⟩ := removeFrom_used hused
    simp only [Space.dropDisc, heq]
    exact h.own j hj hused'
  paged n' hn' hPG' := by
    simp only [Space.dropDisc, setEntry] at hPG'
    split at hPG'
    · simp at hPG'
    · next hne =>
      obtain ⟨j, hj, hused, hnames⟩ := h.paged n' hn' hPG'
      have hkeep : Proc.removeFrom s.disc d (n * pgSize) j = s.disc j := by
        refine removeFrom_of_ne fun _ hnames' => hne ⟨trivial, ?_⟩
        exact page_ext (hnames.addr.symm.trans hnames'.addr)
      refine ⟨j, hj, ?_⟩
      simp only [Space.dropDisc, hkeep]
      exact ⟨hused, hnames⟩

theorem Fence.evict (h : Fence d m s) (hs : Sound (· = d) s)
    {note : PageData → PageData → PageData} (hnote : IsNote note) {i : Fin maxPyscPages}
    {j : Fin discPages} {f : SwapFile} {src : Nat → Byte} (hi : (s.ram i).isUsed = true)
    (hj : (s.disc j).isUsed = false) (hf : s.swap = some f) (hroom : pgSize * j ≤ f.size) :
    Fence d m (s.evict note i j (f.overlay src (pgSize * j) pgSize)) := by
  have hjm := h.slot_lt hj hf hroom
  obtain ⟨v, hv, haddr, hdir, hvpn, hP⟩ := hs.pageAt hi
  refine ⟨h.le, ?_, ?_, ?_, ?_⟩
  · intro j' hj'
    have hne : j' ≠ j := by
      rintro rfl
      omega
    simp [Space.evict, hne, h.blocked j' hj']
  · obtain ⟨f', hf', hsize⟩ := h.file
    obtain rfl : f = f' := Option.some.inj (hf.symm.trans hf')
    refine ⟨_, rfl, ?_⟩
    simp only [SwapFile.overlay]
    have : (j.val + 1) * pgSize ≤ m * pgSize := Nat.mul_le_mul_right _ hjm
    have hend : pgSize * j + pgSize = (j.val + 1) * pgSize := by
      rw [Nat.add_mul, Nat.one_mul, Nat.mul_comm]
    omega
  · intro j' hj' hused
    by_cases hjj : j' = j
    · subst hjj
      simp [Space.evict, hnote.dir, hdir]
    · simp only [Space.evict, update_of_ne hjj] at hused ⊢
      exact h.own j' hj' hused
  · intro n hn hPG
    simp only [Space.evict, hvpn, hdir] at hPG
    by_cases hnv : n = v
    · subst hnv
      refine ⟨j, hjm, by simp [Space.evict, hnote.used], ?_⟩
      exact ⟨by simp [Space.evict, hnote.dir, hdir], by simp [Space.evict, hnote.addr, haddr]⟩
    · rw [setEntry_of_ne fun _ => hnv] at hPG
      obtain ⟨j', hj', hused, hnames⟩ := h.paged n hn hPG
      have hne : j' ≠ j := by
        rintro rfl
        simp [hused] at hj
      refine ⟨j', hj', ?_⟩
      simp only [Space.evict, update_of_ne hne]
      exact ⟨hused, hnames⟩

/-- A page-in of a paged-out page matches an entry below the fence. -/
theorem Fence.index_lt (h : Fence d m s) (hn : n < userPages)
    (hPG : hasFlag (s.pte d n) .PG = true) {j : Fin discPages}
    (hj : s.discIndex (n * pgSize) = some j) : j.val < m := by
  obtain ⟨j₀, hj₀, -, hnames⟩ := h.paged n hn hPG
  refine lt_of_le_of_lt ?_ hj₀
  by_contra hlt
  have hleast := Scan.first_least hj (show j₀ < j by omega)
  simp [hnames.addr] at hleast

theorem Fence.index_isSome (h : Fence d m s) (hn : n < userPages)
    (hPG : hasFlag (s.pte d n) .PG = true) : (s.discIndex (n * pgSize)).isSome = true := by
  obtain ⟨j₀, -, -, hnames⟩ := h.paged n hn hPG
  exact Scan.first_isSome (i := j₀) (by simp [hnames.addr])

theorem Fence.fetch (h : Fence d m s) (hn : n < userPages) (hPG : hasFlag (s.pte d n) .PG = true)
    {j : Fin discPages} (hj : s.discIndex (n * pgSize) = some j) {v : PTE}
    (hv : hasFlag v .PG = false) {i : Fin maxPyscPages} {t : Int} :
    Fence d m ((s.map d n v).move j i t) where
  le := h.le
  blocked j' hj' := by
    have hne : j' ≠ j := by
      rintro rfl
      have := h.index_lt hn hPG hj
      omega
    simp [Space.move, Space.map, hne, h.blocked j' hj']
  file := h.file
  own j' hj' hused := by
    have hne : j' ≠ j := by
      rintro rfl
      simp [Space.move] at hused
    simp only [Space.move, Space.map, update_of_ne hne] at hused ⊢
    exact h.own j' hj' hused
  paged n' hn' hPG' := by
    simp only [Space.move, Space.map, setEntry] at hPG'
    split at hPG'
    · simp [hv] at hPG'
    · next hne =>
      obtain ⟨j', hj', hused, hnames⟩ := h.paged n' hn' hPG'
      have hjj : j' ≠ j := by
        rintro rfl
        exact hne ⟨trivial, page_ext (hnames.addr.symm.trans (discIndex_addr hj))⟩
      refine ⟨j', hj', ?_⟩
      simp only [Space.move, Space.map, update_of_ne hjj]
      exact ⟨hused, hnames⟩

theorem Fence.alike {s' : Space} (h : Fence d m s) (ha : Alike s s') : Fence d m s' where
  le := h.le
  blocked := by rw [ha.disc]; exact h.blocked
  file := by rw [ha.swap]; exact h.file
  own := by rw [ha.disc]; exact h.own
  paged n hn hPG := by
    rw [(ha.pte d n).flag .PG (by decide)] at hPG
    rw [ha.disc]
    exact h.paged n hn hPG

/-- The addresses a search by address alone compares. -/
def discKeys (s : Space) : Fin discPages → Nat := fun j => (s.disc j).virtualAddress

private theorem discKeys_update {s' : Space} {j : Fin discPages} {e : PageData}
    (h : s'.disc = update s.disc j e) : s'.discKeys = update s.discKeys j e.virtualAddress := by
  funext a
  simp only [discKeys, h]
  by_cases ha : a = j
  · subst ha
    simp
  · simp [discKeys, ha]

/-- Below slot `m` the entries in use name paged-out pages, each page once, and away from page 0 a
search by address finds them. Page 0 is an exception where `z` holds. -/
structure NoStale (z : Prop) (d : Frame) (m : Nat) (s : Space) : Prop where
  names : ∀ j : Fin discPages, j.val < m → (s.disc j).isUsed = true → ∃ n < userPages,
    Names (s.disc j) d n ∧ (hasFlag (s.pte d n) .PG = true ∨ n = 0 ∧ z)
  inj : ∀ (j j' : Fin discPages) n, j.val < m → j'.val < m → (s.disc j).isUsed = true →
    (s.disc j').isUsed = true → Names (s.disc j) d n → Names (s.disc j') d n → (n = 0 → ¬ z) → j = j'
  unshadowed : ∀ (j : Fin discPages) n, j.val < m → (s.disc j).isUsed = true →
    Names (s.disc j) d n → n ≠ 0 → Scan.Unshadowed s.discKeys j

namespace NoStale

variable {s' s₁ : Space} {z z' : Prop}

private theorem of_used (h : NoStale z d m s) (hz : z → z')
    (hold : ∀ j, j.val < m → (s'.disc j).isUsed = true → (s.disc j).isUsed = true ∧ s'.disc j = s.disc j)
    (hnames : ∀ j n, j.val < m → (s'.disc j).isUsed = true → n < userPages → Names (s.disc j) d n →
      hasFlag (s.pte d n) .PG = true ∨ n = 0 ∧ z → hasFlag (s'.pte d n) .PG = true ∨ n = 0 ∧ z')
    (hkeys : ∀ j n, j.val < m → (s'.disc j).isUsed = true → Names (s.disc j) d n → n ≠ 0 →
      Scan.Unshadowed s.discKeys j → Scan.Unshadowed s'.discKeys j) : NoStale z' d m s' where
  names j hj hused := by
    obtain ⟨hused₀, heq⟩ := hold j hj hused
    obtain ⟨n, hn, hname, hor⟩ := h.names j hj hused₀
    rw [heq]
    exact ⟨n, hn, hname, hnames j n hj hused hn hname hor⟩
  inj j j' n hj hj' hused hused' hname hname' hne := by
    obtain ⟨hused₀, heq⟩ := hold j hj hused
    obtain ⟨hused₀', heq'⟩ := hold j' hj' hused'
    rw [heq] at hname
    rw [heq'] at hname'
    exact h.inj j j' n hj hj' hused₀ hused₀' hname hname' fun hn hz' => hne hn (hz hz')
  unshadowed j n hj hused hname hne := by
    obtain ⟨hused₀, heq⟩ := hold j hj hused
    rw [heq] at hname
    exact hkeys j n hj hused hname hne (h.unshadowed j n hj hused₀ hname hne)

theorem of_disc (h : NoStale z d m s) (hdisc : s'.disc = s.disc)
    (hpte : ∀ n, hasFlag (s.pte d n) .PG = true → hasFlag (s'.pte d n) .PG = true)
    (hz : z → z') : NoStale z' d m s' := by
  have hkeys : s'.discKeys = s.discKeys := by
    funext j
    simp only [discKeys, hdisc]
  apply h.of_used hz
  · intro j _ hused
    rw [hdisc] at hused ⊢
    exact ⟨hused, rfl⟩
  · exact fun j n _ _ _ _ hor => hor.imp (hpte n) fun hzero => ⟨hzero.1, hz hzero.2⟩
  · intro j n _ _ _ _ hun
    rwa [hkeys]

theorem mono (h : NoStale z d m s) (hz : z → z') : NoStale z' d m s :=
  h.of_disc rfl (fun _ hPG => hPG) hz

theorem map (h : NoStale z d m s) {v : PTE} (hPG : hasFlag (s.pte d n) .PG = false) :
    NoStale z d m (s.map d n v) := by
  refine h.of_disc rfl ?_ id
  intro n' hPG'
  have hne : n' ≠ n := by
    rintro rfl
    simp [hPG] at hPG'
  simp only [Space.map]
  rwa [setEntry_of_ne fun _ => hne]

theorem track (h : NoStale z d m s) {i : Fin maxPyscPages} {e : PageData} : NoStale z d m (s.track i e) :=
  h.of_disc rfl (fun _ hPG => hPG) id

theorem dropRam (h : NoStale z d m s) (hPG : hasFlag (s.pte d n) .PG = false) :
    NoStale z d m (s.dropRam d n) :=
  have hmap : NoStale z d m (s.map d n 0) := h.map hPG
  hmap.of_disc rfl (fun _ hPG' => hPG') id

theorem alike (h : NoStale z d m s) (ha : Alike s s') : NoStale z d m s' :=
  h.of_disc ha.disc (fun n hPG => by rw [(ha.pte d n).flag .PG (by decide), hPG]) id

private theorem index (h : NoStale z d m s) {j : Fin discPages} (hj : j.val < m)
    (hused : (s.disc j).isUsed = true) (hnames : Names (s.disc j) d n) (hn : n ≠ 0) :
    s.discIndex (n * pgSize) = some j := by
  have hfirst := Scan.first_key (h.unshadowed j n hj hused hnames hn)
  simpa [discIndex, discKeys, hnames.addr] using hfirst

theorem dropDisc (h : NoStale z d m s) (hf : Fence d m s) (hn : n < userPages)
    (hPG : hasFlag (s.pte d n) .PG = true) : NoStale z d m (s.dropDisc d n) := by
  obtain ⟨j₁, hj₁, hused₁, hnames₁, heq⟩ := hf.removed hn hPG
  have hother : ∀ j, ((s.dropDisc d n).disc j).isUsed = true →
      j ≠ j₁ ∧ (s.dropDisc d n).disc j = s.disc j := by
    intro j hused
    have hne : j ≠ j₁ := by
      rintro rfl
      simp [Space.dropDisc, heq, Proc.cleared] at hused
    exact ⟨hne, by simp [Space.dropDisc, heq, hne]⟩
  apply h.of_used id
  · intro j _ hused
    obtain ⟨-, hsame⟩ := hother j hused
    exact ⟨hsame ▸ hused, hsame⟩
  · intro j n' hj hused _ hnames hor
    obtain ⟨hne, hsame⟩ := hother j hused
    by_cases hzero : n' = 0 ∧ z
    · exact .inr hzero
    · have hne' : n' ≠ n := by
        rintro rfl
        exact hne (h.inj j j₁ n' hj hj₁ (hsame ▸ hused) hused₁ hnames hnames₁ fun hn hz => hzero ⟨hn, hz⟩)
      apply hor.imp _ id
      intro hPG'
      simp only [Space.dropDisc]
      rwa [setEntry_of_ne fun _ => hne']
  · intro j n' _ hused hnames hne' hun
    obtain ⟨hne, -⟩ := hother j hused
    rw [show (s.dropDisc d n).discKeys = update s.discKeys j₁ 0 from
      discKeys_update (e := Proc.cleared (s.disc j₁)) heq]
    apply hun.update hne
    simp only [discKeys, hnames.addr]
    have hpos' : 0 < n' * pgSize := Nat.mul_pos (Nat.pos_of_ne_zero hne') (by decide)
    omega

theorem evicted (h : NoStale z d m s) (hf : Fence d m s) (hs : Sound (· = d) s)
    {note : PageData → PageData → PageData} (hnote : IsNote note) {i : Fin maxPyscPages}
    {j : Fin discPages} {f : SwapFile} {src : Nat → Byte} (hi : (s.ram i).isUsed = true)
    (hj : Scan.first (fun j => !(s.disc j).isUsed) = some j) (hfile : s.swap = some f)
    (hroom : pgSize * j ≤ f.size) :
    NoStale z d m (s.evict note i j (f.overlay src (pgSize * j) pgSize)) := by
  have hfree : (s.disc j).isUsed = false := by simpa using Scan.first_spec hj
  have hjm := hf.slot_lt hfree hfile hroom
  obtain ⟨v, hv, haddr, hdir, hvpn, hP⟩ := hs.pageAt hi
  rw [hdir] at hP
  have hvPG : hasFlag (s.pte d v) .PG = false := hs.not_paged rfl hv hP
  -- the victim was present, so no entry in use carries its address, unless it is page 0
  have hother : ∀ j', j'.val < m → (s.disc j').isUsed = true → ∀ n', Names (s.disc j') d n' →
      (n' = 0 → ¬ z) → n' ≠ v := by
    intro j' hj' hused n' hnames hne
    obtain ⟨w, -, hnames', hor⟩ := h.names j' hj' hused
    obtain rfl := page_ext (hnames'.addr.symm.trans hnames.addr)
    rintro rfl
    rcases hor with hPG | ⟨hzero, hz⟩
    · simp [hvPG] at hPG
    · exact hne hzero hz
  have hself : (s.evict note i j (f.overlay src (pgSize * j) pgSize)).disc j =
      note (s.ram i) (s.disc j) := by simp [Space.evict]
  have hrest : ∀ j', j' ≠ j →
      (s.evict note i j (f.overlay src (pgSize * j) pgSize)).disc j' = s.disc j' := by
    intro j' hj'
    simp [Space.evict, hj']
  have hnamesj : ∀ n', Names (note (s.ram i) (s.disc j)) d n' → n' = v := by
    intro n' hnames
    exact page_ext (hnames.addr.symm.trans ((hnote.addr _ _).trans haddr))
  have hkeys : (s.evict note i j (f.overlay src (pgSize * j) pgSize)).discKeys =
      update s.discKeys j (v * pgSize) := by
    rw [discKeys_update (e := note (s.ram i) (s.disc j)) rfl, hnote.addr, haddr]
  constructor
  · intro j' hj' hused
    by_cases hjj : j' = j
    · subst hjj
      refine ⟨v, hv, ?_, .inl ?_⟩
      · rw [hself]
        exact ⟨by rw [hnote.dir, hdir], by rw [hnote.addr, haddr]⟩
      · simp [Space.evict, hvpn, hdir, hasFlag_pageOutPte]
    · rw [hrest j' hjj] at hused ⊢
      obtain ⟨n', hn', hnames, hor⟩ := h.names j' hj' hused
      refine ⟨n', hn', hnames, hor.imp ?_ id⟩
      intro hPG
      have hne : n' ≠ v := by
        rintro rfl
        simp [hvPG] at hPG
      simp only [Space.evict, hvpn, hdir]
      rwa [setEntry_of_ne fun _ => hne]
  · intro j₁ j₂ n' hj₁ hj₂ hused₁ hused₂ hnames₁ hnames₂ hne
    by_cases h₁ : j₁ = j <;> by_cases h₂ : j₂ = j
    · rw [h₁, h₂]
    · subst h₁
      rw [hself] at hnames₁
      rw [hrest j₂ h₂] at hused₂ hnames₂
      exact absurd (hnamesj n' hnames₁) (hother j₂ hj₂ hused₂ n' hnames₂ hne)
    · subst h₂
      rw [hself] at hnames₂
      rw [hrest j₁ h₁] at hused₁ hnames₁
      exact absurd (hnamesj n' hnames₂) (hother j₁ hj₁ hused₁ n' hnames₁ hne)
    · rw [hrest j₁ h₁] at hused₁ hnames₁
      rw [hrest j₂ h₂] at hused₂ hnames₂
      exact h.inj j₁ j₂ n' hj₁ hj₂ hused₁ hused₂ hnames₁ hnames₂ hne
  · intro j' n' hj' hused hnames hne
    rw [hkeys]
    by_cases hjj : j' = j
    · subst hjj
      rw [hself] at hnames
      obtain rfl := hnamesj n' hnames
      -- every slot below the lowest free one is in use
      apply Scan.unshadowed_put
      intro a ha haddr'
      have haused : (s.disc a).isUsed = true := by simpa using Scan.first_least hj ha
      have ham : a.val < m := lt_trans ha hjm
      exact hother a ham haused n' ⟨hf.own a ham haused, haddr'⟩ (fun hzero => absurd hzero hne) rfl
    · rw [hrest j' hjj] at hused hnames
      apply (h.unshadowed j' n' hj' hused hnames hne).update hjj
      simp only [discKeys, hnames.addr]
      exact fun heq => hother j' hj' hused n' hnames (fun hzero => absurd hzero hne) (page_ext heq).symm

/-- A page-in that matched an entry in use, or any entry where page 0 may be left behind, leaves in use
what still names what it did. -/
theorem moved (h : NoStale z d m s) (hf : Fence d m s) (hn : n < userPages) {j : Fin discPages}
    (hor : z ∨ (s.disc j).isUsed = true) (hPG : hasFlag (s.pte d n) .PG = true)
    (hj : s.discIndex (n * pgSize) = some j) {v : PTE} {i : Fin maxPyscPages} {t : Int} :
    NoStale z d m ((s.map d n v).move j i t) := by
  have hjm := hf.index_lt hn hPG hj
  have hother : ∀ j', (((s.map d n v).move j i t).disc j').isUsed = true →
      j' ≠ j ∧ ((s.map d n v).move j i t).disc j' = s.disc j' := by
    intro j' hused
    have hne : j' ≠ j := by
      rintro rfl
      simp [Space.move] at hused
    exact ⟨hne, by simp [Space.move, Space.map, hne]⟩
  have hkeys : ((s.map d n v).move j i t).discKeys = s.discKeys := by
    funext a
    by_cases ha : a = j
    · subst ha
      simp [discKeys, Space.move, Space.map]
    · simp [discKeys, Space.move, Space.map, ha]
  apply h.of_used id
  · intro j' _ hused
    obtain ⟨-, hsame⟩ := hother j' hused
    exact ⟨hsame ▸ hused, hsame⟩
  · intro j' n' hj' hused _ hnames hmay
    obtain ⟨hne, hsame⟩ := hother j' hused
    by_cases hzero : n' = 0 ∧ z
    · exact .inr hzero
    · have hne' : n' ≠ n := by
        rintro rfl
        by_cases hn' : n' = 0
        · have hjused : (s.disc j).isUsed = true := hor.resolve_left fun hz => hzero ⟨hn', hz⟩
          have hown : Names (s.disc j) d n' := ⟨hf.own j hjm hjused, discIndex_addr hj⟩
          exact hne (h.inj j' j n' hj' hjm (hsame ▸ hused) hjused hnames hown fun hn hz => hzero ⟨hn, hz⟩)
        · have hown := h.index hj' (hsame ▸ hused) hnames hn'
          exact hne (Option.some.inj (hown.symm.trans hj))
      apply hmay.imp _ id
      intro hPG'
      simp only [Space.move, Space.map]
      rwa [setEntry_of_ne fun _ => hne']
  · intro j' n' _ _ _ _ hun
    rwa [hkeys]

end NoStale

structure DiscAgree (d : Frame) (m : Nat) (s : Space) : Prop extends Fence d m s where
  stored : ∀ (j : Fin discPages) f, j.val < m → (s.disc j).isUsed = true → s.swap = some f →
    pgSize * j + pgSize ≤ f.size
  names : ∀ j : Fin discPages, j.val < m → (s.disc j).isUsed = true →
    ∃ n < userPages, Names (s.disc j) d n ∧ hasFlag (s.pte d n) .PG = true
  inj : ∀ (j j' : Fin discPages) n, j.val < m → j'.val < m → (s.disc j).isUsed = true →
    (s.disc j').isUsed = true → Names (s.disc j) d n → Names (s.disc j') d n → j = j'
  unshadowed : ∀ (j : Fin discPages) n, j.val < m → (s.disc j).isUsed = true →
    Names (s.disc j) d n → n ≠ 0 → Scan.Unshadowed s.discKeys j

theorem DiscAgree.noStale {z : Prop} (h : DiscAgree d m s) : NoStale z d m s where
  names j hj hused := by
    obtain ⟨n, hn, hnames, hPG⟩ := h.names j hj hused
    exact ⟨n, hn, hnames, .inl hPG⟩
  inj j j' n hj hj' hused hused' hnames hnames' _ := h.inj j j' n hj hj' hused hused' hnames hnames'
  unshadowed := h.unshadowed

private theorem NoStale.discAgree (h : NoStale False d m s) (hf : Fence d m s)
    (hstored : ∀ (j : Fin discPages) f, j.val < m → (s.disc j).isUsed = true → s.swap = some f →
      pgSize * j + pgSize ≤ f.size) : DiscAgree d m s where
  toFence := hf
  stored := hstored
  names j hj hused := by
    obtain ⟨n, hn, hnames, hor⟩ := h.names j hj hused
    exact ⟨n, hn, hnames, hor.resolve_right fun hzero => hzero.2⟩
  inj j j' n hj hj' hused hused' hnames hnames' :=
    h.inj j j' n hj hj' hused hused' hnames hnames' fun _ hfalse => hfalse
  unshadowed := h.unshadowed

/-- The entry of a paged-out page. -/
theorem DiscAgree.entry (h : DiscAgree d m s) (hn : n < userPages)
    (hPG : hasFlag (s.pte d n) .PG = true) :
    ∃ j : Fin discPages, j.val < m ∧ (s.disc j).isUsed = true ∧ Names (s.disc j) d n :=
  h.paged n hn hPG

theorem DiscAgree.index (h : DiscAgree d m s) {j : Fin discPages} (hj : j.val < m)
    (hused : (s.disc j).isUsed = true) (hnames : Names (s.disc j) d n) (hn : n ≠ 0) :
    s.discIndex (n * pgSize) = some j :=
  (h.noStale (z := False)).index hj hused hnames hn

theorem DiscAgree.map (h : DiscAgree d m s) {v : PTE} (hv : hasFlag v .PG = false)
    (hPG : hasFlag (s.pte d n) .PG = false) : DiscAgree d m (s.map d n v) :=
  (h.noStale.map hPG).discAgree (h.toFence.map hv) h.stored

theorem DiscAgree.track (h : DiscAgree d m s) {i : Fin maxPyscPages} {e : PageData} :
    DiscAgree d m (s.track i e) :=
  h.noStale.track.discAgree h.toFence.track h.stored

theorem DiscAgree.dropRam (h : DiscAgree d m s) (hPG : hasFlag (s.pte d n) .PG = false) :
    DiscAgree d m (s.dropRam d n) :=
  (h.noStale.dropRam hPG).discAgree h.toFence.dropRam h.stored

theorem DiscAgree.dropDisc (h : DiscAgree d m s) (hn : n < userPages)
    (hPG : hasFlag (s.pte d n) .PG = true) : DiscAgree d m (s.dropDisc d n) := by
  apply (h.noStale.dropDisc h.toFence hn hPG).discAgree (h.toFence.dropDisc hn hPG)
  intro j f hj hused hf
  obtain ⟨-, hused₀⟩ := removeFrom_used hused
  exact h.stored j f hj hused₀ hf

theorem DiscAgree.evict (h : DiscAgree d m s) (hs : Sound (· = d) s)
    {note : PageData → PageData → PageData} (hnote : IsNote note) {i : Fin maxPyscPages}
    {j : Fin discPages} {f : SwapFile} {src : Nat → Byte} (hi : (s.ram i).isUsed = true)
    (hj : Scan.first (fun j => !(s.disc j).isUsed) = some j) (hf : s.swap = some f)
    (hroom : pgSize * j ≤ f.size) :
    DiscAgree d m (s.evict note i j (f.overlay src (pgSize * j) pgSize)) := by
  have hfree : (s.disc j).isUsed = false := by simpa using Scan.first_spec hj
  apply (h.noStale.evicted h.toFence hs hnote hi hj hf hroom).discAgree
    (h.toFence.evict hs hnote hi hfree hf hroom)
  intro j' f' hj' hused hf'
  obtain rfl : f.overlay src (pgSize * j) pgSize = f' := by simpa [Space.evict] using hf'
  simp only [SwapFile.overlay]
  by_cases hjj : j' = j
  · subst hjj
    omega
  · have hused₀ : (s.disc j').isUsed = true := by simpa [Space.evict, hjj] using hused
    have hend := h.stored j' f hj' hused₀ hf
    omega

theorem DiscAgree.fetch (h : DiscAgree d m s) (hn : n < userPages)
    (hPG : hasFlag (s.pte d n) .PG = true) {j : Fin discPages}
    (hj : s.discIndex (n * pgSize) = some j) (hjused : (s.disc j).isUsed = true) {v : PTE}
    (hv : hasFlag v .PG = false) {i : Fin maxPyscPages} {t : Int} :
    DiscAgree d m ((s.map d n v).move j i t) := by
  apply (h.noStale.moved h.toFence hn (.inr hjused) hPG hj).discAgree (h.toFence.fetch hn hPG hj hv)
  intro j' f hj' hused hf
  have hne : j' ≠ j := by
    rintro rfl
    simp [Space.move] at hused
  have hused₀ : (s.disc j').isUsed = true := by simpa [Space.move, Space.map, hne] using hused
  exact h.stored j' f hj' hused₀ hf

theorem DiscAgree.alike {s' : Space} (h : DiscAgree d m s) (ha : Alike s s') : DiscAgree d m s' := by
  apply (h.noStale.alike ha).discAgree (h.toFence.alike ha)
  rw [ha.disc, ha.swap]
  exact h.stored

end Space

end OsSessional.Paging
