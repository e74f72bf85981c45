import OsSessional.Paging.Mirror
import OsSessional.Paging.Moves

/-!
# Tidy images

In every state the system reaches, only page 0 can leave a disc entry in use behind, whatever a page-in
matches: below the fence every other entry in use names a page that is paged out. The pages below the size
are mapped as long as no call `growproc(-sz)` drops them.
-/

namespace OsSessional.Paging

open Function (update update_self update_of_ne)

namespace Space

variable {s s' s₁ : Space} {z : Prop} {d : Frame} {m n lo mid hi : Nat}

/-- Page `n` is present or paged out, and not both. -/
def MappedPage (d : Frame) (s : Space) (n : Nat) : Prop :=
  hasFlag (s.pte d n) .P = !hasFlag (s.pte d n) .PG

namespace NoStale

private theorem evict (h : NoStale z d m s) (hf : Fence d m s) (hs : Sound (· = d) s) {i : Fin maxPyscPages}
    (he : Evict s i s') : NoStale z d m s' := by
  obtain ⟨hnote, hi, hj, hfile, hroom⟩ := he
  exact h.evicted hf hs hnote hi hj hfile hroom

private theorem room (h : NoStale z d m s) (hs : Image d m hi s) {i : Fin maxPyscPages} (hroom : Room i s s₁) :
    NoStale z d m s₁ := by
  cases hroom with
  | free _ => exact h
  | evicted he => exact h.evict hs.fence hs.sound he

private theorem place (h : NoStale z d m s) (hn : n < userPages) (hs : Image d m n s) (hp : Place d n s s') :
    NoStale z d m s' := by
  have hPG₀ := (hs.beyond n (le_refl _) hn).2
  cases hp with
  | untracked habsent hv => exact h.map hPG₀
  | tracked habsent hv hfree hnames hused => exact (h.map hPG₀).track
  | evicting habsent hv hevict hnames hused =>
    exact ((h.map hPG₀).evict (hs.fence.map hv.inMemory) (hs.sound.map hv.present hv.inMemory) hevict).track

private theorem drop (h : NoStale z d m s) (hn : n < userPages) (hs : Image d m hi s) (hd : Drop d n s s') :
    NoStale z d m s' := by
  cases hd with
  | present hP => exact h.dropRam (hs.sound.not_paged rfl hn hP)
  | paged hP hPG => exact h.dropDisc hs.fence hn hPG
  | unmapped _ => exact h

private theorem fetch (h : NoStale z d m s) (hn : n < userPages) (hs : Image d m hi s) (hz : z)
    (hPG : hasFlag (s.pte d n) .PG = true) (hf : Fetch d n s s' true) : NoStale z d m s' := by
  have hP := (hs.sound.paged d n rfl hn hPG).1
  have hPG₁ : ∀ {i : Fin maxPyscPages} {t : Space}, Room i s t → hasFlag (t.pte d n) .PG = true := by
    intro i t hroom
    rw [hroom.pte_of_absent hs.sound hP, hPG]
  cases hf with
  | missing hroom habsent hv hindex =>
    have hsome := (hroom.image hs).fence.index_isSome hn (hPG₁ hroom)
    simp [hindex] at hsome
  | moved hroom habsent hv hindex =>
    exact (h.room hs hroom).moved (hroom.image hs).fence hn (.inl hz) (hPG₁ hroom) hindex

end NoStale

section Mapped

theorem MappedPage.congr (h : MappedPage d s n) (hpte : s'.pte d n = s.pte d n) : MappedPage d s' n := by
  unfold MappedPage at h ⊢
  rwa [hpte]

private theorem UserPte.mapped {v : PTE} (h : UserPte v) : MappedPage d (s.map d n v) n := by
  simp [MappedPage, Space.map, h.present, h.inMemory]

private theorem MappedPage.evict (h : MappedPage d s n) (hs : Sound (· = d) s) {i : Fin maxPyscPages}
    (he : Evict s i s') : MappedPage d s' n := by
  obtain ⟨v, -, -, -, hpte⟩ := he.pte hs
  by_cases hv : n = v
  · subst hv
    simp [MappedPage, hpte, hasFlag_pageOutPte]
  · apply h.congr
    rw [hpte, setEntry_of_ne fun _ => hv]

private theorem MappedPage.map {v : PTE} (h : MappedPage d s n) (hv : UserPte v) {n' : Nat} :
    MappedPage d (s.map d n' v) n := by
  by_cases hn : n = n'
  · subst hn
    exact hv.mapped
  · exact h.congr (setEntry_of_ne fun _ => hn)

theorem MappedPage.place (h : n = lo ∨ MappedPage d s n) (hs : Sound (· = d) s) (hp : Place d lo s s') :
    MappedPage d s' n := by
  have hmap : ∀ {v : PTE}, UserPte v → MappedPage d (s.map d lo v) n := by
    intro v hv
    rcases h with rfl | h
    · exact hv.mapped
    · exact h.map hv
  cases hp with
  | untracked habsent hv => exact hmap hv
  | tracked habsent hv hfree hnames hused => exact (hmap hv).congr rfl
  | evicting habsent hv hevict hnames hused =>
    exact ((hmap hv).evict (hs.map hv.present hv.inMemory) hevict).congr rfl

end Mapped

/-- An image of `hi` pages whose disc table has no stale entry but page 0's. -/
structure Tidy (d : Frame) (m hi : Nat) (s : Space) : Prop where
  image : Image d m hi s
  noStale : NoStale (0 < hi) d m s

namespace Tidy

private theorem alike (h : Tidy d m hi s) (ha : Alike s s') : Tidy d m hi s' :=
  ⟨h.image.alike ha, h.noStale.alike ha⟩

private theorem congr (h : Tidy d m hi s) (hpte : ∀ n, s'.pte d n = s.pte d n) (hram : s'.ram = s.ram)
    (hdisc : s'.disc = s.disc) (hswap : s'.swap = s.swap) : Tidy d m hi s' :=
  ⟨h.image.congr hpte hram hdisc hswap, h.noStale.of_disc hdisc (fun n hPG => by rwa [hpte]) id⟩

private theorem placed (h : Tidy d m lo s) (hle : lo ≤ hi) (hhi : hi ≤ userPages)
    (hrun : RangeRun (Place d) hi lo s s') : Image d m hi s' ∧ NoStale (0 < lo) d m s' := by
  have hkeep := hrun.keeps (I := fun n s => Image d m n s ∧ NoStale (0 < lo) d m s)
    (fun n s₁ s₂ _ hn hI hp => by
      obtain ⟨himage, hstale⟩ := hI
      exact ⟨hp.image (by omega) himage, hstale.place (by omega) himage hp⟩)
    ⟨h.image, h.noStale⟩
  rwa [max_eq_right hle] at hkeep

private theorem droppedRun (himage : Image d m mid s) (hstale : NoStale z d m s) (hhi : hi ≤ userPages)
    (hrun : RangeRun (Drop d) hi lo s s') : Image d m mid s' ∧ NoStale z d m s' :=
  hrun.keeps_const (I := fun s => Image d m mid s ∧ NoStale z d m s)
    (fun n s₁ s₂ _ hn hI hd => by
      obtain ⟨himage, hstale⟩ := hI
      exact ⟨hd.image (by omega) himage, hstale.drop (by omega) himage hd⟩)
    ⟨himage, hstale⟩

private theorem dropped (himage : Image d m mid s) (hstale : NoStale z d m s) (hmid : mid ≤ hi)
    (hhi : hi ≤ userPages) (hz : z → 0 < lo) (hrun : RangeRun (Drop d) hi lo s s') : Tidy d m lo s' := by
  obtain ⟨himage', hstale'⟩ := droppedRun himage hstale hhi hrun
  refine ⟨himage'.lower fun n hn hlt => ?_, hstale'.mono hz⟩
  exact dropped_run_unmapped hrun n hn (by omega)

private theorem fetch (h : Tidy d m hi s) (hn : n < userPages) (hPG : hasFlag (s.pte d n) .PG = true)
    (hf : Fetch d n s s' true) : Tidy d m hi s' := by
  have hpos : 0 < hi := by
    by_contra hge
    simp [(h.image.beyond n (by omega) hn).2] at hPG
  exact ⟨hf.image hn h.image hPG, h.noStale.fetch hn h.image hpos hPG hf⟩

private theorem forked {d' : Frame} (h : Tidy d m hi s) (himage : Image d' m hi s')
    (hcopy : ∀ n < hi, Kernel.CopyOf (s.pte d n) (s'.pte d' n))
    (hdisc : s'.disc = fun j => { s.disc j with pageDirectory := d' }) : Tidy d' m hi s' := by
  have hused : ∀ j, (s'.disc j).isUsed = true → (s.disc j).isUsed = true := by
    intro j hj
    rwa [hdisc] at hj
  have hnames : ∀ j n, j.val < m → (s'.disc j).isUsed = true → Names (s'.disc j) d' n →
      Names (s.disc j) d n := by
    intro j n hj hju hname
    have haddr := hname.addr
    rw [hdisc] at haddr
    exact ⟨h.image.fence.own j hj (hused j hju), haddr⟩
  refine ⟨himage, ⟨?_, ?_, ?_⟩⟩
  · intro j hj hju
    obtain ⟨n, hn, hname, hor⟩ := h.noStale.names j hj (hused j hju)
    refine ⟨n, hn, ⟨by rw [hdisc], by rw [hdisc]; exact hname.addr⟩, hor.imp ?_ id⟩
    intro hPG
    have hlt : n < hi := by
      by_contra hge
      simp [(h.image.beyond n (by omega) hn).2] at hPG
    rw [(hcopy n hlt).paged hPG]
    decide
  · intro j j' n hj hj' hju hju' hname hname' hne
    exact h.noStale.inj j j' n hj hj' (hused j hju) (hused j' hju') (hnames j n hj hju hname)
      (hnames j' n hj' hju' hname') hne
  · intro j n hj hju hname hne
    have hkeys : s'.discKeys = s.discKeys := by
      funext a
      simp only [discKeys, hdisc]
    rw [hkeys]
    exact h.noStale.unshadowed j n hj (hused j hju) (hnames j n hj hju hname) hne

end Tidy

private theorem placed_mapped (himage : Image d m lo s) (hmapped : ∀ n < lo, MappedPage d s n) (hle : lo ≤ hi)
    (hhi : hi ≤ userPages) (hrun : RangeRun (Place d) hi lo s s') : ∀ n < hi, MappedPage d s' n := by
  have hkeep := hrun.keeps (I := fun n s => Image d m n s ∧ ∀ n' < n, MappedPage d s n')
    (fun n s₁ s₂ _ hn hI hp => by
      obtain ⟨himage, hmapped⟩ := hI
      refine ⟨hp.image (by omega) himage, fun n' hn' => ?_⟩
      apply MappedPage.place _ himage.sound hp
      by_cases he : n' = n
      · exact .inl he
      · exact .inr (hmapped n' (by omega)))
    ⟨himage, hmapped⟩
  rw [max_eq_right hle] at hkeep
  exact hkeep.2

/-- A page that is not dropped is mapped as it was. -/
theorem dropped_mapped_iff (hrun : RangeRun (Drop d) hi lo s s') (hn : n < lo) :
    MappedPage d s' n ↔ MappedPage d s n := by
  have hpte : s'.pte d n = s.pte d n :=
    hrun.keeps_const (I := fun s₁ => s₁.pte d n = s.pte d n)
      (fun n' s₁ s₂ hlo _ hI hd => (hd.pte_of_ne (by omega)).trans hI) rfl
  exact ⟨fun h => h.congr hpte.symm, fun h => h.congr hpte⟩

end Space

namespace Kernel

section Resize

/-- The call reaches the loop of `allocuvm`. -/
structure Grows (k : Kernel) (c : Slot) (n : Int) : Prop where
  pos : 0 < n
  le : (k.proc c).sz ≤ k.newSize c n
  lt : k.newSize c n < kernBase
  room : (k.proc c).hasRoom = true
  some : 0 < k.newSize c n

/-- The call reaches the loop of `deallocuvm`. -/
structure Shrinks (k : Kernel) (c : Slot) (n : Int) : Prop where
  neg : n < 0
  lt : k.newSize c n < (k.proc c).sz

/-- The call asks for size 0: `growproc(-sz)`. -/
structure Empties (k : Kernel) (c : Slot) (n : Int) : Prop extends Shrinks k c n where
  empty : k.newSize c n = 0

instance (k : Kernel) (c : Slot) (n : Int) : Decidable (k.Empties c n) :=
  decidable_of_iff (n < 0 ∧ k.newSize c n < (k.proc c).sz ∧ k.newSize c n = 0)
    ⟨fun ⟨h1, h2, h3⟩ => ⟨⟨h1, h2⟩, h3⟩, fun h => ⟨h.neg, h.lt, h.empty⟩⟩

variable {cfg : Config} {k k' k₁ : Kernel} {c : Slot} {n : Int} {ok : Bool}

theorem growproc_grows (hsz : (k.proc c).sz < kernBase) (h : k.Grows c n)
    (hg : k.growproc cfg c n = .ok (k', ok)) :
    ∃ k₁, Grown cfg c (k.proc c).pgdir 0 (pages (k.proc c).sz) (pages (k.newSize c n)) k k₁ ok ∧
      k' = if ok then k₁.setSz c (k.newSize c n) else k₁ := by
  simp only [growproc, if_pos h.pos] at hg
  obtain ⟨⟨k₁, r⟩, hgrow, hg⟩ := Outcome.bind_eq_ok.mp hg
  dsimp only at hg
  rcases allocuvm_ok hsz hgrow with ⟨hno, -, -⟩ | ⟨hlt, -, -⟩ | ⟨-, -, -, ok', hgrown, hr⟩
  · have hroom := (hno h.lt).2
    rw [h.room] at hroom
    simp at hroom
  · exact absurd hlt (Nat.not_lt.mpr h.le)
  · refine ⟨k₁, ?_⟩
    rcases growproc_end hg with ⟨-, hzero, rfl, rfl⟩ | ⟨hne, rfl, rfl⟩
    · cases ok' with
      | false => exact ⟨hgrown, rfl⟩
      | true =>
        rw [hr] at hzero
        exact absurd hzero (Nat.ne_of_gt h.some)
    · cases ok' with
      | false => exact absurd hr (hne (by have := h.pos; omega))
      | true =>
        rw [hr]
        exact ⟨hgrown, rfl⟩

theorem growproc_shrinks (hsz : (k.proc c).sz < kernBase) (h : k.Shrinks c n)
    (hg : k.growproc cfg c n = .ok (k', ok)) :
    ∃ k₁, RangeRun (Dropped cfg c (k.proc c).pgdir) (pages (k.proc c).sz) (pages (k.newSize c n)) k k₁ ∧
      ok = decide (k.newSize c n ≠ 0) ∧ k' = if ok then k₁.setSz c (k.newSize c n) else k₁ := by
  have hneg := h.neg
  simp only [growproc, if_neg (show ¬ 0 < n by omega), if_pos hneg, gt_iff_lt] at hg
  obtain ⟨⟨k₁, r⟩, hshrink, hg⟩ := Outcome.bind_eq_ok.mp hg
  dsimp only at hg
  rcases deallocuvm_ok (le_of_lt hsz) hshrink with ⟨hle, -, -⟩ | ⟨-, hrun, hr⟩
  · exact absurd h.lt (Nat.not_lt.mpr hle)
  · refine ⟨k₁, hrun, ?_⟩
    have hsize : r = k.newSize c n := hr
    rcases growproc_end hg with ⟨-, hzero, rfl, rfl⟩ | ⟨hne, rfl, rfl⟩
    · rw [← hsize, hzero]
      exact ⟨by simp, rfl⟩
    · rw [← hsize]
      exact ⟨by simpa using hne (by omega), rfl⟩

theorem growproc_same (hsz : (k.proc c).sz < kernBase) (hgrow : ¬ k.Grows c n) (hshrink : ¬ k.Shrinks c n)
    (hg : k.growproc cfg c n = .ok (k', ok)) : k' = k := by
  have hend : ∀ {r : Nat} {k₁ : Kernel}, k₁ = k → (n = 0 → r = (k.proc c).sz) →
      (r = 0 ∨ r = (k.proc c).sz) → (if n ≠ 0 ∧ r = 0 then pure (k₁, false)
      else pure (k₁.setProc c { k₁.proc c with sz := r }, true) : Except Crash (Kernel × Bool)) =
        .ok (k', ok) → k' = k := by
    rintro r k₁ rfl hzero hr hg
    rcases growproc_end hg with ⟨-, -, rfl, -⟩ | ⟨hne, rfl, -⟩
    · rfl
    · by_cases hn : n = 0
      · exact setSz_self (hzero hn).symm
      · exact setSz_self (hr.resolve_left (hne hn)).symm
  simp only [growproc] at hg
  split at hg
  · next hpos =>
    obtain ⟨⟨k₁, r⟩, halloc, hg⟩ := Outcome.bind_eq_ok.mp hg
    rcases allocuvm_ok hsz halloc with ⟨-, rfl, rfl⟩ | ⟨-, rfl, rfl⟩ | ⟨hle, hlt, hroom, ok', hgrown, hr⟩
    · exact hend rfl (by omega) (.inl rfl) hg
    · exact hend rfl (by omega) (.inr rfl) hg
    · -- a growth to size 0 starts there, and places nothing
      have hempty : k.newSize c n = 0 := by
        by_contra hne
        exact hgrow ⟨hpos, hle, hlt, hroom, Nat.pos_of_ne_zero hne⟩
      have hsize : (((k.proc c).sz + n) % 2 ^ 32).toNat = 0 := hempty
      have hzero : (k.proc c).sz = 0 := by omega
      rw [hsize, hzero] at hgrown
      rw [hsize, ite_self] at hr
      cases hgrown with
      | full hrun =>
        cases hrun with
        | done _ => exact hend rfl (by omega) (.inl hr) hg
        | next hlt' _ _ => omega
      | noFrame hm hm' _ _ _ => omega
      | noTable hm hm' _ _ _ _ _ => omega
  · split at hg
    · next hneg =>
      obtain ⟨⟨k₁, r⟩, hdealloc, hg⟩ := Outcome.bind_eq_ok.mp hg
      rcases deallocuvm_ok (le_of_lt hsz) hdealloc with ⟨-, rfl, rfl⟩ | ⟨hlt, -, -⟩
      · exact hend rfl (by omega) (.inr rfl) hg
      · exact absurd ⟨hneg, hlt⟩ hshrink
    · obtain ⟨⟨k₁, r⟩, hdo, hg⟩ := Outcome.bind_eq_ok.mp hg
      obtain ⟨rfl, rfl⟩ : k = k₁ ∧ (k.proc c).sz = r := by simpa using hdo
      exact hend rfl (fun _ => rfl) (.inr rfl) hg

end Resize

variable {cfg : Config} {k k' k₀ k₁ : Kernel} {c : Slot} {d : Frame} {m n lo hi : Nat} {ok : Bool}
  {a : Action} {as : List Action}

section Growth

private theorem grown_tidy (hv : FreeValid cfg k) (h : (k.space c).Tidy d m lo) (hle : lo ≤ hi)
    (hhi : hi ≤ userPages) {isImportant : Int} (hg : Grown cfg c d isImportant lo hi k k' ok) :
    (k'.space c).Tidy d m (if ok then hi else lo) := by
  cases hg with
  | full hrun =>
    obtain ⟨hplaced, -, -⟩ := placedRun_space hv h.image hhi hrun
    obtain ⟨himage, hstale⟩ := h.placed hle hhi hplaced
    exact ⟨himage, hstale.mono fun hpos => lt_of_lt_of_le hpos hle⟩
  | noFrame hm hm' hrun hfree hdropped =>
    obtain ⟨hplaced, hv', -⟩ := placedRun_space hv h.image (by omega) hrun
    obtain ⟨himage, hstale⟩ := h.placed hm (by omega) hplaced
    obtain ⟨hdrop, -, -⟩ := droppedRun_space hv' hdropped
    simp only [Bool.false_eq_true, if_false]
    exact .dropped himage hstale (by omega) hhi id hdrop
  | @noTable mid mem k₁ k₂ hm hm' hrun hfree hnone hdropped hvalid =>
    obtain ⟨hplaced, hv', -⟩ := placedRun_space hv h.image (by omega) hrun
    obtain ⟨himage, hstale⟩ := h.placed hm (by omega) hplaced
    have htaken : FreeValid cfg ({ k₁ with freelist := [] }.setMem mem fun _ => 0) := by
      intro fr hfr
      simp at hfr
    obtain ⟨hdrop, -, -⟩ := droppedRun_space htaken hdropped
    simp only [Bool.false_eq_true, if_false]
    exact .dropped himage hstale (by omega) hhi id hdrop

theorem grown_mapped (hv : FreeValid cfg k) (h : (k.space c).Image d m lo)
    (hmapped : ∀ n < lo, (k.space c).MappedPage d n) (hle : lo ≤ hi) (hhi : hi ≤ userPages)
    {isImportant : Int} (hg : Grown cfg c d isImportant lo hi k k' ok) :
    ∀ n < if ok then hi else lo, (k'.space c).MappedPage d n := by
  cases hg with
  | full hrun =>
    obtain ⟨hplaced, -, -⟩ := placedRun_space hv h hhi hrun
    exact Space.placed_mapped h hmapped hle hhi hplaced
  | noFrame hm hm' hrun hfree hdropped =>
    obtain ⟨hplaced, hv', -⟩ := placedRun_space hv h (by omega) hrun
    obtain ⟨hdrop, -, -⟩ := droppedRun_space hv' hdropped
    intro n hn
    apply (Space.dropped_mapped_iff hdrop hn).mpr
    exact Space.placed_mapped h hmapped hm (by omega) hplaced n (lt_of_lt_of_le hn hm)
  | @noTable mid mem k₁ k₂ hm hm' hrun hfree hnone hdropped hvalid =>
    obtain ⟨hplaced, hv', -⟩ := placedRun_space hv h (by omega) hrun
    have htaken : FreeValid cfg ({ k₁ with freelist := [] }.setMem mem fun _ => 0) := by
      intro fr hfr
      simp at hfr
    obtain ⟨hdrop, -, -⟩ := droppedRun_space htaken hdropped
    intro n hn
    apply (Space.dropped_mapped_iff hdrop hn).mpr
    exact Space.placed_mapped h hmapped hm (by omega) hplaced n (lt_of_lt_of_le hn hm)

private theorem setSz_space {sz : Nat} : (k.setSz c sz).space c = k.space c := by
  simp [setSz, space]

theorem setSz_sz {sz : Nat} : ((k.setSz c sz).proc c).sz = sz := by
  simp [setSz]

theorem growproc_tidy (hv : FreeValid cfg k) (hsz : (k.proc c).sz < kernBase) {x : Int}
    (h : (k.space c).Tidy (k.proc c).pgdir m (pages (k.proc c).sz))
    (hg : k.growproc cfg c x = .ok (k', ok)) :
    (k'.space c).Tidy (k.proc c).pgdir m (pages (k'.proc c).sz) := by
  have hpages := pages_le_userPages (le_of_lt hsz)
  by_cases hgrow : k.Grows c x
  · obtain ⟨k₁, hgrown, rfl⟩ := growproc_grows hsz hgrow hg
    have hhi := pages_le_userPages (le_of_lt hgrow.lt)
    have htidy := grown_tidy hv h (pages_mono hgrow.le) hhi hgrown
    have hl := (grown_move hv h.image (pages_mono hgrow.le) hhi hgrown).2.2
    cases ok with
    | true =>
      simp only [if_true] at htidy ⊢
      rw [setSz_space, setSz_sz]
      exact htidy
    | false =>
      simp only [Bool.false_eq_true, if_false] at htidy ⊢
      rw [hl.sz]
      exact htidy
  · by_cases hshrink : k.Shrinks c x
    · obtain ⟨k₁, hrun, rfl, rfl⟩ := growproc_shrinks hsz hshrink hg
      obtain ⟨hdrop, -, hl⟩ := droppedRun_space hv hrun
      by_cases hzero : k.newSize c x = 0
      · -- the size stays, and with it what is said of the pages below
        obtain ⟨himage, hstale⟩ := Space.Tidy.droppedRun h.image h.noStale hpages hdrop
        simp only [hzero, ne_eq, not_true_eq_false, decide_false, Bool.false_eq_true, if_false]
        rw [hl.sz]
        exact ⟨himage, hstale⟩
      · rw [if_pos (by simpa using hzero), setSz_space, setSz_sz]
        have hle := pages_mono (le_of_lt hshrink.lt)
        have hlo : 0 < pages (k.newSize c x) := lt_pages.mpr (by omega)
        exact .dropped h.image h.noStale (le_refl _) hpages (fun _ => hlo) hdrop
    · rw [growproc_same hsz hgrow hshrink hg]
      exact h

end Growth

section System

/-- Every running process has a tidy image. -/
structure Intact (cfg : Config) (k : Kernel) : Prop where
  consistent : Consistent cfg allCounted k
  tidy : ∀ c, k.Active c → ∃ m, (k.space c).Tidy (k.proc c).pgdir m (pages (k.proc c).sz)

private theorem Started.intact (h : Started cfg k) : Intact cfg k where
  consistent := h.consistent
  tidy c hc := by
    obtain ⟨m, himage, hagree⟩ := (h.exec c hc.inUse hc.pid).image
    exact ⟨m, himage, hagree.noStale⟩

private theorem Intact.others (h : Intact cfg k) (hc : k.Active c) (hproc : ∀ c', c' ≠ c → k'.proc c' = k.proc c')
    (hdirs : ∀ d, d ≠ (k.proc c).pgdir → k'.pte d = k.pte d) {c' : Slot} (hne : c' ≠ c) (hc' : k'.Active c') :
    ∃ m, (k'.space c').Tidy (k'.proc c').pgdir m (pages (k'.proc c').sz) := by
  have hsame := hproc c' hne
  obtain ⟨h1, h2, h3, h4⟩ := hc'
  rw [hsame] at h1 h2 h3 h4
  obtain ⟨m, htidy⟩ := h.tidy c' ⟨h1, h2, h3, h4⟩
  have hdir : (k.proc c').pgdir ≠ (k.proc c).pgdir :=
    fun heq => hne (h.consistent.pgdir_inj c' c ⟨h2, h3⟩ hc.inUse heq)
  refine ⟨m, ?_⟩
  rw [hsame]
  exact htidy.congr (fun n => congrFun (hdirs _ hdir) n) (by simp [space, hsame]) (by simp [space, hsame])
    (by simp [space, hsame])

private theorem Intact.quiet (h : Intact cfg k) (hq : Quiet k k') : Intact cfg k' where
  consistent := h.consistent.quiet hq
  tidy c hc := by
    obtain ⟨hpgdir, hpid, hsz, hstate⟩ := hq.proc c
    obtain ⟨h1, h2, h3, h4⟩ := hc
    rw [hpid] at h1
    rw [hstate] at h2 h3 h4
    obtain ⟨m, htidy⟩ := h.tidy c ⟨h1, h2, h3, h4⟩
    rw [hpgdir, hsz]
    exact ⟨m, htidy.alike (hq.alike c)⟩

private theorem Intact.performed
    (h : Intact cfg k) (hc : k.Active c) {op : Op} {e : Event} (huser : op.User)
    (hfree : (k.fetches c op).isSome = true → k.freelist ≠ [])
    (hstep : k.perform cfg c op = .ok (k', e)) : Intact cfg k' := by
  have hconsistent := h.consistent.performed hc huser (fun hsome hnil => absurd hnil (hfree hsome)) hstep
  have hv : FreeValid cfg k := h.consistent.frames.valid_free
  have hsz := (h.consistent.image c hc).1
  obtain ⟨m, htidy⟩ := h.tidy c hc
  have hexited : ∀ {k₁ : Kernel} {p : Proc}, Local c (k.proc c).pgdir k k₁ →
      k' = k₁.setProc c (exited p) → Intact cfg k' := by
    rintro k₁ p hl rfl
    refine ⟨hconsistent, fun c' hc' => ?_⟩
    have hne : c' ≠ c := by
      rintro rfl
      exact exited_not_active hc'
    apply h.others hc _ _ hne hc'
    · intro c₁ hne'
      rw [setProc_proc_of_ne hne', hl.other c₁ hne']
    · exact fun d hd => funext fun n => hl.pte hd n
  cases perform_ok huser hstep with
  | loaded hop ha hacc => exact h.quiet (walked_quiet (access_some hacc).1)
  | @stored a _ walk _ hop ha hacc =>
    have hw : Intact cfg (k.walked c a walk) := h.quiet (walked_quiet (access_some hacc).1)
    exact ⟨hconsistent, fun c' hc' => hw.tidy c' ⟨hc'.1, hc'.2, hc'.3, hc'.4⟩⟩
  | @faulted a _ ha hfetch hf =>
    have hn := page_lt_userPages ha
    cases hf with
    | serviced hPG hready hfetched =>
      obtain ⟨hspace, hl⟩ := fetched_space hv htidy.image.sound hready hfetched
      refine ⟨hconsistent, fun c' hc' => ?_⟩
      by_cases hne : c' = c
      · subst hne
        rw [hl.pgdir, hl.sz]
        exact ⟨m, htidy.fetch hn hPG hspace⟩
      · exact h.others hc hl.other (fun d hd => funext fun n => hl.pte hd n) hne hc'
    | notPaged hPG => exact hexited (.refl _ _ k) rfl
    | refused hPG hready hfetched =>
      exact hexited (fetched_space hv htidy.image.sound hready hfetched).2 rfl
  | @resized x _ ok hop hg =>
    subst hop
    have hmine := growproc_tidy hv hsz htidy hg
    obtain ⟨m', hh⟩ := h.consistent.healthy hc
    obtain ⟨k₁, sz, hl, rfl, -, -⟩ := hh.resized hc.live hsz (growproc_ok hsz hg)
    refine ⟨hconsistent, fun c' hc' => ?_⟩
    by_cases hne : c' = c
    · subst hne
      have hpgdir : ((k₁.setSz c' sz).proc c').pgdir = (k.proc c').pgdir := by simpa [setSz] using hl.pgdir
      rw [hpgdir]
      exact ⟨m, hmine⟩
    · apply h.others hc _ _ hne hc'
      · intro c₁ hne'
        rw [setSz, setProc_proc_of_ne hne', hl.other c₁ hne']
      · exact fun d hd => funext fun n => hl.pte hd n
  | ticked hop ht => exact h.quiet (updateAgeForAllProcess_quiet ht)

private theorem Intact.fork (h : Intact cfg k) (hc : k.Active c) {np : Slot} (hf : k.fork cfg c = .ok (k', some np)) :
    Intact cfg k' := by
  have hconsistent := h.consistent.fork hc hf
  obtain ⟨d, hk⟩ := h.consistent.forked hc hf
  obtain ⟨p, parent, -, -, hchild⟩ := hk.child
  refine ⟨hconsistent, fun c' hc' => ?_⟩
  by_cases hne : c' = np
  · subst hne
    obtain ⟨m, htidy⟩ := h.tidy c hc
    have hpgdir : (k'.proc c').pgdir = d := by simp [hchild, forkedProc]
    have hsz : (k'.proc c').sz = (k.proc c).sz := by simp [hchild, forkedProc]
    rw [hpgdir, hsz]
    exact ⟨m, htidy.forked (hk.image htidy.image) hk.done (by simp [space, hchild, forkedProc])⟩
  · have hsame := hk.other c' hne
    obtain ⟨h1, h2, h3, h4⟩ := hc'
    rw [hsame] at h1 h2 h3 h4
    obtain ⟨m, htidy⟩ := h.tidy c' ⟨h1, h2, h3, h4⟩
    have hdir : (k.proc c').pgdir ≠ d := fun heq => hk.fresh ⟨c', ⟨h2, h3⟩, heq⟩
    refine ⟨m, ?_⟩
    rw [hsame]
    exact htidy.congr (fun n => congrFun (hk.pte _ hdir) n) (by simp [space, hsame]) (by simp [space, hsame])
      (by simp [space, hsame])

private theorem Intact.acted (h : Intact cfg k) (ha : Acted cfg k a k') : Intact cfg k' := by
  cases ha with
  | user hc huser hfree hstep => exact h.performed hc huser hfree hstep
  | fork hc hfork => exact h.fork hc hfork

/-- Every process of every state the system reaches has a tidy image. -/
theorem Started.intact_reached (h : Started cfg k₀) (hrun : Run (SysStep cfg) k₀ as k) : Intact cfg k :=
  hrun.keeps (fun _ _ _ hI hstep => hI.acted (Kernel.acted hstep)) h.intact

end System

end Kernel

end OsSessional.Paging
