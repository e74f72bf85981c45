import Mathlib.Data.Finset.Max
import OsSessional.Paging.FaultService

/-!
# What a child inherits

`fork` copies resident pages through the page table and the swap file by a loop of its own: half a
page for every used disc slot, one behind the other. That is a prefix of the parent's file, and it
is too short to hold the last used slot.
-/

namespace OsSessional.Paging

open Function (update update_self update_of_ne)

/-- The byte at offset `i`, if the file reaches that far. -/
def SwapFile.byte (f : SwapFile) (i : Nat) : Option Byte := if i < f.size then some (f.data i) else none

/-- How many disc slots are in use. -/
def usedSlots (disc : DiscTable) : Nat := (List.finRange discPages).countP fun j => (disc j).isUsed

namespace Kernel

variable (k : Kernel) (c : Slot)

/-- What the swap file holds of disc slot `j`. -/
def slotBytes (j : Fin discPages) (x : Fin pgSize) : Option Byte :=
  (k.proc c).swapFile.bind fun f => f.byte (j * pgSize + x)

/-- The bytes an access to page `n` comes to: those of its frame, or those a page-in reads. -/
def pageContents (n : Nat) (x : Fin pgSize) : Option Byte :=
  let pte := k.pte (k.proc c).pgdir n
  if hasFlag pte .PG then ((k.proc c).matchIndex (n * pgSize)).bind fun j => k.slotBytes c j x
  else if hasFlag pte .P then some (k.mem (pteAddr pte) x)
  else none

/-- The child at `np` has what the parent at `c` had: the pages on disc, and every page below `sz` as an
access finds it; nothing of the parent has changed. -/
structure WholeCopy (np : Slot) (k' : Kernel) : Prop where
  slots : ∀ j, ((k.proc c).pagesInDisc j).isUsed = true → ∀ x, k'.slotBytes np j x = k.slotBytes c j x
  pages : ∀ n < pages (k.proc c).sz, ∀ x, k'.pageContents np n x = k.pageContents c n x
  parent : k'.proc c = k.proc c
  entries : ∀ n, k'.pte (k.proc c).pgdir n = k.pte (k.proc c).pgdir n

/-- A disc slot that is in use or that a page-in would read. -/
def NeedsSlot (j : Fin discPages) : Prop :=
  ((k.proc c).pagesInDisc j).isUsed = true ∨ ∃ n < pages (k.proc c).sz,
    hasFlag (k.pte (k.proc c).pgdir n) .PG = true ∧ (k.proc c).matchIndex (n * pgSize) = some j

/-- What the file holds of the needed slots lies below half a page for every slot in use. -/
def HalvesSuffice : Prop := ∀ j f, k.NeedsSlot c j → (k.proc c).swapFile = some f →
  min f.size ((j + 1) * pgSize) ≤ max (j * pgSize) (usedSlots (k.proc c).pagesInDisc * (pgSize / 2))

end Kernel

namespace SwapFile

variable {f g : SwapFile}

/-- `g` is what `f` holds below `n`. -/
structure PrefixOf (n : Nat) (f g : SwapFile) : Prop where
  size : g.size = min f.size n
  data : ∀ i < g.size, g.data i = f.data i

private theorem prefixOf_empty (f : SwapFile) : PrefixOf 0 f .empty where
  size := by simp [empty]
  data i hi := by simp [empty] at hi

private theorem filewrite_zero (f : SwapFile) (src : Nat → Byte) (off : Nat) :
    f.filewrite src off 0 = (f, true) := by
  simp [filewrite, filewriteLoop]

private theorem PrefixOf.extend
    {n m : Nat} (h : PrefixOf n f g) (hsize : f.size ≤ maxFile * bSize) (hm : m ≤ pgSize) :
    ∃ bytes, f.readi g.size m = some (min m (f.size - g.size), bytes) ∧
      PrefixOf (n + m) f (g.filewrite bytes g.size (min m (f.size - g.size))).1 := by
  have hbig : maxFile * bSize + pgSize < 2 ^ 32 := by decide
  have hle : g.size ≤ f.size := by
    rw [h.size]
    exact min_le_left _ _
  refine ⟨fun i => f.data (g.size + i), ?_, ?_⟩
  · unfold readi
    rw [if_neg (by omega)]
  · by_cases hzero : min m (f.size - g.size) = 0
    · rw [hzero, filewrite_zero]
      refine ⟨?_, h.data⟩
      rw [h.size] at hzero ⊢
      omega
    · rw [filewrite_eq g _ (Nat.pos_of_ne_zero hzero) (le_refl _) (by omega)]
      constructor
      · simp only [overlay, h.size]
        omega
      · intro i hi
        simp only [overlay] at hi ⊢
        split
        · congr 1
          omega
        · exact h.data i (by omega)

theorem PrefixOf.byte {n : Nat} (h : PrefixOf n f g) (i : Nat) :
    g.byte i = if i < n then f.byte i else none := by
  unfold SwapFile.byte
  rw [h.size]
  by_cases hi : i < min f.size n
  · rw [if_pos hi, if_pos (by omega), if_pos (by omega), h.data i (by rw [h.size]; exact hi)]
  · rw [if_neg hi]
    split
    · rw [if_neg (by omega)]
    · rfl

private theorem PrefixOf.agrees_iff {n : Nat} (h : PrefixOf n f g) (a : Nat) :
    (∀ x : Fin pgSize, g.byte (a + x) = f.byte (a + x)) ↔ min f.size (a + pgSize) ≤ max a n := by
  simp only [h.byte]
  constructor
  · intro hall
    by_contra hlt
    have hx := hall ⟨max a n - a, by omega⟩
    rw [if_neg (by simp only; omega)] at hx
    unfold SwapFile.byte at hx
    rw [if_pos (by simp only; omega)] at hx
    simp at hx
  · intro hle x
    have hx := x.isLt
    split
    · rfl
    · unfold SwapFile.byte
      rw [if_neg (by omega)]

end SwapFile

namespace Kernel

variable {cfg : Config} {X : Frame → Prop} {k k' : Kernel} {c np : Slot}

section Access

variable {k₁ : Kernel} {n : Nat}

private theorem byte_overlay {f : SwapFile} {src : Nat → Byte} {off m i : Nat} {b : Byte}
    (hout : i < off ∨ off + m ≤ i) (hb : f.byte i = some b) : (f.overlay src off m).byte i = some b := by
  unfold SwapFile.byte at hb ⊢
  split at hb
  · next hlt =>
    have hsize : i < (f.overlay src off m).size := lt_of_lt_of_le hlt (le_max_left _ _)
    have hdata : (f.overlay src off m).data i = f.data i := if_neg (by omega)
    rw [if_pos hsize, hdata]
    exact hb
  · simp at hb

private theorem RoomAt.slotBytes {i : Fin maxPyscPages} (h : RoomAt cfg c k i k₁) {j : Fin discPages}
    (hj : (k.proc c).matchIndex n = some j) {x : Fin pgSize} {b : Byte}
    (hb : k.slotBytes c j x = some b) : k₁.slotBytes c j x = some b := by
  cases h with
  | free hfree => exact hb
  | @evicted k₁ j₀ f page hfull hev =>
    have hne : j.val ≠ j₀.val := by
      intro he
      obtain rfl := Fin.ext he
      have hspec := Scan.first_spec hj
      simp [Proc.taken, hfull, hev.slot] at hspec
    have hx := x.isLt
    unfold Kernel.slotBytes at hb ⊢
    rw [hev.swapFile, Option.bind_some] at hb
    rw [hev.result]
    simp only [setPte_proc, setProc_proc_self, evictedProc, Option.bind_some]
    refine byte_overlay ?_ hb
    rw [Nat.mul_comm pgSize]
    rcases Nat.lt_or_gt_of_ne hne with hlt | hlt
    · left
      have hle : (j.val + 1) * pgSize ≤ j₀.val * pgSize := Nat.mul_le_mul_right _ hlt
      rw [Nat.add_mul] at hle
      omega
    · right
      have hle : (j₀.val + 1) * pgSize ≤ j.val * pgSize := Nat.mul_le_mul_right _ hlt
      rw [Nat.add_mul] at hle
      omega

/-- A page-in that returns 1 has brought in what it was going to read. -/
theorem retrievePage_pageContents (h : Consistent cfg X k) (hc : k.Active c) {a : Nat} (ha : a < kernBase)
    (hPG : hasFlag (k.pte (k.proc c).pgdir (a / pgSize)) .PG = true) (hfree : k.freelist ≠ [])
    (hret : k.retrievePage cfg c a = .ok (k', true)) {x : Fin pgSize} {b : Byte}
    (hb : k.pageContents c (a / pgSize) x = some b) : k'.pageContents c (a / pgSize) x = some b := by
  obtain ⟨-, m, himage⟩ := h.image c hc
  have hn := page_lt_userPages ha
  obtain ⟨mem, k₀, hready, hfetched⟩ := retrievePage_ok ha hret
  have hspace : k₀.space c = k.space c := hready.space
  have hl : Local c (k.proc c).pgdir k k₀ := .of_pageReady hready
  obtain ⟨faults, htables⟩ := hready.tables
  rw [← hspace] at himage
  have hPG₀ : hasFlag (k₀.pte (k.proc c).pgdir (a / pgSize)) .PG = true :=
    (congrArg (fun s => hasFlag (s.pte (k.proc c).pgdir (a / pgSize)) .PG) hspace).trans hPG
  obtain ⟨hP₀, haddr₀⟩ := himage.sound.paged _ _ rfl hn hPG₀
  cases hready with
  | null hnil => exact absurd hnil hfree
  | @frame fr rest hcons =>
    have halign := (h.frames.valid_free fr (by simp [hcons])).aligned
    cases hfetched with
    | missing hroom htable habsent hindex =>
      obtain ⟨j, -, -, hj⟩ := hroom.found himage hn hPG₀
      simp [hj] at hindex
    | @moved i k₁ j f count bytes fr' pg buf hroom htable habsent hindex hfile hread hpage =>
      obtain ⟨j', hmatch, -, hj'⟩ := hroom.found himage hn hPG₀
      obtain rfl : j = j' := Option.some.inj (hindex.symm.trans hj')
      have hdir : (k₁.proc c).pgdir = (k.proc c).pgdir :=
        (Local.of_room himage.sound hroom).pgdir.trans hl.pgdir
      have hentry : k₁.pte (k.proc c).pgdir (a / pgSize) = k.pte (k.proc c).pgdir (a / pgSize) := by
        have hsame := hroom.space.pte_of_absent himage.sound hP₀
        rw [hspace] at hsame
        exact hsame
      have haddr : pteAddr (k₁.pte (k₁.proc c).pgdir (a / pgSize)) = 0 := by
        rw [hdir, hentry]
        exact haddr₀
      obtain ⟨rfl, hbytes⟩ := hpage fr rfl halign haddr
      have hslot : k₁.slotBytes c j x = some b := by
        apply hroom.slotBytes hmatch
        unfold Kernel.pageContents at hb
        have hmatch' : (k.proc c).matchIndex (a / pgSize * pgSize) = some j := by
          rw [← hmatch, htables]
          rfl
        simp only [hPG, if_true, hmatch', Option.bind_some] at hb
        unfold Kernel.slotBytes at hb ⊢
        rw [htables]
        exact hb
      have hin : x.val < count ∧ bytes x = b := by
        unfold Kernel.slotBytes SwapFile.byte at hslot
        rw [hfile, Option.bind_some] at hslot
        unfold SwapFile.readi at hread
        split at hread
        · simp at hread
        · obtain ⟨rfl, rfl⟩ := Prod.mk.inj (Option.some.inj hread)
          split at hslot
          · next hlt =>
            have hx := x.isLt
            exact ⟨by omega, Option.some.inj hslot⟩
          · simp at hslot
      have hpte := pageIn_pte (some fr') htable
      have hvalue : pteAddr (pageInPte (k₁.pte (k₁.proc c).pgdir (a / pgSize)) (some fr')) = fr' :=
        pteAddr_pageInPte _ (by simpa using halign) haddr
      have halign' : ∀ fr, some fr' = some fr → PageAligned fr := by simpa using halign
      have hflags := hasFlag_pageInPte (k₁.pte (k₁.proc c).pgdir (a / pgSize)) halign'
      have hend : (({ k₁.pageIn c (a / pgSize) (some fr') with buffer := buf }.moveToRam c j i).setMem fr' pg).pte
          (k₁.proc c).pgdir (a / pgSize) = pageInPte (k₁.pte (k₁.proc c).pgdir (a / pgSize)) (some fr') := by
        change (k₁.pageIn c (a / pgSize) (some fr')).pte _ _ = _
        rw [hpte, setEntry_self]
      unfold Kernel.pageContents
      have hpgdir : ((({ k₁.pageIn c (a / pgSize) (some fr') with buffer := buf }.moveToRam c j i).setMem fr'
          pg).proc c).pgdir = (k₁.proc c).pgdir := by
        simp [moveToRam]
      rw [hpgdir, hend]
      simp only [hflags, hvalue, setMem_mem, update_self, hbytes x hin.1, hin.2]
      simp

end Access

section Copy

private theorem copySwapLoop_prefix {disc : DiscTable} {parent : SwapFile}
    (hsize : parent.size ≤ maxFile * bSize) :
    ∀ (js : List (Fin discPages)) (n : Nat) (child : SwapFile), SwapFile.PrefixOf n parent child →
      SwapFile.PrefixOf (n + js.countP (fun j => (disc j).isUsed) * (pgSize / 2)) parent
        (copySwapLoop disc parent js child.size child) := by
  intro js
  induction js with
  | nil =>
    intro n child h
    simpa [copySwapLoop] using h
  | cons j js ih =>
    intro n child h
    have hbig : maxFile * bSize < 2 ^ 32 := by decide
    have hle : child.size ≤ parent.size := by
      rw [h.size]
      exact min_le_left _ _
    have hoff : ((child.size : Int) % 2 ^ 32).toNat = child.size := by omega
    simp only [copySwapLoop]
    by_cases hused : (disc j).isUsed = true
    · obtain ⟨bytes, hread, hnext⟩ := h.extend (m := pgSize / 2) hsize (by decide)
      have hsum : n + pgSize / 2 + js.countP (fun j => (disc j).isUsed) * (pgSize / 2) =
          n + (j :: js).countP (fun j => (disc j).isUsed) * (pgSize / 2) := by
        rw [List.countP_cons_of_pos (p := fun j => (disc j).isUsed) hused, Nat.add_mul]
        omega
      have hend : ((child.filewrite bytes child.size (min (pgSize / 2) (parent.size - child.size))).1.size : Int) =
          child.size + (min (pgSize / 2) (parent.size - child.size) : Nat) := by
        rw [hnext.size, h.size]
        omega
      have hrest := ih _ _ hnext
      rw [hend, hsum] at hrest
      simp only [hused, if_true, hoff, hread]
      exact hrest
    · simp only [hused, Bool.false_eq_true, if_false]
      have hrest := ih n child h
      rwa [List.countP_cons_of_neg (p := fun j => (disc j).isUsed) hused]

variable {d : Frame}

private theorem Forked.file (h : Forked cfg X c np d k k') {f : SwapFile} (hf : (k.proc c).swapFile = some f)
    (hsize : f.size ≤ maxFile * bSize) : ∃ g, (k'.proc np).swapFile = some g ∧
      SwapFile.PrefixOf (usedSlots (k.proc c).pagesInDisc * (pgSize / 2)) f g := by
  obtain ⟨p, parent, hparent, -, hchild⟩ := h.child
  obtain rfl : parent = f := Option.some.inj (hparent.symm.trans hf)
  refine ⟨_, by rw [hchild]; rfl, ?_⟩
  have hprefix : SwapFile.PrefixOf
      (0 + usedSlots (k.proc c).pagesInDisc * (pgSize / 2)) parent
      (copySwapLoop (k.proc c).pagesInDisc parent (List.finRange discPages) 0 .empty) :=
    copySwapLoop_prefix hsize (List.finRange discPages) 0 .empty parent.prefixOf_empty
  rw [Nat.zero_add] at hprefix
  exact hprefix

private theorem Forked.slotBytes_iff (h : Forked cfg X c np d k k') {f : SwapFile}
    (hf : (k.proc c).swapFile = some f) (hsize : f.size ≤ maxFile * bSize) (j : Fin discPages) :
    (∀ x, k'.slotBytes np j x = k.slotBytes c j x) ↔ min f.size ((j + 1) * pgSize) ≤
      max (j * pgSize) (usedSlots (k.proc c).pagesInDisc * (pgSize / 2)) := by
  obtain ⟨g, hg, hprefix⟩ := h.file hf hsize
  rw [Nat.add_mul, Nat.one_mul, ← hprefix.agrees_iff]
  simp only [slotBytes, hg, hf, Option.bind_some]

theorem Forked.matchIndex (h : Forked cfg X c np d k k') (va : Nat) :
    (k'.proc np).matchIndex va = (k.proc c).matchIndex va := by
  obtain ⟨p, parent, -, -, hchild⟩ := h.child
  rw [hchild]
  rfl

private theorem Forked.pageContents
    (h : Forked cfg X c np d k k') {n : Nat} (hn : n < pages (k.proc c).sz)
    (x : Fin pgSize) : k'.pageContents np n x =
      if hasFlag (k.pte (k.proc c).pgdir n) .PG then
        ((k.proc c).matchIndex (n * pgSize)).bind fun j => k'.slotBytes np j x
      else k.pageContents c n x := by
  obtain ⟨p, parent, -, -, hchild⟩ := h.child
  have hpgdir : (k'.proc np).pgdir = d := by rw [hchild]; rfl
  unfold Kernel.pageContents
  rw [hpgdir, h.matchIndex]
  cases hPG : hasFlag (k.pte (k.proc c).pgdir n) .PG with
  | true =>
    rw [(h.done n hn).paged hPG]
    simp only [show hasFlag ptePG .PG = true by decide, if_true]
  | false =>
    obtain ⟨hP, hflags⟩ := (h.done n hn).resident hPG
    simp only [hflags, hPG, hP, Bool.false_eq_true, if_false, if_true, h.copied n hn hPG]

private theorem Forked.wholeCopy_iff (h : Forked cfg X c np d k k') (hc : k.Active c) {f : SwapFile}
    (hf : (k.proc c).swapFile = some f) (hsize : f.size ≤ maxFile * bSize) :
    WholeCopy k c np k' ↔ k.HalvesSuffice c := by
  constructor
  · intro hcopy j f' hneeds hf'
    obtain rfl := Option.some.inj (hf.symm.trans hf')
    apply (h.slotBytes_iff hf hsize j).mp
    rcases hneeds with hused | ⟨n, hn, hPG, hmatch⟩
    · exact hcopy.slots j hused
    · intro x
      have hpage := hcopy.pages n hn x
      rw [h.pageContents hn, if_pos hPG, hmatch] at hpage
      unfold Kernel.pageContents at hpage
      rw [if_pos hPG, hmatch] at hpage
      exact hpage
  · intro hsuffice
    have hslot : ∀ j, k.NeedsSlot c j → ∀ x, k'.slotBytes np j x = k.slotBytes c j x :=
      fun j hj => (h.slotBytes_iff hf hsize j).mpr (hsuffice j f hj hf)
    refine ⟨fun j hused => hslot j (.inl hused), ?_, h.other c (Ne.symm h.ne), ?_⟩
    · intro n hn x
      rw [h.pageContents hn]
      split
      · next hPG =>
        unfold Kernel.pageContents
        rw [if_pos hPG]
        cases hmatch : (k.proc c).matchIndex (n * pgSize) with
        | none => rfl
        | some j => exact hslot j (.inr ⟨n, hn, hPG, hmatch⟩) x
      · rfl
    · intro n
      apply congrFun
      apply h.pte
      rintro rfl
      exact h.fresh hc.live

/-- `fork` gives the child all that the parent has exactly when the half pages it copies, one for each
slot in use, cover what the parent's file holds of the needed slots. -/
theorem fork_copies_iff (h : Consistent cfg X k) (hc : k.Active c)
    (hfork : k.fork cfg c = .ok (k', some np)) : WholeCopy k c np k' ↔ k.HalvesSuffice c := by
  obtain ⟨d, hforked⟩ := h.forked hc hfork
  obtain ⟨-, m, himage⟩ := h.image c hc
  obtain ⟨f, hf, hsize⟩ := himage.fence.file
  refine hforked.wholeCopy_iff hc hf ?_
  have hle : m ≤ discPages := himage.fence.le
  have hmax : discPages * pgSize ≤ maxFile * bSize := by decide
  exact le_trans hsize (le_trans (Nat.mul_le_mul_right _ hle) hmax)

private theorem usedSlots_le {disc : DiscTable} {j : Fin discPages} (h : ∀ i, (disc i).isUsed = true → i ≤ j) :
    usedSlots disc ≤ j + 1 := by
  have hcount : ∀ j : Fin discPages, (List.finRange discPages).countP (fun i => decide (i ≤ j)) = j + 1 := by
    decide
  rw [← hcount j]
  refine List.countP_mono_left ?_
  intro i _ hi
  exact decide_eq_true (h i hi)

private theorem Consistent.halvesSuffice_iff (h : Consistent cfg X k) (hc : k.Active c)
    (hwhole : ∀ j f, ((k.proc c).pagesInDisc j).isUsed = true → (k.proc c).swapFile = some f →
      (j + 1) * pgSize ≤ f.size) :
    k.HalvesSuffice c ↔ ∀ j, ((k.proc c).pagesInDisc j).isUsed = false := by
  obtain ⟨hsz, m, himage⟩ := h.image c hc
  obtain ⟨f, hf, -⟩ := himage.fence.file
  constructor
  · intro hsuffice j
    by_contra hj
    have hused : j ∈ Finset.univ.filter fun j => ((k.proc c).pagesInDisc j).isUsed = true := by
      simpa using hj
    -- the last slot in use lies beyond half a page for each slot up to it
    have hlast := Finset.max'_mem _ ⟨j, hused⟩
    generalize hj₀ : Finset.max' _ ⟨j, hused⟩ = j₀ at hlast
    have hused₀ : ((k.proc c).pagesInDisc j₀).isUsed = true := by simpa using hlast
    have hcount : usedSlots (k.proc c).pagesInDisc ≤ j₀ + 1 := by
      refine usedSlots_le fun i hi => ?_
      rw [← hj₀]
      exact Finset.le_max' _ i (by simpa using hi)
    have hle := hsuffice j₀ f (.inl hused₀) hf
    have hsize := hwhole j₀ f hused₀ hf
    have hhalf : usedSlots (k.proc c).pagesInDisc * (pgSize / 2) ≤ (j₀ + 1) * (pgSize / 2) :=
      Nat.mul_le_mul_right _ hcount
    simp only [pgSize] at hle hsize hhalf
    omega
  · intro hnone j f' hneeds
    rcases hneeds with hused | ⟨n, hn, hPG, -⟩
    · simp [hnone j] at hused
    · have huser := lt_of_lt_of_le hn (pages_le_userPages (le_of_lt hsz))
      obtain ⟨j', -, hused, -⟩ := himage.fence.paged n huser hPG
      rw [show ((k.space c).disc j').isUsed = false from hnone j'] at hused
      simp at hused

/-- A page is out when its process forks: half of it reaches the child. -/
theorem fork_copies_half :
    ¬ ∀ (cfg : Config) (k₀ k k' : Kernel) (as : List Action) (c np : Slot), Started cfg k₀ →
      Run (SysStep cfg) k₀ as k → k.Active c → k.fork cfg c = .ok (k', some np) →
      WholeCopy k c np k' := by
  intro h
  have hend : (([Action.user Solo.main (.growproc 4096)].foldlM (act (Solo.config .LIFO))
      Solo.full.kernel).map fun k => decide (k.Active Solo.main) &&
        decide (((k.proc Solo.main).pagesInDisc ⟨0, by decide⟩).isUsed = true) &&
        (k.fork (Solo.config .LIFO) Solo.main).toOption.any fun r => r.2.any fun np =>
          decide (r.1.slotBytes np ⟨0, by decide⟩ ⟨2048, by decide⟩ ≠
            k.slotBytes Solo.main ⟨0, by decide⟩ ⟨2048, by decide⟩)) = some true := by
    decide +kernel
  obtain ⟨k, hk, hend⟩ := Option.map_eq_some_iff.mp hend
  simp only [Bool.and_eq_true, decide_eq_true_eq] at hend
  obtain ⟨⟨hc, hused⟩, hend⟩ := hend
  obtain ⟨⟨k', r⟩, hok, hnp⟩ := (Option.any_eq_true _ _).mp hend
  obtain ⟨np, rfl, hbytes⟩ := (Option.any_eq_true _ _).mp hnp
  have hfork := Outcome.toOption_eq_some.mp hok
  have hcopy := h _ _ k k' _ _ np (Solo.full.started (le_refl _)) (.of_foldlM hk) hc hfork
  exact of_decide_eq_true hbytes (hcopy.slots _ hused _)

/-- The only page that was out is back in when the process forks. -/
theorem fork_copies_iff_none_out :
    ∃ k k' np, [Action.user Solo.main (.growproc 4096), .user Solo.main (.growproc (-4096)),
        .user Solo.main (.load 0 true)].foldlM (act (Solo.config .FIFO)) Solo.full.kernel = some k ∧
      k.fork (Solo.config .FIFO) Solo.main = .ok (k', some np) ∧ WholeCopy k Solo.main np k' := by
  have hend : (([Action.user Solo.main (.growproc 4096), .user Solo.main (.growproc (-4096)),
      .user Solo.main (.load 0 true)].foldlM (act (Solo.config .FIFO)) Solo.full.kernel).map fun k =>
        decide (k.Active Solo.main) &&
        decide (∀ j, ((k.proc Solo.main).pagesInDisc j).isUsed = false) &&
        (k.fork (Solo.config .FIFO) Solo.main).toOption.any fun r => r.2.isSome) = some true := by
    decide +kernel
  obtain ⟨k, hk, hend⟩ := Option.map_eq_some_iff.mp hend
  simp only [Bool.and_eq_true, decide_eq_true_eq] at hend
  obtain ⟨⟨hc, hnone⟩, hend⟩ := hend
  have hconsistent : Consistent (Solo.config .FIFO) allCounted k :=
    (Solo.full.started (le_refl _)).reached (.of_foldlM hk)
  obtain ⟨⟨k', r⟩, hok, hnp⟩ := (Option.any_eq_true _ _).mp hend
  obtain ⟨np, rfl⟩ := Option.isSome_iff_exists.mp hnp
  have hfork := Outcome.toOption_eq_some.mp hok
  refine ⟨k, k', np, hk, hfork, (fork_copies_iff hconsistent hc hfork).mpr ?_⟩
  apply (hconsistent.halvesSuffice_iff hc ?_).mpr hnone
  intro j f hused
  simp [hnone j] at hused

end Copy

end Kernel

end OsSessional.Paging
