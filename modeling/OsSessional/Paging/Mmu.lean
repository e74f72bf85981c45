import OsSessional.Lib.Bits

/-!
# Addresses and page-table entries

Constants and macros of `mmu.h` and `memlayout.h`. A page-table entry is the 32-bit word of the
source, a user virtual address or a size is a natural number. A frame is named by its physical
address, so `P2V` and `V2P` disappear except for the null pointer, whose `V2P` is a real address.
-/

namespace OsSessional.Paging

open Bits

/-- Physical address of a page frame; also how a pointer to a page directory is named. -/
abbrev Frame := BitVec 32
abbrev PTE := BitVec 32
abbrev Byte := UInt8

def pgSize : Nat := 4096
def kernBase : Nat := 0x80000000
def physTop : Nat := 0xE000000
def npdEntries : Nat := 1024
def nptEntries : Nat := 1024
def maxPyscPages : Nat := 15
def maxTotalPages : Nat := 30
/-- Length of `pagesInDisc`. -/
def discPages : Nat := maxTotalPages - maxPyscPages

/-- Contents of one frame. -/
abbrev Page := Fin pgSize → Byte

/-- The bytes of a page as a copy loop reads them. -/
def pageBytes (page : Page) : Nat → Byte := fun i => if h : i < pgSize then page ⟨i, h⟩ else 0

def pteP : PTE := 0x001
def pteW : PTE := 0x002
def pteU : PTE := 0x004
def pteA : PTE := 0x020
def ptePG : PTE := 0x200

def pteAddr (p : PTE) : Frame := p &&& ~~~0xFFF
def pteFlags (p : PTE) : PTE := p &&& 0xFFF

def pdx (va : Nat) : Nat := va / 2 ^ 22 % 1024
/-- Page number `va >> 12`, that is `PDX` and `PTX` together. -/
def vpn (va : Nat) : Nat := va / pgSize % 2 ^ 20
/-- `PGADDR(d, 0, 0)`. -/
def pgAddr (d : Nat) : Nat := d * 2 ^ 22

def pgRoundUp (sz : Nat) : Nat := (sz + pgSize - 1) % 2 ^ 32 / pgSize * pgSize
def pgRoundDown (a : Nat) : Nat := a / pgSize * pgSize

/-- `V2P` of a pointer returned by `kalloc`; the null pointer goes to `-KERNBASE`. -/
def v2p : Option Frame → Frame
  | some fr => fr
  | none => 0x80000000

/-- First page number of the kernel half. -/
def userPages : Nat := kernBase / pgSize

/-- `*pte |= PTE_PG; *pte &= ~PTE_P; *pte &= PTE_FLAGS(*pte);` -/
def pageOutPte (p : PTE) : PTE :=
  let p := p ||| ptePG
  let p := p &&& ~~~pteP
  p &&& pteFlags p

/-- `*pte |= PTE_P | PTE_W | PTE_U; *pte &= ~PTE_PG; *pte |= V2P(mem);` -/
def pageInPte (p : PTE) (mem : Option Frame) : PTE :=
  let p := p ||| (pteP ||| pteW ||| pteU)
  let p := p &&& ~~~ptePG
  p ||| v2p mem

/-- The entry `mappages` writes: `pa | perm | PTE_P`. -/
def mapPte (pa : Frame) (perm : PTE) : PTE := pa ||| perm ||| pteP

section Flags

/-- One of the five flags the paging code reads or writes. -/
inductive Flag
  | P | W | U | A | PG
  deriving DecidableEq

def Flag.mask : Flag → PTE
  | .P => pteP
  | .W => pteW
  | .U => pteU
  | .A => pteA
  | .PG => ptePG

private theorem Flag.isFlag (f : Flag) : IsFlag f.mask := by
  cases f
  · exact ⟨0, by decide, by decide⟩
  · exact ⟨1, by decide, by decide⟩
  · exact ⟨2, by decide, by decide⟩
  · exact ⟨5, by decide, by decide⟩
  · exact ⟨9, by decide, by decide⟩

/-- The truth value of `pte & flag`. -/
def hasFlag (p : PTE) (f : Flag) : Bool := test p f.mask

@[simp] theorem hasFlag_zero (f : Flag) : hasFlag 0#32 f = false := by
  simp [hasFlag]

theorem hasFlag_or (p q : PTE) (f : Flag) : hasFlag (p ||| q) f = (hasFlag p f || hasFlag q f) :=
  test_or f.isFlag

private theorem hasFlag_and (p q : PTE) (f : Flag) :
    hasFlag (p &&& q) f = (hasFlag p f && hasFlag q f) :=
  test_and f.isFlag

private theorem hasFlag_not (p : PTE) (f : Flag) : hasFlag (~~~p) f = !hasFlag p f :=
  test_not f.isFlag

theorem hasFlag_mask (f g : Flag) : hasFlag f.mask g = decide (f = g) := by
  cases f <;> cases g <;> decide

/-- A physical address whose flag bits are clear. -/
def PageAligned (fr : Frame) : Prop := fr &&& 0xFFF = 0

instance (fr : Frame) : Decidable (PageAligned fr) := inferInstanceAs (Decidable (_ = _))

private theorem hasFlag_of_aligned {fr : Frame} (h : PageAligned fr) (f : Flag) :
    hasFlag fr f = false := by
  have hmask : f.mask = 0xFFF &&& f.mask := by cases f <;> decide
  unfold hasFlag test
  rw [hmask, ← BitVec.and_assoc, show fr &&& 0xFFF = 0 from h]
  simp

private theorem pteAddr_of_aligned {fr : Frame} (h : PageAligned fr) : pteAddr fr = fr := by
  have hsplit : fr = (fr &&& ~~~0xFFF) ||| (fr &&& 0xFFF) := by
    ext i hi
    simp only [BitVec.getElem_or, BitVec.getElem_and, BitVec.getElem_not]
    cases fr[i] <;> simp
  rw [show fr &&& 0xFFF = 0 from h] at hsplit
  simpa [pteAddr] using hsplit.symm

private theorem aligned_v2p {mem : Option Frame} (h : ∀ fr, mem = some fr → PageAligned fr) :
    PageAligned (v2p mem) := by
  cases mem with
  | none => exact (by decide : PageAligned (0x80000000 : Frame))
  | some fr => exact h fr rfl

private theorem pteAddr_or (p q : PTE) : pteAddr (p ||| q) = pteAddr p ||| pteAddr q :=
  or_and p q _

theorem pteAddr_and_not_flag (p : PTE) (f : Flag) : pteAddr (p &&& ~~~f.mask) = pteAddr p :=
  and_not_flag_and (by cases f <;> decide)

end Flags

section Updates

variable (p : PTE)

/-- Paging out sets `PTE_PG`, clears `PTE_P` and keeps the other flags. -/
theorem hasFlag_pageOutPte (f : Flag) :
    hasFlag (pageOutPte p) f = (decide (f = .PG) || (decide (f ≠ .P) && hasFlag p f)) := by
  have hall : hasFlag 0xFFF f = true := by cases f <;> decide
  have hset : hasFlag (p ||| ptePG) f = (hasFlag p f || decide (Flag.PG = f)) := by
    rw [hasFlag_or, ← hasFlag_mask]; rfl
  have hclear : hasFlag (~~~pteP) f = !decide (Flag.P = f) := by
    rw [hasFlag_not, ← hasFlag_mask]; rfl
  simp only [pageOutPte, pteFlags, hasFlag_and, hall, hset, hclear, Bool.and_true, Bool.and_self]
  cases f <;> simp

@[simp] theorem pteAddr_pageOutPte : pteAddr (pageOutPte p) = 0 := by
  simp only [pageOutPte, pteFlags, pteAddr]
  rw [BitVec.and_assoc, and_and_not]
  simp

/-- Paging in makes the page present, writable and user, whatever it was before. -/
theorem hasFlag_pageInPte {mem : Option Frame} (h : ∀ fr, mem = some fr → PageAligned fr)
    (f : Flag) :
    hasFlag (pageInPte p mem) f =
      (decide (f = .P) || decide (f = .W) || decide (f = .U) || (decide (f ≠ .PG) && hasFlag p f)) := by
  have hset : hasFlag (pteP ||| pteW ||| pteU) f = (decide (f = .P) || decide (f = .W) || decide (f = .U)) := by
    cases f <;> decide
  have hclear : hasFlag (~~~ptePG) f = !decide (Flag.PG = f) := by
    rw [hasFlag_not, ← hasFlag_mask]; rfl
  simp only [pageInPte, hasFlag_or, hasFlag_and, hset, hclear, hasFlag_of_aligned (aligned_v2p h),
    Bool.or_false]
  cases f <;> simp

/-- Into an entry without an address the OR installs exactly the new frame. -/
theorem pteAddr_pageInPte {mem : Option Frame} (h : ∀ fr, mem = some fr → PageAligned fr)
    (hp : pteAddr p = 0) : pteAddr (pageInPte p mem) = v2p mem := by
  have hset : pteAddr (pteP ||| pteW ||| pteU) = 0 := by decide
  have hclear : pteAddr ((p ||| (pteP ||| pteW ||| pteU)) &&& ~~~ptePG) =
      pteAddr (p ||| (pteP ||| pteW ||| pteU)) := pteAddr_and_not_flag _ .PG
  simp only [pageInPte, pteAddr_or, hclear, hset, hp, pteAddr_of_aligned (aligned_v2p h)]
  simp

theorem hasFlag_mapPte_perm {pa : Frame} (h : PageAligned pa) (perm : PTE) (f : Flag) :
    hasFlag (mapPte pa perm) f = (hasFlag perm f || decide (f = .P)) := by
  have hP : hasFlag pteP f = decide (f = .P) := by cases f <;> decide
  simp only [mapPte, hasFlag_or, hasFlag_of_aligned h, hP, Bool.false_or]

theorem hasFlag_mapPte {pa : Frame} (h : PageAligned pa) (f : Flag) :
    hasFlag (mapPte pa (pteW ||| pteU)) f = (decide (f = .P) || decide (f = .W) || decide (f = .U)) := by
  have hset : hasFlag (pteW ||| pteU) f = (decide (f = .W) || decide (f = .U)) := by
    cases f <;> decide
  rw [hasFlag_mapPte_perm h, hset]
  cases f <;> simp

theorem hasFlag_mapPte_flags {pa : Frame} (h : PageAligned pa) (hp : hasFlag p .P = true) (f : Flag) :
    hasFlag (mapPte pa (pteFlags p)) f = hasFlag p f := by
  have hall : hasFlag 0xFFF f = true := by cases f <;> decide
  rw [hasFlag_mapPte_perm h, pteFlags, hasFlag_and, hall]
  cases f <;> simp [hp]

theorem pteAddr_mapPte {pa : Frame} (h : PageAligned pa) {perm : PTE} (hperm : pteAddr perm = 0) :
    pteAddr (mapPte pa perm) = pa := by
  have hP : pteAddr pteP = 0 := by decide
  simp only [mapPte, pteAddr_or, pteAddr_of_aligned h, hperm, hP]
  simp

theorem pteAddr_pteFlags : pteAddr (pteFlags p) = 0 := and_and_not p 0xFFF

theorem pteFlags_mapPte {pa : Frame} (h : PageAligned pa) (hp : hasFlag p .P = true) :
    pteFlags (mapPte pa (pteFlags p)) = pteFlags p := by
  have hP : hasFlag (pteFlags p) .P = true := by
    rw [pteFlags, hasFlag_and, hp]
    decide
  calc pteFlags (mapPte pa (pteFlags p))
      = pteFlags pa ||| pteFlags (pteFlags p) ||| pteFlags pteP := by simp only [mapPte, pteFlags, or_and]
    _ = 0 ||| pteFlags p ||| pteP := by
        rw [show pteFlags pa = 0 from h, show pteFlags pteP = pteP by decide,
          show pteFlags (pteFlags p) = pteFlags p from and_and_self p 0xFFF]
    _ = pteFlags p ||| pteP := by simp
    _ = pteFlags p := or_of_test Flag.P.isFlag hP

theorem hasFlag_clear (f g : Flag) :
    hasFlag (p &&& ~~~f.mask) g = (decide (f ≠ g) && hasFlag p g) := by
  rw [hasFlag_and, hasFlag_not, hasFlag_mask]
  cases f <;> cases g <;> simp

theorem hasFlag_set (f g : Flag) : hasFlag (p ||| f.mask) g = (hasFlag p g || decide (f = g)) := by
  rw [hasFlag_or, hasFlag_mask]

theorem pteAddr_set (f : Flag) : pteAddr (p ||| f.mask) = pteAddr p := by
  have h : pteAddr f.mask = 0 := by cases f <;> decide
  rw [pteAddr_or, h]
  simp

end Updates

end OsSessional.Paging
