import Mathlib.Algebra.Order.BigOperators.Group.Finset
import Mathlib.Data.Finset.Card
import Mathlib.Logic.Function.Basic
import OsSessional.Lib.Outcome
import OsSessional.Paging.SwapFile

/-!
# The blocks of a file

`balloc` and `bmap` of `fs.c`: a file holds up to `NDIRECT` blocks by their addresses in the inode and
`NINDIRECT` more by those in one further block. `bread` and `log_write` read and write whole blocks,
and the bitmap is kept apart from the blocks it lies in.
-/

namespace OsSessional.Paging

open Function (update update_self update_of_ne)
open Outcome

section Words

/-- `((uint*)b)[i]`. -/
def word (b : Nat → Byte) (i : Nat) : Nat :=
  (b (4 * i)).toNat + 2 ^ 8 * (b (4 * i + 1)).toNat + 2 ^ 16 * (b (4 * i + 2)).toNat +
    2 ^ 24 * (b (4 * i + 3)).toNat

/-- `((uint*)b)[i] = v`. -/
def setWord (b : Nat → Byte) (i v : Nat) : Nat → Byte := fun j =>
  if j / 4 = i then UInt8.ofNat (v / 2 ^ (8 * (j % 4))) else b j

theorem word_setWord_self (b : Nat → Byte) (i : Nat) {v : Nat} (hv : v < 2 ^ 32) :
    word (setWord b i v) i = v := by
  have hbyte (k : Nat) (hk : k < 4) :
      (setWord b i v (4 * i + k)).toNat = v / 2 ^ (8 * k) % 2 ^ 8 := by
    rw [setWord, if_pos (by omega), show (4 * i + k) % 4 = k by omega, UInt8.toNat_ofNat']
  have h0 := hbyte 0 (by decide)
  rw [Nat.add_zero] at h0
  rw [word, h0, hbyte 1 (by decide), hbyte 2 (by decide), hbyte 3 (by decide)]
  omega

theorem word_setWord_of_ne (b : Nat → Byte) {i i' : Nat} (v : Nat) (h : i' ≠ i) :
    word (setWord b i v) i' = word b i' := by
  have hbyte (k : Nat) (hk : k < 4) : setWord b i v (4 * i' + k) = b (4 * i' + k) := by
    rw [setWord, if_neg (by omega)]
  have h0 := hbyte 0 (by decide)
  rw [Nat.add_zero] at h0
  rw [word, word, h0, hbyte 1 (by decide), hbyte 2 (by decide), hbyte 3 (by decide)]

end Words

/-- The ways the block layer stops. -/
inductive BlockPanic
  | outOfBlocks | outOfRange | shortFilewrite
  deriving DecidableEq

/-- The blocks of the disc, of `BSIZE` bytes each, with the bitmap of those in use. -/
structure Disk where
  size : Nat
  inUse : Nat → Bool
  data : Nat → Nat → Byte
  size_lt : size < 2 ^ 32

namespace Disk

variable (d : Disk)

/-- `bread`, a change to the buffer, and `log_write`. -/
def log_write (b : Nat) (bytes : Nat → Byte) : Disk := { d with data := update d.data b bytes }

/-- `balloc`: the first block that is not in use, zeroed. -/
def balloc : Except BlockPanic (Nat × Disk) :=
  match (List.range d.size).find? (fun b => !d.inUse b) with
  | none => .error .outOfBlocks
  | some b => .ok (b, { d with
      inUse := update d.inUse b true
      data := update d.data b (fun _ => 0) })

/-- How many blocks are free. -/
def free : Nat := ((Finset.range d.size).filter (fun b => d.inUse b = false)).card

variable {d}

/-- What `balloc` returns. -/
structure Alloc (d : Disk) (b : Nat) (d' : Disk) : Prop where
  below : b < d.size
  unused : d.inUse b = false
  size : d'.size = d.size
  inUse : d'.inUse = update d.inUse b true
  data : d'.data = update d.data b (fun _ => 0)

private theorem Alloc.free {b : Nat} {d' : Disk} (h : Alloc d b d') : d'.free + 1 = d.free := by
  have hmem : b ∈ (Finset.range d.size).filter (fun b => d.inUse b = false) := by
    simp [h.below, h.unused]
  have herase : (Finset.range d'.size).filter (fun b => d'.inUse b = false) =
      ((Finset.range d.size).filter (fun b => d.inUse b = false)).erase b := by
    ext x
    rw [h.size, h.inUse]
    by_cases hx : x = b
    · simp [hx]
    · simp [hx]
  rw [Disk.free, Disk.free, herase, Finset.card_erase_add_one hmem]

private theorem alloc_of_balloc {b : Nat} {d' : Disk} (h : d.balloc = .ok (b, d')) : Alloc d b d' := by
  unfold balloc at h
  cases hfind : (List.range d.size).find? (fun b => !d.inUse b) with
  | none =>
    rw [hfind] at h
    contradiction
  | some x =>
    rw [hfind, Except.ok.injEq, Prod.mk.injEq] at h
    obtain ⟨rfl, rfl⟩ := h
    exact {
      below := List.mem_range.mp (List.mem_of_find?_eq_some hfind)
      unused := by simpa using List.find?_some hfind
      size := rfl
      inUse := rfl
      data := rfl }

private theorem balloc_ok (h : 0 < d.free) : ∃ b d', d.balloc = .ok (b, d') ∧ Alloc d b d' := by
  obtain ⟨b, hb⟩ := Finset.card_pos.mp h
  rw [Finset.mem_filter, Finset.mem_range] at hb
  cases hball : d.balloc with
  | ok r => exact ⟨r.1, r.2, rfl, alloc_of_balloc hball⟩
  | error e =>
    unfold balloc at hball
    split at hball
    · next hfind =>
      have hused := List.find?_eq_none.mp hfind b (List.mem_range.mpr hb.1)
      simp [hb.2] at hused
    · contradiction

end Disk

/-- The part of an inode that says where its bytes are. -/
structure BlockFile.Inode where
  addrs : Nat → Nat
  size : Nat

/-- A file and the disc it lies on. -/
structure BlockFile where
  disk : Disk
  ip : BlockFile.Inode

namespace BlockFile

variable (s : BlockFile)

section Bmap

/-- `ip->addrs[j] = b`, with the disc `balloc` left. -/
def setAddr (disk : Disk) (j b : Nat) : BlockFile :=
  { disk := disk, ip := { s.ip with addrs := update s.ip.addrs j b } }

/-- `a[bn] = addr` in the buffer of the block at `b`, and `log_write`. -/
def setEntry (disk : Disk) (b bn addr : Nat) : BlockFile :=
  { s with disk := disk.log_write b (setWord (s.disk.data b) bn addr) }

/-- The address in `addrs[j]`; where there is none, a block is allocated for it. -/
def addr (j : Nat) : Except BlockPanic (Nat × BlockFile) :=
  if s.ip.addrs j = 0 then do
    let (b, disk) ← s.disk.balloc
    return (b, s.setAddr disk j b)
  else return (s.ip.addrs j, s)

/-- The same for `a[bn]` in the block at `b`. -/
def entry (b bn : Nat) : Except BlockPanic (Nat × BlockFile) :=
  let a := s.disk.data b
  if word a bn = 0 then do
    let (addr, disk) ← s.disk.balloc
    return (addr, s.setEntry disk b bn addr)
  else return (word a bn, s)

def bmap (bn : Nat) : Except BlockPanic (Nat × BlockFile) :=
  if bn < nDirect then s.addr bn
  else if bn - nDirect < nIndirect then do
    let (b, s) ← s.addr nDirect
    s.entry b (bn - nDirect)
  else throw .outOfRange

end Bmap

section Fields

variable (disk : Disk) (j b bn addr : Nat)

@[simp] theorem setAddr_disk : (s.setAddr disk j b).disk = disk := rfl
@[simp] theorem setAddr_addrs : (s.setAddr disk j b).ip.addrs = update s.ip.addrs j b := rfl
@[simp] theorem setEntry_ip : (s.setEntry disk b bn addr).ip = s.ip := rfl
@[simp] theorem setEntry_data : (s.setEntry disk b bn addr).disk.data =
    update disk.data b (setWord (s.disk.data b) bn addr) := rfl

end Fields

section Held

/-- The block for bytes `bn * BSIZE` to `bn * BSIZE + BSIZE - 1`, or `0`. -/
def lookup (bn : Nat) : Nat :=
  if bn < nDirect then s.ip.addrs bn
  else if s.ip.addrs nDirect = 0 then 0
  else word (s.disk.data (s.ip.addrs nDirect)) (bn - nDirect)

/-- The blocks of a file by number, with the block of addresses as the last one. -/
def holds (j : Nat) : Nat := if j = maxFile then s.ip.addrs nDirect else s.lookup j

def held : Finset Nat := (Finset.range (maxFile + 1)).filter (fun j => s.holds j ≠ 0)

def Owns (b : Nat) : Prop := b ≠ 0 ∧ ∃ j ≤ maxFile, s.holds j = b

/-- Every block of the file is in use, and for one thing only. -/
structure Sound : Prop where
  zero : s.disk.inUse 0 = true
  inUse : ∀ j ≤ maxFile, s.holds j ≠ 0 → s.disk.inUse (s.holds j) = true
  once : ∀ j ≤ maxFile, ∀ j' ≤ maxFile, s.holds j ≠ 0 → s.holds j = s.holds j' → j = j'

end Held

section Extends

/-- The file may have got further blocks. What others keep in theirs is as before. -/
structure Grows (s s' : BlockFile) : Prop where
  sound : s'.Sound
  kept : ∀ j ≤ maxFile, s.holds j ≠ 0 → s'.holds j = s.holds j
  free : s'.disk.free + s'.held.card = s.disk.free + s.held.card
  others : ∀ b, s.disk.inUse b = true → ¬ s.Owns b →
    s'.disk.inUse b = true ∧ ¬ s'.Owns b ∧ s'.disk.data b = s.disk.data b

/-- And the bytes in those it had are the same. -/
structure Extends (s s' : BlockFile) : Prop extends Grows s s' where
  size : s'.ip.size = s.ip.size
  data : ∀ j < maxFile, s.holds j ≠ 0 → s'.disk.data (s.holds j) = s.disk.data (s.holds j)

/-- The block `b` was allocated for number `j`. -/
structure Grabbed (s s' : BlockFile) (j b : Nat) : Prop where
  empty : s.holds j = 0
  unused : s.disk.inUse b = false
  inUse : s'.disk.inUse = update s.disk.inUse b true
  free : s'.disk.free + 1 = s.disk.free
  size : s'.ip.size = s.ip.size
  holds : ∀ i, s'.holds i = if i = j then b else s.holds i
  data : ∀ x, x ≠ b → (x = s.ip.addrs nDirect → x = 0) → s'.disk.data x = s.disk.data x

variable {s} {s' : BlockFile} {j b : Nat}

theorem mem_held {i : Nat} : i ∈ s.held ↔ i ≤ maxFile ∧ s.holds i ≠ 0 := by
  rw [held, Finset.mem_filter, Finset.mem_range, Nat.lt_succ_iff]

theorem Grows.refl (hs : s.Sound) : s.Grows s :=
  ⟨hs, fun _ _ _ => rfl, rfl, fun _ hb hnot => ⟨hb, hnot, rfl⟩⟩

theorem Grows.trans {s'' : BlockFile} (h : s.Grows s') (h' : s'.Grows s'') : s.Grows s'' where
  sound := h'.sound
  kept j hj hne := by
    have hkept := h.kept j hj hne
    rw [h'.kept j hj (by rw [hkept]; exact hne), hkept]
  free := h'.free.trans h.free
  others b hb hnot := by
    obtain ⟨hb', hnot', hdata⟩ := h.others b hb hnot
    obtain ⟨hb'', hnot'', hdata'⟩ := h'.others b hb' hnot'
    exact ⟨hb'', hnot'', hdata'.trans hdata⟩

private theorem Extends.refl (hs : s.Sound) : s.Extends s := ⟨.refl hs, rfl, fun _ _ _ => rfl⟩

private theorem Extends.trans {s'' : BlockFile} (h : s.Extends s') (h' : s'.Extends s'') :
    s.Extends s'' where
  toGrows := h.toGrows.trans h'.toGrows
  size := h'.size.trans h.size
  data j hj hne := by
    have hkept := h.kept j (by omega) hne
    rw [← hkept, h'.data j hj (by rw [hkept]; exact hne), hkept, h.data j hj hne]

namespace Grabbed

variable (h : Grabbed s s' j b) (hs : s.Sound)

include h hs

private theorem ne_zero : b ≠ 0 := by
  rintro rfl
  have hused := hs.zero
  rw [h.unused] at hused
  contradiction

private theorem fresh {i : Nat} (hi : i ≤ maxFile) (hne : s.holds i ≠ 0) : s.holds i ≠ b := by
  intro heq
  have hused := hs.inUse i hi hne
  rw [heq, h.unused] at hused
  contradiction

private theorem held_eq (hj : j ≤ maxFile) : s'.held = insert j s.held := by
  ext i
  rw [Finset.mem_insert, mem_held, mem_held]
  by_cases hij : i = j
  · subst hij
    rw [h.holds i, if_pos rfl]
    simp [hj, h.ne_zero hs]
  · constructor
    · intro hi
      rw [h.holds i, if_neg hij] at hi
      exact Or.inr hi
    · intro hi
      obtain ⟨hle, hne⟩ := hi.resolve_left hij
      rw [h.holds i, if_neg hij]
      exact ⟨hle, hne⟩

private theorem keeps (hj : j ≤ maxFile) : s.Extends s' where
  sound := {
    zero := by
      rw [h.inUse, update_of_ne (h.ne_zero hs).symm]
      exact hs.zero
    inUse i hi hne := by
      rw [h.holds i] at hne ⊢
      rw [h.inUse]
      by_cases hij : i = j
      · rw [if_pos hij, update_self]
      · rw [if_neg hij] at hne ⊢
        rw [update_of_ne (h.fresh hs hi hne)]
        exact hs.inUse i hi hne
    once i hi i' hi' hne heq := by
      rw [h.holds i] at hne heq
      rw [h.holds i'] at heq
      by_cases hij : i = j
      · rw [if_pos hij] at heq hne
        by_cases hij' : i' = j
        · rw [hij, hij']
        · rw [if_neg hij'] at heq
          exact absurd heq.symm (h.fresh hs hi' (by rw [← heq]; exact hne))
      · rw [if_neg hij] at heq hne
        by_cases hij' : i' = j
        · rw [if_pos hij'] at heq
          exact absurd heq (h.fresh hs hi hne)
        · rw [if_neg hij'] at heq
          exact hs.once i hi i' hi' hne heq }
  size := h.size
  kept i hi hne := by
    rw [h.holds i, if_neg]
    rintro rfl
    exact hne h.empty
  data i hi hne := by
    apply h.data _ (h.fresh hs (by omega) hne)
    intro heq
    have hlast : s.holds maxFile = s.ip.addrs nDirect := if_pos rfl
    have hsame := hs.once i (by omega) maxFile le_rfl hne (by rw [heq, hlast])
    omega
  free := by
    have hnot : j ∉ s.held := by
      rw [mem_held]
      exact fun hmem => hmem.2 h.empty
    rw [h.held_eq hs hj, Finset.card_insert_of_notMem hnot]
    have := h.free
    omega
  others x hx hnot := by
    have hxb : x ≠ b := by
      intro heq
      rw [heq, h.unused] at hx
      contradiction
    refine ⟨by rw [h.inUse, update_of_ne hxb]; exact hx, ?_, ?_⟩
    · intro howns
      obtain ⟨hzero, i, hi, heq⟩ := howns
      rw [h.holds i] at heq
      split at heq
      · exact hxb heq.symm
      · exact hnot ⟨hzero, i, hi, heq⟩
    · apply h.data x hxb
      intro heq
      by_contra hzero
      exact hnot ⟨hzero, maxFile, le_rfl, (if_pos rfl : s.holds maxFile = _).trans heq.symm⟩

end Grabbed

end Extends

section Room

/-- The blocks numbered by `T` are those the file may come to have, and there are enough free ones for
what it lacks of them. -/
structure Room (s : BlockFile) (T : Finset Nat) : Prop where
  sub : s.held ⊆ T
  card : T.card ≤ s.disk.free + s.held.card

/-- What finding the block for number `j` leaves. -/
structure Found (s : BlockFile) (T : Finset Nat) (j b : Nat) (s' : BlockFile) : Prop where
  keeps : s.Extends s'
  room : s'.Room T
  holds : s'.holds j = b
  ne_zero : b ≠ 0

variable {s : BlockFile} {T : Finset Nat}

private theorem Room.free {j : Nat} (h : s.Room T) (hj : j ∈ T) (hempty : s.holds j = 0) :
    0 < s.disk.free := by
  have hnot : j ∉ s.held := by
    rw [mem_held]
    exact fun hmem => hmem.2 hempty
  have hlt : s.held.card < T.card := by
    apply Finset.card_lt_card
    rw [Finset.ssubset_iff_of_subset h.sub]
    exact ⟨j, hj, hnot⟩
  have := h.card
  omega

private theorem Grabbed.found {s' : BlockFile} {j b : Nat} (h : Grabbed s s' j b) (hs : s.Sound)
    (hroom : s.Room T) (hj : j ∈ T) (hle : j ≤ maxFile) : s.Found T j b s' where
  keeps := h.keeps hs hle
  room := {
    sub := by
      rw [h.held_eq hs hle]
      exact Finset.insert_subset hj hroom.sub
    card := by
      have hfree := (h.keeps hs hle).free
      have := hroom.card
      omega }
  holds := by rw [h.holds j, if_pos rfl]
  ne_zero := h.ne_zero hs

private theorem Found.there {j : Nat} (hs : s.Sound) (hroom : s.Room T) (hne : s.holds j ≠ 0) :
    s.Found T j (s.holds j) s := ⟨.refl hs, hroom, rfl, hne⟩

/-- The number of the block that `addrs[j]` is for. -/
def addrNumber (j : Nat) : Nat := if j = nDirect then maxFile else j

private theorem holds_addrNumber {j : Nat} (hj : j ≤ nDirect) :
    s.holds (addrNumber j) = s.ip.addrs j := by
  have hlt : nDirect < maxFile := by decide
  unfold addrNumber
  by_cases hlast : j = nDirect
  · rw [if_pos hlast, holds, if_pos rfl, hlast]
  · rw [if_neg hlast, holds, if_neg (by omega), lookup, if_pos (by omega)]

/-- An address in the inode changes the block of its number only. Where it is that of the block of
addresses, the new block holds none. -/
theorem holds_setAddr {j b i : Nat} {d' : Disk} (hs : s.Sound) (halloc : s.disk.Alloc b d')
    (hj : j ≤ nDirect) (hzero : s.ip.addrs j = 0) :
    (s.setAddr d' j b).holds i = if i = addrNumber j then b else s.holds i := by
  by_cases hjn : j = nDirect
  · have hnumber : addrNumber j = maxFile := if_pos hjn
    rw [hnumber, holds, holds]
    by_cases hlast : i = maxFile
    · rw [if_pos hlast, if_pos hlast, setAddr_addrs, hjn, update_self]
    · rw [if_neg hlast, if_neg hlast, if_neg hlast, lookup, lookup, setAddr_addrs, setAddr_disk]
      by_cases hdir : i < nDirect
      · rw [if_pos hdir, if_pos hdir, update_of_ne (by omega)]
      · have hempty : word (fun _ => 0) (i - nDirect) = 0 := rfl
        subst hjn
        rw [if_neg hdir, if_neg hdir, if_pos hzero, update_self, halloc.data, update_self, hempty,
          ite_self]
  · have hnumber : addrNumber j = j := if_neg hjn
    have hlt : nDirect < maxFile := by decide
    have hind : update s.ip.addrs j b nDirect = s.ip.addrs nDirect := update_of_ne (by omega) ..
    rw [hnumber, holds, holds, setAddr_addrs, hind]
    by_cases hlast : i = maxFile
    · rw [if_pos hlast, if_pos hlast, if_neg (by omega)]
    · rw [if_neg hlast, if_neg hlast, lookup, lookup, setAddr_addrs, setAddr_disk, hind]
      by_cases hdir : i < nDirect
      · rw [if_pos hdir, if_pos hdir, Function.update_apply]
      · rw [if_neg hdir, if_neg hdir, if_neg (by omega : i ≠ j)]
        by_cases hnone : s.ip.addrs nDirect = 0
        · rw [if_pos hnone, if_pos hnone]
        · have hused : s.disk.inUse (s.ip.addrs nDirect) = true := by
            have hlast' : s.holds maxFile = s.ip.addrs nDirect := if_pos rfl
            rw [← hlast']
            exact hs.inUse maxFile le_rfl (by rwa [hlast'])
          have hne : s.ip.addrs nDirect ≠ b := by
            intro heq
            rw [heq, halloc.unused] at hused
            contradiction
          rw [if_neg hnone, if_neg hnone, halloc.data, update_of_ne hne]

private theorem addr_found {j : Nat} (hs : s.Sound) (hroom : s.Room T) (hj : j ≤ nDirect)
    (hmem : addrNumber j ∈ T) : ∃ b s', s.addr j = .ok (b, s') ∧ s.Found T (addrNumber j) b s' := by
  have hlt : nDirect < maxFile := by decide
  have hholds : s.holds (addrNumber j) = s.ip.addrs j := holds_addrNumber hj
  have hle : addrNumber j ≤ maxFile := by
    unfold addrNumber
    split <;> omega
  by_cases hzero : s.ip.addrs j = 0
  · obtain ⟨b, d', hball, halloc⟩ := Disk.balloc_ok (hroom.free hmem (hholds.trans hzero))
    refine ⟨b, _, by rw [addr, if_pos hzero, hball]; rfl, ?_⟩
    apply Grabbed.found _ hs hroom hmem hle
    exact {
      empty := hholds.trans hzero
      unused := halloc.unused
      inUse := halloc.inUse
      free := halloc.free
      size := rfl
      holds := fun i => holds_setAddr hs halloc hj hzero
      data := by
        intro x hx _
        rw [setAddr_disk, halloc.data, update_of_ne hx] }
  · refine ⟨s.ip.addrs j, s, by rw [addr, if_neg hzero]; rfl, ?_⟩
    rw [← hholds]
    exact .there hs hroom (by rwa [hholds])

private theorem holds_setEntry {bn a i : Nat} {d' : Disk} (halloc : s.disk.Alloc a d')
    (hind : s.ip.addrs nDirect ≠ 0) (hbn : nDirect ≤ bn) (hlt : bn < maxFile) :
    (s.setEntry d' (s.ip.addrs nDirect) (bn - nDirect) a).holds i = if i = bn then a else s.holds i := by
  rw [holds, holds]
  by_cases hlast : i = maxFile
  · rw [if_pos hlast, if_pos hlast, setEntry_ip, if_neg (by omega)]
  · rw [if_neg hlast, if_neg hlast, lookup, lookup]
    by_cases hdir : i < nDirect
    · rw [if_pos hdir, if_pos hdir, setEntry_ip, if_neg (by omega)]
    · rw [if_neg hdir, if_neg hdir, setEntry_ip, if_neg hind, if_neg hind, setEntry_data, update_self]
      by_cases hib : i = bn
      · have hbelow := halloc.below
        have hsize := s.disk.size_lt
        rw [if_pos hib, hib, word_setWord_self _ _ (by omega)]
      · rw [if_neg hib, word_setWord_of_ne _ _ (by omega)]

private theorem entry_found {bn : Nat} (hs : s.Sound) (hroom : s.Room T) (hind : s.ip.addrs nDirect ≠ 0)
    (hbn : nDirect ≤ bn) (hlt : bn < maxFile) (hmem : bn ∈ T) :
    ∃ b s', s.entry (s.ip.addrs nDirect) (bn - nDirect) = .ok (b, s') ∧ s.Found T bn b s' := by
  have hholds : s.holds bn = word (s.disk.data (s.ip.addrs nDirect)) (bn - nDirect) := by
    rw [holds, if_neg (by omega), lookup, if_neg (by omega), if_neg hind]
  by_cases hzero : word (s.disk.data (s.ip.addrs nDirect)) (bn - nDirect) = 0
  · obtain ⟨a, d', hball, halloc⟩ := Disk.balloc_ok (hroom.free hmem (hholds.trans hzero))
    refine ⟨a, _, by rw [entry, if_pos hzero, hball]; rfl, ?_⟩
    apply Grabbed.found _ hs hroom hmem (by omega)
    exact {
      empty := hholds.trans hzero
      unused := halloc.unused
      inUse := halloc.inUse
      free := halloc.free
      size := rfl
      holds := fun i => holds_setEntry halloc hind hbn hlt
      data := by
        intro x hx hxind
        have hother : x ≠ s.ip.addrs nDirect := by
          intro heq
          rw [← heq] at hind
          exact hind (hxind heq)
        rw [setEntry_data, update_of_ne hother, halloc.data, update_of_ne hx] }
  · refine ⟨_, s, by rw [entry, if_neg hzero]; rfl, ?_⟩
    rw [← hholds]
    exact .there hs hroom (by rwa [hholds])

theorem bmap_found {bn : Nat} (hs : s.Sound) (hroom : s.Room T) (hlt : bn < maxFile) (hmem : bn ∈ T)
    (hlast : nDirect ≤ bn → maxFile ∈ T) : ∃ b s', s.bmap bn = .ok (b, s') ∧ s.Found T bn b s' := by
  by_cases hdir : bn < nDirect
  · have hnumber : addrNumber bn = bn := if_neg (by omega)
    have hfound := addr_found hs hroom hdir.le (by rwa [hnumber])
    rw [bmap, if_pos hdir]
    rwa [hnumber] at hfound
  · have hnumber : addrNumber nDirect = maxFile := if_pos rfl
    obtain ⟨a, s₁, haddr, hind⟩ := addr_found hs hroom le_rfl (by rw [hnumber]; exact hlast (by omega))
    rw [hnumber] at hind
    have ha : s₁.ip.addrs nDirect = a := by
      rw [← hind.holds, holds, if_pos rfl]
    obtain ⟨b, s₂, hentry, hfound⟩ := entry_found hind.keeps.sound hind.room
      (by rw [ha]; exact hind.ne_zero) (by omega) hlt hmem
    have hbelow : bn - nDirect < nIndirect := by
      simp only [maxFile] at hlt
      omega
    refine ⟨b, s₂, ?_, hind.keeps.trans hfound.keeps, hfound.room, hfound.holds, hfound.ne_zero⟩
    rw [bmap, if_neg hdir, if_pos hbelow, haddr, ok_bind]
    rwa [ha] at hentry

end Room

end BlockFile

end OsSessional.Paging
