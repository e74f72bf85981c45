import OsSessional.Paging.Blocks

/-!
# The swap file in blocks

`filewrite` cuts a page into transactions, `writei` these into blocks, and `readi` walks the blocks of a
page in one go. On top of `bmap` both are the reading and writing of a plain sequence of bytes, so that a
swap file is an array of pages.
-/

namespace OsSessional.Paging

open Function (update update_self update_of_ne)
open Outcome

namespace BlockFile

section Calls

/-- `memmove` of `m` bytes to offset `o` of the buffer of block `b`, and `log_write`. -/
def fill (s : BlockFile) (b o m : Nat) (src : Nat → Byte) : BlockFile :=
  { s with disk := s.disk.log_write b (fun x =>
      if o ≤ x ∧ x < o + m then src (x - o) else s.disk.data b x) }

/-- The loop of `writei`, with the offset it ends at. Every round moves at least one byte. -/
def writeiLoop (src : Nat → Byte) (n : Nat) :
    Nat → Nat → Nat → BlockFile → Except BlockPanic (Nat × BlockFile)
  | 0, _, off, s => return (off, s)
  | fuel + 1, tot, off, s =>
    if tot < n then do
      let (b, s) ← s.bmap (off / bSize)
      let m := min (n - tot) (bSize - off % bSize)
      writeiLoop src n fuel (tot + m) (off + m) (s.fill b (off % bSize) m (fun x => src (tot + x)))
    else return (off, s)

def setSize (s : BlockFile) (size : Nat) : BlockFile := { s with ip := { s.ip with size := size } }

/-- `writei` on a regular file, with the value it returns. -/
def writei (s : BlockFile) (src : Nat → Byte) (off n : Nat) : Except BlockPanic (Int × BlockFile) :=
  if off > s.ip.size ∨ 2 ^ 32 ≤ off + n then return (-1, s)
  else if off + n > maxFile * bSize then return (-1, s)
  else do
    let (off, s) ← writeiLoop src n n 0 off s
    return ((n : Int), if n > 0 ∧ off > s.ip.size then s.setSize off else s)

/-- The loop of `filewrite` from byte `i` of `n`, with the file offset at `off`. -/
def filewriteLoop (src : Nat → Byte) (n : Nat) :
    Nat → Nat → Nat → BlockFile → Except BlockPanic (Int × BlockFile)
  | 0, i, _, s => return (if i = n then (n : Int) else -1, s)
  | fuel + 1, i, off, s =>
    if i < n then do
      let n1 := if n - i > SwapFile.chunk then SwapFile.chunk else n - i
      let (r, s) ← s.writei (fun x => src (i + x)) off n1
      let off := if r > 0 then off + r.toNat else off
      if r < 0 then return (if i = n then (n : Int) else -1, s)
      else if r ≠ n1 then throw .shortFilewrite
      else filewriteLoop src n fuel (i + n1) off s
    else return (if i = n then (n : Int) else -1, s)

/-- `writeToSwapFile`: the file offset is set, and `filewrite` starts there. -/
def writeToSwapFile (s : BlockFile) (buffer : Nat → Byte) (placeOnFile size : Nat) :
    Except BlockPanic (Int × BlockFile) :=
  filewriteLoop buffer size size 0 placeOnFile s

/-- The loop of `readi`. -/
def readiLoop (n : Nat) :
    Nat → Nat → Nat → (Nat → Byte) → BlockFile → Except BlockPanic ((Nat → Byte) × BlockFile)
  | 0, _, _, dst, s => return (dst, s)
  | fuel + 1, tot, off, dst, s =>
    if tot < n then do
      let (b, s) ← s.bmap (off / bSize)
      let m := min (n - tot) (bSize - off % bSize)
      let dst := fun x =>
        if tot ≤ x ∧ x < tot + m then s.disk.data b (off % bSize + (x - tot)) else dst x
      readiLoop n fuel (tot + m) (off + m) dst s
    else return (dst, s)

/-- `readi` on a regular file, with the value it returns and the buffer afterwards. -/
def readi (s : BlockFile) (dst : Nat → Byte) (off n : Nat) :
    Except BlockPanic (Int × (Nat → Byte) × BlockFile) :=
  if off > s.ip.size ∨ 2 ^ 32 ≤ off + n then return (-1, dst, s)
  else do
    let n := if off + n > s.ip.size then s.ip.size - off else n
    let (dst, s) ← readiLoop n n 0 off dst s
    return ((n : Int), dst, s)

/-- `readFromSwapFile`: the file offset is set, and `fileread` is one `readi`. -/
def readFromSwapFile (s : BlockFile) (buffer : Nat → Byte) (placeOnFile size : Nat) :
    Except BlockPanic (Int × (Nat → Byte) × BlockFile) :=
  s.readi buffer placeOnFile size

end Calls

section Laid

/-- Byte `i` of the file. -/
def byte (s : BlockFile) (i : Nat) : Byte := s.disk.data (s.holds (i / bSize)) (i % bSize)

/-- `n` bytes of `src` were written at `off`. -/
structure Laid (s : BlockFile) (src : Nat → Byte) (off n : Nat) (s' : BlockFile) : Prop
    extends Grows s s' where
  size : s'.ip.size = s.ip.size
  held : ∀ i, off ≤ i → i < off + n → s'.holds (i / bSize) ≠ 0
  written : ∀ i, off ≤ i → i < off + n → s'.byte i = src (i - off)
  unwritten : ∀ i < maxFile * bSize, i < off ∨ off + n ≤ i → s.holds (i / bSize) ≠ 0 → s'.byte i = s.byte i

variable {s s' : BlockFile} {src : Nat → Byte} {T : Finset Nat}

private theorem block_lt {i : Nat} (hi : i < maxFile * bSize) : i / bSize < maxFile :=
  (Nat.div_lt_iff_lt_mul (by decide)).mpr hi

private theorem fill_holds {bn b o m : Nat} (hs : s.Sound) (hbn : bn < maxFile) (hb : s.holds bn = b) (hne : b ≠ 0)
    (j : Nat) : (s.fill b o m src).holds j = s.holds j := by
  have hlast : s.ip.addrs nDirect ≠ b := by
    intro heq
    have hmax : s.holds maxFile = s.ip.addrs nDirect := if_pos rfl
    have hsame := hs.once bn (by omega) maxFile le_rfl (by rwa [hb]) (by rw [hb, hmax, heq])
    omega
  have hdata : (s.fill b o m src).disk.data (s.ip.addrs nDirect) = s.disk.data (s.ip.addrs nDirect) :=
    update_of_ne hlast ..
  have hip : (s.fill b o m src).ip = s.ip := rfl
  rw [holds, holds, lookup, lookup, hip, hdata]

private theorem fill_grows {bn b o m : Nat} (hs : s.Sound) (hbn : bn < maxFile) (hb : s.holds bn = b)
    (hne : b ≠ 0) : s.Grows (s.fill b o m src) := by
  have hholds (j : Nat) : (s.fill b o m src).holds j = s.holds j := fill_holds hs hbn hb hne j
  have hinUse : (s.fill b o m src).disk.inUse = s.disk.inUse := rfl
  have hheld : (s.fill b o m src).held = s.held := by
    ext j
    rw [mem_held, mem_held, hholds]
  exact {
    sound := {
      zero := hs.zero
      inUse := by
        intro j hj hne
        rw [hholds] at hne ⊢
        exact hs.inUse j hj hne
      once := by
        intro j hj j' hj' hne heq
        rw [hholds] at hne heq
        rw [hholds] at heq
        exact hs.once j hj j' hj' hne heq }
    kept := fun j _ _ => hholds j
    free := by
      rw [hheld]
      rfl
    others := by
      intro x hx hnot
      refine ⟨hx, ?_, ?_⟩
      · intro howns
        obtain ⟨hzero, j, hj, heq⟩ := howns
        rw [hholds] at heq
        exact hnot ⟨hzero, j, hj, heq⟩
      · apply update_of_ne
        intro heq
        exact hnot ⟨by rwa [heq], bn, by omega, hb.trans heq.symm⟩ }

private theorem Found.laid {b off m : Nat} (h : s.Found T (off / bSize) b s')
    (hm : off % bSize + m ≤ bSize) (hoff : off / bSize < maxFile) :
    s.Laid src off m (s'.fill b (off % bSize) m src) ∧ (s'.fill b (off % bSize) m src).Room T := by
  have hs' := h.keeps.sound
  have hgrows : s'.Grows (s'.fill b (off % bSize) m src) := fill_grows hs' hoff h.holds h.ne_zero
  have hholds (j : Nat) : (s'.fill b (off % bSize) m src).holds j = s'.holds j :=
    fill_holds hs' hoff h.holds h.ne_zero j
  have hfilled (x : Nat) : (s'.fill b (off % bSize) m src).disk.data b x =
      if off % bSize ≤ x ∧ x < off % bSize + m then src (x - off % bSize) else s'.disk.data b x := by
    simp only [fill, Disk.log_write, update_self]
  have hwindow (i : Nat) (hi : off ≤ i) (hlt : i < off + m) :
      i / bSize = off / bSize ∧ i % bSize = off % bSize + (i - off) := by
    rw [bSize] at *
    omega
  refine ⟨⟨h.keeps.toGrows.trans hgrows, h.keeps.size, ?_, ?_, ?_⟩, ?_⟩
  · intro i hi hlt
    rw [hholds, (hwindow i hi hlt).1, h.holds]
    exact h.ne_zero
  · intro i hi hlt
    obtain ⟨hblock, hbyte⟩ := hwindow i hi hlt
    rw [byte, hholds, hblock, h.holds, hbyte, hfilled, if_pos (by omega)]
    congr 1
    omega
  · intro i hi hout hne
    have hblock : i / bSize < maxFile := block_lt hi
    have hkept := h.keeps.kept (i / bSize) hblock.le hne
    have hdata := h.keeps.data (i / bSize) hblock hne
    rw [byte, byte, hholds, hkept]
    by_cases hsame : s.holds (i / bSize) = b
    · rw [hsame, hfilled, if_neg, ← hsame, hdata]
      have hbn : i / bSize = off / bSize := by
        apply hs'.once _ hblock.le _ hoff.le (by rwa [hkept])
        rw [hkept, hsame, h.holds]
      rw [bSize] at *
      omega
    · rw [← hdata]
      exact congrFun (update_of_ne hsame ..) _
  · have hroom := h.room
    have hheld : (s'.fill b (off % bSize) m src).held = s'.held := by
      ext j
      rw [mem_held, mem_held, hholds]
    exact ⟨by rw [hheld]; exact hroom.sub, by rw [hheld]; exact hroom.card⟩

theorem Laid.nil (hs : s.Sound) (off : Nat) : s.Laid src off 0 s where
  toGrows := .refl hs
  size := rfl
  held i hi hlt := by omega
  written i hi hlt := by omega
  unwritten i _ _ _ := rfl

private theorem Laid.append {s'' : BlockFile} {off a b : Nat} (h : s.Laid src off a s')
    (h' : s'.Laid (fun x => src (a + x)) (off + a) b s'') (hmax : off + a ≤ maxFile * bSize) :
    s.Laid src off (a + b) s'' where
  toGrows := h.toGrows.trans h'.toGrows
  size := h'.size.trans h.size
  held i hi hlt := by
    by_cases hfirst : i < off + a
    · have hne := h.held i hi hfirst
      have hblock : i / bSize < maxFile := block_lt (by omega)
      rw [h'.kept _ hblock.le hne]
      exact hne
    · exact h'.held i (by omega) (by omega)
  written i hi hlt := by
    by_cases hfirst : i < off + a
    · rw [h'.unwritten i (by omega) (Or.inl hfirst) (h.held i hi hfirst), h.written i hi hfirst]
    · rw [h'.written i (by omega) (by omega)]
      congr 1
      omega
  unwritten i hi hout hne := by
    have hblock : i / bSize < maxFile := block_lt hi
    have hkept := h.kept _ hblock.le hne
    rw [h'.unwritten i hi (by omega) (by rwa [hkept]), h.unwritten i hi (by omega) hne]

/-- The numbers in `T` include the blocks of the bytes from `off` to `off + n`. -/
def Covers (T : Finset Nat) (off n : Nat) : Prop :=
  ∀ i, off ≤ i → i < off + n → i / bSize ∈ T ∧ (nDirect ≤ i / bSize → maxFile ∈ T)

private theorem Covers.mono {off n off' n' : Nat} (h : Covers T off n) (hoff : off ≤ off')
    (hend : off' + n' ≤ off + n) : Covers T off' n' :=
  fun i hi hlt => h i (by omega) (by omega)

private theorem writeiLoop_laid
    (src : Nat → Byte) {n : Nat} (fuel tot off : Nat) (s : BlockFile) (hs : s.Sound) (hroom : s.Room T)
    (hfuel : n - tot ≤ fuel) (htot : tot ≤ n) (hcovers : Covers T off (n - tot))
    (hmax : off + (n - tot) ≤ maxFile * bSize) :
    ∃ s', writeiLoop src n fuel tot off s = .ok (off + (n - tot), s') ∧
      s.Laid (fun x => src (tot + x)) off (n - tot) s' ∧ s'.Room T := by
  induction fuel generalizing tot off s with
  | zero =>
    have hend : n - tot = 0 := by omega
    rw [hend]
    exact ⟨s, rfl, .nil hs off, hroom⟩
  | succ fuel ih =>
    by_cases hlt : tot < n
    · have hblock : off / bSize < maxFile := block_lt (by omega)
      obtain ⟨hmem, hlast⟩ := hcovers off le_rfl (by omega)
      obtain ⟨b, s₁, hbmap, hfound⟩ := bmap_found hs hroom hblock hmem hlast
      have hmod : off % bSize < bSize := Nat.mod_lt _ (by decide)
      generalize hm : min (n - tot) (bSize - off % bSize) = m
      have hround : s.Laid (fun x => src (tot + x)) off m (s₁.fill b (off % bSize) m (fun x => src (tot + x))) ∧
          (s₁.fill b (off % bSize) m (fun x => src (tot + x))).Room T := hfound.laid (by omega) hblock
      obtain ⟨hlaid, hroom'⟩ := hround
      obtain ⟨s', hloop, hrest, hroom''⟩ := ih (tot + m) (off + m) _ hlaid.sound hroom' (by omega) (by omega)
        (hcovers.mono (by omega) (by omega)) (by omega)
      refine ⟨s', ?_, ?_, hroom''⟩
      · rw [writeiLoop, if_pos hlt, hbmap, ok_bind]
        simp only [hm]
        rw [hloop]
        congr 2
        omega
      · have happend := hlaid.append (b := n - (tot + m)) (by simpa only [Nat.add_assoc] using hrest) (by omega)
        rwa [show m + (n - (tot + m)) = n - tot by omega] at happend
    · have hend : n - tot = 0 := by omega
      rw [writeiLoop, if_neg hlt, hend]
      exact ⟨s, rfl, .nil hs off, hroom⟩

end Laid

section Stores

/-- The blocks hold the bytes of `f`. -/
structure Stores (s : BlockFile) (f : SwapFile) : Prop where
  sound : s.Sound
  size : s.ip.size = f.size
  le : f.size ≤ maxFile * bSize
  held : ∀ i < f.size, s.holds (i / bSize) ≠ 0
  byte : ∀ i < f.size, s.byte i = f.data i

variable {s s' : BlockFile} {f : SwapFile} {src : Nat → Byte} {T : Finset Nat} {off n : Nat}

private theorem Grows.setSize (hs : s.Sound) (size : Nat) : s.Grows (s.setSize size) where
  sound := ⟨hs.zero, hs.inUse, hs.once⟩
  kept _ _ _ := rfl
  free := rfl
  others _ hb hnot := ⟨hb, hnot, rfl⟩

private theorem Stores.overlay (h : s.Stores f) (hlaid : s.Laid src off n s') (hoff : off ≤ f.size)
    (hmax : off + n ≤ maxFile * bSize) :
    (s'.setSize (max s'.ip.size (off + n))).Stores (f.overlay src off n) where
  sound := ⟨hlaid.sound.zero, hlaid.sound.inUse, hlaid.sound.once⟩
  size := by
    have hsize : s'.ip.size = f.size := hlaid.size.trans h.size
    simp only [setSize, SwapFile.overlay, hsize]
  le := by
    have := h.le
    simp only [SwapFile.overlay]
    omega
  held i hi := by
    change s'.holds (i / bSize) ≠ 0
    have hle := h.le
    simp only [SwapFile.overlay] at hi
    by_cases hnew : off ≤ i ∧ i < off + n
    · exact hlaid.held i hnew.1 hnew.2
    · have hblock : i / bSize < maxFile := block_lt (by omega)
      have hne := h.held i (by omega)
      rwa [hlaid.kept _ hblock.le hne]
  byte i hi := by
    change s'.byte i = _
    simp only [SwapFile.overlay] at hi ⊢
    by_cases hnew : off ≤ i ∧ i < off + n
    · rw [if_pos hnew]
      exact hlaid.written i hnew.1 hnew.2
    · have hle := h.le
      rw [if_neg hnew, hlaid.unwritten i (by omega) (by omega) (h.held i (by omega))]
      exact h.byte i (by omega)

private theorem writei_stores (h : s.Stores f) (hroom : s.Room T) (hcovers : Covers T off n) (hoff : off ≤ f.size)
    (hn : 0 < n) (hmax : off + n ≤ maxFile * bSize) :
    ∃ s', s.writei src off n = .ok (n, s') ∧ s'.Stores (f.overlay src off n) ∧ s'.Room T ∧ s.Grows s' := by
  have hbig : maxFile * bSize < 2 ^ 32 := by decide
  obtain ⟨s', hloop, hlaid, hroom'⟩ := writeiLoop_laid src n 0 off s h.sound hroom (Nat.sub_le _ _)
    (by omega) hcovers (by omega)
  have hlaid' : s.Laid src off n s' := by simpa using hlaid
  have hsize : (if n > 0 ∧ off + n > s'.ip.size then s'.setSize (off + n) else s') =
      s'.setSize (max s'.ip.size (off + n)) := by
    by_cases hgrow : off + n > s'.ip.size
    · rw [if_pos ⟨hn, hgrow⟩, max_eq_right (by omega)]
    · rw [if_neg (fun hc => hgrow hc.2), max_eq_left (by omega)]
      rfl
  refine ⟨_, ?_, h.overlay hlaid' hoff hmax, ⟨hroom'.sub, hroom'.card⟩, ?_⟩
  · have hsame := h.size
    rw [writei, if_neg (by omega), if_neg (by omega), hloop, ok_bind]
    simp only [Nat.sub_zero]
    rw [hsize]
    rfl
  · exact hlaid'.toGrows.trans (.setSize hlaid.sound _)

private theorem filewriteLoop_stores (fuel i off : Nat) (s : BlockFile) (f : SwapFile) (h : s.Stores f)
    (hroom : s.Room T) (hfuel : n - i ≤ fuel) (hi : i ≤ n) (hcovers : Covers T off (n - i))
    (hoff : off ≤ f.size) (hmax : off + (n - i) ≤ maxFile * bSize) :
    ∃ s', filewriteLoop src n fuel i off s = .ok (n, s') ∧
      s'.Stores (if i < n then f.overlay (fun x => src (i + x)) off (n - i) else f) ∧ s'.Room T ∧
      s.Grows s' := by
  induction fuel generalizing i off s f with
  | zero =>
    have hend : i = n := by omega
    refine ⟨s, ?_, ?_, hroom, .refl h.sound⟩
    · rw [filewriteLoop, if_pos hend]
      rfl
    · rwa [if_neg (by omega)]
  | succ fuel ih =>
    by_cases hlt : i < n
    · have hchunk : 0 < SwapFile.chunk := by decide
      have hmin : (if n - i > SwapFile.chunk then SwapFile.chunk else n - i) = min (n - i) SwapFile.chunk := by
        split <;> omega
      generalize hn1 : min (n - i) SwapFile.chunk = n1
      have hwrite : ∃ s₁, s.writei (fun x => src (i + x)) off n1 = .ok (n1, s₁) ∧
          s₁.Stores (f.overlay (fun x => src (i + x)) off n1) ∧ s₁.Room T ∧ s.Grows s₁ :=
        writei_stores h hroom (hcovers.mono le_rfl (by omega)) hoff (by omega) (by omega)
      obtain ⟨s₁, hok, hstores, hroom', hgrows⟩ := hwrite
      obtain ⟨s', hloop, hrest, hroom'', hgrows'⟩ := ih (i + n1) (off + n1) s₁ _ hstores hroom' (by omega)
        (by omega) (hcovers.mono (by omega) (by omega)) (by simp only [SwapFile.overlay]; omega) (by omega)
      refine ⟨s', ?_, ?_, hroom'', hgrows.trans hgrows'⟩
      · rw [filewriteLoop, if_pos hlt]
        simp only [hmin, hn1]
        rw [hok, ok_bind]
        simp only []
        rw [if_neg (by omega), if_neg (by simp), if_pos (by omega), Int.toNat_natCast, hloop]
      · rw [if_pos hlt]
        have hsplit : n - i = n1 + (n - (i + n1)) := by omega
        by_cases hmore : i + n1 < n
        · rw [if_pos hmore] at hrest
          rw [hsplit, ← SwapFile.overlay_overlay]
          simpa only [Nat.add_assoc] using hrest
        · rw [if_neg hmore] at hrest
          rwa [show n - i = n1 by omega]
    · have hend : i = n := by omega
      refine ⟨s, ?_, ?_, hroom, .refl h.sound⟩
      · rw [filewriteLoop, if_neg hlt, if_pos hend]
        rfl
      · rwa [if_neg hlt]

private theorem writeToSwapFile_stores
    (src : Nat → Byte) (h : s.Stores f) (hroom : s.Room T) (hcovers : Covers T off n)
    (hoff : off ≤ f.size) (hn : 0 < n) (hmax : off + n ≤ maxFile * bSize) :
    ∃ s', s.writeToSwapFile src off n = .ok (n, s') ∧ s'.Stores (f.overlay src off n) ∧ s'.Room T ∧
      s.Grows s' := by
  have hwrite : ∃ s', filewriteLoop src n n 0 off s = .ok (n, s') ∧
      s'.Stores (if 0 < n then f.overlay (fun x => src (0 + x)) off (n - 0) else f) ∧ s'.Room T ∧
      s.Grows s' := filewriteLoop_stores n 0 off s f h hroom (by omega) (by omega) hcovers hoff hmax
  simp only [if_pos hn, Nat.zero_add, Nat.sub_zero] at hwrite
  exact hwrite

theorem writeToSwapFile_refused (h : s.Stores f) (hn : 0 < n) (hoff : f.size < off) :
    s.writeToSwapFile src off n = .ok (-1, s) := by
  obtain ⟨m, rfl⟩ : ∃ m, n = m + 1 := ⟨n - 1, by omega⟩
  have hsize := h.size
  have hrefused (n : Nat) : s.writei (fun x => src (0 + x)) off n = .ok (-1, s) := by
    rw [writei, if_pos (by omega)]
    rfl
  rw [writeToSwapFile, filewriteLoop, if_pos hn]
  simp only [hrefused]
  rw [ok_bind]
  simp only []
  rw [if_pos (by decide), if_neg (by omega)]
  rfl

/-- Up to `MAXFILE` blocks, writing in blocks is `filewrite` on the plain sequence of bytes. -/
theorem writeToSwapFile_filewrite (src : Nat → Byte) (h : s.Stores f) (hroom : s.Room T)
    (hcovers : Covers T off n) (hn : 0 < n) (hmax : off + n ≤ maxFile * bSize) :
    ∃ s', s.writeToSwapFile src off n = .ok (if (f.filewrite src off n).2 then (n : Int) else -1, s') ∧
      s'.Stores (f.filewrite src off n).1 := by
  rcases Nat.lt_or_ge f.size off with hbeyond | hoff
  · rw [f.filewrite_refused src hn hbeyond]
    exact ⟨s, writeToSwapFile_refused h hn hbeyond, h⟩
  · rw [f.filewrite_eq src hn hoff hmax]
    obtain ⟨s', hwrite, hstores, _⟩ := writeToSwapFile_stores src h hroom hcovers hoff hn hmax
    exact ⟨s', hwrite, hstores⟩

private theorem bmap_there {bn : Nat} (hlt : bn < maxFile) (hne : s.holds bn ≠ 0) :
    s.bmap bn = .ok (s.holds bn, s) := by
  rw [holds, if_neg (by omega), lookup] at hne ⊢
  by_cases hdir : bn < nDirect
  · rw [if_pos hdir] at hne ⊢
    rw [bmap, if_pos hdir, addr, if_neg hne]
    rfl
  · rw [if_neg hdir] at hne ⊢
    have hind : s.ip.addrs nDirect ≠ 0 := by
      intro hzero
      exact hne (if_pos hzero)
    rw [if_neg hind] at hne ⊢
    have hbelow : bn - nDirect < nIndirect := by
      simp only [maxFile] at hlt
      omega
    rw [bmap, if_neg hdir, if_pos hbelow, addr, if_neg hind]
    simp only [entry, pure_bind]
    rw [if_neg hne]
    rfl

private theorem readiLoop_stores
    (h : s.Stores f) (fuel tot off : Nat) (dst : Nat → Byte) (hfuel : n - tot ≤ fuel)
    (htot : tot ≤ n) (hend : off + (n - tot) ≤ f.size) :
    readiLoop n fuel tot off dst s =
      .ok (fun x => if tot ≤ x ∧ x < n then f.data (off + (x - tot)) else dst x, s) := by
  induction fuel generalizing tot off dst with
  | zero =>
    have hnone (x : Nat) : ¬ (tot ≤ x ∧ x < n) := by omega
    simp only [readiLoop, if_neg (hnone _)]
    rfl
  | succ fuel ih =>
    by_cases hlt : tot < n
    · have hle := h.le
      have hblock : off / bSize < maxFile := block_lt (by omega)
      have hmod : off % bSize < bSize := Nat.mod_lt _ (by decide)
      rw [readiLoop, if_pos hlt, bmap_there hblock (h.held off (by omega)), ok_bind]
      generalize hm : min (n - tot) (bSize - off % bSize) = m
      simp only []
      rw [ih (tot + m) (off + m) _ (by omega) (by omega) (by omega)]
      congr 2
      funext x
      by_cases hrest : tot + m ≤ x ∧ x < n
      · rw [if_pos hrest, if_pos (by omega)]
        congr 1
        omega
      · rw [if_neg hrest]
        by_cases hround : tot ≤ x ∧ x < tot + m
        · have hbyte := h.byte (off + (x - tot)) (by omega)
          have hwindow : (off + (x - tot)) / bSize = off / bSize ∧
              (off + (x - tot)) % bSize = off % bSize + (x - tot) := by
            rw [bSize] at *
            omega
          rw [byte, hwindow.1, hwindow.2] at hbyte
          rw [if_pos hround, if_pos (by omega), hbyte]
        · rw [if_neg hround, if_neg (by omega)]
    · have hnone (x : Nat) : ¬ (tot ≤ x ∧ x < n) := by omega
      rw [readiLoop, if_neg hlt]
      simp only [if_neg (hnone _)]
      rfl

private theorem readFromSwapFile_stores (h : s.Stores f) (dst : Nat → Byte) (hend : off + n ≤ f.size) :
    s.readFromSwapFile dst off n =
      .ok (n, fun x => if x < n then f.data (off + x) else dst x, s) := by
  have hbig : maxFile * bSize < 2 ^ 32 := by decide
  have hsize := h.size
  have hle := h.le
  have hloop := readiLoop_stores (n := n) h n 0 off dst (Nat.sub_le _ _) (by omega) (by omega)
  rw [readFromSwapFile, readi, if_neg (by omega)]
  simp only [if_neg (by omega : ¬ off + n > s.ip.size)]
  rw [hloop, ok_bind]
  simp only [Nat.zero_le, true_and, Nat.sub_zero]
  rfl

end Stores

section Others

/-- What the rest of the system may do meanwhile: it leaves the blocks of the file alone. -/
structure Others (s s' : BlockFile) : Prop where
  ip : s'.ip = s.ip
  zero : s'.disk.inUse 0 = true
  inUse : ∀ j ≤ maxFile, s.holds j ≠ 0 → s'.disk.inUse (s.holds j) = true
  data : ∀ j ≤ maxFile, s.holds j ≠ 0 → s'.disk.data (s.holds j) = s.disk.data (s.holds j)

variable {s s' : BlockFile} {f : SwapFile}

private theorem Others.holds (h : s.Others s') (j : Nat) : s'.holds j = s.holds j := by
  rw [BlockFile.holds, BlockFile.holds, lookup, lookup, h.ip]
  by_cases hind : s.ip.addrs nDirect = 0
  · rw [if_pos hind, if_pos hind]
  · have hlast : s.holds maxFile = s.ip.addrs nDirect := if_pos rfl
    have hdata := h.data maxFile le_rfl (by rwa [hlast])
    rw [hlast] at hdata
    rw [hdata]

private theorem Stores.others (hs : s.Stores f) (h : s.Others s') : s'.Stores f where
  sound := {
    zero := h.zero
    inUse := by
      intro j hj hne
      rw [h.holds] at hne ⊢
      exact h.inUse j hj hne
    once := by
      intro j hj j' hj' hne heq
      rw [h.holds] at hne heq
      rw [h.holds] at heq
      exact hs.sound.once j hj j' hj' hne heq }
  size := by
    rw [h.ip]
    exact hs.size
  le := hs.le
  held i hi := by
    rw [h.holds]
    exact hs.held i hi
  byte i hi := by
    have hle := hs.le
    have hblock : i / bSize < maxFile := block_lt (by omega)
    rw [← hs.byte i hi, BlockFile.byte, BlockFile.byte, h.holds, h.data _ hblock.le (hs.held i hi)]

/-- Writing to a second file on the disc is such a thing for the first one. -/
theorem Grows.leaves {t t' : BlockFile} (h : t.Grows t') (hs : s.Sound) (hdisk : t.disk = s.disk)
    (hapart : ∀ b, s.Owns b → ¬ t.Owns b) : s.Others { s with disk := t'.disk } where
  ip := rfl
  zero := h.sound.zero
  inUse j hj hne := by
    have hused := hs.inUse j hj hne
    rw [← hdisk] at hused
    exact (h.others _ hused (hapart _ ⟨hne, j, hj, rfl⟩)).1
  data j hj hne := by
    have hused := hs.inUse j hj hne
    rw [← hdisk] at hused ⊢
    exact (h.others _ hused (hapart _ ⟨hne, j, hj, rfl⟩)).2.2

end Others

section Pages

/-- The numbers of the blocks of a file of `p` pages. Page 1 is the first one that reaches beyond the
direct blocks. -/
def pageBlocks (p : Nat) : Finset Nat :=
  Finset.range (8 * p) ∪ if 2 ≤ p then {maxFile} else ∅

/-- How many blocks appending page `k` takes. -/
def blocksFor (k : Nat) : Nat := if k = 1 then 9 else 8

/-- There are free blocks for page `k`, where the file does not have it. -/
def Enough (s : BlockFile) (k : Nat) : Prop := k * pgSize = s.ip.size → blocksFor k ≤ s.disk.free

/-- The file is empty, as `create` leaves it, and the boot block is marked in use. -/
structure Fresh (s : BlockFile) : Prop where
  zero : s.disk.inUse 0 = true
  size : s.ip.size = 0
  addrs : ∀ j, s.ip.addrs j = 0

/-- The states of the file, with the page written last to every slot. -/
inductive Reached (s₀ : BlockFile) : (Nat → Option (Nat → Byte)) → BlockFile → Prop
  | start : Reached s₀ (fun _ => none) s₀
  | write {slots s s'} {k : Nat} {buffer : Nat → Byte} {r : Int} (h : Reached s₀ slots s)
      (hk : k < discPages) (hsize : k * pgSize ≤ s.ip.size) (henough : s.Enough k)
      (hwrite : s.writeToSwapFile buffer (k * pgSize) pgSize = .ok (r, s')) :
      Reached s₀ (update slots k (some buffer)) s'
  | read {slots s s'} {j : Nat} {dst dst' : Nat → Byte} {r : Int} (h : Reached s₀ slots s)
      (hj : (slots j).isSome)
      (hread : s.readFromSwapFile dst (j * pgSize) pgSize = .ok (r, dst', s')) : Reached s₀ slots s'
  | others {slots s s'} (h : Reached s₀ slots s) (hothers : s.Others s') : Reached s₀ slots s'

/-- The file is `p` pages long and has their blocks and no others; what was written is there. -/
structure Paged (slots : Nat → Option (Nat → Byte)) (s : BlockFile) (f : SwapFile) (p : Nat) : Prop where
  stores : s.Stores f
  size : f.size = p * pgSize
  le : p ≤ discPages
  held : s.held = pageBlocks p
  page : ∀ j buffer, slots j = some buffer → j < p ∧ ∀ x < pgSize, f.data (j * pgSize + x) = buffer x

variable {s s₀ : BlockFile} {f : SwapFile} {slots : Nat → Option (Nat → Byte)} {p : Nat}

private theorem Fresh.paged (h : s.Fresh) : Paged (fun _ => none) s .empty 0 := by
  have hnone (j : Nat) : s.holds j = 0 := by
    rw [holds, lookup, h.addrs, if_pos rfl, h.addrs]
    simp
  have hheld : s.held = pageBlocks 0 := by
    ext j
    simp [mem_held, hnone, pageBlocks]
  exact {
    stores := ⟨⟨h.zero, fun j _ hne => absurd (hnone j) hne, fun j _ _ _ hne => absurd (hnone j) hne⟩,
      h.size, Nat.zero_le _, fun i hi => absurd hi (Nat.not_lt_zero i), fun i hi => absurd hi (Nat.not_lt_zero i)⟩
    size := (Nat.zero_mul _).symm
    le := Nat.zero_le _
    held := hheld
    page := by
      intro j buffer hj
      contradiction }

private theorem mem_pageBlocks {j : Nat} : j ∈ pageBlocks p ↔ j < 8 * p ∨ (2 ≤ p ∧ j = maxFile) := by
  rw [pageBlocks, Finset.mem_union, Finset.mem_range]
  by_cases hp : 2 ≤ p
  · simp [hp]
  · simp [hp]

private theorem pageBlocks_subset {p' : Nat} (h : p ≤ p') : pageBlocks p ⊆ pageBlocks p' := by
  intro j hj
  rw [mem_pageBlocks] at hj ⊢
  omega

private theorem card_pageBlocks (hp : p ≤ discPages) :
    (pageBlocks p).card = 8 * p + if 2 ≤ p then 1 else 0 := by
  have hmax : ¬ maxFile < 8 * p := by
    simp only [discPages, maxTotalPages, maxPyscPages] at hp
    simp only [maxFile, nDirect, nIndirect, bSize]
    omega
  rw [pageBlocks]
  by_cases htwo : 2 ≤ p
  · rw [if_pos htwo, if_pos htwo, Finset.card_union_of_disjoint, Finset.card_range, Finset.card_singleton]
    simpa using hmax
  · rw [if_neg htwo, if_neg htwo, Finset.union_empty, Finset.card_range, Nat.add_zero]

private theorem Stores.pageBlocks_subset (h : s.Stores f) (hsize : f.size = p * pgSize) :
    pageBlocks p ⊆ s.held := by
  have hheld {j : Nat} (hj : j < 8 * p) : j < maxFile ∧ s.holds j ≠ 0 := by
    have hlt : j * bSize < f.size := by
      rw [hsize, pgSize, bSize]
      omega
    have hne := h.held _ hlt
    rw [Nat.mul_div_cancel _ (by decide)] at hne
    refine ⟨?_, hne⟩
    have hle := h.le
    rw [bSize] at *
    omega
  intro j hj
  rw [mem_held]
  rcases mem_pageBlocks.mp hj with hlt | ⟨htwo, rfl⟩
  · exact ⟨(hheld hlt).1.le, (hheld hlt).2⟩
  · refine ⟨le_rfl, ?_⟩
    -- block 12 was found through the block of addresses
    obtain ⟨hmax, hne⟩ := hheld (j := 12) (by omega)
    rw [holds, if_neg (by omega), lookup, if_neg (by decide)] at hne
    rw [holds, if_pos rfl]
    intro hzero
    exact hne (if_pos hzero)

private theorem Paged.room {k : Nat} (h : Paged slots s f p) (hk : k < discPages) (hkp : k ≤ p)
    (henough : s.Enough k) : s.Room (pageBlocks (max p (k + 1))) where
  sub := by
    rw [h.held]
    exact BlockFile.pageBlocks_subset (le_max_left _ _)
  card := by
    rw [h.held]
    rcases Nat.lt_or_ge k p with hlt | hge
    · rw [max_eq_left (by omega)]
      omega
    · have hkp' : k = p := by omega
      have hfree := henough (by rw [h.stores.size, h.size, hkp'])
      rw [max_eq_right (by omega), card_pageBlocks (by omega), card_pageBlocks h.le]
      rw [blocksFor] at hfree
      split at hfree <;> split <;> split <;> omega

private theorem covers_page (k : Nat) : Covers (pageBlocks (k + 1)) (k * pgSize) pgSize := by
  intro i hi hlt
  rw [mem_pageBlocks, mem_pageBlocks]
  rw [pgSize] at hi hlt
  rw [bSize, nDirect]
  omega

private theorem Paged.write {k : Nat} (h : Paged slots s f p) (hk : k < discPages) (hsize : k * pgSize ≤ s.ip.size)
    (henough : s.Enough k) (buffer : Nat → Byte) :
    ∃ s', s.writeToSwapFile buffer (k * pgSize) pgSize = .ok (pgSize, s') ∧
      Paged (update slots k (some buffer)) s' (f.overlay buffer (k * pgSize) pgSize) (max p (k + 1)) := by
  have hkp : k ≤ p := by
    rw [h.stores.size, h.size, pgSize] at hsize
    omega
  have hmax : k * pgSize + pgSize ≤ maxFile * bSize := by
    simp only [discPages, maxTotalPages, maxPyscPages] at hk
    simp only [pgSize, maxFile, nDirect, nIndirect, bSize]
    omega
  have hcovers : Covers (pageBlocks (max p (k + 1))) (k * pgSize) pgSize := by
    intro i hi hlt
    obtain ⟨hmem, hlast⟩ := covers_page k i hi hlt
    have hsub := BlockFile.pageBlocks_subset (le_max_right p (k + 1))
    exact ⟨hsub hmem, fun hind => hsub (hlast hind)⟩
  obtain ⟨s', hwrite, hstores, hroom, _⟩ := writeToSwapFile_stores buffer h.stores
    (h.room hk hkp henough) hcovers (by rw [← h.stores.size]; exact hsize) (by decide) hmax
  have hsize' : (f.overlay buffer (k * pgSize) pgSize).size = max p (k + 1) * pgSize := by
    simp only [SwapFile.overlay, h.size, pgSize]
    omega
  refine ⟨s', hwrite, hstores, hsize', ?_, ?_, ?_⟩
  · have := h.le
    omega
  · exact Finset.Subset.antisymm hroom.sub (hstores.pageBlocks_subset hsize')
  · intro j page hj
    by_cases hjk : j = k
    · rw [hjk, update_self, Option.some.injEq] at hj
      rw [hjk, ← hj]
      refine ⟨by omega, fun x hx => ?_⟩
      simp only [SwapFile.overlay]
      rw [if_pos (by omega)]
      congr 1
      omega
    · rw [update_of_ne hjk] at hj
      obtain ⟨hlt, hpage⟩ := h.page j page hj
      refine ⟨by omega, fun x hx => ?_⟩
      rw [← hpage x hx]
      simp only [SwapFile.overlay]
      rw [if_neg]
      rw [pgSize] at *
      omega

private theorem Paged.read {j : Nat} {buffer : Nat → Byte} (h : Paged slots s f p) (hj : slots j = some buffer)
    (dst : Nat → Byte) : s.readFromSwapFile dst (j * pgSize) pgSize =
      .ok (pgSize, fun x => if x < pgSize then buffer x else dst x, s) := by
  obtain ⟨hlt, hpage⟩ := h.page j buffer hj
  rw [readFromSwapFile_stores h.stores dst (by rw [h.size, pgSize]; omega)]
  congr 3
  funext x
  by_cases hx : x < pgSize
  · rw [if_pos hx, if_pos hx, hpage x hx]
  · rw [if_neg hx, if_neg hx]

private theorem Reached.paged (h₀ : s₀.Fresh) (h : Reached s₀ slots s) : ∃ f p, Paged slots s f p := by
  induction h with
  | start => exact ⟨_, _, h₀.paged⟩
  | write _ hk hsize henough hwrite ih =>
    obtain ⟨f, p, hpaged⟩ := ih
    obtain ⟨s'', hok, hpaged'⟩ := hpaged.write hk hsize henough _
    rw [hwrite, Except.ok.injEq, Prod.mk.injEq] at hok
    rw [hok.2]
    exact ⟨_, _, hpaged'⟩
  | read _ hj hread ih =>
    obtain ⟨f, p, hpaged⟩ := ih
    obtain ⟨buffer, hbuffer⟩ := Option.isSome_iff_exists.mp hj
    rw [hpaged.read hbuffer, Except.ok.injEq, Prod.mk.injEq, Prod.mk.injEq] at hread
    rw [← hread.2.2]
    exact ⟨f, p, hpaged⟩
  | others _ hothers ih =>
    obtain ⟨f, p, hpaged⟩ := ih
    refine ⟨f, p, hpaged.stores.others hothers, hpaged.size, hpaged.le, ?_, hpaged.page⟩
    rw [← hpaged.held]
    ext j
    rw [mem_held, mem_held, hothers.holds]

/-- A swap file is an array of pages: a page goes to every slot up to the end of the file, and what is
read from a slot is the page written there last. -/
theorem swapFile_array (h₀ : s₀.Fresh) (h : Reached s₀ slots s) :
    (∀ k buffer, k < discPages → k * pgSize ≤ s.ip.size → s.Enough k →
      ∃ s', s.writeToSwapFile buffer (k * pgSize) pgSize = .ok (pgSize, s')) ∧
    ∀ j buffer dst, slots j = some buffer → s.readFromSwapFile dst (j * pgSize) pgSize =
      .ok (pgSize, fun x => if x < pgSize then buffer x else dst x, s) := by
  obtain ⟨f, p, hpaged⟩ := h.paged h₀
  constructor
  · intro k buffer hk hsize henough
    obtain ⟨s', hwrite, _⟩ := hpaged.write hk hsize henough buffer
    exact ⟨s', hwrite⟩
  · intro j buffer dst hj
    exact hpaged.read hj dst

/-- A new file on a disc of twenty blocks. -/
def newFile : BlockFile where
  disk := { size := 20, inUse := fun b => b == 0, data := fun _ _ => 0, size_lt := by decide }
  ip := { addrs := fun _ => 0, size := 0 }

private theorem newFile_fresh : newFile.Fresh := ⟨rfl, rfl, fun _ => rfl⟩

private theorem newFile_blocks : ∃ s₁ s₂ : BlockFile,
    newFile.writeToSwapFile (fun _ => 7) (0 * pgSize) pgSize = .ok (pgSize, s₁) ∧
      s₁.writeToSwapFile (fun _ => 8) (1 * pgSize) pgSize = .ok (pgSize, s₂) ∧
      s₁.ip.size = 1 * pgSize ∧ s₁.disk.free = 11 ∧ s₂.ip.size = 2 * pgSize := by
  refine ⟨_, _, rfl, rfl, ?_, ?_, ?_⟩
  · decide +kernel
  · decide +kernel
  · decide +kernel

/-- Slots 0 and 1 are written, the second one twice; its blocks are partly direct, partly indirect. -/
theorem newFile_writes_and_reads : ∃ s₁ s₂ s₃ : BlockFile,
    newFile.writeToSwapFile (fun _ => 7) (0 * pgSize) pgSize = .ok (pgSize, s₁) ∧
      s₁.writeToSwapFile (fun _ => 8) (1 * pgSize) pgSize = .ok (pgSize, s₂) ∧
      s₂.writeToSwapFile (fun _ => 9) (1 * pgSize) pgSize = .ok (pgSize, s₃) ∧
      s₃.readFromSwapFile (fun _ => 0) (1 * pgSize) pgSize =
        .ok (pgSize, fun x => if x < pgSize then 9 else 0, s₃) ∧
      s₃.readFromSwapFile (fun _ => 0) (0 * pgSize) pgSize =
        .ok (pgSize, fun x => if x < pgSize then 7 else 0, s₃) := by
  obtain ⟨s₁, s₂, hwrite₁, hwrite₂, hsize₁, hfree₁, hsize₂⟩ := newFile_blocks
  have henough₁ : s₁.Enough 1 := fun _ => by rw [hfree₁]; decide
  have henough₂ : s₂.Enough 1 := fun heq => by rw [hsize₂] at heq; contradiction
  have hin₂ : 1 * pgSize ≤ s₂.ip.size := by rw [hsize₂]; decide
  have h₁ := Reached.write .start (by decide) (by decide) (fun _ => by decide) hwrite₁
  have h₂ := h₁.write (by decide) hsize₁.ge henough₁ hwrite₂
  obtain ⟨s₃, hwrite₃⟩ := (swapFile_array newFile_fresh h₂).1 1 (fun _ => 9) (by decide) hin₂ henough₂
  have h₃ := h₂.write (by decide) hin₂ henough₂ hwrite₃
  refine ⟨s₁, s₂, s₃, hwrite₁, hwrite₂, hwrite₃, ?_, ?_⟩
  · exact (swapFile_array newFile_fresh h₃).2 1 (fun _ => 9) (fun _ => 0) rfl
  · exact (swapFile_array newFile_fresh h₃).2 0 (fun _ => 7) (fun _ => 0) rfl

end Pages

end BlockFile

end OsSessional.Paging
