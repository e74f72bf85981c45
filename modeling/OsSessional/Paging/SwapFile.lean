import OsSessional.Paging.Mmu

/-!
# The swap file

`writei`, `filewrite` and `readi` of `fs.c` and `file.c` on the contents of one file. The block
layer below them (`bmap`, `bread`, `log_write`) is a block store here; what stays are the size
checks, the short read at the end of the file and the chunked write.
-/

namespace OsSessional.Paging

def bSize : Nat := 512
def nDirect : Nat := 12
def nIndirect : Nat := bSize / 4
def maxFile : Nat := nDirect + nIndirect
def maxOpBlocks : Nat := 10

/-- Contents of an open file: only bytes below `size` are in it. -/
structure SwapFile where
  size : Nat
  data : Nat → Byte

namespace SwapFile

/-- The file `createSwapFile` makes. -/
def empty : SwapFile := ⟨0, fun _ => 0⟩

/-- `writei` of `n` bytes at `off`; `none` is its `-1`. -/
def writei (f : SwapFile) (src : Nat → Byte) (off n : Nat) : Option SwapFile :=
  if off > f.size ∨ 2 ^ 32 ≤ off + n then none
  else if off + n > maxFile * bSize then none
  else some
    { size := if 0 < n ∧ off + n > f.size then off + n else f.size
      data := fun i => if off ≤ i ∧ i < off + n then src (i - off) else f.data i }

/-- Most bytes `filewrite` hands to one `writei`. -/
def chunk : Nat := (maxOpBlocks - 1 - 1 - 2) / 2 * 512

/-- The loop of `filewrite` from byte `i` of `n`, with the file offset at `off`. Every round
writes at least one byte, so `n` rounds are enough. -/
def filewriteLoop (src : Nat → Byte) (n : Nat) : Nat → Nat → Nat → SwapFile → SwapFile × Bool
  | 0, i, _, f => (f, decide (i = n))
  | fuel + 1, i, off, f =>
    if i < n then
      let n1 := min (n - i) chunk
      match f.writei (fun b => src (i + b)) off n1 with
      | none => (f, false)
      | some f => filewriteLoop src n fuel (i + n1) (off + n1) f
    else (f, decide (i = n))

/-- `filewrite` at offset `off`; the flag tells whether it returned `n`. -/
def filewrite (f : SwapFile) (src : Nat → Byte) (off n : Nat) : SwapFile × Bool :=
  filewriteLoop src n n 0 off f

/-- Whether the first `writei` of a write of `n > 0` bytes is refused, before any byte of the
source is touched. -/
def refuses (f : SwapFile) (off n : Nat) : Bool :=
  (f.writei (fun _ => 0) off (min n chunk)).isNone

/-- `readi` of `n` bytes at `off`: the count and the bytes, or `none` for its `-1`. -/
def readi (f : SwapFile) (off n : Nat) : Option (Nat × (Nat → Byte)) :=
  if off > f.size ∨ 2 ^ 32 ≤ off + n then none
  else some (min n (f.size - off), fun i => f.data (off + i))

/-- `f` with `n` bytes of `src` laid over it at `off`. -/
def overlay (f : SwapFile) (src : Nat → Byte) (off n : Nat) : SwapFile :=
  { size := max f.size (off + n)
    data := fun i => if off ≤ i ∧ i < off + n then src (i - off) else f.data i }

variable (f : SwapFile) (src : Nat → Byte)

private theorem writei_eq_overlay {off n : Nat} (hoff : off ≤ f.size) (hn : 0 < n)
    (hmax : off + n ≤ maxFile * bSize) : f.writei src off n = some (f.overlay src off n) := by
  have hbig : maxFile * bSize < 2 ^ 32 := by decide
  simp only [writei, overlay]
  rw [if_neg (by omega), if_neg (by omega)]
  congr 2
  split <;> omega

theorem overlay_overlay {off a b : Nat} :
    (f.overlay src off a).overlay (fun i => src (a + i)) (off + a) b = f.overlay src off (a + b) := by
  simp only [overlay, SwapFile.mk.injEq]
  refine ⟨by omega, ?_⟩
  funext i
  by_cases h1 : off + a ≤ i ∧ i < off + a + b
  · rw [if_pos h1, if_pos (by omega)]
    congr 1
    omega
  · rw [if_neg h1]
    by_cases h2 : off ≤ i ∧ i < off + a
    · rw [if_pos h2, if_pos (by omega)]
    · rw [if_neg h2, if_neg (by omega)]

private theorem filewriteLoop_eq {n : Nat} :
    ∀ (fuel i off : Nat) (f : SwapFile), n - i ≤ fuel → i ≤ n → off ≤ f.size →
      off + (n - i) ≤ maxFile * bSize →
      filewriteLoop src n fuel i off f =
        (if i < n then f.overlay (fun b => src (i + b)) off (n - i) else f, true) := by
  intro fuel
  induction fuel with
  | zero =>
    intro i off f hf hi _ _
    have : i = n := by omega
    simp [filewriteLoop, this]
  | succ fuel ih =>
    intro i off f hf hi hoff hmax
    have hchunk : 0 < chunk := by decide
    simp only [filewriteLoop]
    by_cases h : i < n
    · rw [if_pos h, if_pos h]
      rw [writei_eq_overlay f _ hoff (by omega) (by omega)]
      simp only
      rw [ih _ _ _ (by omega) (by omega) (by simp only [overlay]; omega) (by omega)]
      split
      · next hlt =>
        have hsplit : n - i = min (n - i) chunk + (n - (i + min (n - i) chunk)) := by omega
        rw [Prod.mk.injEq]
        refine ⟨?_, rfl⟩
        conv_rhs => rw [hsplit, ← overlay_overlay]
        simp only [Nat.add_assoc]
      · next hge =>
        have : min (n - i) chunk = n - i := by omega
        rw [this]
    · have : i = n := by omega
      simp [this]

/-- A write that starts inside the file and ends below `MAXFILE` blocks goes through whole. -/
theorem filewrite_eq {off n : Nat} (hn : 0 < n) (hoff : off ≤ f.size)
    (hmax : off + n ≤ maxFile * bSize) : f.filewrite src off n = (f.overlay src off n, true) := by
  rw [filewrite, filewriteLoop_eq src n 0 off f (by omega) (by omega) hoff (by omega), if_pos hn]
  simp

/-- A write that starts beyond the end of the file is refused and changes nothing. -/
theorem filewrite_refused {off n : Nat} (hn : 0 < n) (hoff : f.size < off) :
    f.filewrite src off n = (f, false) := by
  obtain ⟨m, rfl⟩ : ∃ m, n = m + 1 := ⟨n - 1, by omega⟩
  simp [filewrite, filewriteLoop, writei, hoff]

end SwapFile

end OsSessional.Paging
