import OsSessional.Lib.Lagged
import OsSessional.Lottery.Rand

/-!
# The generator

`sgenrand` and `genrand` of `rand.c`. `genrand` regenerates its array of `N` words in place, all at a
time; what it returns are the terms of one recurrence, tempered and without the uppermost bit.
-/

namespace OsSessional.Lottery

open Function (update update_self update_of_ne)

namespace Generator

def N : Nat := 624
def M : Nat := 397
def matrixA : UInt32 := 0x9908b0df
def upperMask : UInt32 := 0x80000000
def lowerMask : UInt32 := 0x7fffffff
def temperingMaskB : UInt32 := 0x9d2c5680
def temperingMaskC : UInt32 := 0xefc60000

def mag01 (x : UInt32) : UInt32 := if x = 0 then 0 else matrixA

/-- A word from the one it replaces, the next one and the one `M` places on. -/
def twist (u l w : UInt32) : UInt32 :=
  let y := (u &&& upperMask) ||| (l &&& lowerMask)
  w ^^^ (y >>> 1) ^^^ mag01 (y &&& 1)

def temper (y : UInt32) : UInt32 :=
  let y := y ^^^ (y >>> 11)
  let y := y ^^^ ((y <<< 7) &&& temperingMaskB)
  let y := y ^^^ ((y <<< 15) &&& temperingMaskC)
  y ^^^ (y >>> 18)

/-- `mt` and `mti`. -/
structure Gen where
  mt : Nat → UInt32
  mti : Nat

/-- The generator as the kernel starts: no word is initialized. -/
def unseeded (mt : Nat → UInt32) : Gen := ⟨mt, N + 1⟩

def sgenrand (g : Gen) (seed : UInt32) : Gen where
  mt := (List.range' 1 (N - 1)).foldl (fun mt mti => update mt mti (69069 * mt (mti - 1)))
    (update g.mt 0 (seed &&& 0xffffffff))
  mti := N

/-- The three loops that generate `N` words at one time. -/
def generate (mt : Nat → UInt32) : Nat → UInt32 :=
  let mt := (List.range (N - M)).foldl
    (fun mt kk => update mt kk (twist (mt kk) (mt (kk + 1)) (mt (kk + M)))) mt
  let mt := (List.range' (N - M) (M - 1)).foldl
    (fun mt kk => update mt kk (twist (mt kk) (mt (kk + 1)) (mt (kk - (N - M))))) mt
  update mt (N - 1) (twist (mt (N - 1)) (mt 0) (mt (M - 1)))

/-- The words to read from, seeded and generated when they are used up. -/
def ready (g : Gen) : Gen :=
  if g.mti ≥ N then
    let g := if g.mti = N + 1 then sgenrand g 4357 else g
    ⟨generate g.mt, 0⟩
  else g

def genrand (g : Gen) : UInt32 × Gen :=
  let g := ready g
  (temper (g.mt g.mti) &&& UInt32.ofNat randMax, { g with mti := g.mti + 1 })

/-- What `k` calls return. -/
def genrands : Nat → Gen → List UInt32
  | 0, _ => []
  | k + 1, g => (genrand g).1 :: genrands k (genrand g).2

private theorem genrands_succ (k : Nat) (g : Gen) :
    genrands (k + 1) g = (genrand g).1 :: genrands k (genrand g).2 := rfl

/-- The sequence of words: `N` from the seed, then each from three of those before it. -/
def words (seed : UInt32) (i : Nat) : UInt32 :=
  if i = 0 then seed
  else if i < N then 69069 * words seed (i - 1)
  else twist (words seed (i - N)) (words seed (i - N + 1)) (words seed (i - N + M))
termination_by i
decreasing_by all_goals (simp only [N, M] at *; omega)

variable {seed : UInt32} {mt : Nat → UInt32} {g : Gen} {k : Nat}

private theorem words_zero : words seed 0 = seed := by rw [words, if_pos rfl]

private theorem words_succ {i : Nat} (hi : i + 1 < N) : words seed (i + 1) = 69069 * words seed i := by
  rw [words, if_neg (Nat.succ_ne_zero i), if_pos hi, Nat.add_sub_cancel]

private theorem words_lagged (seed : UInt32) : Lagged N M twist (words seed) := by
  intro i
  have hN : N = 624 := rfl
  rw [words, if_neg (by omega), if_neg (by omega), Nat.add_sub_cancel]

private theorem generate_eq (mt : Nat → UInt32) : generate mt = Lagged.regenerate N M twist mt := rfl

private theorem sgenrand_words (g : Gen) (seed : UInt32) :
    ∀ i < N, (sgenrand g seed).mt i = words seed i := by
  have hfold (l : Nat) (hl : l + 1 ≤ N) : ∀ i < l + 1,
      (List.range' 1 l).foldl (fun mt mti => update mt mti (69069 * mt (mti - 1)))
        (update g.mt 0 (seed &&& 0xffffffff)) i = words seed i := by
    induction l with
    | zero =>
      intro i hi
      obtain rfl : i = 0 := by omega
      rw [words_zero]
      exact (update_self ..).trans (UInt32.and_neg_one)
    | succ l ih =>
      intro i hi
      rw [List.range'_concat, List.foldl_append, Nat.one_mul, List.foldl_cons, List.foldl_nil]
      by_cases hil : i = 1 + l
      · rw [hil, update_self, Nat.add_sub_cancel_left, ih (by omega) l (by omega), Nat.add_comm 1 l,
          words_succ hl]
      · rw [update_of_ne hil]
        exact ih (by omega) i (by omega)
  have hN : N - 1 + 1 = N := Nat.sub_add_cancel (by decide)
  intro i hi
  have hword := hfold (N - 1) hN.le i (by omega)
  simpa only [sgenrand] using hword

/-- The array holds a window of the words, and `k` words after the first window have been read. -/
structure Reads (g : Gen) (seed : UInt32) (k : Nat) : Prop where
  window : ∃ r, (∀ i < N, g.mt i = words seed (r + i)) ∧ r + g.mti = N + k
  place : g.mti ≤ N

private theorem reads_sgenrand (g : Gen) (seed : UInt32) : Reads (sgenrand g seed) seed 0 where
  window := ⟨0, fun i hi => (sgenrand_words g seed i hi).trans (by rw [Nat.zero_add]), Nat.zero_add N⟩
  place := le_refl N

private theorem Reads.ready (h : Reads g seed k) : Reads (ready g) seed k ∧ (ready g).mti < N := by
  have hplace := h.place
  unfold Generator.ready
  split
  · next hused =>
    have hN : g.mti = N := by omega
    have hseeded : g.mti ≠ N + 1 := by omega
    rcases h.window with ⟨r, hwindow, hcount⟩
    simp only [if_neg hseeded]
    refine ⟨⟨⟨r + N, fun i hi => ?_, ?_⟩, Nat.zero_le N⟩, by decide⟩
    · rw [generate_eq]
      exact Lagged.regenerate_window (words_lagged seed) (by decide) (by decide) hwindow i hi
    · show r + N + 0 = N + k
      omega
  · next hleft => exact ⟨h, not_le.mp hleft⟩

private theorem Reads.genrand (h : Reads g seed k) :
    (genrand g).1 = temper (words seed (N + k)) &&& UInt32.ofNat randMax ∧
      Reads (genrand g).2 seed (k + 1) := by
  rcases h.ready with ⟨hready, hlt⟩
  rcases hready.window with ⟨r, hwindow, hcount⟩
  refine ⟨?_, ⟨⟨r, hwindow, ?_⟩, hlt⟩⟩
  · rw [← hcount, ← hwindow _ hlt]
    rfl
  · show r + ((Generator.ready g).mti + 1) = N + (k + 1)
    omega

/-- What the generator returns after the first window. -/
def sequence (seed : UInt32) (n : Nat) : List UInt32 :=
  (List.range n).map fun i => temper (words seed (N + i)) &&& UInt32.ofNat randMax

private theorem Reads.genrands (h : Reads g seed k) (n : Nat) : genrands n g =
    (List.range' k n).map fun i => temper (words seed (N + i)) &&& UInt32.ofNat randMax := by
  induction n generalizing g k with
  | zero => rfl
  | succ n ih =>
    rcases h.genrand with ⟨hword, hnext⟩
    rw [genrands_succ, hword, ih hnext, List.range'_succ, List.map_cons]

private theorem genrands_sgenrand (g : Gen) (seed : UInt32) (n : Nat) :
    genrands n (sgenrand g seed) = sequence seed n := by
  rw [(reads_sgenrand g seed).genrands n, sequence, List.range_eq_range']

private theorem genrand_unseeded (mt : Nat → UInt32) :
    genrand (unseeded mt) = genrand (sgenrand (unseeded mt) 4357) := by
  have hnone : (unseeded mt).mti ≥ N := Nat.le_succ N
  have hused : (sgenrand (unseeded mt) 4357).mti ≥ N := le_refl N
  have hfirst : (unseeded mt).mti = N + 1 := rfl
  have hlater : (sgenrand (unseeded mt) 4357).mti ≠ N + 1 := Nat.ne_of_lt (Nat.lt_succ_self N)
  have hready : ready (unseeded mt) = ready (sgenrand (unseeded mt) 4357) := by
    simp only [Generator.ready, if_pos hnone, if_pos hused, if_pos hfirst, if_neg hlater]
  rw [Generator.genrand, Generator.genrand, hready]

private theorem genrands_unseeded (mt : Nat → UInt32) (n : Nat) :
    genrands n (unseeded mt) = sequence 4357 n := by
  rw [← genrands_sgenrand (unseeded mt) 4357 n]
  cases n with
  | zero => simp only [Generator.genrands]
  | succ n => rw [genrands_succ, genrands_succ, genrand_unseeded]

private theorem genrand_le (g : Gen) : (genrand g).1.toNat ≤ randMax := by
  unfold Generator.genrand
  rw [UInt32.toNat_and]
  exact Nat.and_le_right

private theorem genrands_le (n : Nat) (g : Gen) : ∀ x ∈ genrands n g, x.toNat ≤ randMax := by
  induction n generalizing g with
  | zero => simp [Generator.genrands]
  | succ n ih =>
    intro x hx
    rcases List.mem_cons.mp hx with rfl | hx
    · exact genrand_le g
    · exact ih _ x hx

/-- However often it is called, the generator returns the tempered words of its seed in order, of
`4357` when it has not been seeded, and nothing above `RAND_MAX`. -/
theorem genrand_follows_words (n : Nat) :
    (∀ mt, genrands n (unseeded mt) = sequence 4357 n) ∧
      (∀ g seed, genrands n (sgenrand g seed) = sequence seed n) ∧
      ∀ g, ∀ x ∈ genrands n g, x.toNat ≤ randMax :=
  ⟨fun mt => genrands_unseeded mt n, fun g seed => genrands_sgenrand g seed n, genrands_le n⟩

end Generator

end OsSessional.Lottery
