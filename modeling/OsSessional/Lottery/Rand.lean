import OsSessional.Lib.Share
import Mathlib.Data.UInt

/-!
# Random numbers up to a bound

`random_at_most` of `rand.c`. `unsigned long` has 32 bits; the values `genrand` returns are given as
a list, and a loop that rejects all of them is still running.
-/

namespace OsSessional.Lottery

/-- A division by zero in the kernel. -/
inductive Trap
  | divide
  deriving DecidableEq

def randMax : Nat := 0x7fffffff

namespace Draws

def num_bins (max : Int32) : UInt32 := max.toUInt32 + 1

def num_rand : UInt32 := UInt32.ofNat randMax + 1

def bin_size (max : Int32) : UInt32 := num_rand / num_bins max

def defect (max : Int32) : UInt32 := num_rand % num_bins max

/-- The loop ends with this value. -/
def accepts (max : Int32) (x : UInt32) : Bool := !decide (num_rand - defect max ≤ x)

/-- `x/bin_size`. -/
def draw (max : Int32) (x : UInt32) : Int32 := (x / bin_size max).toInt32

end Draws

open Draws in
def random_at_most (max : Int32) (genrand : List UInt32) : Except Trap (Option Int32) :=
  if num_bins max = 0 then .error .divide
  else
    match genrand.find? (accepts max) with
    | none => .ok none
    | some x => if bin_size max = 0 then .error .divide else .ok (some (draw max x))

namespace Draws

variable {max : Int32} {x : UInt32}

/-- The number of bins as a natural number. -/
def bins (max : Int32) : Nat := max.toInt.toNat + 1

private theorem num_rand_toNat : num_rand.toNat = randMax + 1 := rfl

private theorem num_bins_toNat (h : 0 ≤ max) : (num_bins max).toNat = bins max := by
  have hmax : max.toUInt32.toNat = max.toInt.toNat := by
    rw [Int32.toNat_toUInt32_of_le h, Int32.toNatClampNeg]
  have hlt := max.toInt_lt
  unfold num_bins bins
  rw [UInt32.toNat_add, hmax]
  apply Nat.mod_eq_of_lt
  change max.toInt.toNat + 1 < 2 ^ 32
  omega

theorem bins_le (max : Int32) : bins max ≤ randMax + 1 := by
  have hlt := max.toInt_lt
  unfold bins randMax
  omega

theorem bin_size_toNat (h : 0 ≤ max) : (bin_size max).toNat = (randMax + 1) / bins max := by
  unfold bin_size
  rw [UInt32.toNat_div, num_bins_toNat h, num_rand_toNat]

theorem bin_size_pos (max : Int32) : 0 < (randMax + 1) / bins max :=
  Nat.div_pos (bins_le max) (Nat.succ_pos _)

private theorem defect_toNat (h : 0 ≤ max) : (defect max).toNat = (randMax + 1) % bins max := by
  unfold defect
  rw [UInt32.toNat_mod, num_bins_toNat h, num_rand_toNat]

theorem accepts_iff (h : 0 ≤ max) :
    accepts max x = true ↔ x.toNat < (randMax + 1) - (randMax + 1) % bins max := by
  have hle : defect max ≤ num_rand := by
    rw [UInt32.le_iff_toNat_le, defect_toNat h, num_rand_toNat]
    exact Nat.mod_le _ _
  unfold accepts
  rw [Bool.not_eq_true', decide_eq_false_iff_not, UInt32.le_iff_toNat_le,
    UInt32.toNat_sub_of_le _ _ hle, defect_toNat h, num_rand_toNat, not_le]

private theorem div_lt_bins (h : 0 ≤ max) (hx : accepts max x = true) :
    x.toNat / ((randMax + 1) / bins max) < bins max := by
  rw [accepts_iff h, ← Share.bins_mul] at hx
  exact Nat.div_lt_of_lt_mul hx

theorem draw_toInt (h : 0 ≤ max) (hx : accepts max x = true) :
    (draw max x).toInt = (x.toNat / ((randMax + 1) / bins max) : Nat) := by
  have hlt := div_lt_bins h hx
  have hbins := bins_le max
  have hnat : (x / bin_size max).toNat = x.toNat / ((randMax + 1) / bins max) := by
    rw [UInt32.toNat_div, bin_size_toNat h]
  have htoInt : (draw max x).toInt = ((x / bin_size max).toNat : Int).bmod (2 ^ 32) := by
    unfold draw
    rw [← Int32.toInt_toBitVec, UInt32.toBitVec_toInt32, BitVec.toInt_eq_toNat_bmod,
      UInt32.toNat_toBitVec]
  rw [htoInt, hnat]
  unfold randMax at hbins
  exact Int.bmod_eq_of_le (by omega) (by omega)

theorem draw_le (h : 0 ≤ max) (hx : accepts max x = true) : 0 ≤ draw max x ∧ draw max x ≤ max := by
  have hlt := div_lt_bins h hx
  have hmax := Int32.le_iff_toInt_le.mp h
  rw [Int32.toInt_zero] at hmax
  rw [Int32.le_iff_toInt_le, Int32.le_iff_toInt_le, draw_toInt h hx, Int32.toInt_zero]
  constructor
  · exact Int.natCast_nonneg _
  · unfold bins at hlt ⊢
    omega

theorem num_bins_ne_zero (h : 0 ≤ max) : num_bins max ≠ 0 := by
  intro hzero
  have hnat := num_bins_toNat h
  rw [hzero] at hnat
  simp [bins] at hnat

theorem bin_size_ne_zero (h : 0 ≤ max) : bin_size max ≠ 0 := by
  intro hzero
  have hpos := bin_size_pos max
  rw [← bin_size_toNat h, hzero] at hpos
  simp at hpos

theorem accepts_zero (h : 0 ≤ max) : accepts max 0 = true := by
  have hpos : 0 < bins max := Nat.succ_pos _
  have hhalf := Share.two_mul_mod_lt hpos (bins_le max)
  rw [accepts_iff h]
  change 0 < _
  omega

theorem random_at_most_singleton (h : 0 ≤ max) :
    random_at_most max [x] = .ok (if accepts max x then some (draw max x) else none) := by
  unfold random_at_most
  rw [if_neg (num_bins_ne_zero h)]
  cases hx : accepts max x <;> simp [hx, bin_size_ne_zero h]

end Draws

end OsSessional.Lottery
