import Mathlib.Algebra.Order.BigOperators.Group.List
import Mathlib.Data.Finset.Interval
import Mathlib.Order.Interval.Finset.Nat

/-!
# Proportional shares

A scan over weighted elements picks the one in whose interval of running totals a draw falls. A raw
number below `n` is put into one of `m` bins of equal size by division; the numbers that are left over
are fewer than half. Together they give each element its share of the raw numbers.
-/

namespace OsSessional.Share

section Pick

variable {α : Type*} (w : α → Nat)

/-- The element at which the running total first exceeds `x`. -/
def pick : List α → Nat → Option α
  | [], _ => none
  | a :: l, x => if x < w a then some a else pick l (x - w a)

variable {w} in
theorem mem_of_pick {l : List α} {p : α} {x : Nat} (h : pick w l x = some p) : p ∈ l := by
  induction l generalizing x with
  | nil => simp [pick] at h
  | cons a l ih =>
    simp only [pick] at h
    split at h
    · obtain rfl : a = p := by simpa using h
      exact List.mem_cons_self
    · exact List.mem_cons_of_mem a (ih h)

/-- A draw below the total picks somebody, and no other draw does. -/
theorem pick_isSome_iff {l : List α} {x : Nat} : (pick w l x).isSome = true ↔ x < (l.map w).sum := by
  induction l generalizing x with
  | nil => simp [pick]
  | cons a l ih =>
    simp only [pick, List.map_cons, List.sum_cons]
    split
    · next hx =>
      simp only [Option.isSome_some, true_iff]
      omega
    · next hx =>
      rw [ih]
      omega

variable [DecidableEq α]

/-- The weight before `p`. -/
def before : List α → α → Nat
  | [], _ => 0
  | a :: l, p => if a = p then 0 else w a + before l p

def total (l : List α) : Nat := (l.map w).sum

variable {w} {l : List α} {p : α} {x : Nat}

/-- The interval of an element ends within the total. -/
theorem before_add_le (hp : p ∈ l) : before w l p + w p ≤ total w l := by
  induction l with
  | nil => simp at hp
  | cons a l ih =>
    simp only [before, total, List.map_cons, List.sum_cons]
    by_cases hap : a = p
    · subst hap
      rw [if_pos rfl]
      omega
    · have hrest := ih (List.mem_of_ne_of_mem (Ne.symm hap) hp)
      rw [if_neg hap]
      unfold total at hrest
      omega

/-- A draw picks the element whose interval it falls into. -/
theorem pick_eq_some_iff (hnodup : l.Nodup) (hp : p ∈ l) :
    pick w l x = some p ↔ before w l p ≤ x ∧ x < before w l p + w p := by
  induction l generalizing x with
  | nil => simp at hp
  | cons a l ih =>
    obtain ⟨ha, hl⟩ := List.nodup_cons.mp hnodup
    simp only [pick, before]
    by_cases hap : a = p
    · subst hap
      rw [if_pos rfl]
      split
      · next hx => simp [hx]
      · next hx =>
        have hpick : pick w l (x - w a) ≠ some a := fun h => ha (mem_of_pick h)
        simp only [hpick, false_iff]
        omega
    · have hmem : p ∈ l := List.mem_of_ne_of_mem (Ne.symm hap) hp
      rw [if_neg hap]
      split
      · next hx =>
        have hne : some a ≠ some p := by simpa using hap
        simp only [hne, false_iff]
        omega
      · rw [ih hl hmem]
        omega

/-- Over a sorted list, the weight before `p` is that of the smaller elements. -/
theorem before_eq_sum [LinearOrder α] (hl : l.Pairwise (· < ·)) (hp : p ∈ l) :
    before w l p = (l.map fun a => if a < p then w a else 0).sum := by
  induction l with
  | nil => simp at hp
  | cons a l ih =>
    obtain ⟨ha, hl⟩ := List.pairwise_cons.mp hl
    simp only [before, List.map_cons, List.sum_cons]
    by_cases hap : a = p
    · subst hap
      have hrest : ∀ b ∈ l, (if b < a then w b else 0) = 0 := by
        intro b hb
        rw [if_neg (lt_asymm (ha b hb))]
      rw [if_pos rfl, if_neg (lt_irrefl a), List.map_congr_left hrest]
      simp
    · have hmem : p ∈ l := List.mem_of_ne_of_mem (Ne.symm hap) hp
      rw [if_neg hap, if_pos (ha p hmem), ih hl hmem]

end Pick

section Bins

variable {n m b a t : Nat}

/-- The numbers in a stretch of bins. -/
theorem card_bins (hb : 0 < b) (hfit : b * (a + t) ≤ n) :
    ((Finset.range n).filter fun x => a ≤ x / b ∧ x / b < a + t).card = b * t := by
  have hinterval : (Finset.range n).filter (fun x => a ≤ x / b ∧ x / b < a + t) =
      Finset.Ico (b * a) (b * (a + t)) := by
    ext x
    simp only [Finset.mem_filter, Finset.mem_range, Finset.mem_Ico]
    rw [Nat.le_div_iff_mul_le hb, Nat.div_lt_iff_lt_mul hb, mul_comm a b, mul_comm (a + t) b]
    omega
  rw [hinterval, Nat.card_Ico, mul_add, Nat.add_sub_cancel_left]

/-- What does not fill a bin is less than half. -/
theorem two_mul_mod_lt (hm : 0 < m) (hmn : m ≤ n) : 2 * (n % m) < n := by
  have hlt := Nat.mod_lt n hm
  have hdiv : 1 ≤ n / m := (Nat.one_le_div_iff hm).mpr hmn
  have hsplit := Nat.div_add_mod n m
  have hbin : m * 1 ≤ m * (n / m) := Nat.mul_le_mul_left m hdiv
  omega

/-- The bins cover what is not left over. -/
theorem bins_mul : n / m * m = n - n % m := by
  have hsplit := Nat.div_add_mod n m
  rw [mul_comm] at hsplit
  omega

end Bins

end OsSessional.Share
