import Mathlib.Algebra.BigOperators.Fin
import Mathlib.Algebra.Order.BigOperators.Group.Finset

/-!
# Threads and their program counters

Finitely many threads run one program. A tally adds up what each thread contributes at its program
counter; a step of one thread changes the tally by that thread's share alone.
-/

namespace OsSessional

open Function (update update_self update_of_ne)

variable {ι P M : Type*} [Fintype ι]

/-- What all threads contribute together. -/
def tally [AddCommMonoid M] (w : ι → P → M) (pc : ι → P) : M := ∑ i, w i (pc i)

section Step

variable [AddCommMonoid M] (w : ι → P → M)

/-- One thread moves. -/
theorem tally_update [DecidableEq ι] (pc : ι → P) (i : ι) (p : P) :
    tally w (update pc i p) + w i (pc i) = tally w pc + w i p := by
  have hrest : ∑ j ∈ Finset.univ.erase i, w j (update pc i p j) =
      ∑ j ∈ Finset.univ.erase i, w j (pc j) := by
    apply Finset.sum_congr rfl
    intro j hj
    rw [update_of_ne (Finset.ne_of_mem_erase hj)]
  have hnew := Finset.sum_erase_add Finset.univ (fun j => w j (update pc i p j)) (Finset.mem_univ i)
  have hold := Finset.sum_erase_add Finset.univ (fun j => w j (pc j)) (Finset.mem_univ i)
  simp only [update_self] at hnew
  rw [hrest] at hnew
  unfold tally
  rw [← hnew, ← hold]
  exact add_right_comm _ _ _

/-- Threads may move to places where they contribute the same. -/
theorem tally_congr {pc pc' : ι → P} (h : ∀ j, w j (pc' j) = w j (pc j)) : tally w pc' = tally w pc :=
  Finset.sum_congr rfl fun j _ => h j

theorem tally_eq_zero {pc : ι → P} (h : ∀ j, w j (pc j) = 0) : tally w pc = 0 :=
  Finset.sum_eq_zero fun j _ => h j

/-- Somebody contributes to a tally that is not zero. -/
theorem exists_of_tally_ne_zero {pc : ι → P} (h : tally w pc ≠ 0) : ∃ j, w j (pc j) ≠ 0 := by
  obtain ⟨j, -, hj⟩ := Finset.exists_ne_zero_of_sum_ne_zero h
  exact ⟨j, hj⟩

end Step

section Order

variable {w : ι → P → Int} {pc : ι → P}

/-- No thread contributes more than all do. -/
theorem le_tally (h : ∀ j p, 0 ≤ w j p) (i : ι) : w i (pc i) ≤ tally w pc :=
  Finset.single_le_sum (f := fun j => w j (pc j)) (fun j _ => h j (pc j)) (Finset.mem_univ i)

end Order

end OsSessional
