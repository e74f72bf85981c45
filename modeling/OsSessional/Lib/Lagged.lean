import Mathlib.Data.List.Range
import Mathlib.Logic.Function.Basic

/-!
# Lagged recurrences

A sequence whose term `n` places on is computed from the term, the next one and the one `m` places on.
An array that holds a window of `n` terms is moved on by a whole window in place: the terms that are
still needed are read before they are overwritten, the others are new already.
-/

namespace OsSessional

open Function (update update_self update_of_ne)

variable {β : Type*}

/-- `x` satisfies the recurrence. -/
def Lagged (n m : Nat) (f : β → β → β → β) (x : Nat → β) : Prop :=
  ∀ i, x (i + n) = f (x i) (x (i + 1)) (x (i + m))

namespace Lagged

section Regenerate

variable (n m : Nat) (f : β → β → β → β)

/-- A term is overwritten by the one `n` places on, with the third one read at place `mid`. -/
def renew (next mid : Nat → Nat) (a : Nat → β) (kk : Nat) : Nat → β :=
  update a kk (f (a kk) (a (next kk)) (a (mid kk)))

/-- All `n` terms in turn: the third one is ahead, then behind. -/
def regenerate (a : Nat → β) : Nat → β :=
  let a := (List.range (n - m)).foldl (renew f (· + 1) (· + m)) a
  let a := (List.range' (n - m) (m - 1)).foldl (renew f (· + 1) (· - (n - m))) a
  renew f (fun _ => 0) (fun _ => m - 1) a (n - 1)

end Regenerate

/-- The array holds the window from `k` on, with the first `j` terms renewed. -/
def Window (n : Nat) (x : Nat → β) (k j : Nat) (a : Nat → β) : Prop :=
  ∀ i < n, a i = if i < j then x (k + n + i) else x (k + i)

variable {n m : Nat} {f : β → β → β → β} {x : Nat → β} {k j : Nat} {a : Nat → β}

theorem Window.renew (h : Lagged n m f x) (hw : Window n x k j a) (next mid : Nat → Nat)
    (hj : j < n) (hnext : a (next j) = x (k + j + 1)) (hmid : a (mid j) = x (k + j + m)) :
    Window n x k (j + 1) (Lagged.renew f next mid a j) := by
  intro i hi
  have hself : a j = x (k + j) := (hw j hj).trans (if_neg (Nat.lt_irrefl j))
  by_cases hij : i = j
  · rw [hij, if_pos (Nat.lt_succ_self j), Lagged.renew, update_self, hself, hnext, hmid, ← h]
    congr 1
    omega
  · rw [Lagged.renew, update_of_ne hij, hw i hi]
    by_cases hlt : i < j
    · rw [if_pos hlt, if_pos (Nat.lt_succ_of_lt hlt)]
    · rw [if_neg hlt, if_neg (by omega)]

private theorem Window.ahead (h : Lagged n m f x) (hm : 0 < m) (hw : Window n x k 0 a)
    (hj : j ≤ n - m) : Window n x k j ((List.range j).foldl (Lagged.renew f (· + 1) (· + m)) a) := by
  induction j with
  | zero => exact hw
  | succ j ih =>
    have hprev := ih (by omega)
    rw [List.range_succ, List.foldl_append, List.foldl_cons, List.foldl_nil]
    refine hprev.renew h _ _ (by omega) ?_ ?_
    · exact (hprev (j + 1) (by omega)).trans (if_neg (by omega))
    · rw [hprev (j + m) (by omega), if_neg (by omega), Nat.add_assoc]

private theorem Window.behind (h : Lagged n m f x) (hm : 0 < m) (hmn : m < n)
    (hw : Window n x k (n - m) a) {l : Nat} (hl : l ≤ m - 1) :
    Window n x k (n - m + l)
      ((List.range' (n - m) l).foldl (Lagged.renew f (· + 1) (· - (n - m))) a) := by
  induction l with
  | zero => exact hw
  | succ l ih =>
    have hprev := ih (by omega)
    rw [List.range'_concat, List.foldl_append, Nat.one_mul, List.foldl_cons, List.foldl_nil]
    refine hprev.renew h _ _ (by omega) ?_ ?_
    · exact (hprev (n - m + l + 1) (by omega)).trans (if_neg (by omega))
    · rw [hprev (n - m + l - (n - m)) (by omega), if_pos (by omega)]
      congr 1
      omega

/-- The array moves on by a window. -/
theorem regenerate_window (h : Lagged n m f x) (hm : 0 < m) (hmn : m < n)
    (ha : ∀ i < n, a i = x (k + i)) : ∀ i < n, regenerate n m f a i = x (k + n + i) := by
  have hstart : Window n x k 0 a := fun i hi => (ha i hi).trans (if_neg (Nat.not_lt_zero i)).symm
  have hahead := hstart.ahead h hm (le_refl (n - m))
  have hbehind := hahead.behind h hm hmn (le_refl (m - 1))
  have hlast : n - m + (m - 1) = n - 1 := by omega
  rw [hlast] at hbehind
  have hdone := hbehind.renew h (fun _ => 0) (fun _ => m - 1) (by omega) ?_ ?_
  · intro i hi
    exact (hdone i hi).trans (if_pos (by omega))
  · rw [hbehind 0 (by omega), if_pos (by omega)]
    congr 1
    omega
  · rw [hbehind (m - 1) (by omega), if_pos (by omega)]
    congr 1
    omega

end Lagged

end OsSessional
