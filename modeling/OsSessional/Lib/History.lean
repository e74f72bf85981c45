import Mathlib.Data.BitVec
import Mathlib.Data.List.Count

/-!
# Bit histories

A list of bits, the latest first, and a register that takes bits in at the top. A register that only
moves when a bit is set counts the set bits; over a window of the history it is the history itself
exactly when no unset bit of the window came after a set one.
-/

namespace OsSessional.History

/-- Behind an unset bit among the last `w` there are only unset bits. -/
def Settled (w : Nat) (bs : List Bool) : Prop :=
  ∀ k < w, bs.getD k false = false → ∀ j > k, bs.getD j false = false

/-- The last `w` bits are as many set bits as there are in all, then unset ones. -/
def Counted (w : Nat) (bs : List Bool) : Prop :=
  ∀ k < w, bs.getD k false = decide (k < bs.count true)

section Window

variable {w : Nat} {b : Bool} {bs : List Bool}

theorem count_eq_zero_iff : bs.count true = 0 ↔ ∀ k, bs.getD k false = false := by
  induction bs with
  | nil => simp
  | cons b bs ih =>
    cases b with
    | false =>
      rw [List.count_cons_of_ne (by decide), ih]
      constructor
      · intro h k
        cases k with
        | zero => rfl
        | succ k => exact h k
      · exact fun h k => h (k + 1)
    | true =>
      rw [List.count_cons_self]
      constructor
      · intro h
        omega
      · intro h
        have hhead := h 0
        simp at hhead

theorem settled_true : Settled (w + 1) (true :: bs) ↔ Settled w bs := by
  constructor
  · intro h k hk hunset j hj
    exact h (k + 1) (by omega) hunset (j + 1) (by omega)
  · intro h k hk hunset j hj
    cases k with
    | zero => simp at hunset
    | succ k =>
      obtain ⟨j, rfl⟩ : ∃ i, j = i + 1 := ⟨j - 1, by omega⟩
      exact h k (by omega) hunset j (by omega)

theorem settled_false : Settled (w + 1) (false :: bs) ↔ bs.count true = 0 := by
  rw [count_eq_zero_iff]
  constructor
  · intro h k
    exact h 0 (by omega) rfl (k + 1) (by omega)
  · intro h k hk hunset j hj
    obtain ⟨j, rfl⟩ : ∃ i, j = i + 1 := ⟨j - 1, by omega⟩
    exact h j

theorem counted_true : Counted (w + 1) (true :: bs) ↔ Counted w bs := by
  have hshift : ∀ k, decide (k + 1 < (true :: bs).count true) = decide (k < bs.count true) := by
    intro k
    rw [List.count_cons_self, decide_eq_decide]
    omega
  constructor
  · intro h k hk
    have hnext := h (k + 1) (by omega)
    rw [hshift] at hnext
    exact hnext
  · intro h k hk
    cases k with
    | zero => simp
    | succ k =>
      rw [hshift]
      exact h k (by omega)

theorem counted_false : Counted (w + 1) (false :: bs) ↔ bs.count true = 0 := by
  unfold Counted
  rw [List.count_cons_of_ne (by decide)]
  constructor
  · intro h
    have hhead := h 0 (by omega)
    simpa [List.count_eq_zero] using hhead
  · intro h k hk
    have hnone := count_eq_zero_iff.mp h
    rw [h]
    cases k with
    | zero => rfl
    | succ k => simpa using hnone k

theorem counted_iff_settled : Counted w bs ↔ Settled w bs := by
  induction bs generalizing w with
  | nil => simp [Counted, Settled]
  | cons b bs ih =>
    cases w with
    | zero => simp [Counted, Settled]
    | succ w =>
      cases b with
      | true => rw [counted_true, settled_true, ih]
      | false => rw [counted_false, settled_false]

/-- Behind a window of unset bits of a settled history nothing was ever set. -/
theorem Settled.count_eq_zero (h : Settled w bs) (hw : 0 < w) (hunset : bs.getD 0 false = false) :
    bs.count true = 0 := by
  rw [count_eq_zero_iff]
  intro k
  cases k with
  | zero => exact hunset
  | succ k => exact h 0 hw hunset (k + 1) (by omega)

end Window

section Register

variable {w : Nat}

/-- A register of `w` bits after a set bit came in at the top. -/
def push (a : BitVec w) : BitVec w := (a >>> 1) ||| BitVec.twoPow w (w - 1)

/-- The bit `k` places below the top. -/
def fromTop (a : BitVec w) (k : Nat) : Bool := a.getLsbD (w - 1 - k)

theorem fromTop_push_zero (a : BitVec w) (hw : 0 < w) : fromTop (push a) 0 = true := by
  have hlt : w - 1 < w := by omega
  simp [fromTop, push, hlt]

theorem fromTop_push_succ (a : BitVec w) {k : Nat} (hk : k + 1 < w) :
    fromTop (push a) (k + 1) = fromTop a k := by
  have hne : w - 1 ≠ w - 1 - (k + 1) := by omega
  have hplace : 1 + (w - 1 - (k + 1)) = w - 1 - k := by omega
  simp [fromTop, push, hne, hplace]

/-- `m` set bits and nothing else came in. -/
theorem fromTop_push_iterate (m : Nat) : ∀ k < w, fromTop (push^[m] (0 : BitVec w)) k = decide (k < m) := by
  induction m with
  | zero =>
    intro k _
    simp [fromTop]
  | succ m ih =>
    intro k hk
    rw [Function.iterate_succ_apply']
    cases k with
    | zero =>
      rw [fromTop_push_zero _ hk]
      simp
    | succ k =>
      rw [fromTop_push_succ _ hk, ih k (by omega), decide_eq_decide]
      omega

end Register

end OsSessional.History
