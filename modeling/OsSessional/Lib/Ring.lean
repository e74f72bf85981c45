import Mathlib.Algebra.Group.Nat.Defs
import Mathlib.Data.List.Basic
import Mathlib.Logic.Function.Basic

/-!
# Rings with running counters

A ring of `n` places with two counters of the machine's word that are never reduced: one for what was
put, one for what was taken. While `n` divides the word the counters may wrap around, and the ring is
a queue of at most `n` values.
-/

namespace OsSessional

open Function (update update_self update_of_ne)

variable {β : Type*}

structure Ring (β : Type*) where
  data : Nat → β
  taken : UInt32
  filled : UInt32

namespace Ring

/-- The next value goes to the place the counter names. -/
def put (n : Nat) (r : Ring β) (x : β) : Ring β :=
  { r with data := update r.data (r.filled.toNat % n) x, filled := r.filled + 1 }

/-- The value that is taken next. -/
def front (n : Nat) (r : Ring β) : β := r.data (r.taken.toNat % n)

def take (r : Ring β) : Ring β := { r with taken := r.taken + 1 }

/-- The value that was put last is taken back. -/
def unput (r : Ring β) : Ring β := { r with filled := r.filled - 1 }

/-- The ring is the queue `q`. -/
structure Holds (n : Nat) (r : Ring β) (q : List β) : Prop where
  size : q.length ≤ n
  count : r.filled = r.taken + UInt32.ofNat q.length
  data : ∀ k < q.length, q[k]? = some (r.data ((r.taken.toNat + k) % n))

variable {n : Nat} {r : Ring β} {q : List β} {x : β}

theorem place_add (hdvd : n ∣ 2 ^ 32) (c : UInt32) (k : Nat) :
    (c + UInt32.ofNat k).toNat % n = (c.toNat + k) % n := by
  rw [UInt32.toNat_add, UInt32.toNat_ofNat', Nat.mod_mod_of_dvd _ hdvd, Nat.add_mod,
    Nat.mod_mod_of_dvd _ hdvd, ← Nat.add_mod]

theorem ofNat_inj {a b : Nat} (ha : a < 2 ^ 32) (hb : b < 2 ^ 32) :
    UInt32.ofNat a = UInt32.ofNat b ↔ a = b := by
  rw [← UInt32.toNat_inj, UInt32.toNat_ofNat', UInt32.toNat_ofNat', Nat.mod_eq_of_lt ha,
    Nat.mod_eq_of_lt hb]

namespace Holds

/-- The test for a full ring. -/
theorem full_iff (h : r.Holds n q) (hn : n < 2 ^ 32) :
    r.filled = r.taken + UInt32.ofNat n ↔ q.length = n := by
  rw [h.count, UInt32.add_right_inj, ofNat_inj (Nat.lt_of_le_of_lt h.size hn) hn]

/-- The test for an empty one. -/
theorem empty_iff (h : r.Holds n q) (hn : n < 2 ^ 32) : r.taken = r.filled ↔ q = [] := by
  rw [h.count, eq_comm, ← List.length_eq_zero_iff,
    ← ofNat_inj (Nat.lt_of_le_of_lt h.size hn) (Nat.two_pow_pos 32)]
  exact UInt32.add_eq_left

theorem put (h : r.Holds n q) (hroom : q.length < n) (hdvd : n ∣ 2 ^ 32) (x : β) :
    (r.put n x).Holds n (q ++ [x]) where
  size := by
    rw [List.length_append, List.length_singleton]
    exact hroom
  count := by
    rw [List.length_append, List.length_singleton, UInt32.ofNat_add, ← UInt32.add_assoc]
    exact congrArg (· + 1) h.count
  data := by
    intro k hk
    rw [List.length_append, List.length_singleton] at hk
    have hplace : r.filled.toNat % n = (r.taken.toNat + q.length) % n := by
      rw [h.count]
      exact place_add hdvd _ _
    show (q ++ [x])[k]? = some (update r.data (r.filled.toNat % n) x ((r.taken.toNat + k) % n))
    rcases Nat.lt_succ_iff_lt_or_eq.mp hk with hlt | rfl
    · have hne : (r.taken.toNat + k) % n ≠ r.filled.toNat % n := by
        rw [hplace]
        intro heq
        have hdist := Nat.sub_mod_eq_zero_of_mod_eq heq.symm
        rw [Nat.add_sub_add_left, Nat.mod_eq_of_lt (by omega)] at hdist
        omega
      rw [update_of_ne hne, List.getElem?_append_left hlt]
      exact h.data k hlt
    · rw [hplace, update_self, List.getElem?_append_right (Nat.le_refl _), Nat.sub_self]
      rfl

theorem front (h : r.Holds n (x :: q)) : r.front n = x := by
  have hdata := h.data 0 (Nat.succ_pos _)
  exact (Option.some.inj hdata).symm

theorem take (h : r.Holds n (x :: q)) (hdvd : n ∣ 2 ^ 32) : r.take.Holds n q where
  size := Nat.le_of_succ_le h.size
  count := by
    show r.filled = r.taken + 1 + UInt32.ofNat q.length
    rw [h.count, List.length_cons, Nat.add_comm, UInt32.ofNat_add, UInt32.add_assoc]
    rfl
  data := by
    intro k hk
    have hdata := h.data (k + 1) (Nat.succ_lt_succ hk)
    have hplace := place_add hdvd r.taken 1
    show q[k]? = some (r.data (((r.taken + 1).toNat + k) % n))
    have hsame : ((r.taken + 1).toNat + k) % n = (r.taken.toNat + (k + 1)) % n := by
      rw [Nat.add_mod, show (r.taken + 1).toNat % n = (r.taken.toNat + 1) % n from hplace, ← Nat.add_mod,
        Nat.add_assoc, Nat.add_comm 1 k]
    rw [hsame, ← hdata, List.getElem?_cons_succ]

private theorem filled_pred (h : r.Holds n (q ++ [x])) :
    r.filled - 1 = r.taken + UInt32.ofNat q.length := by
  have hcount := h.count
  rw [List.length_append, List.length_singleton, UInt32.ofNat_add, ← UInt32.add_assoc] at hcount
  rw [hcount]
  exact UInt32.add_sub_cancel _ _

theorem last (h : r.Holds n (q ++ [x])) (hdvd : n ∣ 2 ^ 32) :
    r.data ((r.filled - 1).toNat % n) = x := by
  have hdata := h.data q.length (by rw [List.length_append, List.length_singleton]; omega)
  rw [List.getElem?_append_right (Nat.le_refl _), Nat.sub_self] at hdata
  rw [h.filled_pred, place_add hdvd]
  exact (Option.some.inj hdata).symm

theorem unput (h : r.Holds n (q ++ [x])) : r.unput.Holds n q where
  size := by
    have hsize := h.size
    rw [List.length_append, List.length_singleton] at hsize
    omega
  count := h.filled_pred
  data := by
    intro k hk
    have hdata := h.data k (by rw [List.length_append]; omega)
    rw [List.getElem?_append_left hk] at hdata
    exact hdata

theorem nil (hzero : r.taken = r.filled) : r.Holds n [] where
  size := Nat.zero_le _
  count := by
    rw [hzero]
    exact (UInt32.add_zero _).symm
  data k hk := absurd hk (Nat.not_lt_zero k)

end Holds

end Ring

end OsSessional
