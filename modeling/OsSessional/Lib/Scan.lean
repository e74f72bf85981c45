import Mathlib.Data.List.FinRange
import Mathlib.Order.Lattice

/-!
# Scans over a fixed array

The two loops C code runs over an array of `n` slots: return the first slot that satisfies a
test, and keep the slot with the best key seen so far, starting from a bound that no slot need
beat.
-/

namespace OsSessional.Scan

variable {n : Nat} {κ : Type*}

/-- The first index that satisfies `p`. -/
def first (p : Fin n → Bool) : Option (Fin n) := (List.finRange n).find? p

/-- One round of a best-so-far loop. -/
def better (ok : Fin n → Bool) (key : Fin n → κ) (lt : κ → κ → Bool)
    (best : Option (Fin n) × κ) (i : Fin n) : Option (Fin n) × κ :=
  if ok i && lt (key i) best.2 then (some i, key i) else best

/-- The index a best-so-far loop returns: among those with `ok`, each `lt` the ones before it. -/
def best (ok : Fin n → Bool) (key : Fin n → κ) (lt : κ → κ → Bool) (bound : κ) :
    Option (Fin n) :=
  ((List.finRange n).foldl (better ok key lt) (none, bound)).1

theorem first_eq_none {p : Fin n → Bool} : first p = none ↔ ∀ i, p i = false := by
  simp [first]

theorem first_spec {p : Fin n → Bool} {i : Fin n} (h : first p = some i) : p i = true :=
  List.find?_some h

theorem first_least {p : Fin n → Bool} {i j : Fin n} (h : first p = some i) (hj : j < i) :
    p j = false := by
  obtain ⟨_, pre, post, hl, hpre⟩ := List.find?_eq_some_iff_append.mp h
  have hmem : j ∈ pre ++ i :: post := hl ▸ List.mem_finRange j
  have hsorted : (pre ++ i :: post).Pairwise (· < ·) := hl ▸ List.pairwise_lt_finRange n
  rcases List.mem_append.mp hmem with hin | hin
  · simpa using hpre j hin
  · have hge : i ≤ j := by
      rcases List.mem_cons.mp hin with rfl | hin
      · exact le_refl _
      · exact le_of_lt ((List.pairwise_cons.mp (List.pairwise_append.mp hsorted).2.1).1 j hin)
    exact absurd hj (not_lt.mpr hge)

theorem first_eq_some {p : Fin n → Bool} {i : Fin n} :
    first p = some i ↔ p i = true ∧ ∀ j < i, p j = false := by
  constructor
  · exact fun h => ⟨first_spec h, fun j hj => first_least h hj⟩
  · rintro ⟨hi, hlt⟩
    cases h : first p with
    | none => simp [first_eq_none.mp h i] at hi
    | some j =>
      rcases lt_trichotomy i j with hij | rfl | hji
      · simp [first_least h hij] at hi
      · rfl
      · have hj := first_spec h
        simp [hlt j hji] at hj

theorem first_isSome {p : Fin n → Bool} {i : Fin n} (h : p i = true) : (first p).isSome := by
  cases hf : first p with
  | none => simp [first_eq_none.mp hf i] at h
  | some j => rfl

section Keys

variable {key : Fin n → κ} {i j : Fin n} {v : κ}

/-- No earlier slot carries the key of slot `i`, so a search by key alone stops at `i`. -/
def Unshadowed (key : Fin n → κ) (i : Fin n) : Prop := ∀ j < i, key j ≠ key i

theorem first_key [DecidableEq κ] (h : Unshadowed key i) :
    first (fun j => key j == key i) = some i := by
  rw [first_eq_some]
  exact ⟨by simp, fun j hj => by simpa using h j hj⟩

/-- Overwriting another slot with a different key casts no shadow. -/
theorem Unshadowed.update (h : Unshadowed key i) (hij : i ≠ j) (hv : v ≠ key i) :
    Unshadowed (Function.update key j v) i := by
  intro a ha
  rw [Function.update_of_ne hij]
  by_cases haj : a = j
  · subst haj
    simpa using hv
  · rw [Function.update_of_ne haj]
    exact h a ha

/-- A key put into slot `j` is unshadowed when the slots below `j` all carry other keys, as they
do when `j` was the lowest free slot and no slot in use had the key. -/
theorem unshadowed_put (h : ∀ a < j, key a ≠ v) : Unshadowed (Function.update key j v) j := by
  intro a ha
  rw [Function.update_of_ne (ne_of_lt ha), Function.update_self]
  exact h a ha

end Keys

section Best

variable {ok : Fin n → Bool} {key : Fin n → κ} {lt : κ → κ → Bool} {bound : κ}

private theorem foldl_better_ok (l : List (Fin n)) (b : Option (Fin n) × κ)
    (hb : ∀ i, b.1 = some i → ok i = true) :
    ∀ i, (l.foldl (better ok key lt) b).1 = some i → ok i = true := by
  induction l generalizing b with
  | nil => exact hb
  | cons a l ih =>
    apply ih
    intro i hi
    unfold better at hi
    split at hi
    · next h =>
      obtain rfl : a = i := by simpa using hi
      simp_all
    · exact hb i hi

/-- A best-so-far loop only returns an index that passed its test. -/
theorem best_ok {i : Fin n} (h : best ok key lt bound = some i) : ok i = true :=
  foldl_better_ok _ _ (by simp) i h

private theorem foldl_better_none (l : List (Fin n)) (b : Option (Fin n) × κ)
    (h : (l.foldl (better ok key lt) b).1 = none) :
    b.1 = none ∧ ∀ i ∈ l, ok i = true → lt (key i) b.2 = false := by
  induction l generalizing b with
  | nil => exact ⟨h, by simp⟩
  | cons a l ih =>
    obtain ⟨hnone, hrest⟩ := ih _ h
    by_cases ha : (ok a && lt (key a) b.2) = true
    · simp [better, ha] at hnone
    · simp only [better, ha, if_false, Bool.false_eq_true] at hnone hrest
      refine ⟨hnone, ?_⟩
      intro i hi hok
      rcases List.mem_cons.mp hi with rfl | hi
      · simpa [hok] using ha
      · exact hrest i hi hok

/-- A best-so-far loop returns nothing exactly when no index beats the starting bound. -/
theorem best_eq_none :
    best ok key lt bound = none ↔ ∀ i, ok i = true → lt (key i) bound = false := by
  constructor
  · intro h i hi
    exact (foldl_better_none _ _ h).2 i (List.mem_finRange i) hi
  · intro h
    have key_unchanged : ∀ l : List (Fin n),
        l.foldl (better ok key lt) (none, bound) = (none, bound) := by
      intro l
      induction l with
      | nil => rfl
      | cons a l ih =>
        have hstep : better ok key lt (none, bound) a = (none, bound) := by
          unfold better
          cases ha : ok a <;> simp [h a, ha]
        rw [List.foldl_cons, hstep, ih]
    rw [best, key_unchanged]

private theorem foldl_better_least_key (hirrefl : ∀ a, lt a a = false)
    (htrans : ∀ a b c, lt a b = true → lt b c = true → lt a c = true) :
    ∀ (l seen : List (Fin n)) (b : Option (Fin n) × κ),
      (∀ i, b.1 = some i → b.2 = key i) → (∀ j ∈ seen, ok j = true → lt (key j) b.2 = false) →
      ∀ i, (l.foldl (better ok key lt) b).1 = some i →
        ∀ j ∈ seen ++ l, ok j = true → lt (key j) (key i) = false := by
  intro l
  induction l with
  | nil =>
    intro seen b hkey hseen i hi j hj hok
    rw [List.append_nil] at hj
    rw [← hkey i hi]
    exact hseen j hj hok
  | cons a l ih =>
    intro seen b hkey hseen i hi j hj hok
    rw [List.foldl_cons] at hi
    apply ih (seen ++ [a]) (better ok key lt b a) ?_ ?_ i hi j (by simpa using hj) hok
    · intro i' hi'
      unfold better at hi' ⊢
      split at hi'
      · next hbetter =>
        obtain rfl : a = i' := by simpa using hi'
        rw [if_pos hbetter]
      · next hworse =>
        rw [if_neg hworse]
        exact hkey i' hi'
    · intro j' hj' hok'
      unfold better
      split
      · next hbetter =>
        -- the bound fell to the key of `a`
        rw [Bool.and_eq_true] at hbetter
        rcases List.mem_append.mp hj' with hj' | hj'
        · by_contra hlt
          rw [Bool.not_eq_false] at hlt
          have hold := htrans _ _ _ hlt hbetter.2
          rw [hseen j' hj' hok'] at hold
          simp at hold
        · rw [List.mem_singleton.mp hj']
          exact hirrefl _
      · next hworse =>
        rcases List.mem_append.mp hj' with hj' | hj'
        · exact hseen j' hj' hok'
        · obtain rfl := List.mem_singleton.mp hj'
          simpa [hok'] using hworse

/-- No index that passes the test beats the one a best-so-far loop returns. -/
theorem best_least (hirrefl : ∀ a, lt a a = false)
    (htrans : ∀ a b c, lt a b = true → lt b c = true → lt a c = true) {i j : Fin n}
    (h : best ok key lt bound = some i) (hj : ok j = true) : lt (key j) (key i) = false := by
  have hleast := foldl_better_least_key hirrefl htrans (List.finRange n) [] (none, bound) (by simp)
    (by simp) i h j
  exact hleast (by simp) hj

end Best

end OsSessional.Scan
