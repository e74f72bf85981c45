import OsSessional.Lib.Scan
import Mathlib.Data.List.Pairwise
import Mathlib.Data.List.Nodup

/-!
# Order of arrival by stamps

A table whose occupied slots were stamped from a counter as they were filled. The slots in order of
arrival form a queue; as long as the counter only grew, the stamps increase along it, and a scan for
the smallest or the largest stamp finds its first or its last slot.
-/

namespace OsSessional

open Function (update update_self update_of_ne)

namespace Scan

variable {n : Nat} {κ : Type*} {ok : Fin n → Bool} {key : Fin n → κ} {lt : κ → κ → Bool} {bound : κ}

private theorem foldl_better_least {i : Fin n} (hok : ok i = true)
    (hleast : ∀ j, ok j = true → j ≠ i → lt (key i) (key j) = true ∧ lt (key j) (key i) = false)
    (hirrefl : lt (key i) (key i) = false) :
    ∀ (l : List (Fin n)) (b : Option (Fin n) × κ),
      b = (some i, key i) ∨ (lt (key i) b.2 = true ∧ i ∈ l) →
      l.foldl (better ok key lt) b = (some i, key i) := by
  intro l
  induction l with
  | nil =>
    intro b hb
    rcases hb with hb | ⟨-, hmem⟩
    · exact hb
    · simp at hmem
  | cons a l ih =>
    intro b hb
    rw [List.foldl_cons]
    apply ih
    unfold better
    by_cases hai : a = i
    · -- the slot itself: taken, or already the best
      subst hai
      left
      rcases hb with rfl | ⟨hlt, -⟩
      · simp [hirrefl]
      · simp [hok, hlt]
    · have hmem : i ∈ a :: l → i ∈ l := fun h => (List.mem_cons.mp h).resolve_left (Ne.symm hai)
      by_cases ha : ok a = true
      · obtain ⟨hia, hai'⟩ := hleast a ha hai
        rcases hb with rfl | ⟨hlt, hin⟩
        · left
          simp [ha, hai']
        · right
          split
          · exact ⟨hia, hmem hin⟩
          · exact ⟨hlt, hmem hin⟩
      · rcases hb with rfl | ⟨hlt, hin⟩
        · left
          simp [ha]
        · right
          simp only [ha, Bool.false_and, Bool.false_eq_true, if_false]
          exact ⟨hlt, hmem hin⟩

theorem best_eq_some {i : Fin n} (hok : ok i = true) (hbound : lt (key i) bound = true)
    (hleast : ∀ j, ok j = true → j ≠ i → lt (key i) (key j) = true ∧ lt (key j) (key i) = false)
    (hirrefl : lt (key i) (key i) = false) : best ok key lt bound = some i := by
  have hfold := foldl_better_least hok hleast hirrefl (List.finRange n) (none, bound)
    (.inr ⟨hbound, List.mem_finRange i⟩)
  rw [best, hfold]

end Scan

variable {ι : Type*}

/-- The occupied slots in order of arrival, with increasing stamps, all below the counter. -/
structure Arrivals (used : ι → Bool) (stamp : ι → Int) (counter : Int) (q : List ι) : Prop where
  mem : ∀ i, i ∈ q ↔ used i = true
  sorted : q.Pairwise fun i j => stamp i < stamp j
  range : ∀ i ∈ q, 0 ≤ stamp i ∧ stamp i < counter
  counter : 0 ≤ counter

namespace Arrivals

variable {used used' : ι → Bool} {stamp stamp' : ι → Int} {counter counter' : Int} {q : List ι} {i : ι}

theorem nodup (h : Arrivals used stamp counter q) : q.Nodup := by
  rw [List.nodup_iff_pairwise_ne]
  exact h.sorted.imp fun hlt heq => absurd hlt (by rw [heq]; exact lt_irrefl _)

theorem empty (hfree : ∀ i, used i = false) (hcounter : 0 ≤ counter) :
    Arrivals used stamp counter [] :=
  ⟨by simp [hfree], List.Pairwise.nil, by simp, hcounter⟩

/-- The counter may move on; what is in use stays as it is. -/
theorem congr (h : Arrivals used stamp counter q) (hused : ∀ i, used' i = used i)
    (hstamp : ∀ i, used i = true → stamp' i = stamp i) (hle : counter ≤ counter') :
    Arrivals used' stamp' counter' q where
  mem i := by rw [hused, h.mem]
  sorted := by
    refine h.sorted.imp_of_mem ?_
    intro a b ha hb hlt
    rw [hstamp a ((h.mem a).mp ha), hstamp b ((h.mem b).mp hb)]
    exact hlt
  range i hi := by
    obtain ⟨hlo, hhi⟩ := h.range i hi
    rw [hstamp i ((h.mem i).mp hi)]
    exact ⟨hlo, lt_of_lt_of_le hhi hle⟩
  counter := le_trans h.counter hle

/-- A free slot is filled and stamped. -/
theorem arrive (h : Arrivals used stamp counter q) (hfree : used i = false) (hused : used' i = true)
    (hstamp : stamp' i = counter)
    (hother : ∀ j, j ≠ i → used' j = used j ∧ stamp' j = stamp j) :
    Arrivals used' stamp' (counter + 1) (q ++ [i]) := by
  have hne : ∀ j ∈ q, j ≠ i := by
    rintro j hj rfl
    rw [h.mem, hfree] at hj
    simp at hj
  refine ⟨?_, ?_, ?_, ?_⟩
  · intro j
    by_cases hj : j = i
    · subst hj
      simp [hused]
    · simp [hj, h.mem, (hother j hj).1]
  · rw [List.pairwise_append]
    refine ⟨?_, by simp, ?_⟩
    · refine h.sorted.imp_of_mem ?_
      intro a b ha hb hlt
      rw [(hother a (hne a ha)).2, (hother b (hne b hb)).2]
      exact hlt
    · intro a ha b hb
      obtain rfl : b = i := by simpa using hb
      rw [hstamp, (hother a (hne a ha)).2]
      exact (h.range a ha).2
  · intro j hj
    have hcounter := h.counter
    rcases List.mem_append.mp hj with hj | hj
    · rw [(hother j (hne j hj)).2]
      have hrange := h.range j hj
      omega
    · obtain rfl : j = i := by simpa using hj
      rw [hstamp]
      omega
  · have hcounter := h.counter
    omega

/-- A slot is vacated. -/
theorem leave [DecidableEq ι] (h : Arrivals used stamp counter q) (hfree : used' i = false)
    (hother : ∀ j, j ≠ i → used' j = used j ∧ stamp' j = stamp j) :
    Arrivals used' stamp' counter (q.erase i) := by
  have hmem : ∀ j, j ∈ q.erase i ↔ j ≠ i ∧ j ∈ q := fun j => h.nodup.mem_erase_iff
  refine ⟨?_, ?_, ?_, h.counter⟩
  · intro j
    rw [hmem]
    by_cases hj : j = i
    · subst hj
      simp [hfree]
    · simp [hj, h.mem, (hother j hj).1]
  · refine (h.sorted.sublist List.erase_sublist).imp_of_mem ?_
    intro a b ha hb hlt
    rw [(hother a ((hmem a).mp ha).1).2, (hother b ((hmem b).mp hb).1).2]
    exact hlt
  · intro j hj
    obtain ⟨hne, hin⟩ := (hmem j).mp hj
    rw [(hother j hne).2]
    exact h.range j hin

section Selection

variable {n : Nat} {used : Fin n → Bool} {stamp : Fin n → Int} {q : List (Fin n)}

/-- A scan for the smallest stamp finds the first arrival that passes the test. -/
theorem best_first (h : Arrivals used stamp counter q) (ok : Fin n → Bool) {bound : Int}
    (hbound : counter ≤ bound) :
    Scan.best (fun i => ok i && used i) stamp (fun a b => a < b) bound = q.find? ok := by
  cases hfind : q.find? ok with
  | none =>
    rw [Scan.best_eq_none]
    intro i hi
    simp only [Bool.and_eq_true] at hi
    have hnone := List.find?_eq_none.mp hfind i ((h.mem i).mpr hi.2)
    exact absurd hi.1 hnone
  | some i =>
    obtain ⟨hok, pre, post, rfl, hpre⟩ := List.find?_eq_some_iff_append.mp hfind
    have hin : i ∈ pre ++ i :: post := by simp
    refine Scan.best_eq_some ?_ ?_ ?_ (by simp)
    · simp [hok, (h.mem i).mp hin]
    · have hlt := (h.range i hin).2
      exact decide_eq_true (by omega)
    · intro j hj hne
      simp only [Bool.and_eq_true] at hj
      -- what passes the test and is not the first to do so arrived later
      have hlt : stamp i < stamp j := by
        rcases List.mem_append.mp ((h.mem j).mpr hj.2) with hin | hin
        · have hskip := hpre j hin
          simp [hj.1] at hskip
        · have hafter := (List.pairwise_cons.mp (List.pairwise_append.mp h.sorted).2.1).1
          exact hafter j ((List.mem_cons.mp hin).resolve_left hne)
      simp only [decide_eq_true_eq, decide_eq_false_iff_not]
      exact ⟨hlt, by omega⟩

/-- A scan for the largest stamp finds the last arrival, once two slots are occupied. -/
theorem best_last (h : Arrivals used stamp counter q) (hmany : 1 < q.length) :
    Scan.best used stamp (fun a b => a > b) 0 = q.getLast? := by
  cases hlast : q.getLast? with
  | none =>
    rw [List.getLast?_eq_none_iff] at hlast
    simp [hlast] at hmany
  | some i =>
    obtain ⟨pre, rfl⟩ := List.getLast?_eq_some_iff.mp hlast
    have hin : i ∈ pre ++ [i] := by simp
    have hbefore : ∀ j ∈ pre, stamp j < stamp i := fun j hj =>
      (List.pairwise_append.mp h.sorted).2.2 j hj i (by simp)
    refine Scan.best_eq_some ((h.mem i).mp hin) ?_ ?_ (by simp)
    · obtain ⟨j, hj⟩ : ∃ j, j ∈ pre := List.exists_mem_of_length_pos (by
        simp only [List.length_append, List.length_singleton] at hmany
        omega)
      have hlo := (h.range j (by simp [hj])).1
      have hlt := hbefore j hj
      exact decide_eq_true (by omega)
    · intro j hj hne
      have hmem := (h.mem j).mpr hj
      simp only [List.mem_append, List.mem_singleton] at hmem
      have hlt := hbefore j (hmem.resolve_right hne)
      simp only [gt_iff_lt, decide_eq_true_eq, decide_eq_false_iff_not]
      exact ⟨hlt, by omega⟩

end Selection

end Arrivals

end OsSessional
