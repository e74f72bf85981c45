import Mathlib.Order.CompletePartialOrder
import Mathlib.Order.Interval.Set.LinearOrder
import Mathlib.Data.Set.Lattice

/-!
# Spans of numbers

A sorted list of spans `(first, length)` with a gap between neighbours is the set of numbers it
covers: each stretch of covered numbers lies within one span.
-/

namespace OsSessional.Spans

/-- The numbers of a span. -/
abbrev span (a n : Nat) : Set Nat := Set.Ico a (a + n)

/-- The numbers that spans cover. -/
def covers (l : List (Nat × Nat)) : Set Nat := {u | ∃ s ∈ l, u ∈ span s.1 s.2}

/-- The spans are not empty, in order, and do not touch. -/
structure Apart (l : List (Nat × Nat)) : Prop where
  pos : ∀ s ∈ l, 0 < s.2
  gaps : l.Pairwise fun s t => s.1 + s.2 < t.1

variable {l pre post : List (Nat × Nat)} {a b k n u : Nat}

@[simp] theorem covers_nil : covers [] = ∅ := by
  ext u
  simp [covers]

@[simp] theorem covers_cons {s : Nat × Nat} : covers (s :: l) = span s.1 s.2 ∪ covers l := by
  ext u
  simp [covers]

@[simp] theorem covers_append : covers (pre ++ post) = covers pre ∪ covers post := by
  induction pre with
  | nil => simp
  | cons s pre ih => rw [List.cons_append, covers_cons, covers_cons, ih, Set.union_assoc]

theorem covers_middle {s : Nat × Nat} :
    covers (pre ++ s :: post) = span s.1 s.2 ∪ covers (pre ++ post) := by
  rw [covers_append, covers_append, covers_cons, Set.union_left_comm]

theorem mem_covers {s : Nat × Nat} (hs : s ∈ l) (hu : u ∈ span s.1 s.2) : u ∈ covers l := ⟨s, hs, hu⟩

/-- Two spans that touch are one. -/
theorem span_union : span a n ∪ span (a + n) k = span a (n + k) := by
  ext u
  simp only [span, Set.mem_union, Set.mem_Ico]
  omega

namespace Apart

theorem sublist {l' : List (Nat × Nat)} (h : Apart l) (hsub : l'.Sublist l) : Apart l' :=
  ⟨fun s hs => h.pos s (hsub.subset hs), h.gaps.sublist hsub⟩

theorem left (h : Apart (pre ++ post)) : Apart pre := h.sublist (List.sublist_append_left _ _)

theorem right (h : Apart (pre ++ post)) : Apart post := h.sublist (List.sublist_append_right _ _)

/-- A span put where it touches none. -/
theorem insert (h : Apart (pre ++ post)) (hn : 0 < n) (hpre : ∀ s ∈ pre, s.1 + s.2 < a)
    (hpost : ∀ t ∈ post, a + n < t.1) : Apart (pre ++ (a, n) :: post) where
  pos := by
    intro s hs
    rw [List.mem_append, List.mem_cons] at hs
    rcases hs with hs | rfl | hs
    · exact h.pos s (List.mem_append_left _ hs)
    · exact hn
    · exact h.pos s (List.mem_append_right _ hs)
  gaps := by
    rcases List.pairwise_append.mp h.gaps with ⟨hl, hr, hlr⟩
    rw [List.pairwise_append, List.pairwise_cons]
    refine ⟨hl, ⟨hpost, hr⟩, fun s hs t ht => ?_⟩
    rcases List.mem_cons.mp ht with rfl | ht
    · exact hpre s hs
    · exact hlr s hs t ht

/-- A span shares nothing with the others. -/
theorem disjoint {s : Nat × Nat} (h : Apart (pre ++ s :: post)) :
    Disjoint (span s.1 s.2) (covers (pre ++ post)) := by
  rw [Set.disjoint_left]
  rintro u hu ⟨t, ht, hut⟩
  have hparts := List.pairwise_append.mp h.gaps
  rcases List.mem_append.mp ht with ht | ht
  · have hgap := hparts.2.2 t ht s List.mem_cons_self
    exact absurd hu.1 (Nat.not_le.mpr (Nat.lt_trans hut.2 hgap))
  · have hgap := (List.pairwise_cons.mp hparts.2.1).1 t ht
    exact absurd hut.1 (Nat.not_le.mpr (Nat.lt_trans hu.2 hgap))

/-- A stretch of covered numbers lies within one span. -/
theorem within (h : Apart l) (hk : 0 < k) (hcover : span a k ⊆ covers l) :
    ∃ s ∈ l, s.1 ≤ a ∧ a + k ≤ s.1 + s.2 := by
  have ha : a ∈ span a k := ⟨Nat.le_refl a, by omega⟩
  rcases hcover ha with ⟨s, hs, hsa, has⟩
  refine ⟨s, hs, hsa, ?_⟩
  by_contra hover
  -- the number behind `s` is in a span of its own, which would touch `s`
  have hend : s.1 + s.2 ∈ span a k := ⟨Nat.le_of_lt has, by omega⟩
  rcases hcover hend with ⟨t, ht, hts, hst⟩
  have hne : s ≠ t := by
    rintro rfl
    omega
  rcases List.mem_iff_getElem.mp hs with ⟨i, hi, rfl⟩
  rcases List.mem_iff_getElem.mp ht with ⟨j, hj, rfl⟩
  have hgaps := List.pairwise_iff_getElem.mp h.gaps
  rcases Nat.lt_trichotomy i j with hij | rfl | hij
  · have hgap := hgaps i j hi hj hij
    omega
  · exact hne rfl
  · have hgap := hgaps j i hj hi hij
    omega

end Apart

end OsSessional.Spans
