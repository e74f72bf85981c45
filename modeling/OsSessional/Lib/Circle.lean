import Mathlib.Data.List.Nodup
import Mathlib.Logic.Function.Basic
import Mathlib.Logic.Function.Iterate

/-!
# Circular lists with one link

Nodes with a link to the next one, the last node linked to the first. `Path next a l b` says that the
links lead from `a` through `l` to `b`; a circle is a path back to where it began, and following the
links from any of its nodes passes every other one.
-/

namespace OsSessional

variable {α : Type*} {next next' : α → α} {a b x y : α} {l m : List α}

/-- From `a` the links lead through `l` to `b`. -/
def Path (next : α → α) (a : α) : List α → α → Prop
  | [], b => next a = b
  | x :: l, b => next a = x ∧ Path next x l b

namespace Path

/-- The last node of `l`, or `a` before it. -/
def final (a : α) : List α → α
  | [] => a
  | x :: l => final x l

/-- The first node of `l`, or `b` behind it. -/
def first (b : α) : List α → α
  | [] => b
  | x :: _ => x

theorem final_mem : final a l ∈ a :: l := by
  induction l generalizing a with
  | nil => exact List.mem_cons_self
  | cons x l ih => exact List.mem_cons_of_mem a ih

theorem final_append : final a (l ++ [x]) = x := by
  induction l generalizing a with
  | nil => rfl
  | cons y l ih => exact ih

theorem append : Path next a (l ++ x :: m) b ↔ Path next a l x ∧ Path next x m b := by
  induction l generalizing a with
  | nil => rfl
  | cons y l ih =>
    rw [List.cons_append, Path, Path, ih, and_assoc]

/-- Only the links along the way matter, and another node may take the place of the first. -/
theorem move (h : Path next a l b) (hfirst : next' x = next a) (hnext : ∀ y ∈ l, next' y = next y) :
    Path next' x l b := by
  induction l generalizing a x with
  | nil => exact hfirst.trans h
  | cons y l ih =>
    have hy : next' y = next y := hnext y List.mem_cons_self
    exact ⟨hfirst.trans h.1, ih h.2 hy fun z hz => hnext z (List.mem_cons_of_mem y hz)⟩

theorem congr (h : Path next a l b) (hnext : ∀ y ∈ a :: l, next' y = next y) : Path next' a l b :=
  h.move (hnext a List.mem_cons_self) fun y hy => hnext y (List.mem_cons_of_mem a hy)

/-- Two parts of a way that share the link between them. -/
theorem parts : Path next a (l ++ m) b ↔ Path next a l (first b m) ∧ Path next (final a l) m b := by
  induction l generalizing a with
  | nil =>
    constructor
    · intro h
      refine ⟨?_, h⟩
      cases m with
      | nil => exact h
      | cons x m => exact h.1
    · exact fun h => h.2
  | cons y l ih =>
    rw [List.cons_append, Path, Path, ih, and_assoc]
    rfl

theorem next_first (h : Path next a l b) : next a = first b l := by
  cases l with
  | nil => exact h
  | cons x l => exact h.1

theorem next_final (h : Path next a l b) : next (final a l) = b := by
  induction l generalizing a with
  | nil => exact h
  | cons x l ih => exact ih h.2

/-- The last node is linked to `y`. -/
theorem relink [DecidableEq α] (h : Path next a l x) (hnodup : (a :: l).Nodup) (y : α) :
    Path (Function.update next (final a l) y) a l y := by
  induction l generalizing a with
  | nil => exact Function.update_self ..
  | cons z l ih =>
    have hparts := List.nodup_cons.mp hnodup
    have hne : a ≠ final z l := fun heq => hparts.1 (heq ▸ final_mem)
    refine ⟨?_, ih h.2 hparts.2⟩
    exact (Function.update_of_ne hne ..).trans h.1

theorem iterate (h : Path next a l x) : next^[l.length + 1] a = x := by
  induction l generalizing a with
  | nil => exact h
  | cons y l ih =>
    rw [List.length_cons, Function.iterate_succ_apply, h.1]
    exact ih h.2

/-- A circle seen from any of its nodes. -/
theorem rotate (h : Path next a l a) (hx : x ∈ a :: l) :
    ∃ m, Path next x m x ∧ (x :: m).Perm (a :: l) := by
  rcases List.mem_cons.mp hx with rfl | hx
  · exact ⟨l, h, List.Perm.refl _⟩
  · rcases List.append_of_mem hx with ⟨before, after, rfl⟩
    have hparts := append.mp h
    refine ⟨after ++ a :: before, append.mpr ⟨hparts.2, hparts.1⟩, ?_⟩
    rw [← List.cons_append]
    exact List.perm_append_comm

/-- From any node of a circle every node is reached. -/
theorem reach (h : Path next a l a) (hx : x ∈ a :: l) (hy : y ∈ a :: l) :
    ∃ k ≤ l.length, next^[k] x = y := by
  rcases h.rotate hx with ⟨m, hm, hperm⟩
  have hlength : m.length = l.length := by
    have heq := hperm.length_eq
    rw [List.length_cons, List.length_cons] at heq
    omega
  rcases List.mem_cons.mp (hperm.mem_iff.mpr hy) with rfl | hy
  · exact ⟨0, Nat.zero_le _, rfl⟩
  · rcases List.append_of_mem hy with ⟨before, after, rfl⟩
    rw [List.length_append, List.length_cons] at hlength
    exact ⟨before.length + 1, by omega, (append.mp hm).1.iterate⟩

/-- The links stay in the circle. -/
theorem next_mem (h : Path next a l a) (hx : x ∈ a :: l) : next x ∈ a :: l := by
  rcases h.rotate hx with ⟨m, hm, hperm⟩
  rw [← hperm.mem_iff]
  cases m with
  | nil =>
    rw [show next x = x from hm]
    exact List.mem_cons_self
  | cons y m =>
    rw [hm.1]
    exact List.mem_cons_of_mem x List.mem_cons_self

end Path

end OsSessional
