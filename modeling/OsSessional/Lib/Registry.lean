import Mathlib.Logic.Equiv.Basic

/-!
# Registries

A resource is made for somebody and entered in a registry; when it is released its entry is struck
off. A registry is exact when its entries are the resources the owners hold, each under the name of
its owner.
-/

namespace OsSessional

open Function (update update_self update_of_ne)

variable {ω ρ α : Type*}

structure Registry (ω ρ α : Type*) where
  held : ω → Option ρ
  live : ρ → Option α

namespace Registry

structure Exact (name : ω → α) (r : Registry ω ρ α) : Prop where
  inj : ∀ o o' x, r.held o = some x → r.held o' = some x → o = o'
  entry : ∀ x a, r.live x = some a ↔ ∃ o, r.held o = some x ∧ name o = a

variable {name name' : ω → α} {r : Registry ω ρ α} {o : ω} {x : ρ}

theorem Exact.live (h : r.Exact name) (ho : r.held o = some x) : r.live x = some (name o) :=
  (h.entry x _).mpr ⟨o, ho, rfl⟩

/-- Owners without a resource may change their names. -/
theorem Exact.rename (h : r.Exact name) (hname : ∀ o x, r.held o = some x → name' o = name o) :
    r.Exact name' where
  inj := h.inj
  entry x a := by
    rw [h.entry]
    constructor <;> rintro ⟨o, ho, rfl⟩
    · exact ⟨o, ho, hname o x ho⟩
    · exact ⟨o, ho, (hname o x ho).symm⟩

/-- Owners of one name may pass their resources round. -/
theorem Exact.permute (h : r.Exact name) (e : Equiv.Perm ω) (he : ∀ o, name (e o) = name o) :
    Exact name { r with held := r.held ∘ e } where
  inj o o' x ho ho' := e.injective (h.inj _ _ x ho ho')
  entry x a := by
    rw [h.entry]
    constructor
    · rintro ⟨o, ho, rfl⟩
      refine ⟨e.symm o, by simpa using ho, ?_⟩
      rw [← he, Equiv.apply_symm_apply]
    · rintro ⟨o, ho, rfl⟩
      exact ⟨e o, ho, he o⟩

section Update

variable [DecidableEq ω] [DecidableEq ρ]

/-- A new resource is entered for an owner who had none. -/
theorem Exact.enter (h : r.Exact name) (ho : r.held o = none) (hx : r.live x = none) :
    Exact name ⟨update r.held o (some x), update r.live x (some (name o))⟩ := by
  have hnew : ∀ o', r.held o' ≠ some x := by
    intro o' ho'
    simp [h.live ho'] at hx
  have hheld : ∀ o' x', update r.held o (some x) o' = some x' ↔
      o' = o ∧ x' = x ∨ x' ≠ x ∧ r.held o' = some x' := by
    intro o' x'
    by_cases he : o' = o
    · subst he
      simp only [update_self, Option.some.injEq, ho]
      constructor
      · exact fun hx' => .inl ⟨trivial, hx'.symm⟩
      · rintro (⟨-, rfl⟩ | ⟨-, hno⟩)
        · rfl
        · simp at hno
    · rw [update_of_ne he]
      constructor
      · intro ho'
        refine .inr ⟨?_, ho'⟩
        rintro rfl
        exact hnew o' ho'
      · rintro (⟨heq, -⟩ | ⟨-, ho'⟩)
        · exact absurd heq he
        · exact ho'
  constructor
  · intro o₁ o₂ x' h₁ h₂
    rcases (hheld _ _).mp h₁ with ⟨rfl, rfl⟩ | ⟨hne, h₁⟩ <;>
      rcases (hheld _ _).mp h₂ with ⟨rfl, heq⟩ | ⟨hne', h₂⟩
    · rfl
    · exact absurd rfl hne'
    · exact absurd heq hne
    · exact h.inj _ _ x' h₁ h₂
  · intro x' a
    simp only [hheld]
    by_cases he : x' = x
    · subst he
      simp only [update_self, Option.some.injEq]
      constructor
      · exact fun ha => ⟨o, .inl ⟨rfl, trivial⟩, ha⟩
      · rintro ⟨o', ⟨rfl, -⟩ | ⟨hne, -⟩, ha⟩
        · exact ha
        · exact absurd rfl hne
    · rw [update_of_ne he, h.entry]
      simp [he]

/-- A resource is released by its owner. -/
theorem Exact.strike (h : r.Exact name) (ho : r.held o = some x) :
    Exact name ⟨update r.held o none, update r.live x none⟩ := by
  have hheld : ∀ o' x', update r.held o none o' = some x' ↔ x' ≠ x ∧ r.held o' = some x' := by
    intro o' x'
    by_cases he : o' = o
    · subst he
      simp only [update_self]
      constructor
      · simp
      · rintro ⟨hne, ho'⟩
        exact absurd (Option.some.inj (ho'.symm.trans ho)) hne
    · rw [update_of_ne he]
      constructor
      · intro ho'
        refine ⟨?_, ho'⟩
        rintro rfl
        exact he (h.inj _ _ _ ho' ho)
      · exact fun ho' => ho'.2
  constructor
  · intro o₁ o₂ x' h₁ h₂
    exact h.inj _ _ x' ((hheld _ _).mp h₁).2 ((hheld _ _).mp h₂).2
  · intro x' a
    simp only [hheld]
    by_cases he : x' = x
    · subst he
      simp
    · rw [update_of_ne he, h.entry]
      simp [he]

end Update

end Registry

end OsSessional
