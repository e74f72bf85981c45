import Mathlib.Logic.Function.Basic
import Mathlib.Data.List.Nodup

/-!
# Resource ledgers

An allocator hands out resources from a free list; every resource it handed out is held by at
most one owner. A ledger records both sides. It is sound when no resource is free twice, free
and held, or held twice; a resource in between, taken from the list and not yet held, is idle.
-/

namespace OsSessional

open Function (update)

variable {ω ρ : Type*}

structure Ledger (ω ρ : Type*) where
  free : List ρ
  held : ω → Option ρ

namespace Ledger

structure Sound (l : Ledger ω ρ) : Prop where
  nodup : l.free.Nodup
  not_free : ∀ o r, l.held o = some r → r ∉ l.free
  inj : ∀ o o' r, l.held o = some r → l.held o' = some r → o = o'

/-- Taken from the free list and held by nobody. -/
structure Idle (l : Ledger ω ρ) (r : ρ) : Prop where
  not_free : r ∉ l.free
  not_held : ∀ o, l.held o ≠ some r

variable {l : Ledger ω ρ} {r r' : ρ} {rest : List ρ} {o : ω}

theorem Sound.take (h : l.Sound) (hl : l.free = r :: rest) : Sound { l with free := rest } where
  nodup := (List.nodup_cons.mp (hl ▸ h.nodup)).2
  not_free o r' ho hmem := h.not_free o r' ho (hl ▸ List.mem_cons_of_mem _ hmem)
  inj := h.inj

theorem Sound.idle_take (h : l.Sound) (hl : l.free = r :: rest) :
    Idle { l with free := rest } r where
  not_free := (List.nodup_cons.mp (hl ▸ h.nodup)).1
  not_held o ho := h.not_free o r ho (hl ▸ List.mem_cons_self)

theorem Idle.take (h : Idle l r) (hl : l.free = r' :: rest) : Idle { l with free := rest } r where
  not_free hmem := h.not_free (hl ▸ List.mem_cons_of_mem _ hmem)
  not_held := h.not_held

section Update

variable [DecidableEq ω]

/-- An idle resource may be given to an owner, who lets go of what it held. -/
theorem Sound.grant (h : l.Sound) (hr : Idle l r) : Sound { l with held := update l.held o (some r) } where
  nodup := h.nodup
  not_free o' r' ho := by
    by_cases he : o' = o
    · subst he
      obtain rfl : r = r' := by simpa using ho
      exact hr.not_free
    · exact h.not_free o' r' (by simpa [he] using ho)
  inj o₁ o₂ r' h₁ h₂ := by
    by_cases he₁ : o₁ = o <;> by_cases he₂ : o₂ = o
    · rw [he₁, he₂]
    · subst he₁
      obtain rfl : r = r' := by simpa using h₁
      exact absurd (by simpa [he₂] using h₂) (hr.not_held o₂)
    · subst he₂
      obtain rfl : r = r' := by simpa using h₂
      exact absurd (by simpa [he₁] using h₁) (hr.not_held o₁)
    · exact h.inj o₁ o₂ r' (by simpa [he₁] using h₁) (by simpa [he₂] using h₂)

/-- A held resource goes back on the free list. -/
theorem Sound.release (h : l.Sound) (ho : l.held o = some r) :
    Sound { free := r :: l.free, held := update l.held o none } where
  nodup := List.nodup_cons.mpr ⟨h.not_free o r ho, h.nodup⟩
  not_free o' r' ho' := by
    by_cases he : o' = o
    · simp [he] at ho'
    · have hheld : l.held o' = some r' := by simpa [he] using ho'
      have hne : r' ≠ r := fun hr => he (h.inj o' o r (hr ▸ hheld) ho)
      simpa [hne] using h.not_free o' r' hheld
  inj o₁ o₂ r' h₁ h₂ := by
    have hne₁ : o₁ ≠ o := by rintro rfl; simp at h₁
    have hne₂ : o₂ ≠ o := by rintro rfl; simp at h₂
    exact h.inj o₁ o₂ r' (by simpa [hne₁] using h₁) (by simpa [hne₂] using h₂)

theorem Idle.release (h : Idle l r) (ho : l.held o = some r') :
    Idle { free := r' :: l.free, held := update l.held o none } r where
  not_free hmem := by
    rcases List.mem_cons.mp hmem with rfl | hmem
    · exact h.not_held o ho
    · exact h.not_free hmem
  not_held o' ho' := by
    by_cases he : o' = o
    · simp [he] at ho'
    · exact h.not_held o' (by simpa [he] using ho')

theorem Idle.grant (h : Idle l r) (hne : r ≠ r') :
    Idle { l with held := update l.held o (some r') } r where
  not_free := h.not_free
  not_held o' ho' := by
    by_cases he : o' = o
    · subst he
      exact hne (by simpa using ho'.symm)
    · exact h.not_held o' (by simpa [he] using ho')

end Update

/-- An idle resource may go back on the free list. -/
theorem Sound.giveBack (h : l.Sound) (hr : Idle l r) : Sound { l with free := r :: l.free } where
  nodup := List.nodup_cons.mpr ⟨hr.not_free, h.nodup⟩
  not_free o r' ho hmem := by
    rcases List.mem_cons.mp hmem with rfl | hmem
    · exact hr.not_held o ho
    · exact h.not_free o r' ho hmem
  inj := h.inj

section Return

/-- Free or held by somebody. -/
def Known (l : Ledger ω ρ) (r : ρ) : Prop := r ∈ l.free ∨ ∃ o, l.held o = some r

/-- Everything that was taken on the way from `l` to `l'` has been given back: nobody holds more, and
nothing is lost. -/
structure Returned (l l' : Ledger ω ρ) : Prop where
  held : ∀ o r, l'.held o = some r → l.held o = some r
  known : ∀ r, l.Known r → l'.Known r

variable {l' : Ledger ω ρ}

theorem Known.take (h : l.Known r) (hl : l.free = r' :: rest) (hne : r ≠ r') :
    Known { l with free := rest } r := by
  apply h.imp
  · intro hmem
    rw [hl] at hmem
    exact List.mem_of_ne_of_mem hne hmem
  · exact fun hheld => hheld

section Update

variable [DecidableEq ω]

/-- An owner that held nothing is given something. -/
theorem Known.grant (h : l.Known r) (ho : l.held o = none) (v : Option ρ) :
    Known { l with held := update l.held o v } r := by
  apply h.imp
  · exact fun hmem => hmem
  · rintro ⟨o', ho'⟩
    have hne : o' ≠ o := by
      rintro rfl
      simp [ho] at ho'
    exact ⟨o', by simpa [hne] using ho'⟩

theorem Known.release (h : l.Known r) (ho : l.held o = some r') :
    Known { free := r' :: l.free, held := update l.held o none } r := by
  rcases h with hmem | ⟨o', ho'⟩
  · exact .inl (List.mem_cons_of_mem _ hmem)
  · by_cases he : o' = o
    · subst he
      obtain rfl : r' = r := Option.some.inj (ho.symm.trans ho')
      exact .inl List.mem_cons_self
    · exact .inr ⟨o', by simpa [he] using ho'⟩

end Update

end Return

end Ledger

end OsSessional
