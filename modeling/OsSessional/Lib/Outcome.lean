import Mathlib.Data.List.Basic

/-!
# Computations that may stop

Inversion of `Except` computations that returned, and the loop rule for a fold of them.
-/

namespace OsSessional.Outcome

universe u

variable {ε : Type*} {α β σ : Type u}

/-- A sequence that returned passed through a value of its first part. -/
theorem bind_eq_ok {x : Except ε α} {f : α → Except ε β} {b : β} :
    (x >>= f) = .ok b ↔ ∃ a, x = .ok a ∧ f a = .ok b := by
  cases x with
  | error e => simp [bind, Except.bind]
  | ok a => simp [bind, Except.bind]

theorem ok_bind (a : α) (f : α → Except ε β) : (.ok a >>= f) = f a := rfl

@[simp] theorem pure_eq_ok {a b : α} : (pure a : Except ε α) = .ok b ↔ a = b := by
  simp [pure, Except.pure]

theorem toOption_eq_some {x : Except ε α} {a : α} : x.toOption = some a ↔ x = .ok a := by
  cases x with
  | error e => simp [Except.toOption]
  | ok b => simp [Except.toOption]

/-- What it stopped with. -/
def stop : Except ε α → Option ε
  | .error e => some e
  | .ok _ => none

theorem stop_eq_some {x : Except ε α} {e : ε} : stop x = some e ↔ x = .error e := by
  cases x with
  | error e' => simp [stop]
  | ok a => simp [stop]

/-- The computation does not stop. -/
def Returns (x : Except ε α) : Prop := ∃ a, x = .ok a

theorem Returns.ok (a : α) : Returns (.ok a : Except ε α) := ⟨a, rfl⟩

theorem Returns.pure (a : α) : Returns (Pure.pure a : Except ε α) := ⟨a, rfl⟩

theorem Returns.bind {x : Except ε α} {f : α → Except ε β} (hx : Returns x)
    (hf : ∀ a, x = .ok a → Returns (f a)) : Returns (x >>= f) := by
  obtain ⟨a, rfl⟩ := hx
  exact hf a rfl

section Ensures

/-- The computation does not stop with an error that `bad` names, and what it returns satisfies
`P`. -/
inductive Ensures (bad : ε → Prop) (P : α → Prop) : Except ε α → Prop
  | ok {a : α} (h : P a) : Ensures bad P (.ok a)
  | error {e : ε} (h : ¬ bad e) : Ensures bad P (.error e)

namespace Ensures

variable {bad : ε → Prop} {P P' : α → Prop} {Q : β → Prop} {x : Except ε α} {a : α} {e : ε}

theorem pure (h : P a) : Ensures bad P (Pure.pure a) := .ok h

theorem bind {f : α → Except ε β} (hx : Ensures bad P x) (hf : ∀ a, P a → Ensures bad Q (f a)) :
    Ensures bad Q (x >>= f) := by
  cases hx with
  | error he => exact .error he
  | ok ha => exact hf _ ha

theorem mono (hx : Ensures bad P x) (h : ∀ a, P a → P' a) : Ensures bad P' x := by
  cases hx with
  | error he => exact .error he
  | ok ha => exact .ok (h _ ha)

theorem of_ok (hx : Ensures bad P (.ok a)) : P a := by
  cases hx with
  | ok ha => exact ha

theorem ne_error (hx : Ensures bad P x) (h : bad e) : x ≠ .error e := by
  rintro rfl
  cases hx with
  | error he => exact he h

/-- A loop whose rounds keep a property. -/
theorem foldlM {step : σ → α → Except ε σ} {I : σ → Prop}
    (hstep : ∀ s a, I s → Ensures bad I (step s a)) (l : List α) :
    ∀ {s : σ}, I s → Ensures bad I (l.foldlM step s) := by
  induction l with
  | nil => exact fun hI => .pure hI
  | cons a l ih =>
    intro s hI
    rw [List.foldlM_cons]
    exact (hstep s a hI).bind fun s₁ h₁ => ih h₁

end Ensures

end Ensures

/-- A property that every round keeps holds after the loop. -/
theorem foldlM_keeps_mem {step : σ → α → Except ε σ} {I : σ → Prop} (l : List α)
    (hstep : ∀ s, ∀ a ∈ l, ∀ s', I s → step s a = .ok s' → I s') :
    ∀ {s s' : σ}, I s → l.foldlM step s = .ok s' → I s' := by
  induction l with
  | nil =>
    intro s s' hI h
    obtain rfl : s = s' := by simpa using h
    exact hI
  | cons a l ih =>
    intro s s' hI h
    rw [List.foldlM_cons, bind_eq_ok] at h
    obtain ⟨s₁, h₁, h₂⟩ := h
    exact ih (fun s b hb => hstep s b (List.mem_cons_of_mem _ hb)) (hstep s a List.mem_cons_self s₁ hI h₁) h₂

theorem foldlM_keeps {step : σ → α → Except ε σ} {I : σ → Prop}
    (hstep : ∀ s a s', I s → step s a = .ok s' → I s') (l : List α) {s s' : σ} (hI : I s)
    (h : l.foldlM step s = .ok s') : I s' :=
  foldlM_keeps_mem l (fun s a _ s' => hstep s a s') hI h

section Indices

variable {n : Nat} {i j : Fin n}

theorem finRange_split (i : Fin n) :
    (List.finRange n).take i ++ i :: (List.finRange n).drop (i + 1) = List.finRange n := by
  have hlt : i.val < (List.finRange n).length := by simp
  have hget : (List.finRange n)[i.val] = i := by simp
  have hdrop := List.getElem_cons_drop hlt
  rw [hget] at hdrop
  rw [hdrop, List.take_append_drop]

theorem ne_of_mem_take (h : j ∈ (List.finRange n).take i) : j ≠ i := by
  have hnodup := List.nodup_finRange n
  rw [← finRange_split i, List.nodup_append] at hnodup
  exact hnodup.2.2 j h i List.mem_cons_self

theorem ne_of_mem_drop (h : j ∈ (List.finRange n).drop (i + 1)) : j ≠ i := by
  have hnodup := List.nodup_finRange n
  rw [← finRange_split i, List.nodup_append] at hnodup
  have hrest := List.nodup_cons.mp hnodup.2.1
  rintro rfl
  exact hrest.1 h

/-- A loop over all indices that returned passed through the round of index `i`. -/
theorem foldlM_finRange {step : σ → Fin n → Except ε σ} {s s' : σ} (i : Fin n)
    (h : (List.finRange n).foldlM step s = .ok s') :
    ∃ s₁ s₂, ((List.finRange n).take i).foldlM step s = .ok s₁ ∧ step s₁ i = .ok s₂ ∧
      ((List.finRange n).drop (i + 1)).foldlM step s₂ = .ok s' := by
  rw [← finRange_split i, List.foldlM_append, bind_eq_ok] at h
  obtain ⟨s₁, h₁, h⟩ := h
  rw [List.foldlM_cons, bind_eq_ok] at h
  obtain ⟨s₂, h₂, h⟩ := h
  exact ⟨s₁, s₂, h₁, h₂, h⟩

end Indices

/-- A loop returns whose rounds return and keep a property. -/
theorem foldlM_returns {step : σ → α → Except ε σ} {I : σ → Prop}
    (hreturns : ∀ s a, I s → Returns (step s a))
    (hstep : ∀ s a s', I s → step s a = .ok s' → I s') (l : List α) :
    ∀ {s : σ}, I s → Returns (l.foldlM step s) := by
  induction l with
  | nil => exact fun {s} _ => .ok s
  | cons a l ih =>
    intro s hI
    rw [List.foldlM_cons]
    exact (hreturns s a hI).bind fun s₁ h₁ => ih (hstep s a s₁ hI h₁)

end OsSessional.Outcome
