import OsSessional.Lib.Runs
import Mathlib.Data.List.Basic

/-!
# Clients of a store

A client takes steps of its own and steps that use a store; the store may take steps of its own
between them. A store that simulates another one action by action may be put in its place: every
step of the client over the first is one over the second.
-/

namespace OsSessional

variable {γ σ τ ε α : Type*}

/-- A step of a client and its store: a client's step with the action it needs, if any, or a step of
the store alone. -/
inductive Joint (client : γ → ε → Option α → γ → Prop) (store : σ → Option α → σ → Prop) :
    γ × σ → Option ε → γ × σ → Prop
  | own {c c' : γ} {s : σ} {e : ε} (hclient : client c e none c') :
      Joint client store (c, s) (some e) (c', s)
  | uses {c c' : γ} {s s' : σ} {e : ε} {a : α} (hclient : client c e (some a) c')
      (hstore : store s (some a) s') : Joint client store (c, s) (some e) (c', s')
  | silent {c : γ} {s s' : σ} (hstore : store s none s') : Joint client store (c, s) none (c, s')

/-- What one store does the other can do too; its own steps are not seen. -/
structure Simulates (store : σ → Option α → σ → Prop) (spec : τ → Option α → τ → Prop)
    (R : σ → τ → Prop) : Prop where
  act : ∀ s t a s', R s t → store s (some a) s' → ∃ t', spec t (some a) t' ∧ R s' t'
  silent : ∀ s t s', R s t → store s none s' → R s' t

/-- What is seen of a run of the store. -/
theorem Simulates.trace {store : σ → Option α → σ → Prop} {spec : τ → Option α → τ → Prop}
    {R : σ → τ → Prop} (hsim : Simulates store spec R) {s s' : σ} {as : List (Option α)}
    (h : Run store s as s') {t : τ} (hR : R s t) :
    ∃ t', Run spec t (as.filter Option.isSome) t' ∧ R s' t' := by
  induction h generalizing t with
  | nil s => exact ⟨t, .nil _, hR⟩
  | @cons s s₁ s' a as hstep _ ih =>
    cases a with
    | none =>
      rcases ih (hsim.silent _ _ _ hR hstep) with ⟨t', hrun, hR'⟩
      exact ⟨t', hrun, hR'⟩
    | some a =>
      rcases hsim.act _ _ _ _ hR hstep with ⟨t₁, hspec, hR₁⟩
      rcases ih hR₁ with ⟨t', hrun, hR'⟩
      exact ⟨t', .cons hspec hrun, hR'⟩

/-- The store is replaced under the client; a step of the store alone is not one of the other. -/
theorem Simulates.joint {client : γ → ε → Option α → γ → Prop} {store : σ → Option α → σ → Prop}
    {spec : τ → Option α → τ → Prop} {R : σ → τ → Prop} (hsim : Simulates store spec R)
    {x x' : γ × σ} {e : Option ε} (h : Joint client store x e x') {t : τ} (hR : R x.2 t) :
    ∃ t', R x'.2 t' ∧ (Joint client spec (x.1, t) e (x'.1, t') ∨
      e = none ∧ x'.1 = x.1 ∧ t' = t) := by
  cases h with
  | own hclient => exact ⟨t, hR, Or.inl (.own hclient)⟩
  | uses hclient hstore =>
    rcases hsim.act _ _ _ _ hR hstore with ⟨t', hspec, hR'⟩
    exact ⟨t', hR', Or.inl (.uses hclient hspec)⟩
  | silent hstore => exact ⟨t, hsim.silent _ _ _ hR hstore, Or.inr ⟨rfl, rfl, rfl⟩⟩

end OsSessional
