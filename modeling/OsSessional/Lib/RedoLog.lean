import Mathlib.Data.List.Basic
import Mathlib.Logic.Function.Basic

/-!
# Replaying a log of writes

A redo log is a list of writes to a store. Replaying it over a store that holds some of the writes
already, or other values where it writes, gives the same store as replaying it over the first one.
-/

namespace OsSessional

open Function (update update_self update_of_ne)

variable {κ β : Type*} [DecidableEq κ]

/-- The store after the writes of `l`, one after the other. -/
def replay (l : List (κ × β)) (d : κ → β) : κ → β := l.foldl (fun d w => update d w.1 w.2) d

variable {l : List (κ × β)} {d d' : κ → β} {k : κ} {v : β}

@[simp] theorem replay_nil : replay [] d = d := rfl

theorem replay_cons (w : κ × β) : replay (w :: l) d = replay l (update d w.1 w.2) := rfl

theorem replay_congr (h : k ∈ l.map Prod.fst ∨ d k = d' k) : replay l d k = replay l d' k := by
  induction l generalizing d d' with
  | nil => simpa using h
  | cons w l ih =>
    rw [replay_cons, replay_cons]
    apply ih
    by_cases hk : k = w.1
    · right
      rw [hk, update_self, update_self]
    · rw [update_of_ne hk, update_of_ne hk]
      rcases h with h | h
      · left
        exact (List.mem_cons.mp h).resolve_left hk
      · exact Or.inr h

/-- Where the log does not write. -/
theorem replay_of_not_mem (h : k ∉ l.map Prod.fst) : replay l d k = d k := by
  induction l generalizing d with
  | nil => rfl
  | cons w l ih =>
    rw [List.map_cons, List.mem_cons, not_or] at h
    rw [replay_cons, ih h.2, update_of_ne h.1]

/-- A write to a place of the log does not outlast a replay. -/
theorem replay_update (h : k ∈ l.map Prod.fst) : replay l (update d k v) = replay l d := by
  funext k'
  apply replay_congr
  by_cases hk : k' = k
  · rw [hk]
    exact Or.inl h
  · exact Or.inr (update_of_ne hk ..)

/-- A log whose writes are all done. -/
theorem replay_done (h : ∀ w ∈ l, d w.1 = w.2) : replay l d = d := by
  induction l with
  | nil => rfl
  | cons w l ih =>
    have hw : update d w.1 w.2 = d := by
      rw [← h w List.mem_cons_self]
      exact Function.update_eq_self ..
    rw [replay_cons, hw, ih fun w' hw' => h w' (List.mem_cons_of_mem _ hw')]

/-- A log that writes to no place twice. -/
theorem replay_of_mem (hnodup : (l.map Prod.fst).Nodup) (h : (k, v) ∈ l) : replay l d k = v := by
  induction l generalizing d with
  | nil => contradiction
  | cons w l ih =>
    rw [List.map_cons, List.nodup_cons] at hnodup
    rw [replay_cons]
    rcases List.mem_cons.mp h with rfl | h
    · rw [replay_of_not_mem hnodup.1, update_self]
    · exact ih hnodup.2 h

end OsSessional
