import Mathlib.Data.List.Nodup
import Mathlib.Logic.Function.Basic

/-!
# Circular lists of linked nodes

Nodes with a link each way, as C code threads a list through its own records with one more node for
the head. `Round head l` says that the links pass through the nodes of `l` in order and come back to
the head; a node may be taken out, put in behind the head, and the list searched both ways.
-/

namespace OsSessional

open Function (update update_self update_of_ne)

variable {α : Type*}

/-- From `a` the links lead through `l` to `b`, and back. -/
def Links (next prev : α → α) (a : α) : List α → α → Prop
  | [], b => next a = b ∧ prev b = a
  | x :: l, b => next a = x ∧ prev x = a ∧ Links next prev x l b

/-- The links from the head through `l` and back to the head. -/
structure Round (next prev : α → α) (head : α) (l : List α) : Prop where
  links : Links next prev head l head
  nodup : (head :: l).Nodup

namespace Links

variable {next prev next' prev' : α → α} {a b x : α} {l m : List α}

theorem append : Links next prev a (l ++ x :: m) b ↔
    Links next prev a l x ∧ Links next prev x m b := by
  induction l generalizing a with
  | nil => simp [Links, and_assoc]
  | cons y l ih => simp [Links, ih, and_assoc]

/-- Only the links along the way matter. -/
theorem congr (h : Links next prev a l b) (hnext : ∀ y ∈ a :: l, next' y = next y)
    (hprev : ∀ y ∈ l ++ [b], prev' y = prev y) : Links next' prev' a l b := by
  induction l generalizing a with
  | nil =>
    have hb := hprev b (by simp)
    exact ⟨(hnext a (by simp)).trans h.1, hb.trans h.2⟩
  | cons y l ih =>
    have hy := hprev y (by simp)
    refine ⟨(hnext a (by simp)).trans h.1, hy.trans h.2.1, ih h.2.2 ?_ ?_⟩
    · intro z hz
      exact hnext z (List.mem_cons_of_mem _ hz)
    · intro z hz
      exact hprev z (by simp only [List.cons_append, List.mem_cons]; exact Or.inr hz)

theorem prev_mem (h : Links next prev a l b) : prev b ∈ a :: l := by
  induction l generalizing a with
  | nil => simp [h.2]
  | cons y l ih => exact List.mem_cons_of_mem _ (ih h.2.2)

theorem reverse (h : Links next prev a l b) : Links prev next b l.reverse a := by
  induction l generalizing a with
  | nil => exact ⟨h.2, h.1⟩
  | cons y l ih =>
    rw [List.reverse_cons]
    exact append.mpr ⟨ih h.2.2, h.2.1, h.1⟩

section Edit

variable [DecidableEq α]

theorem retarget {q : α} (h : Links next prev a l x) (hnodup : (a :: l).Nodup) (hq : q ∉ l) :
    Links (update next (prev x) q) (update prev q (prev x)) a l q := by
  induction l generalizing a with
  | nil =>
    rw [h.2]
    exact ⟨update_self .., update_self ..⟩
  | cons y l ih =>
    rcases List.nodup_cons.mp hnodup with ⟨ha, hl⟩
    have hap : a ≠ prev x := fun heq => ha (heq ▸ prev_mem h.2.2)
    have hyq : y ≠ q := fun heq => hq (by simp [heq])
    refine ⟨?_, ?_, ih h.2.2 hl fun hmem => hq (List.mem_cons_of_mem _ hmem)⟩
    · rw [update_of_ne hap]
      exact h.1
    · rw [update_of_ne hyq]
      exact h.2.1

end Edit

end Links

section Search

variable {n : Nat}

/-- `for(b = first; b != &head; b = follow(b)) if(ok(b)) return b;` over `n` nodes, the head being
`none`. -/
def walk (follow : Option (Fin n) → Option (Fin n)) (ok : Fin n → Bool) :
    Nat → Option (Fin n) → Option (Fin n)
  | 0, _ => none
  | _ + 1, none => none
  | fuel + 1, some i => if ok i then some i else walk follow ok fuel (follow (some i))

theorem walk_links {next prev : Option (Fin n) → Option (Fin n)} {ok : Fin n → Bool}
    {l : List (Fin n)} {a : Option (Fin n)} (h : Links next prev a (l.map some) none) {fuel : Nat}
    (hfuel : l.length ≤ fuel) : walk next ok fuel (next a) = l.find? ok := by
  induction l generalizing a fuel with
  | nil =>
    rw [h.1]
    cases fuel with
    | zero => rfl
    | succ fuel => rfl
  | cons i l ih =>
    cases fuel with
    | zero => simp at hfuel
    | succ fuel =>
      rw [h.1, walk, List.find?_cons]
      cases hok : ok i with
      | true => rfl
      | false =>
        rw [if_neg (by simp)]
        exact ih h.2.2 (by simpa using hfuel)

end Search

namespace Round

variable [DecidableEq α] {next prev : α → α} {head x : α} {l m : List α}

/-- `x->next->prev = x->prev; x->prev->next = x->next;` takes `x` out. -/
theorem unlink (h : Round next prev head (l ++ x :: m)) :
    Round (update next (prev x) (next x)) (update prev (next x) (prev x)) head (l ++ m) := by
  have hnodup : (head :: (l ++ m)).Nodup := by
    refine h.nodup.sublist ?_
    exact List.Sublist.cons_cons _ (List.Sublist.append_left (List.sublist_cons_self x m) l)
  rcases Links.append.mp h.links with ⟨hl, hm⟩
  have hhl : (head :: l).Nodup :=
    h.nodup.sublist (List.Sublist.cons_cons _ (List.sublist_append_left _ _))
  refine ⟨?_, hnodup⟩
  cases m with
  | nil =>
    -- `x` was the last node: the one before it leads back to the head
    have hx : next x = head := hm.1
    rw [hx, List.append_nil]
    exact hl.retarget hhl (List.nodup_cons.mp hhl).1
  | cons y m =>
    have hx : next x = y := hm.1
    rcases List.nodup_cons.mp hnodup with ⟨hhead, hlm⟩
    rcases List.nodup_append.mp hlm with ⟨-, hym, hapart⟩
    have hyl : y ∉ l := fun hmem => hapart y hmem y (by simp) rfl
    rw [hx]
    refine Links.append.mpr ⟨hl.retarget hhl hyl, hm.2.2.congr ?_ ?_⟩
    · intro z hz
      refine update_of_ne ?_ ..
      rintro rfl
      rcases List.mem_cons.mp hl.prev_mem with heq | hmem
      · exact hhead (heq ▸ List.mem_append_right _ hz)
      · exact hapart _ hmem _ hz rfl
    · intro z hz
      refine update_of_ne ?_ ..
      rintro rfl
      rcases List.mem_append.mp hz with hmem | hmem
      · exact (List.nodup_cons.mp hym).1 hmem
      · exact hhead (by rw [← List.mem_singleton.mp hmem]; simp)

/-- `x->next = head.next; x->prev = &head; head.next->prev = x; head.next = x;` puts `x` first. -/
theorem insert (h : Round next prev head l) (hx : x ∉ head :: l) :
    Round (update (update next x (next head)) head x)
      (update (update prev x head) (next head) x) head (x :: l) := by
  have hxh : x ≠ head := fun heq => hx (by simp [heq])
  have hxl : x ∉ l := fun hmem => hx (List.mem_cons_of_mem _ hmem)
  rcases List.nodup_cons.mp h.nodup with ⟨hhead, hl⟩
  have hfirst : x ≠ next head := by
    rintro heq
    cases l with
    | nil => exact hxh (heq.trans h.links.1)
    | cons y l => exact hxl (by simp [heq, h.links.1])
  refine ⟨⟨update_self .., ?_, ?_⟩, ?_⟩
  · rw [update_of_ne hfirst, update_self]
  · cases l with
    | nil =>
      have hnext : next head = head := h.links.1
      constructor
      · rw [update_of_ne hxh, update_self, hnext]
      · rw [hnext, update_self]
    | cons y l =>
      have hnext : next head = y := h.links.1
      refine ⟨?_, ?_, h.links.2.2.congr ?_ ?_⟩
      · rw [update_of_ne hxh, update_self, hnext]
      · rw [hnext, update_self]
      · intro z hz
        have hzh : z ≠ head := fun heq => hhead (heq ▸ hz)
        have hzx : z ≠ x := fun heq => hxl (heq ▸ hz)
        rw [update_of_ne hzh, update_of_ne hzx]
      · intro z hz
        have hzy : z ≠ next head := by
          rw [hnext]
          rcases List.mem_append.mp hz with hmem | hmem
          · rintro rfl
            exact (List.nodup_cons.mp hl).1 hmem
          · rintro rfl
            exact hhead (by rw [← List.mem_singleton.mp hmem]; simp)
        have hzx : z ≠ x := by
          rcases List.mem_append.mp hz with hmem | hmem
          · rintro rfl
            exact hxl (List.mem_cons_of_mem _ hmem)
          · rw [List.mem_singleton.mp hmem]
            exact hxh.symm
        rw [update_of_ne hzy, update_of_ne hzx]
  · rw [List.nodup_cons] at *
    refine ⟨?_, List.nodup_cons.mpr ⟨hxl, hl⟩⟩
    intro hmem
    rcases List.mem_cons.mp hmem with heq | hmem
    · exact hxh heq.symm
    · exact hhead hmem

end Round

end OsSessional
