import Mathlib.Data.List.Dedup
import Mathlib.Data.List.Perm.Basic

/-!
# The first of every key

A pass over a list that keeps an element if its key was not seen before. With the first element it
keeps, one further key counts as seen: the mark.
-/

namespace OsSessional.Firsts

variable {α β : Type*} [DecidableEq β] (key : α → β) (mark : β)

/-- What the pass keeps, for the keys seen so far. -/
def pick : List β → List α → List α
  | _, [] => []
  | seen, a :: as =>
    if key a ∈ seen then pick seen as else a :: pick (mark :: key a :: seen) as

variable {key mark} {seen : List β} {as bs : List α} {a : α} {b : β}

theorem pick_sublist : (pick key mark seen as).Sublist as := by
  induction as generalizing seen with
  | nil => exact List.Sublist.refl _
  | cons a as ih =>
    unfold pick
    split
    · exact ih.cons a
    · exact ih.cons_cons a

theorem mem_of_pick (h : a ∈ pick key mark seen as) : a ∈ as := pick_sublist.subset h

theorem pick_unseen (h : a ∈ pick key mark seen as) : key a ∉ seen := by
  induction as generalizing seen with
  | nil => simp [pick] at h
  | cons x as ih =>
    unfold pick at h
    split at h
    · exact ih h
    · next hx =>
      rcases List.mem_cons.mp h with rfl | h
      · exact hx
      · exact fun hmem => ih h (List.mem_cons_of_mem _ (List.mem_cons_of_mem _ hmem))

theorem pick_keys_nodup : ((pick key mark seen as).map key).Nodup := by
  induction as generalizing seen with
  | nil => simp [pick]
  | cons x as ih =>
    unfold pick
    split
    · exact ih
    · rw [List.map_cons, List.nodup_cons]
      refine ⟨fun hmem => ?_, ih⟩
      obtain ⟨y, hy, heq⟩ := List.mem_map.mp hmem
      exact pick_unseen hy (by simp [heq])

/-- The first element with a key that is not the mark is kept. -/
theorem mem_pick_iff (hb : b ≠ mark) (hseen : b ∉ seen) :
    (a ∈ pick key mark seen as ∧ key a = b) ↔ as.find? (fun x => decide (key x = b)) = some a := by
  induction as generalizing seen with
  | nil => simp [pick]
  | cons x as ih =>
    unfold pick
    by_cases hx : key x = b
    · rw [if_neg (by rwa [hx]), List.find?_cons_of_pos (by simpa using hx)]
      constructor
      · intro h
        rcases List.mem_cons.mp h.1 with rfl | hmem
        · rfl
        · exact absurd (by simp [h.2, hx]) (pick_unseen hmem)
      · intro h
        obtain rfl := Option.some.inj h
        exact ⟨List.mem_cons_self, hx⟩
    · rw [List.find?_cons_of_neg (by simpa using hx)]
      split
      · exact ih hseen
      · have hseen' : b ∉ mark :: key x :: seen := by
          simp only [List.mem_cons, not_or]
          exact ⟨hb, fun h => hx h.symm, hseen⟩
        rw [← ih hseen', List.mem_cons]
        constructor
        · intro h
          rcases h.1 with rfl | hmem
          · exact absurd h.2 hx
          · exact ⟨hmem, h.2⟩
        · exact fun h => ⟨.inr h.1, h.2⟩

theorem key_mem_pick (hb : b ≠ mark) (hseen : b ∉ seen) :
    b ∈ (pick key mark seen as).map key ↔ b ∈ as.map key := by
  constructor
  · intro h
    obtain ⟨a, ha, rfl⟩ := List.mem_map.mp h
    exact List.mem_map_of_mem (mem_of_pick ha)
  · intro h
    obtain ⟨a, ha, hkey⟩ := List.mem_map.mp h
    obtain ⟨x, hx⟩ := Option.isSome_iff_exists.mp
      (List.find?_isSome.mpr ⟨a, ha, by simpa using hkey⟩ : (as.find? fun x => decide (key x = b)).isSome)
    obtain ⟨hmem, hx'⟩ := (mem_pick_iff hb hseen).mpr hx
    exact List.mem_map.mpr ⟨x, hmem, hx'⟩

/-- The mark is kept only as the key of the first element. -/
theorem mark_mem_pick : mark ∈ (pick key mark [] as).map key ↔ (as.head?.map key) = some mark := by
  cases as with
  | nil => simp [pick]
  | cons x as =>
    simp only [pick, List.not_mem_nil, if_false, List.map_cons, List.mem_cons, List.head?_cons,
      Option.map_some, Option.some.injEq]
    constructor
    · intro h
      rcases h with h | h
      · exact h.symm
      · obtain ⟨y, hy, heq⟩ := List.mem_map.mp h
        exact absurd (by simp [heq]) (pick_unseen hy)
    · exact fun h => .inl h.symm

/-- Every key is kept, unless the mark comes later than in first place. -/
theorem keys_kept_iff : (∀ a ∈ as, key a ∈ (pick key mark [] as).map key) ↔
    (mark ∈ as.map key → as.head?.map key = some mark) := by
  constructor
  · intro h hmark
    obtain ⟨a, ha, rfl⟩ := List.mem_map.mp hmark
    exact mark_mem_pick.mp (h a ha)
  · intro h a ha
    by_cases hkey : key a = mark
    · rw [hkey]
      apply mark_mem_pick.mpr
      apply h
      rw [← hkey]
      exact List.mem_map_of_mem ha
    · exact (key_mem_pick hkey List.not_mem_nil).mpr (List.mem_map_of_mem ha)

theorem pick_append : ∃ seen', pick key mark seen (as ++ bs) =
    pick key mark seen as ++ pick key mark seen' bs := by
  induction as generalizing seen with
  | nil => exact ⟨seen, rfl⟩
  | cons x as ih =>
    by_cases hx : key x ∈ seen
    · simpa only [List.cons_append, pick, if_pos hx] using ih
    · simpa only [List.cons_append, pick, if_neg hx, List.cons_inj_right] using ih

/-- Every element is kept or comes after a kept one with its key, unless the mark comes later than in
first place. -/
theorem kept_or_before_iff : (∀ cs a, cs ++ [a] <+: as →
      a ∈ pick key mark [] (cs ++ [a]) ∨ key a ∈ (pick key mark [] cs).map key) ↔
    (mark ∈ as.map key → as.head?.map key = some mark) := by
  rw [← keys_kept_iff]
  constructor
  · intro h a ha
    obtain ⟨cs, bs, rfl⟩ := List.append_of_mem ha
    have hsplit : cs ++ a :: bs = cs ++ [a] ++ bs := by simp
    rcases h cs a ⟨bs, hsplit.symm⟩ with hkept | hbefore
    · obtain ⟨seen', hseen'⟩ := @pick_append _ _ _ key mark [] (cs ++ [a]) bs
      rw [hsplit, hseen', List.map_append]
      exact List.mem_append_left _ (List.mem_map_of_mem hkept)
    · obtain ⟨seen', hseen'⟩ := @pick_append _ _ _ key mark [] cs (a :: bs)
      rw [hseen', List.map_append]
      exact List.mem_append_left _ hbefore
  · intro h cs a hpre
    have hhead : as.head? = (cs ++ [a]).head? := by
      obtain ⟨bs, rfl⟩ := hpre
      cases cs <;> rfl
    have hmark : mark ∈ (cs ++ [a]).map key → (cs ++ [a]).head?.map key = some mark := by
      intro hmem
      rw [← hhead]
      apply keys_kept_iff.mp h
      exact List.map_subset key hpre.subset hmem
    have hkey := keys_kept_iff.mpr hmark a (by simp)
    obtain ⟨seen', hseen'⟩ := @pick_append _ _ _ key mark [] cs [a]
    rw [hseen', List.map_append] at hkey
    rcases List.mem_append.mp hkey with hbefore | hlast
    · exact .inr hbefore
    · obtain ⟨x, hx, -⟩ := List.mem_map.mp hlast
      left
      rw [hseen']
      apply List.mem_append_right
      rwa [List.mem_singleton.mp (mem_of_pick hx)] at hx

/-- Keys that do not occur need not be remembered. -/
theorem pick_congr {seen' : List β} (h : ∀ a ∈ as, key a ∈ seen ↔ key a ∈ seen') :
    pick key mark seen as = pick key mark seen' as := by
  induction as generalizing seen seen' with
  | nil => rfl
  | cons x as ih =>
    have htail : ∀ a ∈ as, key a ∈ seen ↔ key a ∈ seen' := fun a ha => h a (List.mem_cons_of_mem _ ha)
    unfold pick
    by_cases hx : key x ∈ seen
    · rw [if_pos hx, if_pos ((h x List.mem_cons_self).mp hx), ih htail]
    · rw [if_neg hx, if_neg fun hx' => hx ((h x List.mem_cons_self).mpr hx')]
      congr 1
      apply ih
      intro a ha
      simp only [List.mem_cons, htail a ha]

theorem pick_eq_nil (h : pick key mark [] as = []) : as = [] := by
  cases as with
  | nil => rfl
  | cons x as => simp [pick] at h

end OsSessional.Firsts
