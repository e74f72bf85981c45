import Mathlib.Data.List.TakeWhile
import OsSessional.Lib.Circle
import OsSessional.Userland.Alloc

/-!
# The free list

In memory the free blocks are a circle from `base` through the spans of a sorted list that do not
touch each other. `free` joins a block to its neighbours and `malloc` cuts blocks off, and both
loops come to an end on such a list.
-/

namespace OsSessional.Userland

open Spans
open Function (update update_self update_of_ne)

namespace Heap

variable {h : Heap} {base bp p q u n : Nat} {l pre post : List (Nat × Nat)}

/-- The free blocks of a heap. -/
structure Lists (base : Nat) (h : Heap) (l : List (Nat × Nat)) : Prop where
  path : Path h.next base (l.map Prod.fst) base
  sizes : ∀ s ∈ l, (h.mem s.1).size = s.2
  zero : (h.mem base).size = 0
  apart : Apart l
  above : ∀ s ∈ l, base < s.1

/-- The nodes of the list. -/
abbrev nodes (base : Nat) (l : List (Nat × Nat)) : List Nat := base :: l.map Prod.fst

theorem mem_nodes : q ∈ nodes base l ↔ q = base ∨ ∃ s ∈ l, s.1 = q := by
  rw [nodes, List.mem_cons, List.mem_map]

namespace Lists

variable (hl : Lists base h l)
include hl

private theorem increasing : (nodes base l).Pairwise (· < ·) := by
  rw [nodes, List.pairwise_cons]
  constructor
  · intro a ha
    rcases List.mem_map.mp ha with ⟨s, hs, rfl⟩
    exact hl.above s hs
  · apply List.pairwise_map.mpr
    exact hl.apart.gaps.imp fun hgap => by omega

/-- Only the nodes matter. -/
theorem congr {h' : Heap} (hmem : ∀ u ∈ nodes base l, h'.mem u = h.mem u) : Lists base h' l where
  path := hl.path.congr fun u hu => congrArg Header.ptr (hmem u hu)
  sizes := fun s hs => by rw [hmem s.1 (mem_nodes.mpr (Or.inr ⟨s, hs, rfl⟩)), hl.sizes s hs]
  zero := by rw [hmem base List.mem_cons_self, hl.zero]
  apart := hl.apart
  above := hl.above

theorem nodup : (nodes base l).Nodup := hl.increasing.imp fun hlt => Nat.ne_of_lt hlt

end Lists

/-- Where the loop of `free` stops. -/
def Stops (h : Heap) (bp q : Nat) : Prop :=
  q < bp ∧ bp < h.next q ∨ h.next q ≤ q ∧ (q < bp ∨ bp < h.next q)

private theorem place_stops (hl : Lists base h l) (hp : p ∈ nodes base l) {fuel : Nat}
    (hplace : h.place bp fuel p = some q) : q ∈ nodes base l ∧ h.Stops bp q := by
  induction fuel generalizing p with
  | zero => cases hplace
  | succ fuel ih =>
    rw [place] at hplace
    split at hplace
    · next hstop =>
      cases hplace
      exact ⟨hp, Or.inl hstop⟩
    · split at hplace
      · next hstop =>
        cases hplace
        exact ⟨hp, Or.inr hstop⟩
      · exact ih (hl.path.next_mem hp) hplace

private theorem place_returns {k : Nat} (hstop : h.Stops bp (h.next^[k] p)) {fuel : Nat} (hfuel : k < fuel) :
    ∃ q, h.place bp fuel p = some q := by
  induction k generalizing p fuel with
  | zero =>
    rcases Nat.exists_eq_add_of_lt hfuel with ⟨fuel, rfl⟩
    rw [place]
    rcases hstop with hstop | hstop
    · exact ⟨p, if_pos hstop⟩
    · rw [if_pos (show h.next p ≤ p ∧ (p < bp ∨ bp < h.next p) from hstop)]
      exact ⟨p, ite_self _⟩
  | succ k ih =>
    cases fuel with
    | zero => cases hfuel
    | succ fuel =>
      rw [Function.iterate_succ_apply] at hstop
      rw [place]
      split
      · exact ⟨p, rfl⟩
      · split
        · exact ⟨p, rfl⟩
        · exact ih hstop (Nat.lt_of_succ_lt_succ hfuel)

/-- The node behind the blocks `pre`. -/
abbrev behind (base : Nat) (pre : List (Nat × Nat)) : Nat := Path.final base (pre.map Prod.fst)

private theorem behind_append (s : Nat × Nat) : behind base (pre ++ [s]) = s.1 := by
  rw [behind, List.map_append]
  exact Path.final_append

theorem nodes_split (hq : q ∈ nodes base l) : ∃ pre post, l = pre ++ post ∧ q = behind base pre := by
  rcases mem_nodes.mp hq with rfl | ⟨s, hs, rfl⟩
  · exact ⟨[], l, rfl, rfl⟩
  · rcases List.append_of_mem hs with ⟨pre, post, rfl⟩
    refine ⟨pre ++ [s], post, ?_, (behind_append s).symm⟩
    rw [List.append_assoc]
    rfl

theorem behind_mem : behind base pre ∈ nodes base (pre ++ post) := by
  rw [nodes, List.map_append, ← List.cons_append]
  exact List.mem_append_left _ Path.final_mem

namespace Lists

theorem next_behind (hl : Lists base h (pre ++ post)) :
    h.next (behind base pre) = Path.first base (post.map Prod.fst) := by
  have hpath := hl.path
  rw [List.map_append, Path.parts] at hpath
  exact hpath.1.next_final

private theorem le_behind (hl : Lists base h (pre ++ post)) {s : Nat × Nat} (hs : s ∈ pre) :
    s.1 ≤ behind base pre := by
  rcases List.eq_nil_or_concat' pre with rfl | ⟨before, last, rfl⟩
  · cases hs
  · rw [behind_append]
    rcases List.mem_append.mp hs with hs | hs
    · have hgaps := (List.pairwise_append.mp hl.apart.left.gaps).2.2
      have hgap := hgaps s hs last List.mem_cons_self
      omega
    · rw [List.mem_singleton.mp hs]

private theorem base_le_behind (hl : Lists base h (pre ++ post)) : base ≤ behind base pre := by
  rcases List.eq_nil_or_concat' pre with rfl | ⟨before, last, rfl⟩
  · exact Nat.le_refl _
  · rw [behind_append]
    exact Nat.le_of_lt (hl.above last (by simp))

theorem behind_lt (hl : Lists base h (pre ++ post)) {t : Nat × Nat} (ht : t ∈ post) :
    behind base pre < t.1 := by
  rcases List.eq_nil_or_concat' pre with rfl | ⟨before, last, rfl⟩
  · exact hl.above t ht
  · rw [behind_append]
    have hgaps := (List.pairwise_append.mp hl.apart.gaps).2.2
    have hgap := hgaps last (by simp) t ht
    omega

private theorem split_of_stops (hl : Lists base h l) (hq : q ∈ nodes base l) (hstop : h.Stops bp q)
    (hbp : base < bp) : ∃ pre post, l = pre ++ post ∧ q = behind base pre ∧
      (∀ s ∈ pre, s.1 < bp) ∧ ∀ t ∈ post, bp < t.1 := by
  rcases nodes_split hq with ⟨pre, post, rfl, rfl⟩
  have hnext := hl.next_behind
  refine ⟨pre, post, rfl, rfl, ?_⟩
  cases post with
  | nil =>
    have hbase : h.next (behind base pre) = base := hnext
    rw [Stops, hbase] at hstop
    refine ⟨fun s hs => ?_, fun t ht => by cases ht⟩
    have hle := hl.le_behind hs
    omega
  | cons t post =>
    have hfirst : h.next (behind base pre) = t.1 := hnext
    have hlt := hl.behind_lt (t := t) List.mem_cons_self
    rw [Stops, hfirst] at hstop
    refine ⟨fun s hs => ?_, fun u hu => ?_⟩
    · have hle := hl.le_behind hs
      omega
    · rcases List.mem_cons.mp hu with rfl | hu
      · omega
      · have hgap := (List.pairwise_cons.mp hl.apart.right.gaps).1 u hu
        omega

private theorem exists_stops (hl : Lists base h l) (hbp : base < bp) (hnew : ∀ s ∈ l, s.1 ≠ bp) :
    ∃ q ∈ nodes base l, h.Stops bp q := by
  have hsplit : l.takeWhile (·.1 < bp) ++ l.dropWhile (·.1 < bp) = l := List.takeWhile_append_dropWhile
  have hlow : ∀ s ∈ l.takeWhile (·.1 < bp), s.1 < bp := by
    intro s hs
    simpa using List.mem_takeWhile_imp hs
  have hhigh : ∀ t, (l.dropWhile (·.1 < bp)).head? = some t → bp ≤ t.1 := by
    intro t ht
    simpa [ht] using List.head?_dropWhile_not (fun s : Nat × Nat => decide (s.1 < bp)) l
  generalize l.takeWhile (·.1 < bp) = pre at hsplit hlow
  generalize l.dropWhile (·.1 < bp) = post at hsplit hhigh
  subst hsplit
  have hbelow : behind base pre < bp := by
    rcases List.eq_nil_or_concat' pre with rfl | ⟨before, last, rfl⟩
    · exact hbp
    · rw [behind_append]
      exact hlow last (by simp)
  have hnext := hl.next_behind
  refine ⟨behind base pre, behind_mem, ?_⟩
  cases post with
  | nil =>
    have hbase : h.next (behind base pre) = base := hnext
    have hle := hl.base_le_behind
    rw [Stops, hbase]
    exact Or.inr ⟨hle, Or.inl hbelow⟩
  | cons t post =>
    have hfirst : h.next (behind base pre) = t.1 := hnext
    have hle := hhigh t rfl
    have hne := hnew t (by simp)
    rw [Stops, hfirst]
    exact Or.inl ⟨hbelow, by omega⟩

end Lists

theorem lists_insert {a k : Nat} (hbelow : Path h.next base (pre.map Prod.fst) a)
    (habove : Path h.next a (post.map Prod.fst) base) (hapart : Apart (pre ++ (a, k) :: post))
    (hbase : base < a) (hrest : ∀ s ∈ pre ++ post, base < s.1)
    (hsizes : ∀ s ∈ pre ++ post, (h.mem s.1).size = s.2) (hsize : (h.mem a).size = k)
    (hzero : (h.mem base).size = 0) : Lists base h (pre ++ (a, k) :: post) where
  path := by
    rw [List.map_append, List.map_cons, Path.append]
    exact ⟨hbelow, habove⟩
  sizes := by
    intro s hs
    rw [List.mem_append, List.mem_cons] at hs
    rcases hs with hs | rfl | hs
    · exact hsizes s (List.mem_append_left post hs)
    · exact hsize
    · exact hsizes s (List.mem_append_right pre hs)
  zero := hzero
  apart := hapart
  above := by
    intro s hs
    rw [List.mem_append, List.mem_cons] at hs
    rcases hs with hs | rfl | hs
    · exact hrest s (List.mem_append_left post hs)
    · exact hbase
    · exact hrest s (List.mem_append_right pre hs)

/-- A block that is not in the list, with the place for it. -/
structure Placed (base : Nat) (h : Heap) (pre post : List (Nat × Nat)) (bp n : Nat) : Prop where
  lists : Lists base h (pre ++ post)
  size : (h.mem bp).size = n
  pos : 0 < n
  above : base < bp
  low : ∀ s ∈ pre, s.1 + s.2 ≤ bp
  high : ∀ t ∈ post, bp + n ≤ t.1

/-- The block after it was joined to the upper neighbour, with `post` above it. -/
structure Upper (base : Nat) (h : Heap) (post : List (Nat × Nat)) (bp n : Nat) : Prop where
  path : Path h.next bp (post.map Prod.fst) base
  size : (h.mem bp).size = n
  pos : 0 < n
  gap : ∀ t ∈ post, bp + n < t.1

namespace Placed

variable (hp : Placed base h pre post bp n)
include hp

private theorem behind_lt : behind base pre < bp := by
  rcases List.eq_nil_or_concat' pre with rfl | ⟨before, last, rfl⟩
  · exact hp.above
  · rw [behind_append]
    have hlow := hp.low last (by simp)
    have hpos := hp.lists.apart.pos last (by simp)
    omega

private theorem low_lt (htouch : ¬ behind base pre + (h.mem (behind base pre)).size = bp) :
    ∀ s ∈ pre, s.1 + s.2 < bp := by
  intro s hs
  have hle := hp.low s hs
  rcases List.eq_nil_or_concat' pre with rfl | ⟨before, last, rfl⟩
  · cases hs
  · have hsize := hp.lists.sizes last (by simp)
    rw [behind_append, hsize] at htouch
    rcases List.mem_append.mp hs with hs | hs
    · have hgap := (List.pairwise_append.mp hp.lists.apart.left.gaps).2.2 s hs last (by simp)
      have hlast := hp.low last (by simp)
      omega
    · rw [List.mem_singleton.mp hs] at hle ⊢
      omega

private theorem joinUpper : ∃ post' n', Upper base (h.joinUpper bp (behind base pre)) post' bp n' ∧
    post'.Sublist post ∧ span bp n ∪ covers post = span bp n' ∪ covers post' ∧
    ∀ u ≠ bp, (h.joinUpper bp (behind base pre)).mem u = h.mem u := by
  have hnext := hp.lists.next_behind
  have hpath := hp.lists.path
  rw [List.map_append, Path.parts] at hpath
  have hframe : ∀ u ≠ bp, (h.joinUpper bp (behind base pre)).mem u = h.mem u := by
    intro u hu
    unfold Heap.joinUpper
    split
    · exact h.mem_put_ne hu _
    · exact h.mem_put_ne hu _
  unfold Heap.joinUpper at hframe ⊢
  rw [hp.size] at hframe ⊢
  cases post with
  | nil =>
    have hbase : h.next (behind base pre) = base := hnext
    have habove := hp.above
    rw [hbase, if_neg (by omega)] at hframe ⊢
    have hupper : Upper base (h.put bp { h.mem bp with ptr := base }) [] bp n :=
      { path := h.next_put bp _
        size := by rw [mem_put, hp.size]
        pos := hp.pos
        gap := fun t ht => by cases ht }
    exact ⟨[], n, hupper, List.Sublist.refl _, rfl, hframe⟩
  | cons t post =>
    have hfirst : h.next (behind base pre) = t.1 := hnext
    have hrest : Path h.next t.1 (post.map Prod.fst) base := hpath.2.2
    have hhigh := hp.high t List.mem_cons_self
    have hpos := hp.pos
    have hgaps := List.pairwise_cons.mp hp.lists.apart.right.gaps
    have hnew : ∀ y ∈ post.map Prod.fst, ∀ x, (h.put bp x).next y = h.next y := by
      intro y hy x
      rcases List.mem_map.mp hy with ⟨s, hs, rfl⟩
      have hgap := hgaps.1 s hs
      exact h.next_put_ne (by omega) x
    rw [hfirst] at hframe ⊢
    by_cases htouch : bp + n = t.1
    · rw [if_pos htouch] at hframe ⊢
      have hsize := hp.lists.sizes t (by simp)
      rw [hsize] at hframe ⊢
      have hupper : Upper base (h.put bp ⟨h.next t.1, n + t.2⟩) post bp (n + t.2) :=
        { path := hrest.move (h.next_put bp _) fun y hy => hnew y hy _
          size := by rw [mem_put]
          pos := by omega
          gap := fun s hs => by have hgap := hgaps.1 s hs; omega }
      have hcover : span bp n ∪ covers (t :: post) = span bp (n + t.2) ∪ covers post := by
        rw [covers_cons, ← htouch, ← Set.union_assoc, span_union]
      exact ⟨post, n + t.2, hupper, List.sublist_cons_self t post, hcover, hframe⟩
    · rw [if_neg htouch] at hframe ⊢
      have hne : t.1 ≠ bp := by omega
      have hupper : Upper base (h.put bp { h.mem bp with ptr := t.1 }) (t :: post) bp n :=
        { path := by
            refine ⟨h.next_put bp _, hrest.move (h.next_put_ne hne _) fun y hy => hnew y hy _⟩
          size := by rw [mem_put, hp.size]
          pos := hp.pos
          gap := by
            intro s hs
            rcases List.mem_cons.mp hs with rfl | hs
            · omega
            · have hgap := hgaps.1 s hs
              omega }
      exact ⟨t :: post, n, hupper, List.Sublist.refl _, rfl, hframe⟩

end Placed

section Lower

variable {h₁ : Heap} {post₁ : List (Nat × Nat)} {m : Nat}

private theorem Placed.joinLower (hp : Placed base h pre post bp n) (hu : Upper base h₁ post₁ bp m)
    (hsub : post₁.Sublist post) (hframe : ∀ u ≠ bp, h₁.mem u = h.mem u) :
    ∃ l, Lists base (h₁.joinLower bp (behind base pre)) l ∧ behind base pre ∈ nodes base l ∧
      covers l = covers pre ∪ (span bp m ∪ covers post₁) ∧
      l.length ≤ pre.length + post.length + 1 ∧
      ∀ u ≠ bp, u ≠ behind base pre → (h₁.joinLower bp (behind base pre)).mem u = h.mem u := by
  have hlt := hp.behind_lt
  have hpath := hp.lists.path
  rw [List.map_append, Path.parts] at hpath
  have hnodup : (base :: pre.map Prod.fst).Nodup := by
    have hall := hp.lists.nodup
    rw [nodes, List.map_append, ← List.cons_append] at hall
    exact hall.sublist (List.sublist_append_left _ _)
  have hapart : Apart (pre ++ post₁) := hp.lists.apart.sublist (hsub.append_left pre)
  have habove : ∀ t ∈ post₁, bp < t.1 := by
    intro t ht
    have hgap := hu.gap t ht
    omega
  -- the links below `bp` are as they were
  have hbelow : Path h₁.next base (pre.map Prod.fst) (Path.first base (post.map Prod.fst)) := by
    apply hpath.1.congr
    intro y hy
    have hne : y ≠ bp := by
      rcases mem_nodes.mp hy with rfl | ⟨s, hs, rfl⟩
      · exact Nat.ne_of_lt hp.above
      · have hle := hp.lists.le_behind hs
        omega
    exact congrArg Header.ptr (hframe y hne)
  have hkept : ∀ x, ∀ u ≠ bp, u ≠ behind base pre → (h₁.put (behind base pre) x).mem u = h.mem u := by
    intro x u hbp hne
    exact (h₁.mem_put_ne hne x).trans (hframe u hbp)
  have hrest : ∀ x, ∀ y ∈ post₁.map Prod.fst, (h₁.put (behind base pre) x).next y = h₁.next y := by
    intro x y hy
    rcases List.mem_map.mp hy with ⟨t, ht, rfl⟩
    have hy := habove t ht
    exact h₁.next_put_ne (by omega) x
  have hsizes : ∀ x, ∀ t ∈ pre ++ post₁, t.1 ≠ behind base pre →
      ((h₁.put (behind base pre) x).mem t.1).size = t.2 := by
    intro x t ht hne
    have hmem : t ∈ pre ++ post := (hsub.append_left pre).subset ht
    have hbp : t.1 ≠ bp := by
      rcases List.mem_append.mp ht with ht | ht
      · have hle := hp.lists.le_behind ht
        omega
      · exact Nat.ne_of_gt (habove t ht)
    rw [hkept x t.1 hbp hne]
    exact hp.lists.sizes t hmem
  have hmember : ∀ s ∈ pre ++ post₁, base < s.1 := by
    intro s hs
    exact hp.lists.above s ((hsub.append_left pre).subset hs)
  have hupper := hu.gap
  have hlength := hsub.length_le
  unfold Heap.joinLower
  rw [hframe _ (Nat.ne_of_lt hlt), hu.size]
  by_cases htouch : behind base pre + (h.mem (behind base pre)).size = bp
  · rw [if_pos htouch]
    rcases List.eq_nil_or_concat' pre with rfl | ⟨before, s, rfl⟩
    · -- `base` has no size
      have hzero := hp.lists.zero
      have hbase : base + (h.mem base).size = bp := htouch
      have habove := hp.above
      omega
    · rw [behind_append] at *
      have hs : s ∈ before ++ [s] := List.mem_append_right before List.mem_cons_self
      rw [hp.lists.sizes s (List.mem_append_left post hs)] at htouch ⊢
      rw [List.map_append, List.map_singleton, ← List.cons_append] at hnodup
      rw [List.map_append, List.map_singleton, Path.append] at hbelow
      have hother : ∀ y ∈ base :: before.map Prod.fst, y ≠ s.1 := fun y hy =>
        (List.nodup_append.mp hnodup).2.2 y hy s.1 List.mem_cons_self
      have hgaps := (List.pairwise_append.mp hapart.left.gaps).2.2
      have hsub₁ : (before ++ post₁).Sublist (before ++ [s] ++ post₁) :=
        (List.sublist_append_left before [s]).append_right post₁
      have hpos := hu.pos
      have hjoined : Apart (before ++ (s.1, s.2 + m) :: post₁) := by
        apply (hapart.sublist hsub₁).insert (by omega)
        · exact fun t ht => hgaps t ht s List.mem_cons_self
        · intro t ht
          have hgap := hupper t ht
          omega
      have hpost : Path (h₁.put s.1 ⟨h₁.next bp, s.2 + m⟩).next s.1 (post₁.map Prod.fst) base :=
        hu.path.move (h₁.next_put s.1 _) (hrest _)
      refine ⟨before ++ (s.1, s.2 + m) :: post₁, ?_, ?_, ?_, ?_, hkept _⟩
      · apply lists_insert _ hpost hjoined
          (hp.lists.above s (List.mem_append_left post hs)) fun t ht => hmember t (hsub₁.subset ht)
        · intro t ht
          apply hsizes _ t (hsub₁.subset ht)
          rcases List.mem_append.mp ht with ht | ht
          · exact hother t.1 (List.mem_cons_of_mem base (List.mem_map_of_mem ht))
          · have habove := habove t ht
            omega
        · rw [mem_put]
        · rw [hkept _ base (Nat.ne_of_lt hp.above) (hother base List.mem_cons_self)]
          exact hp.lists.zero
        · exact hbelow.1.congr fun y hy => h₁.next_put_ne (hother y hy) _
      · exact mem_nodes.mpr (Or.inr ⟨(s.1, s.2 + m), by simp, rfl⟩)
      · rw [covers_append, covers_cons, covers_append, covers_cons, covers_nil, ← span_union, htouch]
        simp only [Set.union_assoc, Set.empty_union]
      · rw [List.length_append, List.length_append, List.length_cons]
        omega
  · rw [if_neg htouch]
    have hsame : ∀ u ≠ bp,
        ((h₁.put (behind base pre) { h.mem (behind base pre) with ptr := bp }).mem u).size =
          (h.mem u).size := by
      intro u hbp
      by_cases hu : u = behind base pre
      · rw [hu, mem_put]
      · rw [hkept _ u hbp hu]
    have hcount : (pre ++ (bp, m) :: post₁).length ≤ pre.length + post.length + 1 := by
      rw [List.length_append, List.length_cons]
      omega
    refine ⟨pre ++ (bp, m) :: post₁, ?_, behind_mem, by rw [covers_append, covers_cons], hcount,
      hkept _⟩
    apply lists_insert _ _ (hapart.insert hu.pos (hp.low_lt htouch) hupper) hp.above hmember
    · intro s hs
      have hbp : s.1 ≠ bp := by
        rcases List.mem_append.mp hs with hs | hs
        · have hle := hp.lists.le_behind hs
          omega
        · exact Nat.ne_of_gt (habove s hs)
      rw [hsame s.1 hbp]
      exact hp.lists.sizes s ((hsub.append_left pre).subset hs)
    · rw [h₁.mem_put_ne (Nat.ne_of_gt hlt), hu.size]
    · rw [hsame base (Nat.ne_of_lt hp.above)]
      exact hp.lists.zero
    · rw [next_put_update]
      exact hbelow.relink hnodup bp
    · exact hu.path.move (h₁.next_put_ne (Nat.ne_of_gt hlt) _) (hrest _)

end Lower

/-- The list with `freep` at one of its nodes. -/
structure Ready (base : Nat) (h : Heap) (l : List (Nat × Nat)) : Prop where
  lists : Lists base h l
  freep : ∃ p ∈ nodes base l, h.freep = some p

/-- Nothing but `bp` and the nodes of the list is written. -/
def Frame (base bp : Nat) (l : List (Nat × Nat)) (h h' : Heap) : Prop :=
  ∀ u ≠ bp, u ∉ nodes base l → h'.mem u = h.mem u

section Free

variable (hr : Ready base h l) (hsize : (h.mem bp).size = n) (hpos : 0 < n) (hbp : base < bp)
  (hnew : Disjoint (span bp n) (covers l))
include hr hsize hpos hbp hnew

/-- `free` puts the block into the list. -/
theorem free_ready {fuel : Nat} {h' : Heap} (hfree : h.free fuel (bp + 1) = some h') :
    ∃ l', Ready base h' l' ∧ covers l' = covers l ∪ span bp n ∧ l'.length ≤ l.length + 1 ∧
      h'.brk = h.brk ∧ Frame base bp l h h' := by
  rcases hr.freep with ⟨p, hp, hfreep⟩
  have hnever : ∀ u, u ∈ span bp n → ∀ s ∈ l, u ∉ span s.1 s.2 := fun u hu s hs hin =>
    Set.disjoint_left.mp hnew hu (mem_covers hs hin)
  rw [free, hfreep] at hfree
  simp only [Nat.add_sub_cancel] at hfree
  split at hfree
  · cases hfree
  next q hplace =>
  cases hfree
  rcases place_stops hr.lists hp hplace with ⟨hq, hstop⟩
  rcases hr.lists.split_of_stops hq hstop hbp with ⟨pre, post, rfl, rfl, hlow, hhigh⟩
  have hplaced : Placed base h pre post bp n :=
    { lists := hr.lists
      size := hsize
      pos := hpos
      above := hbp
      low := by
        intro s hs
        have hlt := hlow s hs
        by_contra hover
        exact hnever bp ⟨Nat.le_refl bp, by omega⟩ s (List.mem_append_left post hs)
          ⟨Nat.le_of_lt hlt, by omega⟩
      high := by
        intro t ht
        have hlt := hhigh t ht
        have hsome := hr.lists.apart.pos t (List.mem_append_right pre ht)
        by_contra hover
        exact hnever t.1 ⟨Nat.le_of_lt hlt, by omega⟩ t (List.mem_append_right pre ht)
          ⟨Nat.le_refl t.1, by omega⟩ }
  rcases hplaced.joinUpper with ⟨post₁, m, hupper, hsub, hcover, hframe⟩
  rcases hplaced.joinLower hupper hsub hframe with ⟨l', hl', hmem, hcover', hlength, hframe'⟩
  refine ⟨l', ⟨hl'.congr fun u _ => rfl, _, hmem, rfl⟩, ?_, ?_, ?_, ?_⟩
  · rw [hcover', ← hcover, covers_append, Set.union_assoc, Set.union_comm (covers post)]
  · rw [List.length_append]
    exact hlength
  · rw [joinLower_brk, joinUpper_brk]
  · intro u hu hnode
    exact hframe' u hu fun heq => hnode (heq ▸ behind_mem)

omit hsize in
theorem free_returns {fuel : Nat} (hfuel : l.length < fuel) : ∃ h', h.free fuel (bp + 1) = some h' := by
  rcases hr.freep with ⟨p, hp, hfreep⟩
  have hother : ∀ s ∈ l, s.1 ≠ bp := by
    intro s hs heq
    have hsome := hr.lists.apart.pos s hs
    exact Set.disjoint_left.mp hnew ⟨Nat.le_refl bp, by omega⟩
      (mem_covers hs ⟨by omega, by omega⟩)
  rcases hr.lists.exists_stops hbp hother with ⟨q, hq, hstop⟩
  rcases hr.lists.path.reach hp hq with ⟨k, hk, rfl⟩
  rw [List.length_map] at hk
  rcases place_returns hstop (Nat.lt_of_le_of_lt hk hfuel) with ⟨q, hplace⟩
  rw [free, hfreep]
  simp only [Nat.add_sub_cancel, hplace]
  exact ⟨_, rfl⟩

end Free

end Heap

end OsSessional.Userland
