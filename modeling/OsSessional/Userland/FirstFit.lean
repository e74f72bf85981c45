import OsSessional.Userland.FreeList

/-!
# First fit

The loop of `malloc` goes once round the free list. It cuts its block off the first one that is large
enough; where there is none it asks the kernel for more, and then finds it.
-/

namespace OsSessional.Userland

open Spans

namespace Heap

variable {h h' : Heap} {base bp p q u n nunits : Nat} {l pre post : List (Nat × Nat)}

private theorem size_put (q u x : Nat) :
    ((h.put q { h.mem q with ptr := x }).mem u).size = (h.mem u).size := by
  by_cases hu : u = q
  · rw [hu, mem_put]
  · rw [h.mem_put_ne hu]

private theorem next_put_size (q x : Nat) : (h.put q { h.mem q with size := x }).next = h.next := by
  funext u
  by_cases hu : u = q
  · rw [hu, next_put]
    rfl
  · rw [h.next_put_ne hu]

/-- A block of `nunits` at `a` cut off the free list. -/
structure Cut (base : Nat) (h h' : Heap) (l l' : List (Nat × Nat)) (a nunits : Nat) : Prop where
  ready : Ready base h' l'
  cover : covers l' ∪ span a nunits = covers l
  apart : Disjoint (span a nunits) (covers l')
  size : (h'.mem a).size = nunits
  brk : h'.brk = h.brk
  frame : Frame base a l h h'

private theorem unlink {s : Nat × Nat} (hl : Lists base h (pre ++ s :: post)) :
    Cut base h { h.put (behind base pre) { h.mem (behind base pre) with ptr := h.next s.1 } with
      freep := some (behind base pre) } (pre ++ s :: post) (pre ++ post) s.1 s.2 := by
  have hpath := hl.path
  have hs : s ∈ pre ++ s :: post := List.mem_append_right pre List.mem_cons_self
  have hsub : (pre ++ post).Sublist (pre ++ s :: post) :=
    (List.sublist_cons_self s post).append_left pre
  have hnodup : (base :: pre.map Prod.fst).Nodup := by
    have hall := hl.nodup
    rw [nodes, List.map_append, ← List.cons_append] at hall
    exact hall.sublist (List.sublist_append_left _ _)
  have hlt : ∀ t ∈ s :: post, behind base pre < t.1 := fun t ht => hl.behind_lt ht
  rw [List.map_append, Path.parts] at hpath
  have hbelow : Path h.next base (pre.map Prod.fst) s.1 := hpath.1
  have hrest : Path h.next s.1 (post.map Prod.fst) base := hpath.2.2
  have hlists : Lists base
      (h.put (behind base pre) { h.mem (behind base pre) with ptr := h.next s.1 }) (pre ++ post) :=
    { path := by
        rw [List.map_append, Path.parts, next_put_update, hrest.next_first]
        refine ⟨hbelow.relink hnodup _, ?_⟩
        rw [← hrest.next_first, ← next_put_update h (behind base pre)
          { h.mem (behind base pre) with ptr := h.next s.1 }]
        apply hrest.move
          (h.next_put (behind base pre) { h.mem (behind base pre) with ptr := h.next s.1 })
        intro y hy
        rcases List.mem_map.mp hy with ⟨t, ht, rfl⟩
        exact h.next_put_ne (Nat.ne_of_gt (hlt t (List.mem_cons_of_mem s ht))) _
      sizes := fun t ht => (size_put _ _ _).trans (hl.sizes t (hsub.subset ht))
      zero := (size_put _ _ _).trans hl.zero
      apart := hl.apart.sublist hsub
      above := fun t ht => hl.above t (hsub.subset ht) }
  constructor
  · exact ⟨hlists.congr fun u _ => rfl, _, behind_mem, rfl⟩
  · rw [covers_middle, Set.union_comm]
  · exact hl.apart.disjoint
  · exact (size_put _ _ _).trans (hl.sizes s hs)
  · rfl
  · intro u _ hnode
    exact h.mem_put_ne (fun heq : u = behind base pre => hnode (heq ▸ behind_mem)) _

private theorem shrink {s : Nat × Nat} (hl : Lists base h (pre ++ s :: post)) (hpos : 0 < nunits)
    (hsize : nunits < s.2) :
    Cut base h { ((h.put s.1 { h.mem s.1 with size := s.2 - nunits }).put (s.1 + (s.2 - nunits))
      { (h.put s.1 { h.mem s.1 with size := s.2 - nunits }).mem (s.1 + (s.2 - nunits)) with
        size := nunits }) with freep := some (behind base pre) } (pre ++ s :: post)
      (pre ++ (s.1, s.2 - nunits) :: post) (s.1 + (s.2 - nunits)) nunits := by
  have hs : s ∈ pre ++ s :: post := List.mem_append_right pre List.mem_cons_self
  have hsub : (pre ++ post).Sublist (pre ++ s :: post) :=
    (List.sublist_cons_self s post).append_left pre
  have hparts := List.pairwise_append.mp hl.apart.gaps
  have habove := (List.pairwise_cons.mp hparts.2.1).1
  have hbase := hl.above s hs
  -- the header of the new block lies inside the old one
  have hnode : s.1 + (s.2 - nunits) ∉ nodes base (pre ++ s :: post) := by
    intro hmem
    rcases mem_nodes.mp hmem with heq | ⟨t, ht, heq⟩
    · omega
    · rw [List.mem_append, List.mem_cons] at ht
      rcases ht with ht | rfl | ht
      · have hgap := hparts.2.2 t ht s List.mem_cons_self
        omega
      · omega
      · have hgap := habove t ht
        omega
  have hother : ∀ t ∈ pre ++ post, t.1 ≠ s.1 := by
    intro t ht
    rcases List.mem_append.mp ht with ht | ht
    · have hgap := hparts.2.2 t ht s List.mem_cons_self
      omega
    · have hgap := habove t ht
      omega
  have hkept : ∀ x y, ∀ u ≠ s.1, u ≠ s.1 + (s.2 - nunits) →
      ((h.put s.1 x).put (s.1 + (s.2 - nunits)) y).mem u = h.mem u := by
    intro x y u hu hu'
    rw [mem_put_ne _ hu', mem_put_ne _ hu]
  have hpath := hl.path
  rw [List.map_append, List.map_cons, Path.append] at hpath
  have hapart : Apart (pre ++ (s.1, s.2 - nunits) :: post) := by
    apply (hl.apart.sublist hsub).insert (by omega)
    · exact fun t ht => hparts.2.2 t ht s List.mem_cons_self
    · intro t ht
      have hgap := habove t ht
      omega
  have hinside : s.1 + (s.2 - nunits) ≠ s.1 := by omega
  have hlists : Lists base ((h.put s.1 { h.mem s.1 with size := s.2 - nunits }).put
      (s.1 + (s.2 - nunits))
      { (h.put s.1 { h.mem s.1 with size := s.2 - nunits }).mem (s.1 + (s.2 - nunits)) with
        size := nunits }) (pre ++ (s.1, s.2 - nunits) :: post) := by
    apply lists_insert _ _ hapart hbase fun t ht => hl.above t (hsub.subset ht)
    · intro t ht
      have hne : t.1 ≠ s.1 + (s.2 - nunits) := fun heq =>
        hnode (mem_nodes.mpr (Or.inr ⟨t, hsub.subset ht, heq⟩))
      rw [hkept _ _ t.1 (hother t ht) hne]
      exact hl.sizes t (hsub.subset ht)
    · rw [mem_put_ne _ hinside.symm, mem_put]
    · rw [hkept _ _ base (Nat.ne_of_lt hbase) (by omega)]
      exact hl.zero
    · rw [next_put_size, next_put_size]
      exact hpath.1
    · rw [next_put_size, next_put_size]
      exact hpath.2
  have hspan : span s.1 (s.2 - nunits) ∪ span (s.1 + (s.2 - nunits)) nunits = span s.1 s.2 := by
    rw [span_union, Nat.sub_add_cancel (Nat.le_of_lt hsize)]
  constructor
  · exact ⟨hlists.congr fun u _ => rfl, _, behind_mem, rfl⟩
  · rw [covers_middle, covers_middle, ← hspan, Set.union_right_comm]
  · rw [covers_middle, Set.disjoint_union_right]
    constructor
    · rw [Set.disjoint_left]
      exact fun u hu hu' => absurd hu'.2 (Nat.not_lt.mpr hu.1)
    · have hsubset : span (s.1 + (s.2 - nunits)) nunits ⊆ span s.1 s.2 :=
        hspan ▸ Set.subset_union_right
      exact hl.apart.disjoint.mono_left hsubset
  · rw [mem_put]
  · rfl
  · intro u hu hmem
    exact hkept _ _ u (fun heq => hmem (mem_nodes.mpr (Or.inr ⟨s, hs, heq.symm⟩))) hu

private theorem take_cut (hr : Ready base h l) (hprevp : q ∈ nodes base l) (hpos : 0 < nunits)
    (hsize : nunits ≤ (h.mem (h.next q)).size) : ∃ h' l' a,
      h.take nunits q (h.next q) = (h', a + 1) ∧ Cut base h h' l l' a nunits := by
  rcases nodes_split hprevp with ⟨pre, post, rfl, rfl⟩
  have hnext := hr.lists.next_behind
  cases post with
  | nil =>
    -- the next node is `base`, which has no size
    have hbase : h.next (behind base pre) = base := hnext
    have hzero := hr.lists.zero
    rw [hbase, hzero] at hsize
    omega
  | cons s post =>
    have hfirst : h.next (behind base pre) = s.1 := hnext
    have hs : s ∈ pre ++ s :: post := List.mem_append_right pre List.mem_cons_self
    rw [hfirst, hr.lists.sizes s hs] at hsize
    rw [hfirst, take, hr.lists.sizes s hs]
    by_cases heq : s.2 = nunits
    · rw [if_pos heq]
      subst heq
      exact ⟨_, pre ++ post, s.1, rfl, unlink hr.lists⟩
    · rw [if_neg heq]
      exact ⟨_, pre ++ (s.1, s.2 - nunits) :: post, s.1 + (s.2 - nunits), rfl,
        shrink hr.lists hpos (by omega)⟩

/-- The process is below `KERNBASE`, and so are `base` and the free blocks. -/
structure Below (base : Nat) (h : Heap) (l : List (Nat × Nat)) : Prop where
  room : headerSize * h.brk < 2 ^ 31
  base : base < h.brk
  blocks : ∀ u ∈ covers l, u < h.brk

theorem Lists.nodes_subset (hl : Lists base h l) (hu : u ∈ nodes base l) : u = base ∨ u ∈ covers l := by
  rcases mem_nodes.mp hu with rfl | ⟨s, hs, rfl⟩
  · exact Or.inl rfl
  · have hpos := hl.apart.pos s hs
    exact Or.inr (mem_covers hs ⟨Nat.le_refl _, by omega⟩)

/-- What is neither free nor new keeps its contents. -/
def Untouched (base : Nat) (h : Heap) (l : List (Nat × Nat)) (h' : Heap) : Prop :=
  ∀ u < h.brk, u ≠ base → u ∉ covers l → h'.mem u = h.mem u

/-- The kernel grants the growth. -/
def Granted (h : Heap) (grants : Bool) (nu : Nat) : Prop :=
  grants = true ∧ headerSize * (h.brk + request nu) < 2 ^ 31

private theorem request_pos (nu : Nat) : 0 < request nu ∧ nu ≤ request nu := by
  unfold request
  split
  · omega
  · omega

section Morecore

variable {grants : Bool} {nu : Nat} (hasks : headerSize * request nu < 2 ^ 31)
include hasks

private theorem sbrk_granted (hgrants : h.Granted grants nu) :
    h.sbrk grants (request nu * headerSize % 2 ^ 32) =
      some (h.brk, { h with brk := h.brk + request nu }) := by
  have hpos := (request_pos nu).1
  rcases hgrants with ⟨hyes, hroom⟩
  unfold headerSize at *
  have hmod : request nu * 8 % 2 ^ 32 = request nu * 8 := Nat.mod_eq_of_lt (by omega)
  have hnew : (8 * h.brk + request nu * 8) % 2 ^ 32 = 8 * (h.brk + request nu) := by omega
  have hdiv : 8 * (h.brk + request nu) / 8 = h.brk + request nu := by omega
  unfold sbrk headerSize
  rw [hmod]
  simp only [hnew]
  rw [if_neg (by omega), if_pos (by omega), if_pos ⟨hyes, hroom⟩, hdiv]

private theorem sbrk_refused (hrefuses : ¬ h.Granted grants nu) (hroom : headerSize * h.brk < 2 ^ 31) :
    h.sbrk grants (request nu * headerSize % 2 ^ 32) = none := by
  have hpos := (request_pos nu).1
  unfold Granted headerSize at *
  have hmod : request nu * 8 % 2 ^ 32 = request nu * 8 := Nat.mod_eq_of_lt (by omega)
  have hnew : (8 * h.brk + request nu * 8) % 2 ^ 32 = 8 * (h.brk + request nu) := by omega
  unfold sbrk headerSize
  rw [hmod]
  simp only [hnew]
  rw [if_neg (by omega), if_pos (by omega), if_neg hrefuses]

omit hasks in
private theorem new_block (hr : Ready base h l) (hb : Below base h l) (n : Nat) (x : Header) :
    Ready base (({ h with brk := h.brk + n } : Heap).put h.brk x) l ∧
      Disjoint (span h.brk n) (covers l) := by
  constructor
  · rcases hr.freep with ⟨p, hp, hfreep⟩
    refine ⟨hr.lists.congr fun u hu => mem_put_ne _ ?_ _, p, hp, hfreep⟩
    rcases hr.lists.nodes_subset hu with rfl | hu
    · exact Nat.ne_of_lt hb.base
    · exact Nat.ne_of_lt (hb.blocks u hu)
  · rw [Set.disjoint_left]
    exact fun u hu hu' => absurd (hb.blocks u hu') (Nat.not_lt.mpr hu.1)

/-- A growth goes to the free list. -/
structure Grown (base : Nat) (h h' : Heap) (l l' : List (Nat × Nat)) : Prop where
  ready : Ready base h' l'
  below : Below base h' l'
  more : h.brk ≤ h'.brk
  cover : covers l' = covers l ∪ Set.Ico h.brk h'.brk
  length : l'.length ≤ l.length + 1
  untouched : Untouched base h l h'

private theorem morecore_granted
    (hr : Ready base h l) (hb : Below base h l) (hgrants : h.Granted grants nu)
    {fuel : Nat} {r : Heap × Option Nat} (hcall : h.morecore fuel grants nu = some r) :
    ∃ l', Grown base h r.1 l l' ∧ r.1.brk = h.brk + request nu ∧ r.2 = r.1.freep := by
  have hpos := (request_pos nu).1
  rw [morecore, sbrk_granted hasks hgrants] at hcall
  rcases Option.map_eq_some_iff.mp hcall with ⟨h', hfree, rfl⟩
  rcases new_block hr hb (request nu) _ with ⟨hready, hapart⟩
  rcases free_ready hready (congrArg Header.size (mem_put _ _ _)) hpos hb.base hapart hfree with
    ⟨l', hr', hcover, hlength, hbrk, hframe⟩
  have hbrk' : h'.brk = h.brk + request nu := hbrk
  have hup : h.brk ≤ h'.brk := hbrk' ▸ Nat.le_add_right _ _
  refine ⟨l', ⟨hr', ⟨?_, ?_, ?_⟩, hup, ?_, hlength, ?_⟩, hbrk', rfl⟩
  · rw [hbrk']
    exact hgrants.2
  · exact Nat.lt_of_lt_of_le hb.base hup
  · intro u hu
    rw [hcover] at hu
    rcases hu with hu | hu
    · exact Nat.lt_of_lt_of_le (hb.blocks u hu) hup
    · exact hbrk' ▸ hu.2
  · rw [hcover, hbrk']
  · intro u hu hbase hfree
    have hnode : u ∉ nodes base l := by
      intro hmem
      rcases hr.lists.nodes_subset hmem with heq | hmem
      · exact hbase heq
      · exact hfree hmem
    exact (hframe u (Nat.ne_of_lt hu) hnode).trans (mem_put_ne _ (Nat.ne_of_lt hu) _)

private theorem morecore_refused (hrefuses : ¬ h.Granted grants nu) (hroom : headerSize * h.brk < 2 ^ 31)
    (fuel : Nat) : h.morecore fuel grants nu = some (h, none) := by
  rw [morecore, sbrk_refused hasks hrefuses hroom]

private theorem morecore_returns (hr : Ready base h l) (hb : Below base h l) {fuel : Nat}
    (hfuel : l.length < fuel) : ∃ r, h.morecore fuel grants nu = some r := by
  by_cases hgrants : h.Granted grants nu
  · rcases new_block hr hb (request nu)
      { h.mem h.brk with size := request nu } with ⟨hready, hapart⟩
    rcases free_returns hready (request_pos nu).1 hb.base hapart hfuel with ⟨h', hfree⟩
    rw [morecore, sbrk_granted hasks hgrants]
    exact ⟨(h', h'.freep), congrArg (Option.map _) hfree⟩
  · exact ⟨_, morecore_refused hasks hgrants hb.room fuel⟩

end Morecore

/-- What `malloc` returned, and the free list after it. -/
structure Served (base : Nat) (h h' : Heap) (l l' : List (Nat × Nat)) (nunits : Nat)
    (result : Option Nat) : Prop where
  ready : Ready base h' l'
  below : Below base h' l'
  more : h.brk ≤ h'.brk
  untouched : Untouched base h l h'
  null : result = none → covers l' = covers l ∪ Set.Ico h.brk h'.brk
  block : ∀ ap, result = some ap → ∃ a, ap = a + 1 ∧
    covers l' ∪ span a nunits = covers l ∪ Set.Ico h.brk h'.brk ∧
    Disjoint (span a nunits) (covers l') ∧ (h'.mem a).size = nunits

private theorem Served.same {result : Option Nat} (hr : Ready base h l) (hb : Below base h l)
    (hnull : result = none) : Served base h h l l nunits result where
  ready := hr
  below := hb
  more := Nat.le_refl _
  untouched := fun u _ _ _ => rfl
  null := fun _ => by rw [Set.Ico_self, Set.union_empty]
  block := fun ap hap => by rw [hnull] at hap; cases hap

private theorem Served.cut {l' : List (Nat × Nat)} {a : Nat} (hr : Ready base h l)
    (hb : Below base h l) (hpos : 0 < nunits) (hcut : Cut base h h' l l' a nunits) :
    Served base h h' l l' nunits (some (a + 1)) where
  ready := hcut.ready
  below :=
    { room := hcut.brk ▸ hb.room
      base := hcut.brk ▸ hb.base
      blocks := by
        intro u hu
        rw [hcut.brk]
        exact hb.blocks u (hcut.cover ▸ Or.inl hu) }
  more := Nat.le_of_eq hcut.brk.symm
  untouched := by
    intro u hu hbase hfree
    have ha : a ∈ covers l := hcut.cover ▸ Or.inr ⟨Nat.le_refl a, by omega⟩
    apply hcut.frame u fun heq => hfree (heq ▸ ha)
    intro hmem
    rcases hr.lists.nodes_subset hmem with heq | hmem
    · exact hbase heq
    · exact hfree hmem
  null := fun hnull => by cases hnull
  block := by
    intro ap hap
    cases hap
    have hcover : covers l' ∪ span a nunits = covers l ∪ Set.Ico h.brk h'.brk := by
      rw [hcut.cover, hcut.brk, Set.Ico_self, Set.union_empty]
    exact ⟨a, rfl, hcover, hcut.apart, hcut.size⟩

private theorem Grown.served {h₁ : Heap} {l₁ l' : List (Nat × Nat)} {result : Option Nat}
    (hg : Grown base h h₁ l l₁) (hs : Served base h₁ h' l₁ l' nunits result) :
    Served base h h' l l' nunits result := by
  have hcover : covers l₁ ∪ Set.Ico h₁.brk h'.brk = covers l ∪ Set.Ico h.brk h'.brk := by
    rw [hg.cover, Set.union_assoc, Set.Ico_union_Ico_eq_Ico hg.more hs.more]
  exact
    { ready := hs.ready
      below := hs.below
      more := Nat.le_trans hg.more hs.more
      untouched := by
        intro u hu hbase hfree
        have hfree₁ : u ∉ covers l₁ := by
          rw [hg.cover]
          rintro (hmem | hmem)
          · exact hfree hmem
          · exact absurd hmem.1 (Nat.not_le.mpr hu)
        exact (hs.untouched u (Nat.lt_of_lt_of_le hu hg.more) hbase hfree₁).trans
          (hg.untouched u hu hbase hfree)
      null := fun hnull => (hs.null hnull).trans hcover
      block := by
        intro ap hap
        rw [← hcover]
        exact hs.block ap hap }

theorem search_served {grants : Bool} (hpos : 0 < nunits) (hasks : headerSize * request nunits < 2 ^ 31)
    {fuel : Nat} (hr : Ready base h l) (hb : Below base h l) (hq : q ∈ nodes base l)
    {result : Option Nat} (hcall : search grants nunits fuel h q (h.next q) = some (h', result)) :
    ∃ l', Served base h h' l l' nunits result := by
  induction fuel generalizing h l q with
  | zero => cases hcall
  | succ fuel ih =>
    rw [search] at hcall
    split at hcall
    · next hsize =>
      rcases take_cut hr hq hpos hsize with ⟨h₁, l', a, htake, hcut⟩
      rw [htake] at hcall
      cases hcall
      exact ⟨l', Served.cut hr hb hpos hcut⟩
    · split at hcall
      · by_cases hgrants : h.Granted grants nunits
        · cases hmore : h.morecore fuel grants nunits with
          | none =>
            rw [hmore] at hcall
            cases hcall
          | some r =>
            rcases morecore_granted hasks hr hb hgrants hmore with ⟨l₁, hgrown, -, hresult⟩
            rcases hgrown.ready.freep with ⟨p, hp, hfreep⟩
            obtain ⟨h₁, result₁⟩ := r
            rw [hmore] at hcall
            rw [show result₁ = some p from hresult.trans hfreep] at hcall
            rcases ih hgrown.ready hgrown.below hp hcall with ⟨l', hserved⟩
            exact ⟨l', hgrown.served hserved⟩
        · rw [morecore_refused hasks hgrants hb.room] at hcall
          cases hcall
          exact ⟨l, Served.same hr hb rfl⟩
      · exact ih hr hb (hr.lists.path.next_mem hq) hcall

section Round

variable {grants : Bool} {x : Nat} {m : List Nat}

private theorem search_small (hpath : Path h.next x m q) (hfreep : h.freep = some q) (hm : q ∉ m)
    (hsmall : ∀ p ∈ m, (h.mem p).size < nunits) (fuel : Nat) :
    search grants nunits (fuel + m.length + 1) h x (h.next x) =
      search grants nunits (fuel + 1) h (Path.final x m) q := by
  induction m generalizing x with
  | nil =>
    rw [show h.next x = q from hpath]
    rfl
  | cons p m ih =>
    rw [List.mem_cons, not_or] at hm
    have hsize := hsmall p List.mem_cons_self
    have hother : ¬ h.freep = some p := by
      rw [hfreep, Option.some.injEq]
      exact hm.1
    rw [hpath.1, List.length_cons, ← Nat.add_assoc, search, if_neg (Nat.not_le.mpr hsize),
      if_neg hother]
    exact ih hpath.2 hm.2 fun p' hp' => hsmall p' (List.mem_cons_of_mem p hp')

private theorem search_large (hpath : Path h.next x m q) (hfreep : h.freep = some q) (hm : q ∉ m)
    (hlarge : ∃ p ∈ m ++ [q], nunits ≤ (h.mem p).size) (fuel : Nat) :
    ∃ h' ap, search grants nunits (fuel + m.length + 1) h x (h.next x) = some (h', some ap) := by
  induction m generalizing x with
  | nil =>
    rcases hlarge with ⟨p, hp, hsize⟩
    rw [List.mem_singleton.mp hp] at hsize
    rw [show h.next x = q from hpath, search, if_pos hsize]
    exact ⟨_, _, rfl⟩
  | cons p m ih =>
    rw [List.mem_cons, not_or] at hm
    rw [hpath.1, List.length_cons, ← Nat.add_assoc, search]
    by_cases hsize : nunits ≤ (h.mem p).size
    · rw [if_pos hsize]
      exact ⟨_, _, rfl⟩
    · have hother : ¬ h.freep = some p := by
        rw [hfreep, Option.some.injEq]
        exact hm.1
      rw [if_neg hsize, if_neg hother]
      apply ih hpath.2 hm.2
      rcases hlarge with ⟨p', hp', hlarge⟩
      rcases List.mem_cons.mp hp' with rfl | hp'
      · exact absurd hlarge hsize
      · exact ⟨p', hp', hlarge⟩

end Round

private theorem Ready.round (hr : Ready base h l) : ∃ q m, h.freep = some q ∧ Path h.next q m q ∧
    (q :: m).Perm (nodes base l) ∧ q ∉ m ∧ m.length = l.length := by
  rcases hr.freep with ⟨q, hq, hfreep⟩
  rcases hr.lists.path.rotate hq with ⟨m, hm, hperm⟩
  have hlength := hperm.length_eq
  rw [List.length_cons, List.length_cons, List.length_map] at hlength
  have hnodup := hperm.nodup_iff.mpr hr.lists.nodup
  exact ⟨q, m, hfreep, hm, hperm, (List.nodup_cons.mp hnodup).1, by omega⟩

private theorem search_finds {grants : Bool} (hr : Ready base h l)
    (hlarge : ∃ s ∈ l, nunits ≤ s.2) {fuel : Nat} (hfuel : l.length < fuel) :
    ∃ q h' ap, h.freep = some q ∧
      search grants nunits fuel h q (h.next q) = some (h', some ap) := by
  rcases hr.round with ⟨q, m, hfreep, hm, hperm, hq, hlength⟩
  rcases hlarge with ⟨s, hs, hsize⟩
  have hnode : s.1 ∈ q :: m := hperm.mem_iff.mpr (mem_nodes.mpr (Or.inr ⟨s, hs, rfl⟩))
  have hmem : s.1 ∈ m ++ [q] := by
    rw [List.mem_append, List.mem_singleton]
    exact (List.mem_cons.mp hnode).symm
  rw [← hr.lists.sizes s hs] at hsize
  have hfound := @search_large h q nunits grants q m hm hfreep hq ⟨s.1, hmem, hsize⟩
    (fuel - (l.length + 1))
  have henough : fuel - (l.length + 1) + m.length + 1 = fuel := by omega
  rw [henough] at hfound
  rcases hfound with ⟨h', ap, hfound⟩
  exact ⟨q, h', ap, hfreep, hfound⟩

/-- `malloc` returns, with a null pointer only where no free block is large enough and the kernel
refuses. -/
theorem search_returns {grants : Bool} (hpos : 0 < nunits) (hasks : headerSize * request nunits < 2 ^ 31)
    (hr : Ready base h l) (hb : Below base h l) {fuel : Nat} (hfuel : 2 * l.length + 4 ≤ fuel) :
    ∃ q h' result, h.freep = some q ∧
      search grants nunits fuel h q (h.next q) = some (h', result) ∧
      (result = none ↔ ¬ h.Granted grants nunits ∧ ∀ s ∈ l, s.2 < nunits) := by
  by_cases hlarge : ∃ s ∈ l, nunits ≤ s.2
  · have henough : l.length < fuel := by omega
    rcases @search_finds h base nunits l grants hr hlarge fuel henough with
      ⟨q, h', ap, hfreep, hfound⟩
    refine ⟨q, h', some ap, hfreep, hfound, ?_⟩
    constructor
    · intro hnull
      cases hnull
    · intro hnone
      rcases hlarge with ⟨s, hs, hsize⟩
      exact absurd (hnone.2 s hs) (Nat.not_lt.mpr hsize)
  · have hsmall : ∀ s ∈ l, s.2 < nunits := by
      intro s hs
      by_contra hsize
      exact hlarge ⟨s, hs, Nat.not_lt.mp hsize⟩
    rcases hr.round with ⟨q, m, hfreep, hm, hperm, hq, hlength⟩
    have hnodes : ∀ p ∈ q :: m, (h.mem p).size < nunits := by
      intro p hp
      rcases mem_nodes.mp (hperm.mem_iff.mp hp) with rfl | ⟨s, hs, rfl⟩
      · rw [hr.lists.zero]
        exact hpos
      · rw [hr.lists.sizes s hs]
        exact hsmall s hs
    have hscan := @search_small h q nunits grants q m hm hfreep hq
      (fun p hp => hnodes p (List.mem_cons_of_mem q hp)) (fuel - (l.length + 1))
    have henough : fuel - (l.length + 1) + m.length + 1 = fuel := by omega
    rw [henough, search, if_neg (Nat.not_le.mpr (hnodes q List.mem_cons_self)), if_pos hfreep] at hscan
    by_cases hgrants : h.Granted grants nunits
    · -- the round after `morecore` finds the new block, or the one it was joined to
      rcases morecore_returns hasks hr hb (show l.length < fuel - (l.length + 1) by omega) with
        ⟨r, hmore⟩
      rcases morecore_granted hasks hr hb hgrants hmore with ⟨l₁, hgrown, hbrk, hresult⟩
      have hcover : span h.brk (request nunits) ⊆ covers l₁ := by
        rw [hgrown.cover, hbrk]
        exact Set.subset_union_right
      rcases hgrown.ready.lists.apart.within (request_pos nunits).1 hcover with ⟨s, hs, hle, hge⟩
      have hnew : nunits ≤ s.2 := by
        have hrequest := (request_pos nunits).2
        omega
      have hcount : l₁.length < fuel - (l.length + 1) := by
        have hlength₁ := hgrown.length
        omega
      rcases @search_finds r.1 base nunits l₁ grants hgrown.ready ⟨s, hs, hnew⟩ _ hcount with
        ⟨p, h', ap, hfreep₁, hfound⟩
      obtain ⟨h₁, result₁⟩ := r
      rw [hmore, show result₁ = some p from hresult.trans hfreep₁] at hscan
      refine ⟨q, h', some ap, hfreep, hscan.trans hfound, ?_⟩
      constructor
      · intro hnull
        cases hnull
      · intro hnone
        exact absurd hgrants hnone.1
    · rw [morecore_refused hasks hgrants hb.room] at hscan
      exact ⟨q, h, none, hfreep, hscan, fun _ => ⟨hgrants, hsmall⟩, fun _ => rfl⟩

end Heap

end OsSessional.Userland
