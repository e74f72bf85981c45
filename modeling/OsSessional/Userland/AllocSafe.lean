import OsSessional.Userland.FirstFit

/-!
# Programs that keep to their blocks

A program frees the blocks it was given, writes into them and moves the break upwards, and asks for
no more bytes than an `int` can say. Over every run its blocks lie apart and hold what it wrote, no unit of
the heap is lost, and a null pointer means that there is no room.
-/

namespace OsSessional.Userland

open Spans Heap
open Function (update update_self update_of_ne)

/-- The largest request whose size in bytes is a positive `int`. -/
def maxRequest : Nat := 2 ^ 31 - 16

private theorem asks_of_le {nbytes : Nat} (h : nbytes ≤ maxRequest) :
    headerSize * request (units nbytes) < 2 ^ 31 := by
  unfold maxRequest at h
  unfold request units headerSize
  split <;> omega

private theorem le_units {nbytes : Nat} (h : nbytes ≤ maxRequest) :
    nbytes ≤ headerSize * (units nbytes - 1) := by
  unfold maxRequest at h
  unfold units headerSize
  omega

private theorem units_pos (nbytes : Nat) : 0 < units nbytes := Nat.succ_pos _

namespace Heap

variable {h : Heap} {base : Nat}

private theorem start_of_ne (hne : h.freep ≠ none) : h.start base = h := by
  unfold start
  split
  · next heq => exact absurd heq hne
  · rfl

@[simp] theorem start_brk : (h.start base).brk = h.brk := by
  unfold start
  split <;> rfl

private theorem start_move (h : Heap) (base b : Nat) :
    ({ h with brk := b } : Heap).start base = { h.start base with brk := b } := by
  cases hfreep : h.freep with
  | none => simp only [start, hfreep, put]
  | some p => simp only [start, hfreep]

private theorem start_mem {u : Nat} (hu : u ≠ base) : (h.start base).mem u = h.mem u := by
  unfold start
  split
  · exact h.mem_put_ne hu _
  · rfl

private theorem start_ready (hnone : h.freep = none) : Ready base (h.start base) [] := by
  have hstart : h.start base = { h.put base ⟨base, 0⟩ with freep := some base } := by
    unfold start
    rw [hnone]
  rw [hstart]
  have hlists : Lists base (h.put base ⟨base, 0⟩) [] :=
    { path := h.next_put base ⟨base, 0⟩
      sizes := fun s hs => by cases hs
      zero := congrArg Header.size (h.mem_put base ⟨base, 0⟩)
      apart := ⟨fun s hs => absurd hs List.not_mem_nil, List.Pairwise.nil⟩
      above := fun s hs => by cases hs }
  exact ⟨hlists.congr fun _ _ => rfl, base, List.mem_cons_self, rfl⟩

end Heap

namespace Program

variable {base : Nat} {s s' : Program} {l : List (Nat × Nat)} {a n u : Nat}

/-- The units in the program's hands. -/
def held (live : Nat → Option Nat) : Set Nat := {u | ∃ a n, live a = some n ∧ u ∈ span a (units n)}

/-- The heap is divided into the free blocks and the program's. -/
structure Sound (base : Nat) (s : Program) (l : List (Nat × Nat)) : Prop where
  ready : Ready base (s.heap.start base) l
  below : Below base (s.heap.start base) l
  started : ∀ a n, s.live a = some n → s.heap.freep ≠ none
  size : ∀ a n, s.live a = some n → n ≤ maxRequest
  apart : ∀ a n b k, s.live a = some n → s.live b = some k → a ≠ b →
    Disjoint (span a (units n)) (span b (units k))
  header : ∀ a n, s.live a = some n → (s.heap.mem a).size = units n
  divided : s.area = covers l ∪ held s.live
  free : Disjoint (held s.live) (covers l)
  area : ∀ u ∈ held s.live, base < u ∧ u < s.heap.brk
  wrote : ∀ u x, s.wrote u = some x →
    s.heap.mem u = x ∧ ∃ a n, s.live a = some n ∧ a < u ∧ u < a + units n

private theorem sound_of_fresh (h : Fresh base s) : Sound base s [] where
  ready := start_ready h.freep
  below := by
    refine ⟨?_, ?_, fun u hu => ?_⟩
    · rw [start_brk]
      exact h.room
    · rw [start_brk]
      exact h.below
    · rw [covers_nil] at hu
      cases hu
  started := fun a n hlive => by rw [h.live a] at hlive; cases hlive
  size := fun a n hlive => by rw [h.live a] at hlive; cases hlive
  apart := fun a n b k hlive => by rw [h.live a] at hlive; cases hlive
  header := fun a n hlive => by rw [h.live a] at hlive; cases hlive
  divided := by
    rw [h.area, covers_nil, Set.empty_union, eq_comm, Set.eq_empty_iff_forall_notMem]
    rintro u ⟨a, n, hlive, -⟩
    rw [h.live a] at hlive
    cases hlive
  free := by
    rw [covers_nil]
    exact Set.disjoint_empty _
  area := by
    rintro u ⟨a, n, hlive, -⟩
    rw [h.live a] at hlive
    cases hlive
  wrote := fun u x hx => by rw [h.wrote u] at hx; cases hx

private theorem mem_held (hlive : s.live a = some n) (hu : u ∈ span a (units n)) : u ∈ held s.live :=
  ⟨a, n, hlive, hu⟩

private theorem header_held (hlive : s.live a = some n) : a ∈ held s.live := by
  have hpos := units_pos n
  exact mem_held hlive ⟨Nat.le_refl a, by omega⟩

private theorem span_held (hlive : s.live a = some n) :
    span a (units n) ⊆ held s.live := fun _ => mem_held hlive

namespace Sound

private theorem covers_above (hs : Sound base s l) (hu : u ∈ covers l) : base < u := by
  rcases hu with ⟨t, ht, hu⟩
  exact Nat.lt_of_lt_of_le (hs.ready.lists.above t ht) hu.1

private theorem not_free (hs : Sound base s l) (hu : u ∈ held s.live) : u ∉ covers l :=
  fun hfree => Set.disjoint_left.mp hs.free hu hfree

private theorem not_node (hs : Sound base s l) (hu : u ∈ held s.live) : u ∉ nodes base l := by
  intro hmem
  rcases hs.ready.lists.nodes_subset hmem with rfl | hmem
  · exact Nat.lt_irrefl u (hs.area u hu).1
  · exact hs.not_free hu hmem

section Malloc

variable {fuel nbytes : Nat} {grants : Bool} {h : Heap} {result : Option Nat}
  {l' : List (Nat × Nat)}

private theorem served (hs : Sound base s l) (hsmall : nbytes ≤ maxRequest)
    (hcall : s.heap.malloc base fuel grants nbytes = some (h, result)) :
    ∃ l', Served base (s.heap.start base) h l l' (units nbytes) result := by
  rcases hs.ready.freep with ⟨q, hq, hfreep⟩
  unfold Heap.malloc at hcall
  simp only [hfreep] at hcall
  exact search_served (units_pos nbytes) (asks_of_le hsmall) hs.ready hs.below hq hcall

private theorem kept (hs : Sound base s l)
    (hserved : Served base (s.heap.start base) h l l' (units nbytes) result) (hu : u ∈ held s.live) :
    h.mem u = s.heap.mem u := by
  rcases hs.area u hu with ⟨hlow, hhigh⟩
  have hne : u ≠ base := Nat.ne_of_gt hlow
  rw [hserved.untouched u (by rw [start_brk]; exact hhigh) hne (hs.not_free hu), start_mem hne]

private theorem served_start (hserved : Served base (s.heap.start base) h l l' n result) :
    h.freep ≠ none := by
  rcases hserved.ready.freep with ⟨q, -, hfreep⟩
  rw [hfreep]
  exact Option.some_ne_none q

private theorem le_of_served (hserved : Served base (s.heap.start base) h l l' n result) :
    s.heap.brk ≤ h.brk := by
  have hmore := hserved.more
  rw [start_brk] at hmore
  exact hmore

private theorem held_apart (hs : Sound base s l) :
    Disjoint (held s.live) (covers l ∪ Set.Ico (s.heap.start base).brk h.brk) := by
  rw [Set.disjoint_union_right]
  refine ⟨hs.free, ?_⟩
  rw [Set.disjoint_left]
  intro u hu hnew
  rw [start_brk] at hnew
  exact absurd (hs.area u hu).2 (Nat.not_lt.mpr hnew.1)

private theorem null (hs : Sound base s l)
    (hserved : Served base (s.heap.start base) h l l' (units nbytes) none) :
    Sound base { s with heap := h, area := s.area ∪ Set.Ico s.heap.brk h.brk } l' := by
  have hne := served_start hserved
  have hstart := @start_of_ne h base hne
  have hcover := hserved.null rfl
  have hmore : s.heap.brk ≤ h.brk := le_of_served hserved
  exact
    { ready := by
        rw [hstart]
        exact hserved.ready
      below := by
        rw [hstart]
        exact hserved.below
      started := fun _ _ _ => hne
      size := hs.size
      apart := hs.apart
      header := by
        intro a n hlive
        rw [hs.kept hserved (header_held hlive)]
        exact hs.header a n hlive
      divided := by
        change s.area ∪ Set.Ico s.heap.brk h.brk = covers l' ∪ held s.live
        rw [hs.divided, hcover, start_brk, Set.union_right_comm]
      free := by
        rw [hcover]
        exact hs.held_apart
      area := by
        intro u hu
        rcases hs.area u hu with ⟨hlow, hhigh⟩
        exact ⟨hlow, Nat.lt_of_lt_of_le hhigh hmore⟩
      wrote := by
        intro u x hx
        rcases hs.wrote u x hx with ⟨hmem, a, n, hlive, hlow, hhigh⟩
        have hu : u ∈ held s.live := mem_held hlive ⟨Nat.le_of_lt hlow, hhigh⟩
        exact ⟨(hs.kept hserved hu).trans hmem, a, n, hlive, hlow, hhigh⟩ }

private theorem block (hs : Sound base s l) (hsmall : nbytes ≤ maxRequest)
    (hserved : Served base (s.heap.start base) h l l' (units nbytes) (some (a + 1))) :
    Sound base
      { heap := h
        live := update s.live a (some nbytes)
        area := s.area ∪ Set.Ico s.heap.brk h.brk
        wrote := s.wrote } l' := by
  have hne := served_start hserved
  have hstart := @start_of_ne h base hne
  have hmore : s.heap.brk ≤ h.brk := le_of_served hserved
  rcases hserved.block (a + 1) rfl with ⟨a', ha, hcover, hapart, hsize⟩
  cases Nat.succ.inj ha
  have hnew : Disjoint (held s.live) (span a (units nbytes)) :=
    hs.held_apart.mono_right (hcover ▸ Set.subset_union_right)
  have hself : a ∈ span a (units nbytes) := by
    have hpos := units_pos nbytes
    exact ⟨Nat.le_refl a, by omega⟩
  have hother : ∀ b k, s.live b = some k → b ≠ a := by
    rintro b k hlive rfl
    exact Set.disjoint_left.mp hnew (header_held hlive) hself
  have hlive : ∀ b k, update s.live a (some nbytes) b = some k →
      b = a ∧ k = nbytes ∨ b ≠ a ∧ s.live b = some k := by
    intro b k hb
    by_cases heq : b = a
    · rw [heq, update_self, Option.some.injEq] at hb
      exact Or.inl ⟨heq, hb.symm⟩
    · rw [update_of_ne heq] at hb
      exact Or.inr ⟨heq, hb⟩
  have hstill : ∀ b k, s.live b = some k → update s.live a (some nbytes) b = some k := by
    intro b k hb
    rw [update_of_ne (hother b k hb)]
    exact hb
  have hheld : ∀ u, u ∈ held (update s.live a (some nbytes)) ↔
      u ∈ held s.live ∪ span a (units nbytes) := by
    intro u
    constructor
    · rintro ⟨b, k, hb, hu⟩
      rcases hlive b k hb with ⟨rfl, rfl⟩ | ⟨-, hb⟩
      · exact Or.inr hu
      · exact Or.inl (mem_held hb hu)
    · rintro (⟨b, k, hb, hu⟩ | hu)
      · exact ⟨b, k, hstill b k hb, hu⟩
      · exact ⟨a, nbytes, update_self .., hu⟩
  have hbounds : ∀ u ∈ held s.live ∪ span a (units nbytes), base < u ∧ u < h.brk := by
    rintro u (hu | hu)
    · exact ⟨(hs.area u hu).1, Nat.lt_of_lt_of_le (hs.area u hu).2 hmore⟩
    · have hu' : u ∈ covers l ∪ Set.Ico (s.heap.start base).brk h.brk := hcover ▸ Or.inr hu
      have hbase := hs.below.base
      have hblocks := hs.below.blocks u
      rw [start_brk] at hu' hbase hblocks
      rcases hu' with hu' | hu'
      · exact ⟨hs.covers_above hu', Nat.lt_of_lt_of_le (hblocks hu') hmore⟩
      · exact ⟨Nat.lt_of_lt_of_le hbase hu'.1, hu'.2⟩
  exact
    { ready := by
        rw [hstart]
        exact hserved.ready
      below := by
        rw [hstart]
        exact hserved.below
      started := fun _ _ _ => hne
      size := by
        intro b k hb
        rcases hlive b k hb with ⟨-, rfl⟩ | ⟨-, hb⟩
        · exact hsmall
        · exact hs.size b k hb
      apart := by
        intro b k c m hb hc hbc
        rcases hlive b k hb with ⟨rfl, rfl⟩ | ⟨-, hold⟩
        · rcases hlive c m hc with ⟨rfl, rfl⟩ | ⟨-, hold⟩
          · exact absurd rfl hbc
          · exact (hnew.mono_left (span_held hold)).symm
        · rcases hlive c m hc with ⟨rfl, rfl⟩ | ⟨-, hold'⟩
          · exact hnew.mono_left (span_held hold)
          · exact hs.apart b k c m hold hold' hbc
      header := by
        intro b k hb
        rcases hlive b k hb with ⟨rfl, rfl⟩ | ⟨-, hb⟩
        · exact hsize
        · exact (congrArg Header.size (hs.kept hserved (header_held hb))).trans (hs.header b k hb)
      divided := by
        have hall : s.area ∪ Set.Ico s.heap.brk h.brk =
            covers l' ∪ (held s.live ∪ span a (units nbytes)) := by
          rw [hs.divided, Set.union_right_comm, ← @start_brk s.heap base, ← hcover,
            Set.union_right_comm, Set.union_assoc]
        exact hall.trans (congrArg (covers l' ∪ ·) (Set.ext hheld).symm)
      free := by
        have hboth : Disjoint (held s.live ∪ span a (units nbytes)) (covers l') := by
          rw [Set.disjoint_union_left]
          exact ⟨hs.held_apart.mono_right (hcover ▸ Set.subset_union_left), hapart⟩
        exact (Set.ext hheld).symm ▸ hboth
      area := fun u hu => hbounds u ((hheld u).mp hu)
      wrote := by
        intro u x hx
        rcases hs.wrote u x hx with ⟨hmem, b, k, hb, hlow, hhigh⟩
        have hu : u ∈ held s.live := mem_held hb ⟨Nat.le_of_lt hlow, hhigh⟩
        exact ⟨(hs.kept hserved hu).trans hmem, b, k, hstill b k hb, hlow, hhigh⟩ }

end Malloc

private theorem freed (hs : Sound base s l) (hlive : s.live a = some n) {fuel : Nat} {h : Heap}
    (hcall : s.heap.free fuel (a + 1) = some h) : ∃ l', Sound base
      { s with
        heap := h
        live := update s.live a none
        wrote := fun u => if a ≤ u ∧ u < a + units n then none else s.wrote u } l' := by
  have hstart := @start_of_ne s.heap base (hs.started a n hlive)
  have hready := hs.ready
  have hbelow := hs.below
  rw [hstart] at hready hbelow
  have hhold := header_held hlive
  have hnew : Disjoint (span a (units n)) (covers l) := hs.free.mono_left (span_held hlive)
  rcases free_ready hready (hs.header a n hlive) (units_pos n) (hs.area a hhold).1 hnew hcall with
    ⟨l', hready', hcover, -, hbrk, hframe⟩
  have hne : h.freep ≠ none := by
    rcases hready'.freep with ⟨q, -, hfreep⟩
    rw [hfreep]
    exact Option.some_ne_none q
  have hstart' := @start_of_ne h base hne
  have hold : ∀ b k, update s.live a none b = some k → b ≠ a ∧ s.live b = some k := by
    intro b k hb
    by_cases heq : b = a
    · rw [heq, update_self] at hb
      cases hb
    · rw [update_of_ne heq] at hb
      exact ⟨heq, hb⟩
  have hheld : ∀ u, u ∈ held s.live ↔
      u ∈ span a (units n) ∪ held (update s.live a none) := by
    intro u
    constructor
    · rintro ⟨b, k, hb, hu⟩
      by_cases heq : b = a
      · subst heq
        rw [hlive, Option.some.injEq] at hb
        exact Or.inl (hb ▸ hu)
      · refine Or.inr ⟨b, k, ?_, hu⟩
        exact (update_of_ne heq ..).trans hb
    · rintro (hu | ⟨b, k, hb, hu⟩)
      · exact mem_held hlive hu
      · exact mem_held (hold b k hb).2 hu
  have hrest : Disjoint (held (update s.live a none)) (span a (units n)) := by
    rw [Set.disjoint_left]
    rintro u ⟨b, k, hb, hu⟩ hu'
    exact Set.disjoint_left.mp (hs.apart b k a n (hold b k hb).2 hlive (hold b k hb).1) hu hu'
  have hkept : ∀ u ∈ held s.live, u ≠ a → h.mem u = s.heap.mem u := fun u hu hua =>
    hframe u hua (hs.not_node hu)
  refine ⟨l', ?_⟩
  exact
    { ready := by
        rw [hstart']
        exact hready'
      below := by
        rw [hstart']
        refine ⟨hbrk ▸ hbelow.room, hbrk ▸ hbelow.base, fun u hu => ?_⟩
        rw [hcover] at hu
        rw [hbrk]
        rcases hu with hu | hu
        · exact hbelow.blocks u hu
        · exact (hs.area u (mem_held hlive hu)).2
      started := fun _ _ _ => hne
      size := fun b k hb => hs.size b k (hold b k hb).2
      apart := fun b k c m hb hc hbc => hs.apart b k c m (hold b k hb).2 (hold c m hc).2 hbc
      header := by
        intro b k hb
        rcases hold b k hb with ⟨hba, hb⟩
        exact (congrArg Header.size (hkept b (header_held hb) hba)).trans (hs.header b k hb)
      divided := by
        have hall : s.area = covers l' ∪ held (update s.live a none) := by
          rw [hs.divided, hcover, Set.ext hheld, Set.union_assoc]
        exact hall
      free := by
        have hboth : Disjoint (held (update s.live a none)) (covers l') := by
          rw [hcover, Set.disjoint_union_right]
          exact ⟨hs.free.mono_left fun u hu => (hheld u).mpr (Or.inr hu), hrest⟩
        exact hboth
      area := by
        intro u hu
        have hbounds := hs.area u ((hheld u).mpr (Or.inr hu))
        exact ⟨hbounds.1, hbrk ▸ hbounds.2⟩
      wrote := by
        intro u x hx
        change (if a ≤ u ∧ u < a + units n then none else s.wrote u) = some x at hx
        by_cases hin : a ≤ u ∧ u < a + units n
        · rw [if_pos hin] at hx
          cases hx
        · rw [if_neg hin] at hx
          rcases hs.wrote u x hx with ⟨hmem, b, k, hb, hlow, hhigh⟩
          have hua : u ≠ a := by
            rintro rfl
            have hpos := units_pos n
            omega
          have hba : b ≠ a := by
            rintro rfl
            rw [hlive, Option.some.injEq] at hb
            subst hb
            exact hin ⟨Nat.le_of_lt hlow, hhigh⟩
          have hu : u ∈ held s.live := mem_held hb ⟨Nat.le_of_lt hlow, hhigh⟩
          exact ⟨(hkept u hu hua).trans hmem, b, k, (update_of_ne hba ..).trans hb, hlow, hhigh⟩ }

private theorem written (hs : Sound base s l) (hlive : s.live a = some n) (hlow : a < u)
    (hhigh : u < a + units n) (x : Header) : Sound base
      { s with heap := s.heap.put u x, wrote := update s.wrote u (some x) } l := by
  have hne := hs.started a n hlive
  have hstart := @start_of_ne s.heap base hne
  have hstart' := @start_of_ne (s.heap.put u x) base hne
  have hready := hs.ready
  have hbelow := hs.below
  rw [hstart] at hready hbelow
  have hu : u ∈ held s.live := mem_held hlive ⟨Nat.le_of_lt hlow, hhigh⟩
  have hnode : ∀ v ∈ nodes base l, v ≠ u := fun v hv heq => hs.not_node hu (heq ▸ hv)
  exact
    { ready := by
        rw [hstart']
        exact ⟨hready.lists.congr fun v hv => mem_put_ne _ (hnode v hv) x, hready.freep⟩
      below := by
        rw [hstart']
        exact ⟨hbelow.room, hbelow.base, hbelow.blocks⟩
      started := fun _ _ _ => hne
      size := hs.size
      apart := hs.apart
      header := by
        intro b k hb
        have hbu : b ≠ u := by
          rintro rfl
          have hpos := units_pos k
          by_cases heq : b = a
          · omega
          · exact Set.disjoint_left.mp (hs.apart b k a n hb hlive heq) ⟨Nat.le_refl b, by omega⟩
              ⟨Nat.le_of_lt hlow, hhigh⟩
        exact (congrArg Header.size (mem_put_ne _ hbu x)).trans (hs.header b k hb)
      divided := hs.divided
      free := hs.free
      area := hs.area
      wrote := by
        intro v y hy
        change update s.wrote u (some x) v = some y at hy
        by_cases heq : v = u
        · rw [heq, update_self, Option.some.injEq] at hy
          rw [heq]
          exact ⟨(mem_put _ u x).trans hy, a, n, hlive, hlow, hhigh⟩
        · rw [update_of_ne heq] at hy
          rcases hs.wrote v y hy with ⟨hmem, hblock⟩
          exact ⟨(mem_put_ne _ heq x).trans hmem, hblock⟩ }

private theorem moved (hs : Sound base s l) {k : Nat} (hroom : headerSize * (s.heap.brk + k) < 2 ^ 31) :
    Sound base { s with heap := { s.heap with brk := s.heap.brk + k } } l := by
  have hup : s.heap.brk ≤ s.heap.brk + k := Nat.le_add_right _ _
  have hbase := hs.below.base
  have hblocks := hs.below.blocks
  rw [start_brk] at hbase hblocks
  have hstart := s.heap.start_move base (s.heap.brk + k)
  exact
    { ready := by
        rw [hstart]
        exact ⟨hs.ready.lists.congr fun _ _ => rfl, hs.ready.freep⟩
      below := by
        refine ⟨?_, ?_, fun u hu => ?_⟩
        · rw [start_brk]
          exact hroom
        · rw [start_brk]
          exact Nat.lt_of_lt_of_le hbase hup
        · rw [start_brk]
          exact Nat.lt_of_lt_of_le (hblocks u hu) hup
      started := hs.started
      size := hs.size
      apart := hs.apart
      header := hs.header
      divided := hs.divided
      free := hs.free
      area := fun u hu => ⟨(hs.area u hu).1, Nat.lt_of_lt_of_le (hs.area u hu).2 hup⟩
      wrote := hs.wrote }

/-- One step. -/
private theorem step (hs : Sound base s l) {act : Act} (hstep : Step base s act s')
    (hsmall : ∀ nbytes grants, act = .malloc nbytes grants → nbytes ≤ maxRequest) :
    ∃ l', Sound base s' l' := by
  cases hstep with
  | malloc hcall =>
    have hle := hsmall _ _ rfl
    rcases hs.served hle hcall with ⟨l', hserved⟩
    exact ⟨l', hs.block hle hserved⟩
  | null hcall =>
    rcases hs.served (hsmall _ _ rfl) hcall with ⟨l', hserved⟩
    exact ⟨l', hs.null hserved⟩
  | free hlive hcall => exact hs.freed hlive hcall
  | write hlive hlow hhigh x => exact ⟨l, hs.written hlive hlow hhigh x⟩
  | sbrk hroom => exact ⟨l, hs.moved hroom⟩

end Sound

/-- No call asks for more than `maxRequest`. -/
def Modest (acts : List Act) : Prop :=
  ∀ nbytes grants, .malloc nbytes grants ∈ acts → nbytes ≤ maxRequest

private theorem sound_of_run {acts : List Act} (hs : Sound base s l) (hmodest : Modest acts)
    (hrun : Run (Step base) s acts s') : ∃ l', Sound base s' l' := by
  induction hrun generalizing l with
  | nil s => exact ⟨l, hs⟩
  | cons hstep _ ih =>
    rcases hs.step hstep fun nbytes grants heq =>
      hmodest nbytes grants (heq ▸ List.mem_cons_self) with ⟨l₁, hs₁⟩
    exact ih hs₁ fun nbytes grants hmem => hmodest nbytes grants (List.mem_cons_of_mem _ hmem)

/-- The bytes of a block, behind its header. -/
def bytes (a n : Nat) : Set Nat := span (headerSize * (a + 1)) n

private theorem bytes_span {x : Nat} (hle : n ≤ maxRequest) (hx : x ∈ bytes a n) :
    x / headerSize ∈ span a (units n) ∧ x / headerSize ≠ a := by
  have hn := le_units hle
  have hpos := units_pos n
  unfold bytes headerSize at *
  rcases hx with ⟨hlow, hhigh⟩
  refine ⟨⟨?_, ?_⟩, ?_⟩ <;> omega

/-- What a program counts on. -/
structure Safe (s : Program) : Prop where
  apart : ∀ a n b k, s.live a = some n → s.live b = some k → a ≠ b → Disjoint (bytes a n) (bytes b k)
  inside : ∀ a n, s.live a = some n → ∀ x ∈ bytes a n, x / headerSize ∈ s.area ∧
    x < headerSize * s.heap.brk
  kept : ∀ u x, s.wrote u = some x → s.heap.mem u = x

private theorem Sound.safe (hs : Sound base s l) : s.Safe where
  apart := by
    intro a n b k ha hb hab
    rw [Set.disjoint_left]
    intro x hx hx'
    exact Set.disjoint_left.mp (hs.apart a n b k ha hb hab) (bytes_span (hs.size a n ha) hx).1
      (bytes_span (hs.size b k hb) hx').1
  inside := by
    intro a n ha x hx
    have hu := mem_held ha (bytes_span (hs.size a n ha) hx).1
    have hhigh := (hs.area _ hu).2
    refine ⟨hs.divided ▸ Or.inr hu, ?_⟩
    unfold headerSize at *
    omega
  kept := fun u x hx => (hs.wrote u x hx).1

/-- In every run the blocks in the program's hands lie apart, inside the memory `sbrk` gave, and hold what
the program wrote. -/
theorem alloc_of_run {base : Nat} {s s' : Program} {acts : List Act} (hfresh : Fresh base s)
    (hmodest : Modest acts) (hrun : Run (Step base) s acts s') : s'.Safe := by
  rcases sound_of_run (sound_of_fresh hfresh) hmodest hrun with ⟨l, hs⟩
  exact hs.safe

/-- A program of 8000 bytes with `base` at 80. -/
def booted : Program where
  heap := { mem := fun _ => ⟨0, 0⟩, freep := none, brk := 1000 }
  live := fun _ => none
  area := ∅
  wrote := fun _ => none

private theorem fresh_booted : Fresh 10 booted where
  freep := rfl
  below := by decide
  room := by decide
  live := fun _ => rfl
  area := rfl
  wrote := fun _ => rfl

private theorem returned {r : Option (Heap × Option Nat)} {p : Option Nat} (h : Heap)
    (hresult : r.map Prod.snd = some p) : r = some ((r.map Prod.fst).getD h, p) := by
  rcases Option.map_eq_some_iff.mp hresult with ⟨⟨h', p'⟩, rfl, rfl⟩
  rfl

private theorem released {r : Option Heap} (h : Heap) (hsome : r.isSome = true) :
    r = some (r.getD h) := by
  rcases Option.isSome_iff_exists.mp hsome with ⟨h', rfl⟩
  rfl

-- the heap after blocks of 80, 16000 and 16000 bytes, a write into the first, and two calls of `free`
private def small : Heap := ((booted.heap.malloc 10 8 true 80).map Prod.fst).getD booted.heap
private def large : Heap := ((small.malloc 10 8 true 16000).map Prod.fst).getD small
private def marked : Heap := large.put 5090 ⟨7, 8⟩
private def lower : Heap := ((marked.malloc 10 8 true 16000).map Prod.fst).getD marked
private def split : Heap := (lower.free 8 3085).getD lower
private def joined : Heap := (split.free 8 1084).getD split

private def halfFreed : Program where
  heap := split
  live := update (update (update (update booted.live 5085 (some 80)) 3084 (some 16000))
    1083 (some 16000)) 3084 none
  area := ∅ ∪ Set.Ico booted.heap.brk small.brk ∪ Set.Ico small.brk large.brk ∪
    Set.Ico marked.brk lower.brk
  wrote := fun u => if 3084 ≤ u ∧ u < 3084 + units 16000 then none else
    update booted.wrote 5090 (some ⟨7, 8⟩) u

private def busy : List Act :=
  [.malloc 80 true, .malloc 16000 true, .write 5090 ⟨7, 8⟩, .malloc 16000 true, .free 3085]

private theorem halfFreed_run : Run (Step 10) booted busy halfFreed := by
  have hsmall : booted.heap.malloc 10 8 true 80 = some (small, some 5086) := returned _ (by decide)
  have hlarge : small.malloc 10 8 true 16000 = some (large, some 3085) := returned _ (by decide)
  have hlower : marked.malloc 10 8 true 16000 = some (lower, some 1084) := returned _ (by decide)
  have hsplit : lower.free 8 3085 = some split := released _ (by decide)
  exact .cons (.malloc hsmall) (.cons (.malloc hlarge) (.cons (@Step.write 10 _ 5085 80 5090 (by decide)
    (by decide) (by decide) ⟨7, 8⟩) (.cons (.malloc hlower) (.cons (@Step.free 10 _ 8 3084 16000 _
    (by decide) hsplit) (.nil _)))))

private theorem modest_busy : Modest (busy ++ [.free 1084]) := by
  intro nbytes grants hmem
  simp only [busy, List.cons_append, List.nil_append, List.mem_cons, Act.malloc.injEq, reduceCtorEq,
    List.not_mem_nil, or_false, false_or] at hmem
  rcases hmem with ⟨rfl, -⟩ | ⟨rfl, -⟩ | ⟨rfl, -⟩ <;> decide

/-- Two blocks are left of three, and what was written into one of them. -/
theorem alloc_of_run_first : ∃ acts s, Run (Step 10) booted acts s ∧ s.live 5085 = some 80 ∧
    s.live 1083 = some 16000 ∧ s.wrote 5090 = some ⟨7, 8⟩ ∧ s.Safe := by
  have hmodest : Modest busy := fun nbytes grants hmem =>
    modest_busy nbytes grants (List.mem_append_left _ hmem)
  exact ⟨busy, halfFreed, halfFreed_run, by decide, by decide, by decide,
    alloc_of_run fresh_booted hmodest halfFreed_run⟩

-- above `maxRequest` the size is a negative `int`, and `malloc` gives out memory beyond the break
example : (booted.heap.malloc 10 8 true (2 ^ 31 - 8)).map (fun r => (r.1.brk, r.2)) =
    some (1000, some 1001) := by decide

private theorem Sound.stretch_iff (hs : Sound base s l) {k : Nat} (hk : 0 < k) :
    (∀ t ∈ l, t.2 < k) ↔ ¬ ∃ a, span a k ⊆ s.area \ held s.live := by
  have hfree : s.area \ held s.live = covers l := by
    rw [hs.divided, Set.union_sdiff_right]
    exact hs.free.symm.sdiff_eq_left
  rw [hfree]
  constructor
  · rintro hsmall ⟨a, hcover⟩
    rcases hs.ready.lists.apart.within hk hcover with ⟨t, ht, hlow, hhigh⟩
    have hlt := hsmall t ht
    omega
  · intro hnone t ht
    by_contra hlarge
    refine hnone ⟨t.1, fun u hu => mem_covers ht ⟨hu.1, ?_⟩⟩
    exact Nat.lt_of_lt_of_le hu.2 (Nat.add_le_add_left (Nat.not_lt.mp hlarge) t.1)

/-- In every run `free` and `malloc` return, and `malloc` returns a null pointer exactly when the kernel
refuses to grow the process and no stretch of free units is long enough: nothing is lost, and free
blocks that touch are one. -/
theorem malloc_null_iff {base : Nat} {s s' : Program} {acts : List Act} (hfresh : Fresh base s)
    (hmodest : Modest acts) (hrun : Run (Step base) s acts s') {nbytes : Nat}
    (hle : nbytes ≤ maxRequest) (grants : Bool) :
    ∃ enough, ∀ fuel ≥ enough,
      (∃ h result, s'.heap.malloc base fuel grants nbytes = some (h, result) ∧
        (result = none ↔ ¬ s'.heap.Granted grants (units nbytes) ∧
          ¬ ∃ a, span a (units nbytes) ⊆ s'.area \ held s'.live)) ∧
      ∀ a n, s'.live a = some n → ∃ h, s'.heap.free fuel (a + 1) = some h := by
  rcases sound_of_run (sound_of_fresh hfresh) hmodest hrun with ⟨l, hs⟩
  refine ⟨2 * l.length + 4, fun fuel hfuel => ⟨?_, fun a n hlive => ?_⟩⟩
  · rcases @search_returns _ _ _ _ grants (units_pos nbytes) (asks_of_le hle) hs.ready hs.below
      _ hfuel with ⟨q, h, result, hfreep, hcall, hnull⟩
    refine ⟨h, result, ?_, ?_⟩
    · unfold Heap.malloc
      simp only [hfreep]
      exact hcall
    · rw [hnull, hs.stretch_iff (units_pos nbytes), Granted, start_brk, Granted]
  · have hstart := @start_of_ne s'.heap base (hs.started a n hlive)
    have hready := hs.ready
    rw [hstart] at hready
    exact free_returns hready (units_pos n) (hs.area a (header_held hlive)).1
      (hs.free.mono_left (span_held hlive)) (by omega)

private def allFreed : Program :=
  { halfFreed with
    heap := joined, live := update halfFreed.live 1083 none
    wrote := fun u => if 1083 ≤ u ∧ u < 1083 + units 16000 then none else halfFreed.wrote u }

private theorem allFreed_run : Run (Step 10) booted (busy ++ [.free 1084]) allFreed := by
  have hjoined : split.free 8 1084 = some joined := released _ (by decide)
  exact halfFreed_run.append (.cons (@Step.free 10 halfFreed 8 1083 16000 _ (by decide) hjoined) (.nil _))

private theorem allFreed_live (a : Nat) : allFreed.live a = if a = 5085 then some 80 else none := by
  simp only [allFreed, halfFreed, booted, Function.update_apply]
  split_ifs <;> first | rfl | omega

private theorem allFreed_free : allFreed.area \ held allFreed.live = Set.Ico 1000 5085 := by
  have hbrks : small.brk = 5096 ∧ large.brk = 5096 ∧ marked.brk = 5096 ∧ lower.brk = 5096 := by decide
  rcases hbrks with ⟨hsmall, hlarge, hmarked, hlower⟩
  have harea : allFreed.area = Set.Ico 1000 5096 := by
    simp only [allFreed, halfFreed, hsmall, hlarge, hmarked, hlower, Set.Ico_self, Set.union_empty,
      Set.empty_union]
    rfl
  have hheld : held allFreed.live = Set.Ico 5085 5096 := by
    ext u
    constructor
    · rintro ⟨a, n, hlive, hu⟩
      rw [allFreed_live] at hlive
      split at hlive
      · next ha =>
        cases hlive
        rw [ha] at hu
        exact hu
      · contradiction
    · intro hu
      exact ⟨5085, 80, by rw [allFreed_live, if_pos rfl], hu⟩
  rw [harea, hheld]
  ext u
  simp only [Set.mem_sdiff, Set.mem_Ico]
  omega

/-- Everything but the block of 80 bytes is one free block again: without growth it serves a request that
none of its parts could, and no larger one. -/
theorem malloc_null_iff_booted : ∃ acts s, Run (Step 10) booted acts s ∧ s.live 5085 = some 80 ∧
    ∃ fuel h a h', s.heap.malloc 10 fuel false 30000 = some (h, some a) ∧
      s.heap.malloc 10 fuel false 32680 = some (h', none) := by
  have hrun := allFreed_run
  rcases malloc_null_iff fresh_booted modest_busy hrun (show 30000 ≤ maxRequest by decide) false with
    ⟨enough, hserves⟩
  rcases malloc_null_iff fresh_booted modest_busy hrun (show 32680 ≤ maxRequest by decide) false with
    ⟨enough', hrefuses⟩
  rcases (hserves _ (le_max_left enough enough')).1 with ⟨h, result, hcall, hnull⟩
  rcases (hrefuses _ (le_max_right enough enough')).1 with ⟨h', result', hcall', hnull'⟩
  rw [allFreed_free] at hnull hnull'
  have hserved : result ≠ none := fun hnone =>
    (hnull.mp hnone).2 ⟨1000, fun u hu => ⟨hu.1, Nat.lt_of_lt_of_le hu.2 (by decide)⟩⟩
  have hrefused : result' = none := by
    refine hnull'.mpr ⟨fun hgranted => absurd hgranted.1 (by decide), ?_⟩
    rintro ⟨a, hcover⟩
    have hfirst := (hcover ⟨Nat.le_refl a, Nat.lt_add_of_pos_right (units_pos 32680)⟩).1
    have hlast := (hcover (show a + 4085 ∈ span a (units 32680) from
      ⟨Nat.le_add_right a 4085, Nat.add_lt_add_left (by decide) a⟩)).2
    omega
  rcases Option.ne_none_iff_exists'.mp hserved with ⟨a, rfl⟩
  exact ⟨_, allFreed, hrun, allFreed_live 5085, _, h, a, h', hcall, hrefused ▸ hcall'⟩

end Program

end OsSessional.Userland
