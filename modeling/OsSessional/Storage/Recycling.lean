import OsSessional.Storage.Coherence

/-!
# What the cache shows and which buffer it gives up

Every run of the cache from `binit` on is seen from outside as a run of the block store. The moments
at which buffers were released last are counted beside a run; the buffer that `bget` recycles is the
one released longest ago among those it may recycle.
-/

namespace OsSessional.Storage

open Function (update update_self update_of_ne)

variable {n : Nat} {ι : Type} [Fintype ι] [DecidableEq ι]

namespace Bcache

/-- The cache as `binit` leaves it, over a disc. -/
structure Booted (s : Bcache n ι) : Prop where
  cold : s = s.cold

omit [DecidableEq ι] in
theorem Booted.agrees {s : Bcache n ι} (h : s.Booted) : s.Sessions ∧ s.Agrees ⟨s.disk, s.disk⟩ := by
  have hcrash : s.Agrees ⟨s.disk, s.disk⟩ := by
    rw [h.cold]
    exact {
      disk := rfl
      data := fun i hdev => absurd rfl hdev
      clean := fun i hdev => absurd rfl hdev
      uncached := fun _ _ _ => rfl
      valid := fun p i w hp => by simp [Bcache.cold] at hp
      dirty := fun i hi => by simp [Bcache.cold] at hi }
  refine ⟨?_, hcrash⟩
  rw [h.cold]
  exact cold_sessions s

/-- In every interleaving of `bread`, `bwrite`, `log_write` and `brelse` over a cache of any size,
what the holders of buffers see and what gets to the disc is what a plain table of blocks shows;
every block has one buffer at most, and one session at a time holds it. -/
theorem coherent_of_run {s s' : Bcache n ι} {ios : List (Option Io)} (hboot : s.Booted)
    (hrun : Run Bcache.Step s ios s') :
    ∃ t, Run Store.Step ⟨s.disk, s.disk⟩ (ios.filter Option.isSome) t ∧ t.disk = s'.disk ∧
      (∀ p i w, s'.place p = .held i w → (s'.buf i).data = t.mem (s'.buf i).id) ∧
      (∀ i j, (s'.buf i).id = (s'.buf j).id → (s'.buf i).id.dev ≠ 0 → i = j) ∧
      (∀ p q i, (s'.place p).owns = some i → (s'.place q).owns = some i → p = q) := by
  rcases simulates_store.trace hrun hboot.agrees with ⟨t, hspec, hs, h⟩
  refine ⟨t, hspec, h.disk, ?_, hs.once, ?_⟩
  · intro p i w hp
    exact h.data i (hs.asked p i (by rw [hp]; rfl)) (h.valid p i w hp)
  · exact fun p q i hp hq => hs.holder_unique hq hp

/-- Two buffers and two sessions after `binit`, over an empty disc. -/
def fresh : Bcache 2 (Fin 2) where
  buf _ := ⟨false, false, ⟨0, 0⟩, 0, fun _ => 0⟩
  lock _ := none
  chain := .binit
  disk _ _ := 0
  place _ := .idle

/-- Session `0` reads a block and changes it; session `1` waits for the same buffer. -/
theorem coherent_of_run_put : ∃ s' ios t, Run Bcache.Step fresh ios s' ∧ s'.place 0 = .held 0 true ∧
    s'.place 1 = .waiting 0 ∧ Run Store.Step ⟨fresh.disk, fresh.disk⟩ (ios.filter Option.isSome) t ∧
    (s'.buf 0).data = t.mem ⟨1, 7⟩ := by
  have hrun : ∃ s' ios, Run Bcache.Step fresh ios s' ∧ s'.place 0 = .held 0 true ∧
      s'.place 1 = .waiting 0 ∧ (s'.buf 0).id = ⟨1, 7⟩ :=
    ⟨_, _, .cons ⟨.session 0 (.bget ⟨1, 7⟩), rfl⟩ (.cons ⟨.session 0 .acquiresleep, rfl⟩
      (.cons ⟨.session 0 .bread, rfl⟩ (.cons ⟨.session 1 (.bget ⟨1, 7⟩), rfl⟩
      (.cons ⟨.session 0 .ideintr, rfl⟩ (.cons ⟨.session 0 (.put fun _ => 5), rfl⟩ (.nil _)))))),
      rfl, rfl, rfl⟩
  rcases hrun with ⟨s', ios, hrun, h0, h1, hid⟩
  rcases coherent_of_run ⟨rfl⟩ hrun with ⟨t, hspec, -, hheld, -⟩
  exact ⟨s', ios, t, hrun, h0, h1, hspec, hid ▸ hheld 0 0 true h0⟩

end Bcache

/-- A cache with the moment each buffer was put to the front of the list. -/
structure Clocked (n : Nat) (ι : Type) where
  cache : Bcache n ι
  stamp : Fin n → Nat
  clock : Nat

namespace Clocked

/-- The buffer that a step puts to the front. -/
def front (s : Bcache n ι) (p : ι) (a : Session) : Option (Fin n) :=
  match a, s.place p with
  | .unref, .leaving i => if (s.buf i).refcnt - 1 = 0 then some i else none
  | _, _ => none

/-- A step of the cache with the clock; a restart begins again with the order of `binit`. -/
def next (c : Clocked n ι) : CacheAct ι → Option (Clocked n ι)
  | .session p a => (c.cache.next p a).map fun r =>
    { cache := r.1
      stamp := (front c.cache p a).elim c.stamp fun i => update c.stamp i c.clock
      clock := c.clock + 1 }
  | .crash => some { cache := c.cache.cold, stamp := fun i => i, clock := c.clock + 1 }

def Step (c : Clocked n ι) (a : CacheAct ι) (c' : Clocked n ι) : Prop := c.next a = some c'

/-- The cache after `binit`. -/
structure Booted (c : Clocked n ι) : Prop where
  cache : c.cache.Booted
  stamp : ∀ i, c.stamp i = i
  clock : n ≤ c.clock

/-- The list runs from the latest stamp to the earliest. -/
structure Ordered (c : Clocked n ι) : Prop where
  sessions : c.cache.Sessions
  sorted : ∃ l, c.cache.chain.Lists l ∧ (∀ i, i ∈ l) ∧ l.Pairwise fun i j => c.stamp j < c.stamp i
  below : ∀ i, c.stamp i < c.clock
  room : n ≤ c.clock

variable {c c' : Clocked n ι} {a : CacheAct ι} {i j : Fin n}

private theorem binit_sorted :
    (List.finRange n).reverse.Pairwise fun i j : Fin n => (j : Nat) < (i : Nat) := by
  rw [List.pairwise_reverse]
  exact (List.pairwise_lt_finRange n).imp fun hlt => hlt

omit [DecidableEq ι] in
private theorem Booted.ordered (h : c.Booted) : c.Ordered where
  sessions := h.cache.agrees.1
  sorted := by
    rw [h.cache.cold]
    refine ⟨_, binit_lists, by simp, ?_⟩
    refine binit_sorted.imp fun hlt => ?_
    rw [h.stamp, h.stamp]
    exact hlt
  below i := by
    rw [h.stamp]
    exact lt_of_lt_of_le i.isLt h.clock
  room := h.clock

omit [Fintype ι] in
private theorem next_chain {s s' : Bcache n ι} {p : ι} {a : Session} {io : Option Io}
    (h : s.next p a = some (s', io)) :
    s'.chain = (front s p a).elim s.chain fun i => (s.chain.unlink i).insert i := by
  cases Bcache.next_cases h with
  | @unref i hplace =>
    by_cases hzero : (s.buf i).refcnt - 1 = 0
    · simp [front, hplace, hzero, Bcache.unref]
    · simp [front, hplace, hzero, Bcache.unref]
  | _ => simp [front]

omit [DecidableEq ι] in
private theorem Ordered.toFront (h : c.Ordered) (i : Fin n) :
    ∃ l, ((c.cache.chain.unlink i).insert i).Lists l ∧ (∀ j, j ∈ l) ∧
      l.Pairwise fun j k => update c.stamp i c.clock k < update c.stamp i c.clock j := by
  rcases h.sorted with ⟨l, hl, hall, hsorted⟩
  rcases List.append_of_mem (hall i) with ⟨l₁, l₂, rfl⟩
  have hperm : (l₁ ++ i :: l₂).Perm (i :: (l₁ ++ l₂)) := List.perm_middle
  have hnodup := hperm.nodup_iff.mp hl.nodup
  have hne : ∀ j ∈ l₁ ++ l₂, j ≠ i := by
    rintro j hj rfl
    exact (List.nodup_cons.mp hnodup).1 hj
  have hrest := hsorted.sublist (List.Sublist.append_left (List.sublist_cons_self i l₂) l₁)
  refine ⟨i :: (l₁ ++ l₂), hl.moveFront, fun j => hperm.mem_iff.mp (hall j), ?_⟩
  refine List.pairwise_cons.mpr ⟨?_, ?_⟩
  · intro j hj
    rw [update_self, update_of_ne (hne j hj)]
    exact h.below j
  · refine hrest.imp_of_mem fun {j k} hj hk hlt => ?_
    rw [update_of_ne (hne j hj), update_of_ne (hne k hk)]
    exact hlt

private theorem Ordered.step (h : c.Ordered) (hstep : c.Step a c') : c'.Ordered := by
  have hroom : n ≤ c.clock + 1 := Nat.le_succ_of_le h.room
  cases a with
  | crash =>
    simp only [Step, next, Option.some.injEq] at hstep
    rw [← hstep]
    refine ⟨Bcache.cold_sessions _, ⟨_, binit_lists, by simp, binit_sorted⟩, ?_, hroom⟩
    exact fun j => lt_of_lt_of_le j.isLt hroom
  | session p a =>
    simp only [Step, next, Option.map_eq_some_iff] at hstep
    rcases hstep with ⟨⟨s', io⟩, hnext, rfl⟩
    have hchain := next_chain hnext
    refine ⟨h.sessions.next hnext, ?_, ?_, hroom⟩
    · dsimp only
      rw [hchain]
      cases front c.cache p a with
      | none => exact h.sorted
      | some i => exact h.toFront i
    · intro j
      dsimp only
      cases front c.cache p a with
      | none => exact Nat.lt_succ_of_lt (h.below j)
      | some i =>
        by_cases hj : j = i
        · rw [Option.elim_some, hj, update_self]
          exact Nat.lt_succ_self _
        · rw [Option.elim_some, update_of_ne hj]
          exact Nat.lt_succ_of_lt (h.below j)

omit [DecidableEq ι] in
private theorem Ordered.victim_oldest (h : c.Ordered) (hvictim : c.cache.victim = some i)
    (hspare : c.cache.spare j = true) : c.stamp i ≤ c.stamp j := by
  rcases h.sorted with ⟨l, hl, hall, hsorted⟩
  rw [Bcache.victim, hl.backward hl.length_le] at hvictim
  rcases List.find?_eq_some_iff_append.mp hvictim with ⟨-, pre, post, hrev, hpre⟩
  have hmem : j ∈ l.reverse := List.mem_reverse.mpr (hall j)
  rw [hrev] at hmem
  have hback : (pre ++ i :: post).Pairwise fun i j => c.stamp i < c.stamp j := by
    rw [← hrev, List.pairwise_reverse]
    exact hsorted
  rcases List.mem_append.mp hmem with hin | hin
  · have hnot := hpre j hin
    rw [hspare] at hnot
    contradiction
  · rcases List.mem_cons.mp hin with rfl | hin
    · exact le_refl _
    · exact le_of_lt ((List.pairwise_cons.mp (List.pairwise_append.mp hback).2.1).1 j hin)

/-- In every run a buffer that `bget` recycles is clean, nobody refers to it, and of the buffers of
which this holds it was released longest ago. -/
theorem recycles_oldest_of_run {as : List (CacheAct ι)} (hboot : c.Booted) (hrun : Run Step c as c')
    {p : ι} {id : BlockId} {r : Bcache n ι × Option Io}
    (hget : c'.cache.next p (.bget id) = some r) (hmiss : c'.cache.hit id = none) :
    ∃ i, (r.1.buf i).id = id ∧ c'.cache.spare i = true ∧
      (∀ j, c'.cache.spare j = true → c'.stamp i ≤ c'.stamp j) ∧
      ∀ j, j ≠ i → r.1.buf j = c'.cache.buf j := by
  have h := hrun.keeps (fun _ _ _ hI hstep => Ordered.step hI hstep) hboot.ordered
  rcases r with ⟨s', io⟩
  cases Bcache.next_cases hget with
  | found hplace hdev hhit =>
    rw [hmiss] at hhit
    contradiction
  | @recycled i _ hplace hdev hhit hvictim =>
    have hspare := Bcache.victim_spare h.sessions hvictim
    refine ⟨i, ?_, ?_, fun j hj => h.victim_oldest hvictim hj, fun j hj => ?_⟩
    · simp
    · simp [Bcache.spare, hspare]
    · exact update_of_ne hj ..

/-- With blocks `7` and `8` in the two buffers and both released, block `9` takes the place of `7`. -/
theorem recycles_oldest_of_run_third : ∃ c' : Clocked 2 (Fin 2), ∃ r i,
    c'.cache.next 0 (.bget ⟨1, 9⟩) = some r ∧ (c'.cache.buf i).id = ⟨1, 7⟩ ∧ (r.1.buf i).id = ⟨1, 9⟩ := by
  have hrun : ∃ c' : Clocked 2 (Fin 2), ∃ as r, Run Step ⟨Bcache.fresh, fun i => i, 2⟩ as c' ∧
      c'.cache.next 0 (.bget ⟨1, 9⟩) = some r ∧ c'.cache.hit ⟨1, 9⟩ = none ∧
      (c'.cache.buf 1).id = ⟨1, 7⟩ ∧ c'.stamp 1 < c'.stamp 0 ∧ c'.cache.spare 1 = true :=
    ⟨_, [.session 0 (.bget ⟨1, 8⟩), .session 0 .acquiresleep, .session 0 .bread, .session 0 .ideintr,
      .session 1 (.bget ⟨1, 7⟩), .session 1 .acquiresleep, .session 1 .bread, .session 1 .ideintr,
      .session 1 .brelse, .session 1 .unref, .session 0 .brelse, .session 0 .unref], _,
      Run.of_foldlM rfl, rfl, rfl, rfl, by decide, rfl⟩
  rcases hrun with ⟨c', as, r, hrun, hget, hmiss, hid, hlt, hspare⟩
  rcases recycles_oldest_of_run ⟨⟨rfl⟩, fun _ => rfl, le_refl _⟩ hrun hget hmiss with
    ⟨i, hnew, -, hold, -⟩
  refine ⟨c', r, i, hget, ?_, hnew⟩
  have hle := hold 1 hspare
  have hi : i = 1 := by
    by_contra hne
    have hzero : i = 0 := by omega
    rw [hzero] at hle
    omega
  rw [hi, hid]

end Clocked

end OsSessional.Storage
