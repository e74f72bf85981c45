import OsSessional.Storage.Log

/-!
# What recovery makes of a disc

The disc after `recover_from_log`, as a function of the disc before it. The blocks that the system
calls write lie outside of the log; a block written to its place while the log holds it, and a
header that is erased once every block is in its place, do not change what recovery gives.
-/

namespace OsSessional.Storage

open Function (update update_self update_of_ne)

variable {area : LogArea} {disk : BlockId → Block} {lh : List Nat} {b : BlockId} {v : Block}
  {i j : Nat}

namespace LogArea

theorem slot_inj (h : area.slot i = area.slot j) : i = j := by
  have hno := congrArg BlockId.blockno h
  simp only [slot, at_] at hno
  omega

theorem slot_ne_header : area.slot i ≠ area.header := by
  intro h
  have hno := congrArg BlockId.blockno h
  simp only [slot, header, at_] at hno
  omega

theorem Home.ne_slot (h : area.Home b) (hi : i + 1 < area.size) : b ≠ area.slot i := by
  intro heq
  have hno := congrArg BlockId.blockno heq
  rcases h with ⟨-, h⟩
  simp only [slot, at_] at hno
  omega

theorem Home.ne_header (h : area.Home b) (hsize : 0 < area.size) : b ≠ area.header := by
  intro heq
  have hno := congrArg BlockId.blockno heq
  rcases h with ⟨-, h⟩
  simp only [header, at_] at hno
  omega

end LogArea

/-- A header may name these blocks. -/
structure Covers (area : LogArea) (lh : List Nat) : Prop where
  nodup : lh.Nodup
  home : ∀ b ∈ lh, area.Home (area.at_ b)
  word : ∀ b ∈ lh, b < 2 ^ 32
  room : lh.length < area.size
  short : lh.length < 2 ^ 32

namespace Covers

private theorem entry_mem (area : LogArea) (hi : i < lh.length) :
    ∃ b ∈ lh, entry area lh i = area.at_ b :=
  ⟨lh[i], List.getElem_mem hi, congrArg area.at_ (List.getD_eq_getElem _ _ hi)⟩

theorem entry_home (h : Covers area lh) (hi : i < lh.length) : area.Home (entry area lh i) := by
  rcases entry_mem area hi with ⟨b, hb, heq⟩
  rw [heq]
  exact h.home b hb

theorem entry_inj (h : Covers area lh) (hi : i < lh.length) (hj : j < lh.length)
    (heq : entry area lh i = entry area lh j) : i = j := by
  have hno := congrArg BlockId.blockno heq
  simp only [entry, LogArea.at_, List.getD_eq_getElem _ _ hi, List.getD_eq_getElem _ _ hj] at hno
  exact (List.Nodup.getElem_inj_iff h.nodup).mp hno

theorem slot_room (h : Covers area lh) (hi : i < lh.length) : i + 1 < area.size :=
  lt_of_le_of_lt hi h.room

theorem entry_ne_slot (h : Covers area lh) (hi : i < lh.length) (hj : j < lh.length) :
    entry area lh i ≠ area.slot j :=
  (h.entry_home hi).ne_slot (h.slot_room hj)

theorem entry_ne_header (h : Covers area lh) (hi : i < lh.length) :
    entry area lh i ≠ area.header :=
  (h.entry_home hi).ne_header (lt_of_le_of_lt (Nat.zero_le _) h.room)

theorem nil (hsize : 0 < area.size) : Covers area [] :=
  ⟨List.nodup_nil, by simp, by simp, hsize, by simp⟩

end Covers

/-- The entries name the blocks of the list. -/
theorem mem_entries (hb : area.Home b) :
    b.blockno ∈ lh ↔ ∃ i < lh.length, entry area lh i = b := by
  constructor
  · intro hmem
    rcases List.getElem_of_mem hmem with ⟨i, hi, heq⟩
    refine ⟨i, hi, ?_⟩
    rw [entry, List.getD_eq_getElem _ _ hi, heq, LogArea.at_, ← hb.1]
  · rintro ⟨i, hi, rfl⟩
    rw [entry, List.getD_eq_getElem _ _ hi]
    exact List.getElem_mem hi

/-- The writes that a log on disc with the entries `lh` stands for. -/
def logWrites (area : LogArea) (lh : List Nat) (disk : BlockId → Block) : List (BlockId × Block) :=
  (List.range lh.length).map fun i => (entry area lh i, disk (area.slot i))

/-- What `recover_from_log` makes of the blocks outside of the log. -/
def recovered (area : LogArea) (disk : BlockId → Block) : BlockId → Block :=
  replay (logWrites area (readHead (disk area.header)) disk) disk

private theorem mem_logWrites {w : BlockId × Block} :
    w ∈ logWrites area lh disk ↔ ∃ i < lh.length, (entry area lh i, disk (area.slot i)) = w := by
  simp [logWrites]

private theorem mem_keys : b ∈ (logWrites area lh disk).map Prod.fst ↔ ∃ i < lh.length, entry area lh i = b := by
  simp [logWrites]

/-- An erased log. -/
theorem recovered_nil (h : readHead (disk area.header) = []) : recovered area disk = disk := by
  unfold recovered
  rw [h]
  rfl

private theorem Covers.nodup_keys (h : Covers area lh) :
    ((logWrites area lh disk).map Prod.fst).Nodup := by
  rw [logWrites, List.map_map]
  refine List.Nodup.map_on (fun i hi j hj heq => ?_) List.nodup_range
  exact h.entry_inj (List.mem_range.mp hi) (List.mem_range.mp hj) heq

theorem recovered_entry (h : readHead (disk area.header) = lh) (hcovers : Covers area lh)
    (hi : i < lh.length) : recovered area disk (entry area lh i) = disk (area.slot i) := by
  unfold recovered
  rw [h]
  exact replay_of_mem hcovers.nodup_keys (mem_logWrites.mpr ⟨i, hi, rfl⟩)

theorem recovered_of_ne (h : readHead (disk area.header) = lh)
    (hne : ∀ i < lh.length, entry area lh i ≠ b) : recovered area disk b = disk b := by
  unfold recovered
  rw [h]
  refine replay_of_not_mem fun hmem => ?_
  rcases mem_keys.mp hmem with ⟨i, hi, heq⟩
  exact hne i hi heq

private theorem logWrites_congr {disk' : BlockId → Block}
    (h : ∀ i < lh.length, disk' (area.slot i) = disk (area.slot i)) :
    logWrites area lh disk' = logWrites area lh disk := by
  refine List.map_congr_left fun i hi => ?_
  rw [h i (List.mem_range.mp hi)]

theorem recovered_slot (h : readHead (disk area.header) = []) (hb : area.Home b)
    (hi : i + 1 < area.size) : recovered area (update disk (area.slot i) v) b = recovered area disk b := by
  rw [recovered_nil h, recovered_nil (by rw [update_of_ne LogArea.slot_ne_header.symm, h]),
    update_of_ne (hb.ne_slot hi)]

theorem recovered_install (h : readHead (disk area.header) = lh) (hcovers : Covers area lh)
    (hi : i < lh.length) :
    recovered area (update disk (entry area lh i) v) = recovered area disk := by
  have hslot : ∀ j < lh.length,
      update disk (entry area lh i) v (area.slot j) = disk (area.slot j) := fun j hj =>
    update_of_ne (hcovers.entry_ne_slot hi hj).symm ..
  unfold recovered
  rw [update_of_ne (hcovers.entry_ne_header hi).symm, h, logWrites_congr hslot]
  exact replay_update (mem_keys.mpr ⟨i, hi, rfl⟩)

theorem recovered_done (h : readHead (disk area.header) = lh)
    (hdone : ∀ i < lh.length, disk (entry area lh i) = disk (area.slot i)) :
    recovered area disk = disk := by
  unfold recovered
  rw [h]
  refine replay_done fun w hw => ?_
  rcases mem_logWrites.mp hw with ⟨i, hi, rfl⟩
  exact hdone i hi

end OsSessional.Storage
