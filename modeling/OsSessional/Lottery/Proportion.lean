import OsSessional.Lottery.ProcTable

/-!
# Proportional shares

As long as the tickets fit into an `int`, the scan of the scheduler is the scan over natural weights,
and the lottery gives every RUNNABLE process the same number of generator values for each ticket.
-/

namespace OsSessional.Lottery

open Draws

namespace Table

variable {proc : Table}

/-- Every RUNNABLE process has a ticket. -/
def Positive (proc : Table) : Prop := ∀ p, Runnable proc p → 1 ≤ (proc p).ticket

/-- The tickets of a slot as a weight. -/
def weight (proc : Table) (p : Slot) : Nat := (tickets proc p).toNat

theorem weight_eq (h : Positive proc) (p : Slot) : (weight proc p : Int) = tickets proc p := by
  unfold weight tickets
  split
  · next hrun =>
    have hpos := Int32.le_iff_toInt_le.mp (h p hrun)
    rw [Int32.toInt_one] at hpos
    omega
  · rfl

private theorem total_weight (h : Positive proc) (l : List Slot) :
    (Share.total (weight proc) l : Int) = (l.map (tickets proc)).sum := by
  induction l with
  | nil => rfl
  | cons p l ih =>
    have hp := weight_eq h p
    simp only [Share.total, List.map_cons, List.sum_cons] at ih ⊢
    rw [Nat.cast_add, hp, ih]

theorem total_slots (h : Positive proc) :
    (Share.total (weight proc) (List.finRange nProc) : Int) = allTickets proc := by
  rw [total_weight h, sum_finRange]
  rfl

theorem allTickets_nonneg (h : Positive proc) : 0 ≤ allTickets proc := by
  rw [← total_slots h]
  exact Int.natCast_nonneg _

theorem getRunnableProcTickets_of_le (h : Positive proc) (hmax : allTickets proc ≤ randMax) :
    (getRunnableProcTickets proc).toInt = allTickets proc := by
  have hpos := allTickets_nonneg h
  unfold randMax at hmax
  rw [getRunnableProcTickets_toInt]
  exact Int.bmod_eq_of_le (by omega) (by omega)

theorem scan_eq_pick (h : Positive proc) (win_ticket : Int32) (l : List Slot) (cur_total : Int32)
    (hcur : 0 ≤ cur_total.toInt ∧ cur_total.toInt ≤ win_ticket.toInt)
    (hfit : cur_total.toInt + Share.total (weight proc) l ≤ randMax) :
    scan proc win_ticket cur_total l =
      Share.pick (weight proc) l (win_ticket.toInt - cur_total.toInt).toNat := by
  induction l generalizing cur_total with
  | nil => rfl
  | cons p l ih =>
    have hp := weight_eq h p
    simp only [Share.total, List.map_cons, List.sum_cons] at hfit ih
    simp only [scan, Share.pick]
    by_cases hrun : Runnable proc p
    · have hweight : (weight proc p : Int) = (proc p).ticket.toInt := by
        rw [hp, tickets, if_pos hrun]
      have hnext : (cur_total + (proc p).ticket).toInt = cur_total.toInt + weight proc p := by
        rw [Int32.toInt_add, ← hweight]
        unfold randMax at hfit
        exact Int.bmod_eq_of_le (by omega) (by omega)
      rw [if_pos hrun]
      by_cases hwin : cur_total + (proc p).ticket > win_ticket
      · have hlt := Int32.lt_iff_toInt_lt.mp hwin
        rw [if_pos hwin, if_pos (by omega)]
      · have hle := Int32.le_iff_toInt_le.mp (Int32.not_lt.mp hwin)
        rw [if_neg hwin, if_neg (by omega), ih _ (by omega) (by omega)]
        congr 1
        omega
    · have hzero : weight proc p = 0 := by
        rw [weight, tickets, if_neg hrun]
        rfl
      rw [if_neg hrun, hzero, if_neg (Nat.not_lt_zero _), ih _ hcur (by omega)]
      rfl

theorem winner_eq_some_iff (h : Positive proc) (hmax : allTickets proc ≤ randMax) {win_ticket : Int32}
    (hwin : 0 ≤ win_ticket.toInt) (p : Slot) :
    winner proc win_ticket = some p ↔
      Share.before (weight proc) (List.finRange nProc) p ≤ win_ticket.toInt.toNat ∧
      win_ticket.toInt.toNat <
        Share.before (weight proc) (List.finRange nProc) p + weight proc p := by
  have hfit := total_slots h
  unfold winner
  rw [scan_eq_pick h win_ticket _ 0 (by simpa using hwin) (by rw [Int32.toInt_zero]; omega),
    Int32.toInt_zero, sub_zero]
  exact Share.pick_eq_some_iff (List.nodup_finRange nProc) (List.mem_finRange p)

/-- The raw generator values. -/
def raw : Finset Nat := Finset.range (randMax + 1)

/-- What one round does with the raw generator values. -/
structure Fair (proc : Table) : Prop where
  share : ∀ p, ((raw.filter fun x =>
      lottery proc [UInt32.ofNat x] = .ok (some (some p))).card : Int) =
    (bin_size (getRunnableProcTickets proc)).toNat * tickets proc p
  range : ∀ x ∈ raw, accepts (getRunnableProcTickets proc) (UInt32.ofNat x) = true →
    0 ≤ (draw (getRunnableProcTickets proc) (UInt32.ofNat x)).toInt ∧
      (draw (getRunnableProcTickets proc) (UInt32.ofNat x)).toInt ≤ allTickets proc
  accepted : raw.card < 2 * (raw.filter fun x =>
    accepts (getRunnableProcTickets proc) (UInt32.ofNat x) = true).card

private theorem toNat_of_mem_raw {x : Nat} (hx : x ∈ raw) : (UInt32.ofNat x).toNat = x := by
  have hlt := Finset.mem_range.mp hx
  unfold randMax at hlt
  exact UInt32.toNat_ofNat_of_lt' (by simp only [UInt32.size]; omega)

private theorem lottery_eq_some_iff (h : Positive proc) (hmax : allTickets proc ≤ randMax) {x : Nat}
    (hx : x ∈ raw) (p : Slot) :
    lottery proc [UInt32.ofNat x] = .ok (some (some p)) ↔
      Share.before (weight proc) (List.finRange nProc) p ≤
          x / ((randMax + 1) / bins (getRunnableProcTickets proc)) ∧
        x / ((randMax + 1) / bins (getRunnableProcTickets proc)) <
          Share.before (weight proc) (List.finRange nProc) p + weight proc p := by
  have htotal := getRunnableProcTickets_of_le h hmax
  have hnonneg : 0 ≤ getRunnableProcTickets proc := by
    rw [Int32.le_iff_toInt_le, htotal]
    exact allTickets_nonneg h
  unfold lottery
  rw [random_at_most_singleton hnonneg]
  by_cases hacc : accepts (getRunnableProcTickets proc) (UInt32.ofNat x) = true
  · have hdraw := draw_toInt hnonneg hacc
    rw [toNat_of_mem_raw hx] at hdraw
    rw [if_pos hacc]
    simp only [Except.ok.injEq, Option.some.injEq]
    rw [winner_eq_some_iff h hmax (by rw [hdraw]; exact Int.natCast_nonneg _), hdraw, Int.toNat_natCast]
  · -- a rejected value lies past the last bin, so past every interval
    have hpast := mt (accepts_iff hnonneg).mpr hacc
    rw [toNat_of_mem_raw hx, not_lt, ← Share.bins_mul, mul_comm] at hpast
    have hend := Share.before_add_le (w := weight proc) (List.mem_finRange p)
    have hslots := total_slots h
    have hbins : Share.total (weight proc) (List.finRange nProc) <
        bins (getRunnableProcTickets proc) := by
      unfold bins
      omega
    have hdiv := (Nat.le_div_iff_mul_le (bin_size_pos (getRunnableProcTickets proc))).mpr hpast
    rw [if_neg hacc]
    simp only [Except.ok.injEq, reduceCtorEq, false_iff]
    omega

/-- The lottery is proportional. -/
theorem lottery_fair (h : Positive proc) (hmax : allTickets proc ≤ randMax) : Fair proc := by
  have htotal := getRunnableProcTickets_of_le h hmax
  have hnonneg : 0 ≤ getRunnableProcTickets proc := by
    rw [Int32.le_iff_toInt_le, htotal]
    exact allTickets_nonneg h
  constructor
  · intro p
    have hend := Share.before_add_le (w := weight proc) (List.mem_finRange p)
    have hslots := total_slots h
    have hbins : Share.before (weight proc) (List.finRange nProc) p + weight proc p ≤
        bins (getRunnableProcTickets proc) := by
      unfold bins
      omega
    have hfit : (randMax + 1) / bins (getRunnableProcTickets proc) *
        (Share.before (weight proc) (List.finRange nProc) p + weight proc p) ≤ randMax + 1 :=
      (Nat.mul_le_mul_left _ hbins).trans (Nat.div_mul_le_self _ _)
    rw [Finset.filter_congr fun x hx => lottery_eq_some_iff h hmax hx p, raw,
      Share.card_bins (bin_size_pos _) hfit, bin_size_toNat hnonneg, ← weight_eq h p]
    exact Nat.cast_mul _ _
  · intro x hx hacc
    have hdraw := draw_le hnonneg hacc
    rw [Int32.le_iff_toInt_le, Int32.le_iff_toInt_le, Int32.toInt_zero, htotal] at hdraw
    exact hdraw
  · have haccepted : raw.filter (fun x =>
        accepts (getRunnableProcTickets proc) (UInt32.ofNat x) = true) =
        Finset.range (randMax + 1 - (randMax + 1) % bins (getRunnableProcTickets proc)) := by
      ext x
      simp only [Finset.mem_filter, Finset.mem_range]
      constructor
      · intro hboth
        have hlt := (accepts_iff hnonneg).mp hboth.2
        rwa [toNat_of_mem_raw hboth.1] at hlt
      · intro hlt
        have hx : x ∈ raw := Finset.mem_range.mpr (by omega)
        refine ⟨hx, (accepts_iff hnonneg).mpr ?_⟩
        rwa [toNat_of_mem_raw hx]
    have hpos : 0 < bins (getRunnableProcTickets proc) := Nat.succ_pos _
    have hhalf := Share.two_mul_mod_lt hpos (bins_le _)
    rw [haccepted, raw, Finset.card_range, Finset.card_range]
    omega

/-- Two RUNNABLE processes and one asleep. -/
def threeProcs : Table := fun p =>
  if p = 0 then ⟨.RUNNABLE, 5, none, none, false, 10, 0⟩
  else if p = 1 then ⟨.SLEEPING, 7, none, some .ticks, false, 20, 0⟩
  else if p = 2 then ⟨.RUNNABLE, 9, none, none, false, 40, 0⟩
  else ⟨.UNUSED, 0, none, none, false, 0, 0⟩

/-- They share the generator values one to four. -/
theorem lottery_fair_three : Fair threeProcs ∧ tickets threeProcs 0 = 10 ∧
    tickets threeProcs 1 = 0 ∧ tickets threeProcs 2 = 40 := by
  refine ⟨lottery_fair ?_ ?_, ?_⟩
  · unfold Positive
    decide +kernel
  · decide +kernel
  · decide +kernel

end Table

end OsSessional.Lottery
