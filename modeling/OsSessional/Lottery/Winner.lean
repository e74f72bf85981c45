import OsSessional.Lottery.Tickets

/-!
# The winner of a round

The tickets are numbered from 0, each RUNNABLE process has an interval of them, and the round looks for
the process in whose interval the number drawn lies. `random_at_most` draws from 0 up to its argument,
which is the number of tickets, so there is one number too many: nobody holds the last one.
-/

namespace OsSessional.Lottery

open Function (update update_self update_of_ne)
open Draws

namespace Table

/-- The tickets of the RUNNABLE processes before slot `p`. -/
def ticketsBefore (proc : Table) (p : Slot) : Int := ∑ q, if q < p then tickets proc q else 0

/-- Process `p` is RUNNABLE and the number lies in its interval. -/
structure Wins (proc : Table) (win_ticket : Int32) (p : Slot) : Prop where
  runnable : Runnable proc p
  lower : ticketsBefore proc p ≤ win_ticket.toInt
  upper : win_ticket.toInt < ticketsBefore proc p + (proc p).ticket.toInt

variable {proc : Table} {p : Slot} {win_ticket : Int32}

private theorem before_weight (h : Positive proc) (p : Slot) :
    (Share.before (weight proc) (List.finRange nProc) p : Int) = ticketsBefore proc p := by
  rw [Share.before_eq_sum (List.pairwise_lt_finRange nProc) (List.mem_finRange p), ticketsBefore,
    ← sum_finRange, Nat.cast_list_sum, List.map_map]
  congr 1
  apply List.map_congr_left
  intro q _
  simp only [Function.comp_apply]
  split
  · exact weight_eq h q
  · rfl

private theorem winner_iff_wins (h : Positive proc) (hmax : allTickets proc ≤ randMax)
    (hwin : 0 ≤ win_ticket.toInt) : winner proc win_ticket = some p ↔ Wins proc win_ticket p := by
  have hbefore := before_weight h p
  rw [winner_eq_some_iff h hmax hwin]
  by_cases hrun : Runnable proc p
  · have hweight : (weight proc p : Int) = (proc p).ticket.toInt := by
      rw [weight_eq h, tickets, if_pos hrun]
    constructor
    · intro hin
      exact ⟨hrun, by omega, by omega⟩
    · intro hwins
      have hlower := hwins.lower
      have hupper := hwins.upper
      omega
  · have hzero : weight proc p = 0 := by
      rw [weight, tickets, if_neg hrun]
      rfl
    constructor
    · intro hin
      omega
    · exact fun hwins => absurd hwins.runnable hrun

private theorem winner_isSome_iff (h : Positive proc) (hmax : allTickets proc ≤ randMax)
    (hwin : 0 ≤ win_ticket.toInt) :
    (winner proc win_ticket).isSome = true ↔ win_ticket.toInt < allTickets proc := by
  have hslots := total_slots h
  rw [winner, scan_eq_pick h win_ticket _ 0 (by simpa using hwin) (by rw [Int32.toInt_zero]; omega),
    Share.pick_isSome_iff, Int32.toInt_zero]
  unfold Share.total at hslots
  omega

end Table

/-- The round leaves process `p` RUNNING on CPU `c` and touches no other process. -/
structure Dispatched {ncpu : Nat} (s s' : State ncpu) (c : Fin ncpu) (p : Slot) : Prop where
  cpu : ∃ d, s'.cpu c = some d ∧ d.slot = p
  running : (s'.proc p).state = .RUNNING
  others : ∀ q, q ≠ p → s'.proc q = s.proc q

/-- The round that draws `win_ticket` dispatches its winner. -/
def HasWinner {ncpu : Nat} (s : State ncpu) (c : Fin ncpu) (genrand : List UInt32) (win_ticket : Int32) :
    Prop :=
  ∃ p s', s.proc.Wins win_ticket p ∧ s.round c genrand = some s' ∧ Dispatched s s' c p

section Round

variable {ncpu : Nat} {s : State ncpu} {c : Fin ncpu} {genrand : List UInt32} {x : UInt32}

private theorem lottery_of_accepted (hnonneg : 0 ≤ s.proc.getRunnableProcTickets)
    (hx : genrand.find? (accepts s.proc.getRunnableProcTickets) = some x) : s.proc.lottery genrand =
      .ok (some (s.proc.winner (draw s.proc.getRunnableProcTickets x))) := by
  simp only [Table.lottery, random_at_most, if_neg (num_bins_ne_zero hnonneg),
    if_neg (bin_size_ne_zero hnonneg), hx]

private theorem dispatch_dispatched (p : Slot) : Dispatched s (s.dispatch c p) c p := by
  constructor
  · exact ⟨_, update_self .., rfl⟩
  · simp [State.dispatch, State.setProc]
  · intro q hq
    simp [State.dispatch, State.setProc, hq]

/-- A round dispatches the winner of the number it draws, unless the accepted generator value lies past
the bins of the tickets: then the number is the total itself, and the round dispatches nobody. -/
theorem round_winner_iff (hidle : s.cpu c = none) (hpositive : s.proc.Positive)
    (hmax : s.proc.allTickets ≤ randMax)
    (hx : genrand.find? (accepts s.proc.getRunnableProcTickets) = some x) :
    HasWinner s c genrand (draw s.proc.getRunnableProcTickets x) ↔
      (x.toNat : Int) < (bin_size s.proc.getRunnableProcTickets).toNat * s.proc.allTickets := by
  have htotal := Table.getRunnableProcTickets_of_le hpositive hmax
  have hpos := Table.allTickets_nonneg hpositive
  have hnonneg : 0 ≤ s.proc.getRunnableProcTickets := by
    rw [Int32.le_iff_toInt_le, htotal]
    exact hpos
  have haccepted : accepts s.proc.getRunnableProcTickets x = true := List.find?_some hx
  have hdraw := draw_toInt hnonneg haccepted
  have hwin : 0 ≤ (draw s.proc.getRunnableProcTickets x).toInt := by
    rw [hdraw]
    exact Int.natCast_nonneg _
  have hlottery := lottery_of_accepted hnonneg hx
  have hbins : (draw s.proc.getRunnableProcTickets x).toInt < s.proc.allTickets ↔
      (x.toNat : Int) < (bin_size s.proc.getRunnableProcTickets).toNat * s.proc.allTickets := by
    obtain ⟨n, hn⟩ := Int.eq_ofNat_of_zero_le hpos
    rw [hdraw, hn, bin_size_toNat hnonneg, ← Int.natCast_mul, Int.ofNat_lt, Int.ofNat_lt,
      Nat.div_lt_iff_lt_mul (bin_size_pos _), mul_comm]
  rw [← hbins, ← Table.winner_isSome_iff hpositive hmax hwin]
  constructor
  · rintro ⟨p, s', hwins, -, -⟩
    rw [(Table.winner_iff_wins hpositive hmax hwin).mpr hwins]
    rfl
  · intro hsome
    obtain ⟨p, hp⟩ := Option.isSome_iff_exists.mp hsome
    refine ⟨p, s.dispatch c p, (Table.winner_iff_wins hpositive hmax hwin).mp hp, ?_,
      dispatch_dispatched p⟩
    simp only [State.round, hidle, hlottery, hp]

/-- Two RUNNABLE processes with 10 and 40 tickets around one that sleeps: the first generator value is
rejected, the second draws the number 30, which the last of the three has. -/
theorem round_winner_three : HasWinner ({ State.boot with proc := Table.threeProcs } : State 1) 0
    [2147483647, 1300000000] (draw Table.threeProcs.getRunnableProcTickets 1300000000) := by
  apply (round_winner_iff rfl _ _ _).mpr
  · decide +kernel
  · unfold Table.Positive
    decide +kernel
  · decide +kernel
  · decide +kernel

/-- The first process alone, with 10 tickets, does not run when the number drawn is 10. -/
theorem round_without_winner : ¬ ∀ (s : State 1) (c : Fin 1) (genrand : List UInt32) (win_ticket : Int32),
    s.cpu c = none → (∃ p, s.proc.Runnable p) → (∀ p, (s.proc p).state ≠ .UNUSED → 1 ≤ (s.proc p).ticket) →
      s.proc.allTickets ≤ randMax →
      random_at_most s.proc.getRunnableProcTickets genrand = .ok (some win_ticket) →
      HasWinner s c genrand win_ticket := by
  intro h
  obtain ⟨p, s', hwins, -, -⟩ := h State.boot 0 [1952257860] 10 rfl ⟨0, rfl⟩ (by decide +kernel)
    (by decide +kernel) (by decide +kernel)
  have hall : ∀ p, (State.boot : State 1).proc.ticketsBefore p +
      ((State.boot : State 1).proc p).ticket.toInt ≤ 10 := by decide +kernel
  have hupper := lt_of_lt_of_le hwins.upper (hall p)
  revert hupper
  decide

end Round

end OsSessional.Lottery
