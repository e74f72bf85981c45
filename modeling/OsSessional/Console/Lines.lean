import Mathlib.Data.List.Induction
import OsSessional.Console.Input

/-!
# What readers of the console get

The ring with its three counters is a queue of bytes that were entered and a line that is being edited.
Readers take the entered bytes in order, a call returns at most one line, and a process sleeps only while
nothing is entered.
-/

namespace OsSessional.Console

open Function (update update_self update_of_ne update_eq_self)

/-- The bytes entered and not read, and the line that is being edited. -/
structure Tty where
  ready : List UInt8
  line : List UInt8

namespace Tty

/-- A character at the end of the line. -/
def put (t : Tty) (c : UInt8) : Tty :=
  if c = newline ∨ c = ctrl 'D' ∨ (t.ready ++ (t.line ++ [c])).length = inputBuf then
    ⟨t.ready ++ (t.line ++ [c]), []⟩
  else ⟨t.ready, t.line ++ [c]⟩

/-- What a key does. -/
def key (t : Tty) (c : UInt8) : Tty :=
  if c = ctrl 'P' then t
  else if c = ctrl 'U' then ⟨t.ready, []⟩
  else if c = ctrl 'H' ∨ c = delete then ⟨t.ready, t.line.dropLast⟩
  else if c ≠ 0 ∧ (t.ready ++ t.line).length < inputBuf then
    t.put (if c = carriageReturn then newline else c)
  else t

end Tty

private theorem inputBuf_dvd : inputBuf ∣ 2 ^ 32 := ⟨2 ^ 25, rfl⟩

private theorem inputBuf_lt : inputBuf < 2 ^ 32 := by decide

/-- The counters and the ring say what `t` says. -/
structure Holds (input : Input) (t : Tty) : Prop where
  ring : input.ring.Holds inputBuf (t.ready ++ t.line)
  write : input.w = input.r + UInt32.ofNat t.ready.length
  open' : newline ∉ t.line
  room : (t.ready ++ t.line).length = inputBuf → t.line = []

namespace Holds

variable {input : Input} {t : Tty}

private theorem lengths (h : Holds input t) : t.ready.length + t.line.length ≤ inputBuf := by
  have hsize := h.ring.size
  rw [List.length_append] at hsize
  exact hsize

private theorem edited_iff (h : Holds input t) : input.e = input.w ↔ t.line = [] := by
  have hcount : input.e = input.r + UInt32.ofNat (t.ready ++ t.line).length := h.ring.count
  have hle := h.lengths
  have hlt := inputBuf_lt
  rw [hcount, h.write, UInt32.add_right_inj, Ring.ofNat_inj (by rw [List.length_append]; omega) (by omega),
    List.length_append, ← List.length_eq_zero_iff]
  omega

private theorem empty_iff (h : Holds input t) : input.r = input.w ↔ t.ready = [] := by
  have hle := h.lengths
  have hlt := inputBuf_lt
  rw [h.write, ← List.length_eq_zero_iff, ← Ring.ofNat_inj (show t.ready.length < 2 ^ 32 by omega)
    (Nat.two_pow_pos 32)]
  constructor
  · intro heq
    exact UInt32.add_eq_left.mp heq.symm
  · intro heq
    exact (UInt32.add_eq_left.mpr heq).symm

private theorem room_iff (h : Holds input t) :
    input.e - input.r < UInt32.ofNat inputBuf ↔ (t.ready ++ t.line).length < inputBuf := by
  have hcount : input.e = input.r + UInt32.ofNat (t.ready ++ t.line).length := h.ring.count
  have hle := h.ring.size
  have hlt := inputBuf_lt
  rw [hcount, UInt32.add_comm, UInt32.add_sub_cancel, UInt32.lt_iff_toNat_lt, UInt32.toNat_ofNat',
    UInt32.toNat_ofNat', Nat.mod_eq_of_lt (by omega), Nat.mod_eq_of_lt hlt]

variable {line : List UInt8} {ready : List UInt8} {c : UInt8}

private theorem back (h : Holds input ⟨ready, line ++ [c]⟩) :
    Holds { input with e := input.e - 1 } ⟨ready, line⟩ where
  ring := by
    have hring := h.ring
    rw [← List.append_assoc] at hring
    exact hring.unput
  write := h.write
  open' := fun hmem => h.open' (List.mem_append_left _ hmem)
  room := by
    intro hfull
    have hle := h.ring.size
    rw [← List.append_assoc, List.length_append, hfull, List.length_singleton] at hle
    omega

private theorem killLine (h : Holds input ⟨ready, line⟩) : Holds input.killLine ⟨ready, []⟩ := by
  induction line using List.reverseRecOn generalizing input with
  | nil =>
    have hsame : input.e = input.w := h.edited_iff.mpr rfl
    rw [Input.killLine, dif_neg fun hgoes => hgoes.1 hsame]
    exact h
  | append_singleton line c ih =>
    have hedited : input.e ≠ input.w := fun heq => by
      have hnil := h.edited_iff.mp heq
      exact absurd hnil (List.append_ne_nil_of_right_ne_nil _ (List.cons_ne_nil _ _))
    have hring := h.ring
    rw [← List.append_assoc] at hring
    have hlast : input.buf ((input.e - 1).toNat % inputBuf) = c := hring.last inputBuf_dvd
    have hopen : input.buf ((input.e - 1).toNat % inputBuf) ≠ newline := by
      rw [hlast]
      rintro rfl
      exact h.open' (List.mem_append_right _ List.mem_cons_self)
    rw [Input.killLine, dif_pos ⟨hedited, hopen⟩]
    exact ih h.back

private theorem erase (h : Holds input t) :
    Holds (if input.e ≠ input.w then ({ input with e := input.e - 1 } : Input) else input)
      ⟨t.ready, t.line.dropLast⟩ := by
  rcases List.eq_nil_or_concat' t.line with hnil | ⟨line, c, hline⟩
  · rw [if_neg fun hne => hne (h.edited_iff.mpr hnil), hnil]
    rw [show t = ⟨t.ready, []⟩ from congrArg (Tty.mk t.ready) hnil] at h
    exact h
  · have hne : input.e ≠ input.w := fun heq => by
      have hnil := h.edited_iff.mp heq
      rw [hline] at hnil
      exact absurd hnil (List.append_ne_nil_of_right_ne_nil _ (List.cons_ne_nil _ _))
    rw [if_pos hne, hline, List.dropLast_concat]
    rw [show t = ⟨t.ready, line ++ [c]⟩ from congrArg (Tty.mk t.ready) hline] at h
    exact h.back

private theorem put_ring (h : Holds input t) (hroom : (t.ready ++ t.line).length < inputBuf) (c : UInt8) :
    (input.put c).ring.Holds inputBuf (t.ready ++ (t.line ++ [c])) := by
  rw [← List.append_assoc]
  exact h.ring.put hroom inputBuf_dvd c

private theorem enters_iff (h : Holds input t) (hroom : (t.ready ++ t.line).length < inputBuf) (c : UInt8) :
    (c = newline ∨ c = ctrl 'D' ∨ (input.put c).e = (input.put c).r + UInt32.ofNat inputBuf) ↔
      (c = newline ∨ c = ctrl 'D' ∨ (t.ready ++ (t.line ++ [c])).length = inputBuf) := by
  have hfull : (input.put c).e = (input.put c).r + UInt32.ofNat inputBuf ↔
      (t.ready ++ (t.line ++ [c])).length = inputBuf := (h.put_ring hroom c).full_iff inputBuf_lt
  rw [hfull]

private theorem enter (h : Holds input t) (hroom : (t.ready ++ t.line).length < inputBuf)
    (hends : c = newline ∨ c = ctrl 'D' ∨ (input.put c).e = (input.put c).r + UInt32.ofNat inputBuf) :
    Holds { input.put c with w := (input.put c).e } (t.put c) := by
  have hring := h.put_ring hroom c
  rw [Tty.put, if_pos ((h.enters_iff hroom c).mp hends)]
  refine ⟨?_, hring.count, List.not_mem_nil, fun _ => rfl⟩
  rw [List.append_nil]
  exact hring

private theorem put (h : Holds input t) (hroom : (t.ready ++ t.line).length < inputBuf)
    (hends : ¬ (c = newline ∨ c = ctrl 'D' ∨
      (input.put c).e = (input.put c).r + UInt32.ofNat inputBuf)) :
    Holds (input.put c) (t.put c) ∧ (t.put c).ready = t.ready := by
  rw [h.enters_iff hroom c] at hends
  rw [Tty.put, if_neg hends]
  rw [not_or, not_or] at hends
  refine ⟨⟨h.put_ring hroom c, h.write, ?_, fun heq => absurd heq hends.2.2⟩, rfl⟩
  rw [List.mem_append, List.mem_singleton, not_or]
  exact ⟨h.open', fun heq => hends.1 heq.symm⟩

private theorem intr (h : Holds input t) (c : UInt8) : Holds (input.intr c).1 (t.key c) ∧
    ((input.intr c).2 = false → (t.key c).ready = t.ready) := by
  unfold Input.intr Tty.key
  split
  · exact ⟨h, fun _ => rfl⟩
  · split
    · exact ⟨h.killLine, fun _ => rfl⟩
    · split
      · have herase := h.erase
        split
        · next hne =>
          rw [if_pos hne] at herase
          exact ⟨herase, fun _ => rfl⟩
        · next hsame =>
          rw [if_neg hsame] at herase
          exact ⟨herase, fun _ => rfl⟩
      · by_cases hroom : c ≠ 0 ∧ (t.ready ++ t.line).length < inputBuf
        · rw [if_pos ⟨hroom.1, h.room_iff.mpr hroom.2⟩, if_pos hroom]
          simp only
          generalize (if c = carriageReturn then newline else c) = d
          split
          · next hends => exact ⟨h.enter hroom.2 hends, fun hfalse => by cases hfalse⟩
          · next hends =>
            have hput := h.put hroom.2 hends
            exact ⟨hput.1, fun _ => hput.2⟩
        · rw [if_neg fun hgoes => hroom ⟨hgoes.1, h.room_iff.mp hgoes.2⟩, if_neg hroom]
          exact ⟨h, fun _ => rfl⟩

private theorem take (h : Holds input ⟨c :: ready, line⟩) :
    input.buf (input.r.toNat % inputBuf) = c ∧ Holds { input with r := input.r + 1 } ⟨ready, line⟩ := by
  refine ⟨h.ring.front, h.ring.take inputBuf_dvd, ?_, h.open', ?_⟩
  · have hwrite := h.write
    rw [List.length_cons, Nat.add_comm, UInt32.ofNat_add, ← UInt32.add_assoc] at hwrite
    exact hwrite
  · intro hfull
    have hle : (ready ++ line).length + 1 ≤ inputBuf := h.ring.size
    have hlength : (ready ++ line).length = inputBuf := hfull
    omega

end Holds

/-- What a pass takes, copies and leaves. -/
structure Drained (t : Tty) (target n : Nat) (pass : Input.Pass) (ready : List UInt8) : Prop where
  holds : Holds pass.input ⟨ready, t.line⟩
  split : t.ready = pass.taken ++ ready
  length : pass.copied.length + pass.n = n
  eof : ctrl 'D' ∉ pass.copied
  one : newline ∉ pass.copied.dropLast
  waits : pass.waits = true → ready = [] ∧ pass.taken = pass.copied ∧ newline ∉ pass.copied
  done : pass.waits = false → pass.taken = pass.copied ++ [ctrl 'D'] ∧ target ≤ pass.n ∨
    pass.taken = pass.copied ∧ (pass.copied.getLast? = some newline ∨ pass.n = 0 ∨
      pass.n < target ∧ ready.head? = some (ctrl 'D'))

private theorem drained_nil {input : Input} {t : Tty} (h : Holds input t) {target n : Nat} {waits : Bool}
    (hwaits : waits = true → t.ready = [])
    (hdone : waits = false → n = 0 ∨ n < target ∧ t.ready.head? = some (ctrl 'D')) :
    Drained t target n ⟨input, [], [], n, waits⟩ t.ready where
  holds := h
  split := rfl
  length := Nat.zero_add n
  eof := List.not_mem_nil
  one := List.not_mem_nil
  waits hw := ⟨hwaits hw, rfl, List.not_mem_nil⟩
  done hw := Or.inr ⟨rfl, Or.inr (hdone hw)⟩

private theorem Drained.cons {c : UInt8} {ready line left : List UInt8} {target n : Nat} {pass : Input.Pass}
    (hrest : Drained ⟨ready, line⟩ target n pass left) (heof : c ≠ ctrl 'D') (hend : c ≠ newline) :
    Drained ⟨c :: ready, line⟩ target (n + 1)
      { pass with taken := c :: pass.taken, copied := c :: pass.copied } left where
  holds := hrest.holds
  split := congrArg (c :: ·) hrest.split
  length := by
    have hlength := hrest.length
    simp only [List.length_cons]
    omega
  eof := by
    rw [List.mem_cons, not_or]
    exact ⟨heof.symm, hrest.eof⟩
  one := by
    simp only
    cases hcopied : pass.copied with
    | nil => exact List.not_mem_nil
    | cons b bs =>
      rw [List.dropLast_cons_cons, ← hcopied, List.mem_cons, not_or]
      exact ⟨hend.symm, hrest.one⟩
  waits hw := by
    rcases hrest.waits hw with ⟨hnil, htaken, hopen⟩
    refine ⟨hnil, congrArg (c :: ·) htaken, ?_⟩
    rw [List.mem_cons, not_or]
    exact ⟨hend.symm, hopen⟩
  done hw := by
    rcases hrest.done hw with ⟨htaken, hn⟩ | ⟨htaken, hlast | hdone⟩
    · exact Or.inl ⟨congrArg (c :: ·) htaken, hn⟩
    · refine Or.inr ⟨congrArg (c :: ·) htaken, Or.inl ?_⟩
      simp only
      rw [List.getLast?_cons, hlast]
      rfl
    · exact Or.inr ⟨congrArg (c :: ·) htaken, Or.inr hdone⟩

private theorem drain_drained {input : Input} {t : Tty} (h : Holds input t) (target n : Nat) :
    ∃ ready, Drained t target n (input.drain target n) ready := by
  induction n generalizing input t with
  | zero => exact ⟨t.ready, drained_nil h (fun hw => nomatch hw) fun _ => Or.inl rfl⟩
  | succ n ih =>
    rw [Input.drain]
    by_cases hempty : input.r = input.w
    · rw [if_pos hempty]
      exact ⟨t.ready, drained_nil h (fun _ => h.empty_iff.mp hempty) fun hw => nomatch hw⟩
    · rw [if_neg hempty]
      obtain ⟨ready, line⟩ := t
      cases ready with
      | nil => exact absurd (h.empty_iff.mpr rfl) hempty
      | cons c ready =>
        rcases h.take with ⟨hc, htake⟩
        simp only [hc]
        by_cases heof : c = ctrl 'D'
        · subst heof
          rw [if_pos rfl]
          by_cases hsaved : n + 1 < target
          · rw [if_pos hsaved]
            exact ⟨ctrl 'D' :: ready, drained_nil h (fun hw => nomatch hw) fun _ => Or.inr ⟨hsaved, rfl⟩⟩
          · rw [if_neg hsaved]
            refine ⟨ready, htake, rfl, Nat.zero_add _, List.not_mem_nil, List.not_mem_nil, ?_, ?_⟩
            · exact fun hw => nomatch hw
            · exact fun _ => Or.inl ⟨rfl, Nat.not_lt.mp hsaved⟩
        · rw [if_neg heof]
          by_cases hend : c = newline
          · subst hend
            rw [if_pos rfl]
            refine ⟨ready, htake, rfl, Nat.add_comm 1 n, ?_, List.not_mem_nil, ?_, ?_⟩
            · rw [List.mem_singleton]
              exact fun heq => heof heq.symm
            · exact fun hw => nomatch hw
            · exact fun _ => Or.inr ⟨rfl, Or.inl rfl⟩
          · rw [if_neg hend]
            rcases ih htake with ⟨left, hrest⟩
            exact ⟨left, hrest.cons heof hend⟩

/-- What a call that took `got` and left `ready` returns: at most one line and at most `target` bytes, and
fewer only at the end of a line or a file. -/
structure Returns (got ready : List UInt8) (target : Nat) (dst : List UInt8) (result : Nat) : Prop where
  copied : got = dst ∨ got = [ctrl 'D'] ∧ dst = []
  eof : ctrl 'D' ∉ dst
  one : newline ∉ dst.dropLast
  result : result = dst.length
  size : dst.length ≤ target
  ends : dst.getLast? = some newline ∨ dst.length = target ∨ got = [ctrl 'D'] ∨
    dst ≠ [] ∧ ready.head? = some (ctrl 'D')

/-- The console as its users see it, with the bytes that every call has got so far. -/
structure Terminal (ι : Type) where
  tty : Tty
  got : ι → List UInt8

namespace Terminal

variable {ι : Type} [DecidableEq ι]

/-- A call waits or fails only when it has taken everything that was entered. -/
inductive Step : Terminal ι → Event ι → Terminal ι → Prop
  | other (t : Terminal ι) : Step t .other t
  | key (t : Terminal ι) (c : UInt8) : Step t (.key c) ⟨t.tty.key c, t.got⟩
  | took (t : Terminal ι) (i : ι) :
      Step t (.took i t.tty.ready) ⟨⟨[], t.tty.line⟩, update t.got i (t.got i ++ t.tty.ready)⟩
  | failed (t : Terminal ι) (i : ι) (target : Nat) :
      Step t (.returned i target t.tty.ready none) ⟨⟨[], t.tty.line⟩, update t.got i []⟩
  | returned {t : Terminal ι} {i : ι} {target result : Nat} {bs ready dst : List UInt8}
      (hready : t.tty.ready = bs ++ ready) (hreturns : Returns (t.got i ++ bs) ready target dst result) :
      Step t (.returned i target bs (some (dst, result))) ⟨⟨ready, t.tty.line⟩, update t.got i []⟩

end Terminal

/-- In the middle of a call. -/
structure Call.Open (call : Call) (got : List UInt8) : Prop where
  got : got = call.dst
  length : call.dst.length + call.n = call.target
  eof : ctrl 'D' ∉ call.dst
  one : newline ∉ call.dst

private theorem Call.Open.waits {call : Call} {got : List UInt8} (hopen : call.Open got) {t : Tty}
    {pass : Input.Pass} {ready : List UInt8} (hdrained : Drained t call.target call.n pass ready)
    (hwaits : pass.waits = true) : ready = [] ∧ t.ready = pass.taken ∧
      Call.Open ⟨call.target, call.dst ++ pass.copied, pass.n⟩ (got ++ pass.taken) := by
  rcases hdrained.waits hwaits with ⟨rfl, htaken, hone⟩
  have hsplit := hdrained.split
  rw [List.append_nil] at hsplit
  refine ⟨rfl, hsplit, ?_, ?_, ?_, ?_⟩
  · rw [hopen.got, htaken]
  · have hlength := hdrained.length
    have htarget := hopen.length
    simp only [List.length_append]
    omega
  · rw [List.mem_append, not_or]
    exact ⟨hopen.eof, hdrained.eof⟩
  · rw [List.mem_append, not_or]
    exact ⟨hopen.one, hone⟩

private theorem Call.Open.returns {call : Call} {got : List UInt8} (hopen : call.Open got) {t : Tty}
    {pass : Input.Pass} {ready : List UInt8} (hdrained : Drained t call.target call.n pass ready)
    (hdone : pass.waits = false) : Returns (got ++ pass.taken) ready call.target
      (call.dst ++ pass.copied) (call.target - pass.n) := by
  have hlength := hdrained.length
  have htarget := hopen.length
  have hall : (call.dst ++ pass.copied).length + pass.n = call.target := by
    rw [List.length_append]
    omega
  -- an end of file is taken out only by a call that has no bytes
  have hends : got ++ pass.taken = [ctrl 'D'] ∧ call.dst ++ pass.copied = [] ∨
      got ++ pass.taken = call.dst ++ pass.copied ∧ (pass.copied.getLast? = some newline ∨ pass.n = 0 ∨
        pass.n < call.target ∧ ready.head? = some (ctrl 'D')) := by
    rw [hopen.got]
    rcases hdrained.done hdone with ⟨htaken, hn⟩ | ⟨htaken, hends⟩
    · have hnil : call.dst ++ pass.copied = [] := List.eq_nil_of_length_eq_zero (by omega)
      refine Or.inl ⟨?_, hnil⟩
      rw [htaken, ← List.append_assoc, hnil]
      rfl
    · exact Or.inr ⟨congrArg (call.dst ++ ·) htaken, hends⟩
  refine ⟨?_, ?_, ?_, by omega, by omega, ?_⟩
  · rcases hends with hnil | ⟨hgot, -⟩
    · exact Or.inr hnil
    · exact Or.inl hgot
  · rw [List.mem_append, not_or]
    exact ⟨hopen.eof, hdrained.eof⟩
  · by_cases hnil : pass.copied = []
    · rw [hnil, List.append_nil]
      exact fun hmem => hopen.one (List.dropLast_subset _ hmem)
    · rw [List.dropLast_append_of_ne_nil hnil, List.mem_append, not_or]
      exact ⟨hopen.one, hdrained.one⟩
  · rcases hends with ⟨hgot, -⟩ | ⟨-, hlast | hzero | ⟨hless, hhead⟩⟩
    · exact Or.inr (Or.inr (Or.inl hgot))
    · refine Or.inl ?_
      rw [List.getLast?_append, hlast]
      rfl
    · exact Or.inr (Or.inl (by omega))
    · refine Or.inr (Or.inr (Or.inr ⟨?_, hhead⟩))
      rintro hnil
      rw [hnil, List.length_nil] at hall
      omega

namespace Pc

/-- A process outside has got nothing. -/
def Open : Pc → List UInt8 → Prop
  | .out, got => got = []
  | .consoleread call, got => call.Open got
  | .sleep call, got => call.Open got
  | .asleep call, got => call.Open got

/-- On the way to sleep or there. -/
def Sleeps : Pc → Prop
  | .sleep _ => True
  | .asleep _ => True
  | _ => False

private theorem Open.wake {pc : Pc} {got : List UInt8} (h : pc.Open got) : pc.wake.Open got := by
  cases pc with
  | out => exact h
  | consoleread call => exact h
  | sleep call => exact h
  | asleep call => exact h

private theorem wake_sleep {pc : Pc} {call : Call} (h : pc.wake = .sleep call) : pc = .sleep call := by
  cases pc with
  | out => exact h
  | consoleread _ => exact h
  | sleep _ => exact h
  | asleep _ => cases h

private theorem Sleeps.of_wake {pc : Pc} (h : pc.wake.Sleeps) : ∃ call, pc = .sleep call := by
  cases pc with
  | out => cases h
  | consoleread _ => cases h
  | sleep call => exact ⟨call, rfl⟩
  | asleep _ => cases h

private theorem Sleeps.wake {pc : Pc} (h : pc.wake.Sleeps) : pc.Sleeps := by
  rcases h.of_wake with ⟨call, rfl⟩
  exact trivial

end Pc

namespace State

variable {ι : Type}

/-- The console does what `t` says, and nobody sleeps while something is entered. -/
structure Sound (s : State ι) (t : Terminal ι) : Prop where
  holds : Holds s.input t.tty
  opened : ∀ i, (s.pc i).Open (t.got i)
  lock : ∀ i call, s.pc i = .sleep call → s.lock = some i
  quiet : ∀ i, (s.pc i).Sleeps → t.tty.ready = []

variable {s s' : State ι} {t : Terminal ι}

private theorem Sound.not_sleep (h : Sound s t) (hlock : s.lock = none) (i : ι) (call : Call) :
    s.pc i ≠ .sleep call := by
  intro hpc
  have hsome := h.lock i call hpc
  rw [hlock] at hsome
  cases hsome

private theorem Sound.key (h : Sound s t) (hlock : s.lock = none) (c : UInt8) :
    Sound (s.consoleintr c).1 ⟨t.tty.key c, t.got⟩ := by
  rcases h.holds.intr c with ⟨hholds, hsame⟩
  unfold consoleintr
  simp only
  split
  · refine ⟨hholds, fun i => (h.opened i).wake, fun i call hpc => h.lock i call (Pc.wake_sleep hpc), ?_⟩
    intro i hsleeps
    rcases hsleeps.of_wake with ⟨call, hpc⟩
    exact absurd hpc (h.not_sleep hlock i call)
  · next hquiet =>
    refine ⟨hholds, h.opened, h.lock, fun i hsleeps => ?_⟩
    rw [← h.quiet i hsleeps]
    exact hsame (Bool.eq_false_iff.mpr hquiet)

/-- Before anything is entered. -/
def silent : Terminal ι := ⟨⟨[], []⟩, fun _ => []⟩

private theorem sound_booted (hboot : Booted s) : Sound s silent := by
  rcases hboot.counters with ⟨hr, hw, he⟩
  refine ⟨⟨Ring.Holds.nil (hr.trans he.symm), ?_, List.not_mem_nil, fun _ => rfl⟩, fun i => ?_, ?_, ?_⟩
  · rw [hr, hw]
    rfl
  · rw [hboot.out i]
    rfl
  · intro i call hpc
    rw [hboot.out i] at hpc
    cases hpc
  · intro _ _
    rfl

variable [DecidableEq ι]

private theorem Sound.goto (h : Sound s t) {i : ι} {lock : Option ι}
    (hlock : ∀ j ≠ i, ∀ call, s.pc j = .sleep call → lock = some j) {input : Input}
    {ready : List UInt8} (hholds : Holds input ⟨ready, t.tty.line⟩)
    (hready : t.tty.ready = [] → ready = []) (pc : Pc) {got : List UInt8} (hopen : pc.Open got)
    (hsleep : ∀ call, pc = .sleep call → lock = some i) (hsleeps : pc.Sleeps → ready = [])
    (killed : ι → Bool) :
    Sound ⟨input, lock, killed, update s.pc i pc⟩ ⟨⟨ready, t.tty.line⟩, update t.got i got⟩ := by
  refine ⟨hholds, fun j => ?_, fun j call hpc => ?_, fun j hsleeping => ?_⟩
  all_goals by_cases hji : j = i
  · subst hji
    simp only [update_self]
    exact hopen
  · simp only [update_of_ne hji]
    exact h.opened j
  · subst hji
    simp only [update_self] at hpc
    exact hsleep call hpc
  · simp only [update_of_ne hji] at hpc
    exact hlock j hji call hpc
  · subst hji
    simp only [update_self] at hsleeping
    exact hsleeps hsleeping
  · simp only [update_of_ne hji] at hsleeping
    exact hready (h.quiet j hsleeping)

private theorem Sound.move (h : Sound s t) {i : ι} {lock : Option ι}
    (hlock : ∀ j ≠ i, ∀ call, s.pc j = .sleep call → lock = some j) (pc : Pc)
    (hopen : pc.Open (t.got i)) (hsleep : ∀ call, pc = .sleep call → lock = some i)
    (hsleeps : pc.Sleeps → t.tty.ready = []) (killed : ι → Bool) :
    Sound ⟨s.input, lock, killed, update s.pc i pc⟩ t := by
  have hmoved := h.goto hlock h.holds id pc hopen hsleep hsleeps killed
  rw [update_eq_self] at hmoved
  exact hmoved

private theorem Sound.begins (h : Sound s t) {i : ι} (hpc : s.pc i = .out) (n : Nat) :
    Sound (s.goto i (.consoleread ⟨n, [], n⟩)) t := by
  have hgot := h.opened i
  rw [hpc] at hgot
  refine h.move (fun j _ => h.lock j) (.consoleread ⟨n, [], n⟩) ?_ (fun _ heq => nomatch heq)
    (fun hsleeps => hsleeps.elim) s.killed
  exact ⟨hgot, Nat.zero_add n, List.not_mem_nil, List.not_mem_nil⟩

private theorem Sound.sleep (h : Sound s t) {i : ι} {call : Call} (hpc : s.pc i = .sleep call) :
    Sound (s.sleep i call) t := by
  have hopened := h.opened i
  rw [hpc] at hopened
  have hlock := h.lock i call hpc
  refine h.move ?_ (.asleep call) hopened (fun _ heq => nomatch heq) (fun _ => h.quiet i ?_) s.killed
  · intro j hji call' hpcj
    rw [h.lock j call' hpcj] at hlock
    exact absurd (Option.some.inj hlock) hji
  · rw [hpc]
    exact trivial

private theorem Sound.kill (h : Sound s t) (i : ι) : Sound (s.kill i) t :=
  h.move (fun j _ => h.lock j) _ (h.opened i).wake (fun call heq => h.lock i call (Pc.wake_sleep heq))
    (fun hsleeps => h.quiet i hsleeps.wake) _

private theorem Sound.consoleread (h : Sound s t) (hlock : s.lock = none) {i : ι} {call : Call}
    (hpc : s.pc i = .consoleread call) :
    ∃ t', Terminal.Step t (s.consoleread i call).2 t' ∧ Sound (s.consoleread i call).1 t' := by
  have hopen : call.Open (t.got i) := by
    have hopened := h.opened i
    rw [hpc] at hopened
    exact hopened
  rcases drain_drained h.holds call.target call.n with ⟨ready, hdrained⟩
  have hready : t.tty.ready = [] → ready = [] := by
    intro hnil
    have hsplit := hdrained.split
    rw [hnil] at hsplit
    exact (List.append_eq_nil_iff.mp hsplit.symm).2
  have hothers : ∀ j ≠ i, ∀ call, s.pc j = .sleep call → s.lock = some j := fun j _ => h.lock j
  have hnobody : ∀ call' : Call, Pc.out = .sleep call' → s.lock = some i := fun _ heq => nomatch heq
  unfold State.consoleread
  simp only
  split
  · next hwaits =>
    rcases hopen.waits hdrained hwaits with ⟨rfl, htaken, hnext⟩
    rw [← htaken] at hnext ⊢
    split
    · exact ⟨_, .failed t i call.target,
        h.goto hothers hdrained.holds (fun _ => rfl) .out rfl hnobody (fun hsleeps => hsleeps.elim) _⟩
    · have hfree : ∀ j ≠ i, ∀ call', s.pc j = .sleep call' → some i = some j :=
        fun j _ call' hsleep => absurd hsleep (h.not_sleep hlock j call')
      exact ⟨_, .took t i, h.goto hfree hdrained.holds (fun _ => rfl) (.sleep _) hnext (fun _ _ => rfl)
        (fun _ => rfl) _⟩
  · next hdone =>
    have hreturns := hopen.returns hdrained (Bool.eq_false_iff.mpr hdone)
    exact ⟨_, .returned hdrained.split hreturns,
      h.goto hothers hdrained.holds hready .out rfl hnobody (fun hsleeps => hsleeps.elim) _⟩

private theorem Sound.step {e : Event ι} (h : Sound s t) (hstep : Step s e s') :
    ∃ t', Terminal.Step t e t' ∧ Sound s' t' := by
  rcases hstep with ⟨a, hact⟩
  cases a with
  | key c =>
    simp only [act, Option.ite_none_right_eq_some] at hact
    rcases hact with ⟨hlock, hact⟩
    have hkey := h.key hlock c
    cases Option.some.inj hact
    exact ⟨_, .key t c, hkey⟩
  | consoleread i n =>
    simp only [act] at hact
    split at hact
    · next hpc =>
      cases hact
      exact ⟨t, .other t, h.begins hpc n⟩
    · cases hact
  | turn i =>
    simp only [act] at hact
    split at hact
    · next hpc =>
      rw [Option.ite_none_right_eq_some] at hact
      rcases hact with ⟨hlock, hact⟩
      have hpair := Option.some.inj hact
      have hcall := h.consoleread hlock hpc
      rw [hpair] at hcall
      exact hcall
    · next hpc =>
      cases hact
      exact ⟨t, .other t, h.sleep hpc⟩
    · cases hact
  | kill i =>
    cases hact
    exact ⟨t, .other t, h.kill i⟩

/-- In every run, whoever reads and whatever is typed, the console is the terminal: what is typed is edited
and entered as `Tty.key` says, entered bytes are read once and in order, and a call that returns has at
most one line, and less than it asked for only at the end of a line or of a file. -/
theorem lines_of_run {es : List (Event ι)} (hboot : Booted s) (hrun : Run Step s es s') :
    ∃ t, Run Terminal.Step silent es t ∧ Holds s'.input t.tty := by
  rcases hrun.simulate (fun _ _ _ _ hs hstep => hs.step hstep) (sound_booted hboot) with ⟨t, hspec, hs⟩
  exact ⟨t, hspec, hs.holds⟩

/-- One process. -/
def console : State Unit := ⟨⟨fun _ => 0, 0, 0, 0⟩, none, fun _ => false, fun _ => .out⟩

private theorem booted_console : Booted console := ⟨⟨rfl, rfl, rfl⟩, rfl, fun _ => rfl⟩

/-- After a letter and the return key. -/
def typed : State Unit := ((console.consoleintr 97).1.consoleintr 13).1

theorem lines_of_run_console : ∃ s t, Run Step console
      [.key 97, .key 13, .other, .returned () 5 [97, 10] (some ([97, 10], 2))] s ∧
    Run Terminal.Step silent [.key 97, .key 13, .other, .returned () 5 [97, 10] (some ([97, 10], 2))] t ∧
    Holds s.input t.tty := by
  have hkey : Step console (.key 97) (console.consoleintr 97).1 := ⟨.key 97, rfl⟩
  have henter : Step (console.consoleintr 97).1 (.key 13) typed := ⟨.key 13, rfl⟩
  have hout : typed.pc () = .out := rfl
  have hcall : Step typed .other (typed.goto () (.consoleread ⟨5, [], 5⟩)) :=
    ⟨.consoleread () 5, by simp only [act, hout]⟩
  have hread : Step (typed.goto () (.consoleread ⟨5, [], 5⟩))
      (.returned () 5 [97, 10] (some ([97, 10], 2)))
      ((typed.goto () (.consoleread ⟨5, [], 5⟩)).consoleread () ⟨5, [], 5⟩).1 :=
    ⟨.turn (), rfl⟩
  have hrun := Run.cons hkey (Run.cons henter (Run.cons hcall (Run.cons hread (Run.nil _))))
  rcases lines_of_run booted_console hrun with ⟨t, hspec, hholds⟩
  exact ⟨_, t, hrun, hspec, hholds⟩

/-- In every run, a process sleeps only while nothing is entered: no `wakeup` is missed. A `kill` can be, when
it comes between the test and `sleep`. -/
theorem asleep_of_run {es : List (Event ι)} (hboot : Booted s) (hrun : Run Step s es s') {i : ι}
    {call : Call} (hpc : s'.pc i = .asleep call) : s'.input.r = s'.input.w := by
  rcases hrun.simulate (fun _ _ _ _ hs hstep => hs.step hstep) (sound_booted hboot) with ⟨t, -, hs⟩
  refine hs.holds.empty_iff.mpr (hs.quiet i ?_)
  rw [hpc]
  exact trivial

theorem asleep_of_run_console : ∃ s, Run Step console [.other, .took () [], .other] s ∧
    s.pc () = .asleep ⟨5, [], 5⟩ ∧ s.input.r = s.input.w := by
  let s₁ := console.goto () (.consoleread ⟨5, [], 5⟩)
  let s₂ := (s₁.consoleread () ⟨5, [], 5⟩).1
  have hcall : Step console .other s₁ := ⟨.consoleread () 5, rfl⟩
  have hwait : Step s₁ (.took () []) s₂ := ⟨.turn (), rfl⟩
  have hsleep : Step s₂ .other (s₂.sleep () ⟨5, [], 5⟩) := ⟨.turn (), rfl⟩
  have hrun := Run.cons hcall (Run.cons hwait (Run.cons hsleep (Run.nil _)))
  have hpc : (s₂.sleep () ⟨5, [], 5⟩).pc () = .asleep ⟨5, [], 5⟩ := rfl
  exact ⟨_, hrun, hpc, asleep_of_run booted_console hrun hpc⟩

end State

end OsSessional.Console
