import OsSessional.Ipc.Pipe

/-!
# What comes out of a pipe

The bytes read are the bytes written, in the order in which they were put into the pipe, whatever the
processes do; the counters may wrap around. A process sleeps only while it cannot go on, unless a
killed process leaves bytes behind without waking the readers; it may have been killed on its way into
`sleep`.
-/

namespace OsSessional.Ipc

open Function (update update_self update_of_ne)

private theorem pipeSize_dvd : pipeSize ∣ 2 ^ 32 := ⟨2 ^ 23, rfl⟩

private theorem pipeSize_lt : pipeSize < 2 ^ 32 := by decide

namespace Pipe

variable {p : Pipe} {q : List UInt8}

private theorem full_eq_true (h : p.ring.Holds pipeSize q) : p.full = true ↔ q.length = pipeSize := by
  rw [full, beq_iff_eq]
  exact h.full_iff pipeSize_lt

private theorem empty_eq_true (h : p.ring.Holds pipeSize q) : p.empty = true ↔ q = [] := by
  rw [empty, beq_iff_eq]
  exact h.empty_iff pipeSize_lt

/-- What `pipewrite` does to a pipe: it puts the first bytes, and stops only at a full one. -/
structure Filled (p : Pipe) (q addr : List UInt8) (r : Pipe × List UInt8 × List UInt8) : Prop where
  ring : r.1.ring.Holds pipeSize (q ++ r.2.1)
  split : addr = r.2.1 ++ r.2.2
  stops : r.2.2 = [] ∨ (q ++ r.2.1).length = pipeSize
  readopen : r.1.readopen = p.readopen
  writeopen : r.1.writeopen = p.writeopen

private theorem fill_filled (h : p.ring.Holds pipeSize q) (addr : List UInt8) :
    Filled p q addr (p.fill addr) := by
  induction addr generalizing p q with
  | nil =>
    rw [fill]
    refine ⟨?_, rfl, Or.inl rfl, rfl, rfl⟩
    rw [List.append_nil]
    exact h
  | cons x addr ih =>
    rw [fill]
    split
    · next hfull =>
      have hlen := (full_eq_true h).mp hfull
      refine ⟨?_, rfl, Or.inr ?_, rfl, rfl⟩
      · rw [List.append_nil]
        exact h
      · rw [List.append_nil]
        exact hlen
    · next hfull =>
      have hroom : q.length < pipeSize :=
        Nat.lt_of_le_of_ne h.size fun hlen => hfull ((full_eq_true h).mpr hlen)
      have hput : (p.put x).ring.Holds pipeSize (q ++ [x]) := h.put hroom pipeSize_dvd x
      have hrest := ih hput
      have happend : q ++ [x] ++ ((p.put x).fill addr).2.1 = q ++ x :: ((p.put x).fill addr).2.1 := by
        rw [List.append_assoc, List.singleton_append]
      refine ⟨happend ▸ hrest.ring, ?_, happend ▸ hrest.stops, hrest.readopen, hrest.writeopen⟩
      exact congrArg (x :: ·) hrest.split

/-- What `piperead` does to it: it takes the first bytes, and stops only at an empty one. -/
structure Drained (p : Pipe) (q : List UInt8) (n : Nat) (r : Pipe × List UInt8) (q' : List UInt8) :
    Prop where
  ring : r.1.ring.Holds pipeSize q'
  split : q = r.2 ++ q'
  stops : r.2.length = n ∨ q' = []
  readopen : r.1.readopen = p.readopen
  writeopen : r.1.writeopen = p.writeopen

private theorem drain_drained (h : p.ring.Holds pipeSize q) (n : Nat) :
    ∃ q', Drained p q n (p.drain n) q' := by
  induction n generalizing p q with
  | zero => exact ⟨q, h, rfl, Or.inl rfl, rfl, rfl⟩
  | succ n ih =>
    rw [drain]
    split
    · next hempty =>
      have hnil := (empty_eq_true h).mp hempty
      exact ⟨q, h, rfl, Or.inr hnil, rfl, rfl⟩
    · next hempty =>
      cases q with
      | nil => exact absurd ((empty_eq_true h).mpr rfl) hempty
      | cons x q =>
        have hfront : p.front = x := h.front
        have htake : p.take.ring.Holds pipeSize q := h.take pipeSize_dvd
        rcases ih htake with ⟨q', hrest⟩
        refine ⟨q', hrest.ring, ?_, ?_, hrest.readopen, hrest.writeopen⟩
        · rw [hfront]
          exact congrArg (x :: ·) hrest.split
        · rcases hrest.stops with hlen | hnil
          · exact Or.inl (congrArg (· + 1) hlen)
          · exact Or.inr hnil

end Pipe

/-- What holds of a process at its place: the end it uses is open, and it sleeps for a reason. With
`strict` a reader sleeps only before an empty pipe. -/
def Pc.Fair (strict : Prop) (p : Pipe) (q : List UInt8) : Pc → Prop
  | .out => True
  | .pipewrite _ _ => p.writeopen = true
  | .fullLocked _ _ => p.writeopen = true ∧ p.readopen = true ∧ q.length = pipeSize
  | .fullSleep _ _ => p.writeopen = true ∧ p.readopen = true ∧ q.length = pipeSize
  | .piperead _ => p.readopen = true
  | .emptyLocked _ => p.readopen = true ∧ p.writeopen = true ∧ (strict → q = [])
  | .emptySleep _ => p.readopen = true ∧ p.writeopen = true ∧ (strict → q = [])

/-- The pipe is the queue `q`, and every process is where it should be. -/
structure State.Sound {ι : Type} (strict : Prop) (s : State ι) (q : List UInt8) : Prop where
  ring : s.pipe.ring.Holds pipeSize q
  lock : ∀ i, (s.pc i).locks = true → s.lock = some i
  fair : ∀ i, (s.pc i).Fair strict s.pipe q

namespace Pc

variable {strict : Prop} {p p' : Pipe} {q q' : List UInt8} {pc : Pc}

@[simp] theorem locks_wakeRead : pc.wakeRead.locks = pc.locks := by cases pc <;> rfl

@[simp] theorem locks_wakeWrite : pc.wakeWrite.locks = pc.locks := by cases pc <;> rfl

private theorem Fair.filled (h : pc.Fair strict p q) (hlocks : pc.locks = false)
    (hread : p'.readopen = p.readopen) (hwrite : p'.writeopen = p.writeopen)
    (hsize : (q ++ q').length ≤ pipeSize) : pc.wakeRead.Fair strict p' (q ++ q') := by
  cases pc with
  | fullSleep addr n =>
    rcases h with ⟨hw, hr, hlen⟩
    rw [List.length_append] at hsize
    refine ⟨hwrite.trans hw, hread.trans hr, ?_⟩
    rw [List.length_append]
    omega
  | fullLocked addr n => contradiction
  | emptySleep n => exact hread.trans h.1
  | emptyLocked n => contradiction
  | out => trivial
  | pipewrite addr n => exact hwrite.trans h
  | piperead n => exact hread.trans h

private theorem Fair.abandoned (h : pc.Fair strict p q) (hlocks : pc.locks = false)
    (hread : p'.readopen = p.readopen) (hwrite : p'.writeopen = p.writeopen)
    (hsize : (q ++ q').length ≤ pipeSize) (hno : strict → q' = []) :
    pc.Fair strict p' (q ++ q') := by
  cases pc with
  | emptySleep n =>
    rcases h with ⟨hr, hw, hempty⟩
    refine ⟨hread.trans hr, hwrite.trans hw, fun hstrict => ?_⟩
    rw [hempty hstrict, hno hstrict, List.append_nil]
  | emptyLocked n => contradiction
  | fullSleep addr n => exact h.filled hlocks hread hwrite hsize
  | fullLocked addr n => contradiction
  | out => trivial
  | pipewrite addr n => exact hwrite.trans h
  | piperead n => exact hread.trans h

private theorem Fair.drained (h : pc.Fair strict p q) (hlocks : pc.locks = false)
    (hread : p'.readopen = p.readopen) (hwrite : p'.writeopen = p.writeopen)
    (hempty : q = [] → q' = []) : pc.wakeWrite.Fair strict p' q' := by
  cases pc with
  | fullSleep addr n => exact hwrite.trans h.1
  | fullLocked addr n => contradiction
  | emptySleep n =>
    rcases h with ⟨hr, hw, hnil⟩
    exact ⟨hread.trans hr, hwrite.trans hw, fun hstrict => hempty (hnil hstrict)⟩
  | emptyLocked n => contradiction
  | out => trivial
  | pipewrite addr n => exact hwrite.trans h
  | piperead n => exact hread.trans h

private theorem Fair.roused (h : pc.Fair strict p q) : pc.wakeRead.wakeWrite.Fair strict p q := by
  cases pc with
  | fullSleep addr n => exact h.1
  | fullLocked addr n => exact h
  | emptySleep n => exact h.1
  | emptyLocked n => exact h
  | out => trivial
  | pipewrite addr n => exact h
  | piperead n => exact h

private theorem Fair.unwritten (h : pc.Fair strict p q) (hlocks : pc.locks = false)
    (hunused : pc.uses true = false) : pc.wakeRead.Fair strict { p with writeopen := false } q := by
  cases pc with
  | fullSleep addr n => contradiction
  | fullLocked addr n => contradiction
  | emptySleep n => exact h.1
  | emptyLocked n => contradiction
  | out => trivial
  | pipewrite addr n => contradiction
  | piperead n => exact h

private theorem Fair.unread (h : pc.Fair strict p q) (hlocks : pc.locks = false)
    (hunused : pc.uses false = false) : pc.wakeWrite.Fair strict { p with readopen := false } q := by
  cases pc with
  | fullSleep addr n => exact h.1
  | fullLocked addr n => contradiction
  | emptySleep n => contradiction
  | emptyLocked n => contradiction
  | out => trivial
  | pipewrite addr n => exact h
  | piperead n => contradiction

end Pc

namespace State.Sound

variable {ι : Type} {strict : Prop} {s s' : State ι} {q q' : List UInt8}

private theorem opened (h : s.Opened) : Sound strict s [] where
  ring := Ring.Holds.nil (h.counters.1.trans h.counters.2.symm)
  lock j hlocks := by
    rw [h.out j] at hlocks
    contradiction
  fair j := by
    rw [h.out j]
    trivial

private theorem unlocked (h : Sound strict s q) (hfree : s.lock = none) (j : ι) :
    (s.pc j).locks = false := by
  by_contra hlocks
  have hholds := h.lock j (Bool.eq_true_of_not_eq_false hlocks)
  rw [hfree] at hholds
  contradiction

private theorem of_others {i : ι} (hring : s'.pipe.ring.Holds pipeSize q')
    (hself : (s'.pc i).Fair strict s'.pipe q') (hown : (s'.pc i).locks = true → s'.lock = some i)
    (hothers : ∀ j, j ≠ i → (s'.pc j).Fair strict s'.pipe q' ∧
      ((s'.pc j).locks = true → s'.lock = some j)) : Sound strict s' q' where
  ring := hring
  lock j := by
    by_cases hji : j = i
    · rw [hji]
      exact hown
    · exact (hothers j hji).2
  fair j := by
    by_cases hji : j = i
    · rw [hji]
      exact hself
    · exact (hothers j hji).1

variable [DecidableEq ι] {i : ι}

private theorem goto {pc : Pc} (h : Sound strict s q) (hfair : pc.Fair strict s.pipe q)
    (hlocks : pc.locks = false) : Sound strict (s.goto i pc) q := by
  refine of_others (i := i) h.ring ?_ ?_ fun j hji => ?_
  · rw [goto_pc, update_self]
    exact hfair
  · rw [goto_pc, update_self, hlocks]
    exact fun hfalse => nomatch hfalse
  · rw [goto_pc, update_of_ne hji]
    exact ⟨h.fair j, h.lock j⟩

private theorem pipewrite {addr : List UInt8} {n : Nat} (h : Sound strict s q) (hfree : s.lock = none)
    (hpc : s.pc i = .pipewrite addr n) (hno : strict → ¬ (s.pipewrite i addr n).2.Abandons) :
    ∃ q', q ++ (s.pipewrite i addr n).2.sent = (s.pipewrite i addr n).2.received ++ q' ∧
      Sound strict (s.pipewrite i addr n).1 q' := by
  have hfill := Pipe.fill_filled h.ring addr
  have hopen : s.pipe.writeopen = true := by
    have hfair := h.fair i
    rw [hpc] at hfair
    exact hfair
  have hkept := hfill.ring.size
  have hunlocked {j : ι} := h.unlocked hfree j
  have hnever {j k : ι} (hlocks : (s.pc j).locks = true) : s.lock = some k := by
    rw [hunlocked] at hlocks
    contradiction
  revert hno
  simp only [State.pipewrite]
  split
  · intro _
    refine ⟨_, rfl, of_others (i := i) hfill.ring ?_ ?_ fun j hji => ?_⟩
    · rw [wakeRead_pc, goto_pc, update_self]
      trivial
    · rw [wakeRead_pc, goto_pc, update_self]
      exact fun hfalse => nomatch hfalse
    · rw [wakeRead_pc, goto_pc, update_of_ne hji, Pc.locks_wakeRead]
      exact ⟨(h.fair j).filled hunlocked hfill.readopen hfill.writeopen hkept, hnever⟩
  · next hrest =>
    split
    · intro hno
      refine ⟨_, rfl, of_others (i := i) hfill.ring ?_ ?_ fun j hji => ?_⟩
      · rw [goto_pc, update_self]
        trivial
      · rw [goto_pc, update_self]
        exact fun hfalse => nomatch hfalse
      · rw [goto_pc, update_of_ne hji]
        refine ⟨?_, hnever⟩
        refine (h.fair j).abandoned hunlocked hfill.readopen hfill.writeopen hkept fun hstrict => ?_
        by_contra hsome
        exact hno hstrict ⟨i, _, rfl, hsome⟩
    · next hgoes =>
      rw [not_or, Bool.not_eq_false] at hgoes
      intro _
      refine ⟨_, rfl, of_others (i := i) hfill.ring ?_ (fun _ => rfl) fun j hji => ?_⟩
      · simp only [wakeRead_pc, goto_pc, update_self]
        exact ⟨hfill.writeopen.trans hopen, hgoes.1, hfill.stops.resolve_left hrest⟩
      · simp only [wakeRead_pc, goto_pc, update_of_ne hji, Pc.locks_wakeRead]
        refine ⟨(h.fair j).filled hunlocked hfill.readopen hfill.writeopen hkept, fun hlocks => ?_⟩
        rw [hunlocked] at hlocks
        contradiction

private theorem piperead {n : Nat} (h : Sound strict s q) (hfree : s.lock = none)
    (hpc : s.pc i = .piperead n) :
    ∃ q', q ++ (s.piperead i n).2.sent = (s.piperead i n).2.received ++ q' ∧
      Sound strict (s.piperead i n).1 q' := by
  have hopen : s.pipe.readopen = true := by
    have hfair := h.fair i
    rw [hpc] at hfair
    exact hfair
  have hunlocked {j : ι} := h.unlocked hfree j
  simp only [State.piperead]
  split
  · next hwaits =>
    have hnil := (Pipe.empty_eq_true h.ring).mp hwaits.1
    split
    · exact ⟨q, List.append_nil q, h.goto trivial rfl⟩
    · refine ⟨q, List.append_nil q, of_others (i := i) h.ring ?_ (fun _ => rfl) fun j hji => ?_⟩
      · simp only [goto_pc, update_self]
        exact ⟨hopen, hwaits.2, fun _ => hnil⟩
      · simp only [goto_pc, update_of_ne hji]
        refine ⟨h.fair j, fun hlocks => ?_⟩
        rw [hunlocked] at hlocks
        contradiction
  · rcases Pipe.drain_drained h.ring n with ⟨q', hdrain⟩
    refine ⟨q', (List.append_nil q).trans hdrain.split,
      of_others (i := i) hdrain.ring ?_ ?_ fun j hji => ?_⟩
    · rw [wakeWrite_pc, goto_pc, update_self]
      trivial
    · rw [wakeWrite_pc, goto_pc, update_self]
      exact fun hfalse => nomatch hfalse
    · rw [wakeWrite_pc, goto_pc, update_of_ne hji, Pc.locks_wakeWrite, hunlocked]
      refine ⟨?_, fun hfalse => nomatch hfalse⟩
      refine (h.fair j).drained hunlocked hdrain.readopen hdrain.writeopen fun hnil => ?_
      have hsplit := hdrain.split
      rw [hnil] at hsplit
      exact (List.append_eq_nil_iff.mp hsplit.symm).2

private theorem sleep {pc : Pc} (h : Sound strict s q) (hlocked : (s.pc i).locks = true)
    (hfair : pc.Fair strict s.pipe q) (hlocks : pc.locks = false) :
    Sound strict (s.sleep i pc) q := by
  refine of_others (i := i) h.ring ?_ ?_ fun j hji => ?_
  · simp only [State.sleep, goto_pc, update_self]
    exact hfair
  · simp only [State.sleep, goto_pc, update_self, hlocks]
    exact fun hfalse => nomatch hfalse
  · simp only [State.sleep, goto_pc, update_of_ne hji]
    refine ⟨h.fair j, fun hother => ?_⟩
    have hsame := (h.lock i hlocked).symm.trans (h.lock j hother)
    exact absurd (Option.some.inj hsame).symm hji

theorem kill (h : Sound strict s q) (i : ι) : Sound strict (s.kill i) q := by
  have hlock : (s.kill i).lock = s.lock := rfl
  refine of_others (i := i) h.ring ?_ ?_ fun j hji => ?_
  · have hpc : (s.kill i).pc i = (s.pc i).wakeRead.wakeWrite := update_self ..
    rw [hpc]
    exact (h.fair i).roused
  · have hpc : (s.kill i).pc i = (s.pc i).wakeRead.wakeWrite := update_self ..
    rw [hpc, hlock, Pc.locks_wakeWrite, Pc.locks_wakeRead]
    exact h.lock i
  · have hpc : (s.kill i).pc j = s.pc j := update_of_ne hji ..
    rw [hpc, hlock]
    exact ⟨h.fair j, h.lock j⟩

omit [DecidableEq ι] in
private theorem pipeclose (h : Sound strict s q) (hfree : s.lock = none) {writable : Bool}
    (hunused : ∀ i, (s.pc i).uses writable = false) : Sound strict (s.pipeclose writable) q := by
  cases writable with
  | true =>
    refine ⟨h.ring, fun j hlocks => ?_, fun j => (h.fair j).unwritten (h.unlocked hfree j) (hunused j)⟩
    exact h.lock j (Pc.locks_wakeRead.symm.trans hlocks)
  | false =>
    refine ⟨h.ring, fun j hlocks => ?_, fun j => (h.fair j).unread (h.unlocked hfree j) (hunused j)⟩
    exact h.lock j (Pc.locks_wakeWrite.symm.trans hlocks)

/-- The step lemma. -/
private theorem step [Fintype ι] {e : Event ι} (h : Sound strict s q) (hstep : s.Step e s')
    (hno : strict → ¬ e.Abandons) : ∃ q', q ++ e.sent = e.received ++ q' ∧ Sound strict s' q' := by
  rcases hstep with ⟨a, hact⟩
  cases a with
  | pipewrite i addr =>
    simp only [act] at hact
    split at hact
    · split at hact
      · next hopen =>
        simp only [Option.some.injEq, Prod.mk.injEq] at hact
        rcases hact with ⟨rfl, rfl⟩
        exact ⟨q, List.append_nil q, h.goto hopen rfl⟩
      · contradiction
    · contradiction
  | piperead i n =>
    simp only [act] at hact
    split at hact
    · split at hact
      · next hopen =>
        simp only [Option.some.injEq, Prod.mk.injEq] at hact
        rcases hact with ⟨rfl, rfl⟩
        exact ⟨q, List.append_nil q, h.goto hopen rfl⟩
      · contradiction
    · contradiction
  | turn i =>
    simp only [act] at hact
    have hfair := h.fair i
    split at hact
    · next hpc =>
      split at hact
      · next hfree =>
        rw [Option.some.injEq] at hact
        have hs : (s.pipewrite i _ _).1 = s' := congrArg Prod.fst hact
        have he : (s.pipewrite i _ _).2 = e := congrArg Prod.snd hact
        rw [← he] at hno
        rw [← hs, ← he]
        exact h.pipewrite hfree hpc hno
      · contradiction
    · next hpc =>
      rw [hpc] at hfair
      simp only [Option.some.injEq, Prod.mk.injEq] at hact
      rcases hact with ⟨rfl, rfl⟩
      exact ⟨q, List.append_nil q, h.sleep (by rw [hpc]; rfl) hfair rfl⟩
    · next hpc =>
      split at hact
      · next hfree =>
        rw [Option.some.injEq] at hact
        have hs : (s.piperead i _).1 = s' := congrArg Prod.fst hact
        have he : (s.piperead i _).2 = e := congrArg Prod.snd hact
        rw [← hs, ← he]
        exact h.piperead hfree hpc
      · contradiction
    · next hpc =>
      rw [hpc] at hfair
      simp only [Option.some.injEq, Prod.mk.injEq] at hact
      rcases hact with ⟨rfl, rfl⟩
      exact ⟨q, List.append_nil q, h.sleep (by rw [hpc]; rfl) hfair rfl⟩
    · contradiction
  | kill i =>
    simp only [act, Option.some.injEq, Prod.mk.injEq] at hact
    rcases hact with ⟨rfl, rfl⟩
    exact ⟨q, List.append_nil q, h.kill i⟩
  | pipeclose writable =>
    simp only [act] at hact
    split at hact
    · next hunused =>
      simp only [Option.some.injEq, Prod.mk.injEq] at hact
      rcases hact with ⟨rfl, rfl⟩
      exact ⟨q, List.append_nil q, h.pipeclose hunused.1 hunused.2⟩
    · contradiction

end State.Sound

section Run

variable {ι : Type} [Fintype ι] [DecidableEq ι] {strict : Prop} {s s' s₁ s₂ : State ι} {q : List UInt8}
  {i : ι} {n : Nat} {e : Event ι} {es es' : List (Event ι)}

/-- All bytes put into the pipe, in order. -/
def sent (es : List (Event ι)) : List UInt8 := es.flatMap Event.sent

/-- All bytes taken from it. -/
def received (es : List (Event ι)) : List UInt8 := es.flatMap Event.received

theorem State.Sound.run (h : s.Sound strict q) (hrun : Run State.Step s es s')
    (hno : strict → ∀ e ∈ es, ¬ e.Abandons) :
    ∃ q', q ++ sent es = received es ++ q' ∧ s'.Sound strict q' := by
  induction hrun generalizing q with
  | nil s => exact ⟨q, List.append_nil q, h⟩
  | @cons s s₁ s' e es hstep hrest ih =>
    rcases h.step hstep fun hstrict => hno hstrict e List.mem_cons_self with ⟨q₁, hfirst, h₁⟩
    rcases ih h₁ fun hstrict e' he => hno hstrict e' (List.mem_cons_of_mem e he) with ⟨q', hlast, h'⟩
    refine ⟨q', ?_, h'⟩
    calc q ++ sent (e :: es) = (q ++ e.sent) ++ sent es := (List.append_assoc ..).symm
      _ = e.received ++ (q₁ ++ sent es) := by rw [hfirst, List.append_assoc]
      _ = received (e :: es) ++ q' := by
        rw [hlast, ← List.append_assoc]
        rfl

/-- In every interleaving of readers and writers, killed or not, with the ends closed at any moment,
the bytes read are the first of those written, and the pipe holds the others, at most `PIPESIZE`. -/
theorem delivers_of_run (hopen : s.Opened) (hrun : Run State.Step s es s') :
    ∃ q, sent es = received es ++ q ∧ s'.pipe.ring.Holds pipeSize q := by
  rcases (State.Sound.opened hopen).run hrun (fun hfalse : False => hfalse.elim) with
    ⟨q, hsplit, h⟩
  exact ⟨q, hsplit, h.ring⟩

/-- A read of some bytes returns `0` at the end of the file only. -/
private theorem eof_step (h : s.Sound strict q) (hstep : s.Step (.read i n [] (some 0)) s')
    (hn : 0 < n) : q = [] ∧ s'.pipe.writeopen = false := by
  rcases hstep with ⟨a, hact⟩
  cases a with
  | turn j =>
    simp only [State.act] at hact
    split at hact
    · split at hact
      · simp only [State.pipewrite] at hact
        split at hact
        · simp at hact
        · split at hact <;> simp at hact
      · contradiction
    · simp at hact
    · next m hpc =>
      split at hact
      · simp only [State.piperead] at hact
        split at hact
        · split at hact <;> simp at hact
        · next hgoes =>
          rcases Pipe.drain_drained h.ring m with ⟨q', hdrain⟩
          simp only [Option.some.injEq, Prod.mk.injEq, Event.read.injEq] at hact
          rcases hact with ⟨rfl, rfl, rfl, hbs, -⟩
          have hstops := hdrain.stops
          have hsplit := hdrain.split
          rw [hbs] at hstops hsplit
          have hnil : q' = [] := hstops.resolve_left fun hlen => absurd hlen (Nat.ne_of_lt hn)
          rw [hnil] at hsplit
          have hempty := (Pipe.empty_eq_true h.ring).mpr hsplit
          refine ⟨hsplit, hdrain.writeopen.trans ?_⟩
          by_contra hopen
          exact hgoes ⟨hempty, by simpa using hopen⟩
      · contradiction
    · simp at hact
    · contradiction
  | pipewrite j addr =>
    simp only [State.act] at hact
    split at hact
    · split at hact <;> simp at hact
    · contradiction
  | piperead j m =>
    simp only [State.act] at hact
    split at hact
    · split at hact <;> simp at hact
    · contradiction
  | kill j => simp [State.act] at hact
  | pipeclose writable =>
    simp only [State.act] at hact
    split at hact <;> simp at hact

/-- Once nobody can write any more, nothing is written. -/
private theorem closed_step (h : s.Sound strict q) (hclosed : s.pipe.writeopen = false)
    (hstep : s.Step e s') : e.sent = [] ∧ s'.pipe.writeopen = false := by
  rcases hstep with ⟨a, hact⟩
  cases a with
  | turn j =>
    simp only [State.act] at hact
    split at hact
    · next hpc =>
      have hfair := h.fair j
      rw [hpc] at hfair
      have hopen : s.pipe.writeopen = true := hfair
      rw [hclosed] at hopen
      contradiction
    · simp only [Option.some.injEq, Prod.mk.injEq] at hact
      rcases hact with ⟨rfl, rfl⟩
      exact ⟨rfl, hclosed⟩
    · next m hpc =>
      split at hact
      · simp only [State.piperead] at hact
        split at hact
        · split at hact
          · simp only [Option.some.injEq, Prod.mk.injEq] at hact
            rcases hact with ⟨rfl, rfl⟩
            exact ⟨rfl, hclosed⟩
          · simp only [Option.some.injEq, Prod.mk.injEq] at hact
            rcases hact with ⟨rfl, rfl⟩
            exact ⟨rfl, hclosed⟩
        · rcases Pipe.drain_drained h.ring m with ⟨q', hdrain⟩
          simp only [Option.some.injEq, Prod.mk.injEq] at hact
          rcases hact with ⟨rfl, rfl⟩
          exact ⟨rfl, hdrain.writeopen.trans hclosed⟩
      · contradiction
    · simp only [Option.some.injEq, Prod.mk.injEq] at hact
      rcases hact with ⟨rfl, rfl⟩
      exact ⟨rfl, hclosed⟩
    · contradiction
  | pipewrite j addr =>
    simp only [State.act, hclosed] at hact
    split at hact <;> contradiction
  | piperead j m =>
    simp only [State.act] at hact
    split at hact
    · split at hact
      · simp only [Option.some.injEq, Prod.mk.injEq] at hact
        rcases hact with ⟨rfl, rfl⟩
        exact ⟨rfl, hclosed⟩
      · contradiction
    · contradiction
  | kill j =>
    simp only [State.act, Option.some.injEq, Prod.mk.injEq] at hact
    rcases hact with ⟨rfl, rfl⟩
    exact ⟨rfl, hclosed⟩
  | pipeclose writable =>
    simp only [State.act] at hact
    split at hact
    · simp only [Option.some.injEq, Prod.mk.injEq] at hact
      rcases hact with ⟨rfl, rfl⟩
      cases writable with
      | true => exact ⟨rfl, rfl⟩
      | false => exact ⟨rfl, hclosed⟩
    · contradiction

private theorem closed_run (h : s.Sound strict q) (hclosed : s.pipe.writeopen = false)
    (hrun : Run State.Step s es s') (hno : strict → ∀ e ∈ es, ¬ e.Abandons) : sent es = [] := by
  induction hrun generalizing q with
  | nil s => rfl
  | @cons s s₁ s' e es hstep hrest ih =>
    rcases closed_step h hclosed hstep with ⟨hsent, hclosed₁⟩
    rcases h.step hstep fun hstrict => hno hstrict e List.mem_cons_self with ⟨q₁, -, h₁⟩
    have hrest := ih h₁ hclosed₁ fun hstrict e' he => hno hstrict e' (List.mem_cons_of_mem e he)
    rw [sent, List.flatMap_cons, hsent, List.nil_append]
    exact hrest

/-- A read of some bytes that returns `0` comes after every byte ever written has been read. -/
theorem eof_complete_of_run (hopen : s.Opened) (hbefore : Run State.Step s es s₁)
    (hread : s₁.Step (.read i n [] (some 0)) s₂) (hn : 0 < n) (hafter : Run State.Step s₂ es' s') :
    sent (es ++ es') = received es := by
  have hno {es : List (Event ι)} : False → ∀ e ∈ es, ¬ e.Abandons := fun hfalse => hfalse.elim
  rcases (State.Sound.opened hopen).run hbefore hno with ⟨q, hsplit, h₁⟩
  rcases eof_step h₁ hread hn with ⟨hnil, hclosed⟩
  rcases h₁.step hread (fun hfalse => hfalse.elim) with ⟨q₂, -, h₂⟩
  have hlater := closed_run h₂ hclosed hafter hno
  rw [hnil, List.append_nil, List.nil_append] at hsplit
  rw [sent, List.flatMap_append, ← sent, ← sent, hlater, List.append_nil, hsplit]

/-- Unless a write fails that has put something, a process sleeps on an end of the pipe only while it
cannot go on, and somebody else holds the other end open. -/
theorem sleeps_of_run (hopen : s.Opened) (hrun : Run State.Step s es s')
    (hno : ∀ e ∈ es, ¬ e.Abandons) (i : ι) :
    (∀ n, s'.pc i = .emptySleep n → s'.pipe.empty = true ∧ s'.pipe.writeopen = true) ∧
    ∀ addr n, s'.pc i = .fullSleep addr n → s'.pipe.full = true ∧ s'.pipe.readopen = true := by
  rcases (State.Sound.opened hopen).run hrun (fun _ : True => hno) with ⟨q, -, h⟩
  have hfair := h.fair i
  constructor
  · intro n hpc
    rw [hpc] at hfair
    exact ⟨(Pipe.empty_eq_true h.ring).mpr (hfair.2.2 trivial), hfair.2.1⟩
  · intro addr n hpc
    rw [hpc] at hfair
    exact ⟨(Pipe.full_eq_true h.ring).mpr hfair.2.2, hfair.2.1⟩

end Run

/-- Two processes with a new pipe. -/
def opened : State (Fin 2) :=
  ⟨⟨fun _ => 0, 0, 0, true, true⟩, none, fun _ => false, fun _ => .out⟩

private theorem opened_opened : opened.Opened := ⟨⟨rfl, rfl⟩, ⟨rfl, rfl⟩, rfl, fun _ => rfl⟩

/-- Three bytes are written while a reader is asleep, and it reads two of them. -/
theorem delivers_of_run_three : ∃ s' es q, Run State.Step opened es s' ∧ sent es = [7, 8, 9] ∧
    received es = [7, 8] ∧ sent es = received es ++ q := by
  have hrun : ∃ s' es, Run State.Step opened es s' ∧ sent es = [7, 8, 9] ∧ received es = [7, 8] :=
    ⟨_, _, .cons ⟨.piperead 0 2, rfl⟩ (.cons ⟨.pipewrite 1 [7, 8, 9], rfl⟩ (.cons ⟨.turn 0, rfl⟩
      (.cons ⟨.turn 0, rfl⟩ (.cons ⟨.turn 1, rfl⟩ (.cons ⟨.turn 0, rfl⟩ (.nil _)))))), rfl, rfl⟩
  rcases hrun with ⟨s', es, hrun, hsent, hreceived⟩
  rcases delivers_of_run opened_opened hrun with ⟨q, hsplit, -⟩
  exact ⟨s', es, q, hrun, hsent, hreceived, hsplit⟩

/-- The writer is gone when the reader comes a second time. -/
theorem eof_complete_of_run_closed : ∃ es : List (Event (Fin 2)), sent es = [7] ∧ received es = [7] := by
  have hrun : ∃ s₁ es, Run State.Step opened es s₁ ∧ sent es = [7] ∧
      ∃ s₂, s₁.Step (.read 0 2 [] (some 0)) s₂ :=
    ⟨_, _, .cons ⟨.pipewrite 1 [7], rfl⟩ (.cons ⟨.turn 1, rfl⟩ (.cons ⟨.pipeclose true, rfl⟩
      (.cons ⟨.piperead 0 2, rfl⟩ (.cons ⟨.turn 0, rfl⟩ (.cons ⟨.piperead 0 2, rfl⟩ (.nil _)))))), rfl,
      _, ⟨.turn 0, rfl⟩⟩
  rcases hrun with ⟨s₁, es, hrun, hsent, s₂, hread⟩
  have heof := eof_complete_of_run opened_opened hrun hread (by decide) (.nil s₂)
  rw [List.append_nil] at heof
  exact ⟨es, hsent, heof.symm.trans hsent⟩

/-- A reader that is killed before it is asleep sleeps before an empty pipe. -/
theorem sleeps_of_run_reader : ∃ s' : State (Fin 2), s'.pc 0 = .emptySleep 2 ∧ s'.killed 0 = true ∧
    s'.pipe.empty = true ∧ s'.pipe.writeopen = true := by
  have hrun : ∃ s' es, Run State.Step opened es s' ∧ (∀ e ∈ es, ¬ e.Abandons) ∧
      s'.pc 0 = .emptySleep 2 ∧ s'.killed 0 = true := by
    refine ⟨_, _, .cons ⟨.pipewrite 1 [7], rfl⟩ (.cons ⟨.turn 1, rfl⟩ (.cons ⟨.piperead 0 1, rfl⟩
      (.cons ⟨.turn 0, rfl⟩ (.cons ⟨.piperead 0 2, rfl⟩ (.cons ⟨.turn 0, rfl⟩ (.cons ⟨.kill 0, rfl⟩
      (.cons ⟨.turn 0, rfl⟩ (.nil _)))))))), ?_, rfl, rfl⟩
    intro e he habandons
    rcases habandons with ⟨i, bs, rfl, -⟩
    simp [opened] at he
  rcases hrun with ⟨s', es, hrun, hno, hpc, hkilled⟩
  have hreason := (sleeps_of_run opened_opened hrun hno 0).1 2 hpc
  exact ⟨s', hpc, hkilled, hreason.1, hreason.2⟩

/-- A killed process whose bytes do not fit fills the pipe and wakes nobody, so that a reader
may sleep on before it. -/
theorem pipewrite_killed {ι : Type} [DecidableEq ι] {s : State ι} {q addr : List UInt8} {i : ι}
    (h : s.pipe.ring.Holds pipeSize q) (hkilled : s.killed i = true)
    (hlong : pipeSize < q.length + addr.length) (n : Nat) :
    (s.pipewrite i addr n).1.pipe.full = true ∧
      (s.pipewrite i addr n).1.pipe.writeopen = s.pipe.writeopen ∧
      ∀ j, j ≠ i → (s.pipewrite i addr n).1.pc j = s.pc j := by
  have hfill := Pipe.fill_filled h addr
  have hsize := hfill.ring.size
  have hrest : (s.pipe.fill addr).2.2 ≠ [] := by
    intro hnil
    have hall := hfill.split
    rw [hnil, List.append_nil] at hall
    rw [List.length_append, ← hall] at hsize
    omega
  have hgives : (s.pipe.fill addr).1.readopen = false ∨ s.killed i = true := Or.inr hkilled
  simp only [State.pipewrite, if_neg hrest, if_pos hgives]
  refine ⟨(Pipe.full_eq_true hfill.ring).mpr (hfill.stops.resolve_left hrest), hfill.writeopen, ?_⟩
  intro j hji
  rw [State.goto_pc, update_of_ne hji]

end OsSessional.Ipc
