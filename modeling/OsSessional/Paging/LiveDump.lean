import OsSessional.Lib.Registry
import OsSessional.Lib.Runs
import OsSessional.Paging.Dump

/-!
# Live page directories

Every directory that is set up and not released is kept by one process, in its slot of the table or in
a variable of `exec`; a child has none until `fork` hands it over. The dump of `exit` follows the ones
in the table, and goes astray exactly while a child has none.
-/

namespace OsSessional.Paging.Dump

open Function (update update_self update_of_ne update_eq_self)

namespace Place

/-- The child of a fork that is under way. -/
def child : Place → Option Slot
  | .creating np => some np
  | .copying np => some np
  | _ => none

/-- The directory a process has next to its own. -/
def spare : Place → Option Dir
  | .loading pgdir => some pgdir
  | .replacing oldpgdir => oldpgdir
  | _ => none

end Place

/-- Where a process keeps a directory: in `pgdir`, or in a variable of `exec`. -/
inductive Owner
  | own (p : Slot)
  | spare (p : Slot)
  deriving DecidableEq

def Owner.slot : Owner → Slot
  | .own p => p
  | .spare p => p

namespace State

/-- No process is in the slot, or one without a directory of its own yet. -/
def Bare (s : State) (p : Slot) : Prop := (s.proc p).state = .UNUSED ∨ ∃ c, s.place c = .creating p

instance (s : State) (p : Slot) : Decidable (s.Bare p) := by
  unfold Bare
  infer_instance

def held (s : State) : Owner → Option Dir
  | .own p => if s.Bare p then none else (s.proc p).pgdir
  | .spare p => (s.place p).spare

def registry (s : State) : Registry Owner Dir (Slot × Nat) := ⟨s.held, s.live⟩

def name (s : State) (o : Owner) : Slot × Nat := (o.slot, (s.proc o.slot).pid)

/-- The table and the places fit together. -/
structure Shape (s : State) : Prop where
  pgdir : ∀ p, ¬ s.Bare p → (s.proc p).pgdir ≠ none
  awake : ∀ c, s.place c ≠ .user → Awake (s.proc c).state
  embryo : ∀ c np, (s.place c).child = some np → (s.proc np).state = .EMBRYO
  one : ∀ c c' np, (s.place c).child = some np → (s.place c').child = some np → c = c'

/-- The directories that are not released are those the processes keep. -/
structure Sound (s : State) : Prop extends Shape s where
  registry : s.registry.Exact s.name
  fresh : ∀ d, s.live d ≠ none → d.call < s.calls

end State

variable {s s' : State} {c c' np p : Slot} {d : Dir} {q : Place} {v : Proc} {a : Act} {as : List Act}
  {addr : Frame}

namespace State

section Shape

private theorem Shape.not_bare (h : Shape s) (hstate : (s.proc p).state ≠ .UNUSED)
    (hembryo : (s.proc p).state ≠ .EMBRYO) : ¬ s.Bare p := by
  rintro (hunused | ⟨c, hc⟩)
  · exact hstate hunused
  · exact hembryo (h.embryo c p (by rw [hc]; rfl))

private theorem Shape.user (h : Shape s) (hstate : ¬ Awake (s.proc p).state) : s.place p = .user := by
  by_contra hne
  exact hstate (h.awake p hne)

private theorem Runs.awake (h : s.Runs c q) : Awake (s.proc c).state := .inr (.inr h.1)

theorem Runs.ne_unused (hc : s.Runs c q) (hp : (s.proc p).state = .UNUSED ∨ (s.proc p).state = .EMBRYO) :
    c ≠ p := by
  rintro rfl
  rw [hc.1] at hp
  simp at hp

private theorem Shape.not_bare_of_awake (h : Shape s) (hc : Awake (s.proc c).state) : ¬ s.Bare c := by
  apply h.not_bare
  all_goals
    intro hstate
    rw [hstate] at hc
    simp [Awake] at hc

private theorem Shape.move (h : Shape s) (hc : Awake (s.proc c).state) (hold : ∀ np, s.place c ≠ .creating np)
    (hq : q.child = none) (hproc : s'.proc = s.proc) (hplace : s'.place = update s.place c q) : Shape s' := by
  have hcreating : ∀ c' np, s'.place c' = .creating np ↔ s.place c' = .creating np := by
    intro c' np
    rw [hplace]
    by_cases he : c' = c
    · subst he
      rw [update_self]
      constructor
      · rintro rfl
        simp [Place.child] at hq
      · exact fun hc' => absurd hc' (hold np)
    · rw [update_of_ne he]
  have hchild : ∀ c' np, (s'.place c').child = some np → (s.place c').child = some np := by
    intro c' np hc'
    rw [hplace] at hc'
    by_cases he : c' = c
    · subst he
      rw [update_self, hq] at hc'
      simp at hc'
    · rwa [update_of_ne he] at hc'
  constructor
  · intro p hp
    rw [hproc]
    apply h.pgdir
    simpa only [Bare, hproc, hcreating] using hp
  · intro c' hc'
    rw [hproc]
    by_cases he : c' = c
    · rwa [he]
    · rw [hplace, update_of_ne he] at hc'
      exact h.awake c' hc'
  · intro c' np hc'
    rw [hproc]
    exact h.embryo c' np (hchild c' np hc')
  · exact fun c₁ c₂ np h₁ h₂ => h.one c₁ c₂ np (hchild c₁ np h₁) (hchild c₂ np h₂)

/-- Process `c` makes a child in slot `np`, or may start to. -/
structure Parents (s : State) (c np : Slot) : Prop where
  awake : Awake (s.proc c).state
  ne : c ≠ np
  asleep : ¬ Awake (s.proc np).state
  user : s.place np = .user
  one : ∀ c', (s.place c').child = some np → c' = c
  only : ∀ p, s.place c = .creating p → p = np

private theorem Shape.not_child (h : Shape s) (hstate : (s.proc np).state ≠ .EMBRYO) :
    (s.place c).child ≠ some np :=
  fun hc => hstate (h.embryo c np hc)

private theorem Shape.parents (h : Shape s) (hc : s.Runs c q) (hq : q.child = some np) :
    s.Parents c np := by
  have hchild : (s.place c).child = some np := by rwa [hc.2]
  have hembryo := h.embryo c np hchild
  have hasleep : ¬ Awake (s.proc np).state := by simp [Awake, hembryo]
  constructor
  · exact hc.awake
  · exact hc.ne_unused (.inr hembryo)
  · exact hasleep
  · exact h.user hasleep
  · exact fun c' hc' => h.one c' c np hc' hchild
  · intro p hp
    rw [← hc.2, hp] at hq
    exact Option.some.inj hq

private theorem Shape.parents_of_unused
    (h : Shape s) (hc : s.Runs c .user) (hnp : (s.proc np).state = .UNUSED) :
    s.Parents c np := by
  have hasleep : ¬ Awake (s.proc np).state := by simp [Awake, hnp]
  constructor
  · exact hc.awake
  · exact hc.ne_unused (.inl hnp)
  · exact hasleep
  · exact h.user hasleep
  · exact fun c' hc' => absurd hc' (h.not_child (by simp [hnp]))
  · intro p hp
    simp [hc.2] at hp

private theorem Shape.both (h : Shape s) (hc : s.Parents c np) (hproc : s'.proc = update s.proc np v)
    (hplace : s'.place = update s.place c q) (hnew : ∀ p, q.child = some p → p = np ∧ v.state = .EMBRYO)
    (hpgdir : v.state ≠ .UNUSED → q ≠ .creating np → v.pgdir ≠ none) : Shape s' := by
  have hat : ∀ p, p ≠ np → s'.proc p = s.proc p := fun p hp => by rw [hproc, update_of_ne hp]
  have hmine : s'.proc np = v := by rw [hproc, update_self]
  have hstay : ∀ c', c' ≠ c → s'.place c' = s.place c' := fun c' he => by rw [hplace, update_of_ne he]
  have hgo : s'.place c = q := by rw [hplace, update_self]
  constructor
  · intro p hp
    rw [Bare, not_or, not_exists] at hp
    obtain ⟨hstate, hcreating⟩ := hp
    by_cases he : p = np
    · subst he
      rw [hmine] at hstate ⊢
      exact hpgdir hstate fun hq => hcreating c (by rw [hgo, hq])
    · rw [hat p he] at hstate ⊢
      apply h.pgdir
      rintro (hunused | ⟨c', hc'⟩)
      · exact hstate hunused
      · by_cases hcc : c' = c
        · subst hcc
          exact he (hc.only p hc')
        · exact hcreating c' (by rw [hstay c' hcc, hc'])
  · intro c' hc'
    by_cases hcc : c' = c
    · rw [hcc, hat c hc.ne]
      exact hc.awake
    · rw [hstay c' hcc] at hc'
      have hnp : c' ≠ np := by
        rintro rfl
        exact hc' hc.user
      rw [hat c' hnp]
      exact h.awake c' hc'
  · intro c' p hc'
    by_cases hcc : c' = c
    · rw [hcc, hgo] at hc'
      obtain ⟨rfl, hembryo⟩ := hnew p hc'
      rw [hmine, hembryo]
    · rw [hstay c' hcc] at hc'
      have hp : p ≠ np := by
        rintro rfl
        exact hcc (hc.one c' hc')
      rw [hat p hp]
      exact h.embryo c' p hc'
  · have hmade : ∀ c' p, (s'.place c').child = some p →
        c' = c ∧ p = np ∨ c' ≠ c ∧ p ≠ np ∧ (s.place c').child = some p := by
      intro c' p hc'
      by_cases hcc : c' = c
      · rw [hcc, hgo] at hc'
        exact .inl ⟨hcc, (hnew p hc').1⟩
      · rw [hstay c' hcc] at hc'
        refine .inr ⟨hcc, ?_, hc'⟩
        rintro rfl
        exact hcc (hc.one c' hc')
    intro c₁ c₂ p h₁ h₂
    rcases hmade c₁ p h₁ with ⟨rfl, rfl⟩ | ⟨-, hp, h₁⟩ <;> rcases hmade c₂ p h₂ with ⟨rfl, heq⟩ | ⟨-, hp', h₂⟩
    · rfl
    · exact absurd rfl hp'
    · exact absurd heq hp
    · exact h.one c₁ c₂ p h₁ h₂

private theorem Shape.row (h : Shape s) (hproc : s'.proc = update s.proc p v) (hplace : s'.place = s.place)
    (hpgdir : v.state ≠ .UNUSED → (∀ c, s.place c ≠ .creating p) → v.pgdir ≠ none)
    (hawake : s.place p ≠ .user → Awake v.state)
    (hembryo : ∀ c, (s.place c).child = some p → v.state = .EMBRYO) : Shape s' := by
  have hat : ∀ p', s'.proc p' = if p' = p then v else s.proc p' := by
    intro p'
    rw [hproc]
    by_cases he : p' = p
    · rw [he, update_self, if_pos rfl]
    · rw [update_of_ne he, if_neg he]
  constructor
  · intro p' hp'
    rw [Bare, hat, hplace, not_or, not_exists] at hp'
    rw [hat]
    by_cases he : p' = p
    · subst he
      rw [if_pos rfl] at hp' ⊢
      exact hpgdir hp'.1 hp'.2
    · rw [if_neg he] at hp' ⊢
      exact h.pgdir p' (by rw [Bare, not_or, not_exists]; exact hp')
  · intro c hc
    rw [hplace] at hc
    rw [hat]
    split
    · next he => exact hawake (he ▸ hc)
    · exact h.awake c hc
  · intro c np hc
    rw [hplace] at hc
    rw [hat]
    split
    · next he => exact hembryo c (he ▸ hc)
    · exact h.embryo c np hc
  · rw [hplace]
    exact h.one

end Shape

section Held

private theorem held_eq (hbare : ∀ p, s'.Bare p ↔ s.Bare p)
    (hpgdir : ∀ p, ¬ s.Bare p → (s'.proc p).pgdir = (s.proc p).pgdir)
    (hspare : ∀ p, (s'.place p).spare = (s.place p).spare) : s'.held = s.held := by
  funext o
  cases o with
  | own p =>
    by_cases hp : s.Bare p
    · simp only [held, if_pos hp, if_pos ((hbare p).mpr hp)]
    · simp only [held, if_neg hp, if_neg fun h => hp ((hbare p).mp h), hpgdir p hp]
  | spare p => exact hspare p

private theorem bare_move (hold : ∀ np, s.place c ≠ .creating np) (hnew : ∀ np, q ≠ .creating np)
    (hstate : ∀ p, (s'.proc p).state = (s.proc p).state) (hplace : s'.place = update s.place c q)
    (p : Slot) : s'.Bare p ↔ s.Bare p := by
  simp only [Bare, hstate, hplace]
  apply or_congr_right
  apply exists_congr
  intro c'
  by_cases he : c' = c
  · subst he
    rw [update_self]
    exact ⟨fun h => absurd h (hnew p), fun h => absurd h (hold p)⟩
  · rw [update_of_ne he]

private theorem held_move (hold : ∀ np, s.place c ≠ .creating np) (hnew : ∀ np, q ≠ .creating np)
    (hproc : s'.proc = s.proc) (hplace : s'.place = update s.place c q) :
    s'.held = update s.held (.spare c) q.spare := by
  funext o
  cases o with
  | own p =>
    rw [update_of_ne (by simp)]
    simp only [held, bare_move hold hnew (fun p => by rw [hproc]) hplace p, hproc]
  | spare p =>
    by_cases he : p = c
    · subst he
      simp only [held, hplace, update_self]
    · rw [update_of_ne (by simpa using he)]
      simp only [held, hplace, update_of_ne he]

private theorem held_both (hc : s.Parents c np) (hproc : s'.proc = update s.proc np v)
    (hplace : s'.place = update s.place c q) (hnew : ∀ p, q.child = some p → p = np)
    (hspare : q.spare = (s.place c).spare) :
    s'.held = update s.held (.own np) (if v.state = .UNUSED ∨ q = .creating np then none else v.pgdir) := by
  have hstay : ∀ c', c' ≠ c → s'.place c' = s.place c' := fun c' he => by rw [hplace, update_of_ne he]
  have hgo : s'.place c = q := by rw [hplace, update_self]
  funext o
  cases o with
  | own p =>
    by_cases he : p = np
    · subst he
      have hbare : s'.Bare p ↔ v.state = .UNUSED ∨ q = .creating p := by
        rw [Bare, hproc, update_self]
        apply or_congr_right
        constructor
        · rintro ⟨c', hc'⟩
          by_cases hcc : c' = c
          · rw [← hgo, ← hcc, hc']
          · rw [hstay c' hcc] at hc'
            exact absurd (hc.one c' (by rw [hc']; rfl)) hcc
        · exact fun hq => ⟨c, by rw [hgo, hq]⟩
      rw [update_self]
      simp only [held, hbare, hproc, update_self]
    · have hbare : s'.Bare p ↔ s.Bare p := by
        rw [Bare, Bare, hproc, update_of_ne he]
        apply or_congr_right
        apply exists_congr
        intro c'
        by_cases hcc : c' = c
        · subst hcc
          rw [hgo]
          constructor
          · exact fun hq => absurd (hnew p (by rw [hq]; rfl)) he
          · exact fun hs => absurd (hc.only p hs) he
        · rw [hstay c' hcc]
      rw [update_of_ne (by simpa using he)]
      simp only [held, hbare, hproc, update_of_ne he]
  | spare p =>
    rw [update_of_ne (by simp)]
    simp only [held]
    by_cases hcc : p = c
    · rw [hcc, hgo, hspare]
    · rw [hstay p hcc]

end Held

section Sound

private theorem Sound.of_held (h : Sound s) (hshape : Shape s') (hheld : s'.held = s.held) (hlive : s'.live = s.live)
    (hcalls : s.calls ≤ s'.calls) (hname : ∀ o d, s.held o = some d → s'.name o = s.name o) : Sound s' where
  toShape := hshape
  registry := by
    have hrenamed := h.registry.rename hname
    simpa only [State.registry, hheld, hlive] using hrenamed
  fresh d hd := by
    rw [hlive] at hd
    exact lt_of_lt_of_le (h.fresh d hd) hcalls

private theorem Sound.enter (h : Sound s) (hshape : Shape s') {o : Owner} (ho : s.held o = none)
    (hheld : s'.held = update s.held o (some ⟨addr, s.calls⟩))
    (hlive : s'.live = update s.live ⟨addr, s.calls⟩ (some (s.name o))) (hcalls : s'.calls = s.calls + 1)
    (hname : s'.name = s.name) : Sound s' where
  toShape := hshape
  registry := by
    have hfresh : s.live ⟨addr, s.calls⟩ = none := by
      by_contra hne
      exact lt_irrefl _ (h.fresh _ hne)
    have hentered := h.registry.enter ho hfresh
    simpa only [State.registry, hheld, hlive, hname] using hentered
  fresh d hd := by
    rw [hlive] at hd
    rw [hcalls]
    by_cases he : d = ⟨addr, s.calls⟩
    · rw [he]
      exact Nat.lt_succ_self _
    · rw [update_of_ne he] at hd
      exact Nat.lt_succ_of_lt (h.fresh d hd)

private theorem Sound.strike (h : Sound s) (hshape : Shape s') {o : Owner} (ho : s.held o = some d)
    (hheld : s'.held = update s.held o none) (hlive : s'.live = update s.live d none)
    (hcalls : s'.calls = s.calls) (hname : ∀ o' d', s'.held o' = some d' → s'.name o' = s.name o') : Sound s' where
  toShape := hshape
  registry := by
    have hstruck := h.registry.strike ho
    have hrenamed := hstruck.rename fun o' d' ho' => hname o' d' (by rw [hheld]; exact ho')
    simpa only [State.registry, hheld, hlive] using hrenamed
  fresh d' hd' := by
    rw [hlive] at hd'
    rw [hcalls]
    by_cases he : d' = d
    · simp [he] at hd'
    · rw [update_of_ne he] at hd'
      exact h.fresh d' hd'

end Sound

section Calls

private theorem name_of_pid (hproc : ∀ p', p' ≠ p → (s'.proc p').pid = (s.proc p').pid) (hown : s.held (.own p) = none)
    (hspare : s.held (.spare p) = none) (o : Owner) (d : Dir) (ho : s.held o = some d) :
    s'.name o = s.name o := by
  have hne : o.slot ≠ p := by
    intro hslot
    cases o with
    | own p' =>
      obtain rfl : p' = p := hslot
      simp [hown] at ho
    | spare p' =>
      obtain rfl : p' = p := hslot
      simp [hspare] at ho
  simp only [name, hproc _ hne]

private theorem Sound.bare_held (h : Sound s) (hp : s.Bare p) (hstate : ¬ Awake (s.proc p).state) :
    s.held (.own p) = none ∧ s.held (.spare p) = none := by
  constructor
  · simp only [held, if_pos hp]
  · simp only [held, h.user hstate]
    rfl

private theorem Sound.setState (h : Sound s) (hc : Awake (s.proc c).state) {st : ProcState} (hst : st ≠ .UNUSED)
    (hplace : s.place c ≠ .user → Awake st) : Sound (s.setProc c { s.proc c with state := st }) := by
  have hbare := h.not_bare_of_awake hc
  have hused : (s.proc c).state ≠ .UNUSED := fun hunused => hbare (.inl hunused)
  have hembryo : (s.proc c).state ≠ .EMBRYO := by
    intro hstate
    simp [hstate, Awake] at hc
  have hat : ∀ p, ((s.setProc c { s.proc c with state := st }).proc p).pgdir = (s.proc p).pgdir ∧
      ((s.setProc c { s.proc c with state := st }).proc p).pid = (s.proc p).pid := by
    intro p
    by_cases he : p = c
    · rw [he]
      simp [setProc]
    · simp [setProc, he]
  apply h.of_held
  · refine h.row rfl rfl (fun _ _ => h.pgdir c hbare) hplace ?_
    exact fun c' hc' => absurd hc' (h.not_child hembryo)
  · apply held_eq
    · intro p
      apply or_congr_left
      by_cases he : p = c
      · simp [he, setProc, hused, hst]
      · simp [setProc, he]
    · exact fun p _ => (hat p).1
    · exact fun _ => rfl
  · rfl
  · exact le_refl _
  · intro o d _
    simp only [name, (hat o.slot).2]

private theorem Sound.sched (h : Sound s) (hc : Awake (s.proc c).state) {st : ProcState} (hst : Awake st) :
    Sound (s.setProc c { s.proc c with state := st }) := by
  apply h.setState hc
  · intro hunused
    simp [hunused, Awake] at hst
  · exact fun _ => hst

private theorem Sound.alloc (h : Sound s) (hc : s.Runs c .user) (hnp : (s.proc np).state = .UNUSED)
    (hproc : s'.proc = update s.proc np { s.proc np with state := .EMBRYO, pid := s.nextpid })
    (hplace : s'.place = update s.place c (.creating np)) (hlive : s'.live = s.live) (hcalls : s'.calls = s.calls) :
    Sound s' := by
  have hparents := h.parents_of_unused hc hnp
  obtain ⟨hown, hspare⟩ := h.bare_held (.inl hnp) hparents.asleep
  apply h.of_held
  · apply h.both hparents hproc hplace
    · intro p hp
      exact ⟨(Option.some.inj hp).symm, rfl⟩
    · exact fun _ hcreating => absurd rfl hcreating
  · rw [held_both hparents hproc hplace (fun p hp => (Option.some.inj hp).symm) (by rw [hc.2]; rfl),
      if_pos (.inr rfl), ← hown, update_eq_self]
  · exact hlive
  · exact hcalls.ge
  · exact name_of_pid (fun p' hp' => by rw [hproc, update_of_ne hp']) hown hspare

private theorem Sound.giveUp (h : Sound s) (hnp : (s.proc np).state = .UNUSED)
    (hproc : s'.proc = update s.proc np v) (hplace : s'.place = s.place) (hv : v.state = .UNUSED)
    (hlive : s'.live = s.live) (hcalls : s'.calls = s.calls) : Sound s' := by
  have hasleep : ¬ Awake (s.proc np).state := by simp [Awake, hnp]
  obtain ⟨hown, hspare⟩ := h.bare_held (.inl hnp) hasleep
  apply h.of_held
  · apply h.row hproc hplace
    · exact fun hused => absurd hv hused
    · exact fun hp => absurd (h.user hasleep) hp
    · exact fun c' hc' => absurd hc' (h.not_child (by simp [hnp]))
  · apply held_eq
    · intro p
      rw [Bare, Bare, hplace]
      apply or_congr_left
      by_cases he : p = np
      · simp [he, hproc, hv, hnp]
      · rw [hproc, update_of_ne he]
    · intro p hp
      have he : p ≠ np := by
        rintro rfl
        exact hp (.inl hnp)
      rw [hproc, update_of_ne he]
    · intro p
      rw [hplace]
  · exact hlive
  · exact hcalls.ge
  · exact name_of_pid (fun p' hp' => by rw [hproc, update_of_ne hp']) hown hspare

private theorem Sound.runnable (h : Sound s) (hc : s.Runs c (.copying np)) :
    Sound (s.runnable c np) := by
  have hparents := h.parents hc rfl
  have hembryo := h.embryo c np (by rw [hc.2]; rfl)
  have hbare : ¬ s.Bare np := by
    rintro (hunused | ⟨c', hc'⟩)
    · simp [hembryo] at hunused
    · obtain rfl := hparents.one c' (by rw [hc']; rfl)
      simp [hc.2] at hc'
  apply h.of_held
  · apply h.both hparents rfl rfl
    · intro p hp
      simp [Place.child] at hp
    · exact fun _ _ => h.pgdir np hbare
  · rw [held_both hparents rfl rfl (fun p hp => by simp [Place.child] at hp) (by rw [hc.2]; rfl),
      if_neg (by simp)]
    have hown : s.held (.own np) = (s.proc np).pgdir := by simp only [held, if_neg hbare]
    rw [← hown, update_eq_self]
  · rfl
  · exact le_refl _
  · intro o d _
    have hpid : ((s.runnable c np).proc o.slot).pid = (s.proc o.slot).pid := by
      by_cases he : o.slot = np
      · simp [State.runnable, setProc, moveTo, he]
      · simp [State.runnable, setProc, moveTo, he]
    simp only [name, hpid]

private theorem Sound.childFails (h : Sound s) (hc : s.Runs c (.creating np))
    (hproc : s'.proc = update s.proc np v) (hplace : s'.place = update s.place c .user)
    (hv : v.state = .UNUSED) (hlive : s'.live = s.live) (hcalls : s.calls ≤ s'.calls) : Sound s' := by
  have hparents := h.parents hc rfl
  obtain ⟨hown, hspare⟩ := h.bare_held (.inr ⟨c, hc.2⟩) hparents.asleep
  apply h.of_held
  · apply h.both hparents hproc hplace
    · intro p hp
      simp [Place.child] at hp
    · exact fun hused => absurd hv hused
  · rw [held_both hparents hproc hplace (fun p hp => by simp [Place.child] at hp) (by rw [hc.2]; rfl),
      if_pos (.inl hv), ← hown, update_eq_self]
  · exact hlive
  · exact hcalls
  · exact name_of_pid (fun p' hp' => by rw [hproc, update_of_ne hp']) hown hspare

private theorem Sound.childCopied (h : Sound s) (hc : s.Runs c (.creating np))
    (hproc : s'.proc = update s.proc np v) (hplace : s'.place = update s.place c (.copying np))
    (hv : v.state = (s.proc np).state) (hpid : v.pid = (s.proc np).pid)
    (hpgdir : v.pgdir = some ⟨addr, s.calls⟩)
    (hlive : s'.live = update s.live ⟨addr, s.calls⟩ (some (np, (s.proc np).pid)))
    (hcalls : s'.calls = s.calls + 1) : Sound s' := by
  have hparents := h.parents hc rfl
  have hembryo := h.embryo c np (by rw [hc.2]; rfl)
  have hnew : ∀ p, (Place.copying np).child = some p → p = np := fun p hp => (Option.some.inj hp).symm
  obtain ⟨hown, -⟩ := h.bare_held (.inr ⟨c, hc.2⟩) hparents.asleep
  apply h.enter _ hown _ hlive hcalls
  · funext o
    have hsame : (s'.proc o.slot).pid = (s.proc o.slot).pid := by
      by_cases he : o.slot = np
      · rw [he, hproc, update_self, hpid]
      · rw [hproc, update_of_ne he]
    simp only [name, hsame]
  · apply h.both hparents hproc hplace
    · exact fun p hp => ⟨hnew p hp, hv.trans hembryo⟩
    · intro _ _
      simp [hpgdir]
  · rw [held_both hparents hproc hplace hnew (by rw [hc.2]; rfl), if_neg, hpgdir]
    simp [hv, hembryo]

private theorem Sound.copyChild (h : Sound s) (hc : s.Runs c (.creating np)) (r : Copyuvm) :
    Sound (s.copyChild c np r) := by
  have hne := (h.parents hc rfl).ne
  cases r with
  | noDir => exact h.childFails hc rfl rfl rfl rfl (le_refl _)
  | failed addr =>
    have hfresh : s.live ⟨addr, s.calls⟩ = none := by
      by_contra hlive
      exact lt_irrefl _ (h.fresh _ hlive)
    refine h.childFails hc rfl rfl rfl ?_ (Nat.le_succ _)
    have hback : update (update s.live ⟨addr, s.calls⟩ (some (np, (s.proc np).pid))) ⟨addr, s.calls⟩ none =
        s.live := by
      rw [Function.update_idem, ← hfresh, update_eq_self]
    exact hback
  | copied addr =>
    simp only [State.copyChild, State.copyuvm, State.setupkvm]
    split
    · exact h.childCopied hc rfl rfl rfl rfl rfl rfl rfl
    · refine Sound.runnable (h.childCopied hc rfl rfl rfl rfl rfl rfl rfl) ⟨?_, update_self ..⟩
      simp [moveTo, setProc, hne, hc.1]

private theorem Sound.fork (h : Sound s) (hc : s.Runs c .user) (stack : Bool) (r : Copyuvm) :
    Sound (s.fork c stack r) := by
  unfold State.fork State.allocproc
  cases hslot : s.unusedSlot with
  | none => exact h
  | some np =>
    have hnp : (s.proc np).state = .UNUSED := by simpa using Scan.first_spec hslot
    have hne := hc.ne_unused (.inl hnp)
    cases stack with
    | false => exact h.giveUp hnp (Function.update_idem ..) rfl rfl rfl rfl
    | true =>
      simp only [if_true]
      split
      · exact h.alloc hc hnp rfl rfl rfl rfl
      · apply Sound.copyChild
        · exact h.alloc hc hnp rfl rfl rfl rfl
        · refine ⟨?_, update_self ..⟩
          simp [moveTo, setProc, hne, hc.1]

theorem Sound.move (h : Sound s) (hc : Awake (s.proc c).state) (hold : ∀ np, s.place c ≠ .creating np)
    (hq : q.child = none) (hspare : q.spare = (s.place c).spare) : Sound (s.moveTo c q) := by
  have hnew : ∀ np, q ≠ .creating np := by
    rintro np rfl
    simp [Place.child] at hq
  apply h.of_held
  · exact h.toShape.move hc hold hq rfl rfl
  · have hheld : (s.moveTo c q).held = update s.held (.spare c) q.spare := held_move hold hnew rfl rfl
    have hown : s.held (.spare c) = q.spare := hspare.symm
    rw [hheld, ← hown, update_eq_self]
  · rfl
  · exact le_refl _
  · exact fun _ _ _ => rfl

theorem Sound.exec (h : Sound s) (hc : s.Runs c .user) (r : Option Frame) : Sound (s.exec c r) := by
  have hold : ∀ np, s.place c ≠ .creating np := by simp [hc.2]
  cases r with
  | none => exact h
  | some addr =>
    have hnone : s.held (.spare c) = none := by
      simp only [held, hc.2]
      rfl
    refine h.enter ?_ hnone ?_ rfl rfl rfl
    · exact h.toShape.move hc.awake hold rfl rfl rfl
    · exact held_move (q := .loading ⟨addr, s.calls⟩) hold (by simp) rfl rfl

private theorem Sound.freeSpare
    (h : Sound s) (hc : Awake (s.proc c).state) (hold : ∀ np, s.place c ≠ .creating np)
    {r : Option Dir} (hr : (s.place c).spare = r) (hs : (s.freevm r).map (·.moveTo c .user) = some s') :
    Sound s' := by
  cases r with
  | none => simp [freevm] at hs
  | some d =>
    obtain rfl : ({ s with live := update s.live d none } : State).moveTo c .user = s' := Option.some.inj hs
    have hown : s.held (.spare c) = some d := hr
    refine h.strike ?_ hown ?_ rfl rfl fun _ _ _ => rfl
    · exact h.toShape.move hc hold rfl rfl rfl
    · exact held_move (q := .user) hold (by simp) rfl rfl

private theorem Sound.exchange (h : Sound s) (hc : s.Runs c (.loading d))
    (hproc : s'.proc = update s.proc c { s.proc c with pgdir := some d })
    (hplace : s'.place = update s.place c (.replacing (s.proc c).pgdir)) (hlive : s'.live = s.live)
    (hcalls : s'.calls = s.calls) : Sound s' := by
  have hbare := h.not_bare_of_awake hc.awake
  have hrow : Shape { s with proc := s'.proc } := by
    refine h.row hproc rfl (fun _ _ => by simp) (fun _ => hc.awake) ?_
    exact fun c' hc' => absurd hc' (h.not_child (by simp [hc.1]))
  have hat : ∀ p, (s'.proc p).state = (s.proc p).state ∧ (s'.proc p).pid = (s.proc p).pid := by
    intro p
    by_cases he : p = c
    · rw [he, hproc, update_self]
      exact ⟨rfl, rfl⟩
    · rw [hproc, update_of_ne he]
      exact ⟨rfl, rfl⟩
  have hold : ∀ np, s.place c ≠ .creating np := by simp [hc.2]
  have hbares : ∀ p, s'.Bare p ↔ s.Bare p :=
    bare_move hold (fun np => by simp) (fun p => (hat p).1) hplace
  have hheld : s'.held = s.held ∘ Equiv.swap (.own c) (.spare c) := by
    funext o
    simp only [Function.comp_apply, Equiv.swap_apply_def]
    split
    · next he =>
      rw [he]
      simp only [held, hbares, if_neg hbare, hproc, update_self, hc.2]
      rfl
    · split
      · next he =>
        rw [he]
        simp only [held, if_neg hbare, hplace, update_self]
        rfl
      · next hown hspare =>
        cases o with
        | own p =>
          have he : p ≠ c := by simpa using hown
          simp only [held, hbares, hproc, update_of_ne he]
        | spare p =>
          have he : p ≠ c := by simpa using hspare
          simp only [held, hplace, update_of_ne he]
  have hname : s'.name = s.name := by
    funext o
    exact congrArg (Prod.mk o.slot) (hat o.slot).2
  have hslot : ∀ o, s.name (Equiv.swap (Owner.own c) (.spare c) o) = s.name o := by
    intro o
    rw [Equiv.swap_apply_def]
    split
    · next he => rw [he]; rfl
    · split
      · next he => rw [he]; rfl
      · rfl
  constructor
  · refine Shape.move hrow ?_ hold rfl rfl hplace
    rw [(hat c).1]
    exact hc.awake
  · have hpassed := h.registry.permute _ hslot
    rw [State.registry, hheld, hname, hlive]
    exact hpassed
  · rw [hlive, hcalls]
    exact h.fresh

private theorem Sound.commit (h : Sound s) (hc : s.Runs c (.loading d)) (hs : s.commit c d = some s') :
    Sound s' := by
  have hex : Sound ((s.setProc c { s.proc c with pgdir := some d }).moveTo c (.replacing (s.proc c).pgdir)) :=
    h.exchange hc rfl rfl rfl rfl
  simp only [State.commit] at hs
  split at hs
  · obtain rfl := Option.some.inj hs
    exact hex
  · apply hex.freeSpare _ _ _ hs
    · simp [moveTo, setProc, hc.1, Awake]
    · simp [moveTo]
    · simp [moveTo, Place.spare]

private theorem Sound.adopt (h : Sound s) (hstate : ∀ p, (s'.proc p).state = (s.proc p).state)
    (hpid : ∀ p, (s'.proc p).pid = (s.proc p).pid) (hpgdir : ∀ p, (s'.proc p).pgdir = (s.proc p).pgdir)
    (hplace : s'.place = s.place) (hlive : s'.live = s.live) (hcalls : s'.calls = s.calls) : Sound s' := by
  have hbare : ∀ p, s'.Bare p ↔ s.Bare p := by
    intro p
    simp only [Bare, hstate, hplace]
  apply h.of_held
  · constructor
    · intro p hp
      rw [hpgdir]
      exact h.pgdir p fun hp' => hp ((hbare p).mpr hp')
    · simpa only [hplace, hstate] using h.awake
    · simpa only [hplace, hstate] using h.embryo
    · simpa only [hplace] using h.one
  · exact held_eq hbare (fun p _ => hpgdir p) fun p => by rw [hplace]
  · exact hlive
  · exact hcalls.ge
  · intro o d _
    simp only [name, hpid]

private theorem Sound.zombie (h : Sound s) (hc : Awake (s.proc c).state) (huser : s.place c = .user) :
    Sound (s.setProc c { s.proc c with state := .ZOMBIE }) := by
  apply h.setState hc
  · simp
  · exact fun hne => absurd huser hne

private theorem Sound.leave (h : Sound s) (hc : s.Runs c .leaving) : Sound (s.leave c) := by
  have hmoved : Sound (s.moveTo c .user) :=
    h.move hc.awake (by simp [hc.2]) rfl (by rw [hc.2]; rfl)
  have hadopted : Sound { s.moveTo c .user with
      proc := fun p =>
        if (s.proc p).parent = some c then { s.proc p with parent := some initproc } else s.proc p } := by
    refine hmoved.adopt ?_ ?_ ?_ rfl rfl rfl
    all_goals
      intro p
      simp only [moveTo]
      split <;> rfl
  refine hadopted.zombie ?_ (update_self ..)
  have hstate := hc.awake
  simp only
  split <;> exact hstate

private theorem Sound.wait (h : Sound s) (hp : (s.proc p).state = .ZOMBIE) (hs : s.wait p = some s') :
    Sound s' := by
  have hasleep : ¬ Awake (s.proc p).state := by simp [Awake, hp]
  have huser := h.user hasleep
  have hbare : ¬ s.Bare p := h.not_bare (by simp [hp]) (by simp [hp])
  unfold State.wait at hs
  cases hd : (s.proc p).pgdir with
  | none => simp [hd, freevm] at hs
  | some d =>
    rw [hd] at hs
    obtain rfl : ({ s with live := update s.live d none } : State).setProc p
        { s.proc p with pid := 0, parent := none, state := .UNUSED } = s' := Option.some.inj hs
    have hown : s.held (.own p) = some d := by simp only [held, if_neg hbare, hd]
    have hheld : (({ s with live := update s.live d none } : State).setProc p
        { s.proc p with pid := 0, parent := none, state := .UNUSED }).held = update s.held (.own p) none := by
      funext o
      cases o with
      | own p' =>
        by_cases he : p' = p
        · subst he
          rw [update_self]
          simp [held, Bare, setProc]
        · rw [update_of_ne (by simpa using he)]
          simp [held, Bare, setProc, he]
      | spare p' =>
        rw [update_of_ne (by simp)]
        rfl
    refine h.strike ?_ hown hheld rfl rfl ?_
    · refine h.row rfl rfl (fun hused => absurd rfl hused) (fun hne => absurd huser hne) ?_
      exact fun c hc => absurd hc (h.not_child (by simp [hp]))
    · intro o d' ho
      have hne : o.slot ≠ p := by
        intro hslot
        cases o with
        | own p' =>
          obtain rfl : p' = p := hslot
          simp [hheld] at ho
        | spare p' =>
          obtain rfl : p' = p := hslot
          simp [held, setProc, huser, Place.spare] at ho
      simp [name, setProc, hne]

private theorem Sound.step (h : Sound s) (hs : Step s a s') : Sound s' := by
  unfold Step at hs
  cases a with
  | sched c st =>
    simp only [act, Option.ite_none_right_eq_some, Option.some.injEq] at hs
    obtain ⟨⟨hc, hst⟩, rfl⟩ := hs
    exact h.sched hc hst
  | fork c stack r =>
    simp only [act, Option.ite_none_right_eq_some, Option.some.injEq] at hs
    obtain ⟨hc, rfl⟩ := hs
    exact h.fork hc stack r
  | copy c np r =>
    simp only [act, Option.ite_none_right_eq_some, Option.some.injEq] at hs
    obtain ⟨hc, rfl⟩ := hs
    exact h.copyChild hc r
  | runnable c np =>
    simp only [act, Option.ite_none_right_eq_some, Option.some.injEq] at hs
    obtain ⟨hc, rfl⟩ := hs
    exact h.runnable hc
  | exec c r =>
    simp only [act, Option.ite_none_right_eq_some, Option.some.injEq] at hs
    obtain ⟨hc, rfl⟩ := hs
    exact h.exec hc r
  | bad c d =>
    simp only [act, Option.ite_none_right_eq_some] at hs
    obtain ⟨hc, hs⟩ := hs
    exact h.freeSpare hc.awake (by simp [hc.2]) (by rw [hc.2]; rfl) hs
  | commit c d =>
    simp only [act, Option.ite_none_right_eq_some] at hs
    obtain ⟨hc, hs⟩ := hs
    exact h.commit hc hs
  | replaced c old =>
    simp only [act, Option.ite_none_right_eq_some] at hs
    obtain ⟨hc, hs⟩ := hs
    exact h.freeSpare hc.awake (by simp [hc.2]) (by rw [hc.2]; rfl) hs
  | exit c =>
    simp only [act, Option.ite_none_right_eq_some, Option.some.injEq] at hs
    obtain ⟨⟨hc, -⟩, rfl⟩ := hs
    exact h.move hc.awake (by simp [hc.2]) rfl (by rw [hc.2]; rfl)
  | dump c =>
    simp only [act, exitDump, Option.map_eq_some_iff, Option.ite_none_right_eq_some] at hs
    obtain ⟨_, ⟨hc, -⟩, rfl⟩ := hs
    exact h.move hc.awake (by simp [hc.2]) rfl (by rw [hc.2]; rfl)
  | leave c =>
    simp only [act, Option.ite_none_right_eq_some, Option.some.injEq] at hs
    obtain ⟨hc, rfl⟩ := hs
    exact h.leave hc
  | wait c p =>
    simp only [act, Option.ite_none_right_eq_some] at hs
    obtain ⟨⟨-, -, hp⟩, hs⟩ := hs
    exact h.wait hp hs

end Calls

section Runs

private theorem blank_sound : Sound blank where
  pgdir p hp := absurd (.inl rfl) hp
  awake c hc := absurd rfl hc
  embryo c np hc := by simp [blank, Place.child] at hc
  one c c' np hc := by simp [blank, Place.child] at hc
  registry := by
    have hnone : ∀ o, blank.held o = none := by
      intro o
      cases o with
      | own p => rw [held, if_pos (.inl rfl)]
      | spare p => rfl
    constructor
    · intro o o' d ho
      simp [registry, hnone] at ho
    · intro d x
      constructor
      · intro hx
        simp [registry, blank] at hx
      · rintro ⟨o, ho, -⟩
        simp [registry, hnone] at ho
  fresh d hd := absurd rfl hd

theorem blank_allocproc : (blank.allocproc true).2 =
    { blank.setProc initproc ⟨.EMBRYO, 1, none, none⟩ with nextpid := 2 } := rfl

private theorem userinit_sound (addr : Frame) : Sound (userinit addr) := by
  have hnumbered : Sound (blank.setProc initproc ⟨.UNUSED, 1, none, none⟩) :=
    blank_sound.giveUp rfl rfl rfl rfl rfl rfl
  have hproc : (userinit addr).proc = update (blank.setProc initproc ⟨.UNUSED, 1, none, none⟩).proc initproc
      ⟨.RUNNABLE, 1, some ⟨addr, 0⟩, none⟩ := by
    simp only [userinit, blank_allocproc, setupkvm, setProc, update_self, Function.update_idem]
    rfl
  have hplace : (userinit addr).place = blank.place := rfl
  have hheld : (userinit addr).held = update (blank.setProc initproc ⟨.UNUSED, 1, none, none⟩).held
      (.own initproc) (some ⟨addr, (blank.setProc initproc ⟨.UNUSED, 1, none, none⟩).calls⟩) := by
    funext o
    cases o with
    | own p =>
      by_cases he : p = initproc
      · subst he
        rw [update_self]
        simp [held, Bare, hproc, hplace, blank, setProc]
      · rw [update_of_ne (by simpa using he)]
        simp [held, Bare, hproc, hplace, blank, setProc, he]
    | spare p =>
      rw [update_of_ne (by simp)]
      rfl
  refine hnumbered.enter ?_ ?_ hheld ?_ rfl ?_
  · apply hnumbered.row hproc hplace
    · intro _ _
      simp
    · exact fun hne => absurd rfl hne
    · intro c hc
      simp [setProc, blank, Place.child] at hc
  · rw [held, if_pos]
    exact .inl (by simp [setProc])
  · simp [userinit, blank_allocproc, setupkvm, setProc, name, Owner.slot]
  · funext o
    have hpid : ((userinit addr).proc o.slot).pid =
        ((blank.setProc initproc ⟨.UNUSED, 1, none, none⟩).proc o.slot).pid := by
      rw [hproc]
      by_cases he : o.slot = initproc <;> simp [he, setProc]
    exact congrArg (Prod.mk o.slot) hpid

private theorem mem_procdump {e : Slot × Option Dir} :
    e ∈ s.procdump ↔ (s.proc e.1).state ≠ .UNUSED ∧ (s.proc e.1).pgdir = e.2 := by
  simp only [procdump, List.mem_filterMap, List.mem_finRange, true_and]
  constructor
  · rintro ⟨p, hp⟩
    split at hp
    · simp at hp
    · next hstate =>
      obtain rfl := Option.some.inj hp
      exact ⟨hstate, rfl⟩
  · rintro ⟨hstate, hpgdir⟩
    exact ⟨e.1, by rw [if_neg hstate, hpgdir]⟩

private theorem Sound.live (h : Sound s) (hp : ¬ s.Bare p) : Live s (p, (s.proc p).pgdir) := by
  obtain ⟨d, hd⟩ := Option.ne_none_iff_exists'.mp (h.pgdir p hp)
  have hown : s.registry.held (.own p) = some d := by simp only [State.registry, held, if_neg hp, hd]
  exact ⟨d, hd, h.registry.live hown⟩

private theorem Sound.not_live (h : Sound s) (hc : s.place c = .creating np) (r : Option Dir) :
    ¬ Live s (np, r) := by
  rintro ⟨d, -, hlive⟩
  have hembryo := h.embryo c np (by rw [hc]; rfl)
  obtain ⟨hown, hspare⟩ := h.bare_held (.inr ⟨c, hc⟩) (by simp [Awake, hembryo])
  obtain ⟨o, ho, hname⟩ := (h.registry.entry d _).mp hlive
  have hslot : o.slot = np := congrArg Prod.fst hname
  cases o with
  | own p =>
    obtain rfl : p = np := hslot
    have hnone := hown.symm.trans ho
    simp at hnone
  | spare p =>
    obtain rfl : p = np := hslot
    have hnone := hspare.symm.trans ho
    simp at hnone

private theorem Sound.procdump_live_iff (h : Sound s) :
    (∀ e ∈ s.procdump, Live s e) ↔ ∀ c np, s.place c ≠ .creating np := by
  constructor
  · intro hlive c np hc
    have hembryo := h.embryo c np (by rw [hc]; rfl)
    have hmem : (np, (s.proc np).pgdir) ∈ s.procdump := mem_procdump.mpr ⟨by simp [hembryo], rfl⟩
    exact h.not_live hc _ (hlive _ hmem)
  · rintro hnone ⟨p, r⟩ he
    obtain ⟨hstate, hr⟩ := mem_procdump.mp he
    obtain rfl : (s.proc p).pgdir = r := hr
    apply h.live
    rintro (hunused | ⟨c, hc⟩)
    · exact hstate hunused
    · exact hnone c p hc

end Runs

end State

private theorem sound_of_run (hrun : Run Step (State.userinit addr) as s) : State.Sound s := by
  apply hrun.keeps _ (State.userinit_sound addr)
  exact fun _ _ _ hs hstep => hs.step hstep

private theorem exitDump_eq {es : List (Slot × Option Dir)} (hdump : s.exitDump c = some es) :
    es = s.procdump := by
  unfold State.exitDump at hdump
  split at hdump
  · exact (Option.some.inj hdump).symm
  · simp at hdump

/-- In every run the dump that `exit` makes follows live page directories, except where another process
is in `fork` and its child has no directory yet. -/
theorem exit_dump_live_iff (hrun : Run Step (State.userinit addr) as s) {es : List (Slot × Option Dir)}
    (hdump : s.exitDump c = some es) : (∀ e ∈ es, Live s e) ↔ ∀ c' np, s.place c' ≠ .creating np := by
  rw [exitDump_eq hdump]
  exact (sound_of_run hrun).procdump_live_iff

def sh : Slot := ⟨1, one_lt_nProc⟩
def first : Slot := ⟨2, two_lt_nProc⟩
def second : Slot := ⟨3, by decide⟩

/-- `init` starts `sh`, and `sh` a command. -/
def startFirst : List Act :=
  [.sched initproc .RUNNING, .fork initproc true (.copied 0x2000), .sched initproc .SLEEPING,
    .sched sh .RUNNING, .fork sh true .noDir, .copy sh first (.copied 0x3000)]

def endFirst : List Act := [.sched sh .SLEEPING, .sched first .RUNNING, .exit first]

/-- The command ends while nobody is in `fork`. -/
theorem exit_dump_live_alone : ∃ s es, Run Step (State.userinit 0x1000) (startFirst ++ endFirst) s ∧
    s.exitDump first = some es ∧ ∀ e ∈ es, Live s e := by
  have hend : ((startFirst ++ endFirst).foldlM State.act (State.userinit 0x1000)).map (fun s =>
      (s.exitDump first).isSome && decide (∀ c np, s.place c ≠ .creating np)) = some true := by
    decide +kernel
  obtain ⟨s, hs, hend⟩ := Option.map_eq_some_iff.mp hend
  rw [Bool.and_eq_true] at hend
  obtain ⟨es, hes⟩ := Option.isSome_iff_exists.mp hend.1
  have hrun : Run Step (State.userinit 0x1000) (startFirst ++ endFirst) s := .of_foldlM hs
  exact ⟨s, es, hrun, hes, (exit_dump_live_iff hrun hes).mpr (of_decide_eq_true hend.2)⟩

/-- A second command comes and goes, and `sh` forks a third into its slot. -/
def reuseSecond : List Act :=
  [.fork sh true .noDir, .copy sh second (.copied 0x4000), .sched sh .SLEEPING, .sched second .RUNNING,
    .exit second, .dump second, .leave second, .sched sh .RUNNING, .wait sh second, .fork sh true .noDir]

/-- `sh` is in `createSwapFile` for the third command when the first one ends: the dump follows the
directory that was freed with the second. -/
theorem exit_dump_follows_released : ¬ ∀ (addr : Frame) (as : List Act) (s : State) (c : Slot)
    (es : List (Slot × Option Dir)), Run Step (State.userinit addr) as s → s.exitDump c = some es →
      ∀ e ∈ es, Live s e := by
  intro h
  have hend : ((startFirst ++ reuseSecond ++ endFirst).foldlM State.act (State.userinit 0x1000)).map
      (fun s => (s.exitDump first).isSome && decide ((second, some ⟨0x4000, 3⟩) ∈ s.procdump ∧
        s.live ⟨0x4000, 3⟩ = none)) = some true := by
    decide +kernel
  obtain ⟨s, hs, hend⟩ := Option.map_eq_some_iff.mp hend
  rw [Bool.and_eq_true] at hend
  obtain ⟨es, hes⟩ := Option.isSome_iff_exists.mp hend.1
  obtain ⟨hmem, hreleased⟩ := of_decide_eq_true hend.2
  rw [← exitDump_eq hes] at hmem
  obtain ⟨d, hd, hlive⟩ := h _ _ s first es (.of_foldlM hs) hes _ hmem
  obtain rfl := Option.some.inj hd
  have hnone := hreleased.symm.trans hlive
  simp at hnone

end OsSessional.Paging.Dump
