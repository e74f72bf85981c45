import OsSessional.Lib.Runs
import OsSessional.Lib.Threads

/-!
# Passengers

The threads of `code.cpp`: each passenger runs `arrival`, one more thread runs
`broadcast_function`. A program counter names the place between two steps. A mutex-protected region
is one step, except that `L_to_R++` and `L_to_R--` load and store the counter in separate steps
inside theirs. Walks, sleeps and messages take no part.
-/

namespace OsSessional.Airport

open Function (update)

/-- The four updates of `L_to_R`: at the end of `checkin_at_kiosk`, at the start of
`boarding_on_plane`, in `recheckin_at_special_kiosk`, and after `go_back`. -/
inductive Update
  | kiosk | boarding | special | again
  deriving DecidableEq

/-- The mutexes held around those updates. -/
inductive Mutex
  | L_to_R_mutex | special_kiosk_mutex
  deriving DecidableEq

def Update.mutex : Update → Mutex
  | .kiosk => .L_to_R_mutex
  | .boarding => .L_to_R_mutex
  | .special => .special_kiosk_mutex
  | .again => .L_to_R_mutex

def Update.delta : Update → Int
  | .kiosk => 1
  | .boarding => -1
  | .special => 1
  | .again => -1

/-- `if(p.isVIP)` stands before the first two updates. -/
def Update.applies (isVIP : Bool) : Update → Bool
  | .kiosk => isVIP
  | .boarding => isVIP
  | .special => true
  | .again => true

/-- Where a passenger is in the region of an update: before it, inside before the load, with the
value loaded, and inside after the store. -/
inductive Phase
  | enter
  | locked
  | loaded (L_to_R : Int)
  | stored
  deriving DecidableEq

/-- What a passenger does next. `again` tells the walk at the end of `go_back` from the one in
`arrival`. -/
inductive Pc
  | arrival
  | takeKiosk
  | giveKiosk (kiosk_id : Nat)
  | count (u : Update) (ph : Phase)
  | leaveKiosk
  | chooseBelt
  | waitBelt (belt_id : Nat)
  | leaveBelt (belt_id : Nat)
  | testLane (again : Bool)
  | asleepLane (again : Bool)
  | walkLR (again : Bool)
  | toss
  | goBack
  | testBack
  | asleepBack
  | hopOn
  | walkRL
  | hopOff
  | board
  | boarded
  deriving DecidableEq

/-- The input: kiosks, belts and their capacity, and who is a VIP. -/
structure Config (n : Nat) where
  kiosks : Nat
  belts : Nat
  passengers_per_belt : Nat
  isVIP : Fin n → Bool

/-- The shared variables, semaphores and mutexes, and the place of every thread. `atLane` tells
whether `broadcast_function` looks at the lane next. -/
structure State (n : Nat) where
  L_to_R : Int
  R_to_L : Int
  VIP_lane_lock : Bool
  Q : List Nat
  kiosk_capacity_sem : Nat
  belt_capacity_sem : Nat → Nat
  owner : Mutex → Option (Fin n)
  pc : Fin n → Pc
  atLane : Bool

variable {n : Nat}

def Config.init (cfg : Config n) : State n where
  L_to_R := 0
  R_to_L := 0
  VIP_lane_lock := false
  Q := List.range' 1 cfg.kiosks
  kiosk_capacity_sem := cfg.kiosks
  belt_capacity_sem _ := cfg.passengers_per_belt
  owner _ := none
  pc _ := .arrival
  atLane := false

namespace State

variable (s : State n)

def goto (i : Fin n) (p : Pc) : State n := { s with pc := update s.pc i p }

/-- `random(min, max)` of the value `rand()` returned. -/
def random (draw min max : Nat) : Nat := min + draw % (max - min + 1)

/-- Where a passenger goes after an update. -/
def afterUpdate : Update → Pc
  | .kiosk => .leaveKiosk
  | .boarding => .toss
  | .special => .testLane true
  | .again => .board

/-- One step inside the region of update `u`. -/
def count (cfg : Config n) (i : Fin n) (u : Update) : Phase → Option (State n)
  | .enter =>
    match s.owner u.mutex with
    | none => some ({ s with owner := update s.owner u.mutex (some i) }.goto i (.count u .locked))
    | some _ => none
  | .locked =>
    if u.applies (cfg.isVIP i) then some (s.goto i (.count u (.loaded s.L_to_R)))
    else some (s.goto i (.count u .stored))
  | .loaded x => some ({ s with L_to_R := x + u.delta }.goto i (.count u .stored))
  | .stored => some ({ s with owner := update s.owner u.mutex none }.goto i (afterUpdate u))

/-- The next step of passenger `i`, with what `rand()` returns if it is called; `none` while the
passenger is blocked, asleep or done. -/
def next (cfg : Config n) (i : Fin n) (draw : Nat) : Option (State n) :=
  match s.pc i with
  | .arrival =>
    if 0 < s.kiosk_capacity_sem then
      some ({ s with kiosk_capacity_sem := s.kiosk_capacity_sem - 1 }.goto i .takeKiosk)
    else none
  | .takeKiosk =>
    match s.Q with
    | kiosk_id :: rest => some ({ s with Q := rest }.goto i (.giveKiosk kiosk_id))
    | [] => none
  | .giveKiosk kiosk_id => some ({ s with Q := s.Q ++ [kiosk_id] }.goto i (.count .kiosk .enter))
  | .count u ph => s.count cfg i u ph
  | .leaveKiosk =>
    some ({ s with kiosk_capacity_sem := s.kiosk_capacity_sem + 1 }.goto i
      (if cfg.isVIP i then .testLane false else .chooseBelt))
  | .chooseBelt => some (s.goto i (.waitBelt (random draw 0 (cfg.belts - 1))))
  | .waitBelt belt_id =>
    if 0 < s.belt_capacity_sem belt_id then
      some ({ s with
        belt_capacity_sem := update s.belt_capacity_sem belt_id
          (s.belt_capacity_sem belt_id - 1) }.goto i (.leaveBelt belt_id))
    else none
  | .leaveBelt belt_id =>
    some ({ s with
      belt_capacity_sem := update s.belt_capacity_sem belt_id
        (s.belt_capacity_sem belt_id + 1) }.goto i (.count .boarding .enter))
  | .testLane again => some (s.goto i (if s.VIP_lane_lock then .asleepLane again else .walkLR again))
  | .asleepLane _ => none
  | .walkLR again => some (s.goto i (.count (if again then .again else .boarding) .enter))
  | .toss => some (s.goto i (if draw % 2 = 1 then .goBack else .board))
  | .goBack => some ({ s with R_to_L := s.R_to_L + 1 }.goto i .testBack)
  | .testBack => some (s.goto i (if s.L_to_R > 0 then .asleepBack else .hopOn))
  | .asleepBack => none
  | .hopOn => some ({ s with VIP_lane_lock := true }.goto i .walkRL)
  | .walkRL => some ({ s with VIP_lane_lock := false }.goto i .hopOff)
  | .hopOff => some ({ s with R_to_L := s.R_to_L - 1 }.goto i (.count .special .enter))
  | .board => some (s.goto i .boarded)
  | .boarded => none

/-- A passenger asleep on `condition_cond` tests again. -/
def wakeBack : Pc → Pc
  | .asleepBack => .testBack
  | p => p

/-- A passenger asleep on `VIP_lane_lock_condition_cond` tests again. -/
def wakeLane : Pc → Pc
  | .asleepLane again => .testLane again
  | p => p

/-- One of the two regions in the loop of `broadcast_function`. -/
def broadcast_function : State n :=
  if s.atLane then
    { s with
      atLane := false
      pc := if s.VIP_lane_lock then s.pc else fun i => wakeLane (s.pc i) }
  else
    { s with
      atLane := true
      pc := if s.L_to_R = 0 then fun i => wakeBack (s.pc i) else s.pc }

section Cases

variable {s s' : State n} {cfg : Config n} {i : Fin n} {draw : Nat}

/-- The steps inside the region of an update. -/
inductive Counts (cfg : Config n) (s : State n) (i : Fin n) (u : Update) : Phase → State n → Prop
  | lock (hfree : s.owner u.mutex = none) :
      Counts cfg s i u .enter
        ({ s with owner := update s.owner u.mutex (some i) }.goto i (.count u .locked))
  | load (happlies : u.applies (cfg.isVIP i) = true) :
      Counts cfg s i u .locked (s.goto i (.count u (.loaded s.L_to_R)))
  | skip (happlies : u.applies (cfg.isVIP i) = false) :
      Counts cfg s i u .locked (s.goto i (.count u .stored))
  | store (x : Int) :
      Counts cfg s i u (.loaded x) ({ s with L_to_R := x + u.delta }.goto i (.count u .stored))
  | unlock :
      Counts cfg s i u .stored ({ s with owner := update s.owner u.mutex none }.goto i (afterUpdate u))

private theorem count_cases {u : Update} {ph : Phase} (h : s.count cfg i u ph = some s') :
    Counts cfg s i u ph s' := by
  cases ph with
  | enter =>
    simp only [count] at h
    cases hfree : s.owner u.mutex with
    | none =>
      simp only [hfree, Option.some.injEq] at h
      subst h
      exact .lock hfree
    | some j => simp [hfree] at h
  | locked =>
    simp only [count] at h
    split at h
    · next happlies =>
      simp only [Option.some.injEq] at h
      subst h
      exact .load happlies
    · next happlies =>
      simp only [Option.some.injEq] at h
      subst h
      exact .skip (by simpa using happlies)
  | loaded x =>
    simp only [count, Option.some.injEq] at h
    subst h
    exact .store x
  | stored =>
    simp only [count, Option.some.injEq] at h
    subst h
    exact .unlock

/-- The steps of a passenger. -/
inductive Next (cfg : Config n) (s : State n) (i : Fin n) : State n → Prop
  | waitKiosk (hpc : s.pc i = .arrival) (hsem : 0 < s.kiosk_capacity_sem) :
      Next cfg s i ({ s with kiosk_capacity_sem := s.kiosk_capacity_sem - 1 }.goto i .takeKiosk)
  | takeKiosk {kiosk_id : Nat} {rest : List Nat} (hpc : s.pc i = .takeKiosk)
      (hQ : s.Q = kiosk_id :: rest) :
      Next cfg s i ({ s with Q := rest }.goto i (.giveKiosk kiosk_id))
  | giveKiosk {kiosk_id : Nat} (hpc : s.pc i = .giveKiosk kiosk_id) :
      Next cfg s i ({ s with Q := s.Q ++ [kiosk_id] }.goto i (.count .kiosk .enter))
  | counts {u : Update} {ph : Phase} {s' : State n} (hpc : s.pc i = .count u ph)
      (h : Counts cfg s i u ph s') : Next cfg s i s'
  | leaveKiosk (hpc : s.pc i = .leaveKiosk) :
      Next cfg s i ({ s with kiosk_capacity_sem := s.kiosk_capacity_sem + 1 }.goto i
        (if cfg.isVIP i then .testLane false else .chooseBelt))
  | chooseBelt {belt_id : Nat} (hpc : s.pc i = .chooseBelt) :
      Next cfg s i (s.goto i (.waitBelt belt_id))
  | waitBelt {belt_id : Nat} {sem : Nat → Nat} (hpc : s.pc i = .waitBelt belt_id) :
      Next cfg s i ({ s with belt_capacity_sem := sem }.goto i (.leaveBelt belt_id))
  | leaveBelt {belt_id : Nat} {sem : Nat → Nat} (hpc : s.pc i = .leaveBelt belt_id) :
      Next cfg s i ({ s with belt_capacity_sem := sem }.goto i (.count .boarding .enter))
  | laneLocked {again : Bool} (hpc : s.pc i = .testLane again) (hlock : s.VIP_lane_lock = true) :
      Next cfg s i (s.goto i (.asleepLane again))
  | laneOpen {again : Bool} (hpc : s.pc i = .testLane again) (hlock : s.VIP_lane_lock = false) :
      Next cfg s i (s.goto i (.walkLR again))
  | walkedLR {again : Bool} (hpc : s.pc i = .walkLR again) :
      Next cfg s i (s.goto i (.count (if again then .again else .boarding) .enter))
  | lost (hpc : s.pc i = .toss) : Next cfg s i (s.goto i .goBack)
  | kept (hpc : s.pc i = .toss) : Next cfg s i (s.goto i .board)
  | goBack (hpc : s.pc i = .goBack) :
      Next cfg s i ({ s with R_to_L := s.R_to_L + 1 }.goto i .testBack)
  | backBusy (hpc : s.pc i = .testBack) (hcount : 0 < s.L_to_R) :
      Next cfg s i (s.goto i .asleepBack)
  | backClear (hpc : s.pc i = .testBack) (hcount : s.L_to_R ≤ 0) : Next cfg s i (s.goto i .hopOn)
  | hopOn (hpc : s.pc i = .hopOn) : Next cfg s i ({ s with VIP_lane_lock := true }.goto i .walkRL)
  | walkedRL (hpc : s.pc i = .walkRL) :
      Next cfg s i ({ s with VIP_lane_lock := false }.goto i .hopOff)
  | hopOff (hpc : s.pc i = .hopOff) :
      Next cfg s i ({ s with R_to_L := s.R_to_L - 1 }.goto i (.count .special .enter))
  | board (hpc : s.pc i = .board) : Next cfg s i (s.goto i .boarded)

theorem next_cases (h : s.next cfg i draw = some s') : Next cfg s i s' := by
  cases hpc : s.pc i with
  | arrival =>
    simp only [next, hpc] at h
    split at h
    · next hsem =>
      obtain rfl := Option.some.inj h
      exact .waitKiosk hpc hsem
    · simp at h
  | takeKiosk =>
    simp only [next, hpc] at h
    cases hQ : s.Q with
    | nil => simp [hQ] at h
    | cons kiosk_id rest =>
      simp only [hQ] at h
      obtain rfl := Option.some.inj h
      exact .takeKiosk hpc hQ
  | giveKiosk kiosk_id =>
    simp only [next, hpc] at h
    obtain rfl := Option.some.inj h
    exact .giveKiosk hpc
  | count u ph =>
    simp only [next, hpc] at h
    exact .counts hpc (count_cases h)
  | leaveKiosk =>
    simp only [next, hpc] at h
    obtain rfl := Option.some.inj h
    exact .leaveKiosk hpc
  | chooseBelt =>
    simp only [next, hpc] at h
    obtain rfl := Option.some.inj h
    exact .chooseBelt hpc
  | waitBelt belt_id =>
    simp only [next, hpc] at h
    split at h
    · obtain rfl := Option.some.inj h
      exact .waitBelt hpc
    · simp at h
  | leaveBelt belt_id =>
    simp only [next, hpc] at h
    obtain rfl := Option.some.inj h
    exact .leaveBelt hpc
  | testLane again =>
    simp only [next, hpc] at h
    obtain rfl := Option.some.inj h
    cases hlock : s.VIP_lane_lock with
    | true => exact .laneLocked hpc hlock
    | false => exact .laneOpen hpc hlock
  | asleepLane again => simp [next, hpc] at h
  | walkLR again =>
    simp only [next, hpc] at h
    obtain rfl := Option.some.inj h
    exact .walkedLR hpc
  | toss =>
    simp only [next, hpc] at h
    obtain rfl := Option.some.inj h
    split
    · exact .lost hpc
    · exact .kept hpc
  | goBack =>
    simp only [next, hpc] at h
    obtain rfl := Option.some.inj h
    exact .goBack hpc
  | testBack =>
    simp only [next, hpc] at h
    obtain rfl := Option.some.inj h
    split
    · next hcount => exact .backBusy hpc hcount
    · next hcount => exact .backClear hpc (by omega)
  | asleepBack => simp [next, hpc] at h
  | hopOn =>
    simp only [next, hpc] at h
    obtain rfl := Option.some.inj h
    exact .hopOn hpc
  | walkRL =>
    simp only [next, hpc] at h
    obtain rfl := Option.some.inj h
    exact .walkedRL hpc
  | hopOff =>
    simp only [next, hpc] at h
    obtain rfl := Option.some.inj h
    exact .hopOff hpc
  | board =>
    simp only [next, hpc] at h
    obtain rfl := Option.some.inj h
    exact .board hpc
  | boarded => simp [next, hpc] at h

/-- A passenger stays where it is, or wakes up. -/
inductive Wakes (s : State n) : Pc → Pc → Prop
  | same (p : Pc) : Wakes s p p
  | back (hcount : s.L_to_R = 0) : Wakes s .asleepBack .testBack
  | lane (again : Bool) (hlock : s.VIP_lane_lock = false) :
      Wakes s (.asleepLane again) (.testLane again)

private theorem wakes_back (hcount : s.L_to_R = 0) (p : Pc) : Wakes s p (wakeBack p) := by
  cases p with
  | asleepBack => exact .back hcount
  | _ => exact .same _

private theorem wakes_lane (hlock : s.VIP_lane_lock = false) (p : Pc) : Wakes s p (wakeLane p) := by
  cases p with
  | asleepLane again => exact .lane again hlock
  | _ => exact .same _

/-- The broadcasting thread wakes passengers and touches nothing shared. -/
theorem broadcast_cases (s : State n) :
    ∃ pc atLane, s.broadcast_function = { s with pc := pc, atLane := atLane } ∧
      ∀ j, Wakes s (s.pc j) (pc j) := by
  unfold broadcast_function
  split
  · refine ⟨_, _, rfl, ?_⟩
    intro j
    split
    · exact .same _
    · next hlock => exact wakes_lane (by simpa using hlock) _
  · refine ⟨_, _, rfl, ?_⟩
    intro j
    split
    · next hcount => exact wakes_back hcount _
    · exact .same _

end Cases

end State

/-- Which thread moves. -/
inductive Act (n : Nat)
  | passenger (i : Fin n) (draw : Nat)
  | broadcast

/-- A step of one thread. -/
def act (cfg : Config n) (s : State n) : Act n → Option (State n)
  | .passenger i draw => s.next cfg i draw
  | .broadcast => some s.broadcast_function

def Step (cfg : Config n) (s : State n) (a : Act n) (s' : State n) : Prop := act cfg s a = some s'

end OsSessional.Airport
