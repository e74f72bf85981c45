import OsSessional.Lib.Links
import OsSessional.Lib.Client
import OsSessional.Paging.SwapFile

/-!
# The buffer cache

`bio.c` and the disc driver it calls: a list of buffers, most recently used first, each with a
sleeping lock and a count of the calls that refer to it. A session runs from `bread` to `brelse` on
one buffer; a process that holds several buffers runs several sessions. The lists are only touched
under `bcache.lock`, so each such region is one step; between them other sessions move.
-/

namespace OsSessional.Storage

open Function (update)
open Paging (Byte)

/-- The contents of a block. -/
abbrev Block := Nat → Byte

/-- The block `blockno` of device `dev`. -/
structure BlockId where
  dev : Nat
  blockno : Nat
  deriving DecidableEq

/-- What the holder of a buffer does to its block, and the loss of all memory. -/
inductive Io
  | see (b : BlockId) (v : Block)
  | put (b : BlockId) (v : Block)
  | pin (b : BlockId)
  | flush (b : BlockId)
  | crash

/-- The fields `next` and `prev` of the buffers and of `bcache.head`, which is `none`. -/
structure Chain (n : Nat) where
  next : Option (Fin n) → Option (Fin n)
  prev : Option (Fin n) → Option (Fin n)

namespace Chain

variable {n : Nat}

/-- `b->next->prev = b->prev; b->prev->next = b->next;` -/
def unlink (c : Chain n) (b : Fin n) : Chain n :=
  let prev := update c.prev (c.next (some b)) (c.prev (some b))
  { next := update c.next (prev (some b)) (c.next (some b)), prev := prev }

/-- `b->next = head.next; b->prev = &head; head.next->prev = b; head.next = b;` -/
def insert (c : Chain n) (b : Fin n) : Chain n :=
  let next := update c.next (some b) (c.next none)
  let prev := update (update c.prev (some b) none) (next none) (some b)
  { next := update next none (some b), prev := prev }

/-- The list `binit` makes. -/
def binit : Chain n := (List.finRange n).foldl insert ⟨fun _ => none, fun _ => none⟩

end Chain

/-- `struct buf` without its lock and links. -/
structure Buf where
  valid : Bool
  dirty : Bool
  id : BlockId
  refcnt : Nat
  data : Block

/-- Where a session is: in `acquiresleep`, about to test `B_VALID`, asleep in `iderw`, holding the
buffer, with data the cache does not know of if `wrote`, and in `brelse` after `releasesleep`. -/
inductive Place (n : Nat)
  | idle
  | waiting (i : Fin n)
  | locked (i : Fin n)
  | inIde (i : Fin n)
  | held (i : Fin n) (wrote : Bool)
  | leaving (i : Fin n)
  deriving DecidableEq

/-- The cache, the disc below it and the sessions. `lock i` is the session whose process `b->lock`
names. -/
structure Bcache (n : Nat) (ι : Type) where
  buf : Fin n → Buf
  lock : Fin n → Option ι
  chain : Chain n
  disk : BlockId → Block
  place : ι → Place n

/-- One step of a session. `ideintr` is the interrupt that ends the request of the session's buffer,
`unref` the part of `brelse` under `bcache.lock`. -/
inductive Session
  | bget (id : BlockId)
  | acquiresleep
  | bread
  | ideintr
  | see
  | put (v : Block)
  | pin
  | bwrite
  | brelse
  | unref

/-- Which session moves, or that the machine stops and starts again. -/
inductive CacheAct (ι : Type)
  | session (p : ι) (a : Session)
  | crash

namespace Bcache

variable {n : Nat} {ι : Type} (s : Bcache n ι)

/-- The first loop of `bget`. -/
def hit (id : BlockId) : Option (Fin n) :=
  walk s.chain.next (fun i => decide ((s.buf i).id = id)) n (s.chain.next none)

/-- Whether `bget` may recycle the buffer. -/
def spare (i : Fin n) : Bool := decide ((s.buf i).refcnt = 0) && !(s.buf i).dirty

/-- The second loop of `bget`. -/
def victim : Option (Fin n) := walk s.chain.prev s.spare n (s.chain.prev none)

/-- The buffers are unused, as after `binit`. -/
def cold (s : Bcache n ι) : Bcache n ι where
  buf _ := ⟨false, false, ⟨0, 0⟩, 0, fun _ => 0⟩
  lock _ := none
  chain := .binit
  disk := s.disk
  place _ := .idle

section Moves

variable [DecidableEq ι] (p : ι) (i : Fin n)

def setBuf (b : Buf) : Bcache n ι := { s with buf := update s.buf i b }

def setDisk (id : BlockId) (v : Block) : Bcache n ι := { s with disk := update s.disk id v }

def setLock (holder : Option ι) : Bcache n ι := { s with lock := update s.lock i holder }

def goto (place : Place n) : Bcache n ι := { s with place := update s.place p place }

/-- `bget` up to `acquiresleep`; `none` is `panic("bget: no buffers")`. -/
def bget (id : BlockId) : Option (Bcache n ι) :=
  match s.hit id with
  | some i =>
    some ((s.setBuf i { s.buf i with refcnt := (s.buf i).refcnt + 1 }).goto p (.waiting i))
  | none =>
    match s.victim with
    | some i =>
      some ((s.setBuf i { s.buf i with valid := false, dirty := false, id := id, refcnt := 1 }).goto p
        (.waiting i))
    | none => none

/-- The end of a request: `B_DIRTY` tells whether the block was written or read. -/
def ideintr : Bcache n ι :=
  let b := s.buf i
  if b.dirty then (s.setDisk b.id b.data).setBuf i { b with valid := true, dirty := false }
  else s.setBuf i { b with data := s.disk b.id, valid := true }

/-- `brelse` after `releasesleep`. -/
def unref : Bcache n ι :=
  let b := { s.buf i with refcnt := (s.buf i).refcnt - 1 }
  { s.setBuf i b with chain := if b.refcnt = 0 then (s.chain.unlink i).insert i else s.chain }

/-- A step of session `p` and what it does to the block; `none` where it cannot be taken. Nobody
asks for a block of device `0`, and changed data are logged or written before `brelse`. -/
def next : Session → Option (Bcache n ι × Option Io)
  | .bget id =>
    match s.place p with
    | .idle => if id.dev = 0 then none else (s.bget p id).map (·, none)
    | _ => none
  | .acquiresleep =>
    match s.place p with
    | .waiting i =>
      match s.lock i with
      | none => some ((s.setLock i (some p)).goto p (.locked i), none)
      | some _ => none
    | _ => none
  | .bread =>
    match s.place p with
    | .locked i => some (s.goto p (if (s.buf i).valid then .held i false else .inIde i), none)
    | _ => none
  | .ideintr =>
    match s.place p with
    | .inIde i =>
      some ((s.ideintr i).goto p (.held i false),
        if (s.buf i).dirty then some (.flush (s.buf i).id) else none)
    | _ => none
  | .see =>
    match s.place p with
    | .held i _ => some (s, some (.see (s.buf i).id (s.buf i).data))
    | _ => none
  | .put v =>
    match s.place p with
    | .held i _ =>
      some ((s.setBuf i { s.buf i with data := v }).goto p (.held i true), some (.put (s.buf i).id v))
    | _ => none
  | .pin =>
    match s.place p with
    | .held i _ =>
      some ((s.setBuf i { s.buf i with dirty := true }).goto p (.held i false),
        some (.pin (s.buf i).id))
    | _ => none
  | .bwrite =>
    match s.place p with
    | .held i _ => some ((s.setBuf i { s.buf i with dirty := true }).goto p (.inIde i), none)
    | _ => none
  | .brelse =>
    match s.place p with
    | .held i false => some ((s.setLock i none).goto p (.leaving i), none)
    | _ => none
  | .unref =>
    match s.place p with
    | .leaving i => some ((s.unref i).goto p .idle, none)
    | _ => none

def act : CacheAct ι → Option (Bcache n ι × Option Io)
  | .session p a => s.next p a
  | .crash => some (s.cold, some .crash)

end Moves

section Fields

variable (i : Fin n) (b : Buf)

@[simp] theorem setBuf_buf : (s.setBuf i b).buf = update s.buf i b := rfl
@[simp] theorem setBuf_lock : (s.setBuf i b).lock = s.lock := rfl
@[simp] theorem setBuf_chain : (s.setBuf i b).chain = s.chain := rfl
@[simp] theorem setBuf_disk : (s.setBuf i b).disk = s.disk := rfl
@[simp] theorem setBuf_place : (s.setBuf i b).place = s.place := rfl
@[simp] theorem setLock_buf (holder : Option ι) : (s.setLock i holder).buf = s.buf := rfl
@[simp] theorem setLock_lock (holder : Option ι) :
    (s.setLock i holder).lock = update s.lock i holder := rfl
@[simp] theorem setLock_chain (holder : Option ι) : (s.setLock i holder).chain = s.chain := rfl
@[simp] theorem setLock_place (holder : Option ι) : (s.setLock i holder).place = s.place := rfl
@[simp] theorem setDisk_buf (id : BlockId) (v : Block) : (s.setDisk id v).buf = s.buf := rfl
@[simp] theorem setDisk_disk (id : BlockId) (v : Block) :
    (s.setDisk id v).disk = update s.disk id v := rfl
@[simp] theorem setDisk_chain (id : BlockId) (v : Block) : (s.setDisk id v).chain = s.chain := rfl
@[simp] theorem setDisk_place (id : BlockId) (v : Block) : (s.setDisk id v).place = s.place := rfl
@[simp] theorem unref_buf : (s.unref i).buf =
    update s.buf i { s.buf i with refcnt := (s.buf i).refcnt - 1 } := rfl
@[simp] theorem unref_lock : (s.unref i).lock = s.lock := rfl
@[simp] theorem unref_disk : (s.unref i).disk = s.disk := rfl
@[simp] theorem unref_place : (s.unref i).place = s.place := rfl

variable [DecidableEq ι] (p : ι) (pl : Place n)

@[simp] theorem goto_buf : (s.goto p pl).buf = s.buf := rfl
@[simp] theorem goto_lock : (s.goto p pl).lock = s.lock := rfl
@[simp] theorem goto_chain : (s.goto p pl).chain = s.chain := rfl
@[simp] theorem goto_disk : (s.goto p pl).disk = s.disk := rfl
@[simp] theorem goto_place : (s.goto p pl).place = update s.place p pl := rfl

end Fields

section Cases

variable [DecidableEq ι] {s} {s' : Bcache n ι} {p : ι} {a : Session} {io : Option Io}

/-- The steps of a session. -/
inductive Next (s : Bcache n ι) (p : ι) : Session → Bcache n ι → Option Io → Prop
  | found {i : Fin n} {id : BlockId} (hplace : s.place p = .idle) (hdev : id.dev ≠ 0)
      (hhit : s.hit id = some i) :
      Next s p (.bget id)
        ((s.setBuf i { s.buf i with refcnt := (s.buf i).refcnt + 1 }).goto p (.waiting i)) none
  | recycled {i : Fin n} {id : BlockId} (hplace : s.place p = .idle) (hdev : id.dev ≠ 0)
      (hhit : s.hit id = none) (hvictim : s.victim = some i) :
      Next s p (.bget id)
        ((s.setBuf i { s.buf i with valid := false, dirty := false, id := id, refcnt := 1 }).goto p
          (.waiting i)) none
  | acquired {i : Fin n} (hplace : s.place p = .waiting i) (hlock : s.lock i = none) :
      Next s p .acquiresleep ((s.setLock i (some p)).goto p (.locked i)) none
  | cached {i : Fin n} (hplace : s.place p = .locked i) (hvalid : (s.buf i).valid = true) :
      Next s p .bread (s.goto p (.held i false)) none
  | asks {i : Fin n} (hplace : s.place p = .locked i) (hvalid : (s.buf i).valid = false) :
      Next s p .bread (s.goto p (.inIde i)) none
  | written {i : Fin n} (hplace : s.place p = .inIde i) (hdirty : (s.buf i).dirty = true) :
      Next s p .ideintr (((s.setDisk (s.buf i).id (s.buf i).data).setBuf i
          { s.buf i with valid := true, dirty := false }).goto p (.held i false))
        (some (.flush (s.buf i).id))
  | filled {i : Fin n} (hplace : s.place p = .inIde i) (hdirty : (s.buf i).dirty = false) :
      Next s p .ideintr
        ((s.setBuf i { s.buf i with data := s.disk (s.buf i).id, valid := true }).goto p
          (.held i false)) none
  | see {i : Fin n} {w : Bool} (hplace : s.place p = .held i w) :
      Next s p .see s (some (.see (s.buf i).id (s.buf i).data))
  | put {i : Fin n} {w : Bool} (hplace : s.place p = .held i w) (v : Block) :
      Next s p (.put v) ((s.setBuf i { s.buf i with data := v }).goto p (.held i true))
        (some (.put (s.buf i).id v))
  | pin {i : Fin n} {w : Bool} (hplace : s.place p = .held i w) :
      Next s p .pin ((s.setBuf i { s.buf i with dirty := true }).goto p (.held i false))
        (some (.pin (s.buf i).id))
  | bwrite {i : Fin n} {w : Bool} (hplace : s.place p = .held i w) :
      Next s p .bwrite ((s.setBuf i { s.buf i with dirty := true }).goto p (.inIde i)) none
  | released {i : Fin n} (hplace : s.place p = .held i false) :
      Next s p .brelse ((s.setLock i none).goto p (.leaving i)) none
  | unref {i : Fin n} (hplace : s.place p = .leaving i) :
      Next s p .unref ((s.unref i).goto p .idle) none

theorem next_cases (h : s.next p a = some (s', io)) : Next s p a s' io := by
  cases a with
  | bget id =>
    simp only [next] at h
    split at h
    · next hplace =>
      split at h
      · contradiction
      · next hdev =>
        simp only [bget, Option.map_eq_some_iff, Prod.mk.injEq] at h
        rcases h with ⟨s₁, h, rfl, rfl⟩
        split at h
        · next hhit =>
          obtain rfl := Option.some.inj h
          exact .found hplace hdev hhit
        · next hhit =>
          split at h
          · next hvictim =>
            obtain rfl := Option.some.inj h
            exact .recycled hplace hdev hhit hvictim
          · contradiction
    · contradiction
  | acquiresleep =>
    simp only [next] at h
    split at h
    · next hplace =>
      split at h
      · next hlock =>
        simp only [Option.some.injEq, Prod.mk.injEq] at h
        rcases h with ⟨rfl, rfl⟩
        exact .acquired hplace hlock
      · contradiction
    · contradiction
  | bread =>
    simp only [next] at h
    split at h
    · next i hplace =>
      simp only [Option.some.injEq, Prod.mk.injEq] at h
      rcases h with ⟨rfl, rfl⟩
      cases hvalid : (s.buf i).valid with
      | true => exact .cached hplace hvalid
      | false => exact .asks hplace hvalid
    · contradiction
  | ideintr =>
    simp only [next] at h
    split at h
    · next i hplace =>
      simp only [Option.some.injEq, Prod.mk.injEq] at h
      rcases h with ⟨rfl, rfl⟩
      cases hdirty : (s.buf i).dirty with
      | true =>
        rw [ideintr, if_pos hdirty, if_pos rfl]
        exact .written hplace hdirty
      | false =>
        rw [ideintr, if_neg (by simp [hdirty]), if_neg (by simp)]
        exact .filled hplace hdirty
    · contradiction
  | see =>
    simp only [next] at h
    split at h
    · next hplace =>
      simp only [Option.some.injEq, Prod.mk.injEq] at h
      rcases h with ⟨rfl, rfl⟩
      exact .see hplace
    · contradiction
  | put v =>
    simp only [next] at h
    split at h
    · next hplace =>
      simp only [Option.some.injEq, Prod.mk.injEq] at h
      rcases h with ⟨rfl, rfl⟩
      exact .put hplace v
    · contradiction
  | pin =>
    simp only [next] at h
    split at h
    · next hplace =>
      simp only [Option.some.injEq, Prod.mk.injEq] at h
      rcases h with ⟨rfl, rfl⟩
      exact .pin hplace
    · contradiction
  | bwrite =>
    simp only [next] at h
    split at h
    · next hplace =>
      simp only [Option.some.injEq, Prod.mk.injEq] at h
      rcases h with ⟨rfl, rfl⟩
      exact .bwrite hplace
    · contradiction
  | brelse =>
    simp only [next] at h
    split at h
    · next hplace =>
      simp only [Option.some.injEq, Prod.mk.injEq] at h
      rcases h with ⟨rfl, rfl⟩
      exact .released hplace
    · contradiction
  | unref =>
    simp only [next] at h
    split at h
    · next hplace =>
      simp only [Option.some.injEq, Prod.mk.injEq] at h
      rcases h with ⟨rfl, rfl⟩
      exact .unref hplace
    · contradiction

end Cases

/-- A step and what is seen of it. -/
def Step [DecidableEq ι] (s : Bcache n ι) (io : Option Io) (s' : Bcache n ι) : Prop :=
  ∃ a, s.act a = some (s', io)

end Bcache

end OsSessional.Storage
