import OsSessional.Storage.Bio

/-!
# The block store

What the cache is for: memory and disc as two tables from blocks to contents. The cache shows the
holder of a buffer the contents last put there, whichever buffer they were put in and whatever was
recycled since.
-/

namespace OsSessional.Storage

open Function (update)

/-- What a reader sees of each block, and what would be left of it without power. -/
structure Store where
  mem : BlockId → Block
  disk : BlockId → Block

namespace Store

variable (s : Store) (b : BlockId) (v : Block)

def put : Store := { s with mem := update s.mem b v }

def flush : Store := { s with disk := update s.disk b (s.mem b) }

def crash : Store := { s with mem := s.disk }

@[simp] theorem put_mem : (s.put b v).mem = update s.mem b v := rfl
@[simp] theorem put_disk : (s.put b v).disk = s.disk := rfl
@[simp] theorem flush_mem : (s.flush b).mem = s.mem := rfl
@[simp] theorem flush_disk : (s.flush b).disk = update s.disk b (s.mem b) := rfl
@[simp] theorem crash_mem : s.crash.mem = s.disk := rfl
@[simp] theorem crash_disk : s.crash.disk = s.disk := rfl

/-- What a holder sees, and what becomes of the store. -/
inductive Step : Store → Option Io → Store → Prop
  | see (s : Store) (b : BlockId) : Step s (some (.see b (s.mem b))) s
  | put (s : Store) (b : BlockId) (v : Block) : Step s (some (.put b v)) (s.put b v)
  | pin (s : Store) (b : BlockId) : Step s (some (.pin b)) s
  | flush (s : Store) (b : BlockId) : Step s (some (.flush b)) (s.flush b)
  | crash (s : Store) : Step s (some .crash) s.crash

end Store

end OsSessional.Storage
