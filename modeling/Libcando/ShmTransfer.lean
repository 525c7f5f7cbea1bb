import Libcando.ByteMemory
import Libcando.Futex
import Libcando.ShmLayout

namespace Libcando.Shm

open ByteMemory Futex

inductive Dir
  | read
  | write
  deriving DecidableEq

/-- `null`: the argument or its data pointer is NULL. -/
structure ShmDataInfo where
  null : Bool := false
  size : ℕ
  procIndex : ℕ
  deriving DecidableEq

inductive TransferPc
  | check
  | lock (pc : LockPc)
  | errnoCheck
  | copy (s : ℕ)
  | clear (s : ℕ)
  | unlock (pc : WakePc)
  | done (ret : ℤ)
  deriving DecidableEq

/-- A call of `udo_shm_data_read` or `udo_shm_data_write`; `took` is history: the call's
compare-exchange has taken its own futex. -/
structure Transfer where
  dir : Dir
  info : ShmDataInfo
  pc : TransferPc
  buf : Mem
  errno : Errno
  took : Bool := false

namespace Transfer

def ownFux (x : Transfer) (procs : ℕ → ShmProc) : ℕ :=
  match x.dir with
  | .read => (procs x.info.procIndex).rdFux
  | .write => (procs x.info.procIndex).wrFux

def otherFux (x : Transfer) (procs : ℕ → ShmProc) : ℕ :=
  match x.dir with
  | .read => (procs x.info.procIndex).wrFux
  | .write => (procs x.info.procIndex).rdFux

def data (x : Transfer) (procs : ℕ → ShmProc) : ℕ := (procs x.info.procIndex).data

end Transfer

def pCheckProcIndex (m : Mem) (procIndex : ℕ) : Bool := procIndex > load m 0 4

/-- `__atomic_clear` on an `int` clears its first byte. -/
def atomicClear (m : Mem) (a : ℕ) : Mem := store m a 1 0

def readWord (data s : ℕ) (buf m : Mem) : Mem := store buf s 4 (load m (data + s) 4)

def writeWord (data s : ℕ) (buf m : Mem) : Mem := store m (data + s) 4 (load buf s 4)

theorem readWord_at (data : ℕ) {s i : ℕ} (buf m : Mem) (hs : s ≤ i) (hi : i < s + 4) :
    readWord data s buf m i = m (data + i) := by
  have hword := store_load m buf (data + s) s 4 (i - s) (by omega)
  rwa [Nat.add_sub_cancel' hs, Nat.add_assoc, Nat.add_sub_cancel' hs] at hword

theorem writeWord_at (data : ℕ) {s i : ℕ} (buf m : Mem) (hs : s ≤ i) (hi : i < s + 4) :
    writeWord data s buf m (data + i) = buf i := by
  have hword := store_load buf m s (data + s) 4 (i - s) (by omega)
  rwa [Nat.add_assoc, Nat.add_sub_cancel' hs] at hword

def udoShmDataRead (info : ShmDataInfo) (buf : Mem) (errno : Errno) : Transfer :=
  { dir := .read, info, pc := .check, buf, errno }

def udoShmDataWrite (info : ShmDataInfo) (buf : Mem) (errno : Errno) : Transfer :=
  { dir := .write, info, pc := .check, buf, errno }

def Transfer.step (turn : Turn) (procs : ℕ → ShmProc) (x : Transfer) (m : Mem) :
    Option (Transfer × Mem) :=
  match x.pc with
  | .check =>
    if x.info.null || pCheckProcIndex m x.info.procIndex then some ({ x with pc := .done (-1) }, m)
    else some ({ x with pc := .lock .entry }, m)
  | .lock pc =>
    (udoFutexLock turn pc (load m (x.ownFux procs) 4) x.errno).map fun
      | (.running pc, word, errno) => ({ x with pc := .lock pc, errno }, store m (x.ownFux procs) 4 word)
      | (.acquired, word, errno) =>
        ({ x with pc := .errnoCheck, errno, took := true }, store m (x.ownFux procs) 4 word)
      | (.interrupted, word, errno) =>
        ({ x with pc := .errnoCheck, errno }, store m (x.ownFux procs) 4 word)
  | .errnoCheck =>
    -- the lock returns no value: a leftover EINTR counts as a forced unlock
    if x.errno = eintr then some ({ x with pc := .done (-x.errno) }, m)
    else some ({ x with pc := .copy 0 }, m)
  | .copy s =>
    if s < x.info.size then
      match x.dir with
      | .read => some ({ x with pc := .clear s, buf := readWord (x.data procs) s x.buf m }, m)
      | .write => some ({ x with pc := .copy (s + 4) }, writeWord (x.data procs) s x.buf m)
    else some ({ x with pc := .unlock udoFutexUnlock }, m)
  | .clear s => some ({ x with pc := .copy (s + 4) }, atomicClear m (x.data procs + s))
  | .unlock (.store value) =>
    some ({ x with pc := .unlock .wake }, store m (x.otherFux procs) 4 value)
  | .unlock .wake => some ({ x with pc := .done 0 }, m)
  | .done _ => none

inductive Transfer.Step (procs : ℕ → ShmProc) (x : Transfer) (m : Mem) : Transfer → Mem → Prop
  | reject (h : x.pc = .check) :
    Step procs x m { x with pc := .done (-1) } m
  | accept (h : x.pc = .check) : Step procs x m { x with pc := .lock .entry } m
  | acquire (pc : LockPc) (h : x.pc = .lock pc) (hw : load m (x.ownFux procs) 4 = futexUnlock) :
    Step procs x m { x with pc := .errnoCheck, took := true } (store m (x.ownFux procs) 4 futexLock)
  | interrupt (pc : LockPc) (h : x.pc = .lock pc) (hw : load m (x.ownFux procs) 4 = futexUnlockForce) :
    Step procs x m { x with pc := .errnoCheck, errno := eintr } m
  | spin (pc pc' : LockPc) (errno : Errno) (h : x.pc = .lock pc) :
    Step procs x m { x with pc := .lock pc', errno } m
  | fail (h : x.pc = .errnoCheck) (he : x.errno = eintr) :
    Step procs x m { x with pc := .done (-x.errno) } m
  | enter (h : x.pc = .errnoCheck) (he : x.errno ≠ eintr) : Step procs x m { x with pc := .copy 0 } m
  | read (s : ℕ) (h : x.pc = .copy s) (hd : x.dir = .read) (hs : s < x.info.size) :
    Step procs x m { x with pc := .clear s, buf := readWord (x.data procs) s x.buf m } m
  | write (s : ℕ) (h : x.pc = .copy s) (hd : x.dir = .write) (hs : s < x.info.size) :
    Step procs x m { x with pc := .copy (s + 4) } (writeWord (x.data procs) s x.buf m)
  | finish (s : ℕ) (h : x.pc = .copy s) (hs : x.info.size ≤ s) :
    Step procs x m { x with pc := .unlock udoFutexUnlock } m
  | clear (s : ℕ) (h : x.pc = .clear s) :
    Step procs x m { x with pc := .copy (s + 4) } (atomicClear m (x.data procs + s))
  | release (value : ℕ) (h : x.pc = .unlock (.store value)) :
    Step procs x m { x with pc := .unlock .wake } (store m (x.otherFux procs) 4 value)
  | wake (h : x.pc = .unlock .wake) : Step procs x m { x with pc := .done 0 } m

theorem Transfer.step_cases {turn : Turn} {procs : ℕ → ShmProc} {x x' : Transfer} {m m' : Mem}
    (h : x.step turn procs m = some (x', m')) : x.Step procs m x' m' := by
  unfold Transfer.step at h
  split at h
  · rename_i hpc
    split_ifs at h
    · cases h; exact .reject hpc
    · cases h; exact .accept hpc
  · rename_i pc hpc
    obtain ⟨⟨out, word, errno⟩, hout, hr⟩ := Option.map_eq_some_iff.mp h
    rcases udoFutexLock_cases hout with ⟨rfl, hw, rfl, rfl⟩ | ⟨rfl, hw, rfl, rfl⟩ | ⟨⟨pc', rfl⟩, rfl⟩
    · cases hr; exact .acquire pc hpc hw
    · cases hr; rw [store_load_self]; exact .interrupt pc hpc hw
    · cases hr; rw [store_load_self]; exact .spin pc pc' errno hpc
  · rename_i hpc
    split_ifs at h with he
    · cases h; exact .fail hpc he
    · cases h; exact .enter hpc he
  · rename_i s hpc
    split_ifs at h with hs
    · split at h
      · cases h; exact .read s hpc ‹_› hs
      · cases h; exact .write s hpc ‹_› hs
    · cases h; exact .finish s hpc (by omega)
  · cases h; exact .clear _ ‹_›
  · cases h; exact .release _ ‹_›
  · cases h; exact .wake ‹_›
  · cases h

end Libcando.Shm
