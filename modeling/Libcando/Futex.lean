import Mathlib.Data.Nat.Notation
import Mathlib.Tactic.SplitIfs

namespace Libcando.Futex

abbrev Errno := ℕ

@[simp] def eintr : Errno := 4
@[simp] def eagain : Errno := 11

@[simp] def futexLock : ℕ := 1
@[simp] def futexUnlock : ℕ := 0
@[simp] def futexUnlockForce : ℕ := 0x66AFB55C
def contentionLoopCnt : ℕ := 999999999

inductive Turn
  | plain
  | spurious
  | signal
  deriving DecidableEq

def pIsFutexFunlock (word : ℕ) : Bool := word == futexUnlockForce

@[simp] theorem pIsFutexFunlock_iff (word : ℕ) : pIsFutexFunlock word = true ↔ word = futexUnlockForce := by
  simp [pIsFutexFunlock]

inductive LockPc
  | spin (i : ℕ)
  | spinCheck (i : ℕ)
  | block
  | blockCheck
  | kernelWait
  | asleep
  deriving DecidableEq

inductive LockOut
  | running (pc : LockPc)
  | acquired
  | interrupted
  deriving DecidableEq

def udoFutexLock (turn : Turn) (pc : LockPc) (word : ℕ) (errno : Errno) :
    Option (LockOut × ℕ × Errno) :=
  match pc with
  | .spin i =>
    if word = futexUnlock ∧ turn ≠ .spurious then some (.acquired, futexLock, errno)
    else some (.running (.spinCheck i), word, errno)
  | .spinCheck i =>
    if pIsFutexFunlock word then some (.interrupted, word, eintr)
    else if i + 1 < contentionLoopCnt then some (.running (.spin (i + 1)), word, errno)
    else some (.running .block, word, errno)
  | .block =>
    if word = futexUnlock then some (.acquired, futexLock, errno)
    else some (.running .blockCheck, word, errno)
  | .blockCheck =>
    if pIsFutexFunlock word then some (.interrupted, word, eintr)
    else some (.running .kernelWait, word, errno)
  | .kernelWait =>
    -- FUTEX_WAIT compares the word with the locked value before it sleeps
    if word ≠ futexLock then some (.running .block, word, eagain)
    else match turn with
      | .plain => some (.running .asleep, word, errno)
      | .spurious => some (.running .block, word, errno)
      | .signal => some (.running .block, word, eintr)
  | .asleep =>
    match turn with
    | .plain => none
    | .spurious => some (.running .block, word, errno)
    | .signal => some (.running .block, word, eintr)

def LockPc.entry : LockPc := .spin 0

def LockPc.wakeUp : LockPc → LockPc
  | .asleep => .block
  | pc => pc

theorem udoFutexLock_cases {turn : Turn} {pc : LockPc} {word word' : ℕ} {errno errno' : Errno}
    {out : LockOut} (h : udoFutexLock turn pc word errno = some (out, word', errno')) :
    (out = .acquired ∧ word = futexUnlock ∧ word' = futexLock ∧ errno' = errno) ∨
      (out = .interrupted ∧ word = futexUnlockForce ∧ word' = word ∧ errno' = eintr) ∨
      (∃ pc', out = .running pc') ∧ word' = word := by
  cases pc with
  | spin i | block =>
    simp only [udoFutexLock] at h
    split_ifs at h with hw
    · cases h; exact .inl ⟨rfl, by simp_all, rfl, rfl⟩
    · cases h; exact .inr (.inr ⟨⟨_, rfl⟩, rfl⟩)
  | spinCheck i | blockCheck =>
    simp only [udoFutexLock] at h
    split_ifs at h with hw
    · cases h; exact .inr (.inl ⟨rfl, (pIsFutexFunlock_iff _).mp hw, rfl, rfl⟩)
    all_goals cases h; exact .inr (.inr ⟨⟨_, rfl⟩, rfl⟩)
  | kernelWait =>
    simp only [udoFutexLock] at h
    split_ifs at h with hw
    · cases h; exact .inr (.inr ⟨⟨_, rfl⟩, rfl⟩)
    · cases turn <;> cases h <;> exact .inr (.inr ⟨⟨_, rfl⟩, rfl⟩)
  | asleep => cases turn <;> cases h <;> exact .inr (.inr ⟨⟨_, rfl⟩, rfl⟩)

inductive WaitPc
  | spin (i : ℕ)
  | spinCheck (i : ℕ)
  | block
  | blockCheck (waitVal : ℕ)
  | kernelWait (waitVal : ℕ)
  | asleep (waitVal : ℕ)
  deriving DecidableEq

inductive WaitOut
  | running (pc : WaitPc)
  | met
  | interrupted
  deriving DecidableEq

def udoFutexWait (turn : Turn) (desired : ℕ) (pc : WaitPc) (word : ℕ) (errno : Errno) :
    Option (WaitOut × Errno) :=
  match pc with
  | .spin i => if word = desired then some (.met, errno) else some (.running (.spinCheck i), errno)
  | .spinCheck i =>
    if pIsFutexFunlock word then some (.interrupted, eintr)
    else if i + 1 < contentionLoopCnt then some (.running (.spin (i + 1)), errno)
    else some (.running .block, errno)
  | .block => if word = desired then some (.met, errno) else some (.running (.blockCheck word), errno)
  | .blockCheck waitVal =>
    if pIsFutexFunlock word then some (.interrupted, eintr)
    else some (.running (.kernelWait waitVal), errno)
  | .kernelWait waitVal =>
    if word ≠ waitVal then some (.running .block, eagain)
    else match turn with
      | .plain => some (.running (.asleep waitVal), errno)
      | .spurious => some (.running .block, errno)
      | .signal => some (.running .block, eintr)
  | .asleep _ =>
    match turn with
    | .plain => none
    | .spurious => some (.running .block, errno)
    | .signal => some (.running .block, eintr)

def WaitPc.Fresh (desired : ℕ) : WaitPc → Prop
  | .blockCheck waitVal | .kernelWait waitVal | .asleep waitVal => waitVal ≠ desired
  | .spin _ | .spinCheck _ | .block => True

def LockPc.takes (turn : Turn) (word : ℕ) : LockPc → Bool
  | .spin _ => word == futexUnlock && turn != .spurious
  | .block => word == futexUnlock
  | _ => false

theorem udoFutexLock_takes {turn : Turn} {pc : LockPc} {word word' : ℕ} {errno errno' : Errno}
    {out : LockOut} (h : udoFutexLock turn pc word errno = some (out, word', errno')) :
    pc.takes turn word = true ↔ word = futexUnlock ∧ word' = futexLock := by
  cases pc with
  | spin i | block =>
    simp only [udoFutexLock] at h
    split_ifs at h with hw
    · cases h; simp_all [LockPc.takes]
    · cases h; simp_all [LockPc.takes]
  | spinCheck i | blockCheck =>
    simp only [udoFutexLock] at h
    split_ifs at h <;> cases h <;> simp [LockPc.takes] <;> omega
  | kernelWait =>
    simp only [udoFutexLock] at h
    split_ifs at h with hw
    · cases h; simp [LockPc.takes]; omega
    · cases turn <;> cases h <;> simp [LockPc.takes] <;> omega
  | asleep => cases turn <;> cases h <;> simp [LockPc.takes] <;> omega

theorem udoFutexLock_asleep {turn : Turn} {pc : LockPc} {word word' : ℕ} {errno errno' : Errno}
    (h : udoFutexLock turn pc word errno = some (.running .asleep, word', errno')) :
    word = futexLock ∧ word' = word := by
  cases pc with
  | spin i | spinCheck i | block | blockCheck =>
    simp only [udoFutexLock] at h
    split_ifs at h <;> cases h
  | kernelWait =>
    simp only [udoFutexLock] at h
    split_ifs at h with hw
    · cases h
    · cases turn <;> cases h
      exact ⟨Decidable.not_not.mp hw, rfl⟩
  | asleep => cases turn <;> cases h

theorem udoFutexWait_fresh {turn : Turn} {desired word : ℕ} {pc pc' : WaitPc} {errno errno' : Errno}
    (hpc : pc.Fresh desired) (h : udoFutexWait turn desired pc word errno = some (.running pc', errno')) :
    pc'.Fresh desired ∧ ∀ waitVal, pc' = .asleep waitVal → word ≠ desired := by
  cases pc with
  | spin i | spinCheck i | blockCheck waitVal =>
    simp only [udoFutexWait] at h
    split_ifs at h <;> cases h <;> exact ⟨hpc, by simp⟩
  | block =>
    simp only [udoFutexWait] at h
    split_ifs at h with hw
    · cases h
    · cases h; exact ⟨hw, by simp⟩
  | kernelWait waitVal =>
    simp only [udoFutexWait] at h
    split_ifs at h with hw
    · cases h; exact ⟨trivial, by simp⟩
    · cases turn <;> cases h
      · exact ⟨hpc, fun _ _ => Decidable.not_not.mp hw ▸ hpc⟩
      all_goals exact ⟨trivial, by simp⟩
  | asleep waitVal => cases turn <;> cases h <;> exact ⟨trivial, by simp⟩

def WaitPc.entry : WaitPc := .spin 0

def WaitPc.wakeUp : WaitPc → WaitPc
  | .asleep _ => .block
  | pc => pc

inductive WakePc
  | store (value : ℕ)
  | wake
  deriving DecidableEq

def udoFutexUnlock : WakePc := .store futexUnlock
def udoFutexUnlockForce : WakePc := .store futexUnlockForce
def udoFutexWake (desired : ℕ) : WakePc := .store desired

end Libcando.Futex
