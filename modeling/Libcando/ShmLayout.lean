import Libcando.Log
import Mathlib.Data.Nat.Basic
import Mathlib.Tactic.SplitIfs

namespace Libcando.Shm

def shmProcMax : ℕ := 1 <<< 4
def shmFileNameMax : ℕ := 1 <<< 5

/-- `shmFile` holds the bytes of the name before its terminator. -/
structure ShmCreateInfo where
  shmFile : List UInt8
  shmSize : ℕ
  procCount : ℕ
  shmSize_lt : shmSize < sizeMax
  deriving DecidableEq

def ShmCreateInfo.fileName (info : ShmCreateInfo) : String :=
  String.ofList (info.shmFile.map fun b => Char.ofNat b.toNat)

def pShmCreateCheck : Option ShmCreateInfo → Except LogError ShmCreateInfo
  | none => .error ⟨udoLogErrIncorrectData, ""⟩
  | some info =>
    if info.procCount = 0 ∨ shmProcMax ≤ info.procCount then
      .error ⟨udoLogErrUncommon, s!"Unsupported process count ({info.procCount}:{shmProcMax})"⟩
    else if info.shmSize = 0 then
      .error ⟨udoLogErrUncommon, "Shared memory size must not be zero"⟩
    else if info.shmFile.head? ≠ some 0x2F then
      .error ⟨udoLogErrUncommon, s!"Shared memory file name '{info.fileName}' doesn't start with '/'"⟩
    else if shmFileNameMax ≤ info.shmFile.length then
      .error ⟨udoLogErrUncommon, s!"Shared memory '{info.fileName}' name length to long"⟩
    else .ok info

structure ShmCreateInfo.Accepted (info : ShmCreateInfo) : Prop where
  count_pos : 0 < info.procCount
  count_lt : info.procCount < 16
  size_pos : 0 < info.shmSize

theorem pShmCreateCheck_ok {i : Option ShmCreateInfo} {info : ShmCreateInfo}
    (h : pShmCreateCheck i = .ok info) : i = some info ∧ info.Accepted := by
  cases i with
  | none => cases h
  | some j =>
    simp only [pShmCreateCheck] at h
    split_ifs at h with hcount hsize hslash hlen
    cases h
    simp only [shmProcMax] at hcount
    exact ⟨rfl, by omega, by omega, by omega⟩

structure ShmProc where
  rdFux : ℕ
  wrFux : ℕ
  data : ℕ
  dataSz : ℕ
  deriving DecidableEq

namespace ShmCreateInfo

variable (info : ShmCreateInfo)

def dataOff : ℕ := 4 + 2 * 4 * info.procCount

/-- `size_t` arithmetic: a mapping smaller than its header wraps around. -/
def procDataSz : ℕ := (info.shmSize + sizeMax - info.dataOff) % sizeMax / info.procCount

def offsets : ℕ → ℕ × ℕ
  | 0 => (4, info.dataOff)
  | p + 1 => (((offsets p).1 + 2 * 4) % sizeMax, ((offsets p).2 + info.procDataSz) % sizeMax)

def procs (p : ℕ) : ShmProc :=
  ⟨(info.offsets p).1, (info.offsets p).1 + 4, (info.offsets p).2, info.procDataSz⟩

variable {info}

theorem fuxOff_eq (h : info.Accepted) {p : ℕ} (hp : p ≤ info.procCount) :
    (info.offsets p).1 = 4 + 8 * p := by
  have hc := h.count_lt
  induction p with
  | zero => rfl
  | succ p ih =>
    rw [offsets, ih (by omega), sizeMax, Nat.mod_eq_of_lt (by omega)]
    omega

theorem dataOff_add_lt (h : info.Accepted) {p : ℕ} (hp : p < info.procCount) :
    info.dataOff + p * info.procDataSz < sizeMax := by
  have hc := h.count_lt
  have hs := info.shmSize_lt
  obtain ⟨x, hx⟩ : ∃ x, (info.shmSize + sizeMax - info.dataOff) % sizeMax = x := ⟨_, rfl⟩
  have hsz : info.procCount * info.procDataSz ≤ x := by
    rw [procDataSz, hx]; exact Nat.mul_div_le x _
  have hle : p * info.procDataSz + info.procDataSz ≤ x := by
    have := Nat.mul_le_mul_right info.procDataSz (show p + 1 ≤ info.procCount from hp)
    rw [Nat.add_mul, Nat.one_mul] at this
    omega
  have hbig : x / 16 ≤ info.procDataSz := by
    rw [procDataSz, hx]; exact Nat.div_le_div_left (by omega) h.count_pos
  simp only [dataOff, sizeMax] at *
  omega

theorem dataOff_eq (h : info.Accepted) {p : ℕ} (hp : p < info.procCount) :
    (info.offsets p).2 = info.dataOff + p * info.procDataSz := by
  induction p with
  | zero => simp [offsets]
  | succ p ih =>
    have hlt := dataOff_add_lt h hp
    rw [Nat.add_mul, Nat.one_mul, ← Nat.add_assoc] at hlt
    rw [offsets, ih (by omega), Nat.mod_eq_of_lt hlt, Nat.add_mul, Nat.one_mul, Nat.add_assoc]

theorem procs_placed (h : info.Accepted) {p : ℕ} (hp : p < info.procCount) :
    (info.procs p).rdFux = 4 + 8 * p ∧ (info.procs p).wrFux = 8 + 8 * p ∧
      4 + 8 * info.procCount ≤ (info.procs p).data := by
  refine ⟨fuxOff_eq h (le_of_lt hp), ?_, ?_⟩
  · simp only [procs, fuxOff_eq h (le_of_lt hp)]; omega
  · simp only [procs, dataOff_eq h hp, dataOff]; omega

end ShmCreateInfo

end Libcando.Shm
