import Libcando.Log
import Libcando.Tiling
import Mathlib.Tactic.SplitIfs

namespace Libcando.Jpool

def threadsMax : ℕ := 1 <<< 9
def udoPageSize : ℕ := 1 <<< 12
def jobQueueMemberSize : ℕ := 4 * 4
def sizeofJob : ℕ := 16
def wordMax : ℕ := 2 ^ 32

structure JpoolCreateInfo where
  size : ℕ
  count : ℕ
  size_lt : size < sizeMax

def pJpoolCreateCheck : Option JpoolCreateInfo → Option JpoolCreateInfo
  | none => none
  | some info => if info.size = 0 ∨ info.count = 0 ∨ threadsMax ≤ info.count then none else some info

def udoByteAlign (bytes powerTwoAlign : ℕ) : ℕ :=
  (bytes + (powerTwoAlign - 1)) % sizeMax / powerTwoAlign * powerTwoAlign

namespace JpoolCreateInfo

structure Accepted (info : JpoolCreateInfo) : Prop where
  size_pos : 0 < info.size
  count_pos : 0 < info.count
  count_lt : info.count < 512

variable (info : JpoolCreateInfo)

def dataOff : ℕ := (4 + jobQueueMemberSize * info.count) % wordMax

/-- What `udo_futex_create` is asked to map, which refuses a size of 0: then there is no pool. The
pool itself keeps only 32 bits of the size. -/
def futexSize : ℕ := udoByteAlign ((info.dataOff + info.size * info.count) % sizeMax) udoPageSize

def poolSz : ℕ := info.futexSize % wordMax

def queueSz : ℕ := (info.poolSz + wordMax - info.dataOff) % wordMax / info.count

def queueData : ℕ → ℕ
  | 0 => info.dataOff
  | t + 1 => (queueData t + info.queueSz) % wordMax

theorem queueSz_lt : info.queueSz < wordMax :=
  Nat.lt_of_le_of_lt (Nat.div_le_self _ _) (Nat.mod_lt _ (Nat.two_pow_pos 32))

variable {info}

theorem check_accepted {i : Option JpoolCreateInfo} (h : pJpoolCreateCheck i = some info) :
    i = some info ∧ info.Accepted := by
  cases i with
  | none => cases h
  | some j =>
    simp only [pJpoolCreateCheck] at h
    split_ifs at h with hbad
    cases h
    simp only [threadsMax] at hbad
    exact ⟨rfl, by omega, by omega, by omega⟩

theorem dataOff_eq (h : info.Accepted) : info.dataOff = 4 + 16 * info.count := by
  have := h.count_lt
  simp only [dataOff, jobQueueMemberSize, wordMax]
  omega

theorem queueData_add_lt (h : info.Accepted) {t : ℕ} (ht : t < info.count) :
    info.dataOff + t * info.queueSz < wordMax := by
  have hoff := dataOff_eq h
  have hlt := h.count_lt
  have hpool : info.poolSz < wordMax := Nat.mod_lt _ (by decide)
  have hpage : info.poolSz % 4096 = 0 := by
    have hdvd : 4096 ∣ info.futexSize := Nat.dvd_mul_left 4096 _
    rw [poolSz, show wordMax = 4096 * 1048576 from rfl, Nat.mod_mul_right_mod]
    exact Nat.mod_eq_zero_of_dvd hdvd
  obtain ⟨x, hx⟩ : ∃ x, (info.poolSz + wordMax - info.dataOff) % wordMax = x := ⟨_, rfl⟩
  have hsz : info.count * info.queueSz ≤ x := by
    rw [queueSz, hx]; exact Nat.mul_div_le x _
  have hle : t * info.queueSz + info.queueSz ≤ x := by
    have := Nat.mul_le_mul_right info.queueSz (show t + 1 ≤ info.count from ht)
    rw [Nat.add_mul, Nat.one_mul] at this
    omega
  have hbig : x / 512 ≤ info.queueSz := by
    rw [queueSz, hx]; exact Nat.div_le_div_left (by omega) h.count_pos
  rw [show wordMax = 4294967296 from rfl] at hx hpool ⊢
  omega

theorem queueData_eq (h : info.Accepted) {t : ℕ} (ht : t < info.count) :
    info.queueData t = info.dataOff + t * info.queueSz := by
  induction t with
  | zero => simp [queueData]
  | succ t ih =>
    have hlt := queueData_add_lt h ht
    rw [Nat.add_mul, Nat.one_mul, ← Nat.add_assoc] at hlt
    rw [queueData, ih (by omega), Nat.mod_eq_of_lt hlt, Nat.add_mul, Nat.one_mul, Nat.add_assoc]

theorem queueData_apart (h : info.Accepted) {t u : ℕ} (ht : t < info.count) (hu : u < info.count)
    (hne : t ≠ u) : info.queueData t + info.queueSz ≤ info.queueData u ∨
      info.queueData u + info.queueSz ≤ info.queueData t := by
  rw [queueData_eq h ht, queueData_eq h hu]
  exact Tiling.equal_apart hne

end JpoolCreateInfo

end Libcando.Jpool
