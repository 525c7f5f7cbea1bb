import Libcando.JobPoolLayout

namespace Libcando.Jpool

open Tiling

structure JpoolQueue where
  jobFree : ℕ
  jobCount : ℕ
  front : ℕ
  rear : ℕ
  data : ℕ
  size : ℕ
  deriving DecidableEq

def offset : ℕ → ℕ
  | 0 => 4
  | t + 1 => (offset t + jobQueueMemberSize) % wordMax

def JpoolCreateInfo.queue (info : JpoolCreateInfo) (t : ℕ) : JpoolQueue :=
  ⟨offset t, offset t + 4, offset t + 2 * 4, offset t + 3 * 4, info.queueData t, info.queueSz⟩

namespace JpoolQueue

def words (q : JpoolQueue) : List Block := [⟨q.jobFree, 4⟩, ⟨q.jobCount, 4⟩, ⟨q.front, 4⟩, ⟨q.rear, 4⟩]

def region (q : JpoolQueue) : Block := ⟨q.data, q.size⟩

end JpoolQueue

namespace JpoolCreateInfo

def regions (info : JpoolCreateInfo) : List Block :=
  [⟨0, 4⟩] ++ (List.range info.count).flatMap (fun t => (info.queue t).words) ++
    (List.range info.count).map fun t => (info.queue t).region

structure Placed (info : JpoolCreateInfo) : Prop where
  apart : info.regions.Pairwise Block.Apart
  mapped : ∀ r ∈ info.regions, r.stop ≤ info.futexSize
  room : ∀ t < info.count, info.size ≤ (info.queue t).size
  unmapped : info.poolSz = info.futexSize

variable {info : JpoolCreateInfo}

theorem offset_eq (h : info.Accepted) {t : ℕ} (ht : t ≤ info.count) : offset t = 4 + 16 * t := by
  have hlt := h.count_lt
  induction t with
  | zero => rfl
  | succ t ih =>
    rw [offset, ih (by omega), jobQueueMemberSize, wordMax, Nat.mod_eq_of_lt (by omega)]
    omega

theorem words_laid (h : info.Accepted) {t : ℕ} (ht : t < info.count) :
    Laid (4 + 16 * t) (info.queue t).words (4 + 16 * (t + 1)) := by
  have hoff := offset_eq h (Nat.le_of_lt ht)
  constructor
  · omega
  · simp [JpoolQueue.words, queue, Block.Apart, Block.stop]
  · simp only [JpoolQueue.words, queue, Block.stop, hoff]
    simp
    omega

theorem region_eq (h : info.Accepted) {t : ℕ} (ht : t < info.count) :
    (info.queue t).region = ⟨info.dataOff + t * info.queueSz, info.queueSz⟩ := by
  rw [JpoolQueue.region, queue, queueData_eq h ht]

theorem regions_laid (h : info.Accepted) :
    Laid 0 info.regions (info.dataOff + info.count * info.queueSz) := by
  have hcur : Laid 0 [⟨0, 4⟩] (4 + 16 * 0) := laid_single ⟨0, 4⟩
  have hwords := laid_flatMap fun t => words_laid h (t := t)
  have hdata : ((List.range info.count).map fun t => (info.queue t).region) =
      (List.range info.count).map fun t => ⟨info.dataOff + t * info.queueSz, info.queueSz⟩ := by
    apply List.map_congr_left
    intro t ht
    exact region_eq h (List.mem_range.mp ht)
  rw [regions, hdata, dataOff_eq h]
  exact (hcur.append hwords).append (laid_equal _ _ _)

theorem count_mul_queueSz_le (info : JpoolCreateInfo) :
    info.count * info.queueSz ≤ (info.poolSz + wordMax - info.dataOff) % wordMax :=
  Nat.mul_div_le _ _

theorem data_mapped (h : info.dataOff ≤ info.futexSize) :
    info.dataOff + info.count * info.queueSz ≤ info.futexSize := by
  have hmul := info.count_mul_queueSz_le
  simp only [poolSz, wordMax] at hmul
  have hoff : info.dataOff < 2 ^ 32 := Nat.mod_lt _ (by decide)
  omega

theorem Accepted.unmapped_header (h : info.Accepted) (hlt : info.futexSize < info.dataOff) : 16 < info.queueSz := by
  have hoff := dataOff_eq h
  have hcount := h.count_lt
  rw [queueSz, Nat.lt_div_iff_mul_lt h.count_pos, poolSz]
  simp only [wordMax]
  omega

theorem futexSize_eq (h : info.Accepted) (hlt : 4 + 16 * info.count + info.size * info.count + 4095 < sizeMax) :
    info.futexSize = (4 + 16 * info.count + info.size * info.count + 4095) / 4096 * 4096 := by
  rw [futexSize, dataOff_eq h, Nat.mod_eq_of_lt (by omega), udoByteAlign]
  rw [show udoPageSize = 4096 from rfl, Nat.mod_eq_of_lt (by omega)]

theorem placed_iff {i : Option JpoolCreateInfo} (hi : pJpoolCreateCheck i = some info) :
    info.Placed ↔ 4 + 16 * info.count + info.size * info.count + 4095 < 2 ^ 32 := by
  have h := (check_accepted hi).2
  have hoff := dataOff_eq h
  have hcount := h.count_lt
  have hmul := info.count_mul_queueSz_le
  constructor
  · intro hp
    have hroom : info.size * info.count ≤ info.queueSz * info.count :=
      Nat.mul_le_mul_right _ (hp.room 0 h.count_pos)
    rw [Nat.mul_comm info.queueSz] at hroom
    have hpool : info.poolSz < wordMax := Nat.mod_lt _ (by decide)
    have hbelow : (info.poolSz + wordMax - info.dataOff) % wordMax < wordMax := Nat.mod_lt _ (by decide)
    have hsize := futexSize_eq h (by simp only [wordMax, sizeMax] at *; omega)
    rw [hp.unmapped, hsize] at hpool
    simp only [wordMax] at hpool
    omega
  · intro hsmall
    have hsize := futexSize_eq h (by simp only [sizeMax]; omega)
    have hpool : info.poolSz = info.futexSize := by
      rw [poolSz, Nat.mod_eq_of_lt]
      simp only [hsize, wordMax]
      omega
    have hbehind : (info.poolSz + wordMax - info.dataOff) % wordMax = info.futexSize - info.dataOff := by
      simp only [hpool, hoff, hsize, wordMax]
      omega
    rw [hbehind] at hmul
    have hlaid := regions_laid h
    constructor
    · exact hlaid.apart
    · intro r hr
      have := (hlaid.bounds r hr).2
      omega
    · intro t ht
      simp only [queue, queueSz, hbehind]
      rw [Nat.le_div_iff_mul_le h.count_pos]
      omega
    · exact hpool

theorem placed_three : (⟨64, 3, by decide⟩ : JpoolCreateInfo).Placed :=
  (placed_iff (i := some ⟨64, 3, by decide⟩) rfl).mpr (by decide)

/-- A queue of 4 GiB: the pool keeps the lower half of the size, and later unmaps no more than that. -/
theorem not_placed : ¬ ∀ (i : Option JpoolCreateInfo) (info : JpoolCreateInfo),
    pJpoolCreateCheck i = some info → info.Placed := by
  intro placed
  have hplaced := placed (some ⟨2 ^ 32, 1, by decide⟩) _ rfl
  exact absurd hplaced.unmapped (by decide)

end JpoolCreateInfo

end Libcando.Jpool
