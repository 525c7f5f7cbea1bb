import Libcando.ShmLayout
import Libcando.Tiling

namespace Libcando.Shm

open Tiling

def sizeofInt : ℕ := 4

namespace ShmProc

def futexes (proc : ShmProc) : List Block := [⟨proc.rdFux, 4⟩, ⟨proc.wrFux, 4⟩]

def region (proc : ShmProc) : Block := ⟨proc.data, proc.dataSz⟩

def parts (proc : ShmProc) : List Block := proc.region :: proc.futexes

end ShmProc

namespace ShmCreateInfo

def regions (info : ShmCreateInfo) : List Block :=
  [⟨0, 4⟩] ++ (List.range info.procCount).flatMap (fun p => (info.procs p).futexes) ++
    (List.range info.procCount).map fun p => (info.procs p).region

structure SegmentsPlaced (info : ShmCreateInfo) : Prop where
  apart : info.regions.Pairwise Block.Apart
  inside : ∀ r ∈ info.regions, r.stop ≤ info.shmSize
  aligned : ∀ p < info.procCount, sizeofInt ∣ (info.procs p).data

variable {info : ShmCreateInfo}

theorem futexes_laid (h : info.Accepted) {p : ℕ} (hp : p < info.procCount) :
    Laid (4 + 8 * p) (info.procs p).futexes (4 + 8 * (p + 1)) := by
  have hoff := fuxOff_eq h (Nat.le_of_lt hp)
  constructor
  · omega
  · simp [ShmProc.futexes, procs, Block.Apart, Block.stop]
  · simp only [ShmProc.futexes, procs, Block.stop, hoff]
    simp
    omega

theorem region_eq (h : info.Accepted) {p : ℕ} (hp : p < info.procCount) :
    (info.procs p).region = ⟨info.dataOff + p * info.procDataSz, info.procDataSz⟩ := by
  rw [ShmProc.region, procs, dataOff_eq h hp]

theorem regions_laid (h : info.Accepted) :
    Laid 0 info.regions (info.dataOff + info.procCount * info.procDataSz) := by
  have hcount : Laid 0 [⟨0, 4⟩] (4 + 8 * 0) := laid_single ⟨0, 4⟩
  have hfutexes := laid_flatMap fun p => futexes_laid h (p := p)
  have hdata : ((List.range info.procCount).map fun p => (info.procs p).region) =
      (List.range info.procCount).map fun p => ⟨info.dataOff + p * info.procDataSz, info.procDataSz⟩ := by
    apply List.map_congr_left
    intro p hp
    exact region_eq h (List.mem_range.mp hp)
  rw [regions, hdata]
  exact (hcount.append hfutexes).append (laid_equal _ _ _)

theorem segments_apart (h : info.Accepted) {p q : ℕ} (hp : p < info.procCount) (hq : q < info.procCount)
    (hne : p ≠ q) : (info.procs p).region.Apart (info.procs q).region := by
  rw [region_eq h hp, region_eq h hq]
  exact equal_apart hne

theorem has_parts (h : info.Accepted) {p a : ℕ} (hp : p < info.procCount) : (∃ r ∈ (info.procs p).parts, r.Has a) ↔
    (info.procs p).region.Has a ∨ 4 + 8 * p ≤ a ∧ a < 12 + 8 * p := by
  have hoff := fuxOff_eq h (Nat.le_of_lt hp)
  simp only [ShmProc.parts, ShmProc.futexes, List.mem_cons, List.not_mem_nil, or_false, exists_eq_or_imp,
    exists_eq_left]
  apply or_congr_right
  simp only [Block.Has, Block.stop, procs, hoff]
  omega

theorem region_behind (h : info.Accepted) {p a : ℕ} (hp : p < info.procCount) (ha : (info.procs p).region.Has a) :
    4 + 8 * info.procCount ≤ a :=
  Nat.le_trans (procs_placed h hp).2.2 ha.1

theorem parts_unique (h : info.Accepted) {p q a : ℕ} (hp : p < info.procCount) (hq : q < info.procCount)
    (ha : ∃ r ∈ (info.procs p).parts, r.Has a) (ha' : ∃ r ∈ (info.procs q).parts, r.Has a) : p = q := by
  rcases (has_parts h hp).mp ha with hregion | hfux
  · rcases (has_parts h hq).mp ha' with hregion' | hfux'
    · by_contra hne
      exact (segments_apart h hp hq hne).not_has hregion hregion'
    · have hbehind := region_behind h hp hregion
      omega
  · rcases (has_parts h hq).mp ha' with hregion' | hfux'
    · have hbehind := region_behind h hq hregion'
      omega
    · omega

theorem not_futex (h : info.Accepted) {p a : ℕ} (hp : p < info.procCount) (ha : (info.procs p).data ≤ a) :
    ¬∃ r ∈ (info.procs p).futexes, r.Has a := by
  have hplaced := procs_placed h hp
  simp only [ShmProc.futexes, List.mem_cons, List.not_mem_nil, or_false, exists_eq_or_imp, exists_eq_left, Block.Has,
    Block.stop]
  omega

theorem parts_behind (h : info.Accepted) {p a : ℕ} (hp : p < info.procCount)
    (ha : ∃ r ∈ (info.procs p).parts, r.Has a) : 4 ≤ a := by
  rcases (has_parts h hp).mp ha with hregion | hfux
  · have hbehind := region_behind h hp hregion
    omega
  · omega

theorem procDataSz_eq (h : info.dataOff ≤ info.shmSize) :
    info.procDataSz = (info.shmSize - info.dataOff) / info.procCount := by
  have hsize := info.shmSize_lt
  rw [procDataSz, unsigned_sub h (by omega)]

theorem segments_inside (h : info.dataOff ≤ info.shmSize) :
    info.dataOff + info.procCount * info.procDataSz ≤ info.shmSize := by
  have hmul := Nat.mul_div_le (info.shmSize - info.dataOff) info.procCount
  rw [procDataSz_eq h]
  omega

theorem aligned_iff (h : info.Accepted) : (∀ p < info.procCount, sizeofInt ∣ (info.procs p).data) ↔
    info.procCount = 1 ∨ info.procDataSz % 4 = 0 := by
  have hpos := h.count_pos
  have hdata {p : ℕ} (hp : p < info.procCount) :
      (info.procs p).data = 4 * (1 + 2 * info.procCount) + p * info.procDataSz := by
    simp only [procs, dataOff_eq h hp, dataOff]
    omega
  constructor
  · intro haligned
    rcases Nat.lt_or_ge 1 info.procCount with hlt | hle
    · right
      have hsecond := haligned 1 hlt
      rw [hdata hlt, Nat.one_mul, sizeofInt] at hsecond
      omega
    · left
      omega
  · rintro (hone | hsize) p hp
    · obtain rfl : p = 0 := by omega
      rw [hdata hp, Nat.zero_mul]
      exact Nat.dvd_mul_right _ _
    · rw [hdata hp]
      exact Nat.dvd_add (Nat.dvd_mul_right _ _) (Nat.dvd_mul_left_of_dvd (Nat.dvd_of_mod_eq_zero hsize) p)

theorem segments_placed (h : info.Accepted) (hheader : info.dataOff ≤ info.shmSize)
    (haligned : info.procCount = 1 ∨ info.procDataSz % 4 = 0) : info.SegmentsPlaced := by
  have hlaid := regions_laid h
  constructor
  · exact hlaid.apart
  · intro r hr
    exact Nat.le_trans (hlaid.bounds r hr).2 (segments_inside hheader)
  · exact (aligned_iff h).mpr haligned

theorem segments_placed_iff {i : Option ShmCreateInfo} (hi : pShmCreateCheck i = .ok info) :
    info.SegmentsPlaced ↔ 4 + 8 * info.procCount ≤ info.shmSize ∧
      (info.procCount = 1 ∨ (info.shmSize - (4 + 8 * info.procCount)) / info.procCount % 4 = 0) := by
  have h := (pShmCreateCheck_ok hi).2
  have hpos := h.count_pos
  have hoff : info.dataOff = 4 + 8 * info.procCount := by
    rw [dataOff]
  rw [← hoff]
  constructor
  · intro hplaced
    have hheader : info.dataOff ≤ info.shmSize := by
      have hlast := hplaced.inside ⟨(info.procs (info.procCount - 1)).wrFux, 4⟩ (by
        simp only [regions, List.mem_append, List.mem_flatMap, List.mem_range]
        exact .inl (.inr ⟨info.procCount - 1, by omega, by simp [ShmProc.futexes]⟩))
      simp only [Block.stop, (procs_placed h (show info.procCount - 1 < info.procCount by omega)).2.1] at hlast
      omega
    refine ⟨hheader, ?_⟩
    rw [← procDataSz_eq hheader]
    exact (aligned_iff h).mp hplaced.aligned
  · rintro ⟨hheader, haligned⟩
    rw [← procDataSz_eq hheader] at haligned
    exact segments_placed h hheader haligned

theorem segments_placed_even : (⟨[0x2F], 2068, 2, by decide⟩ : ShmCreateInfo).SegmentsPlaced :=
  (segments_placed_iff (i := some ⟨[0x2F], 2068, 2, by decide⟩) rfl).mpr (by decide)

theorem segment_misaligned : ¬ ∀ (i : Option ShmCreateInfo) (info : ShmCreateInfo),
    pShmCreateCheck i = .ok info → info.SegmentsPlaced := by
  intro aligned
  have hplaced := aligned (some ⟨[0x2F], 4096, 2, by decide⟩) _ rfl
  exact absurd (hplaced.aligned 1 (by decide)) (by decide)

end ShmCreateInfo

end Libcando.Shm
