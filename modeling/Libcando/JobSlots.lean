import Libcando.JobPool

namespace Libcando.Jpool

open ByteMemory

abbrev Slot := UInt64 × UInt64

def queueSlots (cap data : ℕ) (m : Mem) (j : ℕ) : Slot :=
  if 16 * j + 16 ≤ cap then (loadWord m (data + 16 * j), loadWord m (data + 16 * j + 8)) else (0, 0)

theorem loadWord_storeWord (m : Mem) (a : ℕ) (v : UInt64) : loadWord (storeWord m a v) a = v := by
  rw [loadWord, storeWord, load_store_of_lt v.toNat_lt, UInt64.ofNat_toNat]

theorem loadWord_storeWord_disjoint {m : Mem} {a b : ℕ} {v : UInt64} (h : b + 8 ≤ a ∨ a + 8 ≤ b) :
    loadWord (storeWord m a v) b = loadWord m b := by
  rw [loadWord, storeWord, load_store_disjoint h, loadWord]

variable {cap data : ℕ} {m : Mem} {v : UInt64}

theorem queueSlots_storeWord_outside {a : ℕ} (h : a + 8 ≤ data ∨ data + cap ≤ a) :
    queueSlots cap data (storeWord m a v) = queueSlots cap data m := by
  funext j
  unfold queueSlots
  split_ifs with hj
  · rw [loadWord_storeWord_disjoint (by omega), loadWord_storeWord_disjoint (by omega)]
  · rfl

theorem queueSlots_storeWord_func {off : ℕ} (hoff : off % 16 = 0) (hcap : off + 16 ≤ cap) :
    queueSlots cap data (storeWord m (data + off) v) =
      Function.update (queueSlots cap data m) (off / 16) (v, (queueSlots cap data m (off / 16)).2) := by
  funext j
  by_cases hj : j = off / 16
  · obtain rfl : off = 16 * j := by omega
    rw [← hj, Function.update_self, queueSlots, queueSlots, if_pos hcap, if_pos hcap, loadWord_storeWord,
      loadWord_storeWord_disjoint (by omega)]
  · rw [Function.update_of_ne hj]
    unfold queueSlots
    rw [loadWord_storeWord_disjoint (by omega), loadWord_storeWord_disjoint (by omega)]

theorem queueSlots_storeWord_arg {off : ℕ} (hoff : off % 16 = 0) (hcap : off + 16 ≤ cap) :
    queueSlots cap data (storeWord m (data + off + 8) v) =
      Function.update (queueSlots cap data m) (off / 16) ((queueSlots cap data m (off / 16)).1, v) := by
  funext j
  by_cases hj : j = off / 16
  · obtain rfl : off = 16 * j := by omega
    rw [← hj, Function.update_self, queueSlots, queueSlots, if_pos hcap, if_pos hcap, loadWord_storeWord,
      loadWord_storeWord_disjoint (by omega)]
  · rw [Function.update_of_ne hj]
    unfold queueSlots
    rw [loadWord_storeWord_disjoint (by omega), loadWord_storeWord_disjoint (by omega)]

theorem loadWord_func {off : ℕ} (hoff : off % 16 = 0) (hcap : off + 16 ≤ cap) :
    loadWord m (data + off) = (queueSlots cap data m (off / 16)).1 := by
  rw [queueSlots, show 16 * (off / 16) = off by omega, if_pos hcap]

theorem loadWord_arg {off : ℕ} (hoff : off % 16 = 0) (hcap : off + 16 ≤ cap) :
    loadWord m (data + off + 8) = (queueSlots cap data m (off / 16)).2 := by
  rw [queueSlots, show 16 * (off / 16) = off by omega, if_pos hcap]

end Libcando.Jpool
