import Mathlib.Algebra.Ring.Nat

namespace Libcando

structure LogError where
  code : ℕ
  text : String
  deriving DecidableEq

def udoLogErrUncommon : ℕ := 0x1000
def udoLogErrIncorrectData : ℕ := 0x1001

def sizeMax : ℕ := 2 ^ 64

theorem unsigned_sub {a b n : ℕ} (h : b ≤ a) (ha : a - b < n) : (a + n - b) % n = a - b := by
  rw [Nat.sub_add_comm h, Nat.add_mod_right, Nat.mod_eq_of_lt ha]

end Libcando
