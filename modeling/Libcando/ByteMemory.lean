import Mathlib.Data.UInt
import Mathlib.Tactic.Ring

namespace ByteMemory

abbrev Mem := ℕ → UInt8

def load (m : Mem) (a : ℕ) : ℕ → ℕ
  | 0 => 0
  | n + 1 => (m a).toNat + 256 * load m (a + 1) n

def store (m : Mem) (a n v : ℕ) : Mem :=
  fun x => if a ≤ x ∧ x < a + n then UInt8.ofNat (v / 256 ^ (x - a)) else m x

def fill (m : Mem) (a : ℕ) (v : UInt8) (n : ℕ) : Mem := fun x => if a ≤ x ∧ x < a + n then v else m x

def move (m : Mem) (dst src n : ℕ) : Mem := fun x => if dst ≤ x ∧ x < dst + n then m (src + (x - dst)) else m x

theorem load_shift {m m' : Mem} {a b n : ℕ} (h : ∀ i < n, m (a + i) = m' (b + i)) : load m a n = load m' b n := by
  induction n generalizing a b with
  | zero => rfl
  | succ n ih =>
    have hrest : load m (a + 1) n = load m' (b + 1) n := by
      apply ih
      intro i hi
      rw [Nat.add_assoc, Nat.add_assoc, Nat.add_comm 1 i]
      exact h (i + 1) (Nat.succ_lt_succ hi)
    have hfirst := h 0 (Nat.succ_pos n)
    rw [Nat.add_zero, Nat.add_zero] at hfirst
    rw [load, load, hfirst, hrest]

theorem load_congr {m m' : Mem} {a n : ℕ} (h : ∀ x, a ≤ x → x < a + n → m x = m' x) :
    load m a n = load m' a n := by
  apply load_shift
  intro i hi
  exact h (a + i) (Nat.le_add_right a i) (Nat.add_lt_add_left hi a)

theorem store_outside {m : Mem} {a n v x : ℕ} (h : x < a ∨ a + n ≤ x) : store m a n v x = m x := by
  rw [store, if_neg (by omega)]

theorem load_lt (m : Mem) (a n : ℕ) : load m a n < 256 ^ n := by
  induction n generalizing a with
  | zero => exact Nat.one_pos
  | succ n ih =>
    have hbyte := (m a).toNat_lt
    have hrest := ih (a + 1)
    rw [load, pow_succ']
    omega

theorem load_store_disjoint {m : Mem} {a n v b k : ℕ} (h : b + k ≤ a ∨ a + n ≤ b) :
    load (store m a n v) b k = load m b k :=
  load_congr fun _ _ _ => store_outside (by omega)

theorem load_store (m : Mem) (a n v : ℕ) : load (store m a n v) a n = v % 256 ^ n := by
  induction n generalizing a v m with
  | zero => simp [load, Nat.mod_one]
  | succ n ih =>
    have htail : load (store m a (n + 1) v) (a + 1) n = load (store m (a + 1) n (v / 256)) (a + 1) n := by
      apply load_congr
      intro x hx hn
      have he : x - a = (x - (a + 1)) + 1 := by omega
      rw [store, store, if_pos (by omega), if_pos (by omega), he, pow_succ', ← Nat.div_div_eq_div_mul]
    rw [load, htail, ih, store, if_pos (by omega), Nat.sub_self, pow_zero, Nat.div_one, pow_succ',
      Nat.mod_mul, UInt8.toNat_ofNat']

theorem load_store_of_lt {m : Mem} {a n v : ℕ} (h : v < 256 ^ n) : load (store m a n v) a n = v := by
  rw [load_store, Nat.mod_eq_of_lt h]

theorem load_zero {m : Mem} {a n : ℕ} (h : ∀ x, a ≤ x → x < a + n → m x = 0) : load m a n = 0 := by
  induction n generalizing a with
  | zero => rfl
  | succ n ih =>
    rw [load, h a le_rfl (by omega), ih (fun x hx hn => h x (by omega) (by omega))]
    rfl

theorem load_le {m m' : Mem} {a n : ℕ} (h : ∀ x, a ≤ x → x < a + n → m x = m' x ∨ m x = 0) :
    load m a n ≤ load m' a n := by
  induction n generalizing a with
  | zero => exact Nat.le_refl _
  | succ n ih =>
    have hrest : load m (a + 1) n ≤ load m' (a + 1) n := by
      apply ih
      intro x hx hn
      exact h x (by omega) (by omega)
    have hfirst : (m a).toNat ≤ (m' a).toNat := by
      rcases h a le_rfl (by omega) with heq | hzero
      · rw [heq]
      · rw [hzero]
        exact Nat.zero_le _
    rw [load, load]
    omega

theorem load_eq_zero {m : Mem} {a n : ℕ} (h : load m a n = 0) {x : ℕ} (hx : a ≤ x) (hn : x < a + n) :
    m x = 0 := by
  induction n generalizing a with
  | zero => omega
  | succ n ih =>
    rw [load] at h
    by_cases hxa : x = a
    · subst hxa
      apply UInt8.toNat_inj.mp
      rw [UInt8.toNat_zero]
      omega
    · exact ih (a := a + 1) (by omega) (by omega) (by omega)

theorem load_small {m : Mem} {a n k : ℕ} (h : load m a n < 256 ^ k) {x : ℕ} (hx : a + k ≤ x)
    (hn : x < a + n) : m x = 0 := by
  induction k generalizing a n with
  | zero => exact load_eq_zero (show load m a n = 0 by omega) hx hn
  | succ k ih =>
    cases n with
    | zero => omega
    | succ n =>
      rw [load, pow_succ] at h
      exact ih (a := a + 1) (n := n) (by omega) (by omega) (by omega)

theorem store_load (m m' : Mem) (a b n i : ℕ) (h : i < n) :
    store m' b n (load m a n) (b + i) = m (a + i) := by
  have digit (n : ℕ) : ∀ a i, i < n → UInt8.ofNat (load m a n / 256 ^ i) = m (a + i) := by
    induction n with
    | zero => intro a i h; omega
    | succ n ih =>
      intro a i h
      have hb := (m a).toNat_lt
      cases i with
      | zero =>
        rw [pow_zero, Nat.div_one, load, ← UInt8.toNat_inj, UInt8.toNat_ofNat']
        simp only [Nat.add_zero]
        omega
      | succ i =>
        rw [load, pow_succ', ← Nat.div_div_eq_div_mul, Nat.add_mul_div_left _ _ (by omega),
          Nat.div_eq_of_lt hb, Nat.zero_add, ih (a + 1) i (by omega)]
        congr 1
        omega
  rw [store, if_pos (by omega), show b + i - b = i by omega]
  exact digit n a i h

theorem store_load_self (m : Mem) (a n : ℕ) : store m a n (load m a n) = m := by
  funext x
  by_cases hx : a ≤ x ∧ x < a + n
  · have h := store_load m m a a n (x - a) (by omega)
    rwa [Nat.add_sub_cancel' hx.1] at h
  · exact store_outside (by omega)

end ByteMemory
