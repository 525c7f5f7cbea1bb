import Mathlib.Data.List.Basic
import Mathlib.Data.Nat.Notation
import Mathlib.Tactic.SplitIfs

namespace CStrings

def cString (l : List UInt8) : List UInt8 := l.takeWhile (· ≠ 0)

def strnlen (s : List UInt8) (n : ℕ) : ℕ := (cString (s.take n)).length

/-- Nothing is returned where no zero byte is found in the array, which is then read past its end. -/
def strlen (s : List UInt8) : Option ℕ := if 0 ∈ s then some (cString s).length else none

def upTo (c : UInt8) : List UInt8 → List UInt8
  | [] => []
  | b :: l => if b = c then [b] else b :: upTo c l

def overwrite (dest bytes : List UInt8) : List UInt8 := bytes ++ dest.drop bytes.length

def memccpy (dest src : List UInt8) (c : UInt8) (n : ℕ) : List UInt8 := overwrite dest (upTo c (src.take n))

/-- The bytes that are left after the string are set to zero. There is no zero byte where the string fills them all. -/
def strncpy (dest src : List UInt8) (n : ℕ) : List UInt8 :=
  overwrite dest ((cString src).take n ++ List.replicate (n - (cString src).length) 0)

def vsnprintf (dest : List UInt8) (n : ℕ) (message : List UInt8) : List UInt8 :=
  match n with
  | 0 => dest
  | n + 1 => overwrite dest (message.take n ++ [0])

variable {s t dest : List UInt8} {c : UInt8} {i n : ℕ}

theorem cString_append (hs : 0 ∉ s) (t : List UInt8) : cString (s ++ t) = s ++ cString t := by
  rw [cString, List.takeWhile_append_of_pos]
  · rfl
  · intro b hb
    have hne : b ≠ 0 := fun h => hs (h ▸ hb)
    simpa using hne

theorem cString_append_zero (hs : 0 ∉ s) : cString (s ++ 0 :: t) = s := by
  rw [cString_append hs]
  simp [cString]

theorem cString_cons (hb : c ≠ 0) : cString (c :: s) = c :: cString s := by
  simp [cString, hb]

theorem zero_notMem_cString (s : List UInt8) : 0 ∉ cString s := by
  intro h
  simpa using List.all_eq_true.mp List.all_takeWhile 0 h

theorem cString_eq_self (hs : 0 ∉ s) : cString s = s := by
  simpa [cString] using cString_append hs []

theorem cString_isPrefix (s : List UInt8) : cString s <+: s := List.takeWhile_prefix _

theorem length_cString_lt (h : 0 ∈ s) : (cString s).length < s.length := by
  apply Nat.lt_of_le_of_ne (cString_isPrefix s).length_le
  intro heq
  rw [← (cString_isPrefix s).eq_of_length heq] at h
  exact zero_notMem_cString s h

theorem cString_take (s : List UInt8) (n : ℕ) : cString (s.take n) = (cString s).take n := by
  rw [cString, cString, List.take_takeWhile]

theorem cString_terminated (s t : List UInt8) : cString (s ++ 0 :: t) = cString s := by
  induction s with
  | nil => simp [cString]
  | cons b s ih =>
    by_cases hb : b = 0
    · simp [cString, hb]
    · rw [List.cons_append, cString_cons hb, cString_cons hb, ih]

theorem cString_set (hi : i < (cString s).length) : cString (s.set i 0) = s.take i := by
  induction s generalizing i with
  | nil => simp [cString] at hi
  | cons b s ih =>
    by_cases hb : b = 0
    · subst hb
      simp [cString] at hi
    rw [cString_cons hb, List.length_cons] at hi
    cases i with
    | zero => simp [cString]
    | succ i => rw [List.set_cons_succ, cString_cons hb, ih (by omega), List.take_succ_cons]

theorem strnlen_append (hs : 0 ∉ s) (hn : s.length < n) : strnlen (s ++ 0 :: t) n = s.length := by
  obtain ⟨k, rfl⟩ : ∃ k, n = s.length + (k + 1) := ⟨n - s.length - 1, by omega⟩
  rw [strnlen, List.take_length_add_append, List.take_succ_cons, cString_append_zero hs]

theorem strnlen_le (s : List UInt8) (n : ℕ) : strnlen s n ≤ (cString s).length := by
  rw [strnlen, cString_take]
  exact List.length_take_le' _ _

theorem upTo_append (hc : c ∉ s) : upTo c (s ++ t) = s ++ upTo c t := by
  induction s with
  | nil => rfl
  | cons b s ih =>
    rw [List.mem_cons, not_or] at hc
    rw [List.cons_append, upTo, if_neg (Ne.symm hc.1), ih hc.2, List.cons_append]

theorem length_overwrite (h : t.length ≤ dest.length) : (overwrite dest t).length = dest.length := by
  rw [overwrite, List.length_append, List.length_drop]
  omega

theorem length_strncpy_bytes (s : List UInt8) (n : ℕ) :
    ((cString s).take n ++ List.replicate (n - (cString s).length) 0).length = n := by
  rw [List.length_append, List.length_take, List.length_replicate]
  omega

theorem length_strncpy (h : n ≤ dest.length) : (strncpy dest s n).length = dest.length := by
  rw [strncpy, length_overwrite]
  rwa [length_strncpy_bytes]

theorem length_vsnprintf (h : n ≤ dest.length) : (vsnprintf dest n s).length = dest.length := by
  cases n with
  | zero => rfl
  | succ n =>
    apply length_overwrite
    rw [List.length_append, List.length_take, List.length_singleton]
    omega

theorem cString_vsnprintf (dest : List UInt8) (n : ℕ) (s : List UInt8) :
    cString (vsnprintf dest (n + 1) s) = (cString s).take n := by
  rw [vsnprintf, overwrite, List.append_assoc, List.singleton_append, cString_terminated, cString_take]

theorem zero_mem_vsnprintf (dest : List UInt8) (n : ℕ) (s : List UInt8) : 0 ∈ vsnprintf dest (n + 1) s := by
  simp [vsnprintf, overwrite]

theorem strncpy_whole (h : dest.length = n) :
    strncpy dest s n = (cString s).take n ++ List.replicate (n - (cString s).length) 0 := by
  rw [strncpy, overwrite, length_strncpy_bytes, List.drop_of_length_le (Nat.le_of_eq h), List.append_nil]

end CStrings
