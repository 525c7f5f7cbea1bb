import Mathlib.Data.List.Basic
import Mathlib.Data.Nat.Notation
import Mathlib.Order.Lattice

def Dealt {α : Type*} (n t : ℕ) (xs ys : List α) : Prop := ∀ k, ys[k]? = xs[k * n + t]?

namespace Dealt

variable {α : Type*} {n t u : ℕ} {xs ys zs : List α}

theorem nil (n t : ℕ) : Dealt n t ([] : List α) [] := fun _ => rfl

theorem lt_iff (h : Dealt n t xs ys) (k : ℕ) : k < ys.length ↔ k * n + t < xs.length := by
  have hk : ys[k]? = none ↔ xs[k * n + t]? = none := by rw [h k]
  rw [List.getElem?_eq_none_iff, List.getElem?_eq_none_iff] at hk
  omega

theorem length_eq (hn : 0 < n) (h : Dealt n t xs ys) (ht : xs.length % n = t) : ys.length = xs.length / n := by
  have hdiv := Nat.div_add_mod' xs.length n
  rw [ht] at hdiv
  apply eq_of_forall_lt_iff
  intro k
  have hmul : k * n < xs.length / n * n ↔ k < xs.length / n := Nat.mul_lt_mul_right hn
  rw [h.lt_iff k]
  omega

theorem deal (hn : 0 < n) (h : Dealt n t xs ys) (ht : xs.length % n = t) (x : α) :
    Dealt n t (xs ++ [x]) (ys ++ [x]) := by
  have hdiv := Nat.div_add_mod' xs.length n
  rw [ht, ← h.length_eq hn ht] at hdiv
  intro k
  rcases Nat.lt_trichotomy k ys.length with hk | rfl | hk
  · rw [List.getElem?_append_left hk, List.getElem?_append_left ((h.lt_iff k).mp hk), h k]
  · rw [hdiv, List.getElem?_concat_length, List.getElem?_concat_length]
  · have hlt := (Nat.mul_lt_mul_right hn).mpr hk
    rw [List.getElem?_eq_none (by simp; omega), List.getElem?_eq_none (by simp; omega)]

theorem pass (h : Dealt n t xs ys) (ht : t < n) (hne : xs.length % n ≠ t) (x : α) : Dealt n t (xs ++ [x]) ys := by
  intro k
  have hk : k * n + t ≠ xs.length := by
    intro he
    rw [← he, Nat.mul_comm, Nat.mul_add_mod, Nat.mod_eq_of_lt ht] at hne
    exact hne rfl
  rw [h k]
  rcases Nat.lt_or_gt_of_ne hk with hlt | hgt
  · rw [List.getElem?_append_left hlt]
  · rw [List.getElem?_eq_none (by omega), List.getElem?_eq_none (by simp; omega)]

theorem balanced (h : Dealt n t xs ys) (h' : Dealt n u xs zs) (hu : u < n) : ys.length ≤ zs.length + 1 := by
  by_contra hlt
  have hmore := (h.lt_iff (zs.length + 1)).mp (by omega)
  have hless := (not_congr (h'.lt_iff zs.length)).mp (Nat.lt_irrefl _)
  rw [Nat.succ_mul] at hmore
  omega

end Dealt
