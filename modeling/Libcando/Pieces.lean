import Mathlib.Data.List.Basic
import Mathlib.Data.Nat.Notation
import Mathlib.Tactic.SplitIfs

namespace Pieces

variable {α : Type*} (stop : α → Bool)

def pieces : List α → List (List α)
  | [] => []
  | a :: l => if stop a then [a] :: pieces l else ((a :: (pieces l).headD []) :: (pieces l).tail)

def start : ℕ → List α → ℕ
  | 0, _ => 0
  | _ + 1, [] => 0
  | k + 1, a :: l => (if stop a then start k l else start (k + 1) l) + 1

def starts : List α → List ℕ
  | [] => []
  | a :: l => 0 :: ((if stop a then starts l else (starts l).tail).map (· + 1))

def cut (l : List α) : List ℕ → List (List α)
  | [] => []
  | [i] => [l.drop i]
  | i :: j :: is => (l.drop i).take (j - i) :: cut l (j :: is)

variable {stop} {a : α} {l : List α} {k : ℕ}

@[simp] theorem start_zero (l : List α) : start stop 0 l = 0 := by
  cases l <;> rfl

theorem pieces_ne_nil : pieces stop (a :: l) ≠ [] := by
  rw [pieces]
  split_ifs <;> simp

theorem flatten_pieces (stop : α → Bool) (l : List α) : (pieces stop l).flatten = l := by
  induction l with
  | nil => rfl
  | cons a l ih =>
    rw [pieces]
    split_ifs with ha
    · rw [List.flatten_cons, ih, List.singleton_append]
    · cases hp : pieces stop l with
      | nil => simpa [hp] using ih
      | cons q qs => simpa [hp] using ih

theorem length_starts (stop : α → Bool) (l : List α) : (starts stop l).length = (pieces stop l).length := by
  induction l with
  | nil => rfl
  | cons a l ih =>
    simp only [starts, pieces]
    split_ifs <;> simp [ih]

theorem start_le (stop : α → Bool) (k : ℕ) (l : List α) : start stop k l ≤ l.length := by
  induction l generalizing k with
  | nil => cases k <;> simp [start]
  | cons a l ih =>
    cases k with
    | zero => simp
    | succ k =>
      simp only [start, List.length_cons]
      split_ifs
      · exact Nat.succ_le_succ (ih k)
      · exact Nat.succ_le_succ (ih (k + 1))

theorem start_lt_iff : start stop k l < l.length ↔ k < (pieces stop l).length := by
  induction l generalizing k with
  | nil => cases k <;> simp [start, pieces]
  | cons a l ih =>
    cases k with
    | zero => simp [List.length_pos_iff, pieces_ne_nil]
    | succ k =>
      simp only [start, pieces, List.length_cons]
      split_ifs
      · simp [ih]
      · simp only [Nat.add_lt_add_iff_right, ih, List.length_cons, List.length_tail]
        omega

theorem starts_eq (stop : α → Bool) (l : List α) :
    starts stop l = (List.range (pieces stop l).length).map fun k => start stop k l := by
  apply List.ext_getElem
  · simp [length_starts]
  intro k hk _
  simp only [List.getElem_map, List.getElem_range]
  induction l generalizing k with
  | nil => simp [starts] at hk
  | cons a l ih =>
    cases k with
    | zero => simp [starts]
    | succ k =>
      by_cases ha : stop a = true
      · simp only [starts, start, ha, if_true, List.getElem_cons_succ, List.getElem_map] at hk ⊢
        rw [ih k _ (by simpa [length_starts] using hk)]
      · simp only [starts, start, ha, Bool.false_eq_true, if_false, List.getElem_cons_succ, List.getElem_map,
          List.getElem_tail] at hk ⊢
        rw [ih (k + 1) _ (by simp [length_starts] at hk ⊢; omega)]

theorem cut_map_succ (a : α) (l : List α) (is : List ℕ) : cut (a :: l) (is.map (· + 1)) = cut l is := by
  induction is with
  | nil => rfl
  | cons i is ih =>
    cases is with
    | nil => simp [cut]
    | cons j is => simpa [cut] using ih

theorem cut_zero (l : List α) (is : List ℕ) : cut l (0 :: is) = l.take (is.headD l.length) :: cut l is := by
  cases is <;> simp [cut]

theorem cut_zero_map_succ (a : α) (l : List α) (is : List ℕ) :
    cut (a :: l) (0 :: is.map (· + 1)) = (a :: l.take (is.headD l.length)) :: cut l is := by
  rw [cut_zero, cut_map_succ]
  cases is <;> simp

theorem cut_starts (stop : α → Bool) (l : List α) : cut l (starts stop l) = pieces stop l := by
  induction l with
  | nil => rfl
  | cons a l ih =>
    rw [starts, cut_zero_map_succ, pieces, ← ih]
    cases l with
    | nil => simp [starts, cut]
    | cons b l =>
      split_ifs
      · simp [starts]
      · rw [starts, cut_zero, List.tail_cons, List.headD_cons, List.tail_cons]

theorem countP_take_start (hk : k ≤ l.countP stop) : (l.take (start stop k l)).countP stop = k := by
  induction l generalizing k with
  | nil => simpa [eq_comm] using hk
  | cons a l ih =>
    cases k with
    | zero => simp
    | succ k =>
      by_cases ha : stop a = true
      · simp only [List.countP_cons, start, ha, if_true, List.take_succ_cons] at hk ⊢
        rw [ih (by omega)]
      · simp only [List.countP_cons, start, ha, Bool.false_eq_true, if_false, List.take_succ_cons] at hk ⊢
        rw [ih (by omega)]

theorem length_pieces_le (stop : α → Bool) (l : List α) : (pieces stop l).length ≤ l.countP stop + 1 := by
  induction l with
  | nil => simp [pieces]
  | cons a l ih =>
    simp only [pieces, List.countP_cons]
    split_ifs <;> simp <;> omega

theorem stop_before_start (hk : k + 1 ≤ l.countP stop) :
    ∃ i a, start stop (k + 1) l = i + 1 ∧ l[i]? = some a ∧ stop a = true := by
  induction l generalizing k with
  | nil => simp at hk
  | cons a l ih =>
    by_cases ha : stop a = true
    · simp only [List.countP_cons, start, ha, if_true] at hk ⊢
      cases k with
      | zero => exact ⟨0, a, by simp, rfl, ha⟩
      | succ k =>
        obtain ⟨i, b, hi, hb⟩ := ih (k := k) (by omega)
        exact ⟨i + 1, b, by rw [hi], hb⟩
    · simp only [List.countP_cons, start, ha, Bool.false_eq_true, if_false] at hk ⊢
      obtain ⟨i, b, hi, hb⟩ := ih (k := k) (by omega)
      exact ⟨i + 1, b, by rw [hi], hb⟩

end Pieces
