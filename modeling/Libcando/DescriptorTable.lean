import Mathlib.Data.Int.Notation
import Mathlib.Data.List.Basic
import Mathlib.Data.Nat.Notation
import Mathlib.Tactic.SplitIfs

abbrev DescriptorTable (α : Type*) := List (Option α)

namespace DescriptorTable

variable {α : Type*} {a : α} {t : DescriptorTable α}

def owner (t : DescriptorTable α) (n : ℤ) : Option α :=
  if n < 0 then none else t[n.toNat]?.join

def lowest : DescriptorTable α → ℕ
  | [] | none :: _ => 0
  | some _ :: t => lowest t + 1

def acquire (a : α) : DescriptorTable α → DescriptorTable α
  | [] => [some a]
  | none :: t => some a :: t
  | some b :: t => some b :: acquire a t

def release (n : ℤ) (t : DescriptorTable α) : DescriptorTable α :=
  if n < 0 then t else t.set n.toNat none

@[simp] theorem owner_neg {n : ℤ} (h : n < 0) : t.owner n = none := by
  simp [owner, h]

theorem owner_natCast (n : ℕ) : t.owner n = t[n]?.join := by
  have h : ¬(n : ℤ) < 0 := by omega
  simp [owner, h]

theorem mem_of_owner {n : ℤ} (h : t.owner n = some a) : some a ∈ t := by
  rw [owner] at h
  split_ifs at h
  exact List.mem_of_getElem? (Option.join_eq_some_iff.mp h)

theorem owner_lowest (t : DescriptorTable α) : t.owner t.lowest = none := by
  rw [owner_natCast]
  induction t with
  | nil => rfl
  | cons o t ih => cases o <;> simp [lowest, ih]

theorem ne_lowest {n : ℤ} (h : t.owner n = some a) : n ≠ t.lowest := by
  rintro rfl
  rw [owner_lowest] at h
  cases h

theorem owner_acquire_nat (n : ℕ) : (t.acquire a)[n]?.join = if n = t.lowest then some a else t[n]?.join := by
  induction t generalizing n with
  | nil =>
    cases n with
    | zero => rfl
    | succ n => simp [acquire, lowest]
  | cons o t ih =>
    cases n with
    | zero => cases o <;> simp [acquire, lowest]
    | succ n =>
      cases o with
      | none => simp [acquire, lowest]
      | some b => simpa [acquire, lowest] using ih n

theorem owner_acquire (n : ℤ) : (t.acquire a).owner n = if n = t.lowest then some a else t.owner n := by
  by_cases hn : n < 0
  · have hne : n ≠ t.lowest := by omega
    simp [hn, hne]
  · lift n to ℕ using by omega
    rw [owner_natCast, owner_natCast, owner_acquire_nat]
    simp only [Int.natCast_inj]

@[simp] theorem owner_acquire_lowest : (t.acquire a).owner t.lowest = some a := by
  simp [owner_acquire]

theorem owner_acquire_of_some {n : ℤ} {b : α} (h : t.owner n = some b) : (t.acquire a).owner n = some b := by
  rw [owner_acquire, if_neg (ne_lowest h)]
  exact h

theorem owner_release (n m : ℤ) : (t.release n).owner m = if m = n then none else t.owner m := by
  by_cases hm : m < 0
  · simp [hm]
  · by_cases hn : n < 0
    · have hne : m ≠ n := by omega
      simp [release, hn, hne]
    · lift n to ℕ using by omega
      lift m to ℕ using by omega
      simp only [release, hn, if_false, Int.toNat_natCast, owner_natCast, Int.natCast_inj]
      by_cases h : m = n
      · subst h
        rw [if_pos rfl, List.getElem?_set_self']
        cases t[m]? <;> rfl
      · rw [if_neg h, List.getElem?_set_ne fun hnm => h hnm.symm]

theorem owner_release_of_ne {n m : ℤ} (h : m ≠ n) : (t.release n).owner m = t.owner m := by
  rw [owner_release, if_neg h]

theorem owner_of_release {n m : ℤ} (h : (t.release n).owner m = some a) : t.owner m = some a := by
  rw [owner_release] at h
  split_ifs at h
  exact h

section Shape

variable {u : DescriptorTable Unit}

def shape (t : DescriptorTable α) : DescriptorTable Unit := List.map (Option.map fun _ => ()) t

def retag (t : DescriptorTable α) (a : α) (u : DescriptorTable Unit) : DescriptorTable α :=
  List.map (fun p => p.1.map fun _ => (t.owner p.2).getD a) (List.zipIdx u)

theorem owner_shape (n : ℤ) : t.shape.owner n = (t.owner n).map fun _ => () := by
  by_cases hn : n < 0
  · simp [hn]
  · lift n to ℕ using by omega
    rw [owner_natCast, owner_natCast, shape, List.getElem?_map]
    cases t[n]? <;> rfl

theorem owner_retag (n : ℤ) : (t.retag a u).owner n = (u.owner n).map fun _ => (t.owner n).getD a := by
  by_cases hn : n < 0
  · simp [hn]
  · lift n to ℕ using by omega
    have hu : u.owner n = u[n]?.join := owner_natCast n
    rw [owner_natCast, hu, retag, List.getElem?_map, List.getElem?_zipIdx, Nat.zero_add]
    cases u[n]? <;> rfl

theorem owner_retag_same {n : ℤ} (h : u.owner n = t.shape.owner n) : (t.retag a u).owner n = t.owner n := by
  rw [owner_retag, h, owner_shape]
  cases t.owner n <;> rfl

end Shape

end DescriptorTable
