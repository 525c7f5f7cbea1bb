import Mathlib.Data.Nat.Notation
import Mathlib.Logic.Function.Basic

/-!
Two words pass one slot between parties that put into it and parties that take from it. A word is
zero while its side of the slot is free; whoever finds it zero sets it and clears the other word
when it is through.
-/

namespace Baton

inductive Side
  | put
  | take
  deriving DecidableEq

def Side.other : Side → Side
  | .put => .take
  | .take => .put

@[simp] theorem Side.other_ne (s : Side) : s.other ≠ s := by cases s <;> simp [other]

theorem Side.eq_or_other (s s' : Side) : s' = s ∨ s' = s.other := by
  cases s <;> cases s' <;> simp [other]

inductive Token (P : Type*)
  | free (s : Side)
  | held (s : Side) (p : P)
  | stuck

namespace Token

variable {P : Type*}

def Fits (word : Side → ℕ) (busy : P → Option Side) : Token P → Prop
  | free s => word s = 0 ∧ word s.other = 1 ∧ ∀ q, busy q = none
  | held s p => (∀ s', word s' = 1) ∧ busy p = some s ∧ ∀ q, q ≠ p → busy q = none
  | stuck => (∀ s', word s' = 1) ∧ ∀ q, busy q = none

variable {word : Side → ℕ} {busy : P → Option Side} {t : Token P}

theorem Fits.of_free (h : t.Fits word busy) {s : Side} (hs : word s = 0) : t = free s := by
  cases t with
  | free s' =>
    rcases s'.eq_or_other s with rfl | rfl
    · rfl
    · have := h.2.1; omega
  | held s' p | stuck => have := h.1 s; omega

theorem Fits.of_busy (h : t.Fits word busy) {p : P} {s : Side} (hb : busy p = some s) : t = held s p := by
  cases t with
  | free s' => simp [h.2.2 p] at hb
  | stuck => simp [h.2 p] at hb
  | held s' q =>
    have hq : p = q := by
      by_contra hne
      simp [h.2.2 p hne] at hb
    subst hq
    cases h.2.1.symm.trans hb
    rfl

theorem Fits.busy_unique (h : t.Fits word busy) {p q : P} (hp : busy p ≠ none) (hq : busy q ≠ none) :
    p = q := by
  obtain ⟨s, hs⟩ := Option.ne_none_iff_exists'.mp hp
  obtain ⟨s', hs'⟩ := Option.ne_none_iff_exists'.mp hq
  cases (h.of_busy hs).symm.trans (h.of_busy hs')
  rfl

def ExactlyOne (word : Side → ℕ) (busy : P → Option Side) : Prop :=
  (∃ s, word s = 0 ∧ word s.other ≠ 0 ∧ ∀ q, busy q = none) ∨
    ((∀ s, word s ≠ 0) ∧ ∃ p, busy p ≠ none ∧ ∀ q, q ≠ p → busy q = none)

theorem Fits.exactlyOne (h : t.Fits word busy) (ht : t ≠ stuck) : ExactlyOne word busy := by
  cases t with
  | free s =>
    left
    refine ⟨s, h.1, ?_, h.2.2⟩
    rw [h.2.1]
    decide
  | held s p =>
    right
    constructor
    · intro s'
      rw [h.1 s']
      decide
    · exact ⟨p, by simp [h.2.1], h.2.2⟩
  | stuck => exact absurd rfl ht

variable [DecidableEq P]

theorem update_none {p : P} {b : Option Side} (h : ∀ q, q ≠ p → busy q = none) {q : P} (hq : q ≠ p) :
    Function.update busy p b q = none := by
  rw [Function.update_of_ne hq]; exact h q hq

theorem idle_of_update {p : P} (h : ∀ q, q ≠ p → busy q = none) (q : P) :
    Function.update busy p none q = none := by
  by_cases hq : q = p
  · simp [hq]
  · exact update_none h hq

theorem Fits.acquire (h : t.Fits word busy) {s : Side} (hs : word s = 0) (p : P) :
    (held s p).Fits (Function.update word s 1) (Function.update busy p (some s)) := by
  obtain rfl := h.of_free hs
  refine ⟨?_, by simp, ?_⟩
  · intro s'
    rcases s.eq_or_other s' with rfl | rfl
    · simp
    · simpa using h.2.1
  · intro q hq
    apply update_none _ hq
    intro q _
    exact h.2.2 q

theorem Fits.release {s : Side} {p : P} (h : (held s p).Fits word busy) :
    (free s.other).Fits (Function.update word s.other 0) (Function.update busy p none) := by
  refine ⟨by simp, ?_, idle_of_update h.2.2⟩
  rw [Function.update_of_ne (Side.other_ne _)]
  exact h.1 _

theorem Fits.drop {s : Side} {p : P} (h : (held s p).Fits word busy) :
    stuck.Fits word (Function.update busy p none) :=
  ⟨h.1, idle_of_update h.2.2⟩

end Token

end Baton
