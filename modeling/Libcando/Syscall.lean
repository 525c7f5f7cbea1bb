import Mathlib.Data.Int.Notation
import Mathlib.Data.Nat.Notation
import Mathlib.Tactic.SplitIfs

namespace Syscall

inductive Outcome
  | done (n : ℕ)
  | failed (e : ℕ)
  deriving DecidableEq

namespace Outcome

@[simp] def ret : Outcome → ℤ
  | done n => n
  | failed _ => -1

/-- A call that succeeds leaves the error number of the process as it was. -/
@[simp] def errno (entry : ℕ) : Outcome → ℕ
  | done _ => entry
  | failed e => e

def Succeeds (o : Outcome) : Prop := ∃ n, o = done n

@[simp] theorem succeeds_done (n : ℕ) : (done n).Succeeds := ⟨n, rfl⟩

@[simp] theorem not_succeeds_failed (e : ℕ) : ¬(failed e).Succeeds := by
  rintro ⟨n, h⟩
  cases h

end Outcome

section Classification

variable (R : ℕ → Prop) [DecidablePred R]

def ownResult : Outcome → ℤ
  | .done n => n
  | .failed e => if R e then -e else -1

def errnoFirst (entry : ℕ) (o : Outcome) : ℤ :=
  if R (o.errno entry) then -(o.errno entry) else if o.ret = -1 then -1 else o.ret

variable {R}

theorem errnoFirst_failed (entry e : ℕ) : errnoFirst R entry (.failed e) = ownResult R (.failed e) := by
  simp [errnoFirst, ownResult]

theorem errnoFirst_done (entry n : ℕ) :
    errnoFirst R entry (.done n) = if R entry then -(entry : ℤ) else n := by
  have hn : (n : ℤ) ≠ -1 := by omega
  simp [errnoFirst, hn]

theorem errnoFirst_eq_ownResult_iff (hR : ∀ e, R e → 0 < e) (entry : ℕ) (o : Outcome) :
    errnoFirst R entry o = ownResult R o ↔ (o.Succeeds → ¬R entry) := by
  cases o with
  | failed e => simp [errnoFirst_failed]
  | done n =>
    rw [errnoFirst_done]
    by_cases h : R entry
    · have := hR entry h
      simp only [h, if_true, ownResult, Outcome.succeeds_done, not_true_eq_false, imp_false, iff_false]
      omega
    · simp [h, ownResult]

theorem errnoFirst_agree_iff (hR : ∀ e, R e → 0 < e) {a b : ℕ} (hab : a ≠ b) (o : Outcome) :
    errnoFirst R a o = errnoFirst R b o ↔ (o.Succeeds → ¬R a ∧ ¬R b) := by
  cases o with
  | failed e => simp [errnoFirst_failed]
  | done n =>
    simp only [errnoFirst_done, Outcome.succeeds_done, true_implies]
    have ha := hR a
    have hb := hR b
    split_ifs with h₁ h₂ h₂
    · simp only [h₁, not_true_eq_false, false_and, iff_false]
      omega
    · simp only [h₁, not_true_eq_false, false_and, iff_false]
      have := ha h₁
      omega
    · simp only [h₂, not_true_eq_false, and_false, iff_false]
      have := hb h₂
      omega
    · simp [h₁, h₂]

end Classification

end Syscall
