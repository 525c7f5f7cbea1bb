import Mathlib.Data.Finset.Card
import Mathlib.Data.Fintype.Basic
import Mathlib.Logic.Function.Basic

namespace Transition

structure System (σ ι : Type*) where
  init : σ → Prop
  step : ι → σ → Option σ

inductive Reach {σ ι : Type*} (S : System σ ι) (ok : ι → σ → Prop) : σ → Prop
  | init {s : σ} (h : S.init s) : Reach S ok s
  | step {s t : σ} {l : ι} (h : Reach S ok s) (hok : ok l s) (hs : S.step l s = some t) : Reach S ok t

variable {σ ι : Type*} {S : System σ ι} {ok : ι → σ → Prop}

theorem Reach.invariant {I : σ → Prop} (hinit : ∀ s, S.init s → I s)
    (hstep : ∀ s t l, I s → ok l s → S.step l s = some t → I t) {s : σ} (h : Reach S ok s) : I s := by
  induction h with
  | init h => exact hinit _ h
  | step _ hok hs ih => exact hstep _ _ _ ih hok hs

theorem Reach.mono {ok' : ι → σ → Prop} (hsub : ∀ l s, ok' l s → ok l s) {s : σ} (h : Reach S ok' s) :
    Reach S ok s := by
  induction h with
  | init h => exact .init h
  | step _ hok hs ih => exact ih.step (hsub _ _ hok) hs

def run (S : System σ ι) (ok : ι → σ → Prop) [∀ l s, Decidable (ok l s)] : List ι → σ → Option σ
  | [], s => some s
  | l :: ls, s => if ok l s then (S.step l s).bind (run S ok ls) else none

theorem run_reach [∀ l s, Decidable (ok l s)] {ls : List ι} {s t : σ} (hs : Reach S ok s)
    (h : run S ok ls s = some t) : Reach S ok t := by
  induction ls generalizing s with
  | nil => cases h; exact hs
  | cons l ls ih =>
    rw [run] at h
    split_ifs at h with hok
    obtain ⟨u, hu, hrun⟩ := Option.bind_eq_some_iff.mp h
    exact ih (.step hs hok hu) hrun

theorem exists_of_run (S : System σ ι) (ok : ι → σ → Prop) [∀ l s, Decidable (ok l s)] {s : σ}
    (hs : Reach S ok s) (ls : List ι) (q : σ → Prop) [DecidablePred q]
    (h : (run S ok ls s).any q = true) : ∃ t, Reach S ok t ∧ q t := by
  obtain ⟨t, ht, hq⟩ := (Option.any_eq_true _ _).mp h
  exact ⟨t, run_reach hs ht, by simpa using hq⟩

section Parties

variable {P α : Type*} [DecidableEq P]

theorem update_forall {Q : P → α → Prop} {f : P → α} {p : P} {a : α} (hp : Q p a)
    (h : ∀ q, q ≠ p → Q q (f q)) (q : P) : Q q (Function.update f p a q) := by
  by_cases hq : q = p
  · subst hq; simpa using hp
  · simpa [hq] using h q hq

theorem update_some_cases {f : P → Option α} {p q : P} {a b : α} (h : Function.update f p (some a) q = some b) :
    q = p ∧ b = a ∨ q ≠ p ∧ f q = some b := by
  by_cases hq : q = p
  · subst hq
    rw [Function.update_self] at h
    cases h
    exact .inl ⟨rfl, rfl⟩
  · rw [Function.update_of_ne hq] at h
    exact .inr ⟨hq, h⟩

theorem update_none_some {f : P → Option α} {p q : P} {b : α} (h : Function.update f p none q = some b) :
    q ≠ p ∧ f q = some b := by
  by_cases hq : q = p
  · subst hq
    rw [Function.update_self] at h
    cases h
  · rw [Function.update_of_ne hq] at h
    exact ⟨hq, h⟩

theorem card_update [Fintype P] (Q : α → Prop) [DecidablePred Q] (f : P → α) (p : P) (a : α) :
    (Finset.univ.filter fun q => Q (Function.update f p a q)).card + (if Q (f p) then 1 else 0) =
      (Finset.univ.filter fun q => Q (f q)).card + (if Q a then 1 else 0) := by
  have split (g : P → α) : (Finset.univ.filter fun q => Q (g q)).card =
      ((Finset.univ.erase p).filter fun q => Q (g q)).card + (if Q (g p) then 1 else 0) := by
    rw [← Finset.insert_erase (Finset.mem_univ p), Finset.filter_insert,
      Finset.erase_insert (Finset.notMem_erase p _)]
    split_ifs with h
    · rw [Finset.card_insert_of_notMem (by simp)]
    · rfl
  have rest : ((Finset.univ.erase p).filter fun q => Q (Function.update f p a q)) =
      (Finset.univ.erase p).filter fun q => Q (f q) := by
    apply Finset.filter_congr
    intro q hq
    rw [Function.update_of_ne (Finset.ne_of_mem_erase hq)]
  rw [split, split f, rest, Function.update_self]
  omega

end Parties

end Transition
