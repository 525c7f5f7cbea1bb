import Libcando.FutexSystem

namespace Libcando.Futex

open Transition

variable {P : Type*}

def disciplined : P × Act → State P → Prop
  | (p, .call .unlock), s => (s.proc p).holds = true
  | (_, .call .unlockForce), _ => False
  | (_, .call (.wake _)), _ => False
  | _, _ => True

instance : ∀ (l : P × Act) (s : State P), Decidable (disciplined l s)
  | (p, .call .unlock), s => inferInstanceAs (Decidable ((s.proc p).holds = true))
  | (_, .call .unlockForce), _ | (_, .call (.wake _)), _ => inferInstanceAs (Decidable False)
  | (_, .call .lock), _ | (_, .call (.wait _)), _ | (_, .tick _), _ => inferInstanceAs (Decidable True)

structure Exclusive (s : State P) : Prop where
  word : ∀ p, (s.proc p).holds = true → s.word = futexLock
  unique : ∀ p q, (s.proc p).holds = true → (s.proc q).holds = true → p = q

structure Guarded (s : State P) : Prop where
  exclusive : Exclusive s
  called : ∀ p, (s.proc p).Called (· = .unlock)
  holding : ∀ p c v, (s.proc p).pc = .wake c (.store v) → (s.proc p).holds = true

theorem Exclusive.of_same {s t : State P} (hs : Exclusive s) (hw : t.word = s.word)
    (hh : ∀ q, (t.proc q).holds = (s.proc q).holds) : Exclusive t := by
  constructor
  · intro p hp
    rw [hw]
    exact hs.word p (hh p ▸ hp)
  · intro p q hp hq
    exact hs.unique p q (hh p ▸ hp) (hh q ▸ hq)

theorem Exclusive.of_free {s t : State P} (hs : Exclusive s) (hw : s.word = futexUnlock) {p : P}
    (hp : t.word = futexLock) (hh : ∀ q, q ≠ p → (t.proc q).holds = (s.proc q).holds) : Exclusive t := by
  have hfree (q : P) : (s.proc q).holds = false := by
    by_contra hq
    have := hs.word q (by simpa using hq)
    simp [hw] at this
  have hnone (q : P) (hq : (t.proc q).holds = true) : q = p := by
    by_contra hne
    rw [hh q hne, hfree q] at hq
    cases hq
  constructor
  · intro q _
    exact hp
  · intro q r hq hr
    exact (hnone q hq).trans (hnone r hr).symm

theorem Exclusive.of_release {s t : State P} (hs : Exclusive s) {p : P} (hp : (s.proc p).holds = true)
    (hself : (t.proc p).holds = false) (hh : ∀ q, q ≠ p → (t.proc q).holds = (s.proc q).holds) :
    Exclusive t := by
  have hnone (q : P) : (t.proc q).holds = false := by
    by_cases hq : q = p
    · exact hq ▸ hself
    · rw [hh q hq]
      by_contra hc
      exact hq (hs.unique q p (by simpa using hc) hp)
  constructor
  · intro q hq; simp [hnone q] at hq
  · intro q r hq; simp [hnone q] at hq

theorem guarded_initial (word : ℕ) : Guarded (initial word : State P) := by
  constructor
  · constructor <;> intro p <;> simp [initial]
  · intro p c w; simp [initial]
  · intro p c v; simp [initial]

variable [DecidableEq P]

theorem exclusive_step {s t : State P} {l : P × Act} (hs : Guarded s) (h : step l s = some t) :
    Exclusive t := by
  obtain ⟨p, act⟩ := l
  obtain ⟨e, he, hw, hself, hothers⟩ := step_spec h
  have hother (q : P) (hq : q ≠ p) : (t.proc q).holds = (s.proc q).holds := by
    rw [hothers q hq]; exact (he.kept _).holds
  have same (hword : e.word = s.word) (hh : e.self.holds = (s.proc p).holds) : Exclusive t := by
    apply hs.exclusive.of_same (hw.trans hword)
    intro q
    by_cases hq : q = p
    · rw [hq, hself, hh]
    · exact hother q hq
  cases he with
  | acquire turn pc errno hlock hfree => exact hs.exclusive.of_free hfree hw hother
  | store turn c value hstore =>
    have hc : c = .unlock := (hs.called p c _ hstore).1
    have hfree : (t.proc p).holds = false := by rw [hself]; simp [hc]
    exact hs.exclusive.of_release (hs.holding p c value hstore) hfree hother
  | _ => exact same rfl rfl

theorem guarded_step {s t : State P} {l : P × Act} (hs : Guarded s) (hok : disciplined l s)
    (h : step l s = some t) : Guarded t := by
  obtain ⟨p, act⟩ := l
  constructor
  · exact exclusive_step hs h
  · apply called_step hs.called h
    rintro c w rfl hc
    cases c <;> simp_all [Call.entry, disciplined]
  · intro q
    refine forall_step (Q := fun x => ∀ c v, x.pc = .wake c (.store v) → x.holds = true) ?_ hs.holding h ?_ q
    · intro x y hk hx c v hv
      rw [hk.holds]
      exact hx c v ((hk.wake _ _).mp hv)
    · intro e he c v hv
      cases he with
      | call c' hidle =>
        obtain rfl := Call.entry_eq hv
        cases c <;> simp_all [Call.entry, disciplined]
      | wait turn desired pc pc' errno hwait hpc' => rcases hpc' with rfl | ⟨pc'', rfl⟩ <;> cases hv
      | _ => cases hv

theorem guarded_reach {s : State P} (h : Reach (system P) disciplined s) : Guarded s := by
  apply h.invariant
  · rintro s ⟨word, rfl⟩
    exact guarded_initial word
  · intro s t l hs hok hstep
    exact guarded_step hs hok hstep

theorem lock_mutual_exclusion {s : State P} (h : Reach (system P) disciplined s) : Exclusive s :=
  (guarded_reach h).exclusive

theorem lock_mutual_exclusion_contended : ∃ s : State (Fin 2),
    (s.proc 0).holds = true ∧ (s.proc 1).pc = .lock (.spinCheck 1) ∧ Exclusive s := by
  obtain ⟨s, hs, hq⟩ := exists_of_run (system (Fin 2)) disciplined (.init ⟨0, rfl⟩)
    [(0, .call .lock), (1, .call .lock), (1, .tick .spurious), (0, .tick .plain), (1, .tick .plain),
      (1, .tick .plain)]
    (fun s => (s.proc 0).holds = true ∧ (s.proc 1).pc = .lock (.spinCheck 1)) (by decide)
  exact ⟨s, hq.1, hq.2, lock_mutual_exclusion hs⟩

end Libcando.Futex
