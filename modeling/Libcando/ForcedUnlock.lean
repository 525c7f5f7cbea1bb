import Libcando.FutexSystem

namespace Libcando.Futex

open Transition

variable {P : Type*}

def lockers : P × Act → State P → Prop
  | (p, .call .unlock), s => (s.proc p).holds = true
  | (_, .call (.wait _)), _ => False
  | (_, .call (.wake _)), _ => False
  | _, _ => True

instance : ∀ (l : P × Act) (s : State P), Decidable (lockers l s)
  | (p, .call .unlock), s => inferInstanceAs (Decidable ((s.proc p).holds = true))
  | (_, .call (.wait _)), _ | (_, .call (.wake _)), _ => inferInstanceAs (Decidable False)
  | (_, .call .lock), _ | (_, .call .unlockForce), _ | (_, .tick _), _ => inferInstanceAs (Decidable True)

def givesBack (l : P × Act) (s : State P) : Bool :=
  match l.2, (s.proc l.1).pc with
  | .tick _, .wake .unlock (.store _) => true
  | _, _ => false

/-- No unlock stores its value while a call caught by a forced unlock is still waiting. -/
def sparing (l : P × Act) (s : State P) : Prop :=
  lockers l s ∧ (givesBack l s = true → ∀ q, (s.proc q).caught = false)

instance [Fintype P] (l : P × Act) (s : State P) : Decidable (sparing l s) :=
  inferInstanceAs (Decidable (_ ∧ (_ → _)))

structure Caught (s : State P) : Prop where
  word : ∀ p, (s.proc p).caught = true → s.word = futexUnlockForce
  waiting : ∀ p, (s.proc p).caught = true → (s.proc p).pc.locking = true
  called : ∀ p, (s.proc p).Called fun c => c = .unlock ∨ c = .unlockForce

theorem caught_initial (word : ℕ) : Caught (initial word : State P) := by
  constructor <;> intro p <;> simp [initial, Process.Called]

theorem Caught.pc {s : State P} (hs : Caught s) {p : P} (hp : (s.proc p).caught = true) :
    ∃ pc, (s.proc p).pc = .lock pc := by
  have h := hs.waiting p hp
  cases hpc : (s.proc p).pc <;> simp_all [Pc.locking]

variable [DecidableEq P]

def ForceReaches (ok : P × Act → State P → Prop) : Prop :=
  ∀ s, Reach (system P) ok s → ∀ p act t, ok (p, act) s → step (p, act) s = some t →
    (s.proc p).caught = true →
      ((t.proc p).caught = true ∧ (t.proc p).pc.locking = true) ∨
        ((t.proc p).pc = .idle ∧ (t.proc p).errno = eintr ∧ (t.proc p).holds = (s.proc p).holds)

theorem caught_before {x : Process} {word : ℕ} {act : Act} {e : Effect} (h : x.Step word act e)
    (y : Process) (hy : (e.others y).caught = true) :
    y.caught = true ∨ (y.pc.locking = true ∧ ∃ c v, x.pc = .wake c (.store v) ∧ c = .unlockForce) := by
  cases h with
  | store turn c value hstore =>
    by_cases hc : c = .unlockForce
    · simp only [hc, ↓reduceIte, Process.catchForced, Bool.or_eq_true] at hy
      exact hy.imp_right fun hl => ⟨hl, c, value, hstore, hc⟩
    · simp only [hc, ↓reduceIte, id] at hy
      exact .inl hy
  | _ => exact .inl hy

theorem word_step {s t : State P} {l : P × Act} (hs : Caught s) (hok : sparing l s)
    (h : step l s = some t) {q : P} (hq : (t.proc q).caught = true) : t.word = futexUnlockForce := by
  obtain ⟨p, act⟩ := l
  obtain ⟨e, he, hw, hself, hothers⟩ := step_spec h
  have before (hself' : e.self.caught = true → (s.proc p).caught = true)
      (hforce : ∀ c v, (s.proc p).pc = .wake c (.store v) → c ≠ .unlockForce) : (s.proc q).caught = true := by
    by_cases hqp : q = p
    · rw [hqp, hself] at hq
      exact hqp ▸ hself' hq
    · rw [hothers q hqp] at hq
      rcases caught_before he _ hq with hc | ⟨-, c, v, hpc, hc⟩
      · exact hc
      · exact absurd hc (hforce c v hpc)
  cases he with
  | acquire turn pc errno hlock hfree =>
    -- the free word shows that nobody was caught before
    have := hs.word q (before (by simp) (by simp [hlock]))
    simp [hfree] at this
  | store turn c value hstore =>
    by_cases hc : c = .unlockForce
    · have hv := (hs.called p c _ hstore).2 value rfl
      subst hc
      rw [hw]
      simpa [Call.entry, udoFutexUnlockForce] using hv.symm
    · have hu : c = .unlock := (hs.called p c _ hstore).1.resolve_right hc
      have hnone := hok.2 (by simp [givesBack, hstore, hu]) q
      rw [before id (by rintro c' v hpc; rw [hstore] at hpc; cases hpc; exact hc)] at hnone
      cases hnone
  | call c hidle => rw [hw]; exact hs.word q (before id (by simp [hidle]))
  | interrupt turn pc hlock hforce => rw [hw]; exact hforce
  | spin turn pc pc' errno hlock => rw [hw]; exact hs.word q (before id (by simp [hlock]))
  | wait turn desired pc pc' errno hwait hpc' => rw [hw]; exact hs.word q (before id (by simp [hwait]))
  | wake turn c hwake => rw [hw]; exact hs.word q (before id (by simp [hwake]))

theorem waiting_step {s t : State P} {l : P × Act} (hs : Caught s) (h : step l s = some t) {q : P}
    (hq : (t.proc q).caught = true) : (t.proc q).pc.locking = true := by
  obtain ⟨p, act⟩ := l
  obtain ⟨e, he, hw, hself, hothers⟩ := step_spec h
  by_cases hqp : q = p
  · have locked (hc : (s.proc p).caught = true) : ∃ pc, (s.proc p).pc = .lock pc := hs.pc hc
    subst hqp
    rw [hself] at hq ⊢
    cases he with
    | spin turn pc pc' errno hlock => rfl
    | acquire turn pc errno hlock hfree => cases hq
    | interrupt turn pc hlock hforce => cases hq
    | _ => obtain ⟨pc, hpc⟩ := locked hq; simp_all
  · rw [hothers q hqp] at hq ⊢
    rw [(he.kept _).locking]
    exact (caught_before he _ hq).elim (hs.waiting q) And.left

theorem caught_step {s t : State P} {l : P × Act} (hs : Caught s) (hok : sparing l s)
    (h : step l s = some t) : Caught t := by
  constructor
  · intro q hq
    exact word_step hs hok h hq
  · intro q hq
    exact waiting_step hs h hq
  · apply called_step hs.called h
    rintro c w hl hc
    obtain ⟨p, act⟩ := l
    cases hl
    have := hok.1
    cases c <;> simp_all [Call.entry, lockers]

theorem caught_reach {s : State P} (h : Reach (system P) sparing s) : Caught s := by
  apply h.invariant
  · rintro s ⟨word, rfl⟩
    exact caught_initial word
  · intro s t l hs hok hstep
    exact caught_step hs hok hstep

theorem forced_unlock_reaches : ForceReaches (P := P) sparing := by
  intro s hs p act t hok h hp
  have hc := caught_reach hs
  obtain ⟨e, he, -, hself, -⟩ := step_spec h
  obtain ⟨pc, hpc⟩ := hc.pc hp
  dsimp only at he hself
  rw [hself]
  cases he with
  | acquire turn pc errno hlock hfree =>
    have := hc.word p hp
    simp [hfree] at this
  | interrupt turn pc hlock hforce => exact .inr ⟨rfl, rfl, rfl⟩
  | spin turn pc pc' errno hlock => exact .inl ⟨hp, rfl⟩
  | _ => simp_all

theorem forced_unlock_reaches_spinning : ∃ (s t : State (Fin 2)), (s.proc 0).caught = true ∧
    step (0, .tick .plain) s = some t ∧
      (((t.proc 0).caught = true ∧ (t.proc 0).pc.locking = true) ∨
        ((t.proc 0).pc = .idle ∧ (t.proc 0).errno = eintr ∧ (t.proc 0).holds = (s.proc 0).holds)) := by
  obtain ⟨s, hs, hp, hstep⟩ := exists_of_run (system (Fin 2)) sparing (.init ⟨1, rfl⟩)
    [(0, .call .lock), (0, .tick .plain), (1, .call .unlockForce), (1, .tick .plain)]
    (fun s => (s.proc 0).caught = true ∧ (step (0, .tick .plain) s).isSome ∧ givesBack (0, .tick .plain) s = false)
    (by decide)
  obtain ⟨t, ht⟩ := Option.isSome_iff_exists.mp hstep.1
  exact ⟨s, t, hp, ht, forced_unlock_reaches s hs 0 (.tick .plain) t ⟨trivial, by simp [hstep.2]⟩ ht hp⟩

theorem forced_unlock_overwritten : ¬ ForceReaches (P := Fin 3) lockers := by
  intro reaches
  obtain ⟨s, hs, hp, hstep⟩ := exists_of_run (system (Fin 3)) lockers (.init ⟨0, rfl⟩)
    [(0, .call .lock), (0, .tick .plain), (1, .call .lock), (1, .tick .plain), (2, .call .unlockForce),
      (2, .tick .plain), (0, .call .unlock), (0, .tick .plain), (1, .tick .plain)]
    (fun s => (s.proc 1).caught = true ∧
      (step (1, .tick .plain) s).any fun t => (t.proc 1).holds && (t.proc 1).pc == .idle &&
        (t.proc 1).errno == 0) (by decide)
  obtain ⟨t, ht, hq⟩ := (Option.any_eq_true _ _).mp hstep
  have := reaches s hs 1 (.tick .plain) t trivial ht hp
  simp_all [Pc.locking]

end Libcando.Futex
