import Libcando.Continuation
import Libcando.MutualExclusion
import Libcando.FutexSleepers

namespace Libcando.Futex

open Transition

variable {P : Type*}

/-- Whoever holds the lock calls nothing but the unlock that gives it back, and nobody forces it. -/
def bracketed : P × Act → State P → Prop
  | (p, .call .unlock), s => (s.proc p).holds = true
  | (_, .call .unlockForce), _ => False
  | (_, .call (.wake _)), _ => False
  | (p, .call .lock), s => (s.proc p).holds = false
  | (p, .call (.wait _)), s => (s.proc p).holds = false
  | (_, .tick _), _ => True

/-- No new call but an unlock, no spurious failure or wake-up, no signal. -/
def owed : P × Act → State P → Prop
  | (p, .call .unlock), s => (s.proc p).holds = true
  | (_, .tick .plain), _ => True
  | _, _ => False

theorem disciplined_of_bracketed {l : P × Act} {s : State P} (h : bracketed l s) : disciplined l s := by
  obtain ⟨p, act⟩ := l
  cases act with
  | call c => cases c <;> first | exact h | trivial
  | tick turn => trivial

theorem bracketed_of_owed {l : P × Act} {s : State P} (h : owed l s) : bracketed l s := by
  obtain ⟨p, act⟩ := l
  cases act with
  | call c => cases c <;> first | exact h | exact h.elim
  | tick turn => trivial

instance : ∀ (l : P × Act) (s : State P), Decidable (bracketed l s)
  | (p, .call .unlock), s => inferInstanceAs (Decidable ((s.proc p).holds = true))
  | (_, .call .unlockForce), _ | (_, .call (.wake _)), _ => inferInstanceAs (Decidable False)
  | (p, .call .lock), s | (p, .call (.wait _)), s => inferInstanceAs (Decidable ((s.proc p).holds = false))
  | (_, .tick _), _ => inferInstanceAs (Decidable True)

theorem Process.step_call {x : Process} (hpc : x.pc = .idle) (c : Call) (word : ℕ) :
    x.step (.call c) word = some ⟨word, { x with pc := c.entry }, id⟩ := by
  simp only [Process.step, hpc]

theorem Process.step_store {x : Process} {v : ℕ} (hpc : x.pc = .wake .unlock (.store v)) (word : ℕ) :
    x.step (.tick .plain) word = some ⟨v, { x with pc := .wake .unlock .wake, holds := false }, id⟩ := by
  simp [Process.step, hpc]

theorem Process.step_wake {x : Process} {c : Call} (hpc : x.pc = .wake c .wake) (word : ℕ) :
    x.step (.tick .plain) word = some ⟨word, { x with pc := .idle }, Process.wakeUp⟩ := by
  simp only [Process.step, hpc]

structure Owned (s : State P) : Prop where
  guarded : Guarded s
  watched : Watched (fun pc => pc.locking = true) s
  held : s.word = futexUnlock ∨ s.word = futexLock ∧ ∃ p, (s.proc p).holds = true
  free : ∀ p, (s.proc p).holds = true → (s.proc p).pc = .idle ∨ ∃ v, (s.proc p).pc = .wake .unlock (.store v)

theorem owned_initial : Owned (initial futexUnlock : State P) := by
  refine ⟨guarded_initial _, watched_initial _ _, .inl rfl, ?_⟩
  intro p hp
  simp [initial] at hp

def Stays (p : P) (s t : State P) : Prop := ∀ q, q ≠ p → (s.proc q).pc.locking = true → (t.proc q).pc.locking = true

theorem Stays.trans {p : P} {s t u : State P} (h : Stays p s t) (h' : Stays p t u) : Stays p s u :=
  fun q hq hs => h' q hq (h q hq hs)

variable [DecidableEq P]

/-- `udo_futex_create` stores 1 in every word: the futex starts locked, and some process has to unlock it. -/
def created (p : P) : State P := ⟨futexLock, fun q => { holds := decide (q = p) }⟩

def lockSystem (P : Type*) [DecidableEq P] : System (State P) (P × Act) where
  init s := s = initial futexUnlock ∨ ∃ p, s = created p
  step := step

theorem owned_created (p : P) : Owned (created p) := by
  constructor
  · constructor
    · constructor
      · intro q _; rfl
      · intro q r hq hr
        simp only [created, decide_eq_true_eq] at hq hr
        rw [hq, hr]
    · intro q c w; simp [created]
    · intro q c v; simp [created]
  · constructor
    · intro q; trivial
    · intro q _ hq; simp [created, Pc.Overdue, Pc.awaited] at hq
  · exact .inr ⟨rfl, p, by simp [created]⟩
  · intro q _; exact .inl rfl

theorem held_step {s t : State P} {l : P × Act} (hs : Owned s) (h : step l s = some t) :
    t.word = futexUnlock ∨ t.word = futexLock ∧ ∃ p, (t.proc p).holds = true := by
  obtain ⟨p, act⟩ := l
  obtain ⟨e, he, hw, hself, hothers⟩ := step_spec h
  have same (hword : e.word = s.word) (hh : e.self.holds = (s.proc p).holds) :
      t.word = futexUnlock ∨ t.word = futexLock ∧ ∃ p, (t.proc p).holds = true := by
    rcases hs.held with hfree | ⟨hlocked, q, hq⟩
    · exact .inl (by rw [hw, hword, hfree])
    · refine .inr ⟨by rw [hw, hword, hlocked], q, ?_⟩
      by_cases hqp : q = p
      · rw [hqp, hself, hh, ← hqp, hq]
      · rw [hothers q hqp, (he.kept _).holds, hq]
  cases he with
  | acquire turn pc errno hlock hfree => exact .inr ⟨hw, p, by rw [hself]⟩
  | store turn c value hstore =>
    obtain ⟨rfl, hentry⟩ := hs.guarded.called p c _ hstore
    have hvalue : value = futexUnlock := by simpa [Call.entry, udoFutexUnlock, eq_comm] using hentry value rfl
    exact .inl (hw.trans hvalue)
  | _ => exact same rfl rfl

theorem free_step {s t : State P} {l : P × Act} (hs : Owned s) (hok : bracketed l s) (h : step l s = some t)
    (q : P) (hq : (t.proc q).holds = true) :
    (t.proc q).pc = .idle ∨ ∃ v, (t.proc q).pc = .wake .unlock (.store v) := by
  obtain ⟨p, act⟩ := l
  obtain ⟨e, he, hw, hself, hothers⟩ := step_spec h
  by_cases hqp : q = p
  · subst hqp
    rw [hself] at hq ⊢
    cases he with
    | call c hidle =>
      have hc : c = .unlock := by
        cases c <;> simp_all [bracketed]
      exact .inr ⟨futexUnlock, by rw [hc]; rfl⟩
    | acquire turn pc errno hlock hfree => exact .inl rfl
    | interrupt turn pc hlock hforce => exact .inl rfl
    | spin turn pc pc' errno hlock =>
      rcases hs.free q hq with hidle | ⟨v, hstore⟩ <;> simp_all
    | wait turn desired pc pc' errno hwait hpc' =>
      rcases hs.free q hq with hidle | ⟨v, hstore⟩ <;> simp_all
    | store turn c value hstore =>
      obtain ⟨rfl, -⟩ := hs.guarded.called q c _ hstore
      simp at hq
    | wake turn c hwake => exact .inl rfl
  · rw [hothers q hqp] at hq ⊢
    have kept := he.kept (s.proc q)
    rcases hs.free q (kept.holds ▸ hq) with hidle | ⟨v, hstore⟩
    · rcases he.others_pc (s.proc q) with hpc | hpc
      · exact .inl (hpc.trans hidle)
      · exact .inl (by rw [hpc, hidle]; rfl)
    · exact .inr ⟨v, (kept.wake _ _).mpr hstore⟩

theorem Owned.step {s t : State P} {l : P × Act} (hs : Owned s) (hok : bracketed l s) (h : step l s = some t) :
    Owned t := by
  refine ⟨guarded_step hs.guarded (disciplined_of_bracketed hok) h, ?_, held_step hs h, free_step hs hok h⟩
  apply watched_step hs.watched _ h
  intro _ p hlock hsleep
  cases hpc : (s.proc p).pc <;> simp_all [Pc.locking, Pc.awaited]

theorem owned_reach {s : State P} (h : Reach (lockSystem P) bracketed s) : Owned s := by
  apply h.invariant
  · rintro s (rfl | ⟨p, rfl⟩)
    · exact owned_initial
    · exact owned_created p
  · intro s t l hs hok hstep
    exact hs.step hok hstep

theorem Owned.leads {s t : State P} (hs : Owned s) (h : Leads (lockSystem P) owed s t) : Owned t := by
  apply h.invariant _ hs
  intro s t l hs hok hstep
  exact hs.step (bracketed_of_owed hok) hstep

theorem exists_step {s : State P} {p : P} {a : Act} {e : Effect} (h : (s.proc p).step a s.word = some e) :
    ∃ t, step (p, a) s = some t ∧ t.word = e.word ∧ t.proc p = e.self ∧
      ∀ q, q ≠ p → t.proc q = e.others (s.proc q) :=
  ⟨_, by rw [Futex.step, h]; rfl, rfl, if_pos rfl, fun _ hq => if_neg hq⟩

theorem stays_step {p : P} {s t : State P} {l : P × Act} (h : step l s = some t)
    (hl : l.1 = p ∨ (s.proc l.1).pc.locking = false) : Stays p s t := by
  intro q hq hlock
  obtain ⟨e, he, -, -, hothers⟩ := step_spec h
  have hne : q ≠ l.1 := by
    rintro rfl
    rcases hl with hp | hfree
    · exact hq hp
    · rw [hlock] at hfree
      cases hfree
  rw [hothers q hne, (he.kept _).locking, hlock]

theorem released {s : State P} (hs : Owned s) (hw : s.word = futexLock) :
    ∃ t, Leads (lockSystem P) owed s t ∧ t.word = futexUnlock ∧
      ∀ q, (s.proc q).pc.locking = true → (t.proc q).pc.locking = true := by
  obtain ⟨p, hp⟩ : ∃ p, (s.proc p).holds = true := by
    rcases hs.held with hfree | ⟨-, h⟩
    · simp [hw] at hfree
    · exact h
  have stored {s : State P} (hs : Owned s) {v : ℕ} (hpc : (s.proc p).pc = .wake .unlock (.store v)) :
      ∃ t, Leads (lockSystem P) owed s t ∧ t.word = futexUnlock ∧ Stays p s t := by
    have hv : v = futexUnlock := by
      simpa [Call.entry, udoFutexUnlock, eq_comm] using (hs.guarded.called p _ _ hpc).2 v rfl
    obtain ⟨t, ht, hword, -⟩ := exists_step (Process.step_store hpc s.word)
    exact ⟨t, .single (p, .tick .plain) trivial ht, hword.trans hv, stays_step ht (.inl rfl)⟩
  have outside (hpc : (s.proc p).pc.locking = false) {t : State P} (h : Stays p s t) (q : P)
      (hq : (s.proc q).pc.locking = true) : (t.proc q).pc.locking = true := by
    refine h q ?_ hq
    rintro rfl
    rw [hpc] at hq
    cases hq
  rcases hs.free p hp with hidle | ⟨v, hstore⟩
  · obtain ⟨t, ht, -, hself, -⟩ := exists_step (Process.step_call hidle .unlock s.word)
    have hcall : Leads (lockSystem P) owed s t := .single (p, .call .unlock) hp ht
    obtain ⟨u, htu, hu, hstays⟩ := stored (hs.leads hcall) (v := futexUnlock) (by rw [hself]; rfl)
    exact ⟨u, hcall.trans htu, hu, outside (by rw [hidle]; rfl) ((stays_step ht (.inl rfl)).trans hstays)⟩
  · obtain ⟨t, ht, hword, hstays⟩ := stored hs hstore
    exact ⟨t, ht, hword, outside (by rw [hstore]; rfl) hstays⟩

theorem woken {s : State P} (hs : Owned s) (hw : s.word = futexUnlock) {p : P}
    (hp : (s.proc p).pc.locking = true) :
    ∃ t, Leads (lockSystem P) owed s t ∧ t.word = futexUnlock ∧ Stays p s t ∧
      ∃ pc, (t.proc p).pc = .lock pc ∧ pc ≠ .asleep := by
  obtain ⟨pc, hpc⟩ : ∃ pc, (s.proc p).pc = .lock pc := by
    cases h : (s.proc p).pc with
    | lock pc => exact ⟨pc, rfl⟩
    | _ => rw [h] at hp; cases hp
  by_cases hsleep : pc = .asleep
  · subst hsleep
    obtain ⟨q, hq⟩ := hs.watched.waking p hp (.inl ⟨hpc, by simp [hw]⟩)
    obtain ⟨c, hc⟩ := Pc.waking_iff.mp hq
    have hne : p ≠ q := by
      rintro rfl
      rw [hpc] at hc
      cases hc
    obtain ⟨t, ht, hword, -, hothers⟩ := exists_step (Process.step_wake hc s.word)
    refine ⟨t, .single (q, .tick .plain) trivial ht, hword.trans hw, ?_, .block, ?_, by simp⟩
    · exact stays_step ht (.inr (by simp only [hc]; rfl))
    · rw [hothers p hne]
      simp [Process.wakeUp, hpc, Pc.wakeUp, LockPc.wakeUp]
  · exact ⟨s, .refl s, hw, fun _ _ h => h, pc, hpc, hsleep⟩

def LockPc.toGo : LockPc → ℕ
  | .spin _ | .block => 0
  | .kernelWait => 1
  | .blockCheck => 2
  | .spinCheck _ => 1
  | .asleep => 0

def Pc.toGo : Pc → ℕ
  | .lock pc => pc.toGo
  | _ => 0

theorem udoFutexLock_free {pc : LockPc} (hpc : pc ≠ .asleep) (errno : Errno) :
    udoFutexLock .plain pc futexUnlock errno = some (.acquired, futexLock, errno) ∨
      ∃ pc' errno', udoFutexLock .plain pc futexUnlock errno = some (.running pc', futexUnlock, errno') ∧
        pc' ≠ .asleep ∧ pc'.toGo < pc.toGo := by
  cases pc with
  | spin i | block => exact .inl (by simp [udoFutexLock])
  | asleep => exact absurd rfl hpc
  | spinCheck i =>
    by_cases hi : i + 1 < contentionLoopCnt
    · exact .inr ⟨.spin (i + 1), errno, by simp [udoFutexLock, pIsFutexFunlock, hi], by simp, Nat.one_pos⟩
    · exact .inr ⟨.block, errno, by simp [udoFutexLock, pIsFutexFunlock, hi], by simp, Nat.one_pos⟩
  | blockCheck =>
    exact .inr ⟨.kernelWait, errno, by simp [udoFutexLock, pIsFutexFunlock], by simp, Nat.one_lt_two⟩
  | kernelWait => exact .inr ⟨.block, eagain, by simp [udoFutexLock], by simp, Nat.one_pos⟩

theorem taken {s : State P} {p : P} (hw : s.word = futexUnlock) {pc : LockPc} (hpc : (s.proc p).pc = .lock pc)
    (hawake : pc ≠ .asleep) :
    ∃ t, Leads (lockSystem P) owed s t ∧ (t.proc p).holds = true ∧ Stays p s t := by
  have go := @leads_of_measure _ _ (lockSystem P) owed
    (fun u => u.word = futexUnlock ∧ Stays p s u ∧ ∃ pc, (u.proc p).pc = .lock pc ∧ pc ≠ .asleep)
    (fun u => (u.proc p).holds = true ∧ Stays p s u)
    (fun u => (u.proc p).pc.toGo) ?_ s
    ⟨hw, fun _ _ h => h, pc, hpc, hawake⟩
  · obtain ⟨t, ht, hp, hstays⟩ := go
    exact ⟨t, ht, hp, hstays⟩
  rintro u ⟨hfree, hstays, pc, hpc, hawake⟩
  rcases udoFutexLock_free hawake (u.proc p).errno with hout | ⟨pc', errno', hout, hawake', hlt⟩
  · obtain ⟨t, ht, -, hself, -⟩ := exists_step (s := u) (p := p) (a := .tick .plain)
      (by simp only [Process.step, hpc, hfree, hout]; rfl)
    exact ⟨(p, .tick .plain), t, trivial, ht, .inl ⟨by rw [hself], hstays.trans (stays_step ht (.inl rfl))⟩⟩
  · obtain ⟨t, ht, hword, hself, -⟩ := exists_step (s := u) (p := p) (a := .tick .plain)
      (by simp only [Process.step, hpc, hfree, hout]; rfl)
    refine ⟨(p, .tick .plain), t, trivial, ht,
      .inr ⟨⟨hword, hstays.trans (stays_step ht (.inl rfl)), pc', ?_, hawake'⟩, ?_⟩⟩
    · rw [hself]
    · simpa [hself, hpc, Pc.toGo] using hlt

def Queued (ps : List P) (s : State P) : Prop := ps.Nodup ∧ Owned s ∧ ∀ p ∈ ps, (s.proc p).pc.locking = true

theorem queued_next (p : P) (ps : List P) (s : State P) (h : Queued (p :: ps) s) :
    ∃ t, Leads (lockSystem P) owed s t ∧ (t.proc p).holds = true ∧ Queued ps t := by
  obtain ⟨hnodup, hs, hlock⟩ := h
  obtain ⟨hp, hps⟩ := List.nodup_cons.mp hnodup
  obtain ⟨a, hsa, hwa, hstays⟩ : ∃ a, Leads (lockSystem P) owed s a ∧ a.word = futexUnlock ∧
      ∀ q, (s.proc q).pc.locking = true → (a.proc q).pc.locking = true := by
    rcases hs.held with hfree | ⟨hlocked, -⟩
    · exact ⟨s, .refl s, hfree, fun _ h => h⟩
    · exact released hs hlocked
  obtain ⟨b, hab, hwb, hstaysb, pc, hpc, hawake⟩ :=
    woken (hs.leads hsa) hwa (hstays p (hlock p List.mem_cons_self))
  obtain ⟨t, hbt, hholds, hstayst⟩ := taken hwb hpc hawake
  have hst := hsa.trans (hab.trans hbt)
  refine ⟨t, hst, hholds, hps, hs.leads hst, ?_⟩
  intro q hq
  have hne : q ≠ p := fun h => hp (h ▸ hq)
  exact (hstaysb.trans hstayst) q hne (hstays q (hlock q (List.mem_cons_of_mem _ hq)))

theorem lock_granted_in_turn {s : State P} (h : Reach (lockSystem P) bracketed s) {ps : List P}
    (hps : ps.Nodup) (hlock : ∀ p ∈ ps, (s.proc p).pc.locking = true) :
    InTurn (lockSystem P) owed (fun p t => (t.proc p).holds = true) ps s :=
  inTurn_of_next (I := Queued) queued_next ⟨hps, owned_reach h, hlock⟩

theorem lock_granted_in_turn_created : ∃ s : State (Fin 3), (s.proc 0).pc = .idle ∧
    (s.proc 1).pc = .lock (.spinCheck 0) ∧ (s.proc 2).pc = .lock (.spin 0) ∧
    InTurn (lockSystem (Fin 3)) owed (fun p t => (t.proc p).holds = true) [2, 1] s := by
  obtain ⟨s, hs, h0, h1, h2⟩ := exists_of_run (lockSystem (Fin 3)) bracketed (.init (.inr ⟨0, rfl⟩))
    [(1, .call .lock), (2, .call .lock), (1, .tick .plain)]
    (fun s => (s.proc 0).pc = .idle ∧ (s.proc 1).pc = .lock (.spinCheck 0) ∧ (s.proc 2).pc = .lock (.spin 0))
    (by decide)
  refine ⟨s, h0, h1, h2, lock_granted_in_turn hs (by decide) ?_⟩
  simp [h1, h2, Pc.locking]

structure Orphaned (word : ℕ) (s : State P) : Prop where
  word : s.word = word
  free : ∀ p, (s.proc p).holds = false
  quiet : ∀ p c w, (s.proc p).pc ≠ .wake c w

theorem Orphaned.step {word : ℕ} (hw : word ≠ futexUnlock) {s t : State P} {l : P × Act} (hs : Orphaned word s)
    (hok : bracketed l s) (h : step l s = some t) : Orphaned word t := by
  obtain ⟨p, act⟩ := l
  have quiet (q : P) : ∀ c w, (t.proc q).pc ≠ .wake c w := by
    refine forall_step (Q := fun x => ∀ c w, x.pc ≠ .wake c w) ?_ hs.quiet h ?_ q
    · intro x y hk hx c w hy
      exact hx c w ((hk.wake c w).mp hy)
    · intro e he c w hpc
      cases he with
      | call c' hidle =>
        obtain rfl := Call.entry_eq hpc
        have := hs.free p
        cases c <;> simp_all [bracketed, Call.entry]
      | wait turn desired pc pc' errno hwait hpc' => rcases hpc' with rfl | ⟨pc'', rfl⟩ <;> cases hpc
      | store turn c' value hstore => exact hs.quiet p _ _ hstore
      | _ => cases hpc
  obtain ⟨e, he, hword, hself, hothers⟩ := step_spec h
  have same (he' : e.word = s.word) (hh : e.self.holds = (s.proc p).holds) : Orphaned word t := by
    refine ⟨hword.trans (he'.trans hs.word), ?_, quiet⟩
    intro q
    by_cases hqp : q = p
    · rw [hqp, hself, hh, hs.free]
    · rw [hothers q hqp, (he.kept _).holds, hs.free]
  cases he with
  | acquire turn pc errno hlock hfree => exact absurd (hs.word.symm.trans hfree) hw
  | store turn c value hstore => exact absurd hstore (hs.quiet p _ _)
  | wake turn c hwake => exact absurd hwake (hs.quiet p _ _)
  | _ => exact same rfl rfl

theorem lock_unreleased {word : ℕ} (hw : word ≠ futexUnlock) {s : State P}
    (h : Reach ⟨fun s => s = initial word, step⟩ bracketed s) (p : P) : (s.proc p).holds = false := by
  have orphaned : Orphaned word s := by
    apply h.invariant
    · rintro s rfl
      exact ⟨rfl, fun _ => rfl, by simp [initial]⟩
    · intro s t l hs hok hstep
      exact hs.step hw hok hstep
  exact orphaned.free p

end Libcando.Futex
