import Libcando.FutexSystem

namespace Libcando.Futex

open Transition

namespace Pc

def awaited : Pc → Option ℕ
  | .wait desired (.asleep _) => some desired
  | _ => none

def waking : Pc → Bool
  | .wake _ .wake => true
  | _ => false

def Overdue (word : ℕ) (pc : Pc) : Prop := pc = .lock .asleep ∧ word ≠ futexLock ∨ pc.awaited = some word

def Fresh : Pc → Prop
  | .wait desired pc => pc.Fresh desired
  | _ => True

theorem fresh_wakeUp {pc : Pc} (h : pc.Fresh) : pc.wakeUp.Fresh := by
  cases pc with
  | wait desired pc =>
    cases pc with
    | asleep v => trivial
    | _ => exact h
  | _ => trivial

theorem not_overdue_wakeUp (word : ℕ) (pc : Pc) : ¬pc.wakeUp.Overdue word := by
  cases pc with
  | lock pc => cases pc <;> simp [Overdue, wakeUp, LockPc.wakeUp, awaited]
  | wait desired pc => cases pc <;> simp [Overdue, wakeUp, WaitPc.wakeUp, awaited]
  | _ => simp [Overdue, wakeUp, awaited]

theorem waking_iff {pc : Pc} : pc.waking = true ↔ ∃ c, pc = .wake c .wake := by
  cases pc with
  | wake c w => cases w <;> simp [waking]
  | _ => simp [waking]

end Pc

section Step

variable {x : Process} {word : ℕ} {act : Act} {e : Effect}

theorem Process.Step.others_pc (h : x.Step word act e) (y : Process) :
    (e.others y).pc = y.pc ∨ (e.others y).pc = y.pc.wakeUp := by
  cases h with
  | store turn c value hstore =>
    dsimp only
    split_ifs <;> exact .inl rfl
  | wake turn c hwake => exact .inr rfl
  | _ => exact .inl rfl

theorem Process.step_self (hx : x.pc.Fresh) (h : x.step act word = some e) :
    e.self.pc.Fresh ∧ ¬e.self.pc.Overdue e.word := by
  unfold Process.step at h
  split at h
  · cases h
    rename_i c _
    cases c <;> simp [Call.entry, Pc.Fresh, Pc.Overdue, Pc.awaited, WaitPc.Fresh, WaitPc.entry, LockPc.entry]
  · rename_i turn pc hpc
    obtain ⟨⟨out, word', errno'⟩, hout, rfl⟩ := Option.map_eq_some_iff.mp h
    cases out with
    | running pc' =>
      refine ⟨trivial, ?_⟩
      rintro (⟨hsleep, hw⟩ | hsleep)
      · cases hsleep
        obtain ⟨hword, hsame⟩ := udoFutexLock_asleep hout
        exact hw (hsame.trans hword)
      · cases hsleep
    | acquired | interrupted => simp [Pc.Fresh, Pc.Overdue, Pc.awaited]
  · rename_i turn desired pc hpc
    rw [hpc] at hx
    obtain ⟨⟨out, errno'⟩, hout, rfl⟩ := Option.map_eq_some_iff.mp h
    cases out with
    | running pc' =>
      obtain ⟨hfresh, hsleep⟩ := udoFutexWait_fresh hx hout
      refine ⟨hfresh, ?_⟩
      cases pc' with
      | asleep v => simpa [Pc.Overdue, Pc.awaited] using fun h => hsleep v rfl h.symm
      | _ => simp [Pc.Overdue, Pc.awaited]
    | met | interrupted => simp [Pc.Fresh, Pc.Overdue, Pc.awaited]
  · cases h; simp [Pc.Fresh, Pc.Overdue, Pc.awaited]
  · cases h; simp [Pc.Fresh, Pc.Overdue, Pc.awaited]
  · cases h

theorem Process.Step.overdue_others (h : x.Step word act e) (y : Process)
    (hy : (e.others y).pc.Overdue e.word) :
    e.self.pc.waking = true ∨ x.pc.waking = false ∧ (e.others y).pc = y.pc ∧
      (y.pc.Overdue word ∨ (∃ turn pc, act = .tick turn ∧ x.pc = .lock pc) ∧ word = futexUnlock ∧
        e.word = futexLock ∧ y.pc.awaited = some futexLock) := by
  cases h with
  | call c hidle => exact .inr ⟨by rw [hidle]; rfl, rfl, .inl hy⟩
  | acquire turn pc errno hlock hfree =>
    refine .inr ⟨by rw [hlock]; rfl, rfl, .inr ⟨⟨turn, pc, rfl, hlock⟩, hfree, rfl, ?_⟩⟩
    exact hy.resolve_left fun hsleep => hsleep.2 rfl
  | interrupt turn pc hlock hforce => exact .inr ⟨by rw [hlock]; rfl, rfl, .inl hy⟩
  | spin turn pc pc' errno hlock => exact .inr ⟨by rw [hlock]; rfl, rfl, .inl hy⟩
  | wait turn desired pc pc' errno hwait hpc' => exact .inr ⟨by rw [hwait]; rfl, rfl, .inl hy⟩
  | store turn c value hstore => exact .inl rfl
  | wake turn c hwake => exact absurd hy (Pc.not_overdue_wakeUp _ _)

theorem Process.step_lock {turn : Turn} {pc : LockPc} (hpc : x.pc = .lock pc)
    (h : x.step (.tick turn) word = some e) :
    ∃ out errno', udoFutexLock turn pc word x.errno = some (out, e.word, errno') := by
  simp only [Process.step, hpc] at h
  obtain ⟨⟨out, word', errno'⟩, hout, rfl⟩ := Option.map_eq_some_iff.mp h
  refine ⟨out, errno', ?_⟩
  cases out <;> exact hout

end Step

def State.Waking (s : State P) : Prop := ∃ p, (s.proc p).pc.waking = true

structure Watched (Q : Pc → Prop) (s : State P) : Prop where
  fresh : ∀ p, (s.proc p).pc.Fresh
  waking : ∀ p, Q (s.proc p).pc → (s.proc p).pc.Overdue s.word → s.Waking

theorem watched_initial (Q : Pc → Prop) (word : ℕ) : Watched Q (initial word : State P) := by
  constructor
  · intro p; trivial
  · intro p _ hp; simp [initial, Pc.Overdue, Pc.awaited] at hp

def takes (l : P × Act) (s : State P) : Bool :=
  match l.2, (s.proc l.1).pc with
  | .tick turn, .lock pc => pc.takes turn s.word
  | _, _ => false

/-- The lock is not taken while a process sleeps until it sees the word locked, unless a wake-up is on its
way. -/
def announced (l : P × Act) (s : State P) : Prop :=
  takes l s = true → (∃ p, (s.proc p).pc.awaited = some futexLock) → s.Waking

instance [Fintype P] (s : State P) : Decidable s.Waking :=
  inferInstanceAs (Decidable (∃ p, (s.proc p).pc.waking = true))

instance [Fintype P] (l : P × Act) (s : State P) : Decidable (announced l s) :=
  inferInstanceAs (Decidable (_ → _ → _))

theorem announced_of_not_takes {l : P × Act} {s : State P} (h : takes l s = false) : announced l s := by
  intro htake
  rw [h] at htake
  cases htake

variable [DecidableEq P]

theorem takes_iff {s t : State P} {l : P × Act} (h : step l s = some t) :
    takes l s = true ↔ (∃ turn pc, l.2 = .tick turn ∧ (s.proc l.1).pc = .lock pc) ∧ s.word = futexUnlock ∧
      t.word = futexLock := by
  obtain ⟨p, act⟩ := l
  obtain ⟨e, he, rfl⟩ := Option.map_eq_some_iff.mp h
  cases act with
  | call c => simp [takes]
  | tick turn =>
    cases hpc : (s.proc p).pc with
    | lock pc =>
      obtain ⟨out, errno', hout⟩ := Process.step_lock hpc he
      simpa [takes, hpc] using udoFutexLock_takes hout
    | _ => simp [takes, hpc]

theorem fresh_step {s t : State P} {l : P × Act} (hs : ∀ p, (s.proc p).pc.Fresh) (h : step l s = some t)
    (p : P) : (t.proc p).pc.Fresh := by
  obtain ⟨e, he, rfl⟩ := Option.map_eq_some_iff.mp h
  by_cases hp : p = l.1
  · simpa [hp] using (Process.step_self (hs l.1) he).1
  · rcases (Process.step_cases he).others_pc (s.proc p) with hpc | hpc
    · simpa [hp, hpc] using hs p
    · simpa [hp, hpc] using Pc.fresh_wakeUp (hs p)

theorem waking_step {s t : State P} {l : P × Act} (hl : (s.proc l.1).pc.waking = false) (hs : s.Waking)
    (h : step l s = some t) : t.Waking := by
  obtain ⟨e, he, -, -, hothers⟩ := step_spec h
  obtain ⟨p, hp⟩ := hs
  have hne : p ≠ l.1 := by
    rintro rfl
    rw [hl] at hp
    cases hp
  obtain ⟨c, hc⟩ := Pc.waking_iff.mp hp
  refine ⟨p, Pc.waking_iff.mpr ⟨c, ?_⟩⟩
  rw [hothers p hne]
  exact ((he.kept _).wake c .wake).mpr hc

theorem watched_step {Q : Pc → Prop} {s t : State P} {l : P × Act} (hs : Watched Q s)
    (hok : takes l s = true → ∀ p, Q (s.proc p).pc → (s.proc p).pc.awaited = some futexLock → s.Waking)
    (h : step l s = some t) : Watched Q t := by
  refine ⟨fresh_step hs.fresh h, ?_⟩
  intro p hq hp
  obtain ⟨e, he, hw, hself, hothers⟩ := step_spec h
  by_cases hpl : p = l.1
  · obtain ⟨e', he', rfl⟩ := Option.map_eq_some_iff.mp h
    subst hpl
    simp only [↓reduceIte] at hp
    exact absurd hp (Process.step_self (hs.fresh _) he').2
  · rw [hothers p hpl] at hq hp
    rw [hw] at hp
    rcases he.overdue_others _ hp with hwake | ⟨hidle, hpc, hcase⟩
    · exact ⟨l.1, hself ▸ hwake⟩
    rw [hpc] at hq
    rcases hcase with hover | ⟨hlock, hfree, hlocked, hsleep⟩
    · exact waking_step hidle (hs.waking p hq hover) h
    · have htake := (takes_iff h).mpr ⟨hlock, hfree, hw.trans hlocked⟩
      exact waking_step hidle (hok htake p hq hsleep) h

theorem watched_reach {ok : P × Act → State P → Prop} {Q : Pc → Prop}
    (hok : ∀ l s, ok l s → takes l s = true →
      ∀ p, Q (s.proc p).pc → (s.proc p).pc.awaited = some futexLock → s.Waking)
    {s : State P} (h : Reach (system P) ok s) : Watched Q s := by
  apply h.invariant
  · rintro s ⟨word, rfl⟩
    exact watched_initial Q word
  · intro s t l hs hl hstep
    exact watched_step hs (hok l s hl) hstep

def State.goto (s : State P) (p : P) (pc : Pc) : State P :=
  ⟨s.word, fun q => if q = p then { s.proc p with pc } else s.proc q⟩

@[simp] theorem goto_word (s : State P) (p : P) (pc : Pc) : (s.goto p pc).word = s.word := rfl

@[simp] theorem goto_self (s : State P) (p : P) (pc : Pc) :
    (s.goto p pc).proc p = { s.proc p with pc } := if_pos rfl

section FallAsleep

variable {ok : P × Act → State P → Prop} {s : State P} {p : P}

theorem goto_step (act : Act) {pc pc' : Pc}
    (hstep : Process.step act { s.proc p with pc } s.word = some ⟨s.word, { s.proc p with pc := pc' }, id⟩) :
    step (p, act) (s.goto p pc) = some (s.goto p pc') := by
  have hself : Process.step act ((s.goto p pc).proc p) (s.goto p pc).word = _ := (goto_self s p pc).symm ▸ hstep
  rw [step, hself]
  simp only [Option.map_some, State.goto, id]
  congr 2
  funext q
  split_ifs <;> rfl

theorem goto_spin (spin check : ℕ → Pc)
    (hcheck : ∀ i, Reach (system P) ok (s.goto p (spin i)) → Reach (system P) ok (s.goto p (check i)))
    (hspin : ∀ i, i + 1 < contentionLoopCnt → Reach (system P) ok (s.goto p (check i)) →
      Reach (system P) ok (s.goto p (spin (i + 1))))
    (h : Reach (system P) ok (s.goto p (spin 0))) :
    Reach (system P) ok (s.goto p (check (contentionLoopCnt - 1))) := by
  have spun (i : ℕ) (hi : i < contentionLoopCnt) : Reach (system P) ok (s.goto p (check i)) := by
    induction i with
    | zero => exact hcheck 0 h
    | succ i ih => exact hcheck _ (hspin i hi (ih (by omega)))
  exact spun _ (by decide)

theorem goto_idle (hpc : (s.proc p).pc = .idle) : s.goto p .idle = s := by
  cases s
  simp only [State.goto]
  congr
  funext q
  split_ifs with hq
  · subst hq; rw [← hpc]
  · rfl

theorem lock_falls_asleep (hok : ∀ act s, takes (p, act) s = false → ok (p, act) s) (h : Reach (system P) ok s)
    (hpc : (s.proc p).pc = .idle) (hw : s.word = futexLock) :
    Reach (system P) ok (s.goto p (.lock .asleep)) := by
  have tick {pc pc' : LockPc} (hstep : ∀ errno, udoFutexLock .plain pc s.word errno =
      some (.running pc', s.word, errno)) (h : Reach (system P) ok (s.goto p (.lock pc))) :
      Reach (system P) ok (s.goto p (.lock pc')) :=
    h.step (hok _ _ (by cases pc <;> simp [takes, hw, LockPc.takes]))
      (goto_step (.tick .plain) (by simp [Process.step, hstep]))
  have idle : Reach (system P) ok (s.goto p .idle) := by rwa [goto_idle hpc]
  have entry : Reach (system P) ok (s.goto p (.lock (.spin 0))) :=
    idle.step (hok _ _ rfl) (goto_step (.call .lock) rfl)
  have spun : Reach (system P) ok (s.goto p (.lock (.spinCheck (contentionLoopCnt - 1)))) :=
    goto_spin (fun i => .lock (.spin i)) (fun i => .lock (.spinCheck i))
      (fun i => tick (by simp [udoFutexLock, hw])) (fun i hi => tick (by simp [udoFutexLock, hw, hi])) entry
  have block : Reach (system P) ok (s.goto p (.lock .block)) :=
    tick (by simp [udoFutexLock, hw, contentionLoopCnt]) spun
  have blockCheck : Reach (system P) ok (s.goto p (.lock .blockCheck)) := tick (by simp [udoFutexLock, hw]) block
  have kernelWait : Reach (system P) ok (s.goto p (.lock .kernelWait)) := tick (by simp [udoFutexLock, hw]) blockCheck
  exact tick (by simp [udoFutexLock, hw]) kernelWait

theorem wait_falls_asleep (desired : ℕ) (hok : ∀ act s, takes (p, act) s = false → ok (p, act) s)
    (h : Reach (system P) ok s) (hpc : (s.proc p).pc = .idle) (hw : s.word ≠ desired) (hf : s.word ≠ futexUnlockForce) :
    Reach (system P) ok (s.goto p (.wait desired (.asleep s.word))) := by
  have tick {pc pc' : WaitPc} (hstep : ∀ errno, udoFutexWait .plain desired pc s.word errno =
      some (.running pc', errno)) (h : Reach (system P) ok (s.goto p (.wait desired pc))) :
      Reach (system P) ok (s.goto p (.wait desired pc')) :=
    h.step (hok _ _ (by simp [takes])) (goto_step (.tick .plain) (by simp [Process.step, hstep]))
  have unforced : pIsFutexFunlock s.word = false := by simpa [pIsFutexFunlock] using hf
  have idle : Reach (system P) ok (s.goto p .idle) := by rwa [goto_idle hpc]
  have entry : Reach (system P) ok (s.goto p (.wait desired (.spin 0))) :=
    idle.step (hok _ _ rfl) (goto_step (.call (.wait desired)) rfl)
  have spun : Reach (system P) ok (s.goto p (.wait desired (.spinCheck (contentionLoopCnt - 1)))) :=
    goto_spin (fun i => .wait desired (.spin i)) (fun i => .wait desired (.spinCheck i))
      (fun i => tick (by simp [udoFutexWait, hw]))
      (fun i hi => tick (by simp [udoFutexWait, unforced, hi])) entry
  have block : Reach (system P) ok (s.goto p (.wait desired .block)) :=
    tick (by simp [udoFutexWait, unforced, contentionLoopCnt]) spun
  have blockCheck : Reach (system P) ok (s.goto p (.wait desired (.blockCheck s.word))) :=
    tick (by simp [udoFutexWait, hw]) block
  have kernelWait : Reach (system P) ok (s.goto p (.wait desired (.kernelWait s.word))) :=
    tick (by simp [udoFutexWait, unforced]) blockCheck
  exact tick (by simp [udoFutexWait]) kernelWait

end FallAsleep

theorem lock_sleeper_woken {s : State P} (h : Reach (system P) (fun _ _ => True) s) {p : P}
    (hp : (s.proc p).pc = .lock .asleep) (hw : s.word ≠ futexLock) : s.Waking := by
  have watched : Watched (fun pc => pc.locking = true) s := by
    apply watched_reach ?_ h
    intro l s _ _ p hlock hsleep
    cases hpc : (s.proc p).pc <;> simp_all [Pc.locking, Pc.awaited]
  exact watched.waking p (by rw [hp]; rfl) (.inl ⟨hp, hw⟩)

theorem lock_sleeper_woken_unlock : ∃ s : State (Fin 2),
    (s.proc 0).pc = .lock .asleep ∧ s.word = futexUnlock ∧ s.Waking := by
  obtain ⟨s, hs, hp, hw⟩ := exists_of_run (system (Fin 2)) (fun _ _ => True)
    (lock_falls_asleep (s := initial 1) (p := 0) (fun _ _ _ => trivial) (.init ⟨1, rfl⟩) rfl rfl)
    [(1, .call .unlock), (1, .tick .plain)]
    (fun s => (s.proc 0).pc = .lock .asleep ∧ s.word = futexUnlock) (by decide)
  exact ⟨s, hp, hw, lock_sleeper_woken hs hp (by simp [hw])⟩

def State.Lost (s : State P) : Prop := (∃ p, (s.proc p).pc.awaited = some s.word) ∧ ¬s.Waking

instance [Fintype P] (s : State P) : Decidable s.Lost :=
  inferInstanceAs (Decidable (_ ∧ _))

theorem not_lost_reach {s : State P} (h : Reach (system P) announced s) : ¬s.Lost := by
  rintro ⟨⟨p, hp⟩, hidle⟩
  have watched : Watched (fun _ => True) s :=
    watched_reach (fun l s hl htake p _ hsleep => hl htake ⟨p, hsleep⟩) h
  exact hidle (watched.waking p trivial (.inr hp))

theorem lost_of_take {s t : State P} {l : P × Act} (h : step l s = some t) (hl : ¬announced l s) : t.Lost := by
  simp only [announced, Classical.not_imp] at hl
  obtain ⟨htake, ⟨q, hq⟩, hidle⟩ := hl
  obtain ⟨⟨turn, pc, hact, hpc⟩, hfree, hlocked⟩ := (takes_iff h).mp htake
  obtain ⟨p, act⟩ := l
  obtain ⟨e, he, hw, hself, hothers⟩ := step_spec h
  cases hact
  have same : e.others = id ∧ e.self.pc.waking = false := by
    cases he with
    | wake turn c hwake | store turn c value hstore => simp_all
    | wait turn desired pc pc' errno hwait hpc' => simp_all
    | _ => exact ⟨rfl, rfl⟩
  have hne : q ≠ p := by
    rintro rfl
    simp [hpc, Pc.awaited] at hq
  refine ⟨⟨q, ?_⟩, ?_⟩
  · rw [hothers q hne, same.1, hlocked]
    exact hq
  · rintro ⟨r, hr⟩
    by_cases hrp : r = p
    · rw [hrp, hself, same.2] at hr
      cases hr
    · rw [hothers r hrp, same.1] at hr
      exact hidle ⟨r, hr⟩

theorem wait_sleeper_woken_iff {s : State P} (h : Reach (system P) announced s) :
    ¬s.Lost ∧ ∀ l t, step l s = some t → (¬t.Lost ↔ announced l s) := by
  refine ⟨not_lost_reach h, ?_⟩
  intro l t hstep
  constructor
  · intro hlost
    by_contra hl
    exact hlost (lost_of_take hstep hl)
  · intro hl
    exact not_lost_reach (.step h hl hstep)

theorem wait_sleeper_woken_iff_wake : ∃ s : State (Fin 2),
    (s.proc 0).pc = .wait 1 (.asleep 0) ∧ s.word = 1 ∧ ¬s.Lost ∧
      ∀ l t, step l s = some t → (¬t.Lost ↔ announced l s) := by
  obtain ⟨s, hs, hp, hw⟩ := exists_of_run (system (Fin 2)) announced
    (wait_falls_asleep (s := initial 0) (p := 0) 1 (fun _ _ => announced_of_not_takes) (.init ⟨0, rfl⟩) rfl
      (by decide) (by decide))
    [(1, .call (.wake 1)), (1, .tick .plain)]
    (fun s => (s.proc 0).pc = .wait 1 (.asleep 0) ∧ s.word = 1) (by decide)
  exact ⟨s, hp, hw, wait_sleeper_woken_iff hs⟩

theorem wait_sleeper_lost : ¬∀ s : State (Fin 2), Reach (system (Fin 2)) (fun _ _ => True) s → ¬s.Lost := by
  intro woken
  obtain ⟨s, hs, hlost⟩ := exists_of_run (system (Fin 2)) (fun _ _ => True)
    (wait_falls_asleep (s := initial 0) (p := 0) 1 (fun _ _ _ => trivial) (.init ⟨0, rfl⟩) rfl
      (by decide) (by decide))
    [(1, .call .lock), (1, .tick .plain)] (fun s => s.Lost) (by decide)
  exact woken s hs hlost

end Libcando.Futex
