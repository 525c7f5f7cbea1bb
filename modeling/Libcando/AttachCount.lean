import Libcando.ShmCounting

namespace Libcando.Shm.World

open ByteMemory Futex Transition

variable {P : Type*}

def uniform (n : ℕ) (l : P × Act) (_ : World P) : Prop :=
  match l.2 with
  | .create (some info) => info.procCount = n
  | _ => True

instance (n : ℕ) : ∀ (l : P × Act) (w : World P), Decidable (uniform n l w)
  | (_, .create (some info)), _ => inferInstanceAs (Decidable (info.procCount = n))
  | (_, .create none), _ | (_, .transfer _ _ _ _), _ | (_, .destroy), _ | (_, .tick _), _ | (_, .fail), _ =>
    inferInstanceAs (Decidable True)

def roomy (n : ℕ) (l : P × Act) (w : World P) : Prop :=
  uniform n l w ∧ ((w.ctx l.1).creating .loadCount = true ∨ (w.ctx l.1).creating .addCount = true →
    w.count l.1 < (w.ctx l.1).info.procCount)

instance (n : ℕ) (l : P × Act) (w : World P) : Decidable (roomy n l w) :=
  inferInstanceAs (Decidable (_ ∧ (_ → _)))

variable [Fintype P]

structure CountExact (n : ℕ) (w : World P) : Prop where
  exact : ∀ o, load (w.objs o).mem 0 4 = w.attachedTo o
  bounded : ∀ o, w.attachedTo o ≤ n
  detaching : ∀ p, (w.ctx p).pc = .destroy .subCount → (w.ctx p).counted = true

variable [DecidableEq P]

theorem counting_step {n : ℕ} {w w' : World P} {l : P × Act}
    (hw : w.Counting (fun info => info.Accepted ∧ info.procCount = n) (min n 15))
    (hok : roomy n l w) (h : step l w = some w') :
    w'.Counting (fun info => info.Accepted ∧ info.procCount = n) (min n 15) := by
  obtain ⟨p, act⟩ := l
  obtain ⟨huniform, hroom⟩ := hok
  apply hw.step (step_cases h) (by omega) (fun hpc _ => hw.uncut (fun _ hi => hi.1) (by omega) hpc)
    (fun _ hi => hi.1)
  · rintro info rfl hi
    exact ⟨hi, huniform⟩
  · intro hpc
    exact hroom (.inl (by simp [Context.creating, hpc]))
  · intro hpc
    have hlt := hroom (.inr (by simp [Context.creating, hpc]))
    have hwf := hw.wf p
    rw [Context.WF, hpc] at hwf
    obtain ⟨⟨hacc, hn⟩, -⟩ := hwf
    have := hacc.count_lt
    simp only at hlt
    omega

theorem attach_count_exact {n : ℕ} {w : World P} (h : Reach (system P) (roomy n) w) : w.CountExact n := by
  have hw : w.Counting (fun info => info.Accepted ∧ info.procCount = n) (min n 15) := by
    apply h.invariant
    · rintro s rfl
      exact counting_initial
    · intro s t l hs hok hstep
      exact counting_step hs hok hstep
  constructor
  · exact hw.exact
  · intro o
    exact (hw.bounded o).trans (min_le_left _ _)
  · exact hw.detaching

def onePage (procCount : ℕ) : ShmCreateInfo := ⟨[0x2F, 0x6B], 4096, procCount, by decide⟩

theorem attach_count_exact_two : ∃ w : World (Fin 2),
    (w.ctx 0).counted = true ∧ (w.ctx 1).counted = true ∧ w.CountExact 2 := by
  obtain ⟨w, hw, hq⟩ := exists_of_run (system (Fin 2)) (roomy 2) (.init rfl)
    ((0, .create (onePage 2)) :: (1, .create (onePage 2)) :: List.replicate 5 (0, .tick .plain) ++
      List.replicate 5 (1, .tick .plain))
    (fun w => (w.ctx 0).counted = true ∧ (w.ctx 1).counted = true) (by decide)
  exact ⟨w, hq.1, hq.2, attach_count_exact hw⟩

theorem attach_count_lost : ¬ ∀ (n : ℕ) (w : World (Fin 2)), Reach (system (Fin 2)) (uniform n) w →
    w.CountExact n := by
  intro counted
  obtain ⟨w, hw, hcount, hp⟩ := exists_of_run (system (Fin 2)) (uniform 1) (.init rfl)
    ((0, .create (onePage 1)) :: (1, .create (onePage 1)) :: List.replicate 5 (0, .tick .plain) ++
      List.replicate 5 (1, .tick .plain))
    (fun w => w.count 0 = 0 ∧ (w.ctx 0).counted = true) (by decide)
  have hpos := attachedTo_pos hp
  have := (counted 1 w hw).exact (w.ctx 0).obj
  simp only [count, mem] at hcount
  omega

end Libcando.Shm.World
