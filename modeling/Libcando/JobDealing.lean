import Libcando.Continuation
import Libcando.Dealing
import Libcando.JobPool

namespace Libcando.Jpool

open Futex Transition

def Act.accepted : Act → Option Job
  | addJob job => if job.func = 0 ∨ job.arg = 0 then none else some job
  | _ => none

def jobs (ls : List Act) : List Job := ls.filterMap Act.accepted

theorem jobs_snoc (ls : List Act) (l : Act) : jobs (ls ++ [l]) = jobs ls ++ l.accepted.toList := by
  cases h : l.accepted <;> simp [jobs, List.filterMap_append, h]

def ProducerPc.chosen (cur : ℕ) : ProducerPc → Option (ℕ × Job)
  | loadCur job => some (cur, job)
  | storeCur tid job | full tid job | addRear tid job | queueWait _ tid (.addJob job) => some (tid, job)
  | _ => none

theorem Thread.Step.placed {turn : Turn} {data : ℕ} {x x' : Thread} {m m' : ByteMemory.Mem}
    (h : x.Step turn data m x' m') : x'.placed = x.placed := by
  cases h <;> simp only [Thread.placed]

namespace Pool

def owed (s : Pool) (t : ℕ) : List Job :=
  match s.producer.chosen s.curThread with
  | some (u, job) => if u = t then [job] else []
  | none => []

def upcoming (count : ℕ) (s : Pool) : ℕ :=
  match s.producer with
  | .loadCur _ => (s.curThread + 1) % wordMax % count
  | .storeCur tid _ => (tid + 1) % wordMax % count
  | _ => s.curThread

structure Dealing (info : JpoolCreateInfo) (ls : List Act) (s : Pool) : Prop where
  next : s.upcoming info.count = (jobs ls).length % info.count
  hands : ∀ t < info.count, Dealt info.count t (jobs ls) ((s.threads t).placed.map Placement.job ++ s.owed t)

variable {info : JpoolCreateInfo} {ls : List Act} {l : Act} {s s' : Pool}

theorem Dealing.same (h : s.Dealing info ls) (hl : l.accepted = none)
    (hnext : s'.upcoming info.count = s.upcoming info.count)
    (hhand : ∀ t, (s'.threads t).placed.map Placement.job ++ s'.owed t =
      (s.threads t).placed.map Placement.job ++ s.owed t) : s'.Dealing info (ls ++ [l]) := by
  have hjobs : jobs (ls ++ [l]) = jobs ls := by simp [jobs_snoc, hl]
  constructor
  · rw [hnext, hjobs, h.next]
  · intro t ht
    rw [hhand, hjobs]
    exact h.hands t ht

theorem placed_setThread {t : ℕ} {x : Thread} (hx : x.placed = (s.threads t).placed) (u : ℕ) :
    ((s.setThread t x).threads u).placed = (s.threads u).placed := by
  by_cases hu : u = t
  · subst hu; simpa [setThread] using hx
  · simp [setThread, hu]

theorem placed_wakeUp (t u : ℕ) : ((s.wakeUp t).threads u).placed = (s.threads u).placed :=
  placed_setThread (by rfl) u

theorem Dealing.addJob (hinfo : info.Accepted) (h : s.Dealing info ls) {job : Job} (hpc : s.producer = .idle)
    (hjob : ¬(job.func = 0 ∨ job.arg = 0)) : (s.goto (.loadCur job)).Dealing info (ls ++ [.addJob job]) := by
  have hpos := hinfo.count_pos
  have hjobs : jobs (ls ++ [.addJob job]) = jobs ls ++ [job] := by simp [jobs_snoc, Act.accepted, hjob]
  have hcur : s.curThread = (jobs ls).length % info.count := by simpa [upcoming, hpc] using h.next
  have howed (t : ℕ) : s.owed t = [] := by simp [owed, ProducerPc.chosen, hpc]
  constructor
  · have hlt := Nat.mod_lt (jobs ls).length hpos
    have hcount := hinfo.count_lt
    have hword : s.curThread + 1 < wordMax := by simp only [wordMax]; omega
    have hnext : (s.goto (.loadCur job)).upcoming info.count = (s.curThread + 1) % wordMax % info.count := rfl
    rw [hnext, Nat.mod_eq_of_lt hword, hcur, Nat.mod_add_mod, hjobs, List.length_append, List.length_singleton]
  · intro t ht
    have hand := h.hands t ht
    rw [howed, List.append_nil] at hand
    rw [hjobs]
    by_cases htcur : (jobs ls).length % info.count = t
    · simpa [owed, ProducerPc.chosen, goto, hcur, htcur] using hand.deal hpos htcur job
    · simpa [owed, ProducerPc.chosen, goto, hcur, htcur] using hand.pass ht htcur job

theorem Dealing.queueWait (h : s.Dealing info ls) {pc : WaitPc} {tid : ℕ} {caller : Caller}
    (hpc : s.producer = .queueWait pc tid caller) : (s.pQueueWait pc tid caller).Dealing info (ls ++ [.producer]) := by
  have hplaced (t : ℕ) : ((s.pQueueWait pc tid caller).threads t).placed = (s.threads t).placed := by
    cases pc with
    | load => rfl
    | wake => exact placed_wakeUp tid t
    | resetRear => cases caller <;> exact placed_setThread (by simp [Thread.placed]) t
    | _ => exact placed_setThread (by rfl) t
  have howed (t : ℕ) : (s.pQueueWait pc tid caller).owed t = s.owed t := by
    cases pc with
    | load => by_cases hcount : (s.threads tid).jobCount = 0 <;> cases caller <;>
        simp [owed, ProducerPc.chosen, pQueueWait, goto, hpc, hcount]
    | _ => cases caller <;> simp [owed, ProducerPc.chosen, pQueueWait, goto, hpc]
  apply h.same rfl
  · cases pc with
    | load => by_cases hcount : (s.threads tid).jobCount = 0 <;> simp [upcoming, pQueueWait, goto, hpc, hcount]
    | resetRear => cases caller <;> simp [upcoming, pQueueWait, goto, hpc, setThread]
    | _ => simp [upcoming, pQueueWait, goto, hpc, Pool.wakeUp, setThread]
  · intro t
    rw [hplaced, howed]

theorem Dealing.producer (h : s.Dealing info ls) (hs : s.ProducerStep info s') :
    s'.Dealing info (ls ++ [.producer]) := by
  cases hs with
  | loadCur job hpc =>
    exact h.same rfl (by simp [upcoming, goto, hpc]) fun t => by simp [owed, ProducerPc.chosen, goto, hpc]
  | storeCur tid job hpc =>
    exact h.same rfl (by simp [upcoming, goto, hpc]) fun t => by simp [owed, ProducerPc.chosen, goto, hpc]
  | full tid job hpc hfull | room tid job hpc hroom =>
    exact h.same rfl (by simp [upcoming, goto, hpc]) fun t => by simp [owed, ProducerPc.chosen, goto, hpc]
  | queueWait pc tid caller hpc => exact h.queueWait hpc
  | addRear tid job hpc =>
    apply h.same rfl (by simp [upcoming, goto, hpc, setThread])
    intro t
    by_cases ht : t = tid
    · subst ht
      simp [owed, ProducerPc.chosen, goto, hpc, setThread, Thread.placed]
    · simp [owed, ProducerPc.chosen, goto, hpc, setThread, ht, Ne.symm ht]
  | storeFunc tid off job hpc | storeArg tid off job hpc =>
    exact h.same rfl (by simp [upcoming, goto, hpc]) fun t => by simp [owed, ProducerPc.chosen, goto, hpc]
  | waitNext tid hpc ht | waitDone tid hpc ht | destroyNext tid hpc ht | destroyDone tid hpc ht | join tid hpc hexit =>
    exact h.same rfl (by simp [upcoming, goto, hpc]) fun t => by simp [owed, ProducerPc.chosen, goto, hpc]
  | addCount tid off hpc | force value tid hpc =>
    apply h.same rfl (by simp [upcoming, goto, hpc, setThread])
    intro t
    rw [goto_threads, placed_setThread]
    · simp [owed, ProducerPc.chosen, goto, hpc]
    · rfl
  | wake tid hpc | forceWake tid hpc | wakeCond tid hpc =>
    apply h.same rfl (by simp [upcoming, goto, hpc, Pool.wakeUp, setThread])
    intro t
    rw [goto_threads, placed_wakeUp]
    simp [owed, ProducerPc.chosen, goto, hpc]

theorem Dealing.step (hinfo : info.Accepted) (h : s.Dealing info ls) (hs : step info l s = some s') :
    s'.Dealing info (ls ++ [l]) := by
  cases step_cases hs with
  | refuse job hpc =>
    have hjob : Act.accepted (.addJob job) = none := by
      by_contra hne
      have hgood : ¬(job.func = 0 ∨ job.arg = 0) := by simpa [Act.accepted] using hne
      simp only [step, hpc, if_true, hgood, if_false, Option.some.injEq] at hs
      have hproducer := congrArg Pool.producer hs
      rw [goto_producer, hpc] at hproducer
      cases hproducer
    exact h.same hjob rfl fun _ => rfl
  | addJob job hpc hjob => exact h.addJob hinfo hpc hjob
  | wait hpc | destroy hpc =>
    exact h.same rfl (by simp [upcoming, goto, hpc]) fun t => by simp [owed, ProducerPc.chosen, goto, hpc]
  | producer s' hs => exact h.producer (producerStep_cases hs)
  | worker tid turn x m ht hx =>
    have hnext : upcoming info.count { s.setThread tid x with mem := m } = s.upcoming info.count := rfl
    apply h.same rfl hnext
    intro t
    exact congrArg (fun ps => ps.map Placement.job ++ s.owed t) (placed_setThread (pRunThread_cases hx).placed t)

theorem dealing_trace (hinfo : info.Accepted) (h : Trace (system info) (fun _ _ => True) ls s) :
    s.Dealing info ls := by
  apply h.invariant
  · rintro s rfl
    refine ⟨(Nat.zero_mod _).symm, ?_⟩
    intro t _
    exact .nil info.count t
  · intro ls l s s' hs _ hstep
    exact hs.step hinfo hstep

theorem jobs_dealt_in_turn {i : Option JpoolCreateInfo} (hi : pJpoolCreateCheck i = some info)
    (h : Trace (system info) (fun _ _ => True) ls s) :
    (∀ t < info.count,
      Dealt info.count t (jobs ls) ((s.threads t).placed.map Placement.job ++ s.owed t)) ∧
      ∀ t < info.count, ∀ u < info.count,
        (s.threads t).placed.length + (s.owed t).length ≤
          (s.threads u).placed.length + (s.owed u).length + 1 := by
  have dealing := dealing_trace (JpoolCreateInfo.check_accepted hi).2 h
  refine ⟨dealing.hands, ?_⟩
  intro t ht u hu
  have hle := (dealing.hands t ht).balanced (dealing.hands u hu) hu
  simpa only [List.length_append, List.length_map] using hle

def twoQueues : JpoolCreateInfo := ⟨128, 2, by decide⟩

def threeJobs : List Act :=
  .addJob ⟨1, 2⟩ :: List.replicate 8 .producer ++ [.addJob ⟨0, 9⟩, .addJob ⟨3, 4⟩] ++ List.replicate 6 .producer ++
    List.replicate 4 (.worker 1 .plain) ++ List.replicate 2 .producer ++ [.addJob ⟨5, 6⟩, .producer]

theorem jobs_dealt_in_turn_two : ∃ s, Trace (system twoQueues) (fun _ _ => True) threeJobs s ∧
    ∀ t < 2, Dealt 2 t (jobs threeJobs) ((s.threads t).placed.map Placement.job ++ s.owed t) := by
  have hrun : (run (system twoQueues) (fun _ _ => True) threeJobs {}).isSome = true := by decide +kernel
  obtain ⟨s, hs⟩ := Option.isSome_iff_exists.mp hrun
  have trace := run_trace (Trace.init (S := system twoQueues) rfl) hs
  rw [List.nil_append] at trace
  exact ⟨s, trace, (jobs_dealt_in_turn (i := some twoQueues) rfl trace).1⟩

end Pool

end Libcando.Jpool
