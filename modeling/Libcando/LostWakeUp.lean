import Libcando.JobOrder

namespace Libcando.Jpool

open Futex Transition

namespace Thread

/-- The worker has looked for a job for the last time and only a change of the futex word can still keep it
from going to sleep. -/
def Dozing (x : Thread) : Prop :=
  match x.pc with
  | .loadFront i rear => contentionLoopCnt ≤ i ∧ rear ≤ x.front ∧ x.jobFree ≠ futexUnlockForce
  | .forceCheck i => contentionLoopCnt ≤ i ∧ x.jobFree ≠ futexUnlockForce
  | .kernelLoad => True
  | .kernelWait val => x.jobFree = val
  | _ => False

def Asleep (x : Thread) : Prop :=
  match x.pc with
  | .asleep _ => True
  | _ => False

def HasWork (x : Thread) : Prop := x.front < x.rear ∨ x.jobFree = futexUnlockForce

instance (x : Thread) : Decidable x.Dozing :=
  match h : x.pc with
  | .loadFront i rear =>
    decidable_of_iff (contentionLoopCnt ≤ i ∧ rear ≤ x.front ∧ x.jobFree ≠ futexUnlockForce)
      (by simp only [Dozing, h])
  | .forceCheck i =>
    decidable_of_iff (contentionLoopCnt ≤ i ∧ x.jobFree ≠ futexUnlockForce) (by simp only [Dozing, h])
  | .kernelLoad => isTrue (by simp only [Dozing, h])
  | .kernelWait val => decidable_of_iff (x.jobFree = val) (by simp only [Dozing, h])
  | .canLoop | .loadRear _ | .asleep _ | .addFront | .loadFunc _ | .loadArg _ _ =>
    isFalse (by simp only [Dozing, h, not_false_eq_true])
  | .running _ _ | .resetFunc _ | .resetArg _ | .subCount _ | .exited =>
    isFalse (by simp only [Dozing, h, not_false_eq_true])

instance (x : Thread) : Decidable x.Asleep :=
  match h : x.pc with
  | .asleep _ => isTrue (by simp only [Asleep, h])
  | .canLoop | .loadRear _ | .loadFront _ _ | .forceCheck _ | .kernelLoad | .kernelWait _ | .addFront =>
    isFalse (by simp only [Asleep, h, not_false_eq_true])
  | .loadFunc _ | .loadArg _ _ | .running _ _ | .resetFunc _ | .resetArg _ | .subCount _ | .exited =>
    isFalse (by simp only [Asleep, h, not_false_eq_true])

instance (x : Thread) : Decidable x.HasWork :=
  inferInstanceAs (Decidable (x.front < x.rear ∨ x.jobFree = futexUnlockForce))

variable {x x' : Thread} {turn : Turn} {data : ℕ} {m m' : ByteMemory.Mem}

theorem drowsy_of_step (hs : pRunThread turn data x m = some (x', m')) (hd : x'.Dozing ∨ x'.Asleep)
    (hw : x'.HasWork) : (x.Dozing ∨ x.Asleep) ∧ x.HasWork := by
  cases pRunThread_cases hs with
  | loadRear i hpc =>
    simp only [Dozing, Asleep, HasWork, or_false] at hd hw
    omega
  | missed i rear hpc hle =>
    simp only [Dozing, Asleep, or_false] at hd
    refine ⟨.inl ?_, hw⟩
    simp only [Dozing, hpc]
    exact ⟨hd.1, hle, hd.2⟩
  | tire i hpc hf hi =>
    refine ⟨.inl ?_, hw⟩
    simp only [Dozing, hpc]
    exact ⟨hi, hf⟩
  | kernelLoad hpc => exact ⟨.inl (by simp only [Dozing, hpc]), hw⟩
  | sleep val hpc hval ht => exact ⟨.inl (by simpa only [Dozing, hpc] using hval), hw⟩
  | wake val hpc ht => exact ⟨.inr (by simp only [Asleep, hpc]), hw⟩
  | _ => simp [Dozing, Asleep] at hd

theorem not_drowsy_wakeUp (h : ¬x.Dozing) :
    ¬(({ x with pc := x.pc.wakeUp } : Thread).Dozing ∨ ({ x with pc := x.pc.wakeUp } : Thread).Asleep) := by
  cases hpc : x.pc with
  | loadFront i rear | forceCheck i | kernelWait val => simpa [Dozing, Asleep, WorkerPc.wakeUp, hpc] using h
  | kernelLoad => exact absurd (by simp only [Dozing, hpc]) h
  | _ => simp [Dozing, Asleep, WorkerPc.wakeUp]

end Thread

namespace ProducerPc

def pending (cur t : ℕ) : ProducerPc → Bool
  | loadCur _ => cur = t
  | storeCur u _ | full u _ | queueWait _ u (.addJob _) | addRear u _ | storeFunc u _ _ | storeArg u _ _
  | addCount u _ | wake u => u = t
  | queueWait _ u .destroy | destroyAll u | force _ u | wakeCond u => u ≤ t
  | join u => u < t
  | idle | queueWait _ _ .wait | waitAll _ | destroyed => false

end ProducerPc

namespace Pool

def Lost (s : Pool) (t : ℕ) : Prop :=
  (s.threads t).Asleep ∧ (s.threads t).HasWork ∧ s.producer.pending s.curThread t = false

instance (s : Pool) (t : ℕ) : Decidable (s.Lost t) :=
  inferInstanceAs (Decidable ((s.threads t).Asleep ∧ (s.threads t).HasWork ∧ _ = false))

def barrierFree (l : Act) (_ : Pool) : Prop := l ≠ .wait

instance (l : Act) (s : Pool) : Decidable (barrierFree l s) := inferInstanceAs (Decidable (l ≠ .wait))

/-- The last wake-up of a call does not come while a worker with work is on its way to sleep. -/
def timely (l : Act) (s : Pool) : Prop :=
  match l with
  | .producer =>
    match s.producer with
    | .wake t | .wakeCond t => (s.threads t).HasWork → ¬(s.threads t).Dozing
    | _ => True
  | _ => True

instance (l : Act) (s : Pool) : Decidable (timely l s) :=
  match l with
  | .producer =>
    match h : s.producer with
    | .wake t => decidable_of_iff ((s.threads t).HasWork → ¬(s.threads t).Dozing) (by simp only [timely, h])
    | .wakeCond t =>
      decidable_of_iff ((s.threads t).HasWork → ¬(s.threads t).Dozing) (by simp only [timely, h])
    | .idle | .loadCur _ | .storeCur _ _ | .full _ _ | .queueWait _ _ _ | .addRear _ _ | .storeFunc _ _ _ =>
      isTrue (by simp only [timely, h])
    | .storeArg _ _ _ | .addCount _ _ | .waitAll _ | .destroyAll _ | .force _ _ | .join _ | .destroyed =>
      isTrue (by simp only [timely, h])
  | .addJob _ | .wait | .destroy | .worker _ _ => isTrue trivial

def roused (l : Act) (s : Pool) : Prop := barrierFree l s ∧ timely l s

instance (l : Act) (s : Pool) : Decidable (roused l s) :=
  inferInstanceAs (Decidable (barrierFree l s ∧ timely l s))

variable {info : JpoolCreateInfo} {s s' : Pool} {l : Act} {t : ℕ}

theorem setThread_of_ne {u : ℕ} (h : t ≠ u) (s : Pool) (x : Thread) : (s.setThread u x).threads t = s.threads t :=
  Function.update_of_ne h ..

theorem wakeUp_self (s : Pool) (t : ℕ) :
    (s.wakeUp t).threads t = { s.threads t with pc := (s.threads t).pc.wakeUp } := Function.update_self ..

theorem producerStep_apart (h : s.producer.pending s.curThread t = false) (hb : s.producer.call ≠ .wait)
    (hs : s.producerStep info = some s') : s'.threads t = s.threads t := by
  cases producerStep_cases hs with
  | queueWait w u caller hpc =>
    rw [hpc] at h hb
    have hne : t ≠ u := by
      rintro rfl
      cases caller with
      | wait => exact hb rfl
      | addJob job | destroy => simp [ProducerPc.pending] at h
    cases w with
    | load => rfl
    | wake | resetFree | resetCount | resetFront | resetRear => exact setThread_of_ne hne ..
  | addRear u job hpc | addCount u off hpc | wake u hpc | force value u hpc | forceWake u hpc | wakeCond u hpc =>
    have hne : t ≠ u := by
      rintro rfl
      simp [hpc, ProducerPc.pending] at h
    exact setThread_of_ne hne ..
  | _ => rfl

theorem pending_step (ht : t < info.count) (h : s.producer.pending s.curThread t = true)
    (hs : s.producerStep info = some s') :
    s'.producer.pending s'.curThread t = true ∨
      (s.producer = .wake t ∨ s.producer = .wakeCond t) ∧ s'.threads t = { s.threads t with
        pc := (s.threads t).pc.wakeUp } := by
  cases producerStep_cases hs with
  | waitNext u hpc hu | waitDone u hpc hu => simp [hpc, ProducerPc.pending] at h
  | queueWait w u caller hpc =>
    left
    rw [hpc] at h
    cases caller with
    | wait => cases h
    | addJob job | destroy => cases w <;> exact h
  | loadCur job hpc | storeCur u job hpc | full u job hpc hfull | room u job hpc hroom | addRear u job hpc =>
    rw [hpc] at h
    exact .inl h
  | storeFunc u off job hpc | storeArg u off job hpc | addCount u off hpc | force value u hpc | forceWake u hpc =>
    rw [hpc] at h
    exact .inl h
  | destroyNext u hpc hu =>
    rw [hpc] at h
    exact .inl h
  | destroyDone u hpc hu =>
    simp only [hpc, ProducerPc.pending, decide_eq_true_eq] at h
    omega
  | join u hpc hexit =>
    left
    simp only [hpc, ProducerPc.pending, decide_eq_true_eq] at h
    simp only [goto_producer, ProducerPc.pending, decide_eq_true_eq]
    omega
  | wake u hpc =>
    right
    simp only [hpc, ProducerPc.pending, decide_eq_true_eq] at h
    subst h
    exact ⟨.inl hpc, by rw [goto_threads, wakeUp_self]⟩
  | wakeCond u hpc =>
    simp only [hpc, ProducerPc.pending, decide_eq_true_eq] at h
    rcases Nat.lt_or_eq_of_le h with hlt | rfl
    · left
      simpa [ProducerPc.pending] using hlt
    · right
      exact ⟨.inr hpc, by rw [goto_threads, wakeUp_self]⟩

theorem drowsy_has_wake_step (hb : s.producer.call ≠ .wait) (ht : t < info.count)
    (hi : (s.threads t).Dozing ∨ (s.threads t).Asleep → (s.threads t).HasWork →
      s.producer.pending s.curThread t = true)
    (hok : timely l s) (hs : (system info).step l s = some s')
    (hd : (s'.threads t).Dozing ∨ (s'.threads t).Asleep) (hw : (s'.threads t).HasWork) :
    s'.producer.pending s'.curThread t = true := by
  cases step_cases hs with
  | worker u turn x m _ hx =>
    by_cases hu : t = u
    · subst hu
      have hself : (s.setThread t x).threads t = x := Function.update_self ..
      rw [hself] at hd hw
      obtain ⟨hd', hw'⟩ := Thread.drowsy_of_step hx hd hw
      exact hi hd' hw'
    · have hother : (s.setThread u x).threads t = s.threads t := setThread_of_ne hu ..
      rw [hother] at hd hw
      exact hi hd hw
  | refuse job hidle => exact hi hd hw
  | addJob job hidle hjob | wait hidle | destroy hidle =>
    have hpending := hi hd hw
    rw [hidle] at hpending
    cases hpending
  | producer s' hs =>
    cases hp : s.producer.pending s.curThread t with
    | false =>
      have hsame := producerStep_apart hp hb hs
      rw [hsame] at hd hw
      have := hi hd hw
      rw [hp] at this
      cases this
    | true =>
      rcases pending_step ht hp hs with h | ⟨hpc, hx⟩
      · exact h
      · exfalso
        have htimely : (s.threads t).HasWork → ¬(s.threads t).Dozing := by
          rcases hpc with hpc | hpc <;> simpa only [timely, hpc] using hok
        rw [hx] at hd hw
        exact Thread.not_drowsy_wakeUp (htimely hw) hd

theorem barrierFree_call (h : barrierFree l s) : l.call ≠ .wait := mt Act.call_eq_wait.mp h

section Alone

variable {S : System Pool Act} {ok : Act → Pool → Prop} {x y : Thread} {val : ℕ}

@[simp] theorem setThread_self (s : Pool) (t : ℕ) : s.setThread t (s.threads t) = s := by
  simp [setThread]

theorem turn_reach (hS : S.step = step info) {turn : Turn} (hok : ∀ s, ok (.worker t turn) s)
    (ht : t < info.count) (h : Reach S ok (s.setThread t x))
    (hx : pRunThread turn (info.queueData t) x s.mem = some (y, s.mem)) : Reach S ok (s.setThread t y) := by
  apply h.step (hok _)
  simp [hS, step, ht, hx, setThread]

theorem worker_reach (hok : ∀ s, ok (.worker t .plain) s) (ht : t < info.count)
    (h : Reach (system info) ok (s.setThread t x))
    (hx : pRunThread .plain (info.queueData t) x s.mem = some (y, s.mem)) :
    Reach (system info) ok (s.setThread t y) := turn_reach rfl hok ht h hx

theorem dozing_reach (hok : ∀ s, ok (.worker t .plain) s) (ht : t < info.count)
    (h : Reach (system info) ok s) (hd : (s.threads t).Dozing) :
    ∃ val, Reach (system info) ok (s.setThread t { s.threads t with pc := .asleep val }) := by
  have hwait (hw : Reach (system info) ok (s.setThread t { s.threads t with
      pc := .kernelWait (s.threads t).jobFree })) :
      ∃ val, Reach (system info) ok (s.setThread t { s.threads t with pc := .asleep val }) :=
    ⟨(s.threads t).jobFree, worker_reach hok ht hw (by simp [pRunThread])⟩
  have hload (hl : Reach (system info) ok (s.setThread t { s.threads t with pc := .kernelLoad })) :=
    hwait (worker_reach hok ht hl rfl)
  have hcheck {i : ℕ} (hi : contentionLoopCnt ≤ i) (hfree : (s.threads t).jobFree ≠ futexUnlockForce)
      (hc : Reach (system info) ok (s.setThread t { s.threads t with pc := .forceCheck i })) :=
    hload (worker_reach hok ht hc (by
      have hforce : pIsFutexFunlock (s.threads t).jobFree = false :=
        Bool.eq_false_iff.mpr fun h => hfree ((pIsFutexFunlock_iff _).mp h)
      simp [pRunThread, hforce, hi]))
  have hself : Reach (system info) ok (s.setThread t (s.threads t)) := by rwa [setThread_self]
  cases hpc : (s.threads t).pc with
  | loadFront i rear =>
    simp only [Thread.Dozing, hpc] at hd
    apply hcheck hd.1 hd.2.2
    apply worker_reach hok ht hself
    have hle : ¬rear > (s.threads t).front := by omega
    simp [pRunThread, hpc, hle]
  | forceCheck i =>
    simp only [Thread.Dozing, hpc] at hd
    apply hcheck hd.1 hd.2
    rw [← hpc]
    exact hself
  | kernelLoad =>
    apply hload
    rw [← hpc]
    exact hself
  | kernelWait val =>
    simp only [Thread.Dozing, hpc] at hd
    apply hwait
    rw [hd, ← hpc]
    exact hself
  | _ => simp [Thread.Dozing, hpc] at hd

theorem spin_reach (hok : ∀ s, ok (.worker t .plain) s) (ht : t < info.count)
    (h : Reach (system info) ok (s.setThread t { x with pc := .loadRear 0 })) (hrear : x.rear ≤ x.front)
    (hfree : x.jobFree ≠ futexUnlockForce) (k : ℕ) (hk : k ≤ contentionLoopCnt) :
    Reach (system info) ok (s.setThread t { x with pc := .loadRear k }) := by
  induction k with
  | zero => exact h
  | succ k ih =>
    have hfound : ¬x.rear > x.front := by omega
    have hforce : pIsFutexFunlock x.jobFree = false :=
      Bool.eq_false_iff.mpr fun h => hfree ((pIsFutexFunlock_iff _).mp h)
    have hlt : k < contentionLoopCnt := by omega
    have hfront := worker_reach hok ht (ih (by omega)) (y := { x with pc := .loadFront k x.rear }) rfl
    have hcheck := worker_reach hok ht hfront (y := { x with pc := .forceCheck k }) (by
      simp [pRunThread, hfound])
    exact worker_reach hok ht hcheck (by simp [pRunThread, hforce, hlt])

theorem late_wake_up_loses (h : Reach (system info) barrierFree s) (ht : t < info.count)
    (hpc : s.producer = .wake t ∨ s.producer = .wakeCond t) (hwork : (s.threads t).HasWork)
    (hdoze : (s.threads t).Dozing) : ∃ s', Reach (system info) barrierFree s' ∧ s'.Lost t := by
  have hwake : (s.wakeUp t) = s := by
    have hpc' : (s.threads t).pc.wakeUp = (s.threads t).pc := by
      cases hx : (s.threads t).pc with
      | asleep val => simp [Thread.Dozing, hx] at hdoze
      | _ => rfl
    rw [wakeUp, hpc', setThread_self]
  obtain ⟨pc, hnext, hquiet⟩ : ∃ pc, Reach (system info) barrierFree (s.goto pc) ∧
      pc.pending s.curThread t = false := by
    rcases hpc with hpc | hpc
    · refine ⟨.idle, h.step (l := .producer) (by simp [barrierFree]) ?_, rfl⟩
      simp only [system, step, producerStep, hpc, hwake]
    · refine ⟨.join t, h.step (l := .producer) (by simp [barrierFree]) ?_, by simp [ProducerPc.pending]⟩
      simp only [system, step, producerStep, hpc, hwake]
  obtain ⟨val, hr⟩ := dozing_reach (fun _ => by simp [barrierFree]) ht hnext (by exact hdoze)
  refine ⟨_, hr, ?_⟩
  have hself : ((s.goto pc).setThread t { (s.goto pc).threads t with pc := .asleep val }).threads t =
      { s.threads t with pc := .asleep val } := Function.update_self ..
  rw [Lost, hself]
  exact ⟨trivial, hwork, hquiet⟩

end Alone

theorem no_wake_up_lost (h : Reach (system info) roused s) (ht : t < info.count) : ¬s.Lost t := by
  have hinv : s.producer.call ≠ .wait ∧ ((s.threads t).Dozing ∨ (s.threads t).Asleep →
      (s.threads t).HasWork → s.producer.pending s.curThread t = true) := by
    apply h.invariant
    · rintro s rfl
      constructor
      · decide
      · intro hd
        simp [Thread.Dozing, Thread.Asleep] at hd
    · intro s s' l hi hok hs
      constructor
      · exact call_ne_step (by decide) hi.1 (barrierFree_call hok.1) hs
      · exact drowsy_has_wake_step hi.1 ht hi.2 hok.2 hs
  rintro ⟨hasleep, hwork, hpending⟩
  have := hinv.2 (.inr hasleep) hwork
  rw [hpending] at this
  cases this

def tired : Pool := setThread {} 0 { pc := .loadRear contentionLoopCnt }

theorem tired_reach {ok : Act → Pool → Prop} (hok : ∀ s, ok (.worker 0 .plain) s) :
    Reach (system onePage) ok tired := by
  have hinit : Reach (system onePage) ok (setThread {} 0 {}) := by
    rw [setThread_self]
    exact .init rfl
  have hfirst := worker_reach hok (by decide) hinit (y := { pc := .loadRear 0 }) rfl
  exact spin_reach hok (by decide) (x := {}) hfirst (by decide) (by decide) contentionLoopCnt le_rfl

theorem no_wake_up_lost_asleep : ∃ s, Reach (system onePage) roused s ∧ s.producer = .idle ∧
    (s.threads 0).HasWork ∧ ¬s.Lost 0 := by
  have hok (s : Pool) : roused (.worker 0 .plain) s := ⟨by simp [barrierFree], trivial⟩
  obtain ⟨s, hs, hpc, hwork⟩ := exists_of_run (system onePage) roused (tired_reach hok)
    (List.replicate 5 (.worker 0 .plain) ++ .addJob ⟨1, 2⟩ :: List.replicate 8 .producer)
    (fun s => s.producer = .idle ∧ (s.threads 0).HasWork) (by decide +kernel)
  exact ⟨s, hs, hpc, hwork, no_wake_up_lost hs (by decide)⟩

/-- The worker has found no job and is about to sleep when `udo_jpool_add_job` adds one and wakes it, or
when `udo_jpool_destroy` sets the forced unlock and wakes it twice. -/
theorem wake_up_lost : ¬ ∀ (i : Option JpoolCreateInfo) (info : JpoolCreateInfo) (s : Pool),
    pJpoolCreateCheck i = some info → 16 ≤ info.queueSz → Reach (system info) barrierFree s →
      ∀ t < info.count, ¬s.Lost t := by
  intro roused
  have hok (s : Pool) : barrierFree (.worker 0 .plain) s := by simp [barrierFree]
  obtain ⟨s, hs, hlost⟩ := exists_of_run (system onePage) barrierFree (tired_reach hok)
    (List.replicate 4 (.worker 0 .plain) ++ .addJob ⟨1, 2⟩ :: List.replicate 8 .producer ++
      [.worker 0 .plain])
    (fun s => s.Lost 0) (by decide +kernel)
  exact roused (some onePage) onePage s rfl (by decide) hs 0 (by decide) hlost

theorem shutdown_lost : ∃ s, Reach (system onePage) barrierFree s ∧ s.producer = .join 0 ∧ s.Lost 0 := by
  have hok (s : Pool) : barrierFree (.worker 0 .plain) s := by simp [barrierFree]
  exact exists_of_run (system onePage) barrierFree (tired_reach hok)
    (List.replicate 3 (.worker 0 .plain) ++ .destroy :: List.replicate 9 .producer ++
      List.replicate 2 (.worker 0 .plain))
    (fun s => s.producer = .join 0 ∧ s.Lost 0) (by decide +kernel)

end Pool

end Libcando.Jpool
