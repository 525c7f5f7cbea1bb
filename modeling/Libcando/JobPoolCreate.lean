import Libcando.JobPool
import Libcando.JobPoolPlacement

namespace Libcando.Jpool

open Futex Transition

inductive CreatePc
  | queue (t : ℕ)
  | start (t : ℕ)
  | destroy
  | done (created : Bool)
  | crashed
  deriving DecidableEq

/-- A call of `udo_jpool_create` on a zeroed context: `none` is a queue whose pointers are NULL, or a thread
ID still 0. The rest is history: the IDs given to `pthread_join` and the calls of `munmap`. -/
structure Creation where
  pc : CreatePc := .queue 0
  pool : Pool := {}
  queues : ℕ → Option JpoolQueue := fun _ => none
  tids : ℕ → Option ℕ := fun _ => none
  joined : List (Option ℕ) := []
  unmapped : ℕ := 0

def Thread.pQueueReset (x : Thread) : Thread := { x with jobFree := 0, jobCount := 0, front := 0, rear := 0 }

namespace Creation

inductive Act
  | creator
  | worker (tid : ℕ) (turn : Turn)
  deriving DecidableEq

def udoJpoolDestroy (info : JpoolCreateInfo) (c : Creation) : Option Creation :=
  match c.pool.producer with
  | .queueWait pc t caller =>
    -- the job count of a queue that was never set up is read through NULL
    if c.queues t = none then some { c with pc := .crashed }
    else some { c with pool := c.pool.pQueueWait pc t caller }
  | .join t =>
    match c.tids t with
    -- an ID that names no thread: the call is undefined, here it returns at once
    | none => some { c with joined := c.joined ++ [none], pool := c.pool.goto (.destroyAll (t + 1)) }
    | some tid =>
      (c.pool.producerStep info).map fun pool => { c with pool, joined := c.joined ++ [some tid] }
  | .destroyed => some { c with pc := .done false, unmapped := c.unmapped + 1 }
  | _ => (c.pool.producerStep info).map fun pool => { c with pool }

/-- `pthread_create` fails for thread `k`, and for no other. -/
def udoJpoolCreate (info : JpoolCreateInfo) (k : ℕ) (c : Creation) : Option Creation :=
  match c.pc with
  | .queue t =>
    if t < info.count then
      some { c with
        pc := .start t
        queues := Function.update c.queues t (some (info.queue t))
        pool := c.pool.setThread t (c.pool.threads t).pQueueReset }
    else some { c with pc := .done true }
  | .start t =>
    if t = k then some { c with pc := .destroy, pool := c.pool.goto (.destroyAll 0) }
    else some { c with pc := .queue (t + 1), tids := Function.update c.tids t (some t) }
  | .destroy => c.udoJpoolDestroy info
  | .done _ | .crashed => none

def step (info : JpoolCreateInfo) (k : ℕ) (l : Act) (c : Creation) : Option Creation :=
  match l with
  | .creator => c.udoJpoolCreate info k
  | .worker tid turn =>
    if c.tids tid = none then none
    else (c.pool.step info (.worker tid turn)).map fun pool => { c with pool }

def system (info : JpoolCreateInfo) (k : ℕ) : System Creation Act where
  init c := c = {}
  step := step info k

def anyRun (_ : Act) (_ : Creation) : Prop := True

instance (l : Act) (c : Creation) : Decidable (anyRun l c) := inferInstanceAs (Decidable True)

structure FailsCleanly (k : ℕ) (c : Creation) : Prop where
  returned : c.pc = .done false
  shut : ∀ t < k, (c.pool.threads t).pc = .exited
  joined : c.joined = (List.range k).map some
  unmapped : c.unmapped = 1

def Ended (c : Creation) : Prop := c.pc = .crashed ∨ ∃ created, c.pc = .done created

end Creation

def ProducerPc.At (count n t : ℕ) : ProducerPc → Prop
  | destroyAll u => u = t
  | queueWait _ u caller => u = t ∧ t < count ∧ caller = .destroy
  | force _ u | wakeCond u | join u => u = t ∧ t < count ∧ t < n
  | destroyed => count ≤ t
  | _ => False

def joins (k t : ℕ) : List (Option ℕ) := (List.range t).map fun u => if u < k then some u else none

theorem joins_succ (k t : ℕ) : joins k (t + 1) = joins k t ++ [if t < k then some t else none] := by
  simp [joins, List.range_succ]

namespace Creation

structure SetUp (n m : ℕ) (queues : ℕ → Option JpoolQueue) (tids : ℕ → Option ℕ) : Prop where
  queue : ∀ u, queues u = none ↔ n ≤ u
  tid : ∀ u, tids u = if u < m then some u else none

def Failing (info : JpoolCreateInfo) (k : ℕ) (c : Creation) : Prop :=
  match c.pc with
  | .queue t => t ≤ k ∧ SetUp t t c.queues c.tids ∧ c.joined = []
  | .start t => t ≤ k ∧ SetUp (t + 1) t c.queues c.tids ∧ c.joined = []
  | .destroy => SetUp (k + 1) k c.queues c.tids ∧
      ∃ t ≤ k + 1, c.pool.producer.At info.count (k + 1) t ∧ c.joined = joins k t
  | .done created => created = false ∧ info.count = k + 1 ∧ c.joined = joins k (k + 1)
  | .crashed => k + 1 < info.count ∧ c.joined = joins k (k + 1)

variable {info : JpoolCreateInfo} {k : ℕ} {c c' : Creation} {l : Act}

theorem SetUp.next {queues : ℕ → Option JpoolQueue} {tids : ℕ → Option ℕ} {t : ℕ} (h : SetUp t t queues tids)
    (q : JpoolQueue) : SetUp (t + 1) t (Function.update queues t (some q)) tids := by
  refine ⟨?_, h.tid⟩
  intro u
  by_cases hu : u = t
  · subst hu; simp
  · rw [Function.update_of_ne hu, h.queue]; omega

theorem SetUp.start {queues : ℕ → Option JpoolQueue} {tids : ℕ → Option ℕ} {t : ℕ}
    (h : SetUp (t + 1) t queues tids) : SetUp (t + 1) (t + 1) queues (Function.update tids t (some t)) := by
  refine ⟨h.queue, ?_⟩
  intro u
  by_cases hu : u = t
  · subst hu; simp
  · have hlt : u < t + 1 ↔ u < t := by omega
    rw [Function.update_of_ne hu, h.tid]
    simp only [hlt]

theorem worker_step {pool pool' : Pool} {tid : ℕ} {turn : Turn}
    (hs : pool.step info (.worker tid turn) = some pool') : pool'.producer = pool.producer := by
  cases Pool.step_cases hs with
  | worker tid turn x m ht hx => rfl

theorem queueWait_at {pool : Pool} {pc : WaitPc} {n t : ℕ} (ht : t < info.count) (hn : t < n) :
    (pool.pQueueWait pc t .destroy).producer.At info.count n t := by
  cases pc <;> simp [Pool.pQueueWait, ProducerPc.At, ht, hn]

theorem destroy_step (hk : k < info.count) (hc : c.Failing info k) (hpc : c.pc = .destroy)
    (hs : c.udoJpoolDestroy info = some c') : c'.Failing info k := by
  simp only [Failing, hpc] at hc
  obtain ⟨hsetup, t, ht, hat, hjoined⟩ := hc
  have next {pool : Pool} (hp : pool.producer.At info.count (k + 1) t) : Failing info k { c with pool } := by
    simp only [Failing, hpc]
    exact ⟨hsetup, t, ht, hp, hjoined⟩
  cases hprod : c.pool.producer with
  | destroyAll u =>
    rw [hprod] at hat
    obtain rfl := hat
    simp only [udoJpoolDestroy, hprod, Pool.producerStep, Option.map_some, Option.some.injEq] at hs
    subst hs
    apply next
    split_ifs with hlt
    · exact ⟨rfl, hlt, rfl⟩
    · exact Nat.le_of_not_lt hlt
  | queueWait pc u caller =>
    rw [hprod] at hat
    obtain ⟨rfl, hlt, rfl⟩ := hat
    simp only [udoJpoolDestroy, hprod] at hs
    split_ifs at hs with hunset
    · cases hs
      have hpast := (hsetup.queue u).mp hunset
      obtain rfl : u = k + 1 := by omega
      exact ⟨hlt, hjoined⟩
    · cases hs
      have hset : u < k + 1 := Nat.lt_of_not_le fun h => hunset ((hsetup.queue u).mpr h)
      exact next (queueWait_at hlt hset)
  | force pc u =>
    rw [hprod] at hat
    obtain ⟨rfl, hlt, hset⟩ := hat
    cases pc <;> simp only [udoJpoolDestroy, hprod, Pool.producerStep, Option.map_some] at hs <;> cases hs <;>
      exact next ⟨rfl, hlt, hset⟩
  | wakeCond u =>
    rw [hprod] at hat
    obtain ⟨rfl, hlt, hset⟩ := hat
    simp only [udoJpoolDestroy, hprod, Pool.producerStep, Option.map_some] at hs
    cases hs
    exact next ⟨rfl, hlt, hset⟩
  | join u =>
    rw [hprod] at hat
    obtain ⟨rfl, hlt, hset⟩ := hat
    have htid := hsetup.tid u
    have hjoins : c.joined ++ [c.tids u] = joins k (u + 1) := by rw [joins_succ, hjoined, htid]
    simp only [udoJpoolDestroy, hprod] at hs
    cases hsome : c.tids u with
    | none =>
      rw [hsome] at hs hjoins
      cases hs
      simp only [Failing, hpc]
      exact ⟨hsetup, u + 1, hset, rfl, hjoins⟩
    | some tid =>
      rw [hsome] at hs hjoins
      obtain ⟨pool, hpool, rfl⟩ := Option.map_eq_some_iff.mp hs
      simp only [Pool.producerStep, hprod] at hpool
      split_ifs at hpool
      cases hpool
      simp only [Failing, hpc]
      exact ⟨hsetup, u + 1, hset, rfl, hjoins⟩
  | destroyed =>
    rw [hprod] at hat
    simp only [udoJpoolDestroy, hprod] at hs
    cases hs
    simp only [ProducerPc.At] at hat
    obtain rfl : t = k + 1 := by omega
    exact ⟨rfl, by omega, hjoined⟩
  | _ => rw [hprod] at hat; cases hat

theorem failing_step (hk : k < info.count) (hc : c.Failing info k) (hs : step info k l c = some c') :
    c'.Failing info k := by
  cases l with
  | worker tid turn =>
    simp only [step] at hs
    split_ifs at hs
    obtain ⟨pool, hpool, rfl⟩ := Option.map_eq_some_iff.mp hs
    have hproducer := worker_step hpool
    unfold Failing at hc ⊢
    cases hpc : c.pc <;> simp only [hpc, hproducer] at hc ⊢ <;> exact hc
  | creator =>
    simp only [step, udoJpoolCreate] at hs
    cases hpc : c.pc with
    | queue t =>
      simp only [Failing, hpc] at hc
      obtain ⟨ht, hsetup, hjoined⟩ := hc
      rw [hpc] at hs
      dsimp only at hs
      rw [if_pos (by omega)] at hs
      cases hs
      exact ⟨ht, hsetup.next _, hjoined⟩
    | start t =>
      simp only [Failing, hpc] at hc
      obtain ⟨ht, hsetup, hjoined⟩ := hc
      rw [hpc] at hs
      dsimp only at hs
      split_ifs at hs with hfail
      · cases hs
        subst hfail
        exact ⟨hsetup, 0, Nat.zero_le _, rfl, hjoined⟩
      · cases hs
        exact ⟨by omega, hsetup.start, hjoined⟩
    | destroy =>
      rw [hpc] at hs
      exact destroy_step hk hc hpc hs
    | done created => rw [hpc] at hs; cases hs
    | crashed => rw [hpc] at hs; cases hs

theorem failing_reach (hk : k < info.count) (h : Reach (system info k) anyRun c) : c.Failing info k := by
  apply h.invariant
  · rintro c rfl
    exact ⟨Nat.zero_le _, ⟨by simp, by simp⟩, rfl⟩
  · intro c c' l hc _ hs
    exact failing_step hk hc hs

section Ending

variable {t : ℕ} {x x' : Thread} {pc pc' : ProducerPc}

def put (c : Creation) (t : ℕ) (x : Thread) (pc : ProducerPc) : Creation :=
  { c with pool := (c.pool.setThread t x).goto pc }

theorem put_self (c : Creation) (t : ℕ) : c.put t (c.pool.threads t) c.pool.producer = c := by
  simp [put, Pool.setThread, Pool.goto]

theorem put_turn (hpc : c.pc = .destroy) (h : Reach (system info k) anyRun (c.put t x pc))
    (hs : (c.put t x pc).udoJpoolDestroy info = some (c.put t x' pc')) :
    Reach (system info k) anyRun (c.put t x' pc') := by
  apply h.step (l := .creator) True.intro
  simp only [system, step, udoJpoolCreate]
  rw [show (c.put t x pc).pc = .destroy from hpc]
  exact hs

theorem shut_reach (hpc : c.pc = .destroy) (hprod : c.pool.producer = .destroyAll t) (ht : t < info.count)
    (hset : c.queues t ≠ none) (hx : c.pool.threads t = {}) (h : Reach (system info k) anyRun c) :
    Reach (system info k) anyRun (c.put t { jobFree := futexUnlockForce } (.join t)) := by
  have hstart := h
  rw [← c.put_self t, hx, hprod] at hstart
  have hload : Reach (system info k) anyRun (c.put t {} (.queueWait .load t .destroy)) :=
    put_turn hpc hstart (by simp [udoJpoolDestroy, put, Pool.producerStep, Pool.goto, Pool.setThread, ht])
  have wait {v w : WaitPc} (hr : Reach (system info k) anyRun (c.put t {} (.queueWait v t .destroy)))
      (hw : (c.put t {} (.queueWait v t .destroy)).pool.pQueueWait v t .destroy =
        (c.put t {} (.queueWait w t .destroy)).pool) :
      Reach (system info k) anyRun (c.put t {} (.queueWait w t .destroy)) := by
    apply put_turn hpc hr
    change (if c.queues t = none then _ else _) = _
    rw [if_neg hset, hw]
    rfl
  have hfree := wait (w := .resetFree) hload (by simp [put, Pool.pQueueWait, Pool.goto, Pool.setThread])
  have hcount := wait (w := .resetCount) hfree (by simp [put, Pool.pQueueWait, Pool.goto, Pool.setThread])
  have hfront := wait (w := .resetFront) hcount (by simp [put, Pool.pQueueWait, Pool.goto, Pool.setThread])
  have hrear := wait (w := .resetRear) hfront (by simp [put, Pool.pQueueWait, Pool.goto, Pool.setThread])
  have hforce : Reach (system info k) anyRun (c.put t {} (.force udoFutexUnlockForce t)) :=
    put_turn hpc hrear (by simp [udoJpoolDestroy, put, Pool.pQueueWait, Pool.goto, Pool.setThread, hset])
  have hwake : Reach (system info k) anyRun (c.put t { jobFree := futexUnlockForce } (.force .wake t)) :=
    put_turn hpc hforce (by
      simp [udoJpoolDestroy, put, Pool.producerStep, Pool.goto, Pool.setThread, udoFutexUnlockForce])
  have hcond : Reach (system info k) anyRun (c.put t { jobFree := futexUnlockForce } (.wakeCond t)) :=
    put_turn hpc hwake (by
      simp [udoJpoolDestroy, put, Pool.producerStep, Pool.wakeUp, Pool.goto, Pool.setThread, WorkerPc.wakeUp])
  exact put_turn hpc hcond (by
    simp [udoJpoolDestroy, put, Pool.producerStep, Pool.wakeUp, Pool.goto, Pool.setThread, WorkerPc.wakeUp])

theorem exit_reach (ht : t < info.count) (htid : c.tids t ≠ none)
    (h : Reach (system info k) anyRun (c.put t { jobFree := futexUnlockForce } (.join t))) :
    Reach (system info k) anyRun (c.put t { jobFree := futexUnlockForce, pc := .exited } (.join t)) := by
  apply h.step (l := .worker t .plain) True.intro
  change (if c.tids t = none then none else _) = _
  rw [if_neg htid]
  simp [Pool.step, ht, put, Pool.setThread, Pool.goto, pRunThread, pQueueCanLoop]

theorem join_reach (hpc : c.pc = .destroy) (htid : c.tids t = none ∨ c.tids t = some t ∧ x.pc = .exited)
    (h : Reach (system info k) anyRun (c.put t x (.join t))) :
    ∃ c', Reach (system info k) anyRun c' ∧ c'.pc = .destroy ∧ c'.pool.producer = .destroyAll (t + 1) ∧
      ∀ u, u ≠ t → c'.pool.threads u = c.pool.threads u := by
  have hjoin : Reach (system info k) anyRun
      { c.put t x (.destroyAll (t + 1)) with joined := c.joined ++ [c.tids t] } := by
    apply h.step (l := .creator) True.intro
    simp only [system, step, udoJpoolCreate]
    rw [show (c.put t x (.join t)).pc = .destroy from hpc]
    rcases htid with htid | ⟨htid, hexit⟩
    · simp [udoJpoolDestroy, put, Pool.setThread, Pool.goto, htid]
    · simp [udoJpoolDestroy, put, Pool.producerStep, Pool.setThread, Pool.goto, htid, hexit]
  refine ⟨_, hjoin, hpc, rfl, ?_⟩
  intro u hu
  simp [put, Pool.setThread, Pool.goto, hu]

theorem next_reach (hk : k < info.count) (ht : t < k + 1) (hpc : c.pc = .destroy)
    (hprod : c.pool.producer = .destroyAll t) (hx : c.pool.threads t = {})
    (h : Reach (system info k) anyRun c) :
    ∃ c', Reach (system info k) anyRun c' ∧ c'.pc = .destroy ∧ c'.pool.producer = .destroyAll (t + 1) ∧
      ∀ u, u ≠ t → c'.pool.threads u = c.pool.threads u := by
  have hfailing := failing_reach hk h
  simp only [Failing, hpc] at hfailing
  obtain ⟨hsetup, -⟩ := hfailing
  have hset : c.queues t ≠ none := fun hnone => absurd ((hsetup.queue t).mp hnone) (Nat.not_le_of_lt ht)
  have hshut := shut_reach hpc hprod (Nat.lt_of_lt_of_le ht hk) hset hx h
  have htid := hsetup.tid t
  by_cases hlt : t < k
  · rw [if_pos hlt] at htid
    exact join_reach hpc (.inr ⟨htid, rfl⟩) (exit_reach (Nat.lt_trans hlt hk) (by simp [htid]) hshut)
  · rw [if_neg hlt] at htid
    exact join_reach hpc (.inl htid) hshut

theorem queue_reach (ht : t < info.count) (hpc : c.pc = .queue t) (hx : ∀ u, c.pool.threads u = {})
    (h : Reach (system info k) anyRun c) :
    ∃ c', Reach (system info k) anyRun c' ∧ c'.pc = .start t ∧ ∀ u, c'.pool.threads u = {} := by
  have hqueue := h.step (l := .creator) (t := { c with
    pc := .start t
    queues := Function.update c.queues t (some (info.queue t))
    pool := c.pool.setThread t (c.pool.threads t).pQueueReset }) True.intro (by
      simp [system, step, udoJpoolCreate, hpc, ht])
  refine ⟨_, hqueue, rfl, ?_⟩
  intro u
  by_cases hu : u = t
  · subst hu; simp [Pool.setThread, Thread.pQueueReset, hx]
  · simp [Pool.setThread, hu, hx]

theorem build_reach (hk : k < info.count) (ht : t ≤ k) :
    ∃ c, Reach (system info k) anyRun c ∧ c.pc = .start t ∧ ∀ u, c.pool.threads u = {} := by
  induction t with
  | zero => exact queue_reach (Nat.zero_lt_of_lt hk) rfl (fun _ => rfl) (.init rfl)
  | succ t ih =>
    obtain ⟨c, hc, hpc, hx⟩ := ih (by omega)
    have hstart := hc.step (l := .creator) (t := { c with
      pc := .queue (t + 1), tids := Function.update c.tids t (some t) }) True.intro (by
        simp [system, step, udoJpoolCreate, hpc, show t ≠ k by omega])
    apply queue_reach (Nat.lt_of_le_of_lt ht hk) _ _ hstart
    · rfl
    · exact hx

theorem cleanup_reach (hk : k < info.count) (ht : t ≤ k + 1) :
    ∃ c, Reach (system info k) anyRun c ∧ c.pc = .destroy ∧ c.pool.producer = .destroyAll t ∧
      ∀ u, t ≤ u → c.pool.threads u = {} := by
  induction t with
  | zero =>
    obtain ⟨c, hc, hpc, hx⟩ := build_reach hk le_rfl
    have hfail := hc.step (l := .creator) (t := { c with
      pc := .destroy, pool := c.pool.goto (.destroyAll 0) }) True.intro (by
        simp [system, step, udoJpoolCreate, hpc])
    exact ⟨_, hfail, rfl, rfl, fun u _ => hx u⟩
  | succ t ih =>
    obtain ⟨c, hc, hpc, hprod, hx⟩ := ih (by omega)
    obtain ⟨c', hc', hpc', hprod', hx'⟩ := next_reach hk (by omega) hpc hprod (hx t le_rfl) hc
    refine ⟨c', hc', hpc', hprod', ?_⟩
    intro u hu
    rw [hx' u (by omega), hx u (by omega)]

theorem ended_reach (hk : k < info.count) : ∃ c, Reach (system info k) anyRun c ∧ c.Ended := by
  obtain ⟨c, hc, hpc, hprod, -⟩ := cleanup_reach hk le_rfl
  have hfailing := failing_reach hk hc
  simp only [Failing, hpc] at hfailing
  have hunset : c.queues (k + 1) = none := (hfailing.1.queue (k + 1)).mpr le_rfl
  by_cases hlast : k + 1 < info.count
  · have hload := hc.step (l := .creator) (t := { c with
      pool := c.pool.goto (.queueWait .load (k + 1) .destroy) }) True.intro (by
        simp [system, step, udoJpoolCreate, hpc, udoJpoolDestroy, hprod, Pool.producerStep, hlast])
    have hcrash := hload.step (l := .creator) (t := { c with
      pc := .crashed, pool := c.pool.goto (.queueWait .load (k + 1) .destroy) }) True.intro (by
        simp [system, step, udoJpoolCreate, hpc, udoJpoolDestroy, Pool.goto, hunset])
    exact ⟨_, hcrash, .inl rfl⟩
  · have hleave := hc.step (l := .creator) (t := { c with pool := c.pool.goto .destroyed }) True.intro (by
      simp [system, step, udoJpoolCreate, hpc, udoJpoolDestroy, hprod, Pool.producerStep, hlast])
    have hdone := hleave.step (l := .creator) (t := { c with
      pc := .done false, unmapped := c.unmapped + 1, pool := c.pool.goto .destroyed }) True.intro (by
        simp [system, step, udoJpoolCreate, hpc, udoJpoolDestroy, Pool.goto])
    exact ⟨_, hdone, .inr ⟨false, rfl⟩⟩

end Ending

theorem create_never_cleans_up (hk : k < info.count) : (∃ c, Reach (system info k) anyRun c ∧ c.Ended) ∧
      ∀ c, Reach (system info k) anyRun c → ¬c.FailsCleanly k := by
  refine ⟨ended_reach hk, ?_⟩
  intro c hc hclean
  have hfailing := failing_reach hk hc
  simp only [Failing, hclean.returned] at hfailing
  have hlength := congrArg List.length (hfailing.2.2.symm.trans hclean.joined)
  simp [joins] at hlength

theorem create_never_cleans_up_second : ∃ c, Reach (system ⟨64, 3, by decide⟩ 1) anyRun c ∧ c.Ended ∧
    ¬c.FailsCleanly 1 := by
  have hk : 1 < (⟨64, 3, by decide⟩ : JpoolCreateInfo).count := by decide
  obtain ⟨⟨c, hc, hended⟩, hnever⟩ := create_never_cleans_up hk
  exact ⟨c, hc, hended, hnever c hc⟩

/-- With the first of two threads failing, the second queue is loaded from through NULL. -/
theorem not_cleaned_up : ¬ ∀ (i : Option JpoolCreateInfo) (info : JpoolCreateInfo) (k : ℕ) (c : Creation),
    pJpoolCreateCheck i = some info → k < info.count → Reach (system info k) anyRun c → c.Ended →
      c.FailsCleanly k := by
  intro cleans
  obtain ⟨c, hc, hcrashed⟩ := exists_of_run (system ⟨64, 2, by decide⟩ 0) anyRun (.init rfl)
    (List.replicate 14 .creator) (fun c => c.pc = .crashed) (by decide)
  have hclean := cleans (some ⟨64, 2, by decide⟩) _ 0 c rfl (by decide) hc (.inl hcrashed)
  have hdone := hcrashed.symm.trans hclean.returned
  cases hdone

end Creation

end Libcando.Jpool
