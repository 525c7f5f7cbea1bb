import Libcando.JobBarrier
import Libcando.JobDealing
import Libcando.LostWakeUp

namespace Libcando.Jpool

open Futex Transition

-- a comparison with a `rear` that is out of date sends the worker round once more
def WorkerPc.toGo (front : ℕ) : WorkerPc → ℕ
  | subCount _ => 1
  | resetArg _ => 2
  | resetFunc _ => 3
  | running _ _ => 4
  | loadArg _ _ => 5
  | loadFunc _ => 6
  | addFront => 7
  | loadFront _ rear => if front < rear then 8 else 16
  | loadRear _ => 9
  | canLoop => 10
  | asleep _ => 12
  | kernelWait _ => 13
  | kernelLoad => 14
  | forceCheck _ => 15
  | exited => 0

namespace Thread

def toGo (x : Thread) : ℕ := 20 * x.jobCount + x.pc.toGo x.front

theorem turns {x : Thread} (hinside : x.pc ≠ .exited) (hawake : ∀ val, x.pc ≠ .asleep val) (data : ℕ)
    (m : ByteMemory.Mem) : ∃ x' m', pRunThread .plain data x m = some (x', m') := by
  cases hpc : x.pc with
  | asleep val => exact absurd hpc (hawake val)
  | exited => exact absurd hpc hinside
  | _ => exact ⟨_, _, by rw [pRunThread, hpc]⟩

namespace Live

variable {cap data k : ℕ} {x x' : Thread} {m m' : ByteMemory.Mem} {slot : ℕ → Slot}

theorem has_work (h : x.Live True cap .away slot k) (hcount : x.jobCount ≠ 0) (ho : x.pc.outside = true) :
    x.front < x.rear := by
  have hexact := h.exact trivial
  have hfinishes := h.finishes
  have htook := h.took
  have hfront := h.front
  have hrear := h.rear
  rw [(WorkerPc.outside_lags ho).2.2.2.2.1] at hfinishes
  rw [if_neg (by simp)] at hfront
  simp only [Stage.uncounted] at hexact
  omega

theorem sound (h : x.Live True cap .away slot k) (hcount : x.jobCount ≠ 0) : x.Sound .away ∧ x.Counted .away := by
  constructor
  · cases hpc : x.pc with
    | loadFront i rear => simpa [Sound, hpc] using fun _ => h.has_work hcount (by rw [hpc]; rfl)
    | _ => simp [Sound, hpc, Stage.blankFunc, Stage.blankArg]
  · cases hpc : x.pc <;> simp [Counted, hpc, Stage.slot]

theorem inside (h : x.Live True cap .away slot k) : x.pc ≠ .exited := by
  intro hpc
  have hround := h.round
  simp only [Round, hpc] at hround

theorem nearer (h : x.Live True cap .away slot k) (hcount : x.jobCount ≠ 0)
    (hs : Jpool.pRunThread .plain data x m = some (x', m')) : x'.toGo < x.toGo := by
  have hwork := h.has_work hcount
  cases pRunThread_cases hs with
  | leave hpc hf | forced i hpc hf => exact absurd hf h.free
  | wake val hpc ht => exact absurd rfl ht
  | loadRear i hpc =>
    rw [hpc] at hwork
    simp [toGo, WorkerPc.toGo, hpc, hwork rfl]
  | missed i rear hpc hle => simp [toGo, WorkerPc.toGo, hpc, Nat.not_lt.mpr hle]
  | found i rear hpc hlt => simp [toGo, WorkerPc.toGo, hpc, hlt]
  | subCount off hpc =>
    have hlt := h.count.1
    have hless : (x.jobCount + wordMax - 1) % wordMax = x.jobCount - 1 := by
      simp only [wordMax] at hlt ⊢
      omega
    simp only [toGo, WorkerPc.toGo, hpc, hless]
    omega
  | loop hpc | spin i hpc | tire i hpc | kernelLoad hpc | sleep val hpc | refuse val hpc =>
    simp [toGo, WorkerPc.toGo, hpc]
  | addFront hpc | skip off hpc | loadFunc off hpc | loadArg off func hpc | run off job hpc =>
    simp [toGo, WorkerPc.toGo, hpc]
  | resetFunc off hpc | resetArg off hpc => simp [toGo, WorkerPc.toGo, hpc]

end Live

end Thread

def WaitPc.toGo : WaitPc → ℕ
  | load => 6
  | wake => 5
  | resetFree => 4
  | resetCount => 3
  | resetFront => 2
  | resetRear => 1

namespace ProducerPc

def toGo (count : ℕ) : ProducerPc → ℕ
  | loadCur _ => 14
  | storeCur _ _ => 13
  | full _ _ => 12
  | queueWait pc _ (.addJob _) => 5 + pc.toGo
  | addRear _ _ => 5
  | storeFunc _ _ _ => 4
  | storeArg _ _ _ => 3
  | addCount _ _ => 2
  | wake _ => 1
  | queueWait pc tid .wait => 8 * (count - tid) + pc.toGo
  | waitAll tid => 8 * (count - tid) + 7
  | _ => 0

def Waiting : ProducerPc → Prop
  | queueWait pc _ _ => pc = .load ∨ pc = .wake
  | _ => False

theorem call_eq_none {pc : ProducerPc} : pc.call = .none ↔ pc = .idle := by
  cases pc with
  | queueWait pc tid caller => cases caller <;> simp [call, Caller.call]
  | _ => simp [call]

end ProducerPc

namespace Pool

def unaided : Act → Pool → Prop
  | .producer, _ => True
  | .worker t .plain, s => settled (.worker t .plain) s
  | _, _ => False

theorem settled_of_unaided {l : Act} {s : Pool} (h : unaided l s) : settled l s := by
  cases l with
  | producer => exact ⟨by simp [undestroyed], trivial, trivial⟩
  | worker t turn =>
    cases turn with
    | plain => exact h
    | _ => exact h.elim
  | _ => exact h.elim

def closing : Act → Pool → Prop
  | .destroy, _ | .producer, _ | .worker _ .plain, _ => True
  | _, _ => False

theorem closing_of_unaided {l : Act} {s : Pool} (h : unaided l s) : closing l s := by
  cases l with
  | producer => trivial
  | worker t turn =>
    cases turn with
    | plain => trivial
    | _ => exact h.elim
  | _ => exact h.elim

variable {info : JpoolCreateInfo} {s s' : Pool} {t : ℕ} {caller : Caller}

theorem kept_settled {i : Option JpoolCreateInfo} (hi : pJpoolCreateCheck i = some info) (hcap : 16 ≤ info.queueSz)
    (h : Reach (system info) settled s) : s.Kept True info ∧ s.producer.destroying = false :=
  ⟨kept_reach (JpoolCreateInfo.check_accepted hi).2 hcap (fun _ _ hok => hok.2.1) (fun _ _ _ hok => hok.2.2) h,
    not_destroying_reach (fun _ _ hok => hok.1) h⟩

def InUse (info : JpoolCreateInfo) (s : Pool) (t : ℕ) : Prop :=
  ∃ k, (s.threads t).Live True info.queueSz .away (queueSlots info.queueSz (info.queueData t) s.mem) k

def Beside (info : JpoolCreateInfo) (t : ℕ) (s s' : Pool) : Prop :=
  ∀ u < info.count, u ≠ t → s'.threads u = s.threads u ∧
    queueSlots info.queueSz (info.queueData u) s'.mem = queueSlots info.queueSz (info.queueData u) s.mem

theorem Beside.refl (s : Pool) : Beside info t s s := fun _ _ _ => ⟨rfl, rfl⟩

theorem Beside.trans {u : Pool} (h : Beside info t s s') (h' : Beside info t s' u) : Beside info t s u := by
  intro v hv hne
  exact ⟨(h' v hv hne).1.trans (h v hv hne).1, (h' v hv hne).2.trans (h v hv hne).2⟩

theorem beside_setThread (s : Pool) (t : ℕ) (x : Thread) : Beside info t s (s.setThread t x) :=
  fun _ _ hne => ⟨setThread_of_ne hne s x, rfl⟩

theorem counted_down (hinfo : info.Accepted) (h : s.InUse info t) (ht : t < info.count)
    (hpc : s.producer = .queueWait .load t caller ∨ s.producer = .queueWait .wake t caller) :
    ∃ s', Leads (system info) unaided s s' ∧ s'.producer = .queueWait .resetFree t caller ∧ s'.InUse info t ∧
      (s'.threads t).jobCount = 0 ∧ Beside info t s s' := by
  have hload {s : Pool} (hpc : s.producer = .queueWait .load t caller) : Leads (system info) unaided s
      (s.goto (.queueWait (if (s.threads t).jobCount = 0 then .resetFree else .wake) t caller)) := by
    apply Leads.single .producer trivial
    simp only [system, step, producerStep, hpc, pQueueWait]
  have hwake {s : Pool} (hpc : s.producer = .queueWait .wake t caller) :
      Leads (system info) unaided s ((s.wakeUp t).goto (.queueWait .load t caller)) := by
    apply Leads.single .producer trivial
    simp only [system, step, producerStep, hpc, pQueueWait]
  have hwoken {s : Pool} (h : s.InUse info t) (pc : ProducerPc) : ((s.wakeUp t).goto pc).InUse info t := by
    obtain ⟨k, hlive⟩ := h
    refine ⟨k, ?_⟩
    rw [goto_threads, wakeUp_self]
    exact hlive.wakeUp
  apply leads_of_progress (I := fun u => (u.producer = .queueWait .load t caller ∨
      u.producer = .queueWait .wake t caller) ∧ u.InUse info t ∧ Beside info t s u)
    (fun s => 2 * (s.threads t).toGo + (if s.producer = .queueWait .load t caller then 1 else 0)) _
    ⟨hpc, h, .refl s⟩
  rintro u ⟨hpc, huse, hbeside⟩
  obtain ⟨k, hlive⟩ := huse
  by_cases hzero : (u.threads t).jobCount = 0
  · rcases hpc with hpc | hpc
    · exact ⟨_, hload hpc, .inl ⟨by simp [hzero], ⟨k, hlive⟩, hzero, hbeside⟩⟩
    · refine ⟨_, (hwake hpc).trans (hload rfl), .inl ⟨?_, hwoken ⟨k, hlive⟩ _, ?_, ?_⟩⟩
      · simp [wakeUp_self, hzero]
      · simp [wakeUp_self, hzero]
      · exact hbeside.trans (beside_setThread u t _)
  by_cases hawake : ∀ val, (u.threads t).pc ≠ .asleep val
  · obtain ⟨x', m', hx⟩ := Thread.turns hlive.inside hawake (info.queueData t) u.mem
    have hstage : u.producer.stage t = .away := by
      rcases hpc with hpc | hpc <;> simp [hpc, ProducerPc.stage, WaitPc.stage]
    have hsound := hlive.sound hzero
    have hok : unaided (.worker t .plain) u := by
      refine ⟨by simp [undestroyed], ?_, ?_⟩
      · rw [Pool.sound, hstage]
        exact hsound.1
      · rw [Pool.counted, hstage]
        exact hsound.2
    have hstep : (system info).step (.worker t .plain) u = some { u.setThread t x' with mem := m' } := by
      simp [system, step, ht, hx]
    have hself : (u.setThread t x').threads t = x' := Function.update_self ..
    refine ⟨_, .single _ hok hstep, .inr ⟨⟨hpc, ?_, ?_⟩, ?_⟩⟩
    · obtain ⟨k', hlive'⟩ := hlive.pRunThread info.queueSz_lt hsound.1 (fun _ => hsound.2) hx
      refine ⟨k', ?_⟩
      change ((u.setThread t x').threads t).Live _ _ _ _ _
      rw [hself]
      exact hlive'
    · intro v hv hne
      obtain ⟨hthreads, hslots⟩ := hbeside v hv hne
      exact ⟨(setThread_of_ne hne u x').trans hthreads,
        (hlive.frame hx (JpoolCreateInfo.queueData_apart hinfo hv ht hne)).trans hslots⟩
    · have hnearer := hlive.nearer hzero hx
      change 2 * ((u.setThread t x').threads t).toGo + (if u.producer = .queueWait .load t caller then 1 else 0) < _
      rw [hself]
      omega
  · push Not at hawake
    obtain ⟨val, hasleep⟩ := hawake
    rcases hpc with hpc | hpc
    · have hleads := hload hpc
      rw [if_neg hzero] at hleads
      exact ⟨_, hleads, .inr ⟨⟨.inr rfl, ⟨k, hlive⟩, hbeside⟩, by simp [hpc]⟩⟩
    · refine ⟨_, hwake hpc, .inr ⟨⟨.inl rfl, hwoken ⟨k, hlive⟩ _, ?_⟩, ?_⟩⟩
      · exact hbeside.trans (beside_setThread u t _)
      · simp only [goto_threads, goto_producer, wakeUp_self, if_true, Thread.toGo, hasleep, WorkerPc.wakeUp,
          WorkerPc.toGo, hpc]
        omega

theorem producer_nearer (hwf : s.producer.Wf info.count) (hcalm : s.producer.destroying = false)
    (hidle : s.producer ≠ .idle) (hwait : ¬s.producer.Waiting) :
    ∃ s', s.producerStep info = some s' ∧ s'.producer.toGo info.count < s.producer.toGo info.count := by
  obtain ⟨s', hs⟩ : ∃ s', s.producerStep info = some s' := by
    cases hpc : s.producer with
    | idle => exact absurd hpc hidle
    | destroyed | join t => rw [hpc] at hcalm; cases hcalm
    | force w t => cases w <;> simp [producerStep, hpc]
    | _ => simp [producerStep, hpc]
  refine ⟨s', hs, ?_⟩
  cases producerStep_cases hs with
  | destroyNext t hpc | destroyDone t hpc | force v t hpc | forceWake t hpc | wakeCond t hpc | join t hpc =>
    rw [hpc] at hcalm
    cases hcalm
  | queueWait w t caller hpc =>
    rw [hpc] at hwf hcalm hwait
    have ht : t < info.count := (Kept.queueWait_wf w w hwf).2
    rw [hpc]
    cases caller with
    | destroy => cases hcalm
    | addJob job =>
      cases w with
      | load => exact absurd (.inl rfl) hwait
      | wake => exact absurd (.inr rfl) hwait
      | _ => simp [pQueueWait, ProducerPc.toGo, WaitPc.toGo]
    | wait =>
      cases w with
      | load => exact absurd (.inl rfl) hwait
      | wake => exact absurd (.inr rfl) hwait
      | resetRear =>
        simp only [pQueueWait, goto_producer, ProducerPc.toGo, WaitPc.toGo]
        omega
      | _ => simp [pQueueWait, ProducerPc.toGo, WaitPc.toGo]
  | waitNext t hpc ht | waitDone t hpc ht => simp [hpc, ProducerPc.toGo, WaitPc.toGo]
  | loadCur job hpc | storeCur t job hpc | full t job hpc | room t job hpc | addRear t job hpc =>
    simp [hpc, ProducerPc.toGo, WaitPc.toGo]
  | storeFunc t off job hpc | storeArg t off job hpc | addCount t off hpc | wake t hpc =>
    simp [hpc, ProducerPc.toGo]

theorem waited_done {i : Option JpoolCreateInfo} (hi : pJpoolCreateCheck i = some info) (hcap : 16 ≤ info.queueSz)
    (h : Reach (system info) settled s) (hs : s.producerStep info = some s') (hwait : s.producer.call = .wait)
    (hidle : s'.producer = .idle) {t : ℕ} (ht : t < info.count) : (s'.threads t).Done := by
  cases producerStep_cases hs with
  | waitDone u hpc hu => exact (wait_barrier hi hcap h).1.all u hpc t (Nat.lt_of_lt_of_le ht hu) ht
  | wake u hpc =>
    rw [hpc] at hwait
    cases hwait
  | queueWait w u caller hpc => cases w <;> cases caller <;> cases hidle
  | _ => cases hidle

theorem call_returns {i : Option JpoolCreateInfo} (hi : pJpoolCreateCheck i = some info) (hcap : 16 ≤ info.queueSz)
    (h : Reach (system info) settled s) : ∃ s', Leads (system info) unaided s s' ∧ s'.producer = .idle ∧
      (s.producer.call = .wait → ∀ t < info.count, (s'.threads t).Done) := by
  by_cases hstart : s.producer = .idle
  · refine ⟨s, .refl s, hstart, ?_⟩
    intro hwait
    rw [hstart] at hwait
    cases hwait
  apply leads_of_progress (I := fun u => Reach (system info) settled u ∧ u.producer ≠ .idle ∧
      (s.producer.call = .wait → u.producer.call = .wait)) (fun u => u.producer.toGo info.count) _ ⟨h, hstart, id⟩
  rintro u ⟨hu, hidle, hcall⟩
  obtain ⟨hkept, hcalm⟩ := kept_settled hi hcap hu
  by_cases hwaiting : u.producer.Waiting
  · cases hpc : u.producer with
    | queueWait w t caller =>
      have hwf := hkept.wf
      rw [hpc] at hwf hcalm hcall hwaiting
      have ht := (Kept.queueWait_wf w w hwf).2
      have huse : u.InUse info t := by
        apply hkept.live hpc ht (Kept.queueWait_past w t caller)
        rw [Kept.queueWait_stage]
        rcases hwaiting with rfl | rfl <;> rfl
      obtain ⟨v, hleads, hv, -⟩ := counted_down (JpoolCreateInfo.check_accepted hi).2 huse ht
        (hwaiting.imp (fun hw => hw ▸ hpc) (fun hw => hw ▸ hpc))
      refine ⟨v, hleads, .inr ⟨⟨hu.leads (fun _ _ => settled_of_unaided) hleads, by simp [hv], ?_⟩, ?_⟩⟩
      · rw [hv]
        exact hcall
      · rw [hv]
        cases caller with
        | destroy => cases hcalm
        | _ => rcases hwaiting with rfl | rfl <;> simp [ProducerPc.toGo, WaitPc.toGo]
    | _ => simp [ProducerPc.Waiting, hpc] at hwaiting
  · obtain ⟨v, hv, hlt⟩ := producer_nearer hkept.wf hcalm hidle hwaiting
    have hleads : Leads (system info) unaided u v := .single .producer trivial hv
    refine ⟨v, hleads, ?_⟩
    by_cases hreturned : v.producer = .idle
    · exact .inl ⟨hreturned, fun hwait t ht => waited_done hi hcap hu hv (hcall hwait) hreturned ht⟩
    · refine .inr ⟨⟨hu.leads (fun _ _ => settled_of_unaided) hleads, hreturned, ?_⟩, hlt⟩
      intro hwait
      rcases producerStep_call hv with hnone | hsame
      · exact absurd (ProducerPc.call_eq_none.mp hnone) hreturned
      · rw [hsame]
        exact hcall hwait

theorem closing_jobs {ls : List Act} (h : ∀ l ∈ ls, ∃ u, closing l u) :
    jobs ls = [] ∧ ∀ t turn, .worker t turn ∈ ls → turn = .plain := by
  constructor
  · apply List.filterMap_eq_nil_iff.mpr
    intro l hl
    obtain ⟨u, hu⟩ := h l hl
    cases l with
    | addJob job => exact hu.elim
    | _ => rfl
  · intro t turn hl
    obtain ⟨u, hu⟩ := h _ hl
    cases turn with
    | plain => rfl
    | _ => exact hu.elim

theorem called_returns {i : Option JpoolCreateInfo} (hi : pJpoolCreateCheck i = some info) (hcap : 16 ≤ info.queueSz)
    {ls : List Act} {l : Act} (h : Trace (system info) settled ls s) (hl : settled l s)
    (hwork : ∀ t turn, l ≠ .worker t turn) (hs : step info l s = some s') :
    ∃ ls' t, Trace (system info) settled (ls ++ ls') t ∧ jobs ls' = l.accepted.toList ∧
      (∀ u turn, .worker u turn ∈ ls' → turn = .plain) ∧ t.producer = .idle ∧
      (s'.producer.call = .wait → ∀ u < info.count, (t.threads u).Done) := by
  have hcall := h.step hl hs
  obtain ⟨t, hleads, hidle, hdone⟩ := call_returns hi hcap hcall.reach
  obtain ⟨ls', htrace, hall⟩ := hcall.leads (fun _ _ => settled_of_unaided) hleads
  obtain ⟨hjobs, hplain⟩ := closing_jobs fun l hl => (hall l hl).imp fun _ => closing_of_unaided
  refine ⟨l :: ls', t, ?_, ?_, ?_, hidle, hdone⟩
  · rwa [List.append_cons]
  · cases hacc : l.accepted <;> simpa [jobs, hacc] using hjobs
  · intro u turn hu
    rcases List.mem_cons.mp hu with heq | hmem
    · exact absurd heq.symm (hwork u turn)
    · exact hplain u turn hmem

theorem jobs_added {i : Option JpoolCreateInfo} (hi : pJpoolCreateCheck i = some info) (hcap : 16 ≤ info.queueSz)
    {new : List Job} (hnew : ∀ job ∈ new, ¬(job.func = 0 ∨ job.arg = 0)) {ls : List Act}
    (h : Trace (system info) settled ls s) (hidle : s.producer = .idle) :
    ∃ ls' t, Trace (system info) settled (ls ++ ls') t ∧ jobs ls' = new ∧
      (∀ u turn, .worker u turn ∈ ls' → turn = .plain) ∧ t.producer = .idle := by
  induction new generalizing ls s with
  | nil => exact ⟨[], s, by rwa [List.append_nil], rfl, by simp, hidle⟩
  | cons job new ih =>
    have hjob := hnew job List.mem_cons_self
    have hs : step info (.addJob job) s = some (s.goto (.loadCur job)) := by simp [step, hidle, hjob]
    have hok : settled (.addJob job) s := ⟨by simp [undestroyed], trivial, trivial⟩
    obtain ⟨ls₁, u, hu, hjobs₁, hplain₁, hidle₁, -⟩ := called_returns hi hcap h hok (by simp) hs
    obtain ⟨ls₂, t, ht, hjobs₂, hplain₂, hidle₂⟩ :=
      ih (fun job hjob => hnew job (List.mem_cons_of_mem _ hjob)) hu hidle₁
    refine ⟨ls₁ ++ ls₂, t, by rwa [← List.append_assoc], ?_, ?_, hidle₂⟩
    · have hacc : Act.accepted (.addJob job) = some job := by simp [Act.accepted, hjob]
      rw [hacc] at hjobs₁
      rw [jobs, List.filterMap_append]
      exact congrArg₂ (· ++ ·) hjobs₁ hjobs₂
    · intro v turn hv
      exact (List.mem_append.mp hv).elim (hplain₁ v turn) (hplain₂ v turn)

theorem jobs_can_finish {i : Option JpoolCreateInfo} (hi : pJpoolCreateCheck i = some info) (hcap : 16 ≤ info.queueSz)
    {ls : List Act} (h : Trace (system info) settled ls s) {new : List Job}
    (hnew : ∀ job ∈ new, ¬(job.func = 0 ∨ job.arg = 0)) :
    ∃ ls' s', Trace (system info) settled (ls ++ ls') s' ∧ (∀ t turn, .worker t turn ∈ ls' → turn = .plain) ∧
      jobs ls' = new ∧ s'.producer = .idle ∧ ∀ t < info.count, (s'.threads t).returned = (s'.threads t).called.length ∧
        Dealt info.count t (jobs ls ++ new) ((s'.threads t).called.map Placement.job) := by
  obtain ⟨u₁, hleads, hidle₁, -⟩ := call_returns hi hcap h.reach
  obtain ⟨ls₁, h₁, hall⟩ := h.leads (fun _ _ => settled_of_unaided) hleads
  obtain ⟨hjobs₁, hplain₁⟩ := closing_jobs fun l hl => (hall l hl).imp fun _ => closing_of_unaided
  obtain ⟨ls₂, u₂, h₂, hjobs₂, hplain₂, hidle₂⟩ := jobs_added hi hcap hnew h₁ hidle₁
  have hwait : step info .wait u₂ = some (u₂.goto (.waitAll 0)) := by simp [step, hidle₂]
  have hok : settled .wait u₂ := ⟨by simp [undestroyed], trivial, trivial⟩
  obtain ⟨ls₃, s', h₃, hjobs₃, hplain₃, hidle₃, hdone⟩ := called_returns hi hcap h₂ hok (by simp) hwait
  have hnews : jobs (ls₁ ++ ls₂ ++ ls₃) = new := by
    rw [jobs, List.filterMap_append, List.filterMap_append]
    change jobs ls₁ ++ jobs ls₂ ++ jobs ls₃ = new
    rw [hjobs₁, hjobs₂, hjobs₃]
    simp [Act.accepted]
  have htrace : Trace (system info) settled (ls ++ (ls₁ ++ ls₂ ++ ls₃)) s' := by simpa using h₃
  refine ⟨ls₁ ++ ls₂ ++ ls₃, s', htrace, ?_, hnews, hidle₃, ?_⟩
  · intro t turn ht
    rcases List.mem_append.mp ht with ht | ht
    · exact (List.mem_append.mp ht).elim (hplain₁ t turn) (hplain₂ t turn)
    · exact hplain₃ t turn ht
  · intro t ht
    obtain ⟨hcalled, hreturned⟩ := hdone rfl t ht
    have hdealt := (dealing_trace (JpoolCreateInfo.check_accepted hi).2 (htrace.mono fun _ _ _ => trivial)).hands t ht
    have howed : s'.owed t = [] := by simp [owed, ProducerPc.chosen, hidle₃]
    rw [howed, List.append_nil, ← hcalled, jobs, List.filterMap_append] at hdealt
    exact ⟨by rw [hreturned, hcalled], by rw [← hnews]; exact hdealt⟩

theorem jobs_can_finish_two : ∃ ls ls' s', Trace (system onePage) settled (ls ++ ls') s' ∧ jobs ls = [⟨1, 2⟩] ∧
    jobs ls' = [⟨5, 6⟩] ∧ Dealt 1 0 [⟨1, 2⟩, ⟨5, 6⟩] ((s'.threads 0).called.map Placement.job) := by
  let ls : List Act := List.replicate 4 (.worker 0 .plain) ++ .addJob ⟨1, 2⟩ :: List.replicate 8 .producer ++
    List.replicate 4 (.worker 0 .plain)
  have hrun : (run (system onePage) settled ls {}).isSome = true := by decide +kernel
  obtain ⟨s, hs⟩ := Option.isSome_iff_exists.mp hrun
  have hinit : Trace (system onePage) settled [] {} := .init rfl
  obtain ⟨ls', s', htrace, -, hnew, -, hdone⟩ := jobs_can_finish (i := some onePage) rfl (by decide)
    (run_trace hinit hs) (by decide : ∀ job ∈ [(⟨5, 6⟩ : Job)], ¬(job.func = 0 ∨ job.arg = 0))
  exact ⟨ls, ls', s', htrace, by decide, hnew, (hdone 0 (by decide)).2⟩

end Pool

end Libcando.Jpool
