import Libcando.JobRounds

namespace Libcando.Jpool

open ByteMemory Futex Transition

namespace WaitPc

def stage : WaitPc → Stage
  | load | wake => .away
  | resetFree | resetCount | resetFront => .drained
  | resetRear => .cleared

end WaitPc

namespace ProducerPc

def stage (pc : ProducerPc) (t : ℕ) : Stage :=
  match pc with
  | queueWait w u caller => if t = u then w.stage else if caller = .wait ∧ t < u then .waited else .away
  | waitAll u => if t < u then .waited else .away
  | addRear u _ => if t = u then .ready else .away
  | storeFunc u off job => if t = u then .reserved off job else .away
  | storeArg u off job => if t = u then .half off job else .away
  | addCount u off => if t = u then .stored off else .away
  | force (.store _) u => if t = u then .closing else .away
  | _ => .away

def past (pc : ProducerPc) (t : ℕ) : Bool :=
  match pc with
  | queueWait _ u .destroy | destroyAll u | force (.store _) u => t < u
  | force .wake u | wakeCond u | join u => t ≤ u
  | destroyed => true
  | _ => false

def Wf (count : ℕ) : ProducerPc → Prop
  | loadCur job => job.func ≠ 0
  | storeCur u job | full u job | addRear u job | storeFunc u _ job | storeArg u _ job => u < count ∧ job.func ≠ 0
  | queueWait _ u (.addJob job) => u < count ∧ job.func ≠ 0
  | queueWait _ u _ | addCount u _ | wake u | force .wake u | wakeCond u | join u => u < count
  | force (.store value) u => u < count ∧ value = futexUnlockForce
  | _ => True

end ProducerPc

def Thread.Kept (strict : Prop) (cap : ℕ) (pc : ProducerPc) (t : ℕ) (x : Thread) (slot : ℕ → Slot) : Prop :=
  if pc.past t then x.Shut slot else ∃ k, x.Live strict cap (pc.stage t) slot k

structure Pool.Kept (strict : Prop) (info : JpoolCreateInfo) (s : Pool) : Prop where
  wf : s.producer.Wf info.count
  cur : s.curThread < info.count
  queues : ∀ t < info.count, (s.threads t).Kept strict info.queueSz s.producer t
    (queueSlots info.queueSz (info.queueData t) s.mem)

section Thread

variable {strict : Prop} {cap t : ℕ} {pc pc' : ProducerPc} {x : Thread} {slot : ℕ → Slot}

theorem Thread.Live.leave {k : ℕ} (h : x.Live strict cap .waited slot k) : x.Live strict cap .away slot k :=
  h.restage rfl rfl h.room nofun nofun

namespace Thread.Kept

theorem live (h : x.Kept strict cap pc t slot) (hp : pc.past t = false) :
    ∃ k, x.Live strict cap (pc.stage t) slot k := by
  rwa [Kept, hp, if_neg Bool.false_ne_true] at h

theorem shut (h : x.Kept strict cap pc t slot) (hp : pc.past t = true) : x.Shut slot := by
  rwa [Kept, if_pos hp] at h

theorem of_live {k : ℕ} (h : x.Live strict cap (pc.stage t) slot k) (hp : pc.past t = false) :
    x.Kept strict cap pc t slot := by
  rw [Kept, hp, if_neg Bool.false_ne_true]
  exact ⟨k, h⟩

theorem of_shut (h : x.Shut slot) (hp : pc.past t = true) : x.Kept strict cap pc t slot := by
  rwa [Kept, if_pos hp]

theorem wakeUp (h : x.Kept strict cap pc t slot) : Kept strict cap pc t { x with pc := x.pc.wakeUp } slot := by
  by_cases hp : pc.past t = true
  · exact of_shut (h.shut hp).wakeUp hp
  · obtain ⟨k, hk⟩ := h.live (Bool.eq_false_iff.mpr hp)
    exact of_live hk.wakeUp (Bool.eq_false_iff.mpr hp)

theorem elsewhere (h : x.Kept strict cap pc t slot) (hp : pc'.past t = pc.past t)
    (hst : pc'.stage t = pc.stage t ∨ pc.stage t = .waited ∧ pc'.stage t = .away) :
    x.Kept strict cap pc' t slot := by
  by_cases hpast : pc.past t = true
  · exact of_shut (h.shut hpast) (hp.trans hpast)
  · have hpast := Bool.eq_false_iff.mpr hpast
    obtain ⟨k, hk⟩ := h.live hpast
    rcases hst with hst | ⟨hw, ha⟩
    · exact of_live (k := k) (hst ▸ hk) (hp.trans hpast)
    · rw [hw] at hk
      exact of_live (k := k) (ha ▸ hk.leave) (hp.trans hpast)

end Thread.Kept

end Thread

def Pool.sound (l : Act) (s : Pool) : Prop :=
  match l with
  | .worker t _ => (s.threads t).Sound (s.producer.stage t)
  | _ => True

instance (l : Act) (s : Pool) : Decidable (Pool.sound l s) :=
  match l with
  | .worker t _ => inferInstanceAs (Decidable ((s.threads t).Sound (s.producer.stage t)))
  | .addJob _ | .wait | .destroy | .producer => isTrue trivial

def Pool.counted (l : Act) (s : Pool) : Prop :=
  match l with
  | .worker t _ => (s.threads t).Counted (s.producer.stage t)
  | _ => True

instance (l : Act) (s : Pool) : Decidable (Pool.counted l s) :=
  match l with
  | .worker t _ => inferInstanceAs (Decidable ((s.threads t).Counted (s.producer.stage t)))
  | .addJob _ | .wait | .destroy | .producer => isTrue trivial

namespace Pool.Kept

variable {strict : Prop} {info : JpoolCreateInfo} {s s' : Pool}

theorem live (h : s.Kept strict info) {pc : ProducerPc} {t : ℕ} {st : Stage} (hpc : s.producer = pc)
    (ht : t < info.count) (hp : pc.past t = false) (hst : pc.stage t = st) :
    ∃ k, (s.threads t).Live strict info.queueSz st (queueSlots info.queueSz (info.queueData t) s.mem) k := by
  subst hpc hst
  exact (h.queues t ht).live hp

theorem put (h : s.Kept strict info) {pc : ProducerPc} {t : ℕ} {x : Thread} {m : Mem} (hwf : pc.Wf info.count)
    (hself : x.Kept strict info.queueSz pc t (queueSlots info.queueSz (info.queueData t) m))
    (hother : ∀ u < info.count, u ≠ t → pc.past u = s.producer.past u ∧
      (pc.stage u = s.producer.stage u ∨ s.producer.stage u = .waited ∧ pc.stage u = .away) ∧
      queueSlots info.queueSz (info.queueData u) m = queueSlots info.queueSz (info.queueData u) s.mem) :
    Kept strict info { s.setThread t x with mem := m, producer := pc } := by
  refine ⟨hwf, h.cur, ?_⟩
  intro u hu
  by_cases hut : u = t
  · subst hut
    simpa only [setThread, Function.update_self] using hself
  · obtain ⟨hp, hst, hslots⟩ := hother u hu hut
    simp only [setThread, Function.update_of_ne hut, hslots]
    exact (h.queues u hu).elsewhere hp hst

theorem store (h : s.Kept strict info) (hinfo : info.Accepted) {pc : ProducerPc} {t a k : ℕ} {v : UInt64}
    (ht : t < info.count) (hwf : pc.Wf info.count) (ha : info.queueData t ≤ a)
    (hacap : a + 8 ≤ info.queueData t + info.queueSz) (hpast : pc.past t = false)
    (hself : (s.threads t).Live strict info.queueSz (pc.stage t)
      (queueSlots info.queueSz (info.queueData t) (storeWord s.mem a v)) k)
    (hother : ∀ u, u ≠ t → pc.past u = s.producer.past u ∧ pc.stage u = s.producer.stage u) :
    Kept strict info ({ s with mem := storeWord s.mem a v }.goto pc) := by
  have hput : Kept strict info { s.setThread t (s.threads t) with mem := storeWord s.mem a v, producer := pc } := by
    apply h.put hwf (.of_live hself hpast)
    intro u hu hut
    have hapart := JpoolCreateInfo.queueData_apart hinfo hu ht hut
    exact ⟨(hother u hut).1, .inl (hother u hut).2, queueSlots_storeWord_outside (by omega)⟩
  simpa only [setThread, goto, Function.update_eq_self] using hput

theorem turn (h : s.Kept strict info) {pc : ProducerPc} {t : ℕ} (hwf : pc.Wf info.count)
    (hself : (s.threads t).Kept strict info.queueSz pc t
      (queueSlots info.queueSz (info.queueData t) s.mem))
    (hother : ∀ u < info.count, u ≠ t → pc.past u = s.producer.past u ∧
      (pc.stage u = s.producer.stage u ∨ s.producer.stage u = .waited ∧ pc.stage u = .away)) :
    Kept strict info (s.goto pc) := by
  refine ⟨hwf, h.cur, ?_⟩
  intro u hu
  by_cases hut : u = t
  · subst hut
    exact hself
  · exact (h.queues u hu).elsewhere (hother u hu hut).1 (hother u hu hut).2

theorem go (h : s.Kept strict info) {pc : ProducerPc} (hwf : pc.Wf info.count)
    (hall : ∀ u < info.count, pc.past u = s.producer.past u ∧
      (pc.stage u = s.producer.stage u ∨ s.producer.stage u = .waited ∧ pc.stage u = .away)) :
    Kept strict info (s.goto pc) := by
  refine ⟨hwf, h.cur, ?_⟩
  intro u hu
  exact (h.queues u hu).elsewhere (hall u hu).1 (hall u hu).2

theorem queueWait_wf {count t : ℕ} {caller : Caller} (w w' : WaitPc)
    (h : (ProducerPc.queueWait w t caller).Wf count) : (ProducerPc.queueWait w' t caller).Wf count ∧ t < count := by
  cases caller with
  | addJob job => exact ⟨h, h.1⟩
  | wait | destroy => exact ⟨h, h⟩

theorem queueWait_elsewhere {t u : ℕ} (caller : Caller) (w w' : WaitPc) (hut : u ≠ t) :
    (ProducerPc.queueWait w' t caller).past u = (ProducerPc.queueWait w t caller).past u ∧
      (ProducerPc.queueWait w' t caller).stage u = (ProducerPc.queueWait w t caller).stage u := by
  constructor
  · cases caller <;> rfl
  · simp only [ProducerPc.stage, if_neg hut]

theorem queueWait_past (w : WaitPc) (t : ℕ) (caller : Caller) : (ProducerPc.queueWait w t caller).past t = false := by
  cases caller <;> simp [ProducerPc.past]

theorem queueWait_stage (w : WaitPc) (t : ℕ) (caller : Caller) :
    (ProducerPc.queueWait w t caller).stage t = w.stage := if_pos rfl

theorem queueWait (h : s.Kept strict info) (hcap : 16 ≤ info.queueSz) (hword : info.queueSz < wordMax)
    {w : WaitPc} {t : ℕ} {caller : Caller} (hpc : s.producer = .queueWait w t caller) :
    Kept strict info (s.pQueueWait w t caller) := by
  have hwf := h.wf
  rw [hpc] at hwf
  have ht := (queueWait_wf w w hwf).2
  obtain ⟨k, hk⟩ := h.live hpc ht (queueWait_past w t caller) (queueWait_stage w t caller)
  have hother (w' : WaitPc) (u : ℕ) (hut : u ≠ t) :
      (ProducerPc.queueWait w' t caller).past u = s.producer.past u ∧
        ((ProducerPc.queueWait w' t caller).stage u = s.producer.stage u ∨
          s.producer.stage u = .waited ∧ (ProducerPc.queueWait w' t caller).stage u = .away) := by
    rw [hpc]
    obtain ⟨hp, hst⟩ := queueWait_elsewhere caller w w' hut
    exact ⟨hp, .inl hst⟩
  have hput (w' : WaitPc) {x : Thread} (hx : x.Live strict info.queueSz w'.stage
      (queueSlots info.queueSz (info.queueData t) s.mem) k) :
      Kept strict info ((s.setThread t x).goto (.queueWait w' t caller)) := by
    refine h.put (m := s.mem) (queueWait_wf w w' hwf).1 (.of_live (k := k) ?_ (queueWait_past w' t caller)) ?_
    · rw [queueWait_stage]
      exact hx
    · intro u _ hut
      exact ⟨(hother w' u hut).1, (hother w' u hut).2, rfl⟩
  cases w with
  | load =>
    simp only [pQueueWait]
    refine h.turn (queueWait_wf .load _ hwf).1 (.of_live (k := k) ?_ (queueWait_past _ t caller)) ?_
    · rw [queueWait_stage]
      split_ifs with hzero
      · exact hk.drained hword hzero
      · exact hk
    · intro u _ hut
      exact hother _ u hut
  | wake => exact hput .load hk.wakeUp
  | resetFree => exact hput .resetCount hk.resetFree
  | resetCount => exact hput .resetFront hk.resetCount
  | resetFront => exact hput .resetRear hk.resetFront
  | resetRear =>
    cases caller with
    | addJob job =>
      refine h.put (m := s.mem) hwf (.of_live (k := 0) ?_ rfl) ?_
      · simp only [ProducerPc.stage, if_true]
        exact hk.resetRear hcap rfl
      · intro u _ hut
        refine ⟨?_, .inl ?_, rfl⟩
        · rw [hpc]; rfl
        · rw [hpc]; simp [ProducerPc.stage, hut]
    | wait =>
      change Kept strict info ((s.setThread t _).goto (.waitAll (t + 1)))
      refine h.put (m := s.mem) trivial (.of_live (k := 0) ?_ rfl) ?_
      · simp only [ProducerPc.stage, Nat.lt_succ_self, if_true]
        exact hk.resetRear hcap rfl
      · intro u _ hut
        have hlt : u < t + 1 ↔ u < t := by omega
        refine ⟨?_, .inl ?_, rfl⟩
        · rw [hpc]; rfl
        · rw [hpc]; simp [ProducerPc.stage, hut, hlt]
    | destroy =>
      change Kept strict info ((s.setThread t _).goto (.force udoFutexUnlockForce t))
      refine h.put (m := s.mem) ⟨hwf, rfl⟩ (.of_live (k := 0) ?_ ?_) ?_
      · simp only [udoFutexUnlockForce, ProducerPc.stage, if_true]
        exact hk.resetRear hcap rfl
      · simp [udoFutexUnlockForce, ProducerPc.past]
      · intro u _ hut
        refine ⟨?_, .inl ?_, rfl⟩
        · rw [hpc]; rfl
        · rw [hpc]; simp [udoFutexUnlockForce, ProducerPc.stage, hut]

theorem full (h : s.Kept strict info) {t : ℕ} {job : Job} (hpc : s.producer = .full t job) :
    Kept strict info (s.goto (.queueWait .load t (.addJob job))) := by
  have hwf := h.wf
  rw [hpc] at hwf
  refine h.go hwf ?_
  intro u _
  rw [hpc]
  refine ⟨rfl, .inl ?_⟩
  simp [ProducerPc.stage, WaitPc.stage]

theorem room (h : s.Kept strict info) (hcap : 16 ≤ info.queueSz) (hword : info.queueSz < wordMax) {t : ℕ}
    {job : Job} (hpc : s.producer = .full t job) (hroom : ¬pQueueFull (s.threads t) info.queueSz = true) :
    Kept strict info (s.goto (.addRear t job)) := by
  have hwf := h.wf
  rw [hpc] at hwf
  obtain ⟨k, hk⟩ := h.live (t := t) hpc hwf.1 rfl rfl
  refine h.turn (t := t) hwf (.of_live (k := k) ?_ rfl) ?_
  · have hlast : 16 * (s.threads t).cur.length + 16 ≤ info.queueSz := by
      have hrear := hk.rear
      rw [pQueueFull_iff hcap hword] at hroom
      omega
    simp only [ProducerPc.stage, if_true]
    exact hk.restage rfl rfl hlast nofun nofun
  · intro u _ hut
    rw [hpc]
    refine ⟨rfl, .inl ?_⟩
    simp only [ProducerPc.stage, if_neg hut]

theorem addRear (h : s.Kept strict info) (hword : info.queueSz < wordMax) {t : ℕ} {job : Job}
    (hpc : s.producer = .addRear t job) : Kept strict info ((s.setThread t { s.threads t with
      rear := ((s.threads t).rear + sizeofJob) % wordMax
      cur := (s.threads t).cur ++ [⟨(s.threads t).rear, job⟩] }).goto
        (.storeFunc t (s.threads t).rear job)) := by
  have hwf := h.wf
  rw [hpc] at hwf
  obtain ⟨k, hk⟩ := h.live hpc hwf.1 rfl (if_pos rfl)
  refine h.put (m := s.mem) hwf (.of_live (k := k) ?_ rfl) ?_
  · simp only [ProducerPc.stage, if_true]
    exact hk.addRear hword hwf.2
  · intro u _ hut
    rw [hpc]
    refine ⟨rfl, .inl ?_, rfl⟩
    simp only [ProducerPc.stage, if_neg hut]

theorem storeFunc (h : s.Kept strict info) (hinfo : info.Accepted) {t off : ℕ} {job : Job}
    (hpc : s.producer = .storeFunc t off job) :
    Kept strict info ({ s with mem := storeWord s.mem (info.queueData t + off) job.func }.goto
      (.storeArg t off job)) := by
  have hwf := h.wf
  rw [hpc] at hwf
  obtain ⟨k, hk⟩ := h.live hpc hwf.1 rfl (if_pos rfl)
  have hlast := hk.last off rfl
  have hroom := hk.room
  refine h.store hinfo hwf.1 hwf (by omega) (by omega) rfl (k := k) ?_ ?_
  · rw [queueSlots_storeWord_func (by omega) (by omega)]
    simp only [ProducerPc.stage, if_true]
    exact hk.storeFunc
  · intro u hut
    rw [hpc]
    refine ⟨rfl, ?_⟩
    simp only [ProducerPc.stage, if_neg hut]

theorem storeArg (h : s.Kept strict info) (hinfo : info.Accepted) {t off : ℕ} {job : Job}
    (hpc : s.producer = .storeArg t off job) :
    Kept strict info ({ s with mem := storeWord s.mem (info.queueData t + off + 8) job.arg }.goto
      (.addCount t off)) := by
  have hwf := h.wf
  rw [hpc] at hwf
  obtain ⟨k, hk⟩ := h.live hpc hwf.1 rfl (if_pos rfl)
  have hlast := hk.last off rfl
  have hroom := hk.room
  refine h.store hinfo hwf.1 hwf.1 (by omega) (by omega) rfl (k := k) ?_ ?_
  · rw [queueSlots_storeWord_arg (by omega) (by omega)]
    simp only [ProducerPc.stage, if_true]
    exact hk.storeArg
  · intro u hut
    rw [hpc]
    refine ⟨rfl, ?_⟩
    simp only [ProducerPc.stage, if_neg hut]

theorem addCount (h : s.Kept strict info) (hword : info.queueSz < wordMax) {t off : ℕ}
    (hpc : s.producer = .addCount t off) : Kept strict info ((s.setThread t { s.threads t with
      jobCount := ((s.threads t).jobCount + 1) % wordMax }).goto (.wake t)) := by
  have hwf := h.wf
  rw [hpc] at hwf
  obtain ⟨k, hk⟩ := h.live hpc hwf rfl (if_pos rfl)
  refine h.put (m := s.mem) hwf (.of_live (hk.addCount hword) rfl) ?_
  intro u _ hut
  rw [hpc]
  refine ⟨rfl, .inl ?_, rfl⟩
  simp only [ProducerPc.stage, if_neg hut]

theorem wake (h : s.Kept strict info) {pc : ProducerPc} {t : ℕ} (ht : t < info.count)
    (hwf : pc.Wf info.count) (hall : ∀ u, pc.past u = s.producer.past u ∧ pc.stage u = s.producer.stage u) :
    Kept strict info ((s.wakeUp t).goto pc) := by
  apply h.put (m := s.mem) hwf ((h.queues t ht).wakeUp.elsewhere (hall t).1 (.inl (hall t).2))
  intro u _ _
  exact ⟨(hall u).1, .inl (hall u).2, rfl⟩

theorem forceStore (h : s.Kept strict info) {t value : ℕ} (hpc : s.producer = .force (.store value) t) :
    Kept strict info ((s.setThread t { s.threads t with jobFree := value }).goto (.force .wake t)) := by
  have hwf := h.wf
  rw [hpc] at hwf
  obtain ⟨ht, rfl⟩ := hwf
  obtain ⟨k, hk⟩ := h.live hpc ht (by simp [ProducerPc.past]) (if_pos rfl)
  refine h.put (m := s.mem) ht (.of_shut hk.shut (by simp [ProducerPc.past])) ?_
  intro u _ hut
  have hle : u ≤ t ↔ u < t := by omega
  rw [hpc]
  refine ⟨?_, .inl ?_, rfl⟩
  · simp only [ProducerPc.past, hle]
  · simp only [ProducerPc.stage, if_neg hut]

theorem worker (h : s.Kept strict info) (hinfo : info.Accepted) (hcap : 16 ≤ info.queueSz)
    (hword : info.queueSz < wordMax) {t : ℕ} {turn : Turn} {x : Thread} {m : Mem} (ht : t < info.count)
    (hok : (s.threads t).Sound (s.producer.stage t))
    (hcounted : strict → (s.threads t).Counted (s.producer.stage t))
    (hrun : pRunThread turn (info.queueData t) (s.threads t) s.mem = some (x, m)) :
    Kept strict info { s.setThread t x with mem := m } := by
  have hkept := h.queues t ht
  by_cases hp : s.producer.past t = true
  · obtain ⟨hshut, rfl⟩ := (hkept.shut hp).pRunThread hcap hok hrun
    apply h.put h.wf (.of_shut hshut hp)
    intro u _ _
    exact ⟨rfl, .inl rfl, rfl⟩
  · have hp := Bool.eq_false_iff.mpr hp
    obtain ⟨k, hk⟩ := hkept.live hp
    obtain ⟨k', hk'⟩ := hk.pRunThread hword hok hcounted hrun
    apply h.put h.wf (.of_live hk' hp)
    intro u hu hut
    refine ⟨rfl, .inl rfl, ?_⟩
    exact hk.frame hrun (JpoolCreateInfo.queueData_apart hinfo hu ht hut)

theorem producer (h : s.Kept strict info) (hinfo : info.Accepted) (hcap : 16 ≤ info.queueSz)
    (hword : info.queueSz < wordMax) (hs : s.producerStep info = some s') : Kept strict info s' := by
  have hwf := h.wf
  cases producerStep_cases hs with
  | loadCur job hpc =>
    rw [hpc] at hwf
    refine h.go ⟨h.cur, hwf⟩ ?_
    intro u _
    rw [hpc]
    exact ⟨rfl, .inl rfl⟩
  | storeCur t job hpc =>
    rw [hpc] at hwf
    refine ⟨hwf, Nat.mod_lt _ hinfo.count_pos, ?_⟩
    intro u hu
    refine (h.queues u hu).elsewhere ?_ (.inl ?_)
    · rw [hpc]; rfl
    · rw [hpc]; rfl
  | full t job hpc hfull => exact h.full hpc
  | room t job hpc hroom => exact h.room hcap hword hpc hroom
  | queueWait w t caller hpc => exact h.queueWait hcap hword hpc
  | addRear t job hpc => exact h.addRear hword hpc
  | storeFunc t off job hpc => exact h.storeFunc hinfo hpc
  | storeArg t off job hpc => exact h.storeArg hinfo hpc
  | addCount t off hpc => exact h.addCount hword hpc
  | wake t hpc =>
    rw [hpc] at hwf
    refine h.wake hwf trivial ?_
    intro u
    rw [hpc]
    exact ⟨rfl, rfl⟩
  | waitNext t hpc ht =>
    refine h.go ht ?_
    intro u _
    rw [hpc]
    refine ⟨rfl, .inl ?_⟩
    by_cases hut : u = t <;> simp [ProducerPc.stage, WaitPc.stage, hut]
  | waitDone t hpc ht =>
    refine h.go trivial ?_
    intro u hu
    rw [hpc]
    refine ⟨rfl, .inr ⟨?_, rfl⟩⟩
    exact if_pos (by omega)
  | destroyNext t hpc ht =>
    refine h.go ht ?_
    intro u _
    rw [hpc]
    refine ⟨rfl, .inl ?_⟩
    simp [ProducerPc.stage, WaitPc.stage]
  | destroyDone t hpc ht =>
    refine h.go trivial ?_
    intro u hu
    have hlt : u < t := by omega
    rw [hpc]
    refine ⟨?_, .inl rfl⟩
    simp [ProducerPc.past, hlt]
  | force value t hpc => exact h.forceStore hpc
  | forceWake t hpc | wakeCond t hpc =>
    rw [hpc] at hwf
    refine h.wake hwf hwf ?_
    intro u
    rw [hpc]
    exact ⟨rfl, rfl⟩
  | join t hpc hexit =>
    refine h.go trivial ?_
    intro u _
    rw [hpc]
    refine ⟨?_, .inl rfl⟩
    simp only [ProducerPc.past, Nat.lt_succ_iff]

theorem step (h : s.Kept strict info) (hinfo : info.Accepted) (hcap : 16 ≤ info.queueSz)
    (hword : info.queueSz < wordMax) {l : Act} (hok : sound l s) (hcounted : strict → counted l s)
    (hs : (system info).step l s = some s') : Kept strict info s' := by
  cases step_cases hs with
  | refuse job hidle => exact h
  | addJob job hidle hjob =>
    refine h.go (fun hz => hjob (.inl hz)) ?_
    intro u _
    rw [hidle]
    exact ⟨rfl, .inl rfl⟩
  | wait hidle =>
    refine h.go trivial ?_
    intro u _
    rw [hidle]
    exact ⟨rfl, .inl rfl⟩
  | destroy hidle =>
    refine h.go trivial ?_
    intro u _
    rw [hidle]
    simp [ProducerPc.past, ProducerPc.stage]
  | producer s' hs => exact h.producer hinfo hcap hword hs
  | worker t turn x m ht hrun => exact h.worker hinfo hcap hword ht hok hcounted hrun

theorem init (hinfo : info.Accepted) (strict : Prop) : Kept strict info {} := by
  refine ⟨trivial, hinfo.count_pos, ?_⟩
  intro t _
  refine .of_live (k := 0) ?_ rfl
  refine {
    free := show 0 ≠ futexUnlockForce by decide
    took := rfl, le := le_rfl, rear := rfl, front := rfl, room := Nat.zero_le _, offs := nofun, last := nofun
    job := nofun, func := nofun, arg := nofun, slots := ?_, taken := List.nil_prefix, called := List.nil_prefix
    calls := rfl, returns := rfl, finishes := rfl, round := trivial, count := ⟨Nat.two_pow_pos 32, rfl⟩
    exact := fun _ => rfl, still := nofun, closed := nofun }
  funext j
  unfold queueSlots
  split_ifs
  · rw [loadWord, load_zero fun _ _ _ => rfl, loadWord, load_zero fun _ _ _ => rfl]
    rfl
  · rfl

end Pool.Kept

end Libcando.Jpool
