import Libcando.LostWakeUp

namespace Libcando.Jpool

open ByteMemory Futex Transition

namespace WorkerPc

def waiting : WorkerPc → Bool
  | loadRear _ | loadFront _ _ | forceCheck _ | kernelLoad | kernelWait _ | asleep _ => true
  | _ => false

@[simp] theorem wakeUp_waiting (pc : WorkerPc) : pc.wakeUp.waiting = pc.waiting := by
  cases pc <;> rfl

@[simp] theorem wakeUp_eq_loadFront (pc : WorkerPc) (i rear : ℕ) :
    pc.wakeUp = .loadFront i rear ↔ pc = .loadFront i rear := by
  cases pc <;> simp [wakeUp]

@[simp] theorem wakeUp_eq_addFront (pc : WorkerPc) : pc.wakeUp = .addFront ↔ pc = .addFront := by
  cases pc <;> simp [wakeUp]

end WorkerPc

namespace Thread

structure Fresh (x : Thread) : Prop where
  rear : x.rear = 0
  free : x.jobFree ≠ futexUnlockForce
  stale : ∀ i rear, x.pc = .loadFront i rear → rear = 0

structure Clear (x : Thread) (taken : List ℕ) : Prop extends x.Fresh where
  waiting : x.pc.waiting = true
  front : x.front = 0
  count : x.jobCount = 0
  taken_eq : x.taken = taken

structure Next (x : Thread) (taken : List ℕ) (job : Job) : Prop where
  free : x.jobFree ≠ futexUnlockForce
  rear : x.rear = 16
  cur : x.cur = [⟨0, job⟩]
  stale : ∀ i rear, x.pc = .loadFront i rear → rear ≤ 16
  round : (x.pc.waiting = true ∨ x.pc = .addFront ∧ x.extra = false) ∧ x.front = 0 ∧ x.taken = taken ∨
    x.pc ≠ .addFront ∧ x.front = 16 ∧ x.taken = taken ++ [0]

variable {x x' : Thread} {taken : List ℕ} {job : Job} {turn : Turn} {data : ℕ} {m m' : Mem}

theorem Clear.wakeUp (h : x.Clear taken) : Clear { x with pc := x.pc.wakeUp } taken where
  rear := h.rear
  free := h.free
  stale := by simpa using h.stale
  waiting := by simpa using h.waiting
  front := h.front
  count := h.count
  taken_eq := h.taken_eq

theorem Next.wakeUp (h : x.Next taken job) : Next { x with pc := x.pc.wakeUp } taken job where
  free := h.free
  rear := h.rear
  cur := h.cur
  stale := by simpa using h.stale
  round := by simpa using h.round

theorem Clear.pRunThread (h : x.Clear taken) (hs : pRunThread turn data x m = some (x', m')) :
    x'.Clear taken := by
  have goto (pc : WorkerPc) (hw : pc.waiting = true) (hstale : ∀ i rear, pc = .loadFront i rear → rear = 0) :
      Clear { x with pc := pc } taken :=
    { rear := h.rear, free := h.free, stale := hstale, waiting := hw, front := h.front, count := h.count,
      taken_eq := h.taken_eq }
  have hwaiting := h.waiting
  cases pRunThread_cases hs with
  | loadRear i hpc =>
    apply goto _ rfl
    rintro j rear ⟨⟩
    exact h.rear
  | found i rear hpc hlt =>
    have hrear := h.stale i rear hpc
    omega
  | forced i hpc hf => exact absurd hf h.free
  | missed i rear hpc hle | spin i hpc hf hi | tire i hpc hf hi | kernelLoad hpc => exact goto _ rfl (by simp)
  | sleep val hpc hval ht | refuse val hpc hval | wake val hpc ht => exact goto _ rfl (by simp)
  | loop hpc hf | leave hpc hf | addFront hpc | skip off hpc hzero | loadFunc off hpc hne | loadArg off func hpc =>
    rw [hpc] at hwaiting
    cases hwaiting
  | run off job hpc | resetFunc off hpc | resetArg off hpc | subCount off hpc =>
    rw [hpc] at hwaiting
    cases hwaiting

theorem Next.keep (h : x.Next taken job) (hsame : x'.jobFree = x.jobFree ∧ x'.rear = x.rear ∧ x'.cur = x.cur ∧
      x'.front = x.front ∧ x'.taken = x.taken) (hw : x.pc.waiting = true → x'.pc.waiting = true)
    (hpc : x.pc ≠ .addFront) (hpc' : x'.pc ≠ .addFront)
    (hstale : ∀ i rear, x'.pc = .loadFront i rear → rear ≤ 16) : x'.Next taken job := by
  obtain ⟨hfree, hrear, hcur, hfront, htaken⟩ := hsame
  refine ⟨hfree ▸ h.free, hrear ▸ h.rear, hcur ▸ h.cur, hstale, ?_⟩
  rw [hfront, htaken]
  rcases h.round with ⟨hwait | hat, hround⟩ | hround
  · exact .inl ⟨.inl (hw hwait), hround⟩
  · exact absurd hat.1 hpc
  · exact .inr ⟨hpc', hround.2⟩

theorem pRunThread_cur (hs : Jpool.pRunThread turn data x m = some (x', m')) : x'.cur = x.cur := by
  cases pRunThread_cases hs <;> rfl

theorem Next.pRunThread (h : x.Next taken job) (hs : pRunThread turn data x m = some (x', m')) :
    x'.Next taken job := by
  cases pRunThread_cases hs with
  | loadRear i hpc =>
    refine h.keep ⟨rfl, rfl, rfl, rfl, rfl⟩ (by simp [WorkerPc.waiting]) (by simp [hpc]) (by simp) ?_
    rintro j rear ⟨⟩
    exact h.rear.le
  | found i rear hpc hlt =>
    have hle := h.stale i rear hpc
    refine ⟨h.free, h.rear, h.cur, by simp, ?_⟩
    rcases h.round with ⟨-, hfront, htaken⟩ | ⟨-, hfront, -⟩
    · exact .inl ⟨.inr ⟨rfl, rfl⟩, hfront, htaken⟩
    · omega
  | forced i hpc hf => exact absurd hf h.free
  | addFront hpc =>
    have hround : x.extra = false ∧ x.front = 0 ∧ x.taken = taken := by
      rcases h.round with ⟨hwait | hat, hround⟩ | hround
      · rw [hpc] at hwait; cases hwait
      · exact ⟨hat.2, hround⟩
      · exact absurd hpc hround.1
    obtain ⟨hextra, hfront, htaken⟩ := hround
    refine ⟨h.free, h.rear, h.cur, by simp, .inr ⟨by simp, ?_, ?_⟩⟩
    · simp [hfront, sizeofJob, wordMax]
    · simp [hextra, hfront, htaken]
  | missed i rear hpc hle | spin i hpc hf hi | tire i hpc hf hi | kernelLoad hpc | sleep val hpc hval ht =>
    exact h.keep ⟨rfl, rfl, rfl, rfl, rfl⟩ (by simp [WorkerPc.waiting]) (by simp [hpc]) (by simp) (by simp)
  | refuse val hpc hval | wake val hpc ht | loop hpc hf =>
    exact h.keep ⟨rfl, rfl, rfl, rfl, rfl⟩ (by simp [WorkerPc.waiting]) (by simp [hpc]) (by simp) (by simp)
  | leave hpc hf | skip off hpc hzero | loadFunc off hpc hne | loadArg off func hpc | run off job hpc =>
    exact h.keep ⟨rfl, rfl, rfl, rfl, rfl⟩ (by simp [hpc, WorkerPc.waiting]) (by simp [hpc]) (by simp) (by simp)
  | resetFunc off hpc | resetArg off hpc | subCount off hpc =>
    exact h.keep ⟨rfl, rfl, rfl, rfl, rfl⟩ (by simp [hpc, WorkerPc.waiting]) (by simp [hpc]) (by simp) (by simp)

end Thread

namespace Pool

variable {info : JpoolCreateInfo} {s s₀ s' : Pool} {l : Act} {t : ℕ} {caller : Caller} {taken : List ℕ}

def runsFrom (info : JpoolCreateInfo) (s₀ : Pool) : System Pool Act where
  init s := s = s₀
  step := step info

structure AtReset (info : JpoolCreateInfo) (s : Pool) (t : ℕ) (caller : Caller) : Prop where
  producer : s.producer = .queueWait .load t caller
  waiting : (s.threads t).pc.waiting = true
  count : (s.threads t).jobCount = 0
  offsets : (s.threads t).front = (s.threads t).rear
  blank : queueSlots info.queueSz (info.queueData t) s.mem = fun _ => (0, 0)

def resets (s : Pool) (t : ℕ) : Bool :=
  match s.producer with
  | .queueWait _ u _ => u = t
  | _ => false

/-- The producer is held where `p_queue_wait` returns; the workers are not. -/
def resetting (t : ℕ) (l : Act) (s : Pool) : Prop :=
  match l with
  | .producer => s.resets t = true
  | .worker _ _ => True
  | _ => False

def uncalled (l : Act) (_ : Pool) : Prop :=
  match l with
  | .producer | .worker _ _ => True
  | _ => False

structure ResetAtomic (info : JpoolCreateInfo) (s₀ : Pool) (t : ℕ) : Prop where
  waiting : ∀ s, Reach (runsFrom info s₀) (resetting t) s →
    (s.threads t).pc.waiting = true ∧ (s.threads t).taken = (s₀.threads t).taken
  returned : ∀ s, Reach (runsFrom info s₀) (resetting t) s → s.resets t = false →
    (s.threads t).front = 0 ∧ (s.threads t).rear = 0 ∧ (s.threads t).jobCount = 0
  next : ∀ s job, Reach (runsFrom info s₀) (resetting t) s → s.resets t = false →
    ∀ s', Reach (runsFrom info (s.goto (.addRear t job))) uncalled s' →
      (s'.threads t).taken = (s₀.threads t).taken ∨
        (s'.threads t).taken = (s₀.threads t).taken ++ [0] ∧ (s'.threads t).cur = [⟨0, job⟩]

section Sufficient

structure ResetKept (s : Pool) (t : ℕ) (taken : List ℕ) : Prop where
  clear : (s.threads t).Clear taken
  cur : s.resets t = false → (s.threads t).cur = []

theorem worker_step {u : ℕ} {turn : Turn} (hs : step info (.worker u turn) s = some s') :
    ∃ x m, pRunThread turn (info.queueData u) (s.threads u) s.mem = some (x, m) ∧
      s'.producer = s.producer ∧ s'.threads u = x ∧ ∀ t ≠ u, s'.threads t = s.threads t := by
  cases step_cases hs with
  | worker u turn x m hu hx => exact ⟨x, m, hx, rfl, Function.update_self .., fun t ht => setThread_of_ne ht ..⟩

theorem resets_iff {s : Pool} : s.resets t = true ↔ ∃ w caller, s.producer = .queueWait w t caller := by
  cases hpc : s.producer with
  | queueWait w u caller => simp [resets, hpc, eq_comm]
  | _ => simp [resets, hpc]

theorem resets_congr (h : s'.producer = s.producer) : s'.resets t = s.resets t := by
  rw [resets, resets, h]

theorem ResetKept.step (h : s.ResetKept t taken) (hok : resetting t l s) (hs : step info l s = some s') :
    s'.ResetKept t taken := by
  have hclear := h.clear
  cases l with
  | worker u turn =>
    obtain ⟨x, m, hx, hproducer, hself, hothers⟩ := worker_step hs
    have hresets : s'.resets t = s.resets t := resets_congr hproducer
    by_cases hu : t = u
    · subst hu
      constructor
      · rw [hself]
        exact hclear.pRunThread hx
      · intro hret
        rw [hself, Thread.pRunThread_cur hx]
        exact h.cur (hresets ▸ hret)
    · constructor
      · rw [hothers t hu]
        exact hclear
      · rw [hothers t hu, hresets]
        exact h.cur
  | producer =>
    obtain ⟨w, caller, hpc⟩ := resets_iff.mp hok
    have hself (x : Thread) (pc : ProducerPc) : ((s.setThread t x).goto pc).threads t = x := Function.update_self ..
    have hstay (s : Pool) (w : WaitPc) : (s.goto (.queueWait w t caller)).resets t = true := by simp [resets]
    simp only [Pool.step, producerStep, hpc, pQueueWait] at hs
    cases hs
    cases w with
    | load =>
      rw [if_pos hclear.count]
      exact ⟨hclear, by simp [hstay]⟩
    | wake =>
      refine ⟨?_, by simp [hstay]⟩
      rw [goto_threads, wakeUp_self]
      exact hclear.wakeUp
    | resetFree =>
      refine ⟨?_, by simp [hstay]⟩
      rw [hself]
      exact ⟨⟨hclear.rear, by simp, hclear.stale⟩, hclear.waiting, hclear.front, hclear.count, hclear.taken_eq⟩
    | resetCount =>
      refine ⟨?_, by simp [hstay]⟩
      rw [hself]
      exact ⟨⟨hclear.rear, hclear.free, hclear.stale⟩, hclear.waiting, hclear.front, rfl, hclear.taken_eq⟩
    | resetFront =>
      refine ⟨?_, by simp [hstay]⟩
      rw [hself]
      exact ⟨⟨hclear.rear, hclear.free, hclear.stale⟩, hclear.waiting, rfl, hclear.count, hclear.taken_eq⟩
    | resetRear =>
      constructor
      · rw [hself]
        exact ⟨⟨rfl, hclear.free, hclear.stale⟩, hclear.waiting, hclear.front, hclear.count, hclear.taken_eq⟩
      · intro _
        rw [hself]
  | _ => exact absurd hok (by simp [resetting])

def AddKept (s : Pool) (t : ℕ) (taken : List ℕ) (job : Job) : Prop :=
  match s.producer with
  | .addRear u job' => u = t ∧ job' = job ∧ (s.threads t).Clear taken ∧ (s.threads t).cur = []
  | .storeFunc u _ _ | .storeArg u _ _ | .addCount u _ | .wake u => u = t ∧ (s.threads t).Next taken job
  | .idle => (s.threads t).Next taken job
  | _ => False

theorem AddKept.step {job : Job} (h : s.AddKept t taken job) (hok : uncalled l s) (hs : step info l s = some s') :
    s'.AddKept t taken job := by
  cases l with
  | worker u turn =>
    obtain ⟨x, m, hx, hproducer, hself, hothers⟩ := worker_step hs
    simp only [AddKept, hproducer] at h ⊢
    by_cases hu : t = u
    · subst hu
      rw [hself]
      cases hpc : s.producer with
      | addRear u job' =>
        simp only [hpc] at h ⊢
        exact ⟨h.1, h.2.1, h.2.2.1.pRunThread hx, by rw [Thread.pRunThread_cur hx]; exact h.2.2.2⟩
      | storeFunc u off job' | storeArg u off job' | addCount u off | wake u =>
        simp only [hpc] at h ⊢
        exact ⟨h.1, h.2.pRunThread hx⟩
      | idle =>
        simp only [hpc] at h ⊢
        exact h.pRunThread hx
      | _ => simp only [hpc] at h
    · rw [hothers t hu]
      exact h
  | producer =>
    have hself (x : Thread) (pc : ProducerPc) : ((s.setThread t x).goto pc).threads t = x := Function.update_self ..
    cases producerStep_cases hs with
    | addRear u job' hpc =>
      simp only [AddKept, hpc] at h
      obtain ⟨rfl, rfl, hclear, hcur⟩ := h
      simp only [AddKept, goto_producer, hself]
      refine ⟨trivial, hclear.free, ?_, ?_, ?_, .inl ⟨.inl hclear.waiting, hclear.front, hclear.taken_eq⟩⟩
      · simp [hclear.rear, sizeofJob, wordMax]
      · simp [hclear.rear, hcur]
      · intro i rear hload
        have := hclear.stale i rear hload
        omega
    | storeFunc u off job' hpc | storeArg u off job' hpc =>
      simp only [AddKept, hpc] at h
      exact h
    | addCount u off hpc =>
      simp only [AddKept, hpc] at h
      obtain ⟨rfl, hnext⟩ := h
      simp only [AddKept, goto_producer, hself]
      exact ⟨trivial, hnext.free, hnext.rear, hnext.cur, hnext.stale, hnext.round⟩
    | wake u hpc =>
      simp only [AddKept, hpc] at h
      obtain ⟨rfl, hnext⟩ := h
      simp only [AddKept, goto_producer, goto_threads, wakeUp_self]
      exact hnext.wakeUp
    | loadCur job' hpc | storeCur u job' hpc | full u job' hpc hfull | room u job' hpc hroom =>
      simp only [AddKept, hpc] at h
    | queueWait w u caller hpc | waitNext u hpc hu | waitDone u hpc hu => simp only [AddKept, hpc] at h
    | destroyNext u hpc hu | destroyDone u hpc hu | force value u hpc => simp only [AddKept, hpc] at h
    | forceWake u hpc | wakeCond u hpc | join u hpc hexit => simp only [AddKept, hpc] at h
  | _ => exact absurd hok (by simp [uncalled])

theorem ResetAtomic.of_fresh (h : s₀.AtReset info t caller) (hfresh : (s₀.threads t).Fresh) :
    ResetAtomic info s₀ t := by
  have hkept {s : Pool} (hs : Reach (runsFrom info s₀) (resetting t) s) :
      s.ResetKept t (s₀.threads t).taken := by
    apply hs.invariant
    · rintro s rfl
      constructor
      · exact ⟨hfresh, h.waiting, h.offsets.trans hfresh.rear, h.count, rfl⟩
      · intro hret
        simp [resets, h.producer] at hret
    · intro s s' l hs hok hstep
      exact hs.step hok hstep
  constructor
  · intro s hs
    exact ⟨(hkept hs).clear.waiting, (hkept hs).clear.taken_eq⟩
  · intro s hs _
    exact ⟨(hkept hs).clear.front, (hkept hs).clear.rear, (hkept hs).clear.count⟩
  · intro s job hs hret s' hs'
    have hadd : s'.AddKept t (s₀.threads t).taken job := by
      apply hs'.invariant
      · rintro s' rfl
        exact ⟨rfl, rfl, (hkept hs).clear, (hkept hs).cur hret⟩
      · intro s s' l hs hok hstep
        exact hs.step hok hstep
    have hround : (s'.threads t).Clear (s₀.threads t).taken ∨ (s'.threads t).Next (s₀.threads t).taken job := by
      cases hpc : s'.producer with
      | addRear u job' =>
        simp only [AddKept, hpc] at hadd
        exact .inl hadd.2.2.1
      | storeFunc u off job' | storeArg u off job' | addCount u off | wake u =>
        simp only [AddKept, hpc] at hadd
        exact .inr hadd.2
      | idle =>
        simp only [AddKept, hpc] at hadd
        exact .inr hadd
      | _ => simp only [AddKept, hpc] at hadd
    rcases hround with hclear | hnext
    · exact .inl hclear.taken_eq
    · rcases hnext.round with ⟨-, -, htaken⟩ | ⟨-, -, htaken⟩
      · exact .inl htaken
      · exact .inr ⟨htaken, hnext.cur⟩

end Sufficient

section Necessary

variable {x y : Thread}

theorem reset_turn (ht : t < info.count) (turn : Turn) (h : Reach (runsFrom info s₀) (resetting t) (s.setThread t x))
    (hx : pRunThread turn (info.queueData t) x s.mem = some (y, s.mem)) :
    Reach (runsFrom info s₀) (resetting t) (s.setThread t y) :=
  turn_reach rfl (fun _ => trivial) ht h hx

theorem loadRear_reach (ht : t < info.count) (hw : x.pc.waiting = true)
    (h : Reach (runsFrom info s₀) (resetting t) (s.setThread t x)) :
    ∃ y, Reach (runsFrom info s₀) (resetting t) (s.setThread t y) ∧
      (y.pc.waiting = false ∨ ∃ i, y = { x with pc := .loadRear i }) := by
  have hwait {v : ℕ}
      (h : Reach (runsFrom info s₀) (resetting t) (s.setThread t { x with pc := .kernelWait v })) :=
    reset_turn ht .spurious h (y := { x with pc := .loadRear contentionLoopCnt }) (by simp [pRunThread])
  have hcheck {i : ℕ}
      (h : Reach (runsFrom info s₀) (resetting t) (s.setThread t { x with pc := .forceCheck i })) :
      ∃ y, Reach (runsFrom info s₀) (resetting t) (s.setThread t y) ∧
        (y.pc.waiting = false ∨ ∃ i, y = { x with pc := .loadRear i }) := by
    by_cases hforce : pIsFutexFunlock x.jobFree = true
    · exact ⟨_, reset_turn ht .plain h (y := { x with pc := .addFront, extra := true })
        (by simp [pRunThread, hforce]), .inl rfl⟩
    · by_cases hi : i < contentionLoopCnt
      · exact ⟨_, reset_turn ht .plain h (y := { x with pc := .loadRear (i + 1) })
          (by simp [pRunThread, hforce, hi]), .inr ⟨_, rfl⟩⟩
      · have hload := reset_turn ht .plain h (y := { x with pc := .kernelLoad }) (by simp [pRunThread, hforce, hi])
        exact ⟨_, hwait (reset_turn ht .plain hload rfl), .inr ⟨_, rfl⟩⟩
  cases hpc : x.pc with
  | loadRear i => exact ⟨x, h, .inr ⟨i, by rw [← hpc]⟩⟩
  | loadFront i rear =>
    by_cases hfound : rear > x.front
    · exact ⟨_, reset_turn ht .plain h (y := { x with pc := .addFront, extra := false })
        (by simp [pRunThread, hpc, hfound]), .inl rfl⟩
    · exact hcheck (reset_turn ht .plain h (by simp [pRunThread, hpc, hfound]; rfl))
  | forceCheck i =>
    apply hcheck
    rw [← hpc]
    exact h
  | kernelLoad => exact ⟨_, hwait (reset_turn ht .plain h (by simp [pRunThread, hpc]; rfl)), .inr ⟨_, rfl⟩⟩
  | kernelWait val =>
    refine ⟨_, hwait (v := val) ?_, .inr ⟨_, rfl⟩⟩
    rw [← hpc]
    exact h
  | asleep val =>
    exact ⟨_, reset_turn ht .spurious h (y := { x with pc := .loadRear contentionLoopCnt })
      (by simp [pRunThread, hpc]), .inr ⟨_, rfl⟩⟩
  | _ => rw [hpc] at hw; cases hw

/-- After three of the four stores an offset read before them is ahead of the queue's front. -/
theorem stale_taken (ht : t < info.count) (hatomic : ResetAtomic info s₀ t)
    (hpc : s.producer = .queueWait .load t caller) (hcount : x.jobCount = 0) {i rear : ℕ}
    (hx : x.pc = .loadFront i rear) (h : Reach (runsFrom info s₀) (resetting t) (s.setThread t x)) : rear = 0 := by
  have producer {s r : Pool} (hr : s.resets t = true) (hs : s.producerStep info = some r)
      (h : Reach (runsFrom info s₀) (resetting t) s) : Reach (runsFrom info s₀) (resetting t) r :=
    h.step (l := .producer) hr hs
  have hself (s : Pool) (x : Thread) : (s.setThread t x).threads t = x := Function.update_self ..
  have hload := producer (r := (s.setThread t x).goto (.queueWait .resetFree t caller))
    (by simp [resets, setThread, hpc])
    (by simp [producerStep, setThread, hpc, pQueueWait, hcount]) h
  have hfree := producer (r := (s.setThread t { x with jobFree := 0 }).goto (.queueWait .resetCount t caller))
    (by simp [resets]) (by simp [producerStep, pQueueWait, goto, setThread]) hload
  have hcounted := producer (r := (s.setThread t { x with jobFree := 0, jobCount := 0 }).goto
      (.queueWait .resetFront t caller))
    (by simp [resets]) (by simp [producerStep, pQueueWait, goto, setThread]) hfree
  have hfront := producer (r := (s.setThread t { x with jobFree := 0, jobCount := 0, front := 0 }).goto
      (.queueWait .resetRear t caller))
    (by simp [resets]) (by simp [producerStep, pQueueWait, goto, setThread]) hcounted
  by_contra hrear
  have hpos : rear > 0 := by omega
  have hfound := reset_turn (s := s.goto (.queueWait .resetRear t caller)) ht .plain hfront
    (y := { x with jobFree := 0, jobCount := 0, front := 0, pc := .addFront, extra := false })
    (by simp [pRunThread, hx, hpos, goto])
  have := (hatomic.waiting _ hfound).1
  rw [hself] at this
  cases this

theorem ResetAtomic.fresh (ht : t < info.count) (h : s₀.AtReset info t caller) (hatomic : ResetAtomic info s₀ t) :
    (s₀.threads t).Fresh := by
  have hself (s : Pool) (x : Thread) : (s.setThread t x).threads t = x := Function.update_self ..
  have hinit : Reach (runsFrom info s₀) (resetting t) (s₀.setThread t (s₀.threads t)) := by
    rw [setThread_self]
    exact .init rfl
  obtain ⟨i, hround⟩ : ∃ i, Reach (runsFrom info s₀) (resetting t)
      (s₀.setThread t { s₀.threads t with pc := .loadRear i }) := by
    obtain ⟨y, hy, hout | ⟨i, rfl⟩⟩ := loadRear_reach ht h.waiting hinit
    · have := (hatomic.waiting _ hy).1
      rw [hself, hout] at this
      cases this
    · exact ⟨i, hy⟩
  have hloaded := reset_turn ht .plain hround
    (y := { s₀.threads t with pc := .loadFront i (s₀.threads t).rear }) rfl
  constructor
  · exact stale_taken (x := { s₀.threads t with pc := .loadFront i (s₀.threads t).rear }) ht hatomic h.producer
      h.count rfl hloaded
  · intro hforce
    have hfound : ¬(s₀.threads t).rear > (s₀.threads t).front := by
      have := h.offsets
      omega
    have hcheck := reset_turn ht .plain hloaded (y := { s₀.threads t with pc := .forceCheck i })
      (by simp [pRunThread, hfound])
    have hout := reset_turn ht .plain hcheck (y := { s₀.threads t with pc := .addFront, extra := true })
      (by simp [pRunThread, hforce])
    have := (hatomic.waiting _ hout).1
    rw [hself] at this
    cases this
  · intro i rear hpc
    exact stale_taken ht hatomic h.producer h.count hpc hinit

end Necessary

theorem reset_atomic_iff (ht : t < info.count) (h : s₀.AtReset info t caller) :
    ResetAtomic info s₀ t ↔ (s₀.threads t).Fresh := by
  constructor
  · intro hatomic
    exact hatomic.fresh ht h
  · intro hfresh
    exact .of_fresh h hfresh

theorem reset_atomic_idle : ResetAtomic onePage
    (goto (setThread {} 0 { pc := .asleep 0 }) (.queueWait .load 0 .wait)) 0 := by
  have hreset : AtReset onePage (goto (setThread {} 0 { pc := .asleep 0 }) (.queueWait .load 0 .wait)) 0 .wait := by
    refine ⟨rfl, rfl, rfl, rfl, ?_⟩
    funext j
    simp [queueSlots, loadWord, load, goto, setThread]
  apply (reset_atomic_iff (by decide) hreset).mpr
  exact ⟨rfl, by decide, by intro i rear h; cases h⟩

theorem reset_not_atomic : ¬ ∀ (info : JpoolCreateInfo) (s₀ : Pool) (t : ℕ) (caller : Caller), t < info.count →
    s₀.AtReset info t caller → ResetAtomic info s₀ t := by
  intro atomic
  have hreset : AtReset onePage (goto (setThread {} 0 { front := 16, rear := 16, pc := .loadRear 0 })
      (.queueWait .load 0 .wait)) 0 .wait := by
    refine ⟨rfl, rfl, rfl, rfl, ?_⟩
    funext j
    simp [queueSlots, loadWord, load, goto, setThread]
  have := ((atomic onePage _ 0 .wait (by decide) hreset).fresh (by decide) hreset).rear
  cases this

end Pool

end Libcando.Jpool
