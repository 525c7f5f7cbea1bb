import Libcando.ByteMemory
import Libcando.Futex
import Libcando.JobPoolLayout
import Libcando.Transition

namespace Libcando.Jpool

open ByteMemory Futex Transition

structure Job where
  func : UInt64
  arg : UInt64
  deriving DecidableEq

structure Placement where
  off : ℕ
  job : Job
  deriving DecidableEq

/-- `p_run_thread`; `i` counts the rounds of `udo_futex_wait_cond`. -/
inductive WorkerPc
  | canLoop
  | loadRear (i : ℕ)
  | loadFront (i rear : ℕ)
  | forceCheck (i : ℕ)
  | kernelLoad
  | kernelWait (val : ℕ)
  | asleep (val : ℕ)
  | addFront
  | loadFunc (off : ℕ)
  | loadArg (off : ℕ) (func : UInt64)
  | running (off : ℕ) (job : Job)
  | resetFunc (off : ℕ)
  | resetArg (off : ℕ)
  | subCount (off : ℕ)
  | exited
  deriving DecidableEq

inductive WaitPc
  | load
  | wake
  | resetFree
  | resetCount
  | resetFront
  | resetRear
  deriving DecidableEq

inductive Caller
  | addJob (job : Job)
  | wait
  | destroy
  deriving DecidableEq

inductive ProducerPc
  | idle
  | loadCur (job : Job)
  | storeCur (tid : ℕ) (job : Job)
  | full (tid : ℕ) (job : Job)
  | queueWait (pc : WaitPc) (tid : ℕ) (caller : Caller)
  | addRear (tid : ℕ) (job : Job)
  | storeFunc (tid off : ℕ) (job : Job)
  | storeArg (tid off : ℕ) (job : Job)
  | addCount (tid off : ℕ)
  | wake (tid : ℕ)
  | waitAll (tid : ℕ)
  | destroyAll (tid : ℕ)
  | force (pc : WakePc) (tid : ℕ)
  | wakeCond (tid : ℕ)
  | join (tid : ℕ)
  | destroyed
  deriving DecidableEq

/-- The words of a thread's queue and its place in the code. The rest is history: the jobs placed up to
the last reset and since, the slots taken, the calls made, the calls that returned and the rounds
finished. A round entered on a forced unlock is `extra` and counts as none of them. -/
structure Thread where
  jobFree : ℕ := 0
  jobCount : ℕ := 0
  front : ℕ := 0
  rear : ℕ := 0
  pc : WorkerPc := .canLoop
  old : List Placement := []
  cur : List Placement := []
  taken : List ℕ := []
  called : List Placement := []
  returned : ℕ := 0
  finished : ℕ := 0
  extra : Bool := false

def Thread.placed (x : Thread) : List Placement := x.old ++ x.cur

structure Pool where
  curThread : ℕ := 0
  threads : ℕ → Thread := fun _ => {}
  mem : Mem := fun _ => 0
  producer : ProducerPc := .idle

inductive Act
  | addJob (job : Job)
  | wait
  | destroy
  | producer
  | worker (tid : ℕ) (turn : Turn)
  deriving DecidableEq

def pQueueCanLoop (x : Thread) : Bool := x.jobFree ≠ futexUnlockForce

/-- The comparison is made in `size_t`. -/
def pQueueFull (x : Thread) (size : ℕ) : Bool := x.rear ≥ (size + sizeMax - sizeofJob) % sizeMax

theorem pQueueFull_iff {x : Thread} {size : ℕ} (h : 16 ≤ size) (hlt : size < wordMax) :
    pQueueFull x size = true ↔ size ≤ x.rear + 16 := by
  have hmod : (size + sizeMax - sizeofJob) % sizeMax = size - 16 := by
    simp only [wordMax] at hlt
    simp only [sizeMax, sizeofJob]
    omega
  rw [pQueueFull, hmod, decide_eq_true_iff]
  omega

def loadWord (m : Mem) (a : ℕ) : UInt64 := UInt64.ofNat (load m a 8)

def storeWord (m : Mem) (a : ℕ) (v : UInt64) : Mem := store m a 8 v.toNat

def pRunThread (turn : Turn) (data : ℕ) (x : Thread) (m : Mem) : Option (Thread × Mem) :=
  match x.pc with
  | .canLoop => some ({ x with pc := if pQueueCanLoop x then .loadRear 0 else .exited }, m)
  | .loadRear i => some ({ x with pc := .loadFront i x.rear }, m)
  | .loadFront i rear =>
    some (if rear > x.front then { x with pc := .addFront, extra := false }
      else { x with pc := .forceCheck i }, m)
  | .forceCheck i =>
    some (if pIsFutexFunlock x.jobFree then { x with pc := .addFront, extra := true }
      else if i < contentionLoopCnt then { x with pc := .loadRear (i + 1) }
      else { x with pc := .kernelLoad }, m)
  | .kernelLoad => some ({ x with pc := .kernelWait x.jobFree }, m)
  | .kernelWait val =>
    some ({ x with pc := if x.jobFree = val ∧ turn = .plain then .asleep val
      else .loadRear contentionLoopCnt }, m)
  | .asleep _ => if turn = .plain then none else some ({ x with pc := .loadRear contentionLoopCnt }, m)
  | .addFront =>
    some ({ x with
      pc := .loadFunc x.front
      front := (x.front + sizeofJob) % wordMax
      taken := if x.extra then x.taken else x.taken ++ [x.front] }, m)
  | .loadFunc off =>
    some ({ x with pc := if loadWord m (data + off) = 0 then .subCount off
      else .loadArg off (loadWord m (data + off)) }, m)
  | .loadArg off func =>
    some ({ x with
      pc := .running off ⟨func, loadWord m (data + off + 8)⟩
      called := x.called ++ [⟨off, func, loadWord m (data + off + 8)⟩] }, m)
  | .running off _ => some ({ x with pc := .resetFunc off, returned := x.returned + 1 }, m)
  | .resetFunc off => some ({ x with pc := .resetArg off }, storeWord m (data + off) 0)
  | .resetArg off => some ({ x with pc := .subCount off }, storeWord m (data + off + 8) 0)
  | .subCount _ =>
    some ({ x with
      pc := .canLoop
      jobCount := (x.jobCount + wordMax - 1) % wordMax
      finished := if x.extra then x.finished else x.finished + 1 }, m)
  | .exited => none

inductive Thread.Step (turn : Turn) (data : ℕ) (x : Thread) (m : Mem) : Thread → Mem → Prop
  | loop (hpc : x.pc = .canLoop) (hf : x.jobFree ≠ futexUnlockForce) :
    Step turn data x m { x with pc := .loadRear 0 } m
  | leave (hpc : x.pc = .canLoop) (hf : x.jobFree = futexUnlockForce) : Step turn data x m { x with pc := .exited } m
  | loadRear (i : ℕ) (hpc : x.pc = .loadRear i) : Step turn data x m { x with pc := .loadFront i x.rear } m
  | found (i rear : ℕ) (hpc : x.pc = .loadFront i rear) (hlt : x.front < rear) :
    Step turn data x m { x with pc := .addFront, extra := false } m
  | missed (i rear : ℕ) (hpc : x.pc = .loadFront i rear) (hle : rear ≤ x.front) :
    Step turn data x m { x with pc := .forceCheck i } m
  | forced (i : ℕ) (hpc : x.pc = .forceCheck i) (hf : x.jobFree = futexUnlockForce) :
    Step turn data x m { x with pc := .addFront, extra := true } m
  | spin (i : ℕ) (hpc : x.pc = .forceCheck i) (hf : x.jobFree ≠ futexUnlockForce) (hi : i < contentionLoopCnt) :
    Step turn data x m { x with pc := .loadRear (i + 1) } m
  | tire (i : ℕ) (hpc : x.pc = .forceCheck i) (hf : x.jobFree ≠ futexUnlockForce) (hi : contentionLoopCnt ≤ i) :
    Step turn data x m { x with pc := .kernelLoad } m
  | kernelLoad (hpc : x.pc = .kernelLoad) : Step turn data x m { x with pc := .kernelWait x.jobFree } m
  | sleep (val : ℕ) (hpc : x.pc = .kernelWait val) (hval : x.jobFree = val) (ht : turn = .plain) :
    Step turn data x m { x with pc := .asleep val } m
  | refuse (val : ℕ) (hpc : x.pc = .kernelWait val) (hval : ¬(x.jobFree = val ∧ turn = .plain)) :
    Step turn data x m { x with pc := .loadRear contentionLoopCnt } m
  | wake (val : ℕ) (hpc : x.pc = .asleep val) (ht : turn ≠ .plain) :
    Step turn data x m { x with pc := .loadRear contentionLoopCnt } m
  | addFront (hpc : x.pc = .addFront) :
    Step turn data x m { x with
      pc := .loadFunc x.front
      front := (x.front + sizeofJob) % wordMax
      taken := if x.extra then x.taken else x.taken ++ [x.front] } m
  | skip (off : ℕ) (hpc : x.pc = .loadFunc off) (hzero : loadWord m (data + off) = 0) :
    Step turn data x m { x with pc := .subCount off } m
  | loadFunc (off : ℕ) (hpc : x.pc = .loadFunc off) (hne : loadWord m (data + off) ≠ 0) :
    Step turn data x m { x with pc := .loadArg off (loadWord m (data + off)) } m
  | loadArg (off : ℕ) (func : UInt64) (hpc : x.pc = .loadArg off func) :
    Step turn data x m { x with
      pc := .running off ⟨func, loadWord m (data + off + 8)⟩
      called := x.called ++ [⟨off, func, loadWord m (data + off + 8)⟩] } m
  | run (off : ℕ) (job : Job) (hpc : x.pc = .running off job) :
    Step turn data x m { x with pc := .resetFunc off, returned := x.returned + 1 } m
  | resetFunc (off : ℕ) (hpc : x.pc = .resetFunc off) :
    Step turn data x m { x with pc := .resetArg off } (storeWord m (data + off) 0)
  | resetArg (off : ℕ) (hpc : x.pc = .resetArg off) :
    Step turn data x m { x with pc := .subCount off } (storeWord m (data + off + 8) 0)
  | subCount (off : ℕ) (hpc : x.pc = .subCount off) :
    Step turn data x m { x with
      pc := .canLoop
      jobCount := (x.jobCount + wordMax - 1) % wordMax
      finished := if x.extra then x.finished else x.finished + 1 } m

theorem pRunThread_cases {turn : Turn} {data : ℕ} {x x' : Thread} {m m' : Mem}
    (h : pRunThread turn data x m = some (x', m')) : x.Step turn data m x' m' := by
  unfold pRunThread at h
  cases hpc : x.pc with
  | canLoop =>
    simp only [hpc, pQueueCanLoop, decide_eq_true_eq] at h
    cases h
    split_ifs with hf
    · exact .loop hpc hf
    · exact .leave hpc (not_not.mp hf)
  | loadRear i => rw [hpc] at h; cases h; exact .loadRear i hpc
  | loadFront i rear =>
    simp only [hpc] at h
    cases h
    split_ifs with hlt
    · exact .found i rear hpc hlt
    · exact .missed i rear hpc (Nat.le_of_not_lt hlt)
  | forceCheck i =>
    simp only [hpc, pIsFutexFunlock_iff] at h
    cases h
    split_ifs with hf hi
    · exact .forced i hpc hf
    · exact .spin i hpc hf hi
    · exact .tire i hpc hf (Nat.le_of_not_lt hi)
  | kernelLoad => rw [hpc] at h; cases h; exact .kernelLoad hpc
  | kernelWait val =>
    simp only [hpc] at h
    cases h
    split_ifs with hval
    · exact .sleep val hpc hval.1 hval.2
    · exact .refuse val hpc hval
  | asleep val =>
    simp only [hpc] at h
    split_ifs at h with ht
    cases h
    exact .wake val hpc ht
  | addFront => rw [hpc] at h; cases h; exact .addFront hpc
  | loadFunc off =>
    simp only [hpc] at h
    cases h
    split_ifs with hzero
    · exact .skip off hpc hzero
    · exact .loadFunc off hpc hzero
  | loadArg off func => rw [hpc] at h; cases h; exact .loadArg off func hpc
  | running off job => rw [hpc] at h; cases h; exact .run off job hpc
  | resetFunc off => rw [hpc] at h; cases h; exact .resetFunc off hpc
  | resetArg off => rw [hpc] at h; cases h; exact .resetArg off hpc
  | subCount off => rw [hpc] at h; cases h; exact .subCount off hpc
  | exited => rw [hpc] at h; cases h

def WorkerPc.wakeUp : WorkerPc → WorkerPc
  | .asleep _ => .loadRear contentionLoopCnt
  | pc => pc

namespace Pool

def setThread (s : Pool) (t : ℕ) (x : Thread) : Pool := { s with threads := Function.update s.threads t x }

def goto (s : Pool) (pc : ProducerPc) : Pool := { s with producer := pc }

def wakeUp (s : Pool) (t : ℕ) : Pool :=
  s.setThread t { s.threads t with pc := (s.threads t).pc.wakeUp }

def pQueueWait (s : Pool) (pc : WaitPc) (t : ℕ) (caller : Caller) : Pool :=
  let x := s.threads t
  match pc with
  | .load => s.goto (.queueWait (if x.jobCount = 0 then .resetFree else .wake) t caller)
  | .wake => (s.wakeUp t).goto (.queueWait .load t caller)
  | .resetFree => (s.setThread t { x with jobFree := 0 }).goto (.queueWait .resetCount t caller)
  | .resetCount => (s.setThread t { x with jobCount := 0 }).goto (.queueWait .resetFront t caller)
  | .resetFront => (s.setThread t { x with front := 0 }).goto (.queueWait .resetRear t caller)
  | .resetRear =>
    (s.setThread t { x with rear := 0, old := x.old ++ x.cur, cur := [] }).goto <|
      match caller with
      | .addJob job => .addRear t job
      | .wait => .waitAll (t + 1)
      | .destroy => .force udoFutexUnlockForce t

def producerStep (info : JpoolCreateInfo) (s : Pool) : Option Pool :=
  match s.producer with
  | .idle | .destroyed => none
  | .loadCur job => some (s.goto (.storeCur s.curThread job))
  | .storeCur tid job =>
    some ({ s with curThread := (tid + 1) % wordMax % info.count }.goto (.full tid job))
  | .full tid job =>
    some (s.goto (if pQueueFull (s.threads tid) info.queueSz then .queueWait .load tid (.addJob job)
      else .addRear tid job))
  | .queueWait pc tid caller => some (s.pQueueWait pc tid caller)
  | .addRear tid job =>
    let x := s.threads tid
    some ((s.setThread tid { x with
      rear := (x.rear + sizeofJob) % wordMax
      cur := x.cur ++ [⟨x.rear, job⟩] }).goto (.storeFunc tid x.rear job))
  | .storeFunc tid off job =>
    some ({ s with mem := storeWord s.mem (info.queueData tid + off) job.func }.goto (.storeArg tid off job))
  | .storeArg tid off job =>
    some ({ s with mem := storeWord s.mem (info.queueData tid + off + 8) job.arg }.goto
      (.addCount tid off))
  | .addCount tid _ =>
    let x := s.threads tid
    some ((s.setThread tid { x with jobCount := (x.jobCount + 1) % wordMax }).goto (.wake tid))
  | .wake tid => some ((s.wakeUp tid).goto .idle)
  | .waitAll tid => some (s.goto (if tid < info.count then .queueWait .load tid .wait else .idle))
  | .destroyAll tid =>
    some (s.goto (if tid < info.count then .queueWait .load tid .destroy else .destroyed))
  | .force (.store value) tid =>
    some ((s.setThread tid { s.threads tid with jobFree := value }).goto (.force .wake tid))
  | .force .wake tid => some ((s.wakeUp tid).goto (.wakeCond tid))
  | .wakeCond tid => some ((s.wakeUp tid).goto (.join tid))
  | .join tid => if (s.threads tid).pc = .exited then some (s.goto (.destroyAll (tid + 1))) else none

inductive ProducerStep (info : JpoolCreateInfo) (s : Pool) : Pool → Prop
  | loadCur (job : Job) (hpc : s.producer = .loadCur job) : ProducerStep info s (s.goto (.storeCur s.curThread job))
  | storeCur (tid : ℕ) (job : Job) (hpc : s.producer = .storeCur tid job) :
    ProducerStep info s ({ s with curThread := (tid + 1) % wordMax % info.count }.goto (.full tid job))
  | full (tid : ℕ) (job : Job) (hpc : s.producer = .full tid job)
    (hfull : pQueueFull (s.threads tid) info.queueSz = true) :
    ProducerStep info s (s.goto (.queueWait .load tid (.addJob job)))
  | room (tid : ℕ) (job : Job) (hpc : s.producer = .full tid job)
    (hroom : ¬pQueueFull (s.threads tid) info.queueSz = true) : ProducerStep info s (s.goto (.addRear tid job))
  | queueWait (pc : WaitPc) (tid : ℕ) (caller : Caller) (hpc : s.producer = .queueWait pc tid caller) :
    ProducerStep info s (s.pQueueWait pc tid caller)
  | addRear (tid : ℕ) (job : Job) (hpc : s.producer = .addRear tid job) :
    ProducerStep info s ((s.setThread tid { s.threads tid with
      rear := ((s.threads tid).rear + sizeofJob) % wordMax
      cur := (s.threads tid).cur ++ [⟨(s.threads tid).rear, job⟩] }).goto
        (.storeFunc tid (s.threads tid).rear job))
  | storeFunc (tid off : ℕ) (job : Job) (hpc : s.producer = .storeFunc tid off job) :
    ProducerStep info s ({ s with mem := storeWord s.mem (info.queueData tid + off) job.func }.goto
      (.storeArg tid off job))
  | storeArg (tid off : ℕ) (job : Job) (hpc : s.producer = .storeArg tid off job) :
    ProducerStep info s ({ s with mem := storeWord s.mem (info.queueData tid + off + 8) job.arg }.goto
      (.addCount tid off))
  | addCount (tid off : ℕ) (hpc : s.producer = .addCount tid off) :
    ProducerStep info s ((s.setThread tid { s.threads tid with
      jobCount := ((s.threads tid).jobCount + 1) % wordMax }).goto (.wake tid))
  | wake (tid : ℕ) (hpc : s.producer = .wake tid) : ProducerStep info s ((s.wakeUp tid).goto .idle)
  | waitNext (tid : ℕ) (hpc : s.producer = .waitAll tid) (ht : tid < info.count) :
    ProducerStep info s (s.goto (.queueWait .load tid .wait))
  | waitDone (tid : ℕ) (hpc : s.producer = .waitAll tid) (ht : info.count ≤ tid) : ProducerStep info s (s.goto .idle)
  | destroyNext (tid : ℕ) (hpc : s.producer = .destroyAll tid) (ht : tid < info.count) :
    ProducerStep info s (s.goto (.queueWait .load tid .destroy))
  | destroyDone (tid : ℕ) (hpc : s.producer = .destroyAll tid) (ht : info.count ≤ tid) :
    ProducerStep info s (s.goto .destroyed)
  | force (value tid : ℕ) (hpc : s.producer = .force (.store value) tid) :
    ProducerStep info s ((s.setThread tid { s.threads tid with jobFree := value }).goto (.force .wake tid))
  | forceWake (tid : ℕ) (hpc : s.producer = .force .wake tid) :
    ProducerStep info s ((s.wakeUp tid).goto (.wakeCond tid))
  | wakeCond (tid : ℕ) (hpc : s.producer = .wakeCond tid) : ProducerStep info s ((s.wakeUp tid).goto (.join tid))
  | join (tid : ℕ) (hpc : s.producer = .join tid) (hexit : (s.threads tid).pc = .exited) :
    ProducerStep info s (s.goto (.destroyAll (tid + 1)))

theorem producerStep_cases {info : JpoolCreateInfo} {s s' : Pool} (h : s.producerStep info = some s') :
    s.ProducerStep info s' := by
  unfold producerStep at h
  cases hpc : s.producer with
  | idle | destroyed => rw [hpc] at h; cases h
  | loadCur job => rw [hpc] at h; cases h; exact .loadCur job hpc
  | storeCur tid job => rw [hpc] at h; cases h; exact .storeCur tid job hpc
  | full tid job =>
    simp only [hpc] at h
    cases h
    split_ifs with hfull
    · exact .full tid job hpc hfull
    · exact .room tid job hpc hfull
  | queueWait pc tid caller => rw [hpc] at h; cases h; exact .queueWait pc tid caller hpc
  | addRear tid job => rw [hpc] at h; cases h; exact .addRear tid job hpc
  | storeFunc tid off job => rw [hpc] at h; cases h; exact .storeFunc tid off job hpc
  | storeArg tid off job => rw [hpc] at h; cases h; exact .storeArg tid off job hpc
  | addCount tid off => rw [hpc] at h; cases h; exact .addCount tid off hpc
  | wake tid => rw [hpc] at h; cases h; exact .wake tid hpc
  | waitAll tid =>
    simp only [hpc] at h
    cases h
    split_ifs with ht
    · exact .waitNext tid hpc ht
    · exact .waitDone tid hpc (Nat.le_of_not_lt ht)
  | destroyAll tid =>
    simp only [hpc] at h
    cases h
    split_ifs with ht
    · exact .destroyNext tid hpc ht
    · exact .destroyDone tid hpc (Nat.le_of_not_lt ht)
  | force pc tid =>
    cases pc with
    | store value => rw [hpc] at h; cases h; exact .force value tid hpc
    | wake => rw [hpc] at h; cases h; exact .forceWake tid hpc
  | wakeCond tid => rw [hpc] at h; cases h; exact .wakeCond tid hpc
  | join tid =>
    simp only [hpc] at h
    split_ifs at h with hexit
    cases h
    exact .join tid hpc hexit

def step (info : JpoolCreateInfo) (l : Act) (s : Pool) : Option Pool :=
  match l with
  | .addJob job =>
    if s.producer = .idle then some (if job.func = 0 ∨ job.arg = 0 then s else s.goto (.loadCur job))
    else none
  | .wait => if s.producer = .idle then some (s.goto (.waitAll 0)) else none
  | .destroy => if s.producer = .idle then some (s.goto (.destroyAll 0)) else none
  | .producer => s.producerStep info
  | .worker tid turn =>
    if tid < info.count then
      (pRunThread turn (info.queueData tid) (s.threads tid) s.mem).map fun (x, m) =>
        { s.setThread tid x with mem := m }
    else none

inductive Step (info : JpoolCreateInfo) (s : Pool) : Act → Pool → Prop
  | refuse (job : Job) (hpc : s.producer = .idle) : Step info s (.addJob job) s
  | addJob (job : Job) (hpc : s.producer = .idle) (hjob : ¬(job.func = 0 ∨ job.arg = 0)) :
    Step info s (.addJob job) (s.goto (.loadCur job))
  | wait (hpc : s.producer = .idle) : Step info s .wait (s.goto (.waitAll 0))
  | destroy (hpc : s.producer = .idle) : Step info s .destroy (s.goto (.destroyAll 0))
  | producer (s' : Pool) (hs : s.producerStep info = some s') : Step info s .producer s'
  | worker (tid : ℕ) (turn : Turn) (x : Thread) (m : Mem) (ht : tid < info.count)
    (hx : pRunThread turn (info.queueData tid) (s.threads tid) s.mem = some (x, m)) :
    Step info s (.worker tid turn) { s.setThread tid x with mem := m }

theorem step_cases {info : JpoolCreateInfo} {s s' : Pool} {l : Act} (h : step info l s = some s') :
    s.Step info l s' := by
  cases l with
  | addJob job =>
    simp only [step] at h
    split_ifs at h with hpc hjob
    · cases h; exact .refuse job hpc
    · cases h; exact .addJob job hpc hjob
  | wait =>
    simp only [step] at h
    split_ifs at h with hpc
    cases h
    exact .wait hpc
  | destroy =>
    simp only [step] at h
    split_ifs at h with hpc
    cases h
    exact .destroy hpc
  | producer => exact .producer s' h
  | worker tid turn =>
    simp only [step] at h
    split_ifs at h with ht
    obtain ⟨⟨x, m⟩, hx, rfl⟩ := Option.map_eq_some_iff.mp h
    exact .worker tid turn x m ht hx

def system (info : JpoolCreateInfo) : System Pool Act where
  init s := s = {}
  step := step info

end Pool

section Call

inductive Call
  | none
  | addJob
  | wait
  | destroy
  deriving DecidableEq

def Caller.call : Caller → Call
  | addJob _ => .addJob
  | wait => .wait
  | destroy => .destroy

def ProducerPc.call : ProducerPc → Call
  | idle => .none
  | queueWait _ _ caller => caller.call
  | waitAll _ => .wait
  | destroyAll _ | force _ _ | wakeCond _ | join _ | destroyed => .destroy
  | _ => .addJob

def Act.call : Act → Call
  | addJob _ => .addJob
  | wait => .wait
  | destroy => .destroy
  | producer | worker _ _ => .none

theorem Act.call_eq_wait {l : Act} : l.call = .wait ↔ l = .wait := by
  cases l <;> simp [call]

theorem Act.call_eq_destroy {l : Act} : l.call = .destroy ↔ l = .destroy := by
  cases l <;> simp [call]

namespace Pool

variable {info : JpoolCreateInfo} {s s' : Pool} {l : Act}

@[simp] theorem goto_threads (s : Pool) (pc : ProducerPc) : (s.goto pc).threads = s.threads := rfl

@[simp] theorem goto_producer (s : Pool) (pc : ProducerPc) : (s.goto pc).producer = pc := rfl

theorem producerStep_call (hs : s.producerStep info = some s') :
    s'.producer.call = .none ∨ s'.producer.call = s.producer.call := by
  cases producerStep_cases hs with
  | wake t hpc | waitDone t hpc ht => exact .inl rfl
  | queueWait w t caller hpc =>
    right
    rw [hpc]
    cases w <;> cases caller <;> rfl
  | loadCur job hpc | storeCur t job hpc | full t job hpc hfull | room t job hpc hroom | addRear t job hpc =>
    rw [hpc]
    exact .inr rfl
  | storeFunc t off job hpc | storeArg t off job hpc | addCount t off hpc | waitNext t hpc ht =>
    rw [hpc]
    exact .inr rfl
  | destroyNext t hpc ht | destroyDone t hpc ht | force value t hpc | forceWake t hpc | wakeCond t hpc =>
    rw [hpc]
    exact .inr rfl
  | join t hpc hx =>
    rw [hpc]
    exact .inr rfl

theorem step_call (hs : step info l s = some s') :
    s'.producer.call = .none ∨ s'.producer.call = s.producer.call ∨ s'.producer.call = l.call := by
  cases step_cases hs with
  | refuse job hpc | worker t turn x m ht hx => exact .inr (.inl rfl)
  | addJob job hpc hjob | wait hpc | destroy hpc => exact .inr (.inr rfl)
  | producer s' hs =>
    rcases producerStep_call hs with h | h
    · exact .inl h
    · exact .inr (.inl h)

theorem call_ne_step {c : Call} (hc : c ≠ .none) (h : s.producer.call ≠ c) (hl : l.call ≠ c)
    (hs : step info l s = some s') : s'.producer.call ≠ c := by
  rcases step_call hs with h' | h' | h'
  · rw [h']; exact hc.symm
  · rw [h']; exact h
  · rw [h']; exact hl

end Pool

end Call

end Libcando.Jpool
