import Libcando.JobSlots

namespace Libcando.Jpool

open ByteMemory Futex Transition

inductive Stage
  | away
  | ready
  | reserved (off : ℕ) (job : Job)
  | half (off : ℕ) (job : Job)
  | stored (off : ℕ)
  | drained
  | cleared
  | closing
  | waited
  deriving DecidableEq

namespace Stage

def uncounted : Stage → ℕ
  | reserved _ _ | half _ _ | stored _ => 1
  | _ => 0

def blankFunc : Stage → Bool
  | reserved _ _ => true
  | _ => false

def blankArg : Stage → Bool
  | reserved _ _ | half _ _ => true
  | _ => false

def still : Stage → Bool
  | drained | cleared | closing | waited => true
  | _ => false

def slot : Stage → Option ℕ
  | reserved off _ | half off _ | stored off => some off
  | _ => none

def plain : Stage → Bool
  | away | ready | drained | closing | waited => true
  | _ => false

theorem plain_facts {st : Stage} (h : st.plain = true) : st.blankFunc = false ∧ st.blankArg = false ∧
    st.slot = none ∧ st.uncounted = 0 ∧ st ≠ cleared ∧ ∀ off job, ¬(st = reserved off job ∨ st = half off job) := by
  cases st <;> simp_all [plain, blankFunc, blankArg, slot, uncounted]

theorem blank_uncounted {st : Stage} (h : st.blankFunc = true ∨ st.blankArg = true) : st.uncounted ≠ 0 := by
  cases st <;> simp_all [blankFunc, blankArg, uncounted]

end Stage

namespace WorkerPc

def outside : WorkerPc → Bool
  | canLoop | loadRear _ | loadFront _ _ | forceCheck _ | kernelLoad | kernelWait _ | asleep _ => true
  | _ => false

def funcLag : WorkerPc → ℕ
  | loadFunc _ => 1
  | _ => 0

def callLag : WorkerPc → ℕ
  | loadFunc _ | loadArg _ _ => 1
  | _ => 0

def returnLag : WorkerPc → ℕ
  | loadFunc _ | loadArg _ _ | running _ _ => 1
  | _ => 0

def clearLag : WorkerPc → ℕ
  | loadFunc _ | loadArg _ _ | running _ _ | resetFunc _ | resetArg _ => 1
  | _ => 0

def finishLag : WorkerPc → ℕ
  | loadFunc _ | loadArg _ _ | running _ _ | resetFunc _ | resetArg _ | subCount _ => 1
  | _ => 0

def clearing : WorkerPc → Bool
  | resetArg _ => true
  | _ => false

theorem outside_lags {pc : WorkerPc} (h : pc.outside = true) : pc.funcLag = 0 ∧ pc.callLag = 0 ∧
    pc.returnLag = 0 ∧ pc.clearLag = 0 ∧ pc.finishLag = 0 ∧ pc.clearing = false := by
  cases pc <;> first | exact ⟨rfl, rfl, rfl, rfl, rfl, rfl⟩ | cases h

theorem lags_le (pc : WorkerPc) : pc.funcLag ≤ pc.callLag ∧ pc.callLag ≤ pc.clearLag ∧
    (pc.clearing = true → pc.callLag = 0) := by
  cases pc <;> simp [funcLag, callLag, clearLag, clearing]

theorem wakeUp_outside {pc : WorkerPc} (h : pc.outside = true) : pc.wakeUp.outside = true := by
  cases pc <;> first | rfl | cases h

theorem wakeUp_inside {pc : WorkerPc} (h : pc.outside ≠ true) : pc.wakeUp = pc := by
  cases pc <;> first | rfl | exact absurd rfl h

end WorkerPc

def content (cur : List Placement) (st : Stage) (lag : ℕ) (clearing : Bool) (k j : ℕ) : Slot :=
  match cur[j]? with
  | none => (0, 0)
  | some p =>
    if j + lag < k then (0, 0)
    else
      (if st.blankFunc ∧ j + 1 = cur.length ∨ clearing ∧ j + 1 = k then 0 else p.job.func,
        if st.blankArg ∧ j + 1 = cur.length then 0 else p.job.arg)

theorem content_clearFunc (cur : List Placement) (st : Stage) (i : ℕ) :
    content cur st 1 true (i + 1) =
      Function.update (content cur st 1 false (i + 1)) i (0, (content cur st 1 false (i + 1) i).2) := by
  funext j
  by_cases hj : j = i
  · subst hj
    rw [Function.update_self]
    cases hp : cur[j]? with
    | none => simp only [content, hp]
    | some p => simp [content, hp]
  · rw [Function.update_of_ne hj]
    have hne : ¬j + 1 = i + 1 := by omega
    simp only [content, hne, and_false]

theorem content_clearArg (cur : List Placement) (st : Stage) (i : ℕ) :
    content cur st 0 false (i + 1) =
      Function.update (content cur st 1 true (i + 1)) i ((content cur st 1 true (i + 1) i).1, 0) := by
  funext j
  by_cases hj : j = i
  · subst hj
    rw [Function.update_self]
    cases hp : cur[j]? with
    | none => simp only [content, hp]
    | some p => simp [content, hp]
  · rw [Function.update_of_ne hj]
    have hlt : j + 0 < i + 1 ↔ j + 1 < i + 1 := by omega
    have hne : ¬j + 1 = i + 1 := by omega
    simp only [content, hlt, hne, and_false]

def Thread.Round (x : Thread) (k : ℕ) : Prop :=
  match x.pc with
  | .addFront => x.extra = false ∧ k < x.cur.length
  | .loadFunc off => x.extra = false ∧ k = off / 16 + 1 ∧ off % 16 = 0
  | .loadArg off func => x.extra = false ∧ k = off / 16 + 1 ∧ off % 16 = 0 ∧
      ∃ arg, x.cur[off / 16]? = some ⟨off, func, arg⟩
  | .running off job => x.extra = false ∧ k = off / 16 + 1 ∧ off % 16 = 0 ∧ x.cur[off / 16]? = some ⟨off, job⟩
  | .resetFunc off | .resetArg off | .subCount off => x.extra = false ∧ k = off / 16 + 1 ∧ off % 16 = 0
  | .exited => False
  | _ => True

structure Thread.Live (strict : Prop) (cap : ℕ) (x : Thread) (st : Stage) (slot : ℕ → Slot) (k : ℕ) :
    Prop where
  free : x.jobFree ≠ futexUnlockForce
  took : x.taken.length = x.old.length + k
  le : k ≤ x.cur.length
  rear : x.rear = 16 * x.cur.length
  front : x.front = if st = .cleared then 0 else 16 * k
  room : 16 * x.cur.length + (if st = .ready then 16 else 0) ≤ cap
  offs : ∀ j p, x.cur[j]? = some p → p.off = 16 * j ∧ p.job.func ≠ 0
  last : ∀ off, st.slot = some off → 16 * x.cur.length = off + 16
  job : ∀ off job, st = .reserved off job ∨ st = .half off job → x.cur.getLast? = some ⟨off, job⟩
  func : st.blankFunc = true → k < x.cur.length + x.pc.funcLag
  arg : st.blankArg = true → k < x.cur.length + x.pc.callLag
  slots : slot = content x.cur st x.pc.clearLag x.pc.clearing k
  taken : x.taken <+: (x.old ++ x.cur).map Placement.off
  called : x.called <+: x.old ++ x.cur
  calls : x.called.length + x.pc.callLag = x.taken.length
  returns : x.returned + x.pc.returnLag = x.taken.length
  finishes : x.finished + x.pc.finishLag = x.taken.length
  round : x.Round k
  count : x.jobCount < wordMax ∧
    (x.jobCount + x.finished + st.uncounted) % wordMax = (x.old.length + x.cur.length) % wordMax
  exact : strict → x.jobCount + x.finished + st.uncounted = x.old.length + x.cur.length
  still : st.still = true → x.finished = x.old.length + x.cur.length
  closed : st = .closing → x.cur = []

namespace Thread

namespace Live

variable {strict : Prop} {cap k : ℕ} {x : Thread} {st : Stage} {slot : ℕ → Slot}

theorem lags (h : x.Live strict cap st slot k) {pc : WorkerPc} (hpc : x.pc = pc) :
    (st.blankFunc = true → k < x.cur.length + pc.funcLag) ∧
      (st.blankArg = true → k < x.cur.length + pc.callLag) ∧
      x.called.length + pc.callLag = x.taken.length ∧ x.returned + pc.returnLag = x.taken.length ∧
      x.finished + pc.finishLag = x.taken.length ∧ slot = content x.cur st pc.clearLag pc.clearing k := by
  subst hpc
  exact ⟨h.func, h.arg, h.calls, h.returns, h.finishes, h.slots⟩

theorem move (h : x.Live strict cap st slot k) {pc : WorkerPc} (extra : Bool)
    (hu : pc.funcLag = x.pc.funcLag) (hc : pc.callLag = x.pc.callLag) (hr : pc.returnLag = x.pc.returnLag)
    (hl : pc.clearLag = x.pc.clearLag) (hf : pc.finishLag = x.pc.finishLag)
    (hg : pc.clearing = x.pc.clearing) (hround : Round { x with pc, extra } k) :
    Live strict cap { x with pc, extra } st slot k :=
  { h with
    func := hu ▸ h.func
    arg := hc ▸ h.arg
    slots := by simpa only [hl, hg] using h.slots
    calls := hc ▸ h.calls
    returns := hr ▸ h.returns
    finishes := hf ▸ h.finishes
    round := hround }

theorem goto (h : x.Live strict cap st slot k) (ho : x.pc.outside = true) {pc : WorkerPc}
    (hpc : pc.outside = true) : Live strict cap { x with pc } st slot k := by
  obtain ⟨hu, hc, hr, hl, hf, hg⟩ := WorkerPc.outside_lags ho
  obtain ⟨hu', hc', hr', hl', hf', hg'⟩ := WorkerPc.outside_lags hpc
  refine h.move x.extra (hu'.trans hu.symm) (hc'.trans hc.symm) (hr'.trans hr.symm) (hl'.trans hl.symm)
    (hf'.trans hf.symm) (hg'.trans hg.symm) ?_
  cases pc <;> trivial

theorem wakeUp (h : x.Live strict cap st slot k) :
    Live strict cap { x with pc := x.pc.wakeUp } st slot k := by
  by_cases ho : x.pc.outside = true
  · exact h.goto ho (WorkerPc.wakeUp_outside ho)
  · rw [WorkerPc.wakeUp_inside ho]
    exact h

theorem at_rest (h : x.Live strict cap st slot k) (hf : x.finished = x.old.length + x.cur.length) :
    k = x.cur.length ∧ x.pc.outside = true := by
  have htook := h.took
  have hle := h.le
  have hfin := h.finishes
  have hround := h.round
  have hk : k = x.cur.length := by omega
  have hlag : x.pc.finishLag = 0 := by omega
  refine ⟨hk, ?_⟩
  cases hpc : x.pc with
  | addFront => simp only [Round, hpc] at hround; omega
  | exited => simp only [Round, hpc] at hround
  | loadFunc off | loadArg off func | running off job => rw [hpc] at hlag; cases hlag
  | resetFunc off | resetArg off | subCount off => rw [hpc] at hlag; cases hlag
  | _ => rfl

theorem uncleared (h : x.Live strict cap st slot k) (ho : x.pc.outside = false) : st ≠ .cleared := by
  rintro rfl
  rw [(h.at_rest (h.still rfl)).2] at ho
  cases ho

end Live

end Thread

end Libcando.Jpool
