import Libcando.Continuation
import Libcando.JobPoolCreate
import Libcando.JobPoolRuns

namespace Libcando.Jpool

open Futex Transition

def WorkerPc.Searching : WorkerPc → Prop
  | .canLoop | .loadRear _ | .forceCheck _ | .kernelLoad | .kernelWait _ | .asleep _ => True
  | .loadFront _ rear => rear = 0
  | _ => False

def Thread.Unused (x : Thread) : Prop := ∃ pc, x = { pc } ∧ pc.Searching

theorem Thread.Unused.sound {x : Thread} (h : x.Unused) (st : Stage) : x.Sound st ∧ x.Counted st := by
  obtain ⟨pc, rfl, hpc⟩ := h
  cases pc with
  | loadFront i rear =>
    cases hpc
    exact ⟨fun hlt => absurd hlt (lt_irrefl 0), trivial⟩
  | canLoop | loadRear _ | forceCheck _ | kernelLoad | kernelWait _ | asleep _ => exact ⟨trivial, trivial⟩
  | _ => cases hpc

theorem Thread.Unused.step {x x' : Thread} {turn : Turn} {data : ℕ} {m m' : ByteMemory.Mem} (h : x.Unused)
    (hs : pRunThread turn data x m = some (x', m')) : x'.Unused ∧ m' = m := by
  obtain ⟨pc, rfl, hpc⟩ := h
  cases pc with
  | canLoop =>
    cases hs
    exact ⟨⟨.loadRear 0, rfl, trivial⟩, rfl⟩
  | loadRear i =>
    cases hs
    exact ⟨⟨.loadFront i 0, rfl, rfl⟩, rfl⟩
  | loadFront i rear =>
    cases hpc
    cases hs
    exact ⟨⟨.forceCheck i, rfl, trivial⟩, rfl⟩
  | forceCheck i =>
    have hforce : pIsFutexFunlock 0 = false := rfl
    simp only [pRunThread, hforce, Bool.false_eq_true, if_false] at hs
    split_ifs at hs
    · cases hs
      exact ⟨⟨.loadRear (i + 1), rfl, trivial⟩, rfl⟩
    · cases hs
      exact ⟨⟨.kernelLoad, rfl, trivial⟩, rfl⟩
  | kernelLoad =>
    cases hs
    exact ⟨⟨.kernelWait 0, rfl, trivial⟩, rfl⟩
  | kernelWait val =>
    cases hs
    refine ⟨⟨if 0 = val ∧ turn = .plain then .asleep val else .loadRear contentionLoopCnt, rfl, ?_⟩, rfl⟩
    split_ifs <;> trivial
  | asleep val =>
    simp only [pRunThread] at hs
    split_ifs at hs
    cases hs
    exact ⟨⟨.loadRear contentionLoopCnt, rfl, trivial⟩, rfl⟩
  | _ => cases hpc

def CreatePc.toGo (count : ℕ) : CreatePc → ℕ
  | queue t => 2 * (count - t) + 1
  | start t => 2 * (count - t)
  | _ => 0

namespace Creation

def idling (l : Jpool.Act) (s : Pool) : Prop :=
  (∃ tid turn, l = .worker tid turn) ∧ Pool.sound l s ∧ Pool.counted l s

def alone (l : Act) (_ : Creation) : Prop := l = .creator

def Built (count : ℕ) (c : Creation) : Prop :=
  match c.pc with
  | .queue t => t ≤ count ∧ SetUp t t c.queues c.tids
  | .start t => t < count ∧ SetUp (t + 1) t c.queues c.tids
  | .done created => created = true ∧ SetUp count count c.queues c.tids
  | .destroy | .crashed => False

structure Starting (info : JpoolCreateInfo) (c : Creation) : Prop where
  built : c.Built info.count
  leads : Leads (Pool.system info) idling {} c.pool
  unused : ∀ t, (c.pool.threads t).Unused
  fresh : ∀ t, c.tids t = none → c.pool.threads t = {}
  queues : ∀ t q, c.queues t = some q → q = info.queue t
  producer : c.pool.producer = .idle
  joined : c.joined = []
  unmapped : c.unmapped = 0

variable {info : JpoolCreateInfo} {k : ℕ} {c c' : Creation} {l : Act}

theorem starting_initial (info : JpoolCreateInfo) : Starting info {} where
  built := ⟨Nat.zero_le _, by simp, by simp⟩
  leads := .refl _
  unused t := ⟨.canLoop, rfl, trivial⟩
  fresh t _ := rfl
  queues t q hq := by cases hq
  producer := rfl
  joined := rfl
  unmapped := rfl

theorem Starting.worker (h : Starting info c) {tid : ℕ} {turn : Turn}
    (hs : step info k (.worker tid turn) c = some c') : Starting info c' := by
  simp only [step] at hs
  split_ifs at hs with htid
  obtain ⟨pool, hpool, rfl⟩ := Option.map_eq_some_iff.mp hs
  have hsound := (h.unused tid).sound (c.pool.producer.stage tid)
  have hleads : Leads (Pool.system info) idling {} pool :=
    h.leads.trans (.single (.worker tid turn) ⟨⟨tid, turn, rfl⟩, hsound.1, hsound.2⟩ hpool)
  cases Pool.step_cases hpool with
  | worker tid turn x m ht hx =>
    obtain ⟨hunused, rfl⟩ := (h.unused tid).step hx
    refine ⟨h.built, hleads, ?_, ?_, h.queues, h.producer, h.joined, h.unmapped⟩
    · intro t
      by_cases heq : t = tid
      · subst heq
        simpa [Pool.setThread] using hunused
      · simpa [Pool.setThread, heq] using h.unused t
    · intro t hnone
      have hne : t ≠ tid := by
        rintro rfl
        exact htid hnone
      simpa [Pool.setThread, hne] using h.fresh t hnone

theorem Starting.creator (h : Starting info c) (hk : info.count ≤ k) (hs : step info k .creator c = some c') :
    Starting info c' := by
  have hbuilt := h.built
  simp only [step, udoJpoolCreate] at hs
  cases hpc : c.pc with
  | queue t =>
    simp only [hpc, Built] at hs hbuilt
    obtain ⟨hle, hsetup⟩ := hbuilt
    split_ifs at hs with ht
    · cases hs
      have hnone : c.tids t = none := by rw [hsetup.tid, if_neg (lt_irrefl t)]
      -- the words of the queue are 0 before the reset
      have hsame : c.pool.setThread t (c.pool.threads t).pQueueReset = c.pool := by
        have hreset : (c.pool.threads t).pQueueReset = c.pool.threads t := by rw [h.fresh t hnone]; rfl
        rw [hreset, Pool.setThread, Function.update_eq_self]
      rw [hsame]
      refine ⟨⟨ht, hsetup.next _⟩, h.leads, h.unused, h.fresh, ?_, h.producer, h.joined, h.unmapped⟩
      intro u q hq
      obtain ⟨rfl, rfl⟩ | ⟨-, hq⟩ := update_some_cases hq
      · rfl
      · exact h.queues u q hq
    · cases hs
      obtain rfl : t = info.count := by omega
      exact ⟨⟨rfl, hsetup⟩, h.leads, h.unused, h.fresh, h.queues, h.producer, h.joined, h.unmapped⟩
  | start t =>
    simp only [hpc, Built] at hs hbuilt
    obtain ⟨ht, hsetup⟩ := hbuilt
    rw [if_neg (by omega)] at hs
    cases hs
    refine ⟨⟨ht, hsetup.start⟩, h.leads, h.unused, ?_, h.queues, h.producer, h.joined, h.unmapped⟩
    intro u hnone
    by_cases hu : u = t
    · subst hu
      simp at hnone
    · exact h.fresh u (by simpa [hu] using hnone)
  | done created => simp [hpc] at hs
  | destroy | crashed => simp only [hpc, Built] at hbuilt

theorem Starting.step (h : Starting info c) (hk : info.count ≤ k) (hs : Creation.step info k l c = some c') :
    Starting info c' := by
  cases l with
  | creator => exact h.creator hk hs
  | worker tid turn => exact h.worker hs

theorem starting_reach (hk : info.count ≤ k) (h : Reach (system info k) anyRun c) : Starting info c := by
  apply h.invariant
  · rintro c rfl
    exact starting_initial info
  · intro c c' l hc _ hs
    exact hc.step hk hs

theorem Starting.next (h : Starting info c) (hk : info.count ≤ k) (hdone : c.pc ≠ .done true) :
    ∃ c', c.udoJpoolCreate info k = some c' ∧
      (c'.pc = .done true ∨ c'.pc ≠ .done true ∧ c'.pc.toGo info.count < c.pc.toGo info.count) := by
  have hbuilt := h.built
  rw [udoJpoolCreate]
  cases hpc : c.pc with
  | queue t =>
    simp only [hpc, Built] at hbuilt
    dsimp only
    split_ifs with ht
    · exact ⟨_, rfl, .inr ⟨by simp, by simp [CreatePc.toGo]⟩⟩
    · exact ⟨_, rfl, .inl rfl⟩
  | start t =>
    simp only [hpc, Built] at hbuilt
    dsimp only
    rw [if_neg (by omega)]
    refine ⟨_, rfl, .inr ⟨by simp, ?_⟩⟩
    simp only [CreatePc.toGo]
    omega
  | done created =>
    simp only [hpc, Built] at hbuilt
    exact absurd (by rw [hpc, hbuilt.1]) hdone
  | destroy | crashed => simp only [hpc, Built] at hbuilt

theorem Starting.returns (h : Starting info c) (hk : info.count ≤ k) :
    ∃ c', Leads (system info k) alone c c' ∧ c'.pc = .done true := by
  by_cases hdone : c.pc = .done true
  · exact ⟨c, .refl c, hdone⟩
  apply leads_of_measure (I := fun c => Starting info c ∧ c.pc ≠ .done true) (fun c => c.pc.toGo info.count) _
    ⟨h, hdone⟩
  rintro c ⟨h, hdone⟩
  obtain ⟨c', hs, hnext⟩ := h.next hk hdone
  refine ⟨.creator, c', rfl, hs, ?_⟩
  obtain hend | ⟨hne, hlt⟩ := hnext
  · exact .inl hend
  · exact .inr ⟨⟨h.creator hk hs, hne⟩, hlt⟩

structure Returned (info : JpoolCreateInfo) (c : Creation) : Prop where
  pc : c.pc = .done true
  queues : ∀ t, c.queues t = if t < info.count then some (info.queue t) else none
  tids : ∀ t, c.tids t = if t < info.count then some t else none
  kept : c.joined = [] ∧ c.unmapped = 0
  unused : ∀ t, (c.pool.threads t).Unused

theorem created_pool_unused (hk : info.count ≤ k) (h : Reach (system info k) anyRun c) :
    Leads (Pool.system info) idling {} c.pool ∧ (∀ t, (c.pool.threads t).Unused) ∧ (c.Ended → Returned info c) ∧
      ∃ c', Leads (system info k) alone c c' ∧ c'.pc = .done true := by
  have hstarting := starting_reach hk h
  refine ⟨hstarting.leads, hstarting.unused, ?_, hstarting.returns hk⟩
  have hbuilt := hstarting.built
  have returned {created : Bool} (hpc : c.pc = .done created) : Returned info c := by
    simp only [hpc, Built] at hbuilt
    obtain ⟨rfl, hsetup⟩ := hbuilt
    refine ⟨hpc, ?_, hsetup.tid, ⟨hstarting.joined, hstarting.unmapped⟩, hstarting.unused⟩
    intro t
    split_ifs with ht
    · obtain ⟨q, hq⟩ := Option.ne_none_iff_exists'.mp (mt (hsetup.queue t).mp (Nat.not_le_of_lt ht))
      rw [hq, hstarting.queues t q hq]
    · exact (hsetup.queue t).mpr (Nat.le_of_not_lt ht)
  rintro (hcrashed | ⟨created, hdone⟩)
  · simp only [hcrashed, Built] at hbuilt
  · exact returned hdone

theorem created_pool_unused_two : ∃ c, Reach (system ⟨256, 2, by decide⟩ 2) anyRun c ∧
    (c.pool.threads 0).pc = .forceCheck 0 ∧ Returned ⟨256, 2, by decide⟩ c := by
  obtain ⟨c, hc, hpc, hworker⟩ := exists_of_run (system ⟨256, 2, by decide⟩ 2) anyRun (.init rfl)
    ([.creator, .creator] ++ List.replicate 3 (.worker 0 .plain) ++ List.replicate 3 .creator)
    (fun c => c.pc = .done true ∧ (c.pool.threads 0).pc = .forceCheck 0) (by decide)
  exact ⟨c, hc, hworker, (created_pool_unused (by decide) hc).2.2.1 (.inr ⟨true, hpc⟩)⟩

end Creation

end Libcando.Jpool
