import Libcando.JobProgress
import Libcando.JobTeardown

namespace Libcando.Jpool

open ByteMemory Futex Transition

namespace WorkerPc

def toExit : WorkerPc → ℕ
  | canLoop => 1
  | subCount _ => 2
  | loadFunc _ => 3
  | addFront => 4
  | forceCheck _ => 5
  | loadFront _ _ => 6
  | loadRear _ => 7
  | kernelWait _ => 8
  | kernelLoad => 9
  | _ => 0

def Oversleeps : WorkerPc → Prop
  | kernelLoad | asleep _ => True
  | kernelWait val => val = futexUnlockForce
  | _ => False

end WorkerPc

def ProducerPc.toOrder : ProducerPc → ℕ
  | queueWait w _ _ => 1 + w.toGo
  | force (.store _) _ => 1
  | _ => 0

/-- The worker was told to stop. Even one that finds a job by an offset read before the queue was reset finds no
function to call and leaves. -/
structure Thread.Leaving (x : Thread) (data : ℕ) (m : Mem) : Prop where
  free : x.jobFree = futexUnlockForce
  blank : loadWord m data = 0
  round : match x.pc with
    | .canLoop | .subCount _ | .exited => True
    | .loadFunc off => off = 0
    | .loadArg _ _ | .running _ _ | .resetFunc _ | .resetArg _ => False
    | _ => x.front = 0

namespace Thread

variable {x x' : Thread} {data cap : ℕ} {m m' : Mem} {turn : Turn}

theorem Shut.leaving (h : x.Shut (queueSlots cap data m)) (hcap : 16 ≤ cap) : x.Leaving data m := by
  refine ⟨h.free, ?_, ?_⟩
  · have hword : loadWord m (data + 0) = (queueSlots cap data m 0).1 := loadWord_func (Nat.zero_mod 16) hcap
    rw [h.blank] at hword
    exact hword
  · have hround := h.round
    cases hpc : x.pc <;> simp only [hpc] at hround <;> first | trivial | exact hround | exact hround.2

theorem Leaving.wakeUp (h : x.Leaving data m) : Leaving { x with pc := x.pc.wakeUp } data m := by
  refine { h with round := ?_ }
  have hround := h.round
  cases hpc : x.pc <;> simp only [hpc] at hround <;> trivial

theorem Leaving.pRunThread (h : x.Leaving data m) (hs : pRunThread turn data x m = some (x', m')) :
    x'.Leaving data m ∧ m' = m ∧ x.SameCalls x' := by
  have hround := h.round
  cases pRunThread_cases hs with
  | loop hpc hf | spin i hpc hf hi | tire i hpc hf hi => exact absurd h.free hf
  | leave hpc hf => exact ⟨{ h with round := trivial }, rfl, rfl, rfl, rfl⟩
  | loadRear i hpc | missed i rear hpc hle | found i rear hpc hlt | forced i hpc hf | kernelLoad hpc =>
    rw [hpc] at hround
    exact ⟨{ h with round := hround }, rfl, rfl, rfl, rfl⟩
  | sleep val hpc hval ht | refuse val hpc hval | wake val hpc ht | addFront hpc =>
    rw [hpc] at hround
    exact ⟨{ h with round := hround }, rfl, rfl, rfl, rfl⟩
  | skip off hpc hzero => exact ⟨{ h with round := trivial }, rfl, rfl, rfl, rfl⟩
  | subCount off hpc =>
    generalize (x.jobCount + wordMax - 1) % wordMax = c
    exact ⟨{ h with round := trivial }, rfl, by simp only [SameCalls, placed, and_self]⟩
  | loadFunc off hpc hne =>
    simp only [hpc] at hround
    subst hround
    exact absurd h.blank hne
  | loadArg off func hpc | run off job hpc | resetFunc off hpc | resetArg off hpc => simp only [hpc] at hround

theorem Leaving.nearer (h : x.Leaving data m) (hs : Jpool.pRunThread .plain data x m = some (x', m')) :
    x'.pc.toExit < x.pc.toExit ∧ (x'.pc.Oversleeps → x.pc.Oversleeps) := by
  have hround := h.round
  have hfree := h.free
  cases pRunThread_cases hs with
  | loop hpc hf | spin i hpc hf hi | tire i hpc hf hi => exact absurd hfree hf
  | wake val hpc ht => exact absurd rfl ht
  | loadArg off func hpc | run off job hpc | resetFunc off hpc | resetArg off hpc => simp only [hpc] at hround
  | sleep val hpc hval ht =>
    rw [hpc]
    exact ⟨by simp [WorkerPc.toExit], fun _ => hval.symm.trans hfree⟩
  | _ => simp_all [WorkerPc.toExit, WorkerPc.Oversleeps]

theorem oversleeps_on (hfree : x.jobFree = futexUnlockForce) (hsleeps : x.pc.Oversleeps)
    (hs : Jpool.pRunThread .plain data x m = some (x', m')) :
    x'.jobFree = futexUnlockForce ∧ x'.pc.Oversleeps := by
  cases pRunThread_cases hs with
  | kernelLoad hpc => exact ⟨hfree, hfree⟩
  | sleep val hpc hval ht => exact ⟨hfree, trivial⟩
  | refuse val hpc hval =>
    rw [hpc] at hsleeps
    exact absurd ⟨hfree.trans hsleeps.symm, rfl⟩ hval
  | wake val hpc ht => exact absurd rfl ht
  | loop hpc | leave hpc | loadRear i hpc | found i rear hpc | missed i rear hpc | forced i hpc | spin i hpc
  | tire i hpc | addFront hpc | skip off hpc | loadFunc off hpc | loadArg off func hpc | run off job hpc
  | resetFunc off hpc | resetArg off hpc | subCount off hpc =>
    rw [hpc] at hsleeps
    exact hsleeps.elim

end Thread

namespace Pool

variable {info : JpoolCreateInfo} {s s' : Pool} {t : ℕ} {x : Thread}

theorem leaves (ht : t < info.count) (h : x.Leaving (info.queueData t) s.mem) :
    ∃ y, Leads (system info) closing (s.setThread t x) (s.setThread t y) ∧ y.Leaving (info.queueData t) s.mem ∧
      x.SameCalls y ∧ (y.pc.Oversleeps → x.pc.Oversleeps) ∧ (y.pc = .exited ∨ ∃ val, y.pc = .asleep val) := by
  induction hn : x.pc.toExit using Nat.strong_induction_on generalizing x with
  | _ n ih =>
    by_cases hend : x.pc = .exited ∨ ∃ val, x.pc = .asleep val
    · exact ⟨x, .refl _, h, ⟨rfl, rfl, rfl⟩, id, hend⟩
    · push Not at hend
      obtain ⟨x', m', hx⟩ := Thread.turns hend.1 hend.2 (info.queueData t) s.mem
      obtain ⟨h', rfl, hsame⟩ := h.pRunThread hx
      obtain ⟨hlt, hsleeps⟩ := h.nearer hx
      obtain ⟨y, hleads, hy, hsame', hsleeps', hend'⟩ := ih _ (hn ▸ hlt) h' rfl
      refine ⟨y, ?_, hy, hsame.trans hsame', fun hs => hsleeps (hsleeps' hs), hend'⟩
      apply Leads.trans (.single (.worker t .plain) trivial _) hleads
      simp [system, step, ht, hx, setThread]

theorem leads_producer (hs : s.producerStep info = some s') : Leads (system info) closing s s' :=
  .single .producer trivial hs

def shut (s : Pool) (t : ℕ) : Pool :=
  let x := s.threads t
  s.setThread t { x with
    jobFree := futexUnlockForce, jobCount := 0, front := 0, rear := 0, old := x.old ++ x.cur, cur := [] }

theorem shuts (hpc : s.producer = .queueWait .resetFree t .destroy) :
    Leads (system info) closing s ((s.shut t).goto (.force .wake t)) := by
  apply (leads_producer (by rw [producerStep, hpc])).trans
  apply (leads_producer rfl).trans
  apply (leads_producer rfl).trans
  apply (leads_producer rfl).trans
  apply leads_producer
  simp [producerStep, pQueueWait, shut, udoFutexUnlockForce, goto, setThread]

theorem InUse.shut (h : s.InUse info t) (hcap : 16 ≤ info.queueSz) (hzero : (s.threads t).jobCount = 0) :
    ((s.shut t).threads t).Leaving (info.queueData t) s.mem ∧ ((s.shut t).threads t).Done := by
  obtain ⟨k, hlive⟩ := h
  have hdrained := (hlive.drained info.queueSz_lt hzero).resetFree.resetCount.resetFront
  have hclosed := hdrained.resetRear hcap (by rfl : Stage.closing.plain = true)
  have hself : (s.shut t).threads t = { s.threads t with
      jobFree := futexUnlockForce, jobCount := 0, front := 0, rear := 0
      old := (s.threads t).old ++ (s.threads t).cur, cur := [] } := Function.update_self ..
  rw [hself]
  constructor
  · exact hclosed.shut.leaving hcap
  · exact (hclosed.done rfl).of_same ⟨rfl, rfl, rfl⟩

structure Closing (info : JpoolCreateInfo) (s : Pool) (t : ℕ) : Prop where
  producer : s.producer = .destroyAll t
  left : ∀ u < info.count, u < t → (s.threads u).pc = .exited ∧ (s.threads u).Done
  inUse : ∀ u < info.count, t ≤ u → s.InUse info u

theorem joined (ht : t < info.count) (h : x.Leaving (info.queueData t) s.mem) (hsleeps : ¬x.pc.Oversleeps) :
    ∃ y, Leads (system info) closing ((s.setThread t x).goto (.join t)) ((s.setThread t y).goto (.destroyAll (t + 1))) ∧
      x.SameCalls y ∧ y.pc = .exited := by
  obtain ⟨y, hleads, -, hsame, hback, hend⟩ := leaves (s := s.goto (.join t)) ht h
  have hexit : y.pc = .exited := by
    obtain hexit | ⟨val, hasleep⟩ := hend
    · exact hexit
    · exact absurd (hback (by rw [hasleep]; trivial)) hsleeps
  refine ⟨y, hleads.trans (leads_producer ?_), hsame, hexit⟩
  simp [producerStep, setThread, goto, hexit]

theorem woken (ht : t < info.count) (h : x.Leaving (info.queueData t) s.mem) :
    ∃ y, Leads (system info) closing ((s.setThread t x).goto (.wakeCond t)) ((s.setThread t y).goto (.join t)) ∧
      y.Leaving (info.queueData t) s.mem ∧ x.SameCalls y ∧ ¬y.pc.Oversleeps := by
  obtain ⟨y, hleads, hy, hsame, -, hend⟩ := leaves (s := s.goto (.wakeCond t)) ht h
  refine ⟨{ y with pc := y.pc.wakeUp }, hleads.trans (leads_producer ?_), hy.wakeUp, hsame, ?_⟩
  · simp [producerStep, wakeUp, setThread, goto]
  · obtain hexit | ⟨val, hasleep⟩ := hend
    · simp [hexit, WorkerPc.wakeUp, WorkerPc.Oversleeps]
    · simp [hasleep, WorkerPc.wakeUp, WorkerPc.Oversleeps]

def Told (s : Pool) (t : ℕ) : Prop :=
  s.producer = .force .wake t ∨ s.producer = .wakeCond t ∨ s.producer = .join t ∧ ¬(s.threads t).pc.Oversleeps

theorem woken_joined (ht : t < info.count) (h : x.Leaving (info.queueData t) s.mem) :
    ∃ y, Leads (system info) closing ((s.setThread t x).goto (.wakeCond t))
      ((s.setThread t y).goto (.destroyAll (t + 1))) ∧ x.SameCalls y ∧ y.pc = .exited := by
  obtain ⟨y, hwoken, hy, hsame, hsleeps⟩ := woken (s := s) ht h
  obtain ⟨z, hjoined, hsame', hexit⟩ := joined (s := s) ht hy hsleeps
  exact ⟨z, hwoken.trans hjoined, hsame.trans hsame', hexit⟩

theorem Told.leaves (hpc : s.Told t) (ht : t < info.count) (h : (s.threads t).Leaving (info.queueData t) s.mem) :
    ∃ y, Leads (system info) closing s ((s.setThread t y).goto (.destroyAll (t + 1))) ∧
      (s.threads t).SameCalls y ∧ y.pc = .exited := by
  have hself {pc : ProducerPc} (hpc : s.producer = pc) : (s.setThread t (s.threads t)).goto pc = s := by
    subst hpc
    rw [setThread_self]
    rfl
  rcases hpc with hpc | hpc | ⟨hpc, hsleeps⟩
  · obtain ⟨y, hleads, hsame, hexit⟩ := woken_joined ht h.wakeUp
    refine ⟨y, (leads_producer ?_).trans hleads, hsame, hexit⟩
    simp [producerStep, hpc, wakeUp]
  · obtain ⟨y, hleads, hsame, hexit⟩ := woken_joined ht h
    rw [hself hpc] at hleads
    exact ⟨y, hleads, hsame, hexit⟩
  · obtain ⟨y, hleads, hsame, hexit⟩ := joined ht h hsleeps
    rw [hself hpc] at hleads
    exact ⟨y, hleads, hsame, hexit⟩

theorem Told.closing (hpc : s.Told t) (ht : t < info.count) (h : (s.threads t).Leaving (info.queueData t) s.mem)
    (hdone : (s.threads t).Done)
    (hbefore : ∀ u < info.count, u < t → (s.threads u).pc = .exited ∧ (s.threads u).Done)
    (hafter : ∀ u < info.count, t < u → s.InUse info u) :
    ∃ s', Leads (system info) Pool.closing s s' ∧ Closing info s' (t + 1) := by
  obtain ⟨y, hleads, hsame, hexit⟩ := hpc.leaves ht h
  refine ⟨_, hleads, rfl, ?_, ?_⟩
  · intro u hu hlt
    rw [goto_threads]
    obtain hlt | rfl := Nat.lt_succ_iff_lt_or_eq.mp hlt
    · rw [setThread_of_ne hlt.ne]
      exact hbefore u hu hlt
    · have hself : (s.setThread u y).threads u = y := Function.update_self ..
      rw [hself]
      exact ⟨hexit, hdone.of_same hsame⟩
  · intro u hu hle
    obtain ⟨k, hlive⟩ := hafter u hu hle
    refine ⟨k, ?_⟩
    rw [goto_threads, setThread_of_ne (Nat.ne_of_gt hle)]
    exact hlive

theorem Closing.next (h : Closing info s t) (hinfo : info.Accepted) (hcap : 16 ≤ info.queueSz) (ht : t < info.count) :
    ∃ s', Leads (system info) closing s s' ∧ Closing info s' (t + 1) := by
  have hfirst : Leads (system info) closing s (s.goto (.queueWait .load t .destroy)) := by
    apply leads_producer
    simp only [producerStep, h.producer, if_pos ht]
  obtain ⟨v, hdown, hpc, huse, hzero, hbeside⟩ :=
    counted_down (s := s.goto (.queueWait .load t .destroy)) hinfo (h.inUse t ht le_rfl) ht (.inl rfl)
  obtain ⟨hleaving, hdone⟩ := huse.shut hcap hzero
  have hother : Beside info t s (v.shut t) := hbeside.trans (beside_setThread v t _)
  have htold : ((v.shut t).goto (.force .wake t)).Told t := .inl rfl
  obtain ⟨s', hlast, hclosing⟩ : ∃ s', Leads (system info) closing ((v.shut t).goto (.force .wake t)) s' ∧
      Closing info s' (t + 1) := by
    apply htold.closing ht hleaving hdone
    · intro u hu hlt
      rw [goto_threads, (hother u hu hlt.ne).1]
      exact h.left u hu hlt
    · intro u hu hlt
      obtain ⟨k, hlive⟩ := h.inUse u hu hlt.le
      obtain ⟨hthreads, hslots⟩ := hother u hu hlt.ne'
      exact ⟨k, by rwa [← hthreads, ← hslots] at hlive⟩
  have hdown' := hdown.mono fun _ _ => closing_of_unaided
  exact ⟨s', ((hfirst.trans hdown').trans (shuts hpc)).trans hlast, hclosing⟩

structure Finished (info : JpoolCreateInfo) (s : Pool) : Prop where
  producer : s.producer = .destroyed
  exited : ∀ t < info.count, (s.threads t).pc = .exited
  done : ∀ t < info.count, (s.threads t).Done

theorem Closing.finishes (h : Closing info s t) (hinfo : info.Accepted) (hcap : 16 ≤ info.queueSz) :
    ∃ s', Leads (system info) closing s s' ∧ Finished info s' := by
  induction hn : info.count - t generalizing s t with
  | zero =>
    have hleft (u : ℕ) (hu : u < info.count) := h.left u hu (by omega)
    refine ⟨s.goto .destroyed, leads_producer ?_, rfl, fun u hu => (hleft u hu).1, fun u hu => (hleft u hu).2⟩
    have ht : ¬t < info.count := by omega
    simp [producerStep, h.producer, ht]
  | succ n ih =>
    obtain ⟨v, hv, hnext⟩ := h.next hinfo hcap (by omega)
    obtain ⟨s', hs', hend⟩ := ih hnext (by omega)
    exact ⟨s', hv.trans hs', hend⟩

def Overslept (s : Pool) : Prop := ∃ t, s.producer = .join t ∧ (s.threads t).pc.Oversleeps

section Reckoned

variable (hinfo : info.Accepted) (hcap : 16 ≤ info.queueSz) (h : Reach (system info) reckoned s)
include hinfo hcap h

theorem kept_reckoned : s.Kept True info :=
  kept_reach hinfo hcap (fun _ _ hok => hok.1) (fun _ _ _ hok => hok.2) h

theorem left_reckoned (ht : t < info.count) (hj : s.producer.joined t = true) (hp : s.producer.past t = true) :
    (s.threads t).pc = .exited ∧ (s.threads t).Done :=
  ⟨joined_exited (h.mono fun _ _ _ => trivial) ht hj, past_done hinfo hcap h ht hp⟩

theorem ordered (hpc : (∃ w, s.producer = .queueWait w t .destroy) ∨ ∃ v, s.producer = .force (.store v) t) :
    ∃ s', Leads (system info) unaided s s' ∧ s'.producer = .force .wake t := by
  apply leads_of_progress (I := fun u => Reach (system info) reckoned u ∧
    ((∃ w, u.producer = .queueWait w t .destroy) ∨ ∃ v, u.producer = .force (.store v) t))
    (fun u => u.producer.toOrder) _ ⟨h, hpc⟩
  rintro u ⟨hu, hpc⟩
  have reckoned_leads {v : Pool} (hleads : Leads (system info) unaided u v) : Reach (system info) reckoned v :=
    hu.leads (fun _ _ hok => (settled_of_unaided hok).2) hleads
  have turn {v : Pool} (hs : u.producerStep info = some v) : Leads (system info) unaided u v :=
    .single .producer trivial hs
  rcases hpc with ⟨w, hpc⟩ | ⟨value, hpc⟩
  · have ht : t < info.count := by
      have hwf := (kept_reckoned hinfo hcap hu).wf
      rwa [hpc] at hwf
    by_cases hw : w = .load ∨ w = .wake
    · obtain ⟨v, hleads, hv, -⟩ : ∃ v, Leads (system info) unaided u v ∧ v.producer = .queueWait .resetFree t .destroy ∧
          v.InUse info t ∧ (v.threads t).jobCount = 0 ∧ Beside info t u v := by
        apply counted_down hinfo _ ht (hw.imp (fun hw => hw ▸ hpc) (fun hw => hw ▸ hpc))
        apply (kept_reckoned hinfo hcap hu).live hpc ht (Kept.queueWait_past w t .destroy)
        rw [Kept.queueWait_stage]
        rcases hw with rfl | rfl <;> rfl
      refine ⟨v, hleads, .inr ⟨⟨reckoned_leads hleads, .inl ⟨_, hv⟩⟩, ?_⟩⟩
      rw [hv, hpc]
      rcases hw with rfl | rfl <;> simp [ProducerPc.toOrder, WaitPc.toGo]
    · have hleads := turn (v := u.pQueueWait w t .destroy) (by rw [producerStep, hpc])
      refine ⟨_, hleads, .inr ⟨⟨reckoned_leads hleads, ?_⟩, ?_⟩⟩
      · cases w <;> simp_all [pQueueWait, udoFutexUnlockForce]
      · cases w <;> simp_all [pQueueWait, udoFutexUnlockForce, ProducerPc.toOrder, WaitPc.toGo]
  · exact ⟨_, turn (by rw [producerStep, hpc]), .inl rfl⟩

theorem told_finishes (hpc : s.Told t) : ∃ s', Leads (system info) closing s s' ∧ Finished info s' := by
  have hkept := kept_reckoned hinfo hcap h
  have hleft (u : ℕ) (hu : u < info.count) := left_reckoned hinfo hcap h (t := u) hu
  obtain ⟨ht, hpast, hjoined, hstage⟩ : t < info.count ∧ (∀ u, s.producer.past u = decide (u ≤ t)) ∧
      (∀ u, s.producer.joined u = decide (u < t)) ∧ ∀ u, s.producer.stage u = .away := by
    have hwf := hkept.wf
    rcases hpc with hpc | hpc | ⟨hpc, -⟩ <;> rw [hpc] at hwf ⊢ <;>
      exact ⟨hwf, fun _ => rfl, fun _ => rfl, fun _ => rfl⟩
  have hshut := ((hkept.queues t ht).shut (by simp [hpast])).leaving hcap
  obtain ⟨v, hleads, hclosing⟩ : ∃ v, Leads (system info) closing s v ∧ Closing info v (t + 1) := by
    apply hpc.closing ht hshut (past_done hinfo hcap h ht (by simp [hpast]))
    · intro u hu hlt
      exact hleft u hu (by simp [hjoined, hlt]) (by simp [hpast, hlt.le])
    · intro u hu hlt
      exact hkept.live rfl hu (by simp [hpast, hlt]) (hstage u)
  obtain ⟨s', hleads', hend⟩ := hclosing.finishes hinfo hcap
  exact ⟨s', hleads.trans hleads', hend⟩

theorem destroying_finishes (hd : s.producer.destroying = true) (ho : ¬s.Overslept) :
    ∃ s', Leads (system info) closing s s' ∧ Finished info s' := by
  have hkept := kept_reckoned hinfo hcap h
  have hleft (u : ℕ) (hu : u < info.count) := left_reckoned hinfo hcap h (t := u) hu
  have order (t : ℕ) (hpc : (∃ w, s.producer = .queueWait w t .destroy) ∨ ∃ v, s.producer = .force (.store v) t) :
      ∃ s', Leads (system info) closing s s' ∧ Finished info s' := by
    obtain ⟨v, hleads, hv⟩ := ordered hinfo hcap h hpc
    have hreach := h.leads (fun _ _ hok => (settled_of_unaided hok).2) hleads
    obtain ⟨s', hleads', hend⟩ := told_finishes hinfo hcap hreach (.inl hv)
    exact ⟨s', (hleads.mono fun _ _ => closing_of_unaided).trans hleads', hend⟩
  cases hpc : s.producer with
  | queueWait w t caller =>
    cases caller with
    | destroy => exact order t (.inl ⟨w, hpc⟩)
    | _ => rw [hpc] at hd; cases hd
  | force w t =>
    cases w with
    | store v => exact order t (.inr ⟨v, hpc⟩)
    | wake => exact told_finishes hinfo hcap h (.inl hpc)
  | wakeCond t => exact told_finishes hinfo hcap h (.inr (.inl hpc))
  | join t => exact told_finishes hinfo hcap h (.inr (.inr ⟨hpc, fun hs => ho ⟨t, hpc, hs⟩⟩))
  | destroyAll t =>
    have hclosing : Closing info s t := by
      refine ⟨hpc, ?_, ?_⟩
      · intro u hu hlt
        exact hleft u hu (by simp [hpc, ProducerPc.joined, hlt]) (by simp [hpc, ProducerPc.past, hlt])
      · intro u hu hle
        exact hkept.live hpc hu (by simp [ProducerPc.past, hle]) rfl
    exact hclosing.finishes hinfo hcap
  | destroyed =>
    have hgone (u : ℕ) (hu : u < info.count) := hleft u hu (by rw [hpc]; rfl) (by rw [hpc]; rfl)
    exact ⟨s, .refl s, hpc, fun u hu => (hgone u hu).1, fun u hu => (hgone u hu).2⟩
  | _ => rw [hpc] at hd; cases hd

end Reckoned

theorem destroying_stays {l : Act} (hd : s.producer.destroying = true) (hs : step info l s = some s') :
    s'.producer.destroying = true := by
  cases step_cases hs with
  | refuse job hpc | worker t turn x m ht hx => exact hd
  | addJob job hpc hjob | wait hpc => rw [hpc] at hd; cases hd
  | destroy hpc => rfl
  | producer s' hs =>
    cases producerStep_cases hs with
    | queueWait w t caller hpc =>
      rw [hpc] at hd
      cases caller with
      | destroy => cases w <;> rfl
      | _ => cases hd
    | destroyNext t hpc | destroyDone t hpc | force v t hpc | forceWake t hpc | wakeCond t hpc | join t hpc => rfl
    | loadCur job hpc | storeCur t job hpc | full t job hpc hfull | room t job hpc hroom | addRear t job hpc =>
      rw [hpc] at hd
      cases hd
    | storeFunc t off job hpc | storeArg t off job hpc | addCount t off hpc | wake t hpc | waitNext t hpc ht =>
      rw [hpc] at hd
      cases hd
    | waitDone t hpc ht => rw [hpc] at hd; cases hd

theorem settled_of_reckoned (h : Reach (system info) reckoned s) (hcalm : s.producer.destroying = false) :
    Reach (system info) settled s := by
  induction h with
  | init h => exact .init h
  | @step s s' l _ hok hs ih =>
    have hbefore : s.producer.destroying = false := by
      by_contra hd
      have := destroying_stays (by simpa using hd) hs
      rw [hcalm] at this
      cases this
    refine (ih hbefore).step ⟨?_, hok⟩ hs
    rintro rfl
    have hcall : s'.producer.destroying = true := by
      cases step_cases (show step info .destroy s = some s' from hs) with
      | destroy hpc => rfl
    rw [hcalm] at hcall
    cases hcall

theorem oversleeps_on (hpc : s.producer = .join t) (hfree : (s.threads t).jobFree = futexUnlockForce)
    (hsleeps : (s.threads t).pc.Oversleeps) (h : Leads (system info) closing s s') : s'.producer = .join t := by
  have hinv : s'.producer = .join t ∧ (s'.threads t).jobFree = futexUnlockForce ∧ (s'.threads t).pc.Oversleeps := by
    apply h.invariant _ ⟨hpc, hfree, hsleeps⟩
    rintro s s' l ⟨hpc, hfree, hsleeps⟩ hok hs
    cases step_cases hs with
    | refuse job hidle | addJob job hidle hjob | wait hidle | destroy hidle => rw [hpc] at hidle; cases hidle
    | producer s' hs =>
      simp only [producerStep, hpc] at hs
      split_ifs at hs with hexit
      rw [hexit] at hsleeps
      exact hsleeps.elim
    | worker u turn x m hu hx =>
      refine ⟨hpc, ?_⟩
      by_cases hut : t = u
      · subst hut
        have hself : (s.setThread t x).threads t = x := Function.update_self ..
        rw [hself]
        cases turn with
        | plain => exact Thread.oversleeps_on hfree hsleeps hx
        | _ => exact hok.elim
      · have hother : (s.setThread u x).threads t = s.threads t := setThread_of_ne hut ..
        rw [hother]
        exact ⟨hfree, hsleeps⟩
  exact hinv.1

theorem destroy_can_finish_iff {i : Option JpoolCreateInfo} (hi : pJpoolCreateCheck i = some info)
    (hcap : 16 ≤ info.queueSz) {ls : List Act} (h : Trace (system info) reckoned ls s) :
    (∃ s', Leads (system info) closing s s' ∧ s'.producer = .destroyed ∧ ∀ t < info.count,
      (s'.threads t).pc = .exited ∧ (s'.threads t).returned = (s'.threads t).called.length ∧
        Dealt info.count t (jobs ls) ((s'.threads t).called.map Placement.job)) ↔ ¬s.Overslept := by
  have hinfo := (JpoolCreateInfo.check_accepted hi).2
  have hreach := h.reach
  constructor
  · rintro ⟨s', hleads, hend, -⟩ ⟨t, hpc, hsleeps⟩
    have hkept := kept_reckoned hinfo hcap hreach
    have ht : t < info.count := by
      have hwf := hkept.wf
      rwa [hpc] at hwf
    have hfree := ((hkept.queues t ht).shut (by simp [hpc, ProducerPc.past])).free
    cases hend.symm.trans (oversleeps_on hpc hfree hsleeps hleads)
  · intro ho
    obtain ⟨s', hleads, hend⟩ : ∃ s', Leads (system info) closing s s' ∧ Finished info s' := by
      by_cases hd : s.producer.destroying = true
      · exact destroying_finishes hinfo hcap hreach hd ho
      · have hsettled := settled_of_reckoned hreach (Bool.eq_false_iff.mpr hd)
        obtain ⟨u, hu, hidle, -⟩ := call_returns hi hcap hsettled
        have hkept := (kept_settled hi hcap (hsettled.leads (fun _ _ => settled_of_unaided) hu)).1
        have hclosing : Closing info (u.goto (.destroyAll 0)) 0 := by
          refine ⟨rfl, fun t _ hlt => absurd hlt (Nat.not_lt_zero t), fun t ht _ => ?_⟩
          exact hkept.live hidle ht rfl rfl
        have hcall : Leads (system info) closing u (u.goto (.destroyAll 0)) := by
          apply Leads.single .destroy trivial
          simp only [system, step, hidle, if_true]
        obtain ⟨s', hs', hend⟩ := hclosing.finishes hinfo hcap
        exact ⟨s', ((hu.mono fun _ _ => closing_of_unaided).trans hcall).trans hs', hend⟩
    refine ⟨s', hleads, hend.producer, ?_⟩
    have hany : Trace (system info) (fun _ _ => True) ls s := h.mono fun _ _ _ => trivial
    obtain ⟨ls', htrace, hall⟩ := hany.leads (fun _ _ _ => trivial) hleads
    intro t ht
    obtain ⟨hcalled, hreturned⟩ := hend.done t ht
    have hdealt := (dealing_trace hinfo htrace).hands t ht
    have howed : s'.owed t = [] := by simp [owed, ProducerPc.chosen, hend.producer]
    rw [howed, List.append_nil, ← hcalled, jobs, List.filterMap_append] at hdealt
    change Dealt info.count t (jobs ls ++ jobs ls') _ at hdealt
    rw [(closing_jobs hall).1, List.append_nil] at hdealt
    exact ⟨hend.exited t ht, by rw [hreturned, hcalled], hdealt⟩

theorem destroy_can_finish_iff_two : ∃ ls s s', Trace (system onePage) reckoned ls s ∧ jobs ls = [⟨1, 2⟩, ⟨5, 6⟩] ∧
    Leads (system onePage) closing s s' ∧ s'.producer = .destroyed ∧
      Dealt 1 0 [⟨1, 2⟩, ⟨5, 6⟩] ((s'.threads 0).called.map Placement.job) := by
  let ls : List Act := .addJob ⟨1, 2⟩ :: List.replicate 8 .producer ++
    [.addJob ⟨5, 6⟩, .producer, .worker 0 .plain]
  have hrun : (run (system onePage) reckoned ls {}).any (fun s => s.producer = .storeCur 0 ⟨5, 6⟩) = true := by
    decide +kernel
  obtain ⟨s, hs, hpc⟩ := (Option.any_eq_true _ _).mp hrun
  have hinit : Trace (system onePage) reckoned [] {} := .init rfl
  have htrace := run_trace hinit hs
  have ho : ¬s.Overslept := by
    rintro ⟨t, hjoin, -⟩
    cases (of_decide_eq_true hpc).symm.trans hjoin
  obtain ⟨s', hleads, hend, hleft⟩ := (destroy_can_finish_iff (i := some onePage) rfl (by decide) htrace).mpr ho
  exact ⟨ls, s, s', htrace, by decide, hleads, hend, (hleft 0 (by decide)).2.2⟩

end Pool

end Libcando.Jpool
