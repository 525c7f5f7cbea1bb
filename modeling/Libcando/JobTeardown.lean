import Libcando.JobBarrier
import Libcando.LostWakeUp

namespace Libcando.Jpool

open Futex Transition

namespace ProducerPc

def joined : ProducerPc → ℕ → Bool
  | queueWait _ u .destroy, t | destroyAll u, t | force _ u, t | wakeCond u, t | join u, t => t < u
  | destroyed, _ => true
  | _, _ => false

end ProducerPc

def Thread.SameCalls (x x' : Thread) : Prop :=
  x'.placed = x.placed ∧ x'.called = x.called ∧ x'.returned = x.returned

theorem Thread.SameCalls.trans {x y z : Thread} (h : x.SameCalls y) (h' : y.SameCalls z) : x.SameCalls z :=
  ⟨h'.1.trans h.1, h'.2.1.trans h.2.1, h'.2.2.trans h.2.2⟩

theorem Thread.Done.of_same {x x' : Thread} (h : x.Done) (hsame : x.SameCalls x') : x'.Done := by
  obtain ⟨hplaced, hcalled, hreturned⟩ := hsame
  constructor
  · rw [hcalled, hplaced]
    exact h.called
  · rw [hreturned, hplaced]
    exact h.returned

theorem Thread.Shut.sameCalls {x x' : Thread} {m m' : ByteMemory.Mem} {slot : ℕ → Slot} {turn : Turn} {data : ℕ}
    (h : x.Shut slot) (hs : Jpool.pRunThread turn data x m = some (x', m')) : x.SameCalls x' := by
  have hround := h.round
  cases pRunThread_cases hs with
  | loadArg off func hpc | run off job hpc =>
    rw [hpc] at hround
    exact hround.elim
  | _ => simp only [SameCalls, placed, and_self]

theorem exited_stays {x x' : Thread} {m m' : ByteMemory.Mem} {turn : Turn} {data : ℕ} (h : x.pc = .exited) :
    pRunThread turn data x m ≠ some (x', m') := by
  rw [pRunThread, h]
  simp

namespace Pool

variable {info : JpoolCreateInfo} {s s' : Pool} {l : Act} {t : ℕ}

def reckoned (l : Act) (s : Pool) : Prop := sound l s ∧ counted l s

instance (l : Act) (s : Pool) : Decidable (reckoned l s) := inferInstanceAs (Decidable (sound l s ∧ counted l s))

theorem wakeUp_exited {u : ℕ} (h : (s.threads t).pc = .exited) : ((s.wakeUp u).threads t).pc = .exited := by
  by_cases hu : t = u
  · subst hu
    rw [wakeUp_self]
    change (s.threads t).pc.wakeUp = .exited
    rw [h]
    rfl
  · exact (congrArg Thread.pc (setThread_of_ne hu ..)).trans h

theorem joined_producer (h : s.producer.joined t = true → (s.threads t).pc = .exited) (ht : t < info.count)
    (hs : s.producerStep info = some s') (hj : s'.producer.joined t = true) : (s'.threads t).pc = .exited := by
  cases producerStep_cases hs with
  | queueWait w u caller hpc =>
    rw [hpc] at h
    have hdestroy : caller = .destroy ∧ t < u := by
      cases w <;> cases caller <;> simp_all [pQueueWait, ProducerPc.joined]
    obtain ⟨rfl, htu⟩ := hdestroy
    have hexit := h (decide_eq_true htu)
    have hne : t ≠ u := Nat.ne_of_lt htu
    cases w with
    | load => exact hexit
    | wake => exact wakeUp_exited hexit
    | resetFree | resetCount | resetFront | resetRear =>
      exact (congrArg Thread.pc (setThread_of_ne hne ..)).trans hexit
  | destroyNext u hpc hu =>
    rw [hpc] at h
    exact h hj
  | destroyDone u hpc hu =>
    rw [hpc] at h
    exact h (decide_eq_true (by omega))
  | force value u hpc =>
    rw [hpc] at h
    have htu : t < u := of_decide_eq_true hj
    exact (congrArg Thread.pc (setThread_of_ne (Nat.ne_of_lt htu) ..)).trans (h hj)
  | forceWake u hpc | wakeCond u hpc =>
    rw [hpc] at h
    exact wakeUp_exited (h hj)
  | join u hpc hexit =>
    rw [hpc] at h
    have htu : t < u + 1 := of_decide_eq_true hj
    rcases Nat.lt_or_eq_of_le (Nat.le_of_lt_succ htu) with hlt | rfl
    · exact h (decide_eq_true hlt)
    · exact hexit
  | _ => cases hj

theorem joined_exited (h : Reach (system info) (fun _ _ => True) s) (ht : t < info.count) :
    s.producer.joined t = true → (s.threads t).pc = .exited := by
  apply h.invariant
  · rintro s rfl hj
    cases hj
  · intro s s' l ih _ hs hj
    cases step_cases hs with
    | refuse job hpc => exact ih hj
    | addJob job hpc hjob | wait hpc => cases hj
    | destroy hpc => simp [ProducerPc.joined] at hj
    | producer s' hs => exact joined_producer ih ht hs hj
    | worker u turn x m hu hx =>
      have hexit := ih hj
      have hne : t ≠ u := by
        rintro rfl
        exact exited_stays hexit hx
      exact (congrArg Thread.pc (setThread_of_ne hne ..)).trans hexit

theorem wakeUp_sameCalls (s : Pool) (t u : ℕ) : (s.threads t).SameCalls ((s.wakeUp u).threads t) := by
  by_cases hu : t = u
  · subst hu
    rw [wakeUp_self]
    exact ⟨rfl, rfl, rfl⟩
  · have hsame : (s.wakeUp u).threads t = s.threads t := setThread_of_ne hu ..
    rw [hsame]
    exact ⟨rfl, rfl, rfl⟩

theorem done_producer (hk : s.Kept True info) (ht : t < info.count)
    (h : s.producer.past t = true → (s.threads t).Done) (hs : s.producerStep info = some s')
    (hp : s'.producer.past t = true) : (s'.threads t).Done := by
  cases producerStep_cases hs with
  | queueWait w u caller hpc =>
    rw [hpc] at h
    have hdestroy : caller = .destroy ∧ t < u := by
      cases w <;> cases caller <;> simp_all [pQueueWait, ProducerPc.past, udoFutexUnlockForce]
    obtain ⟨rfl, htu⟩ := hdestroy
    have hdone := h (decide_eq_true htu)
    have hne : t ≠ u := Nat.ne_of_lt htu
    cases w with
    | load => exact hdone
    | wake => exact hdone.of_same (wakeUp_sameCalls s t u)
    | resetFree | resetCount | resetFront | resetRear =>
      have hsame (x : Thread) : (s.setThread u x).threads t = s.threads t := setThread_of_ne hne ..
      simp only [pQueueWait, goto_threads, hsame]
      exact hdone
  | destroyNext u hpc hu =>
    rw [hpc] at h
    exact h hp
  | destroyDone u hpc hu =>
    rw [hpc] at h
    exact h (decide_eq_true (by omega))
  | force value u hpc =>
    have htu : t ≤ u := of_decide_eq_true hp
    rcases Nat.lt_or_eq_of_le htu with hlt | rfl
    · rw [hpc] at h
      have hsame (x : Thread) : (s.setThread u x).threads t = s.threads t := setThread_of_ne (Nat.ne_of_lt hlt) ..
      simp only [goto_threads, hsame]
      exact h (decide_eq_true hlt)
    · -- the queue has been waited for, and the order to stop comes last
      obtain ⟨k, hlive⟩ := hk.live hpc ht (by simp [ProducerPc.past]) (if_pos rfl)
      have hdone := hlive.done rfl
      have hsame (x : Thread) : (s.setThread t x).threads t = x := Function.update_self ..
      simp only [goto_threads, hsame]
      exact hdone.of_same ⟨rfl, rfl, rfl⟩
  | forceWake u hpc | wakeCond u hpc =>
    rw [hpc] at h
    exact (h hp).of_same (wakeUp_sameCalls s t u)
  | join u hpc hexit =>
    rw [hpc] at h
    exact h (decide_eq_true (Nat.le_of_lt_succ (of_decide_eq_true hp)))
  | _ => cases hp

theorem past_done (hinfo : info.Accepted) (hcap : 16 ≤ info.queueSz) (h : Reach (system info) reckoned s)
    (ht : t < info.count) : s.producer.past t = true → (s.threads t).Done := by
  have hinv : s.Kept True info ∧ (s.producer.past t = true → (s.threads t).Done) := by
    apply h.invariant
    · rintro s rfl
      exact ⟨.init hinfo True, fun hp => by cases hp⟩
    · rintro s s' l ⟨hk, ih⟩ hok hs
      refine ⟨hk.step hinfo hcap info.queueSz_lt hok.1 (fun _ => hok.2) hs, fun hp => ?_⟩
      cases step_cases hs with
      | refuse job hpc => exact ih hp
      | addJob job hpc hjob | wait hpc => cases hp
      | destroy hpc => simp [ProducerPc.past] at hp
      | producer s' hs => exact done_producer hk ht ih hs hp
      | worker u turn x m hu hx =>
        by_cases hut : t = u
        · subst hut
          have hself : (s.setThread t x).threads t = x := Function.update_self ..
          have hshut := (hk.queues t ht).shut hp
          rw [hself]
          exact (ih hp).of_same (hshut.sameCalls hx)
        · have hother : (s.setThread u x).threads t = s.threads t := setThread_of_ne hut ..
          rw [hother]
          exact ih hp
  exact hinv.2

theorem destroy_completes (h : Reach (system info) (fun _ _ => True) s) (hpc : s.producer = .destroyed) :
    (∀ t < info.count, (s.threads t).pc = .exited) ∧ (∀ l, step info l s = none) ∧
      ∀ i, pJpoolCreateCheck i = some info → 16 ≤ info.queueSz → Reach (system info) reckoned s →
        ∀ t < info.count, (s.threads t).Done := by
  have hexited : ∀ t < info.count, (s.threads t).pc = .exited := by
    intro t ht
    apply joined_exited h ht
    rw [hpc]
    rfl
  refine ⟨hexited, fun l => ?_, fun i hi hcap hreckoned t ht => ?_⟩
  · cases hs : step info l s with
    | none => rfl
    | some s' =>
      exfalso
      cases step_cases hs with
      | refuse job hidle | addJob job hidle hjob | wait hidle | destroy hidle =>
        rw [hpc] at hidle
        cases hidle
      | producer s' hs =>
        rw [producerStep, hpc] at hs
        cases hs
      | worker t turn x m ht hx => exact exited_stays (hexited t ht) hx
  · apply past_done (JpoolCreateInfo.check_accepted hi).2 hcap hreckoned ht
    rw [hpc]
    rfl

theorem destroy_completes_two : ∃ s, Reach (system onePage) reckoned s ∧ s.producer = .destroyed ∧
    (s.threads 0).placed = [⟨0, 1, 2⟩, ⟨16, 3, 4⟩] ∧ (s.threads 0).pc = .exited ∧ (s.threads 0).Done := by
  obtain ⟨s, hs, hpc, hq⟩ := exists_of_run (system onePage) reckoned (.init rfl)
    (.addJob ⟨1, 2⟩ :: List.replicate 8 .producer ++ .addJob ⟨3, 4⟩ :: List.replicate 8 .producer ++
      List.replicate 20 (.worker 0 .plain) ++ .destroy :: List.replicate 9 .producer ++
      [.worker 0 .plain, .producer, .producer])
    (fun s => s.producer = .destroyed ∧ (s.threads 0).placed = [⟨0, 1, 2⟩, ⟨16, 3, 4⟩]) (by decide +kernel)
  have hall : Reach (system onePage) (fun _ _ => True) s := by
    apply hs.invariant
    · intro s hinit
      exact .init hinit
    · intro s s' l ih _ hstep
      exact ih.step trivial hstep
  obtain ⟨hexited, -, hdone⟩ := destroy_completes hall hpc
  exact ⟨s, hs, hpc, hq, hexited 0 (by decide), hdone (some onePage) rfl (by decide) hs 0 (by decide)⟩

end Pool

end Libcando.Jpool
