import Libcando.JobOrder

namespace Libcando.Jpool

open Transition

structure Thread.Done (x : Thread) : Prop where
  called : x.called = x.placed
  returned : x.returned = x.placed.length

theorem Thread.Live.done {strict : Prop} {cap k : ℕ} {x : Thread} {st : Stage} {slot : ℕ → Slot}
    (h : x.Live strict cap st slot k) (hst : st.still = true) : x.Done := by
  have hdone := h.still hst
  obtain ⟨-, hc, hr, -, hf, -⟩ := WorkerPc.outside_lags (h.at_rest hdone).2
  have hcalls := h.calls
  have hreturns := h.returns
  have hfinishes := h.finishes
  have hlen : x.placed.length = x.old.length + x.cur.length := List.length_append
  constructor
  · apply h.called.eq_of_length
    show x.called.length = x.placed.length
    omega
  · omega

namespace ProducerPc

def destroying : ProducerPc → Bool
  | queueWait _ _ .destroy | destroyAll _ | force _ _ | wakeCond _ | join _ | destroyed => true
  | _ => false

theorem past_of_not_destroying {pc : ProducerPc} (h : pc.destroying = false) (t : ℕ) : pc.past t = false := by
  cases pc with
  | queueWait w u caller => cases caller <;> first | rfl | cases h
  | destroyAll u | force w u | wakeCond u | join u => cases h
  | destroyed => cases h
  | _ => rfl

end ProducerPc

namespace Pool

variable {info : JpoolCreateInfo} {s s' : Pool} {l : Act}

def undestroyed (l : Act) (_ : Pool) : Prop := l ≠ .destroy

instance (l : Act) (s : Pool) : Decidable (undestroyed l s) := inferInstanceAs (Decidable (l ≠ .destroy))

def settled (l : Act) (s : Pool) : Prop := undestroyed l s ∧ sound l s ∧ counted l s

instance (l : Act) (s : Pool) : Decidable (settled l s) :=
  inferInstanceAs (Decidable (undestroyed l s ∧ sound l s ∧ counted l s))

def wraps (info : JpoolCreateInfo) (l : Act) (s : Pool) : Prop :=
  match l with
  | .worker t _ => t < info.count ∧ (s.threads t).jobCount = 0 ∧ ∃ off, (s.threads t).pc = .subCount off
  | _ => False

structure Barrier (info : JpoolCreateInfo) (s : Pool) : Prop where
  queue : ∀ w t caller, s.producer = .queueWait w t caller → w ≠ .load → w ≠ .wake → (s.threads t).Done
  all : ∀ u, s.producer = .waitAll u → ∀ t < u, t < info.count → (s.threads t).Done

theorem not_destroying_reach {ok : Act → Pool → Prop} (hok : ∀ l s, ok l s → undestroyed l s)
    (h : Reach (system info) ok s) : s.producer.destroying = false := by
  have hne : s.producer.call ≠ .destroy := by
    apply h.invariant
    · rintro s rfl
      decide
    · intro s s' l hne hl hs
      exact call_ne_step (by decide) hne (mt Act.call_eq_destroy.mp (hok l s hl)) hs
  cases hpc : s.producer with
  | queueWait w t caller =>
    cases caller with
    | destroy => rw [hpc] at hne; exact absurd rfl hne
    | _ => rfl
  | destroyAll t | force w t | wakeCond t | join t => rw [hpc] at hne; exact absurd rfl hne
  | destroyed => rw [hpc] at hne; exact absurd rfl hne
  | _ => rfl

theorem wait_barrier {i : Option JpoolCreateInfo} (hi : pJpoolCreateCheck i = some info)
    (hcap : 16 ≤ info.queueSz) (h : Reach (system info) settled s) :
    s.Barrier info ∧ ∀ l, settled l s → ¬s.wraps info l := by
  have hinfo := (JpoolCreateInfo.check_accepted hi).2
  have hkept : s.Kept True info := kept_reach hinfo hcap (fun _ _ hok => hok.2.1) (fun _ _ _ hok => hok.2.2) h
  have hcalm := not_destroying_reach (fun _ _ hok => hok.1) h
  have hlive {t : ℕ} (ht : t < info.count) :=
    (hkept.queues t ht).live (ProducerPc.past_of_not_destroying hcalm t)
  refine ⟨⟨?_, ?_⟩, ?_⟩
  · intro w t caller hpc hload hwake
    have hwf := hkept.wf
    rw [hpc] at hwf
    obtain ⟨k, hk⟩ := hlive (Kept.queueWait_wf w w hwf).2
    rw [hpc, Kept.queueWait_stage] at hk
    apply hk.done
    cases w <;> first | rfl | contradiction
  · intro u hpc t htu ht
    obtain ⟨k, hk⟩ := hlive ht
    simp only [hpc, ProducerPc.stage, htu, if_true] at hk
    exact hk.done rfl
  · intro l hok hwraps
    cases l with
    | worker t turn =>
      obtain ⟨ht, hzero, off, hpc⟩ := hwraps
      obtain ⟨k, hk⟩ := hlive ht
      have hcounted : (s.threads t).Counted (s.producer.stage t) := hok.2.2
      simp only [Thread.Counted, hpc] at hcounted
      have hpos := hk.subCount_pos hpc trivial hcounted
      omega
    | _ => exact hwraps

theorem wait_barrier_two : ∃ s, Reach (system onePage) settled s ∧ s.producer = .waitAll 1 ∧
    (s.threads 0).placed = [⟨0, 1, 2⟩, ⟨16, 3, 4⟩] ∧ (s.threads 0).Done := by
  obtain ⟨s, hs, hpc, hq⟩ := exists_of_run (system onePage) settled (.init rfl)
    (.addJob ⟨1, 2⟩ :: List.replicate 8 .producer ++ .addJob ⟨3, 4⟩ :: List.replicate 8 .producer ++
      List.replicate 20 (.worker 0 .plain) ++ .wait :: List.replicate 6 .producer)
    (fun s => s.producer = .waitAll 1 ∧ (s.threads 0).placed = [⟨0, 1, 2⟩, ⟨16, 3, 4⟩]) (by decide +kernel)
  have hbarrier := (wait_barrier (i := some onePage) rfl (by decide) hs).1
  exact ⟨s, hs, hpc, hq, hbarrier.all 1 hpc 0 (by decide) (by decide)⟩

/-- The worker counts a job off before it is counted; the word wraps, comes back to zero when the job is
counted, and `udo_jpool_wait` returns with the job never called. -/
theorem wait_missed : ¬ ∀ (i : Option JpoolCreateInfo) (info : JpoolCreateInfo) (s : Pool),
    pJpoolCreateCheck i = some info → 16 ≤ info.queueSz → Reach (system info) undestroyed s →
      s.Barrier info ∧ ∀ l, undestroyed l s → ¬s.wraps info l := by
  intro waits
  obtain ⟨s, hs, hpc, hcalled, hplaced⟩ := exists_of_run (system onePage) undestroyed (.init rfl)
    (.addJob ⟨1, 2⟩ :: List.replicate 4 .producer ++ List.replicate 6 (.worker 0 .plain) ++
      List.replicate 4 .producer ++ .wait :: List.replicate 6 .producer)
    (fun s => s.producer = .waitAll 1 ∧ (s.threads 0).called = [] ∧ (s.threads 0).placed = [⟨0, 1, 2⟩])
    (by decide +kernel)
  have hdone := ((waits (some onePage) onePage s rfl (by decide) hs).1.all 1 hpc 0 (by decide) (by decide)).called
  rw [hcalled, hplaced] at hdone
  cases hdone

end Pool

end Libcando.Jpool
