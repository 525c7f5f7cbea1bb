import Libcando.JobPoolRuns

namespace Libcando.Jpool

open Transition

structure Thread.InOrder (x : Thread) : Prop where
  taken : x.taken <+: x.placed.map Placement.off
  called : x.called <+: x.placed
  finished : x.finished ≤ x.called.length

theorem Thread.Kept.inOrder {strict : Prop} {cap t : ℕ} {pc : ProducerPc} {x : Thread} {slot : ℕ → Slot}
    (h : x.Kept strict cap pc t slot) : x.InOrder := by
  by_cases hp : pc.past t = true
  · have hshut := h.shut hp
    exact ⟨hshut.taken, hshut.called, hshut.finished⟩
  · obtain ⟨k, hk⟩ := h.live (Bool.eq_false_iff.mpr hp)
    have hcalls := hk.calls
    have hfinishes := hk.finishes
    have hlag : x.pc.callLag ≤ x.pc.finishLag := by
      cases x.pc <;> simp [WorkerPc.callLag, WorkerPc.finishLag]
    constructor
    · exact hk.taken
    · exact hk.called
    · omega

namespace Pool

variable {info : JpoolCreateInfo} {s : Pool}

theorem kept_reach {strict : Prop} {ok : Act → Pool → Prop} (hinfo : info.Accepted) (hcap : 16 ≤ info.queueSz)
    (hsound : ∀ l s, ok l s → sound l s) (hcounted : strict → ∀ l s, ok l s → counted l s)
    (h : Reach (system info) ok s) : s.Kept strict info := by
  apply h.invariant
  · rintro s rfl
    exact .init hinfo strict
  · intro s s' l hk hok hs
    exact hk.step hinfo hcap info.queueSz_lt (hsound l s hok) (fun hst => hcounted hst l s hok) hs

theorem jobs_in_order {i : Option JpoolCreateInfo} (hi : pJpoolCreateCheck i = some info)
    (hcap : 16 ≤ info.queueSz) (h : Reach (system info) sound s) {t : ℕ} (ht : t < info.count) :
    (s.threads t).InOrder := by
  have hinfo := (JpoolCreateInfo.check_accepted hi).2
  have hkept : s.Kept False info := kept_reach hinfo hcap (fun _ _ hok => hok) nofun h
  exact (hkept.queues t ht).inOrder

def onePage : JpoolCreateInfo := ⟨64, 1, by decide⟩

theorem jobs_in_order_two : ∃ s, Reach (system onePage) sound s ∧
    (s.threads 0).called = [⟨0, 1, 2⟩, ⟨0, 3, 4⟩] ∧ (s.threads 0).InOrder := by
  obtain ⟨s, hs, hq⟩ := exists_of_run (system onePage) sound (.init rfl)
    (.addJob ⟨1, 2⟩ :: List.replicate 8 .producer ++ List.replicate 10 (.worker 0 .plain) ++
      .wait :: List.replicate 7 .producer ++ .addJob ⟨3, 4⟩ :: List.replicate 8 .producer ++
      List.replicate 10 (.worker 0 .plain))
    (fun s => (s.threads 0).called = [⟨0, 1, 2⟩, ⟨0, 3, 4⟩]) (by decide +kernel)
  exact ⟨s, hs, hq, jobs_in_order (i := some onePage) rfl (by decide) hs (by decide)⟩

/-- The worker takes the slot before the job is stored in it, finds no function and goes on; the call of
`udo_jpool_add_job` then returns 0. -/
theorem job_lost : ¬ ∀ (i : Option JpoolCreateInfo) (info : JpoolCreateInfo) (s : Pool),
    pJpoolCreateCheck i = some info → 16 ≤ info.queueSz → Reach (system info) (fun _ _ => True) s →
      ∀ t < info.count, (s.threads t).InOrder := by
  intro ordered
  obtain ⟨s, hs, hcalled, hfinished, -⟩ := exists_of_run (system onePage) (fun _ _ => True) (.init rfl)
    (.addJob ⟨1, 2⟩ :: List.replicate 4 .producer ++ List.replicate 6 (.worker 0 .plain) ++
      List.replicate 4 .producer)
    (fun s => (s.threads 0).called = [] ∧ (s.threads 0).finished = 1 ∧ s.producer = .idle) (by decide +kernel)
  have hle := (ordered (some onePage) onePage s rfl (by decide) hs 0 (by decide)).finished
  rw [hcalled, hfinished] at hle
  exact absurd hle (by decide)

end Pool

end Libcando.Jpool
