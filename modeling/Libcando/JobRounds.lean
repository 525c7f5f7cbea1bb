import Libcando.JobProducer
import Libcando.JobWorker

namespace Libcando.Jpool

open ByteMemory Futex

structure Thread.Shut (x : Thread) (slot : ℕ → Slot) : Prop where
  free : x.jobFree = futexUnlockForce
  rear : x.rear = 0
  blank : slot = fun _ => (0, 0)
  taken : x.taken <+: (x.old ++ x.cur).map Placement.off
  called : x.called <+: x.old ++ x.cur
  finished : x.finished ≤ x.called.length
  round : match x.pc with
    | .canLoop | .exited => True
    | .addFront => x.extra = true ∧ x.front = 0
    | .loadFunc off => x.extra = true ∧ off = 0
    | .subCount _ => x.extra = true
    | .loadArg _ _ | .running _ _ | .resetFunc _ | .resetArg _ => False
    | _ => x.front = 0

/-- The worker's step does not go wrong: a comparison of the offsets that finds a job is right and not made
between the resets of `front` and `rear`, and no word of a slot is read before it is stored. -/
def Thread.Sound (x : Thread) (st : Stage) : Prop :=
  match x.pc with
  | .loadFront _ rear => x.front < rear → x.front < x.rear ∧ st ≠ .cleared
  | .loadFunc off => st.blankFunc = true → st.slot ≠ some off
  | .loadArg off _ => st.blankArg = true → st.slot ≠ some off
  | _ => True

/-- The worker does not count a job off that is not yet counted. -/
def Thread.Counted (x : Thread) (st : Stage) : Prop :=
  match x.pc with
  | .subCount off => st.slot ≠ some off
  | _ => True

instance (x : Thread) (st : Stage) : Decidable (x.Sound st) :=
  match h : x.pc with
  | .loadFront _ rear => decidable_of_iff (x.front < rear → x.front < x.rear ∧ st ≠ .cleared)
      (by simp only [Thread.Sound, h])
  | .loadFunc off => decidable_of_iff (st.blankFunc = true → st.slot ≠ some off) (by simp only [Thread.Sound, h])
  | .loadArg off _ => decidable_of_iff (st.blankArg = true → st.slot ≠ some off) (by simp only [Thread.Sound, h])
  | .canLoop | .loadRear _ | .forceCheck _ | .kernelLoad | .kernelWait _ | .asleep _ | .addFront =>
    isTrue (by simp only [Thread.Sound, h])
  | .running _ _ | .resetFunc _ | .resetArg _ | .subCount _ | .exited => isTrue (by simp only [Thread.Sound, h])

instance (x : Thread) (st : Stage) : Decidable (x.Counted st) :=
  match h : x.pc with
  | .subCount off => decidable_of_iff (st.slot ≠ some off) (by simp only [Thread.Counted, h])
  | .canLoop | .loadRear _ | .loadFront _ _ | .forceCheck _ | .kernelLoad | .kernelWait _ | .asleep _ =>
    isTrue (by simp only [Thread.Counted, h])
  | .addFront | .loadFunc _ | .loadArg _ _ | .running _ _ | .resetFunc _ | .resetArg _ | .exited =>
    isTrue (by simp only [Thread.Counted, h])

namespace Thread

variable {strict : Prop} {cap k data : ℕ} {x x' : Thread} {m m' : Mem} {st : Stage} {turn : Turn}

theorem Live.frame (h : x.Live strict cap st (queueSlots cap data m) k)
    (hs : pRunThread turn data x m = some (x', m')) {data' : ℕ}
    (hd : data' + cap ≤ data ∨ data + cap ≤ data') : queueSlots cap data' m' = queueSlots cap data' m := by
  have hround := h.round
  have hle := h.le
  have hroom := h.room
  cases pRunThread_cases hs with
  | resetFunc off hpc | resetArg off hpc =>
    simp only [Round, hpc] at hround
    rw [queueSlots_storeWord_outside (by omega)]
  | _ => rfl

theorem Live.pRunThread (h : x.Live strict cap st (queueSlots cap data m) k) (hcap : cap < wordMax)
    (hok : x.Sound st) (hcounted : strict → x.Counted st)
    (hs : pRunThread turn data x m = some (x', m')) :
    ∃ k', x'.Live strict cap st (queueSlots cap data m') k' := by
  have hround := h.round
  have hle := h.le
  have hroom := h.room
  cases pRunThread_cases hs with
  | loop hpc hf | loadRear i hpc | missed i rear hpc hnot | kernelLoad hpc =>
    exact ⟨k, h.goto (by rw [hpc]; rfl) rfl⟩
  | spin i hpc hf hi | tire i hpc hf hi | sleep val hpc hval ht | refuse val hpc hval | wake val hpc ht =>
    exact ⟨k, h.goto (by rw [hpc]; rfl) rfl⟩
  | leave hpc hf | forced i hpc hf => exact absurd hf h.free
  | found i rear hpc hlt =>
    simp only [Sound, hpc] at hok
    exact ⟨k, h.found (by rw [hpc]; rfl) (hok hlt).1 (hok hlt).2⟩
  | addFront hpc => exact ⟨k + 1, h.addFront hcap hpc⟩
  | skip off hpc hzero =>
    simp only [Round, hpc] at hround
    simp only [Sound, hpc] at hok
    have hne := (h.loadFunc hpc hok).1
    rw [← loadWord_func hround.2.2 (by omega)] at hne
    exact absurd hzero hne
  | loadFunc off hpc hne =>
    simp only [Round, hpc] at hround
    simp only [Sound, hpc] at hok
    have hlive := (h.loadFunc hpc hok).2
    rw [← loadWord_func hround.2.2 (by omega)] at hlive
    exact ⟨k, hlive⟩
  | loadArg off func hpc =>
    simp only [Round, hpc] at hround
    simp only [Sound, hpc] at hok
    have hlive := h.loadArg hpc hok
    rw [← loadWord_arg hround.2.2.1 (by omega)] at hlive
    exact ⟨k, hlive⟩
  | run off job hpc => exact ⟨k, h.ran hpc⟩
  | resetFunc off hpc =>
    simp only [Round, hpc] at hround
    rw [queueSlots_storeWord_func hround.2.2 (by omega)]
    exact ⟨k, h.resetFunc hpc⟩
  | resetArg off hpc =>
    simp only [Round, hpc] at hround
    rw [queueSlots_storeWord_arg hround.2.2 (by omega)]
    exact ⟨k, h.resetArg hpc⟩
  | subCount off hpc =>
    simp only [Counted, hpc] at hcounted
    exact ⟨k, h.subCount hpc hcounted⟩

theorem Live.shut (h : x.Live strict cap .closing (queueSlots cap data m) k) :
    Shut { x with jobFree := futexUnlockForce } (queueSlots cap data m) := by
  have hcur := h.closed rfl
  have hdone := h.still rfl
  obtain ⟨hk, ho⟩ := h.at_rest hdone
  obtain ⟨-, hc, -, hl, hf, hg⟩ := WorkerPc.outside_lags ho
  have hcalls := h.calls
  have hfinishes := h.finishes
  have hfront : x.front = 0 := by
    rw [h.front, if_neg nofun, hk, hcur, List.length_nil]
  refine ⟨rfl, ?_, ?_, h.taken, h.called, ?_, ?_⟩
  · show x.rear = 0
    rw [h.rear, hcur, List.length_nil]
  · rw [h.slots, hl, hg, hk, content_blank]
  · show x.finished ≤ x.called.length
    omega
  · cases hpc : x.pc <;> first | trivial | exact hfront | (rw [hpc] at ho; cases ho)

theorem Shut.wakeUp {slot : ℕ → Slot} (h : x.Shut slot) : Shut { x with pc := x.pc.wakeUp } slot := by
  refine { h with round := ?_ }
  have hround := h.round
  cases hpc : x.pc <;> simp only [hpc] at hround <;> trivial

theorem Shut.pRunThread (h : x.Shut (queueSlots cap data m)) (hcap : 16 ≤ cap) (hok : x.Sound st)
    (hs : pRunThread turn data x m = some (x', m')) : x'.Shut (queueSlots cap data m') ∧ m' = m := by
  have hround := h.round
  cases pRunThread_cases hs with
  | loop hpc hf | spin i hpc hf hi | tire i hpc hf hi => exact absurd h.free hf
  | leave hpc hf => exact ⟨{ h with round := trivial }, rfl⟩
  | loadRear i hpc | missed i rear hpc hnot | kernelLoad hpc =>
    rw [hpc] at hround
    exact ⟨{ h with round := hround }, rfl⟩
  | sleep val hpc hval ht | refuse val hpc hval | wake val hpc ht =>
    rw [hpc] at hround
    exact ⟨{ h with round := hround }, rfl⟩
  | found i rear hpc hlt =>
    simp only [hpc] at hround
    simp only [Sound, hpc, h.rear, hround] at hok
    rw [hround] at hlt
    exact absurd (hok hlt).1 (Nat.lt_irrefl 0)
  | forced i hpc hf =>
    rw [hpc] at hround
    exact ⟨{ h with round := ⟨rfl, hround⟩ }, rfl⟩
  | addFront hpc =>
    simp only [hpc] at hround
    rw [if_pos hround.1]
    exact ⟨{ h with round := hround }, rfl⟩
  | skip off hpc hzero =>
    simp only [hpc] at hround
    exact ⟨{ h with round := hround.1 }, rfl⟩
  | loadFunc off hpc hne =>
    simp only [hpc] at hround
    obtain ⟨-, rfl⟩ := hround
    exact absurd (by rw [loadWord_func (Nat.zero_mod 16) hcap, h.blank]) hne
  | subCount off hpc =>
    simp only [hpc] at hround
    have hfinished : (if x.extra then x.finished else x.finished + 1) = x.finished := if_pos hround
    generalize (x.jobCount + wordMax - 1) % wordMax = c
    refine ⟨{ h with finished := ?_, round := trivial }, rfl⟩
    exact hfinished.le.trans h.finished
  | loadArg off func hpc | run off job hpc | resetFunc off hpc | resetArg off hpc => simp only [hpc] at hround

end Thread

end Libcando.Jpool
