import Libcando.JobPool
import Libcando.JobPoolPlacement

namespace Libcando.Jpool

open ByteMemory Futex Tiling Transition

def WorkerPc.slot : WorkerPc → Option ℕ
  | loadFunc off | loadArg off _ | running off _ | resetFunc off | resetArg off => some off
  | _ => none

def ProducerPc.slot : ProducerPc → Option (ℕ × ℕ)
  | storeFunc tid off _ | storeArg tid off _ => some (tid, off)
  | _ => none

section Bounds

structure Offset (cap off : ℕ) : Prop where
  slot : off % 16 = 0
  le : off ≤ cap

def WorkerPc.Bounded (cap front : ℕ) : WorkerPc → Prop
  | loadFront _ rear => Offset cap rear
  | addFront => front + 16 ≤ cap
  | loadFunc off | loadArg off _ | running off _ | resetFunc off | resetArg off => off + 16 ≤ cap
  | _ => True

structure Thread.Bounded (cap : ℕ) (x : Thread) : Prop where
  free : x.jobFree ≠ futexUnlockForce
  front : Offset cap x.front
  rear : Offset cap x.rear
  pc : x.pc.Bounded cap x.front

def ProducerPc.Bounded (cap : ℕ) (rear : ℕ → ℕ) : ProducerPc → Prop
  | addRear tid _ => rear tid + 16 ≤ cap
  | storeFunc _ off _ | storeArg _ off _ => off + 16 ≤ cap
  | _ => True

variable {cap data off : ℕ} {x x' : Thread} {m m' : Mem} {turn : Turn}

theorem Offset.zero : Offset cap 0 := ⟨rfl, Nat.zero_le _⟩

theorem Offset.next (h : Offset cap off) (hcap : off + 16 ≤ cap) (hword : cap < wordMax) :
    Offset cap ((off + sizeofJob) % wordMax) := by
  rw [sizeofJob, Nat.mod_eq_of_lt (by omega)]
  exact ⟨by have := h.slot; omega, hcap⟩

theorem WorkerPc.Bounded.slot {front : ℕ} {pc : WorkerPc} (h : pc.Bounded cap front) (hs : pc.slot = some off) :
    off + 16 ≤ cap := by
  cases pc <;> cases hs <;> exact h

theorem WorkerPc.Bounded.wakeUp {front : ℕ} {pc : WorkerPc} (h : pc.Bounded cap front) :
    pc.wakeUp.Bounded cap front := by
  cases pc <;> exact h

theorem WorkerPc.Bounded.front_zero {front : ℕ} {pc : WorkerPc} (h : pc.Bounded cap front) (hcap : 16 ≤ cap) :
    pc.Bounded cap 0 := by
  cases pc <;> first | exact h | exact hcap

namespace Thread.Bounded

theorem goto (h : x.Bounded cap) {pc : WorkerPc} (extra : Bool) (hpc : pc.Bounded cap x.front) :
    Thread.Bounded cap { x with pc, extra } :=
  ⟨h.free, h.front, h.rear, hpc⟩

theorem wakeUp (h : x.Bounded cap) : Thread.Bounded cap { x with pc := x.pc.wakeUp } :=
  h.goto x.extra h.pc.wakeUp

theorem found (h : x.Bounded cap) {i rear : ℕ} (hpc : x.pc = .loadFront i rear) (hlt : x.front < rear) :
    x.front + 16 ≤ cap := by
  have hrear : Offset cap rear := by
    have hbound := h.pc
    rwa [hpc] at hbound
  have hslot := hrear.slot
  have hle := hrear.le
  have hfront := h.front.slot
  omega

theorem pRunThread (h : x.Bounded cap) (hword : cap < wordMax) (hs : pRunThread turn data x m = some (x', m')) :
    x'.Bounded cap ∧ x'.rear = x.rear := by
  have hbound := h.pc
  cases pRunThread_cases hs with
  | loop hpc hf | leave hpc hf | missed i rear hpc hle | kernelLoad hpc => exact ⟨h.goto x.extra True.intro, rfl⟩
  | spin i hpc hf hi | tire i hpc hf hi | sleep val hpc hval ht | refuse val hpc hval | wake val hpc ht =>
    exact ⟨h.goto x.extra True.intro, rfl⟩
  | loadRear i hpc => exact ⟨h.goto x.extra h.rear, rfl⟩
  | found i rear hpc hlt => exact ⟨h.goto false (h.found hpc hlt), rfl⟩
  | forced i hpc hf => exact absurd hf h.free
  | addFront hpc =>
    rw [hpc] at hbound
    exact ⟨⟨h.free, h.front.next hbound hword, h.rear, hbound⟩, rfl⟩
  | skip off hpc hzero | resetArg off hpc => exact ⟨h.goto x.extra True.intro, rfl⟩
  | loadFunc off hpc hne | loadArg off func hpc | run off job hpc | resetFunc off hpc =>
    rw [hpc] at hbound
    exact ⟨⟨h.free, h.front, h.rear, hbound⟩, rfl⟩
  | subCount off hpc => exact ⟨⟨h.free, h.front, h.rear, True.intro⟩, rfl⟩

end Thread.Bounded

end Bounds

namespace Pool

def serving (l : Act) (_ : Pool) : Prop := l ≠ .destroy

instance (l : Act) (s : Pool) : Decidable (serving l s) := inferInstanceAs (Decidable (_ ≠ _))

def Touches (s : Pool) (t off : ℕ) : Prop :=
  s.producer.slot = some (t, off) ∨ (s.threads t).pc.slot = some off

structure SlotsInside (info : JpoolCreateInfo) (s : Pool) : Prop where
  queue : ∀ t < info.count, ∀ off, s.Touches t off → off + sizeofJob ≤ (info.queue t).size
  apart : ∀ t < info.count, ∀ off, s.Touches t off → ∀ u < info.count, u ≠ t →
    Block.Apart ⟨(info.queue t).data + off, sizeofJob⟩ (info.queue u).region
  mapped : ∀ t < info.count, ∀ off, s.Touches t off → (info.queue t).data + off + sizeofJob ≤ info.futexSize

structure Bounded (cap : ℕ) (s : Pool) : Prop where
  threads : ∀ t, (s.threads t).Bounded cap
  producer : s.producer.Bounded cap fun t => (s.threads t).rear
  call : s.producer.call ≠ .destroy

variable {info : JpoolCreateInfo} {cap t : ℕ} {s s' : Pool} {l : Act}

namespace Bounded

theorem put {x : Thread} (h : s.Bounded cap) (hx : x.Bounded cap) (u : ℕ) :
    ((s.setThread t x).threads u).Bounded cap := by
  by_cases hu : u = t
  · subst hu
    simpa only [setThread, Function.update_self] using hx
  · simpa only [setThread, Function.update_of_ne hu] using h.threads u

theorem queueWait (h : s.Bounded cap) (hcap : 16 ≤ cap) {w : WaitPc} {caller : Caller}
    (hpc : s.producer = .queueWait w t caller) : (∀ u, ((s.pQueueWait w t caller).threads u).Bounded cap) ∧
      (s.pQueueWait w t caller).producer.Bounded cap fun u => ((s.pQueueWait w t caller).threads u).rear := by
  have hx := h.threads t
  cases w with
  | load => exact ⟨h.threads, True.intro⟩
  | wake => exact ⟨h.put hx.wakeUp, True.intro⟩
  | resetFree => exact ⟨h.put ⟨by simp, hx.front, hx.rear, hx.pc⟩, True.intro⟩
  | resetCount => exact ⟨h.put ⟨hx.free, hx.front, hx.rear, hx.pc⟩, True.intro⟩
  | resetFront => exact ⟨h.put ⟨hx.free, .zero, hx.rear, hx.pc.front_zero hcap⟩, True.intro⟩
  | resetRear =>
    refine ⟨h.put ⟨hx.free, hx.front, .zero, hx.pc⟩, ?_⟩
    cases caller with
    | addJob job => simpa [pQueueWait, ProducerPc.Bounded, setThread, goto] using hcap
    | wait => exact True.intro
    | destroy =>
      have hcall := h.call
      rw [hpc] at hcall
      exact absurd rfl hcall

theorem producerStep (h : s.Bounded info.queueSz) (hcap : 16 ≤ info.queueSz) (hs : s.producerStep info = some s') :
    (∀ u, (s'.threads u).Bounded info.queueSz) ∧
      s'.producer.Bounded info.queueSz fun u => (s'.threads u).rear := by
  have hword := info.queueSz_lt
  have hbound := h.producer
  have hcall := h.call
  cases producerStep_cases hs with
  | loadCur job hpc | storeCur t job hpc | full t job hpc hfull | storeArg t off job hpc =>
    exact ⟨h.threads, True.intro⟩
  | waitNext t hpc ht | waitDone t hpc ht => exact ⟨h.threads, True.intro⟩
  | room t job hpc hroom =>
    rw [pQueueFull_iff hcap hword] at hroom
    exact ⟨h.threads, Nat.le_of_lt (Nat.lt_of_not_le hroom)⟩
  | queueWait w t caller hpc => exact h.queueWait hcap hpc
  | addRear t job hpc =>
    rw [hpc] at hbound
    have hx := h.threads t
    exact ⟨h.put ⟨hx.free, hx.front, hx.rear.next hbound hword, hx.pc⟩, hbound⟩
  | storeFunc t off job hpc =>
    rw [hpc] at hbound
    exact ⟨h.threads, hbound⟩
  | addCount t off hpc =>
    have hx := h.threads t
    exact ⟨h.put ⟨hx.free, hx.front, hx.rear, hx.pc⟩, True.intro⟩
  | wake t hpc => exact ⟨h.put (h.threads t).wakeUp, True.intro⟩
  | destroyNext t hpc ht | destroyDone t hpc ht | force value t hpc =>
    rw [hpc] at hcall
    exact absurd rfl hcall
  | forceWake t hpc | wakeCond t hpc | join t hpc hexit =>
    rw [hpc] at hcall
    exact absurd rfl hcall

theorem step (h : s.Bounded info.queueSz) (hcap : 16 ≤ info.queueSz) (hok : serving l s)
    (hs : Pool.step info l s = some s') : s'.Bounded info.queueSz := by
  have hl : l.call ≠ .destroy := mt Act.call_eq_destroy.mp hok
  have hcall := call_ne_step (by simp) h.call hl hs
  cases step_cases hs with
  | refuse job hpc => exact h
  | addJob job hpc hjob | wait hpc => exact ⟨h.threads, True.intro, hcall⟩
  | destroy hpc => exact absurd rfl hok
  | producer s' hs =>
    obtain ⟨hthreads, hproducer⟩ := h.producerStep hcap hs
    exact ⟨hthreads, hproducer, hcall⟩
  | worker tid turn x m ht hx =>
    obtain ⟨hbounded, hrear⟩ := (h.threads tid).pRunThread info.queueSz_lt hx
    have hsame : (fun u => ((s.setThread tid x).threads u).rear) = fun u => (s.threads u).rear := by
      funext u
      by_cases hu : u = tid
      · subst hu; simpa only [setThread, Function.update_self] using hrear
      · simp only [setThread, Function.update_of_ne hu]
    have hproducer := h.producer
    rw [← hsame] at hproducer
    exact ⟨h.put hbounded, hproducer, hcall⟩

end Bounded

theorem bounded_initial (cap : ℕ) : ({} : Pool).Bounded cap where
  threads _ := ⟨by simp, .zero, .zero, True.intro⟩
  producer := True.intro
  call := nofun

theorem bounded_reach (hcap : 16 ≤ info.queueSz) (h : Reach (system info) serving s) :
    s.Bounded info.queueSz := by
  apply h.invariant
  · rintro s rfl
    exact bounded_initial _
  · intro s s' l hs hok hstep
    exact hs.step hcap hok hstep

theorem Bounded.touches (h : s.Bounded cap) {off : ℕ} (ht : s.Touches t off) : off + 16 ≤ cap := by
  rcases ht with ht | ht
  · have hbound := h.producer
    cases hpc : s.producer with
    | storeFunc tid off' job | storeArg tid off' job =>
      rw [hpc] at hbound ht
      cases ht
      exact hbound
    | _ => rw [hpc] at ht; cases ht
  · exact (h.threads t).pc.slot ht

theorem Bounded.inside (h : s.Bounded info.queueSz) (hinfo : info.Accepted) (hmap : info.dataOff ≤ info.futexSize) :
    s.SlotsInside info := by
  constructor
  · intro t ht off htouch
    exact h.touches htouch
  · intro t ht off htouch u hu hne
    have hoff := h.touches htouch
    have hapart := JpoolCreateInfo.queueData_apart hinfo ht hu hne.symm
    simp only [Block.Apart, Block.stop, JpoolQueue.region, JpoolCreateInfo.queue, sizeofJob]
    omega
  · intro t ht off htouch
    have hoff := h.touches htouch
    have hstop := (JpoolCreateInfo.regions_laid hinfo).bounds (info.queue t).region (by
      simp only [JpoolCreateInfo.regions, List.mem_append, List.mem_map, List.mem_range]
      exact .inr ⟨t, ht, rfl⟩)
    have hmapped := JpoolCreateInfo.data_mapped hmap
    simp only [Block.stop, JpoolQueue.region, JpoolCreateInfo.queue, sizeofJob] at hstop ⊢
    omega

theorem first_slot (hfull : pQueueFull {} info.queueSz = false) :
    ∃ s, Reach (system info) serving s ∧ s.Touches 0 0 := by
  have hstart : Reach (system info) serving {} := .init rfl
  have hcall : Reach (system info) serving (goto {} (.loadCur ⟨1, 1⟩)) :=
    hstart.step (l := .addJob ⟨1, 1⟩) nofun rfl
  have hcur := hcall.step (l := .producer) nofun rfl
  have hnext := hcur.step (l := .producer) nofun rfl
  have hroom := hnext.step (l := .producer) nofun (by
    simp only [system, step, producerStep, goto]
    rw [hfull])
  have hslot := hroom.step (l := .producer) nofun rfl
  exact ⟨_, hslot, .inl rfl⟩

theorem not_full {cap : ℕ} (hcap : cap ≠ 16) (hlt : cap < wordMax) : pQueueFull {} cap = false := by
  apply decide_eq_false
  simp only [wordMax, sizeMax, sizeofJob] at hlt ⊢
  omega

theorem slots_inside_iff {i : Option JpoolCreateInfo} (hi : pJpoolCreateCheck i = some info) :
    (∀ s, Reach (system info) serving s → s.SlotsInside info) ↔ 4 + 16 * info.count ≤ info.futexSize ∧
      16 * info.count ≤ (info.futexSize % 2 ^ 32 + 2 ^ 32 - (4 + 16 * info.count)) % 2 ^ 32 := by
  have hinfo := (JpoolCreateInfo.check_accepted hi).2
  have hoff := JpoolCreateInfo.dataOff_eq hinfo
  have hcap : 16 ≤ info.queueSz ↔
      16 * info.count ≤ (info.futexSize % 2 ^ 32 + 2 ^ 32 - (4 + 16 * info.count)) % 2 ^ 32 := by
    rw [JpoolCreateInfo.queueSz, Nat.le_div_iff_mul_le hinfo.count_pos, hoff]
    rfl
  rw [← hcap, ← hoff]
  constructor
  · intro hinside
    have hsize : 16 ≤ info.queueSz := by
      by_contra hsmall
      obtain ⟨s, hs, htouch⟩ := first_slot (not_full (by omega) info.queueSz_lt)
      exact hsmall ((hinside s hs).queue 0 hinfo.count_pos 0 htouch)
    refine ⟨?_, hsize⟩
    by_contra hheader
    have hlarge := hinfo.unmapped_header (Nat.lt_of_not_le hheader)
    obtain ⟨s, hs, htouch⟩ := first_slot (not_full (by omega) info.queueSz_lt)
    have hmapped := (hinside s hs).mapped 0 hinfo.count_pos 0 htouch
    simp only [JpoolCreateInfo.queue, JpoolCreateInfo.queueData] at hmapped
    omega
  · rintro ⟨hheader, hsize⟩ s hs
    exact (bounded_reach hsize hs).inside hinfo hheader

theorem slots_inside_page : ∃ s, Reach (system ⟨4000, 1, by decide⟩) serving s ∧ s.Touches 0 0 ∧
    s.SlotsInside ⟨4000, 1, by decide⟩ := by
  have hfull : pQueueFull {} (⟨4000, 1, by decide⟩ : JpoolCreateInfo).queueSz = false :=
    not_full (by decide) (by decide)
  obtain ⟨s, hs, htouch⟩ := first_slot hfull
  exact ⟨s, hs, htouch, (slots_inside_iff (i := some ⟨4000, 1, by decide⟩) rfl).mpr (by decide) s hs⟩

/-- Queues of one byte each: none is ever full, and the first job runs over the next fifteen queues. -/
theorem slot_outside : ¬ ∀ (i : Option JpoolCreateInfo) (info : JpoolCreateInfo), pJpoolCreateCheck i = some info →
    ∀ s, Reach (system info) serving s → s.SlotsInside info := by
  intro inside
  have hfull : pQueueFull {} (⟨1, 240, by decide⟩ : JpoolCreateInfo).queueSz = false :=
    not_full (by decide) (by decide)
  obtain ⟨s, hs, htouch⟩ := first_slot hfull
  have hinside := (inside (some ⟨1, 240, by decide⟩) _ rfl s hs).queue 0 (by decide) 0 htouch
  exact absurd hinside (by decide)

end Pool

end Libcando.Jpool
