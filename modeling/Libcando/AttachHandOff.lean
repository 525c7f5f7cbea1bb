import Libcando.AttachCount
import Libcando.ShmHanding

namespace Libcando.Shm.World

open ByteMemory Futex Transition Baton

variable {P : Type*} {info : ShmCreateInfo} {w w' : World P} {p : P} {act : Act} {o i : ℕ}

def OneEach (info : ShmCreateInfo) (w : World P) : Prop :=
  ∀ o i, w.attachedOn o → i < info.procCount → Token.ExactlyOne (w.words info o i) (w.busyAt o i)

structure Keeps (info : ShmCreateInfo) (p : P) (w w' : World P) : Prop where
  create : (w.ctx p).inCreate = true → ∀ o a, w.attachedOn o → 4 ≤ a → (w'.objs o).mem a = (w.objs o).mem a
  message : ∀ o i, w.attachedOn o → i < info.procCount → w.words info o i .take = 0 →
    w'.words info o i .take ≠ 0 → w'.busyAt o i p = some .take

theorem Handing.oneEach (hw : w.Handing info) : w.OneEach info := by
  intro o i ho hi
  obtain ⟨t, ht, hne⟩ := hw.passing_on hi ho
  exact ht.exactlyOne hne

theorem Sane.on_lt {I : ShmCreateInfo → Prop} (hw : w.Sane I) (ho : w.attachedOn o) : o < w.next := by
  obtain ⟨q, hq, rfl⟩ := ho
  exact hw.bound q (by simp [Context.bound, (hw.settled hq).2])

variable [DecidableEq P]

theorem Handing.create_keeps (hw : w.Handing info) (h : w.Step p act w') (hok : unread info (p, act) w)
    (hpc : (w.ctx p).inCreate = true) (ho : w.attachedOn o) {a : ℕ} (ha : 4 ≤ a) :
    (w'.objs o).mem a = (w.objs o).mem a := by
  have hwf := hw.wf p
  unfold Context.WF at hwf
  have own {m : Mem} (hm : (w.ctx p).obj = o → m a = w.mem p a) :
      ((w.setMem p m).objs o).mem a = (w.objs o).mem a := by
    rw [setMem_mem]
    split_ifs with hobj
    · subst hobj; exact hm rfl
    · rfl
  cases h with
  | move act c hc | accept info' hpc' hi | openBound turn o' hpc' hn => rfl
  | openFresh turn hpc' hn =>
    have := hw.on_lt ho
    simp [show o ≠ w.next by omega]
  | truncate turn hpc' =>
    rw [hpc'] at hwf
    by_cases hobj : o = (w.ctx p).obj
    · subst hobj
      simp only [goto_objs, ftruncate, Function.update_self, hwf.1.2]
      rw [Object.ftruncate_blank (hw.blank _)]
    · simp [ftruncate, hobj]
  | attach turn hpc' => exact own fun _ => store_outside (.inr ha)
  | initRead turn j hpc' hj =>
    rw [hpc'] at hwf
    obtain ⟨⟨-, rfl⟩, -⟩ := hwf
    apply own
    intro hobj
    have htake := (hw.passing_on hj (hobj ▸ ho)).take (hok j (by simp [Context.atInitRead, hpc']) hj)
    have hsame : compareExchange (w.mem p) ((w.ctx p).info.procs j).rdFux futexUnlock futexLock = w.mem p :=
      compareExchange_ne htake
    rw [hsame]
  | initWrite turn j hpc' => exact own fun _ => by rw [compareExchange_same]
  | decrement turn value hpc' hv | unlink turn value hpc' => simp [Context.inCreate, hpc'] at hpc
  | transfer turn x x' m' hpc' hi hs => simp [Context.inCreate, hpc'] at hpc

theorem Handing.message_keeps (hw : w.Handing info) (hinfo : info.Accepted) (h : w.Step p act w')
    (hok : unread info (p, act) w) (ho : w.attachedOn o) (hi : i < info.procCount)
    (hfree : w.words info o i .take = 0) (htaken : w'.words info o i .take ≠ 0) :
    w'.busyAt o i p = some .take := by
  by_cases hx : ∃ x, (w.ctx p).pc = .transfer x ∧ (w.ctx p).obj = o ∧ x.info.procIndex = i
  · obtain ⟨x, hpc, rfl, rfl⟩ := hx
    cases h with
    | move act c hc => exact absurd hfree htaken
    | transfer turn y x' m' hpc' hlock hs =>
      cases hpc.symm.trans hpc'
      have hwf := hw.wf p
      rw [Context.WF, hpc] at hwf
      rw [hwf.1.2] at hs
      have hm := hs.motion hwf.2.2.1 (placed hinfo hi)
      rw [words_transfer] at htaken
      rw [busyAt_transfer hpc hs.info_eq, Function.update_self]
      cases hm with
      | idle hpc hb hb' hm => rw [hm] at htaken; exact absurd hfree htaken
      | work hpc hb hb' hw hc => rw [hw] at htaken; exact absurd hfree htaken
      | acquire hpc hzero hb hb' hw hp hd =>
        rw [hb']
        rw [hw] at htaken
        by_contra hne
        rw [Function.update_of_ne (by simpa [eq_comm] using hne)] at htaken
        exact htaken hfree
      | release hb hb' hw hpc hd =>
        rw [hw] at htaken
        by_cases hside : Side.take = x.dir.side.other
        · simp [← hside] at htaken
        · rw [Function.update_of_ne hside] at htaken
          exact absurd hfree htaken
      | drop hpc he hb hb' hm => rw [hm] at htaken; exact absurd hfree htaken
    | _ => simp_all
  · exfalso
    apply htaken
    by_cases hinit : (w.ctx p).obj = o ∧ (w.ctx p).pc = .create (.initRead i)
    · obtain ⟨hobj, hpc⟩ := hinit
      have hplaced := ShmCreateInfo.procs_placed hinfo hi
      rw [← hfree]
      apply load_congr
      intro a hlo hhi
      apply hw.create_keeps h hok (by simp [Context.inCreate, hpc]) ho
      simp only [ShmProc.fux] at hlo
      omega
    · have hq := h.quiet hw.toSane hinfo hi (hw.on_lt ho).ne
        (fun _ _ => Object.ftruncate_blank (hw.blank o)) (fun hobj hpc => hinit ⟨hobj, hpc⟩)
        fun x hpc hobj hidx => hx ⟨x, hpc, hobj, hidx⟩
      rw [hq.words, hfree]

theorem handing_reach (hinfo : info.Accepted) (h : Reach (system P) (calm info) w) : w.Handing info := by
  have hinit : ({} : World P).Handing info := ⟨sane_initial, fun _ => .inr rfl, fun o ho => absurd ho (by simp)⟩
  exact h.invariant (fun _ hs => hs ▸ hinit) fun _ _ _ hw hok hs => hw.step (step_cases hs) hok hinfo

theorem sane_reach (h : Reach (system P) (calm info) w) : w.Sane fun j => j.Accepted ∧ j = info := by
  apply h.invariant (fun _ hs => hs ▸ sane_initial)
  intro s t l hw hok hs
  apply hw.step (step_cases hs)
  rintro j hj hacc
  have := hok.1
  simp only [alike, hj] at this
  exact ⟨hacc, this⟩

theorem attach_keeps_hand_off (h : Reach (system P) (calm info) w) :
    w.OneEach info ∧ ∀ p act w', calm info (p, act) w → step (p, act) w = some w' → w.Keeps info p w' := by
  have accepted {o : ℕ} (ho : w.attachedOn o) : info.Accepted := by
    obtain ⟨q, hq, -⟩ := ho
    obtain ⟨⟨hacc, rfl⟩, -⟩ := (sane_reach h).settled hq
    exact hacc
  constructor
  · intro o i ho hi
    exact (handing_reach (accepted ho) h).oneEach o i ho hi
  · intro p act w' hok hs
    have hstep := step_cases hs
    constructor
    · intro hpc o a ho ha
      exact (handing_reach (accepted ho) h).create_keeps hstep hok.2.2 hpc ho ha
    · intro o i ho hi
      exact (handing_reach (accepted ho) h).message_keeps (accepted ho) hstep hok.2.2 ho hi

theorem attach_keeps_hand_off_writing : ∃ w : World (Fin 2),
    (w.ctx 1).settled = true ∧ w.busyAt 0 0 0 = some .put ∧ w.OneEach (onePage 2) := by
  obtain ⟨w, hw, hq⟩ := exists_of_run (system (Fin 2)) (calm (onePage 2)) (.init rfl)
    ((0, .create (onePage 2)) :: List.replicate 10 (0, .tick .plain) ++
      [(0, .transfer .write ⟨false, 4, 0⟩ (fun _ => 7) 0), (0, .tick .plain), (0, .tick .plain)] ++
      (1, .create (onePage 2)) :: List.replicate 10 (1, .tick .plain))
    (fun w => (w.ctx 1).settled = true ∧ w.busyAt 0 0 0 = some .put) (by decide +kernel)
  exact ⟨w, hq.1, hq.2, (attach_keeps_hand_off hw).1⟩

theorem attach_loses_message : ¬ ∀ (info : ShmCreateInfo) (w : World (Fin 2)),
    Reach (system (Fin 2)) (fun l w => alike info l w ∧ unfailing l w) w → w.OneEach info := by
  intro keeps
  obtain ⟨w, hw, hset, hobj, hword, hidle⟩ := exists_of_run (system (Fin 2))
    (fun l w => alike (onePage 2) l w ∧ unfailing l w) (.init rfl)
    ((0, .create (onePage 2)) :: List.replicate 10 (0, .tick .plain) ++
      (0, .transfer .write ⟨false, 4, 0⟩ (fun _ => 7) 0) :: List.replicate 8 (0, .tick .plain) ++
      (1, .create (onePage 2)) :: List.replicate 6 (1, .tick .plain))
    (fun w => (w.ctx 0).settled = true ∧ (w.ctx 0).obj = 0 ∧
      (w.words (onePage 2) 0 0 .take = 1 ∧ w.words (onePage 2) 0 0 .put = 1) ∧
        ∀ q, w.busyAt 0 0 q = none) (by decide +kernel)
  rcases keeps (onePage 2) w hw 0 0 ⟨0, hset, hobj⟩ (by decide) with ⟨side, hz, -⟩ | ⟨-, q, hq, -⟩
  · cases side
    · rw [hword.2] at hz; cases hz
    · rw [hword.1] at hz; cases hz
  · exact hq (hidle q)

end Libcando.Shm.World
