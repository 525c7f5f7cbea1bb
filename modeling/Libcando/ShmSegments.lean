import Libcando.ShmCounting

namespace Libcando.Shm

open ByteMemory Futex Transition Baton

namespace Context

def busyAt (c : Context) (o i : ℕ) : Option Side :=
  match c.pc with
  | .transfer x => if c.obj = o ∧ x.info.procIndex = i then x.busy else none
  | _ => none

def initialised (c : Context) (i : ℕ) : Bool :=
  match c.pc with
  | .create (.initRead j) => i < j
  | .create (.initWrite j) => i ≤ j
  | .attached | .transfer _ => true
  | _ => false

theorem busyAt_initialised {c : Context} {o i : ℕ} (h : c.busyAt o i ≠ none) :
    c.obj = o ∧ c.initialised i = true := by
  unfold busyAt at h
  split at h
  · rename_i x hpc
    split_ifs at h with ho
    · exact ⟨ho.1, by simp [initialised, hpc]⟩
    · exact absurd rfl h
  · exact absurd rfl h

theorem Move.initialised {c c' : Context} {n i : ℕ} (h : c.Move n c')
    (hi : ∀ j, c.pc = .create (.initRead j) → i < c.info.procCount)
    (hc : c'.initialised i = true) : c.initialised i = true := by
  cases h with
  | ready j hpc hj =>
    have := hi j hpc
    simp only [Context.initialised, hpc, decide_eq_true_eq]
    omega
  | call x hpc hx ht | «return» x ret hpc hx | skip x pc ret hpc hx => simp [Context.initialised, hpc]
  | _ => cases hc

theorem Move.busyAt {c c' : Context} {n : ℕ} (h : c.Move n c') (o i : ℕ) :
    c'.busyAt o i = c.busyAt o i := by
  have idle {x : Transfer} (hx : x.busy = none) (hpc : c.pc = .transfer x) : c.busyAt o i = none := by
    simp [Context.busyAt, hpc, hx]
  cases h with
  | refuse hpc => rcases hpc with hpc | hpc | hpc <;> simp [Context.busyAt, hpc]
  | map hpc | crash hpc | full hpc hn | room hpc hn | ready j hpc hj | detach hpc | unmap value hpc =>
    simp [Context.busyAt, hpc]
  | call x hpc hx ht => simp [Context.busyAt, hpc, Transfer.busy, ht]
  | «return» x ret hpc hx => rw [idle (by simp [Transfer.busy, hx, TransferPc.holding]) hpc]; rfl
  | skip x pc ret hpc hx =>
    rw [idle (by simp [Transfer.busy, hx, TransferPc.holding]) hpc]
    simp [Context.busyAt, Transfer.busy, TransferPc.holding]
  | fault x pc hpc hx => rw [idle (by simp [Transfer.busy, hx, TransferPc.holding]) hpc]; rfl

end Context

theorem Transfer.Step.info_eq {procs : ℕ → ShmProc} {x x' : Transfer} {m m' : Mem}
    (h : x.Step procs m x' m') : x'.info = x.info := by
  cases h <;> rfl

theorem Transfer.Step.unindexed {procs : ℕ → ShmProc} {x x' : Transfer} {m m' : Mem} {n : ℕ}
    (h : x.Step procs m x' m') (hx : x.Indexed n) (hi : ∀ pc, x.pc = .lock pc → x.info.procIndex < n)
    (hn : n ≤ x.info.procIndex) : m' = m := by
  unfold Indexed at hx
  cases h with
  | acquire pc hpc hw => have := hi pc hpc; omega
  | write s hpc hd hs | clear s hpc | release value hpc => rw [hpc] at hx; exact absurd hx (by omega)
  | _ => rfl

section Words

variable {info : ShmCreateInfo} {i j : ℕ} {m m' : Mem}

theorem words_store (hinfo : info.Accepted) (hi : i < info.procCount) {a v : ℕ}
    (ha : a + 4 ≤ 4 + 8 * i ∨ 12 + 8 * i ≤ a) :
    (info.procs i).words (store m a 4 v) = (info.procs i).words m := by
  obtain ⟨hrd, hwr, -⟩ := ShmCreateInfo.procs_placed hinfo hi
  funext s
  cases s
  all_goals
    simp only [ShmProc.words, ShmProc.fux, hrd, hwr]
    exact load_store_disjoint (by omega)

theorem words_compareExchange (hinfo : info.Accepted) (hi : i < info.procCount) {a v v' : ℕ}
    (ha : a + 4 ≤ 4 + 8 * i ∨ 12 + 8 * i ≤ a) :
    (info.procs i).words (compareExchange m a v v') = (info.procs i).words m := by
  unfold compareExchange
  split_ifs
  · exact words_store hinfo hi ha
  · rfl

theorem placed (hinfo : info.Accepted) (hi : i < info.procCount) : (info.procs i).Placed := by
  obtain ⟨hrd, hwr, hdata⟩ := ShmCreateInfo.procs_placed hinfo hi
  simp only [ShmProc.Placed]
  omega

theorem Transfer.Step.other_words (hinfo : info.Accepted) (hi : i < info.procCount) {x x' : Transfer}
    (h : x.Step info.procs m x' m') (hx : x.Indexed info.procCount)
    (hlock : ∀ pc, x.pc = .lock pc → x.info.procIndex < info.procCount) (hne : x.info.procIndex ≠ i) :
    (info.procs i).words m' = (info.procs i).words m := by
  by_cases hj : x.info.procIndex < info.procCount
  · obtain ⟨hrd, hwr, -⟩ := ShmCreateInfo.procs_placed hinfo hi
    obtain ⟨hrd', hwr', hdata⟩ := ShmCreateInfo.procs_placed hinfo hj
    have far (s s' : Side) : (info.procs i).fux s + 4 ≤ (info.procs x.info.procIndex).fux s' ∨
        (info.procs x.info.procIndex).fux s' + 4 ≤ (info.procs i).fux s := by
      cases s <;> cases s' <;> simp only [ShmProc.fux, hrd, hwr, hrd', hwr'] <;> omega
    funext s
    apply h.word
    · cases s <;> simp only [ShmProc.fux, data, hrd, hwr] <;> omega
    · intro _ _
      rw [ownFux_eq]
      exact far s _
    · intro _ _
      rw [otherFux_eq]
      exact far s _
  · rw [h.unindexed hx hlock (by omega)]

end Words

namespace World

variable {P : Type*}

def words (info : ShmCreateInfo) (w : World P) (o i : ℕ) : Side → ℕ := (info.procs i).words (w.objs o).mem

def busyAt (w : World P) (o i : ℕ) (q : P) : Option Side := (w.ctx q).busyAt o i

structure Quiet (info : ShmCreateInfo) (w w' : World P) (o i : ℕ) : Prop where
  words : w'.words info o i = w.words info o i
  busy : w'.busyAt o i = w.busyAt o i
  initialised : ∀ q, (w'.ctx q).obj = o → (w'.ctx q).initialised i = true →
    (w.ctx q).obj = o ∧ (w.ctx q).initialised i = true

variable {info : ShmCreateInfo} {w w' : World P} {p : P} {act : Act} {o i : ℕ}

theorem words_setMem {m : Mem}
    (hm : (w.ctx p).obj = o → (info.procs i).words m = (info.procs i).words (w.mem p)) :
    (w.setMem p m).words info o i = w.words info o i := by
  simp only [words, setMem_mem]
  split_ifs with ho
  · subst ho; exact hm rfl
  · rfl

variable [DecidableEq P]

theorem Quiet.of_self (h : w.Step p act w') (hwords : w'.words info o i = w.words info o i)
    (hbusy : (w'.ctx p).busyAt o i = (w.ctx p).busyAt o i)
    (hinit : (w'.ctx p).obj = o → (w'.ctx p).initialised i = true →
      (w.ctx p).obj = o ∧ (w.ctx p).initialised i = true) : Quiet info w w' o i := by
  constructor
  · exact hwords
  · funext q
    by_cases hq : q = p
    · subst hq; exact hbusy
    · simp only [busyAt, h.others hq]
  · intro q
    by_cases hq : q = p
    · subst hq; exact hinit
    · rw [h.others hq]
      intro ho hc
      exact ⟨ho, hc⟩

theorem Quiet.of_move {c : Context} (hc : (w.ctx p).Move (w.count p) c)
    (hw : w.Sane fun j => j.Accepted ∧ j = info) (hi : i < info.procCount) :
    Quiet info w (w.put p c) o i := by
  refine .of_self (.move .destroy c hc) rfl ?_ ?_
  all_goals simp only [put_ctx, Function.update_self]
  · exact hc.busyAt o i
  · rw [hc.kept.2.1]
    intro ho hci
    refine ⟨ho, hc.initialised ?_ hci⟩
    intro j hj
    have hwf := hw.wf p
    rw [Context.WF, hj] at hwf
    rw [hwf.1.2]
    exact hi

theorem Step.quiet (h : w.Step p act w') (hw : w.Sane fun j => j.Accepted ∧ j = info)
    (hinfo : info.Accepted) (hi : i < info.procCount) (hnext : o ≠ w.next)
    (hlen : (w.ctx p).obj = o → (w.ctx p).pc = .create .ftruncate →
      ((w.objs o).ftruncate info.shmSize).mem = (w.objs o).mem)
    (hinit : (w.ctx p).obj = o → (w.ctx p).pc ≠ .create (.initRead i))
    (hx : ∀ x, (w.ctx p).pc = .transfer x → (w.ctx p).obj = o → x.info.procIndex ≠ i) :
    Quiet info w w' o i := by
  have hwf := hw.wf p
  unfold Context.WF at hwf
  have hs := h
  cases h with
  | move act c hc => exact .of_move hc hw hi
  | accept info' hpc hinfo' => refine .of_self hs rfl ?_ ?_ <;> simp [Context.busyAt, Context.initialised, hpc]
  | openBound turn o hpc hn => refine .of_self hs rfl ?_ ?_ <;> simp [Context.busyAt, Context.initialised, hpc]
  | openFresh turn hpc hn =>
    refine .of_self hs (by simp [words, hnext]) ?_ ?_ <;> simp [Context.busyAt, Context.initialised, hpc]
  | truncate turn hpc =>
    rw [hpc] at hwf
    refine .of_self hs ?_ (by simp [Context.busyAt, hpc]) (by simp [Context.initialised])
    simp only [words, goto_objs, ftruncate]
    by_cases ho : o = (w.ctx p).obj
    · subst ho
      rw [Function.update_self, hwf.1.2, hlen rfl hpc]
    · rw [Function.update_of_ne ho]
  | attach turn hpc =>
    refine .of_self hs ?_ (by simp [Context.busyAt, hpc]) (by simp [Context.initialised])
    apply words_setMem
    intro _
    exact words_store hinfo hi (.inl (by omega))
  | initRead turn j hpc hj =>
    rw [hpc] at hwf
    obtain ⟨⟨-, rfl⟩, -⟩ := hwf
    obtain ⟨hrd, -⟩ := ShmCreateInfo.procs_placed hinfo hj
    have hne (ho : (w.ctx p).obj = o) : j ≠ i := fun hji => hinit ho (hji ▸ hpc)
    refine .of_self hs ?_ (by simp [Context.busyAt, hpc]) ?_
    · apply words_setMem
      intro ho
      apply words_compareExchange hinfo hi
      have := hne ho
      omega
    · simp only [goto_ctx, Function.update_self, Context.initialised, hpc, decide_eq_true_eq]
      intro ho hij
      have := hne ho
      exact ⟨ho, by omega⟩
  | initWrite turn j hpc =>
    refine .of_self hs ?_ (by simp [Context.busyAt, hpc]) ?_
    · apply words_setMem
      intro _
      rw [compareExchange_same]
    · simp only [goto_ctx, Function.update_self, Context.initialised, hpc, decide_eq_true_eq]
      intro ho hij
      exact ⟨ho, by omega⟩
  | decrement turn value hpc hv =>
    refine .of_self hs ?_ (by simp [Context.busyAt, hpc]) (by simp [Context.initialised])
    apply words_setMem
    intro _
    exact words_store hinfo hi (.inl (by omega))
  | unlink turn value hpc => refine .of_self hs rfl ?_ ?_ <;> simp [Context.busyAt, Context.initialised, hpc]
  | transfer turn x x' m' hpc hlock hstep =>
    rw [hpc] at hwf
    obtain ⟨⟨-, rfl⟩, -, -, hindexed⟩ := hwf
    refine .of_self hs ?_ ?_ ?_
    · apply words_setMem
      intro ho
      exact hstep.other_words hinfo hi hindexed hlock (hx x hpc ho)
    · simp only [goto_ctx, setMem_ctx, Function.update_self, Context.busyAt, hpc, hstep.info_eq]
      split_ifs with ho
      · exact absurd ho.2 (hx x hpc ho.1)
      · rfl
    · simp only [goto_ctx, Function.update_self, Context.initialised, hpc]
      intro ho _
      exact ⟨ho, trivial⟩

end World

end Libcando.Shm
