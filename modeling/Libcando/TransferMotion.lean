import Libcando.Baton
import Libcando.ShmTransfer

namespace Libcando.Shm

open ByteMemory Futex

def Dir.side : Dir → Baton.Side
  | .read => .take
  | .write => .put

def TransferPc.holding : TransferPc → Bool
  | .errnoCheck | .copy _ | .clear _ | .unlock (.store _) => true
  | _ => false

def Transfer.busy (x : Transfer) : Option Baton.Side :=
  if x.took ∧ x.pc.holding then some x.dir.side else none

def Transfer.WF (x : Transfer) : Prop :=
  match x.pc with
  | .check | .lock _ => x.took = false
  | .errnoCheck => x.took = true ∨ x.errno = eintr
  | .copy _ | .unlock .wake => x.took = true
  | .clear _ => x.took = true ∧ x.dir = .read
  | .unlock (.store value) => x.took = true ∧ value = futexUnlock
  | .done _ => True

theorem Transfer.Step.wf {procs : ℕ → ShmProc} {x x' : Transfer} {m m' : Mem}
    (h : x.Step procs m x' m') (hx : x.WF) : x'.WF := by
  unfold Transfer.WF at hx
  cases h with
  | reject hpc | fail hpc he | wake hpc => trivial
  | accept hpc | spin pc pc' errno hpc => rw [hpc] at hx; exact hx
  | acquire pc hpc hw => exact .inl rfl
  | interrupt pc hpc hw => exact .inr rfl
  | enter hpc he => rw [hpc] at hx; exact hx.resolve_right he
  | read s hpc hdir hlt => rw [hpc] at hx; exact ⟨hx, hdir⟩
  | write s hpc hdir hlt => rw [hpc] at hx; exact hx
  | finish s hpc hge => rw [hpc] at hx; exact ⟨hx, rfl⟩
  | clear s hpc | release value hpc => rw [hpc] at hx; exact hx.1

def ShmProc.Placed (proc : ShmProc) : Prop := proc.rdFux + 4 ≤ proc.wrFux ∧ proc.wrFux + 4 ≤ proc.data

section Words

variable {procs : ℕ → ShmProc} {x x' : Transfer} {m m' : Mem}

theorem Transfer.Step.word (h : x.Step procs m x' m') {a : ℕ} (ha : a + 4 ≤ x.data procs)
    (hown : (∃ pc, x.pc = .lock pc) → load m (x.ownFux procs) 4 = futexUnlock →
      a + 4 ≤ x.ownFux procs ∨ x.ownFux procs + 4 ≤ a)
    (hother : ∀ value, x.pc = .unlock (.store value) →
      a + 4 ≤ x.otherFux procs ∨ x.otherFux procs + 4 ≤ a) : load m' a 4 = load m a 4 := by
  cases h with
  | acquire pc hpc hw => exact load_store_disjoint (hown ⟨pc, hpc⟩ hw)
  | write s hpc hdir hlt => exact load_store_disjoint (.inl (by omega))
  | clear s hpc => exact load_store_disjoint (.inl (by omega))
  | release value hpc => exact load_store_disjoint (hother value hpc)
  | _ => rfl

def ShmProc.fux (proc : ShmProc) : Baton.Side → ℕ
  | .take => proc.rdFux
  | .put => proc.wrFux

def ShmProc.words (proc : ShmProc) (m : Mem) (side : Baton.Side) : ℕ := load m (proc.fux side) 4

theorem Transfer.ownFux_eq (x : Transfer) : x.ownFux procs = (procs x.info.procIndex).fux x.dir.side := by
  unfold ownFux; cases x.dir <;> rfl

theorem Transfer.otherFux_eq (x : Transfer) :
    x.otherFux procs = (procs x.info.procIndex).fux x.dir.side.other := by
  unfold otherFux; cases x.dir <;> rfl

def Transfer.progress (x : Transfer) : ℕ :=
  match x.pc with
  | .copy s => s
  | .clear s => s + 4
  | .unlock _ => x.info.size
  | _ => 0

structure Transfer.Carries (proc : ShmProc) (x : Transfer) (m : Mem) (x' : Transfer) (m' : Mem) : Prop where
  grows : min x.progress x.info.size ≤ x'.progress
  put : x.dir = .write → x'.buf = x.buf ∧
    ∀ i < x'.progress, m' (proc.data + i) = if i < x.progress then m (proc.data + i) else x.buf i
  take : x.dir = .read →
    (∀ i < x'.progress, x'.buf i = if i < x.progress then x.buf i else m (proc.data + i)) ∧
      ∀ i, x'.progress ≤ i → m' (proc.data + i) = m (proc.data + i) ∨ x.info.size ≤ i

def Transfer.Releasing (x : Transfer) : Prop := ∃ value, x.pc = .unlock (.store value)

inductive Transfer.Motion (proc : ShmProc) (x : Transfer) (m : Mem) (x' : Transfer) (m' : Mem) : Prop
  | idle (hpc : ¬ x.Releasing) (hb : x.busy = none) (hb' : x'.busy = none) (hm : m' = m)
  | work (hpc : ¬ x.Releasing) (hb : x.busy = some x.dir.side) (hb' : x'.busy = some x.dir.side)
    (hw : proc.words m' = proc.words m) (hc : x.Carries proc m x' m')
  | acquire (hpc : ¬ x.Releasing) (hfree : proc.words m x.dir.side = 0) (hb : x.busy = none)
    (hb' : x'.busy = some x.dir.side)
    (hw : proc.words m' = Function.update (proc.words m) x.dir.side 1) (hx : x'.progress = 0)
    (hd : ∀ a, proc.data ≤ a → m' a = m a)
  | release (hb : x.busy = some x.dir.side) (hb' : x'.busy = none)
    (hw : proc.words m' = Function.update (proc.words m) x.dir.side.other 0)
    (hpc : x.pc = .unlock udoFutexUnlock) (hd : ∀ a, proc.data ≤ a → m' a = m a)
  | drop (hpc : x.pc = .errnoCheck) (he : x.errno = eintr) (hb : x.busy = some x.dir.side)
    (hb' : x'.busy = none) (hm : m' = m)

theorem ShmProc.Placed.fux {proc : ShmProc} (h : proc.Placed) (s : Baton.Side) :
    proc.fux s + 4 ≤ proc.data ∧ (proc.fux s + 4 ≤ proc.fux s.other ∨ proc.fux s.other + 4 ≤ proc.fux s) := by
  obtain ⟨h₁, h₂⟩ := h
  cases s <;> simp only [ShmProc.fux, Baton.Side.other] <;> omega

theorem ShmProc.Placed.words_store {proc : ShmProc} (h : proc.Placed) (m : Mem) (s : Baton.Side) {v : ℕ}
    (hv : v < 256 ^ 4) : proc.words (store m (proc.fux s) 4 v) = Function.update (proc.words m) s v := by
  funext s'
  rcases s.eq_or_other s' with rfl | rfl
  · simp only [ShmProc.words, Function.update_self, load_store_of_lt hv]
  · rw [Function.update_of_ne (Baton.Side.other_ne s)]
    exact load_store_disjoint (h.fux s).2.symm

theorem Transfer.Step.carries (h : x.Step procs m x' m') (hpc : x.busy ≠ none) (hpc' : x'.busy ≠ none)
    (hx : x.WF) : x.Carries (procs x.info.procIndex) m x' m' := by
  unfold Transfer.WF at hx
  cases h with
  | enter hpc he =>
    have hz : x.progress = 0 := by simp [progress, hpc]
    constructor
    · simp [hz]
    · intro _
      exact ⟨rfl, by simp [progress]⟩
    · intro _
      exact ⟨by simp [progress], fun _ _ => .inl rfl⟩
  | write s hpc hdir hlt =>
    refine ⟨by simp only [progress, hpc]; omega, fun _ => ⟨rfl, ?_⟩, by simp [hdir]⟩
    intro i hi
    simp only [progress, hpc] at hi ⊢
    split_ifs with his
    · apply store_outside
      simp only [data]
      omega
    · exact writeWord_at _ x.buf m (Nat.le_of_not_lt his) hi
  | read s hpc hdir hlt =>
    refine ⟨by simp only [progress, hpc]; omega, by simp [hdir], fun _ => ⟨?_, fun _ _ => .inl rfl⟩⟩
    intro i hi
    simp only [progress, hpc] at hi ⊢
    split_ifs with his
    · exact store_outside (.inl his)
    · exact readWord_at _ x.buf m (Nat.le_of_not_lt his) hi
  | clear s hpc =>
    rw [hpc] at hx
    refine ⟨by simp only [progress, hpc]; omega, by simp [hx.2], fun _ => ⟨?_, ?_⟩⟩
    · intro i hi
      simp only [progress, hpc] at hi ⊢
      rw [if_pos hi]
    · intro i hi
      left
      simp only [progress] at hi
      apply store_outside
      simp only [data]
      omega
  | finish s hpc hge =>
    refine ⟨by simp only [progress, hpc]; omega, fun _ => ⟨rfl, ?_⟩, fun _ => ⟨?_, fun _ _ => .inl rfl⟩⟩
    all_goals
      intro i hi
      simp only [progress, hpc] at hi ⊢
      rw [if_pos (by omega)]
  | reject | accept | acquire | interrupt | spin | fail | release | wake =>
    simp_all [busy, TransferPc.holding]

theorem Transfer.Step.motion (h : x.Step procs m x' m') (hx : x.WF)
    (hplaced : (procs x.info.procIndex).Placed) : x.Motion (procs x.info.procIndex) m x' m' := by
  have work (hb : x.busy = some x.dir.side) (hb' : x'.busy = some x.dir.side) (hl : ∀ pc, x.pc ≠ .lock pc)
      (hu : ∀ value, x.pc ≠ .unlock (.store value)) : x.Motion (procs x.info.procIndex) m x' m' := by
    apply Motion.work _ hb hb'
    · funext s
      apply h.word (hplaced.fux s).1
      · rintro ⟨pc, hpc⟩
        exact absurd hpc (hl pc)
      · intro value hpc
        exact absurd hpc (hu value)
    · exact h.carries (by simp [hb]) (by simp [hb']) hx
    · rintro ⟨value, hpc⟩
      exact hu value hpc
  have below (s : Baton.Side) (v a : ℕ) (ha : (procs x.info.procIndex).data ≤ a) :
      store m ((procs x.info.procIndex).fux s) 4 v a = m a :=
    store_outside (by have := (hplaced.fux s).1; omega)
  unfold Transfer.WF at hx
  cases h with
  | reject hpc | accept hpc =>
    rw [hpc] at hx
    exact .idle (by simp [Releasing, hpc]) (by simp [busy, hx]) (by simp [busy, hx]) rfl
  | interrupt pc hpc hw | spin pc pc' errno hpc =>
    rw [hpc] at hx
    exact .idle (by simp [Releasing, hpc]) (by simp [busy, hx]) (by simp [busy, hx]) rfl
  | acquire pc hpc hw =>
    rw [hpc] at hx
    rw [ownFux_eq] at hw ⊢
    exact .acquire (by simp [Releasing, hpc]) hw (by simp [busy, hx]) (by simp [busy, TransferPc.holding])
      (hplaced.words_store m _ (by decide)) rfl (below _ _)
  | fail hpc he =>
    by_cases htook : x.took = true
    · exact .drop hpc he (by simp [busy, TransferPc.holding, hpc, htook]) (by simp [busy, TransferPc.holding]) rfl
    · exact .idle (by simp [Releasing, hpc]) (by simp [busy, htook]) (by simp [busy, htook]) rfl
  | enter hpc he =>
    rw [hpc] at hx
    have htook := hx.resolve_right he
    exact work (by simp [busy, TransferPc.holding, hpc, htook]) (by simp [busy, TransferPc.holding, htook])
      (by simp [hpc]) (by simp [hpc])
  | read s hpc hdir hlt | write s hpc hdir hlt | finish s hpc hge =>
    rw [hpc] at hx
    exact work (by simp [busy, TransferPc.holding, hpc, hx])
      (by simp [busy, TransferPc.holding, hx, udoFutexUnlock]) (by simp [hpc]) (by simp [hpc])
  | clear s hpc =>
    rw [hpc] at hx
    exact work (by simp [busy, TransferPc.holding, hpc, hx.1]) (by simp [busy, TransferPc.holding, hx.1])
      (by simp [hpc]) (by simp [hpc])
  | release value hpc =>
    rw [hpc] at hx
    obtain ⟨htook, rfl⟩ := hx
    rw [otherFux_eq]
    exact .release (by simp [busy, TransferPc.holding, hpc, htook]) (by simp [busy, TransferPc.holding])
      (hplaced.words_store m _ (by decide)) hpc (below _ _)
  | wake hpc =>
    exact .idle (by simp [Releasing, hpc]) (by simp [busy, TransferPc.holding, hpc])
      (by simp [busy, TransferPc.holding]) rfl

theorem Transfer.Motion.fits {P : Type*} [DecidableEq P] {proc : ShmProc} (h : x.Motion proc m x' m')
    {t : Baton.Token P} {busy : P → Option Baton.Side} {p : P} (hb : busy p = x.busy)
    (ht : t.Fits (proc.words m) busy) :
    ∃ t' : Baton.Token P, t'.Fits (proc.words m') (Function.update busy p x'.busy) ∧
      (t' = .stuck → t = .stuck ∨ (x.pc = .errnoCheck ∧ x.errno = eintr ∧ x.busy ≠ none)) := by
  cases h with
  | idle hpc hb₁ hb' hm =>
    refine ⟨t, ?_, .inl⟩
    rwa [hb', ← hb₁, ← hb, Function.update_eq_self, hm]
  | work hpc hb₁ hb' hw hc =>
    refine ⟨t, ?_, .inl⟩
    rwa [hb', ← hb₁, ← hb, Function.update_eq_self, hw]
  | acquire hpc hfree hb₁ hb' hw hx hd =>
    rw [hw, hb']
    exact ⟨_, ht.acquire hfree p, nofun⟩
  | release hb₁ hb' hw hpc hd =>
    obtain rfl := ht.of_busy (hb.trans hb₁)
    rw [hw, hb']
    exact ⟨_, ht.release, nofun⟩
  | drop hpc he hb₁ hb' hm =>
    obtain rfl := ht.of_busy (hb.trans hb₁)
    rw [hm, hb']
    exact ⟨_, ht.drop, fun _ => .inr ⟨hpc, he, by simp [hb₁]⟩⟩

end Words

end Libcando.Shm
