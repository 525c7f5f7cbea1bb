import Libcando.FutexProgress
import Libcando.HandOff

namespace Libcando.Shm

open ByteMemory Futex Transition Baton

def Transfer.wakeUp (side : Option Side) (x : Transfer) : Transfer :=
  match x.pc with
  | .lock pc => if some x.dir.side = side then { x with pc := .lock pc.wakeUp } else x
  | _ => x

def Transfer.wakes (x : Transfer) : Option Side :=
  match x.pc with
  | .unlock .wake => some x.dir.side.other
  | _ => none

def TransferPc.waiting : TransferPc → Bool
  | .check | .lock _ => true
  | _ => false

section Transfer

variable (side : Option Side) (x : Transfer)

theorem Transfer.wakeUp_cases : x.wakeUp side = x ∨
    ∃ pc, x.pc = .lock pc ∧ some x.dir.side = side ∧ x.wakeUp side = { x with pc := .lock pc.wakeUp } := by
  unfold wakeUp
  split
  · rename_i pc hpc
    split_ifs with hside
    · exact .inr ⟨pc, hpc, hside, rfl⟩
    · exact .inl rfl
  · exact .inl rfl

@[simp] theorem Transfer.wakeUp_dir : (x.wakeUp side).dir = x.dir := by
  rcases x.wakeUp_cases side with h | ⟨pc, hpc, hside, h⟩ <;> rw [h]

@[simp] theorem Transfer.wakeUp_info : (x.wakeUp side).info = x.info := by
  rcases x.wakeUp_cases side with h | ⟨pc, hpc, hside, h⟩ <;> rw [h]

@[simp] theorem Transfer.wakeUp_buf : (x.wakeUp side).buf = x.buf := by
  rcases x.wakeUp_cases side with h | ⟨pc, hpc, hside, h⟩ <;> rw [h]

@[simp] theorem Transfer.wakeUp_errno : (x.wakeUp side).errno = x.errno := by
  rcases x.wakeUp_cases side with h | ⟨pc, hpc, hside, h⟩ <;> rw [h]

@[simp] theorem Transfer.wakeUp_progress : (x.wakeUp side).progress = x.progress := by
  rcases x.wakeUp_cases side with h | ⟨pc, hpc, hside, h⟩
  · rw [h]
  · simp [h, progress, hpc]

@[simp] theorem Transfer.wakeUp_busy : (x.wakeUp side).busy = x.busy := by
  rcases x.wakeUp_cases side with h | ⟨pc, hpc, hside, h⟩
  · rw [h]
  · simp [h, busy, TransferPc.holding, hpc]

@[simp] theorem Transfer.wakeUp_waiting : (x.wakeUp side).pc.waiting = x.pc.waiting := by
  rcases x.wakeUp_cases side with h | ⟨pc, hpc, hside, h⟩
  · rw [h]
  · simp [h, TransferPc.waiting, hpc]

variable {side x}

theorem Transfer.WF.wakeUp (h : x.WF) : (x.wakeUp side).WF := by
  rcases x.wakeUp_cases side with heq | ⟨pc, hpc, hside, heq⟩
  · rwa [heq]
  · rw [heq]
    simpa [WF, hpc] using h

@[simp] theorem Transfer.wakeUp_wakes : (x.wakeUp side).wakes = x.wakes := by
  rcases x.wakeUp_cases side with h | ⟨pc, hpc, hside, h⟩
  · rw [h]
  · simp [h, wakes, hpc]

@[simp] theorem Transfer.wakeUp_due (dir : Dir) : (x.wakeUp side).due dir = x.due dir := by
  rcases x.wakeUp_cases side with h | ⟨pc, hpc, hside, h⟩
  · rw [h]
  · simp [h, due, hpc]

theorem Transfer.asleep_wakeUp (h : (x.wakeUp side).pc = .lock .asleep) :
    x.pc = .lock .asleep ∧ side ≠ some x.dir.side := by
  cases hpc : x.pc with
  | lock pc =>
    simp only [wakeUp, hpc] at h
    split_ifs at h with hside
    · cases pc <;> simp [LockPc.wakeUp] at h
    · exact ⟨hpc.symm.trans h, fun he => hside he.symm⟩
  | _ => simp [wakeUp, hpc] at h

end Transfer

namespace HandOff

variable {P : Type*}

def wakeUp (side : Option Side) (s : HandOff P) : HandOff P :=
  { s with call := fun p => (s.call p).map (Transfer.wakeUp side) }

@[simp] theorem wakeUp_mem (side : Option Side) (s : HandOff P) : (s.wakeUp side).mem = s.mem := rfl

@[simp] theorem wakeUp_call (side : Option Side) (s : HandOff P) (p : P) :
    (s.wakeUp side).call p = (s.call p).map (Transfer.wakeUp side) := rfl

@[simp] theorem wakeUp_busy (side : Option Side) (s : HandOff P) : (s.wakeUp side).busy = s.busy := by
  funext p
  simp only [busy, wakeUp_call]
  cases s.call p <;> simp

@[simp] theorem wakeUp_none (s : HandOff P) : s.wakeUp none = s := by
  have hid : Transfer.wakeUp none = id := by
    funext x
    rcases x.wakeUp_cases none with h | ⟨pc, hpc, hside, h⟩
    · exact h
    · cases hside
  simp [HandOff.wakeUp, hid]

variable {c : Channel} {s : HandOff P}

theorem Content.wakeUp {t : Token P} (h : s.Content c t) (side : Option Side) : (s.wakeUp side).Content c t := by
  cases t with
  | free side' => cases side' <;> exact h
  | held side' p =>
    cases side' with
    | put =>
      obtain ⟨hwr, x, hx, hfill⟩ := h
      exact ⟨hwr, x.wakeUp side, by simp [hx], by simpa using hfill⟩
    | take =>
      obtain ⟨msg, hwr, x, hx, hdone, hleft⟩ := h
      exact ⟨msg, hwr, x.wakeUp side, by simp [hx], by simpa using hdone, by simpa using hleft⟩
  | stuck => exact h

theorem Inv.wakeUp (h : s.Inv c) (side : Option Side) : (s.wakeUp side).Inv c := by
  obtain ⟨t, ht, hc⟩ := h.token
  constructor
  · intro p x hx
    obtain ⟨y, hy, rfl⟩ := Option.map_eq_some_iff.mp hx
    obtain ⟨hwf, hinfo⟩ := h.calls p y hy
    exact ⟨hwf.wakeUp, by simpa using hinfo⟩
  · exact ⟨t, by simpa using ht, hc.wakeUp side⟩

end HandOff

namespace Channel

variable {P : Type*} [DecidableEq P] (c : Channel)

def wakeStep (l : P × HandOff.Act) (s : HandOff P) : Option (HandOff P) :=
  (c.step l s).map (HandOff.wakeUp ((s.call l.1).bind Transfer.wakes))

def wakeSystem (P : Type*) [DecidableEq P] : System (HandOff P) (P × HandOff.Act) where
  init s := (c.system P).init s ∧ c.index ≤ load s.mem 0 4
  step := c.wakeStep

end Channel

/-- Nobody calls with a leftover `EINTR`, and no signal interrupts a wait. -/
def unsignalled {P : Type*} : P × HandOff.Act → HandOff P → Prop
  | (_, .call _ _ errno), _ => errno ≠ eintr
  | (_, .tick turn), _ => turn ≠ .signal
  | (_, .finish), _ => True

def plainTick {P : Type*} : P × HandOff.Act → HandOff P → Prop
  | (_, .tick .plain), _ => True
  | _, _ => False

instance {P : Type*} : ∀ (l : P × HandOff.Act) (s : HandOff P), Decidable (unsignalled l s)
  | (_, .call _ _ errno), _ => inferInstanceAs (Decidable (errno ≠ eintr))
  | (_, .tick turn), _ => inferInstanceAs (Decidable (turn ≠ .signal))
  | (_, .finish), _ => inferInstanceAs (Decidable True)

theorem udoFutexLock_errno {turn : Turn} {pc : LockPc} {word word' : ℕ} {errno errno' : Errno} {out : LockOut}
    (h : udoFutexLock turn pc word errno = some (out, word', errno')) (hturn : turn ≠ .signal)
    (hword : word ≠ futexUnlockForce) : errno' = errno ∨ errno' = eagain := by
  cases pc with
  | spin i | spinCheck i | block =>
    simp only [udoFutexLock, pIsFutexFunlock_iff, if_neg hword] at h
    split_ifs at h <;> cases h <;> exact .inl rfl
  | blockCheck =>
    simp only [udoFutexLock, pIsFutexFunlock_iff, if_neg hword] at h
    cases h
    exact .inl rfl
  | kernelWait =>
    simp only [udoFutexLock] at h
    split_ifs at h with hw
    · cases h; exact .inr rfl
    · cases turn <;> cases h <;> first | exact absurd rfl hturn | exact .inl rfl
  | asleep => cases turn <;> cases h <;> first | exact absurd rfl hturn | exact .inl rfl

section Step

variable {turn : Turn} {procs : ℕ → ShmProc} {x x' : Transfer} {m m' : Mem}

theorem Transfer.step_errno (h : x.step turn procs m = some (x', m')) (hturn : turn ≠ .signal)
    (hword : load m (x.ownFux procs) 4 ≠ futexUnlockForce) (hx : x.errno ≠ eintr) : x'.errno ≠ eintr := by
  cases hpc : x.pc with
  | lock pc =>
    simp only [Transfer.step, hpc] at h
    obtain ⟨⟨out, word, errno⟩, hout, hr⟩ := Option.map_eq_some_iff.mp h
    have herrno : errno ≠ eintr := by
      rcases udoFutexLock_errno hout hturn hword with rfl | rfl
      · exact hx
      · decide
    cases out <;> cases hr <;> exact herrno
  | _ =>
    have hstep := Transfer.step_cases h
    cases hstep <;> simp_all

theorem Transfer.step_asleep (h : x.step turn procs m = some (x', m')) (hx : x'.pc = .lock .asleep) :
    load m (x.ownFux procs) 4 = futexLock ∧ m' = m := by
  cases hpc : x.pc with
  | lock pc =>
    simp only [Transfer.step, hpc] at h
    obtain ⟨⟨out, word, errno⟩, hout, hr⟩ := Option.map_eq_some_iff.mp h
    cases out with
    | running pc' =>
      cases hr
      cases hx
      obtain ⟨hw, rfl⟩ := udoFutexLock_asleep hout
      exact ⟨hw, store_load_self ..⟩
    | acquired | interrupted => cases hr; cases hx
  | _ =>
    have hstep := Transfer.step_cases h
    cases hstep <;> simp_all [LockPc.entry]

theorem Transfer.Step.dir (h : x.Step procs m x' m') : x'.dir = x.dir := by
  cases h <;> rfl

end Step

namespace HandOff

variable {P : Type*} {c : Channel} {s t : HandOff P} {p : P}

structure Sound (c : Channel) (s : HandOff P) : Prop where
  inv : s.Inv c
  count : c.index ≤ load s.mem 0 4
  token : ∃ t : Token P, t ≠ .stuck ∧ t.Fits (c.proc.words s.mem) s.busy
  clean : ∀ p x, s.call p = some x → x.errno ≠ eintr

structure Live (c : Channel) (s : HandOff P) : Prop extends Sound c s where
  watched : ∀ p x, s.call p = some x → x.pc = .lock .asleep → c.proc.words s.mem x.dir.side = 0 →
    ∃ q y, s.call q = some y ∧ y.wakes = some x.dir.side

theorem Sound.wakeUp (h : Sound c s) (side : Option Side) : Sound c (s.wakeUp side) := by
  refine ⟨h.inv.wakeUp side, h.count, by simpa using h.token, ?_⟩
  intro p x hx
  obtain ⟨y, hy, rfl⟩ := Option.map_eq_some_iff.mp hx
  simpa using h.clean p y hy

theorem Sound.words (h : Sound c s) (side : Side) :
    c.proc.words s.mem side = 0 ∨ c.proc.words s.mem side = 1 := by
  obtain ⟨t, -, ht⟩ := h.token
  cases t with
  | free side' =>
    rcases side'.eq_or_other side with rfl | rfl
    · exact .inl ht.1
    · exact .inr ht.2.1
  | held side' q | stuck => exact .inr (ht.1 side)

theorem Sound.ownFux (h : Sound c s) {x : Transfer} (hx : s.call p = some x) :
    load s.mem (x.ownFux c.info.procs) 4 = c.proc.words s.mem x.dir.side := by
  obtain ⟨-, hinfo⟩ := h.inv.calls p x hx
  rw [x.ownFux_eq, hinfo]
  rfl

variable [DecidableEq P]

theorem Sound.tick (hinfo : c.info.Accepted) (hindex : c.index < c.info.procCount) (h : Sound c s)
    {x x' : Transfer} {m' : Mem} {turn : Turn} (hx : s.call p = some x) (hturn : turn ≠ .signal)
    (hstep : x.step turn c.info.procs s.mem = some (x', m')) : Sound c (s.moved p x x' m') := by
  obtain ⟨hrd, hwr, hdata⟩ := ShmCreateInfo.procs_placed hinfo hindex
  obtain ⟨hwf, hxinfo⟩ := h.inv.calls p x hx
  have hproc : c.info.procs x.info.procIndex = c.proc := by rw [hxinfo]; rfl
  have hplaced : c.proc.Placed := by
    simp only [ShmProc.Placed, Channel.proc]
    omega
  have cases := Transfer.step_cases hstep
  refine ⟨h.inv.tick hplaced hx cases, ?_, ?_, ?_⟩
  · have hcount : load m' 0 4 = load s.mem 0 4 := by
      apply cases.word
      · simp only [Transfer.data, hproc, Channel.proc]; omega
      · intro _ _
        simp only [Transfer.ownFux, hproc, Channel.proc]
        cases x.dir <;> (dsimp only; omega)
      · intro _ _
        simp only [Transfer.otherFux, hproc, Channel.proc]
        cases x.dir <;> (dsimp only; omega)
    exact hcount.symm ▸ h.count
  · obtain ⟨t, hne, ht⟩ := h.token
    obtain ⟨t', ht', hstuck⟩ := (hproc ▸ cases.motion hwf (hproc ▸ hplaced)).fits
      (show s.busy p = x.busy by simp [busy, hx]) ht
    refine ⟨t', ?_, ?_⟩
    · intro he
      rcases hstuck he with htoken | ⟨-, herrno, -⟩
      · exact hne htoken
      · exact h.clean p x hx herrno
    · rwa [moved, busy_update]
  · have herrno : x'.errno ≠ eintr := by
      apply Transfer.step_errno hstep hturn _ (h.clean p x hx)
      rw [h.ownFux hx]
      rcases h.words x.dir.side with hw | hw <;> simp [hw]
    intro q y hy
    rcases update_some_cases hy with ⟨rfl, rfl⟩ | ⟨hq, hy⟩
    · exact herrno
    · exact h.clean q y hy

theorem Live.watched_tick (hinfo : c.info.Accepted) (hindex : c.index < c.info.procCount) (h : Live c s)
    {x x' : Transfer} {m' : Mem} {turn : Turn} (hx : s.call p = some x)
    (hstep : x.step turn c.info.procs s.mem = some (x', m')) (q : P) (y : Transfer)
    (hy : (s.moved p x x' m').call q = some y) (hsleep : y.pc = .lock .asleep) (hne : x.wakes ≠ some y.dir.side)
    (hw : c.proc.words m' y.dir.side = 0) :
    ∃ r z, (s.moved p x x' m').call r = some z ∧ z.wakes = some y.dir.side := by
  obtain ⟨hrd, hwr, hdata⟩ := ShmCreateInfo.procs_placed hinfo hindex
  obtain ⟨hwf, hxinfo⟩ := h.inv.calls p x hx
  have hproc : c.info.procs x.info.procIndex = c.proc := by rw [hxinfo]; rfl
  have hplaced : c.proc.Placed := by
    simp only [ShmProc.Placed, Channel.proc]
    omega
  have cases := Transfer.step_cases hstep
  rcases update_some_cases hy with ⟨rfl, rfl⟩ | ⟨hq, hy⟩
  · -- nobody falls asleep on a word that is free
    obtain ⟨hlocked, rfl⟩ := Transfer.step_asleep hstep hsleep
    rw [h.ownFux hx, ← cases.dir, hw] at hlocked
    cases hlocked
  have before (hzero : c.proc.words s.mem y.dir.side = 0) :
      ∃ r z, (s.moved p x x' m').call r = some z ∧ z.wakes = some y.dir.side := by
    obtain ⟨r, z, hz, hwakes⟩ := h.watched q y hy hsleep hzero
    have hr : r ≠ p := by
      rintro rfl
      cases hx.symm.trans hz
      exact hne hwakes
    exact ⟨r, z, by simpa [moved, hr] using hz, hwakes⟩
  have motion := hproc ▸ cases.motion hwf (hproc ▸ hplaced)
  cases motion with
  | idle hpc hb hb' hm | drop hpc he hb hb' hm =>
    subst hm
    exact before hw
  | work hpc hb hb' hwords hc =>
    rw [hwords] at hw
    exact before hw
  | acquire hpc hfree hb hb' hwords hprogress hd =>
    rw [hwords] at hw
    by_cases hside : y.dir.side = x.dir.side
    · rw [hside, Function.update_self] at hw
      cases hw
    · rw [Function.update_of_ne hside] at hw
      exact before hw
  | release hb hb' hwords hpc hd =>
    rw [hwords] at hw
    by_cases hside : y.dir.side = x.dir.side.other
    · simp only [Transfer.step, hpc, udoFutexUnlock, Option.some.injEq, Prod.mk.injEq] at hstep
      refine ⟨p, x', by simp [moved], ?_⟩
      rw [hside, ← hstep.1]
      rfl
    · rw [Function.update_of_ne hside] at hw
      exact before hw

theorem Live.tick (hinfo : c.info.Accepted) (hindex : c.index < c.info.procCount) (h : Live c s)
    {x x' : Transfer} {m' : Mem} {turn : Turn} (hx : s.call p = some x) (hturn : turn ≠ .signal)
    (hstep : x.step turn c.info.procs s.mem = some (x', m')) :
    Live c ((s.moved p x x' m').wakeUp x.wakes) := by
  refine ⟨(h.toSound.tick hinfo hindex hx hturn hstep).wakeUp _, ?_⟩
  intro q y hy hsleep hw
  obtain ⟨y, hmoved, rfl⟩ := Option.map_eq_some_iff.mp hy
  obtain ⟨hsleep, hne⟩ := Transfer.asleep_wakeUp hsleep
  rw [Transfer.wakeUp_dir] at hw ⊢
  obtain ⟨r, z, hz, hwakes⟩ := h.watched_tick hinfo hindex hx hstep q y hmoved hsleep hne hw
  exact ⟨r, z.wakeUp x.wakes, by simp [hz], by simpa using hwakes⟩

theorem Live.replace (h : Live c s) {y : Option Transfer} (hp : s.busy p = none)
    (hwakes : ∀ x, s.call p = some x → x.wakes = none)
    (hy : ∀ x, y = some x → x.WF ∧ x.info = ⟨false, c.size, c.index⟩ ∧ x.busy = none ∧ x.errno ≠ eintr ∧
      x.pc ≠ .lock .asleep) (given : P → Mem) (returned : P → Dir → List (List UInt8)) :
    Live c { s with call := Function.update s.call p y, given, returned } := by
  have hbusy : y.bind Transfer.busy = none := by
    cases y with
    | none => rfl
    | some x => exact (hy x rfl).2.2.1
  have hon : On c y := fun x hx => ⟨(hy x hx).1, (hy x hx).2.1⟩
  refine ⟨⟨h.inv.replace hp hbusy hon given returned, h.count, ?_, ?_⟩, ?_⟩
  · obtain ⟨t, hne, ht⟩ := h.token
    refine ⟨t, hne, ?_⟩
    rwa [busy_update, hbusy, ← hp, Function.update_eq_self]
  · intro q x hx
    by_cases hq : q = p
    · subst hq
      exact (hy x (by simpa using hx)).2.2.2.1
    · exact h.clean q x (by simpa [hq] using hx)
  · intro q x hx hsleep hw
    have hq : q ≠ p := by
      rintro rfl
      exact (hy x (by simpa using hx)).2.2.2.2 hsleep
    obtain ⟨r, z, hz, hr⟩ := h.watched q x (by simpa [hq] using hx) hsleep hw
    have hrp : r ≠ p := by
      rintro rfl
      rw [hwakes z hz] at hr
      cases hr
    exact ⟨r, z, by simpa [hrp] using hz, hr⟩

theorem Live.step (hinfo : c.info.Accepted) (hindex : c.index < c.info.procCount) {l : P × Act} (h : Live c s)
    (hok : unsignalled l s) (hs : c.wakeStep l s = some t) : Live c t := by
  obtain ⟨p, act⟩ := l
  obtain ⟨u, hu, rfl⟩ := Option.map_eq_some_iff.mp hs
  unfold Channel.step at hu
  split at hu
  · rename_i dir buf errno hact hnone
    cases hu
    cases hact
    have herrno : errno ≠ eintr := hok
    rw [hnone, Option.bind_none, wakeUp_none]
    apply h.replace (by simp [busy, hnone]) (by simp [hnone])
    rintro x ⟨⟩
    cases dir <;>
      exact ⟨rfl, rfl, by simp [Channel.entry, Transfer.busy, udoShmDataRead, udoShmDataWrite], herrno,
        by simp [Channel.entry, udoShmDataRead, udoShmDataWrite]⟩
  · rename_i turn x hact hx
    obtain ⟨⟨x', m'⟩, hstep, rfl⟩ := Option.map_eq_some_iff.mp hu
    cases hact
    rw [hx]
    exact h.tick hinfo hindex hx hok hstep
  · rename_i x hact hx
    split at hu
    · rename_i ret hpc
      cases hu
      have hwakes : x.wakes = none := by simp [Transfer.wakes, hpc]
      rw [hx, Option.bind_some, hwakes, wakeUp_none]
      apply h.replace
      · simp [busy, hx, Transfer.busy, TransferPc.holding, hpc]
      · intro y hy
        cases hx.symm.trans hy
        exact hwakes
      · intro y hy
        cases hy
    · cases hu
  · cases hu

theorem Records.wakeUp (h : s.Records) (side : Option Side) : (s.wakeUp side).Records := by
  constructor
  · intro p dir
    have hdue : (s.wakeUp side).due p dir = s.due p dir := by
      simp only [due, wakeUp_call]
      cases s.call p <;> simp
    rw [hdue]
    exact h.returns p dir
  · intro p x hx hd
    obtain ⟨y, hy, rfl⟩ := Option.map_eq_some_iff.mp hx
    rw [Transfer.wakeUp_buf]
    exact h.given p y hy (by simpa using hd)

end HandOff

section Turn

variable {c : Channel} {side : Side} {x : Transfer} {m : Mem}

def Transfer.Ready (c : Channel) (m : Mem) (x : Transfer) : Prop :=
  match x.pc with
  | .check => c.proc.words m x.dir.side = 0
  | .lock pc => pc ≠ .asleep ∧ c.proc.words m x.dir.side = 0
  | .unlock .wake => c.proc.words m x.dir.side.other = 0
  | .done ret => ret = 0 ∧ c.proc.words m x.dir.side.other = 0
  | _ => True

def Transfer.toGo (size : ℕ) (x : Transfer) : ℕ :=
  match x.pc with
  | .check => 2 * size + 9
  | .lock pc => 2 * size + 6 + pc.toGo
  | .errnoCheck => 2 * size + 5
  | .copy s => 2 * (size - s) + 4
  | .clear s => 2 * (size - (s + 4)) + 5
  | .unlock (.store _) => 2
  | .unlock .wake => 1
  | .done _ => 0

def Transfer.Advances (c : Channel) (m : Mem) (x : Transfer) : Prop :=
  ∃ x' m', x.step .plain c.info.procs m = some (x', m') ∧ x'.Ready c m' ∧ x'.toGo c.size < x.toGo c.size

theorem Transfer.Ready.lock (hinfo : x.info = ⟨false, c.size, c.index⟩) {pc : LockPc} (hpc : x.pc = .lock pc)
    (h : x.Ready c m) : x.Advances c m := by
  have hproc : c.info.procs x.info.procIndex = c.proc := by rw [hinfo]; rfl
  have hown : load m (x.ownFux c.info.procs) 4 = c.proc.words m x.dir.side := by rw [x.ownFux_eq, hproc]; rfl
  rw [Ready, hpc] at h
  obtain ⟨hawake, hfree⟩ := h
  have hword : load m (x.ownFux c.info.procs) 4 = futexUnlock := hown.trans hfree
  rcases udoFutexLock_free hawake x.errno with hout | ⟨pc', errno', hout, hawake', hlt⟩
  · have hstep : x.step .plain c.info.procs m =
        some ({ x with pc := .errnoCheck, took := true }, store m (x.ownFux c.info.procs) 4 futexLock) := by
      simp only [Transfer.step, hpc, hword, hout, Option.map_some]
    refine ⟨_, _, hstep, trivial, ?_⟩
    simp only [toGo, hpc]
    omega
  · have hsame : store m (x.ownFux c.info.procs) 4 futexUnlock = m := by
      rw [← hword]
      exact store_load_self ..
    have hstep : x.step .plain c.info.procs m = some ({ x with pc := .lock pc', errno := errno' }, m) := by
      simp only [Transfer.step, hpc, hword, hout, Option.map_some, hsame]
    refine ⟨_, m, hstep, ⟨hawake', hfree⟩, ?_⟩
    simp only [toGo, hpc]
    omega

theorem Transfer.copy_advances (hinfo : x.info = ⟨false, c.size, c.index⟩) {s : ℕ} (hpc : x.pc = .copy s) :
    x.Advances c m := by
  by_cases hs : s < x.info.size
  · have hsize : s < c.size := by rwa [hinfo] at hs
    cases hd : x.dir with
    | read =>
      have hstep : x.step .plain c.info.procs m =
          some ({ x with pc := .clear s, buf := readWord (x.data c.info.procs) s x.buf m }, m) := by
        simp only [Transfer.step, hpc, if_pos hs, hd]
      refine ⟨_, m, hstep, trivial, ?_⟩
      simp only [toGo, hpc]
      omega
    | write =>
      have hstep : x.step .plain c.info.procs m =
          some ({ x with pc := .copy (s + 4) }, writeWord (x.data c.info.procs) s x.buf m) := by
        simp only [Transfer.step, hpc, if_pos hs, hd]
      refine ⟨_, _, hstep, trivial, ?_⟩
      simp only [toGo, hpc]
      omega
  · have hstep : x.step .plain c.info.procs m = some ({ x with pc := .unlock udoFutexUnlock }, m) := by
      simp only [Transfer.step, hpc, if_neg hs]
    refine ⟨_, m, hstep, trivial, ?_⟩
    simp only [toGo, hpc, udoFutexUnlock]
    omega

theorem Transfer.Ready.unlock (hwf : x.WF) (hinfo : x.info = ⟨false, c.size, c.index⟩) {pc : WakePc}
    (hpc : x.pc = .unlock pc) (h : x.Ready c m) : x.Advances c m := by
  cases pc with
  | store value =>
    have hproc : c.info.procs x.info.procIndex = c.proc := by rw [hinfo]; rfl
    rw [WF, hpc] at hwf
    have hstep : x.step .plain c.info.procs m =
        some ({ x with pc := .unlock .wake }, store m (x.otherFux c.info.procs) 4 value) := by
      simp only [Transfer.step, hpc]
    refine ⟨_, _, hstep, ?_, by simp [toGo, hpc]⟩
    change load (store m (x.otherFux c.info.procs) 4 value) (c.proc.fux x.dir.side.other) 4 = 0
    rw [x.otherFux_eq, hproc, hwf.2]
    exact load_store_of_lt (by decide)
  | wake =>
    rw [Ready, hpc] at h
    have hstep : x.step .plain c.info.procs m = some ({ x with pc := .done 0 }, m) := by
      simp only [Transfer.step, hpc]
    exact ⟨_, m, hstep, ⟨rfl, h⟩, by simp [toGo, hpc]⟩

theorem Transfer.Ready.tick (hwf : x.WF) (hinfo : x.info = ⟨false, c.size, c.index⟩)
    (hcount : c.index ≤ load m 0 4) (herrno : x.errno ≠ eintr) (h : x.Ready c m)
    (hrun : ∀ ret, x.pc ≠ .done ret) : x.Advances c m := by
  cases hpc : x.pc with
  | check =>
    rw [Ready, hpc] at h
    have hstep : x.step .plain c.info.procs m = some ({ x with pc := .lock .entry }, m) := by
      simp [Transfer.step, hpc, pCheckProcIndex, hinfo, hcount]
    refine ⟨_, m, hstep, ⟨by simp [LockPc.entry], h⟩, ?_⟩
    simp only [toGo, hpc, LockPc.entry, LockPc.toGo]
    omega
  | lock pc => exact h.lock hinfo hpc
  | errnoCheck =>
    have hstep : x.step .plain c.info.procs m = some ({ x with pc := .copy 0 }, m) := by
      simp only [Transfer.step, hpc, if_neg herrno]
    refine ⟨_, m, hstep, trivial, ?_⟩
    simp only [toGo, hpc]
    omega
  | copy s => exact copy_advances hinfo hpc
  | clear s =>
    have hstep : x.step .plain c.info.procs m =
        some ({ x with pc := .copy (s + 4) }, atomicClear m (x.data c.info.procs + s)) := by
      simp only [Transfer.step, hpc]
    refine ⟨_, _, hstep, trivial, ?_⟩
    simp only [toGo, hpc]
    omega
  | unlock pc => exact h.unlock hwf hinfo hpc
  | done ret => exact absurd hpc (hrun ret)

end Turn

namespace HandOff

variable {P : Type*} {c : Channel} {s t u : HandOff P} {p q : P} {side : Side}

def Waits (s : HandOff P) (side : Side) (p : P) : Prop :=
  ∃ x, s.call p = some x ∧ x.dir.side = side ∧ x.pc.waiting = true

def Next (c : Channel) (s : HandOff P) (side : Side) (p : P) : Prop :=
  ∃ x, s.call p = some x ∧ x.dir.side = side ∧
    (x.busy = some side ∨ x.pc.waiting = true ∧ c.proc.words s.mem side = 0)

def Stays (p : P) (s t : HandOff P) : Prop := ∀ q, q ≠ p → ∀ side, s.Waits side q → t.Waits side q

theorem Stays.trans (h : Stays p s t) (h' : Stays p t u) : Stays p s u :=
  fun q hq side hs => h' q hq side (h q hq side hs)

variable [DecidableEq P]

theorem exists_tick {x x' : Transfer} {m' : Mem} (hx : s.call q = some x)
    (hstep : x.step .plain c.info.procs s.mem = some (x', m'))
    (hq : q = p ∨ x.pc.waiting = false) :
    ∃ t, c.wakeStep (q, .tick .plain) s = some t ∧ t.mem = m' ∧ t.call q = some (x'.wakeUp x.wakes) ∧
      (∀ r, r ≠ q → t.call r = (s.call r).map (Transfer.wakeUp x.wakes)) ∧ Stays p s t := by
  refine ⟨(s.moved q x x' m').wakeUp x.wakes, ?_, rfl, by simp [moved], ?_, ?_⟩
  · simp only [Channel.wakeStep, Channel.step, hx, hstep]
    rfl
  · intro r hr
    simp [moved, hr]
  · rintro r hr side ⟨y, hy, hside, hwait⟩
    have hrq : r ≠ q := by
      rintro rfl
      cases hx.symm.trans hy
      rcases hq with hrp | hfree
      · exact hr hrp
      · rw [hwait] at hfree
        cases hfree
    exact ⟨y.wakeUp x.wakes, by simp [moved, hrq, hy], by simpa using hside, by simpa using hwait⟩

def Going (c : Channel) (side : Side) (p : P) (s : HandOff P) : Prop :=
  ∃ x, s.call p = some x ∧ x.dir.side = side ∧ x.Ready c s.mem ∧ ∀ ret, x.pc ≠ .done ret

theorem woken (h : Live c s) (hp : s.Next c side p) :
    ∃ t, Leads (c.wakeSystem P) plainTick s t ∧ Going c side p t ∧ Stays p s t := by
  obtain ⟨x, hx, hside, hbusy | ⟨hwait, hfree⟩⟩ := hp
  · refine ⟨s, .refl s, ⟨x, hx, hside, ?_, ?_⟩, fun _ _ _ h => h⟩
    · cases hpc : x.pc with
      | unlock pc => cases pc <;> simp_all [Transfer.busy, TransferPc.holding, Transfer.Ready]
      | _ => simp_all [Transfer.busy, TransferPc.holding, Transfer.Ready]
    · intro ret hpc
      simp [Transfer.busy, TransferPc.holding, hpc] at hbusy
  by_cases hsleep : x.pc = .lock .asleep
  · obtain ⟨q, y, hy, hwakes⟩ := h.watched p x hx hsleep (hside ▸ hfree)
    have hpc : y.pc = .unlock .wake := by
      unfold Transfer.wakes at hwakes
      split at hwakes
      · assumption
      · cases hwakes
    have hne : p ≠ q := by
      rintro rfl
      cases hx.symm.trans hy
      rw [hsleep] at hpc
      cases hpc
    have hstep : y.step .plain c.info.procs s.mem = some ({ y with pc := .done 0 }, s.mem) := by
      simp only [Transfer.step, hpc]
    obtain ⟨t, ht, hmem, -, hcall, hstays⟩ :=
      exists_tick (p := p) hy hstep (.inr (by rw [hpc]; rfl))
    refine ⟨t, .single (q, .tick .plain) trivial ht, ⟨{ x with pc := .lock .block }, ?_, hside, ?_, by simp⟩, hstays⟩
    · rw [hcall p hne, hx, hwakes]
      simp [Transfer.wakeUp, hsleep, LockPc.wakeUp]
    · rw [hmem]
      exact ⟨by simp, hside ▸ hfree⟩
  · refine ⟨s, .refl s, ⟨x, hx, hside, ?_, ?_⟩, fun _ _ _ h => h⟩
    · cases hpc : x.pc with
      | check => simpa [Transfer.Ready, hpc, hside] using hfree
      | lock pc => simp_all [Transfer.Ready]
      | _ => simp [hpc, TransferPc.waiting] at hwait
    · intro ret hpc
      simp [hpc, TransferPc.waiting] at hwait

end HandOff

end Libcando.Shm
