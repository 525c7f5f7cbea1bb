import Libcando.Futex
import Libcando.Transition

namespace Libcando.Futex

open Transition

inductive Call
  | lock
  | wait (desired : ℕ)
  | unlock
  | unlockForce
  | wake (desired : ℕ)
  deriving DecidableEq

inductive Pc
  | idle
  | lock (pc : LockPc)
  | wait (desired : ℕ) (pc : WaitPc)
  | wake (call : Call) (pc : WakePc)
  deriving DecidableEq

def Call.entry : Call → Pc
  | .lock => .lock .entry
  | .wait desired => .wait desired .entry
  | .unlock => .wake .unlock udoFutexUnlock
  | .unlockForce => .wake .unlockForce udoFutexUnlockForce
  | .wake desired => .wake (.wake desired) (udoFutexWake desired)

/-- `holds` and `caught` are history: a lock taken and not given back, and a call of
`udo_futex_lock` that was waiting when a forced unlock stored its value. -/
structure Process where
  pc : Pc := .idle
  errno : Errno := 0
  holds : Bool := false
  caught : Bool := false
  deriving DecidableEq

def Pc.locking : Pc → Bool
  | .lock _ => true
  | _ => false

def Pc.wakeUp : Pc → Pc
  | .lock pc => .lock pc.wakeUp
  | .wait desired pc => .wait desired pc.wakeUp
  | pc => pc

@[simp] theorem Pc.wakeUp_locking (pc : Pc) : pc.wakeUp.locking = pc.locking := by
  cases pc <;> rfl

@[simp] theorem Pc.wakeUp_idle (pc : Pc) : pc.wakeUp = .idle ↔ pc = .idle := by
  cases pc <;> simp [wakeUp]

@[simp] theorem Pc.wakeUp_wake (pc : Pc) (c : Call) (w : WakePc) :
    pc.wakeUp = .wake c w ↔ pc = .wake c w := by
  cases pc <;> simp [wakeUp]

def Process.wakeUp (x : Process) : Process := { x with pc := x.pc.wakeUp }

def Process.catchForced (x : Process) : Process := { x with caught := x.caught || x.pc.locking }

structure Effect where
  word : ℕ
  self : Process
  others : Process → Process

inductive Act
  | call (c : Call)
  | tick (turn : Turn)
  deriving DecidableEq

def Process.step (act : Act) (x : Process) (word : ℕ) : Option Effect :=
  match act, x.pc with
  | .call c, .idle => some ⟨word, { x with pc := c.entry }, id⟩
  | .tick turn, .lock pc =>
    (udoFutexLock turn pc word x.errno).map fun
      | (.running pc, word, errno) => ⟨word, { x with pc := .lock pc, errno }, id⟩
      | (.acquired, word, errno) => ⟨word, { pc := .idle, errno, holds := true, caught := false }, id⟩
      | (.interrupted, word, errno) => ⟨word, { x with pc := .idle, errno, caught := false }, id⟩
  | .tick turn, .wait desired pc =>
    (udoFutexWait turn desired pc word x.errno).map fun
      | (.running pc, errno) => ⟨word, { x with pc := .wait desired pc, errno }, id⟩
      | (_, errno) => ⟨word, { x with pc := .idle, errno }, id⟩
  | .tick _, .wake c (.store value) =>
    some ⟨value, { x with pc := .wake c .wake, holds := x.holds && c != .unlock },
      if c = .unlockForce then Process.catchForced else id⟩
  | .tick _, .wake _ .wake => some ⟨word, { x with pc := .idle }, Process.wakeUp⟩
  | _, _ => none

inductive Process.Step (x : Process) (word : ℕ) : Act → Effect → Prop
  | call (c : Call) (h : x.pc = .idle) : Step x word (.call c) ⟨word, { x with pc := c.entry }, id⟩
  | acquire (turn : Turn) (pc : LockPc) (errno : Errno) (h : x.pc = .lock pc) (hw : word = futexUnlock) :
    Step x word (.tick turn) ⟨futexLock, { pc := .idle, errno, holds := true, caught := false }, id⟩
  | interrupt (turn : Turn) (pc : LockPc) (h : x.pc = .lock pc) (hw : word = futexUnlockForce) :
    Step x word (.tick turn) ⟨word, { x with pc := .idle, errno := eintr, caught := false }, id⟩
  | spin (turn : Turn) (pc pc' : LockPc) (errno : Errno) (h : x.pc = .lock pc) :
    Step x word (.tick turn) ⟨word, { x with pc := .lock pc', errno }, id⟩
  | wait (turn : Turn) (desired : ℕ) (pc : WaitPc) (pc' : Pc) (errno : Errno) (h : x.pc = .wait desired pc)
    (h' : pc' = .idle ∨ ∃ pc, pc' = .wait desired pc) :
    Step x word (.tick turn) ⟨word, { x with pc := pc', errno }, id⟩
  | store (turn : Turn) (c : Call) (value : ℕ) (h : x.pc = .wake c (.store value)) :
    Step x word (.tick turn) ⟨value, { x with pc := .wake c .wake, holds := x.holds && c != .unlock },
      if c = .unlockForce then Process.catchForced else id⟩
  | wake (turn : Turn) (c : Call) (h : x.pc = .wake c .wake) :
    Step x word (.tick turn) ⟨word, { x with pc := .idle }, Process.wakeUp⟩

theorem Process.step_cases {act : Act} {x : Process} {word : ℕ} {e : Effect}
    (h : x.step act word = some e) : x.Step word act e := by
  unfold Process.step at h
  split at h
  · cases h; exact .call _ ‹_›
  · rename_i turn pc hpc
    obtain ⟨⟨out, word', errno'⟩, hout, rfl⟩ := Option.map_eq_some_iff.mp h
    rcases udoFutexLock_cases hout with ⟨rfl, hw, rfl, rfl⟩ | ⟨rfl, hw, rfl, rfl⟩ | ⟨⟨pc', rfl⟩, rfl⟩
    · exact .acquire _ _ _ hpc hw
    · exact .interrupt _ _ hpc hw
    · exact .spin _ _ _ _ hpc
  · rename_i turn desired pc hpc
    obtain ⟨⟨out, errno'⟩, hout, rfl⟩ := Option.map_eq_some_iff.mp h
    cases out with
    | running pc' => exact .wait _ _ _ _ _ hpc (.inr ⟨pc', rfl⟩)
    | met | interrupted => exact .wait _ _ _ _ _ hpc (.inl rfl)
  · cases h; exact .store _ _ _ ‹_›
  · cases h; exact .wake _ _ ‹_›
  · cases h

structure Process.Kept (x y : Process) : Prop where
  holds : y.holds = x.holds
  locking : y.pc.locking = x.pc.locking
  wake : ∀ c w, y.pc = .wake c w ↔ x.pc = .wake c w

theorem Process.Step.kept {x : Process} {word : ℕ} {act : Act} {e : Effect} (h : x.Step word act e)
    (y : Process) : y.Kept (e.others y) := by
  have same : y.Kept y := ⟨rfl, rfl, fun _ _ => Iff.rfl⟩
  cases h with
  | store turn c value hstore =>
    dsimp only
    split_ifs
    · exact ⟨rfl, rfl, fun _ _ => Iff.rfl⟩
    · exact same
  | wake turn c hwake => exact ⟨rfl, Pc.wakeUp_locking _, Pc.wakeUp_wake _⟩
  | _ => exact same

theorem Call.entry_eq {c c' : Call} {w : WakePc} (h : c.entry = .wake c' w) : c' = c := by
  cases c <;> simp_all [Call.entry]

structure State (P : Type*) where
  word : ℕ
  proc : P → Process

variable {P : Type*}

def initial (word : ℕ) : State P := ⟨word, fun _ => {}⟩

variable [DecidableEq P]

def step (l : P × Act) (s : State P) : Option (State P) :=
  ((s.proc l.1).step l.2 s.word).map fun e =>
    ⟨e.word, fun q => if q = l.1 then e.self else e.others (s.proc q)⟩

def system (P : Type*) [DecidableEq P] : System (State P) (P × Act) where
  init s := ∃ word, s = initial word
  step := step

theorem step_spec {l : P × Act} {s t : State P} (h : step l s = some t) :
    ∃ e, (s.proc l.1).Step s.word l.2 e ∧ t.word = e.word ∧ t.proc l.1 = e.self ∧
      ∀ q, q ≠ l.1 → t.proc q = e.others (s.proc q) := by
  obtain ⟨e, he, rfl⟩ := Option.map_eq_some_iff.mp h
  exact ⟨e, Process.step_cases he, rfl, if_pos rfl, fun q hq => if_neg hq⟩

theorem forall_step {s t : State P} {l : P × Act} {Q : Process → Prop}
    (hQ : ∀ x y, Process.Kept x y → Q x → Q y) (hs : ∀ q, Q (s.proc q)) (h : step l s = some t)
    (hself : ∀ e, (s.proc l.1).Step s.word l.2 e → Q e.self) (q : P) : Q (t.proc q) := by
  obtain ⟨e, he, -, hl, hothers⟩ := step_spec h
  by_cases hq : q = l.1
  · rw [hq, hl]; exact hself e he
  · rw [hothers q hq]; exact hQ _ _ (he.kept _) (hs q)

def Process.Called (allowed : Call → Prop) (x : Process) : Prop :=
  ∀ c w, x.pc = .wake c w → allowed c ∧ ∀ v, w = .store v → c.entry = .wake c (.store v)

theorem called_step {s t : State P} {l : P × Act} {allowed : Call → Prop}
    (hs : ∀ q, (s.proc q).Called allowed) (h : step l s = some t)
    (hcall : ∀ c w, l.2 = .call c → c.entry = .wake c w → allowed c) (q : P) :
    (t.proc q).Called allowed := by
  refine forall_step (fun x y hk hx c w hw => hx c w ((hk.wake c w).mp hw)) hs h ?_ q
  intro e he c w hw
  generalize hact : l.2 = act at he
  cases he with
  | call c' hidle =>
    obtain rfl := Call.entry_eq hw
    exact ⟨hcall _ w hact hw, fun v hv => hv ▸ hw⟩
  | wait turn desired pc pc' errno hwait hpc' => rcases hpc' with rfl | ⟨pc'', rfl⟩ <;> cases hw
  | store turn c' value hstore =>
    cases hw
    exact ⟨(hs l.1 _ _ hstore).1, nofun⟩
  | _ => cases hw

end Libcando.Futex
