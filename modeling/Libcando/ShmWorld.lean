import Libcando.Transition
import Libcando.ShmTransfer
import Mathlib.Tactic.SplitIfs

namespace Libcando.Shm

open ByteMemory Futex Transition

inductive CreatePc
  | shmOpen
  | ftruncate
  | mmap
  | loadCount
  | addCount
  | initRead (p : ℕ)
  | initWrite (p : ℕ)
  deriving DecidableEq

/-- `value` is what the decrement left in the count, if there was a mapping to decrement in. -/
inductive DestroyPc
  | subCount
  | unmap (value : Option ℕ)
  | unlink (value : Option ℕ)
  deriving DecidableEq

inductive Pc
  | none
  | create (pc : CreatePc)
  | attached
  | transfer (x : Transfer)
  | destroy (pc : DestroyPc)
  | crashed

/-- `counted` is history: the context has done the increment and not the decrement. -/
structure Context where
  pc : Pc := .none
  info : ShmCreateInfo := ⟨[], 0, 0, by decide⟩
  obj : ℕ := 0
  counted : Bool := false

structure Object where
  mem : Mem := fun _ => 0
  len : ℕ := 0

structure World (P : Type*) where
  name : Option ℕ := none
  next : ℕ := 0
  objs : ℕ → Object := fun _ => {}
  ctx : P → Context := fun _ => {}

def Object.ftruncate (o : Object) (len : ℕ) : Object :=
  if len = o.len then o else ⟨fun a => if a < min len o.len then o.mem a else 0, len⟩

theorem Object.ftruncate_count {o : Object} {len : ℕ}
    (hfits : len = o.len ∨ load o.mem 0 4 < 256 ^ min len o.len) :
    load (o.ftruncate len).mem 0 4 = load o.mem 0 4 := by
  unfold Object.ftruncate
  split_ifs with hsame
  · rfl
  · apply load_congr
    intro x _ hx
    dsimp only
    split_ifs with hin
    · rfl
    · exact (load_small (hfits.resolve_left hsame) (by omega) hx).symm

theorem Object.ftruncate_count_le (o : Object) (len : ℕ) : load (o.ftruncate len).mem 0 4 ≤ load o.mem 0 4 := by
  unfold Object.ftruncate
  split_ifs
  · exact Nat.le_refl _
  · apply load_le
    intro x _ _
    dsimp only
    split_ifs
    · exact .inl rfl
    · exact .inr rfl

theorem Object.ftruncate_blank {o : Object} {len : ℕ} (h : o.len = len ∨ o.mem = fun _ => 0) :
    (o.ftruncate len).mem = o.mem := by
  unfold ftruncate
  split_ifs with hlen
  · rfl
  · have hmem := h.resolve_left (Ne.symm hlen)
    simp [hmem]

def compareExchange (m : Mem) (a expected desired : ℕ) : Mem :=
  if load m a 4 = expected then store m a 4 desired else m

theorem compareExchange_same (m : Mem) (a v : ℕ) : compareExchange m a v v = m := by
  unfold compareExchange
  split_ifs with h
  · rw [← h, store_load_self]
  · rfl

theorem load_compareExchange {m : Mem} {a expected desired b n : ℕ} (h : b + n ≤ a ∨ a + 4 ≤ b) :
    load (compareExchange m a expected desired) b n = load m b n := by
  unfold compareExchange
  split_ifs
  · exact load_store_disjoint h
  · rfl

theorem compareExchange_ne {m : Mem} {a expected desired : ℕ} (h : load m a 4 ≠ expected) :
    compareExchange m a expected desired = m := if_neg h

/-- A segment that the context never set up: its NULL futexes are skipped, its NULL data faults. -/
def Transfer.unset (x : Transfer) : Pc :=
  if x.errno = eintr then .transfer { x with pc := .done (-x.errno) }
  else if x.info.size = 0 then .transfer { x with pc := .done 0 }
  else .crashed

namespace World

inductive Act
  | create (info : Option ShmCreateInfo)
  | transfer (dir : Dir) (info : ShmDataInfo) (buf : Mem) (errno : Errno)
  | destroy
  | tick (turn : Turn)
  | fail

variable {P : Type*} [DecidableEq P]

def mem (w : World P) (p : P) : Mem := (w.objs (w.ctx p).obj).mem

def count (w : World P) (p : P) : ℕ := load (w.mem p) 0 4

def put (w : World P) (p : P) (x : Context) : World P := { w with ctx := Function.update w.ctx p x }

def setMem (w : World P) (p : P) (m : Mem) : World P :=
  { w with objs := Function.update w.objs (w.ctx p).obj { w.objs (w.ctx p).obj with mem := m } }

def goto (w : World P) (p : P) (pc : Pc) : World P := w.put p { w.ctx p with pc }

def shmOpen (w : World P) (p : P) : World P :=
  match w.name with
  | some o => w.put p { w.ctx p with pc := .create .ftruncate, obj := o }
  | none =>
    { w.put p { w.ctx p with pc := .create .ftruncate, obj := w.next } with
      name := some w.next
      next := w.next + 1
      objs := Function.update w.objs w.next {} }

def ftruncate (w : World P) (p : P) : World P :=
  let o := (w.ctx p).obj
  { w with objs := Function.update w.objs o ((w.objs o).ftruncate (w.ctx p).info.shmSize) }

/-- One step of `p_shm_create`; a failed call of the system makes `udo_shm_create` destroy the context. -/
def pShmCreate (w : World P) (p : P) : CreatePc → World P
  | .shmOpen => w.shmOpen p
  | .ftruncate => (w.ftruncate p).goto p (.create .mmap)
  | .mmap => w.goto p (.create .loadCount)
  | .loadCount =>
    if w.count p ≥ (w.ctx p).info.procCount then w.goto p (.destroy .subCount)
    else w.goto p (.create .addCount)
  | .addCount =>
    (w.setMem p (store (w.mem p) 0 4 ((w.count p + 1) % 2 ^ 32))).put p
      { w.ctx p with pc := .create (.initRead 0), counted := true }
  | .initRead i =>
    if i < (w.ctx p).info.procCount then
      (w.setMem p (compareExchange (w.mem p) ((w.ctx p).info.procs i).rdFux futexUnlock futexLock)).goto p
        (.create (.initWrite i))
    else w.goto p .attached
  | .initWrite i =>
    (w.setMem p (compareExchange (w.mem p) ((w.ctx p).info.procs i).wrFux futexUnlock futexUnlock)).goto p
      (.create (.initRead (i + 1)))

def udoShmDestroy (w : World P) (p : P) : DestroyPc → World P
  | .subCount =>
    let value := (w.count p + 2 ^ 32 - 1) % 2 ^ 32
    (w.setMem p (store (w.mem p) 0 4 value)).put p
      { w.ctx p with pc := .destroy (.unmap (some value)), counted := false }
  | .unmap value => w.goto p (.destroy (.unlink value))
  | .unlink value => { w.goto p .none with name := if value = some 0 then none else w.name }

def dataStep (w : World P) (p : P) (turn : Turn) (x : Transfer) : Option (World P) :=
  match x.pc with
  | .done _ => some (w.goto p .attached)
  | .lock _ =>
    if (w.ctx p).info.procCount ≤ x.info.procIndex then some (w.goto p x.unset)
    else (x.step turn (w.ctx p).info.procs (w.mem p)).map fun (x', m') =>
      (w.setMem p m').goto p (.transfer x')
  | _ => (x.step turn (w.ctx p).info.procs (w.mem p)).map fun (x', m') =>
      (w.setMem p m').goto p (.transfer x')

def step (l : P × Act) (w : World P) : Option (World P) :=
  match l.2, (w.ctx l.1).pc with
  | .create info, .none =>
    match pShmCreateCheck info with
    | .ok info => some (w.put l.1 { w.ctx l.1 with pc := .create .shmOpen, info })
    | .error _ => some (w.goto l.1 (.destroy (.unmap none)))
  | .tick _, .create pc => some (w.pShmCreate l.1 pc)
  | .fail, .create .shmOpen => some (w.goto l.1 (.destroy (.unmap none)))
  | .fail, .create .ftruncate => some (w.goto l.1 (.destroy (.unmap none)))
  -- the result of mmap is never looked at: the first access to a failed mapping faults
  | .fail, .create .mmap => some (w.goto l.1 .crashed)
  | .destroy, .attached => some (w.goto l.1 (.destroy .subCount))
  | .tick _, .destroy pc => some (w.udoShmDestroy l.1 pc)
  | .transfer .read info buf errno, .attached =>
    some (w.goto l.1 (.transfer (udoShmDataRead info buf errno)))
  | .transfer .write info buf errno, .attached =>
    some (w.goto l.1 (.transfer (udoShmDataWrite info buf errno)))
  | .tick turn, .transfer x => w.dataStep l.1 turn x
  | _, _ => none

def system (P : Type*) [DecidableEq P] : System (World P) (P × Act) where
  init w := w = {}
  step := step

end World

end Libcando.Shm
