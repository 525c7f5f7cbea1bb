import Libcando.ShmWorld
import Libcando.TransferMotion
import Mathlib.Tactic.SplitIfs

namespace Libcando.Shm

open ByteMemory Futex Transition

inductive Context.Move (c : Context) (count : ℕ) : Context → Prop
  | refuse (h : c.pc = .none ∨ c.pc = .create .shmOpen ∨ c.pc = .create .ftruncate) :
    Move c count { c with pc := .destroy (.unmap none) }
  | map (h : c.pc = .create .mmap) : Move c count { c with pc := .create .loadCount }
  | crash (h : c.pc = .create .mmap) : Move c count { c with pc := .crashed }
  | full (h : c.pc = .create .loadCount) (hc : c.info.procCount ≤ count) :
    Move c count { c with pc := .destroy .subCount }
  | room (h : c.pc = .create .loadCount) (hc : count < c.info.procCount) :
    Move c count { c with pc := .create .addCount }
  | ready (i : ℕ) (h : c.pc = .create (.initRead i)) (hi : c.info.procCount ≤ i) :
    Move c count { c with pc := .attached }
  | detach (h : c.pc = .attached) : Move c count { c with pc := .destroy .subCount }
  | unmap (value : Option ℕ) (h : c.pc = .destroy (.unmap value)) :
    Move c count { c with pc := .destroy (.unlink value) }
  | call (x : Transfer) (h : c.pc = .attached) (hx : x.pc = .check) (ht : x.took = false) :
    Move c count { c with pc := .transfer x }
  | return (x : Transfer) (ret : ℤ) (h : c.pc = .transfer x) (hx : x.pc = .done ret) :
    Move c count { c with pc := .attached }
  | skip (x : Transfer) (pc : LockPc) (ret : ℤ) (h : c.pc = .transfer x) (hx : x.pc = .lock pc) :
    Move c count { c with pc := .transfer { x with pc := .done ret } }
  | fault (x : Transfer) (pc : LockPc) (h : c.pc = .transfer x) (hx : x.pc = .lock pc) :
    Move c count { c with pc := .crashed }

namespace World

variable {P : Type*} {w w' : World P} {p : P}

@[simp] theorem setMem_ctx (m : Mem) : (w.setMem p m).ctx = w.ctx := rfl
@[simp] theorem setMem_name (m : Mem) : (w.setMem p m).name = w.name := rfl
@[simp] theorem setMem_next (m : Mem) : (w.setMem p m).next = w.next := rfl
@[simp] theorem ftruncate_ctx : (w.ftruncate p).ctx = w.ctx := rfl
@[simp] theorem ftruncate_name : (w.ftruncate p).name = w.name := rfl
@[simp] theorem ftruncate_next : (w.ftruncate p).next = w.next := rfl

@[simp] theorem setMem_len (m : Mem) (o : ℕ) : ((w.setMem p m).objs o).len = (w.objs o).len := by
  by_cases ho : o = (w.ctx p).obj
  · subst ho; simp [setMem]
  · simp [setMem, ho]

theorem setMem_mem (m : Mem) (o : ℕ) :
    ((w.setMem p m).objs o).mem = if o = (w.ctx p).obj then m else (w.objs o).mem := by
  by_cases ho : o = (w.ctx p).obj
  · subst ho; simp [setMem]
  · simp [setMem, ho]

theorem ftruncate_len : ((w.ftruncate p).objs (w.ctx p).obj).len = (w.ctx p).info.shmSize := by
  simp only [ftruncate, Function.update_self, Object.ftruncate]
  split_ifs with h
  · exact h.symm
  · rfl

variable [DecidableEq P]

@[simp] theorem put_ctx (x : Context) : (w.put p x).ctx = Function.update w.ctx p x := rfl
@[simp] theorem put_objs (x : Context) : (w.put p x).objs = w.objs := rfl
@[simp] theorem put_name (x : Context) : (w.put p x).name = w.name := rfl
@[simp] theorem put_next (x : Context) : (w.put p x).next = w.next := rfl
@[simp] theorem goto_ctx (pc : Pc) : (w.goto p pc).ctx = Function.update w.ctx p { w.ctx p with pc } := rfl
@[simp] theorem goto_objs (pc : Pc) : (w.goto p pc).objs = w.objs := rfl
@[simp] theorem goto_name (pc : Pc) : (w.goto p pc).name = w.name := rfl
@[simp] theorem goto_next (pc : Pc) : (w.goto p pc).next = w.next := rfl

inductive Step (w : World P) (p : P) : Act → World P → Prop
  | move (act : Act) (c : Context) (h : (w.ctx p).Move (w.count p) c) : Step w p act (w.put p c)
  | accept (info : ShmCreateInfo) (h : (w.ctx p).pc = .none) (hi : info.Accepted) :
    Step w p (.create (some info)) (w.put p { w.ctx p with pc := .create .shmOpen, info })
  | openBound (turn : Turn) (o : ℕ) (h : (w.ctx p).pc = .create .shmOpen) (hn : w.name = some o) :
    Step w p (.tick turn) (w.put p { w.ctx p with pc := .create .ftruncate, obj := o })
  | openFresh (turn : Turn) (h : (w.ctx p).pc = .create .shmOpen) (hn : w.name = none) :
    Step w p (.tick turn) { w.put p { w.ctx p with pc := .create .ftruncate, obj := w.next } with
      name := some w.next, next := w.next + 1, objs := Function.update w.objs w.next {} }
  | truncate (turn : Turn) (h : (w.ctx p).pc = .create .ftruncate) :
    Step w p (.tick turn) ((w.ftruncate p).goto p (.create .mmap))
  | attach (turn : Turn) (h : (w.ctx p).pc = .create .addCount) :
    Step w p (.tick turn) ((w.setMem p (store (w.mem p) 0 4 ((w.count p + 1) % 2 ^ 32))).put p
      { w.ctx p with pc := .create (.initRead 0), counted := true })
  | initRead (turn : Turn) (i : ℕ) (h : (w.ctx p).pc = .create (.initRead i))
    (hi : i < (w.ctx p).info.procCount) :
    Step w p (.tick turn) ((w.setMem p (compareExchange (w.mem p) ((w.ctx p).info.procs i).rdFux
      futexUnlock futexLock)).goto p (.create (.initWrite i)))
  | initWrite (turn : Turn) (i : ℕ) (h : (w.ctx p).pc = .create (.initWrite i)) :
    Step w p (.tick turn) ((w.setMem p (compareExchange (w.mem p) ((w.ctx p).info.procs i).wrFux
      futexUnlock futexUnlock)).goto p (.create (.initRead (i + 1))))
  | decrement (turn : Turn) (value : ℕ) (h : (w.ctx p).pc = .destroy .subCount)
    (hv : value = (w.count p + 2 ^ 32 - 1) % 2 ^ 32) :
    Step w p (.tick turn) ((w.setMem p (store (w.mem p) 0 4 value)).put p
      { w.ctx p with pc := .destroy (.unmap (some value)), counted := false })
  | unlink (turn : Turn) (value : Option ℕ) (h : (w.ctx p).pc = .destroy (.unlink value)) :
    Step w p (.tick turn) { w.goto p .none with name := if value = some 0 then none else w.name }
  | transfer (turn : Turn) (x x' : Transfer) (m' : Mem) (h : (w.ctx p).pc = .transfer x)
    (hi : ∀ pc, x.pc = .lock pc → x.info.procIndex < (w.ctx p).info.procCount)
    (hs : x.Step (w.ctx p).info.procs (w.mem p) x' m') :
    Step w p (.tick turn) ((w.setMem p m').goto p (.transfer x'))

theorem pShmCreate_step {pc : CreatePc} (turn : Turn) (h : (w.ctx p).pc = .create pc) :
    w.Step p (.tick turn) (w.pShmCreate p pc) := by
  cases pc with
  | shmOpen =>
    rw [pShmCreate, shmOpen]
    split
    · exact .openBound turn _ h ‹_›
    · exact .openFresh turn h ‹_›
  | ftruncate => exact .truncate turn h
  | mmap => exact .move _ _ (.map h)
  | loadCount =>
    rw [pShmCreate]
    split_ifs with hc
    · exact .move _ _ (.full h hc)
    · exact .move _ _ (.room h (by omega))
  | addCount => exact .attach turn h
  | initRead i =>
    rw [pShmCreate]
    split_ifs with hi
    · exact .initRead turn i h hi
    · exact .move _ _ (.ready i h (by omega))
  | initWrite i => exact .initWrite turn i h

theorem dataStep_step {turn : Turn} {x : Transfer} (h : (w.ctx p).pc = .transfer x)
    (hs : w.dataStep p turn x = some w') : w.Step p (.tick turn) w' := by
  unfold dataStep at hs
  split at hs
  · cases hs; exact .move _ _ (.return x _ h ‹_›)
  · rename_i pc hpc
    split_ifs at hs with hi
    · cases hs
      unfold Transfer.unset
      split_ifs
      · exact .move _ _ (.skip x pc _ h hpc)
      · exact .move _ _ (.skip x pc _ h hpc)
      · exact .move _ _ (.fault x pc h hpc)
    · obtain ⟨⟨x', m'⟩, hx, rfl⟩ := Option.map_eq_some_iff.mp hs
      exact .transfer turn x x' m' h (fun _ _ => by omega) (Transfer.step_cases hx)
  · rename_i hdone hlock
    obtain ⟨⟨x', m'⟩, hx, rfl⟩ := Option.map_eq_some_iff.mp hs
    exact .transfer turn x x' m' h (fun pc hpc => absurd hpc (hlock pc)) (Transfer.step_cases hx)

theorem step_cases {act : Act} (h : step (p, act) w = some w') : w.Step p act w' := by
  unfold step at h
  dsimp only at h
  split at h
  · rename_i info hnone
    split at h
    · rename_i info' hok
      cases h
      obtain ⟨rfl, hi⟩ := pShmCreateCheck_ok hok
      exact .accept info' hnone hi
    · cases h; exact .move _ _ (.refuse (.inl hnone))
  · cases h; exact pShmCreate_step _ ‹_›
  · cases h; exact .move _ _ (.refuse (.inr (.inl ‹_›)))
  · cases h; exact .move _ _ (.refuse (.inr (.inr ‹_›)))
  · cases h; exact .move _ _ (.crash ‹_›)
  · cases h; exact .move _ _ (.detach ‹_›)
  · rename_i turn pc hpc
    cases h
    cases pc with
    | subCount => exact .decrement turn _ hpc rfl
    | unmap value => exact .move _ _ (.unmap value hpc)
    | unlink value => exact .unlink turn value hpc
  · cases h; exact .move _ _ (.call _ ‹_› rfl rfl)
  · cases h; exact .move _ _ (.call _ ‹_› rfl rfl)
  · exact dataStep_step ‹_› h
  · cases h

end World

end Libcando.Shm
