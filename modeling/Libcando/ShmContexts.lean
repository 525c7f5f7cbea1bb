import Libcando.ShmWorldStep

namespace Libcando.Shm

open ByteMemory Futex Transition

def CreatePc.opening : CreatePc → Bool
  | .ftruncate | .mmap | .loadCount | .addCount => true
  | _ => false

def CreatePc.counts : CreatePc → Bool
  | .initRead _ | .initWrite _ => true
  | _ => false

def Transfer.Indexed (x : Transfer) (n : ℕ) : Prop :=
  match x.pc with
  | .check | .lock _ | .done _ => True
  | _ => x.info.procIndex < n

theorem Transfer.Step.indexed {procs : ℕ → ShmProc} {x x' : Transfer} {m m' : Mem} {n : ℕ}
    (h : x.Step procs m x' m') (hx : x.Indexed n) (hi : ∀ pc, x.pc = .lock pc → x.info.procIndex < n) :
    x'.Indexed n := by
  unfold Indexed at hx
  cases h with
  | reject hpc | accept hpc | spin pc pc' errno hpc | fail hpc he | wake hpc => trivial
  | acquire pc hpc hw | interrupt pc hpc hw => exact hi pc hpc
  | enter hpc he | read s hpc hd hs | write s hpc hd hs | finish s hpc hs | clear s hpc | release value hpc =>
    rw [hpc] at hx; exact hx

namespace Context

def creating (c : Context) (pc : CreatePc) : Bool :=
  match c.pc with
  | .create pc' => pc' = pc
  | _ => false

def detaching (c : Context) : Bool := c.pc matches .destroy .subCount

def opening (c : Context) : Bool :=
  match c.pc with
  | .create pc => pc.opening
  | _ => false

def bound (c : Context) : Bool := c.counted || c.opening || c.detaching

def WF (I : ShmCreateInfo → Prop) (c : Context) : Prop :=
  match c.pc with
  | .none => c.counted = false
  | .create pc => I c.info ∧ c.counted = pc.counts
  | .attached => I c.info ∧ c.counted = true
  | .transfer x => I c.info ∧ c.counted = true ∧ x.WF ∧ x.Indexed c.info.procCount
  | .destroy .subCount | .crashed => True
  | .destroy _ => c.counted = false

theorem Move.wf {I : ShmCreateInfo → Prop} {c c' : Context} {n : ℕ} (h : c.Move n c') (hc : c.WF I) :
    c'.WF I := by
  unfold WF at hc
  cases h with
  | refuse hpc =>
    rcases hpc with hpc | hpc | hpc
    · rw [hpc] at hc; exact hc
    · rw [hpc] at hc; exact hc.2
    · rw [hpc] at hc; exact hc.2
  | map hpc | room hpc hn | ready i hpc hi | unmap value hpc => rw [hpc] at hc; exact hc
  | crash hpc | full hpc hn | detach hpc | fault x pc hpc hx => trivial
  | call x hpc hx ht =>
    rw [hpc] at hc
    exact ⟨hc.1, hc.2, by simp [Transfer.WF, hx, ht], by simp [Transfer.Indexed, hx]⟩
  | «return» x ret hpc hx => rw [hpc] at hc; exact ⟨hc.1, hc.2.1⟩
  | skip x pc ret hpc hx => rw [hpc] at hc; exact ⟨hc.1, hc.2.1, trivial, trivial⟩

theorem Move.kept {c c' : Context} {n : ℕ} (h : c.Move n c') :
    c'.counted = c.counted ∧ c'.obj = c.obj ∧ (c'.opening = true → c.opening = true) := by
  cases h with
  | map hpc | room hpc hn => exact ⟨rfl, rfl, fun _ => by simp [opening, hpc, CreatePc.opening]⟩
  | _ => exact ⟨rfl, rfl, nofun⟩

theorem Move.bound {I : ShmCreateInfo → Prop} {c c' : Context} {n : ℕ} (h : c.Move n c') (hw : c.WF I)
    (hb : c'.bound = true) : c.bound = true := by
  obtain ⟨hc, -, ho⟩ := h.kept
  simp only [Context.bound, hc, Bool.or_eq_true] at hb ⊢
  rcases hb with (hb | hb) | hb
  · exact .inl (.inl hb)
  · exact .inl (.inr (ho hb))
  · cases h with
    | full hpc hn => simp [opening, hpc, CreatePc.opening]
    | detach hpc => simp only [WF, hpc] at hw; simp [hw.2]
    | _ => cases hb

end Context

end Libcando.Shm
