import Libcando.ShmContexts

namespace Libcando.Shm

open ByteMemory Futex Transition

def CreatePc.sized : CreatePc → Bool
  | .mmap | .loadCount | .addCount => true
  | _ => false

def Context.sized (c : Context) : Bool :=
  c.counted || c.detaching || match c.pc with
    | .create pc => pc.sized
    | _ => false

theorem Context.Move.sized {I : ShmCreateInfo → Prop} {c c' : Context} {n : ℕ} (h : c.Move n c')
    (hw : c.WF I) (hs : c'.sized = true) : c.sized = true := by
  cases h with
  | map hpc | room hpc hn | full hpc hn => simp [Context.sized, hpc, CreatePc.sized]
  | detach hpc => simp only [WF, hpc] at hw; simp [Context.sized, hw.2]
  | _ =>
    have hc : c.counted = true := by simpa [Context.sized, detaching] using hs
    simp [Context.sized, hc]

theorem Context.sized_bound {c : Context} (h : c.sized = true) : c.bound = true := by
  simp only [Context.sized, Context.bound, Context.opening, Bool.or_eq_true] at h ⊢
  rcases h with (h | h) | h
  · exact .inl (.inl h)
  · exact .inr h
  · left; right
    split at h
    · rename_i pc hpc; cases pc <;> simp_all [CreatePc.sized, CreatePc.opening]
    · cases h

namespace World

variable {P : Type*}

structure Sane (I : ShmCreateInfo → Prop) (w : World P) : Prop where
  wf : ∀ q, (w.ctx q).WF I
  named : ∀ o, w.name = some o → o < w.next
  bound : ∀ q, (w.ctx q).bound = true → (w.ctx q).obj < w.next
  sized : ∀ q, (w.ctx q).sized = true → ∃ info, I info ∧ (w.objs (w.ctx q).obj).len = info.shmSize

variable [DecidableEq P] {I : ShmCreateInfo → Prop} {w w' : World P} {p : P} {act : Act}

theorem Step.wf (h : w.Step p act w')
    (hI : ∀ info, act = .create (some info) → info.Accepted → I info)
    (hw : ∀ q, (w.ctx q).WF I) : ∀ q, (w'.ctx q).WF I := by
  have hp := hw p
  have self {c : Context} (hc : c.WF I) : ∀ q, (Function.update w.ctx p c q).WF I :=
    update_forall (Q := fun _ => Context.WF I) hc fun q _ => hw q
  unfold Context.WF at hp
  cases h with
  | move act c hc => exact self (hc.wf (hw p))
  | accept info hpc hi => rw [hpc] at hp; exact self ⟨hI info rfl hi, hp⟩
  | openBound turn o hpc hn | openFresh turn hpc hn => rw [hpc] at hp; exact self hp
  | truncate turn hpc => rw [hpc] at hp; exact self hp
  | initRead turn i hpc hi | initWrite turn i hpc => rw [hpc] at hp; exact self hp
  | attach turn hpc => rw [hpc] at hp; exact self ⟨hp.1, rfl⟩
  | decrement turn value hpc hv => exact self rfl
  | unlink turn value hpc => rw [hpc] at hp; exact self hp
  | transfer turn x x' m' hpc hi hs =>
    rw [hpc] at hp
    exact self ⟨hp.1, hp.2.1, hs.wf hp.2.2.1, hs.indexed hp.2.2.2 hi⟩

theorem Step.len (h : w.Step p act w') (o : ℕ) :
    (w'.objs o).len = (w.objs o).len ∨ (w.name = none ∧ o = w.next) ∨
      ((w.ctx p).pc = .create .ftruncate ∧ o = (w.ctx p).obj ∧ (w'.objs o).len = (w.ctx p).info.shmSize) := by
  cases h with
  | openFresh turn hpc hn =>
    by_cases ho : o = w.next
    · exact .inr (.inl ⟨hn, ho⟩)
    · simp [ho]
  | truncate turn hpc =>
    by_cases ho : o = (w.ctx p).obj
    · subst ho
      exact .inr (.inr ⟨hpc, rfl, ftruncate_len⟩)
    · simp [ftruncate, ho]
  | _ => simp

theorem Step.bound (h : w.Step p act w') (hw : w.Sane I) :
    w.next ≤ w'.next ∧ (∀ o, w'.name = some o → o < w'.next) ∧
      ∀ q, (w'.ctx q).bound = true → (w'.ctx q).obj < w'.next := by
  have self {c : Context} (hc : c.bound = true → c.obj < w.next) :
      ∀ q, (Function.update w.ctx p c q).bound = true → (Function.update w.ctx p c q).obj < w.next :=
    update_forall (Q := fun _ (c : Context) => c.bound = true → c.obj < w.next) hc fun q _ => hw.bound q
  have hp := hw.bound p
  have hopen {pc : CreatePc} (hpc : (w.ctx p).pc = .create pc) (ho : pc.opening = true) :
      (w.ctx p).bound = true := by
    simp [Context.bound, Context.opening, hpc, ho]
  have hcreate {pc : CreatePc} (hpc : (w.ctx p).pc = .create pc) : (w.ctx p).counted = pc.counts := by
    have := hw.wf p
    rw [Context.WF, hpc] at this
    exact this.2
  cases h with
  | move act c hc => exact ⟨le_rfl, hw.named, self fun hb => hc.kept.2.1 ▸ hp (hc.bound (hw.wf p) hb)⟩
  | accept info hpc hi =>
    have hc := hw.wf p
    rw [Context.WF, hpc] at hc
    exact ⟨le_rfl, hw.named, self (by simp [Context.bound, hc, Context.opening, CreatePc.opening, Context.detaching])⟩
  | openBound turn o hpc hn => exact ⟨le_rfl, hw.named, self fun _ => hw.named o hn⟩
  | openFresh turn hpc hn =>
    refine ⟨Nat.le_succ _, ?_, ?_⟩
    · intro o ho
      cases ho
      exact Nat.lt_succ_self _
    · apply update_forall (Q := fun _ (c : Context) => c.bound = true → c.obj < w.next + 1)
      · intro _
        exact Nat.lt_succ_self _
      · intro q _ hb
        exact Nat.lt_succ_of_lt (hw.bound q hb)
  | truncate turn hpc => exact ⟨le_rfl, hw.named, self fun _ => hp (hopen hpc rfl)⟩
  | attach turn hpc => exact ⟨le_rfl, hw.named, self fun _ => hp (hopen hpc rfl)⟩
  | initRead turn i hpc hi | initWrite turn i hpc =>
    exact ⟨le_rfl, hw.named, self fun _ => hp (by simp [Context.bound, hcreate hpc, CreatePc.counts])⟩
  | decrement turn value hpc hv =>
    refine ⟨le_rfl, hw.named, self ?_⟩
    intro hb
    cases hb
  | unlink turn value hpc =>
    have hc := hw.wf p
    rw [Context.WF, hpc] at hc
    refine ⟨le_rfl, ?_, self (by simp [Context.bound, hc, Context.opening, Context.detaching])⟩
    intro o ho
    simp only [goto_next] at ho ⊢
    split_ifs at ho
    exact hw.named o ho
  | transfer turn x x' m' hpc hi hs =>
    have hc := hw.wf p
    rw [Context.WF, hpc] at hc
    exact ⟨le_rfl, hw.named, self fun _ => hp (by simp [Context.bound, hc.2.1])⟩

theorem Step.others (h : w.Step p act w') {q : P} (hq : q ≠ p) : w'.ctx q = w.ctx q := by
  cases h <;> exact Function.update_of_ne hq _ _

theorem Step.ctx (h : w.Step p act w') : w'.ctx = Function.update w.ctx p (w'.ctx p) := by
  funext q
  by_cases hq : q = p
  · subst hq; simp
  · rw [h.others hq, Function.update_of_ne hq]

theorem Step.counted (h : w.Step p act w') (hw : w.Sane I) (ha : (w.ctx p).pc ≠ .create .addCount)
    (hd : (w.ctx p).pc ≠ .destroy .subCount) :
    (w'.ctx p).counted = (w.ctx p).counted ∧ ((w'.ctx p).counted = true → (w'.ctx p).obj = (w.ctx p).obj) := by
  have hwf := hw.wf p
  unfold Context.WF at hwf
  cases h with
  | move act c hc => simp only [put_ctx, Function.update_self]; exact ⟨hc.kept.1, fun _ => hc.kept.2.1⟩
  | openBound turn o hpc hn | openFresh turn hpc hn =>
    rw [hpc] at hwf
    simp [hwf.2, CreatePc.counts]
  | attach turn hpc => exact absurd hpc ha
  | decrement turn value hpc hv => exact absurd hpc hd
  | _ => simp

theorem Step.self_sized (h : w.Step p act w') (hw : w.Sane I) (hs : (w'.ctx p).sized = true) :
    (w'.ctx p).obj = (w.ctx p).obj ∧ ((w.ctx p).sized = true ∨
      ((w.ctx p).pc = .create .ftruncate ∧ (w'.objs (w.ctx p).obj).len = (w.ctx p).info.shmSize)) := by
  have hc := hw.wf p
  unfold Context.WF at hc
  cases h with
  | move act c hm =>
    simp only [put_ctx, Function.update_self] at hs ⊢
    exact ⟨hm.kept.2.1, .inl (hm.sized (hw.wf p) hs)⟩
  | accept info hpc hi | openBound turn o hpc hn | openFresh turn hpc hn =>
    rw [hpc] at hc
    simp_all [Context.sized, Context.detaching, CreatePc.sized, CreatePc.counts]
  | truncate turn hpc => exact ⟨by simp, .inr ⟨hpc, ftruncate_len⟩⟩
  | attach turn hpc => simp [Context.sized, hpc, CreatePc.sized]
  | initRead turn i hpc hi | initWrite turn i hpc =>
    rw [hpc] at hc
    simp [Context.sized, hc.2, CreatePc.counts]
  | decrement turn value hpc hv => simp [Context.sized, Context.detaching] at hs
  | unlink turn value hpc =>
    rw [hpc] at hc
    simp [Context.sized, Context.detaching, show (w.ctx p).counted = false from hc] at hs
  | transfer turn x x' m' hpc hi hs' =>
    rw [hpc] at hc
    simp [Context.sized, hc.2.1]

theorem Sane.step (hw : w.Sane I) (h : w.Step p act w')
    (hI : ∀ info, act = .create (some info) → info.Accepted → I info) : w'.Sane I := by
  obtain ⟨hnext, hnamed, hbound⟩ := h.bound hw
  refine ⟨h.wf hI hw.wf, hnamed, hbound, ?_⟩
  intro q hq
  have old {r : P} (hr : (w.ctx r).sized = true) :
      ∃ info, I info ∧ (w'.objs (w.ctx r).obj).len = info.shmSize := by
    rcases h.len (w.ctx r).obj with hl | ⟨-, ho⟩ | ⟨hpc, -, hl⟩
    · rw [hl]; exact hw.sized r hr
    · have := hw.bound r (Context.sized_bound hr); omega
    · have hc := hw.wf p
      rw [Context.WF, hpc] at hc
      exact ⟨_, hc.1, hl⟩
  by_cases hqp : q = p
  · subst hqp
    obtain ⟨hobj, hs | ⟨hpc, hl⟩⟩ := h.self_sized hw hq
    · rw [hobj]; exact old hs
    · have hc := hw.wf q
      rw [Context.WF, hpc] at hc
      rw [hobj]
      exact ⟨_, hc.1, hl⟩
  · rw [h.others hqp] at hq ⊢
    exact old hq

theorem Step.at_addCount (h : w.Step p act w') (hpc : (w.ctx p).pc = .create .addCount) :
    (w'.ctx p).counted = true ∧ (w'.ctx p).obj = (w.ctx p).obj ∧
      w'.objs = (w.setMem p (store (w.mem p) 0 4 ((w.count p + 1) % 2 ^ 32))).objs := by
  cases h with
  | attach turn h => exact ⟨by simp, by simp, rfl⟩
  | move act c h => cases h <;> simp_all
  | _ => simp_all

theorem Step.at_subCount (h : w.Step p act w') (hpc : (w.ctx p).pc = .destroy .subCount) :
    ∃ value, value = (w.count p + 2 ^ 32 - 1) % 2 ^ 32 ∧ (w'.ctx p).pc = .destroy (.unmap (some value)) ∧
      (w'.ctx p).counted = false ∧ w'.objs = (w.setMem p (store (w.mem p) 0 4 value)).objs := by
  cases h with
  | decrement turn value h hv => exact ⟨value, hv, by simp, by simp, rfl⟩
  | move act c h => cases h <;> simp_all
  | _ => simp_all

omit [DecidableEq P] in
theorem sane_initial : ({} : World P).Sane I :=
  ⟨fun _ => rfl, nofun, nofun, nofun⟩

end World

end Libcando.Shm
