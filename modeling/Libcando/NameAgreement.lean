import Libcando.AttachCount

namespace Libcando.Shm

open ByteMemory Futex Transition

namespace Context

def live (c : Context) : Bool := c.counted || c.opening

def leaving (c : Context) : Bool := c.pc matches .destroy (.unmap (some 0)) | .destroy (.unlink (some 0))

theorem Move.live {c c' : Context} {n : ℕ} (h : c.Move n c') (hl : c'.live = true) : c.live = true := by
  obtain ⟨hc, -, ho⟩ := h.kept
  simp only [Context.live, hc, Bool.or_eq_true] at hl ⊢
  exact hl.imp_right ho

theorem Move.leaving {c c' : Context} {n : ℕ} (h : c.Move n c') (hl : c'.leaving = true) :
    c.leaving = true := by
  cases h with
  | unmap value hpc =>
    rcases value with _ | _ | value
    · cases hl
    · simp [Context.leaving, hpc]
    · cases hl
  | _ => cases hl

end Context

namespace World

variable {P : Type*}

/-- No create finds the object full; the count neither wraps nor loses bytes to an `ftruncate`; a decrement
to zero finds no create on the way to that object; no `shm_open` gets an object that is about to lose its
name. -/
def orderly (l : P × Act) (w : World P) : Prop :=
  ((w.ctx l.1).creating .loadCount = true → w.count l.1 < (w.ctx l.1).info.procCount) ∧
  ((w.ctx l.1).creating .addCount = true → w.count l.1 + 1 < 2 ^ 32) ∧
  ((w.ctx l.1).creating .ftruncate = true → l.2.ticks = true → w.uncut l.1) ∧
  ((w.ctx l.1).detaching = true → w.count l.1 = 1 →
    ∀ q, (w.ctx q).opening = true → (w.ctx q).obj ≠ (w.ctx l.1).obj) ∧
  ((w.ctx l.1).creating .shmOpen = true → l.2.ticks = true →
    ∀ q, (w.ctx q).leaving = true → w.name ≠ some (w.ctx q).obj)

instance [Fintype P] (l : P × Act) (w : World P) : Decidable (orderly l w) :=
  inferInstanceAs (Decidable ((_ → _) ∧ (_ → _) ∧ (_ → _ → _ ∨ _) ∧ (_ → _ → ∀ _, _ → _) ∧
    (_ → _ → ∀ _, _ → _)))

structure Agreement (w : World P) : Prop where
  unlinks : ∀ p, (w.ctx p).pc = .destroy (.unlink (some 0)) → ∀ q, (w.ctx q).live = false
  agree : ∀ p q, (w.ctx p).live = true → (w.ctx q).live = true → (w.ctx p).obj = (w.ctx q).obj

structure Named (w : World P) : Prop where
  live : ∀ q, (w.ctx q).live = true → w.name = some (w.ctx q).obj
  left : ∀ q, (w.ctx q).leaving = true → w.name = some (w.ctx q).obj ∧ ∀ r, (w.ctx r).live = false
  last : ∀ q r, (w.ctx q).leaving = true → (w.ctx r).leaving = true → q = r

variable {I : ShmCreateInfo → Prop} {n : ℕ} {w w' : World P} {p : P} {act : Act}

theorem Named.agreement (hw : w.Named) : w.Agreement := by
  constructor
  · intro p hpc q
    exact (hw.left p (by simp [Context.leaving, hpc])).2 q
  · intro p q hp hq
    exact Option.some_inj.mp ((hw.live p hp).symm.trans (hw.live q hq))

theorem Named.of_none (hlive : ∀ q, (w.ctx q).live = true → w.name = some (w.ctx q).obj)
    (hleft : ∀ q, (w.ctx q).leaving = false) : w.Named :=
  ⟨hlive, fun q hq => by simp [hleft q] at hq, fun q r hq => by simp [hleft q] at hq⟩

theorem Named.shrink (hw : w.Named) (hname : w'.name = w.name)
    (h : ∀ q, ((w'.ctx q).live = true → (w.ctx q).live = true ∧ (w'.ctx q).obj = (w.ctx q).obj) ∧
      ((w'.ctx q).leaving = true → (w.ctx q).leaving = true ∧ (w'.ctx q).obj = (w.ctx q).obj)) : w'.Named := by
  constructor
  · intro q hq
    obtain ⟨hl, ho⟩ := (h q).1 hq
    rw [hname, ho]
    exact hw.live q hl
  · intro q hq
    obtain ⟨hl, ho⟩ := (h q).2 hq
    obtain ⟨hn, hnone⟩ := hw.left q hl
    constructor
    · rw [hname, ho]
      exact hn
    · intro r
      by_contra hr
      have := ((h r).1 (by simpa using hr)).1
      simp [hnone r] at this
  · intro q r hq hr
    exact hw.last q r ((h q).2 hq).1 ((h r).2 hr).1

variable [DecidableEq P]

theorem Named.shrink_self (hw : w.Named) (hs : w.Step p act w') (hname : w'.name = w.name)
    (hl : (w'.ctx p).live = true → (w.ctx p).live = true) (ho : (w'.ctx p).obj = (w.ctx p).obj)
    (hv : (w'.ctx p).leaving = true → (w.ctx p).leaving = true) : w'.Named := by
  apply hw.shrink hname
  intro q
  by_cases hq : q = p
  · subst hq
    constructor
    · intro hlive
      exact ⟨hl hlive, ho⟩
    · intro hleave
      exact ⟨hv hleave, ho⟩
  · rw [hs.others hq]
    constructor
    · intro hlive
      exact ⟨hlive, rfl⟩
    · intro hleave
      exact ⟨hleave, rfl⟩

theorem Named.decrement [Fintype P] (hw : w.Named) (hcount : w'.Counting I n) (hs : w.Step p act w')
    (hc : (w.ctx p).counted = true)
    (hzero : (w'.ctx p).leaving = true → load (w'.objs (w.ctx p).obj).mem 0 4 = 0 ∧
      ∀ q, (w.ctx q).opening = true → (w.ctx q).obj ≠ (w.ctx p).obj)
    (hname : w'.name = w.name) (hself : (w'.ctx p).live = false) (ho : (w'.ctx p).obj = (w.ctx p).obj) :
    w'.Named := by
  by_cases hleave : (w'.ctx p).leaving = true
  · have hp : w.name = some (w.ctx p).obj := hw.live p (by simp [Context.live, hc])
    obtain ⟨hload, hopening⟩ := hzero hleave
    have hempty : w'.attachedTo (w.ctx p).obj = 0 := (hcount.exact _).symm.trans hload
    have nobody (q : P) : (w'.ctx q).live = false := by
      by_cases hq : q = p
      · exact hq ▸ hself
      · by_contra hlive
        have hl : (w.ctx q).live = true := by rw [hs.others hq] at hlive; simpa using hlive
        have hobj : (w.ctx q).obj = (w.ctx p).obj := Option.some_inj.mp ((hw.live q hl).symm.trans hp)
        rcases Bool.or_eq_true_iff.mp hl with hqc | hqo
        · apply attachedTo_zero hempty (q := q)
          · rw [hs.others hq]; exact hqc
          · rw [hs.others hq]; exact hobj
        · exact hopening q hqo hobj
    have only (q : P) (hq : (w'.ctx q).leaving = true) : q = p := by
      by_contra hne
      rw [hs.others hne] at hq
      have := (hw.left q hq).2 p
      simp [Context.live, hc] at this
    constructor
    · intro q hq
      simp [nobody q] at hq
    · intro q hq
      refine ⟨?_, nobody⟩
      rw [only q hq, hname, ho]
      exact hp
    · intro q r hq hr
      exact (only q hq).trans (only r hr).symm
  · apply hw.shrink_self hs hname
    · intro hlive
      simp [hself] at hlive
    · exact ho
    · intro h
      exact absurd h hleave

theorem Named.openBound (hw : w.Named) (hs : w.Step p act w') (hname : w'.name = w.name)
    (hbound : (w'.ctx p).live = true → w.name = some (w'.ctx p).obj) (hself : (w'.ctx p).leaving = false)
    (hnone : ∀ q, (w.ctx q).leaving = false) : w'.Named := by
  apply Named.of_none
  · intro q hq
    rw [hname]
    by_cases hqp : q = p
    · subst hqp; exact hbound hq
    · rw [hs.others hqp] at hq ⊢; exact hw.live q hq
  · intro q
    by_cases hqp : q = p
    · rwa [hqp]
    · rw [hs.others hqp]; exact hnone q

theorem Named.openFresh (hw : w.Named) (hs : w.Step p act w') (hname : w.name = none)
    (hfresh : (w'.ctx p).live = true → w'.name = some (w'.ctx p).obj) (hself : (w'.ctx p).leaving = false) :
    w'.Named := by
  apply Named.of_none
  · intro q hq
    by_cases hqp : q = p
    · subst hqp; exact hfresh hq
    · rw [hs.others hqp] at hq; simpa [hname] using hw.live q hq
  · intro q
    by_cases hqp : q = p
    · rwa [hqp]
    · rw [hs.others hqp]
      by_contra hq
      simpa [hname] using (hw.left q (by simpa using hq)).1

theorem Named.unlink (hw : w.Named) (hs : w.Step p act w') (hp : (w.ctx p).leaving = true)
    (hself : (w'.ctx p).live = false) (hself' : (w'.ctx p).leaving = false) : w'.Named := by
  apply Named.of_none
  · intro q hq
    by_cases hqp : q = p
    · subst hqp; simp [hself] at hq
    · rw [hs.others hqp] at hq; simp [(hw.left p hp).2 q] at hq
  · intro q
    by_cases hqp : q = p
    · rwa [hqp]
    · rw [hs.others hqp]
      by_contra hq
      exact hqp (hw.last q p (by simpa using hq) hp)

theorem Named.step [Fintype P] (hw : w.Named) (hsane : w.Counting I n) (hcount : w'.Counting I n)
    (hs : w.Step p act w') (hn : n < 2 ^ 32) (hok : orderly (p, act) w) : w'.Named := by
  have hwf := hsane.wf p
  unfold Context.WF at hwf
  have hs' := hs
  cases hs with
  | move act c hc =>
    apply hw.shrink_self hs' rfl
    all_goals simp only [put_ctx, Function.update_self]
    · exact hc.live
    · exact hc.kept.2.1
    · exact hc.leaving
  | accept info hpc hi =>
    rw [hpc] at hwf
    apply hw.shrink_self hs' rfl
    all_goals simp [Context.live, Context.opening, CreatePc.opening, Context.leaving, hwf]
  | openBound turn o hpc hname =>
    apply hw.openBound hs' rfl
    · intro _
      simpa using hname
    · simp [Context.leaving]
    · intro q
      by_contra hq
      have hq' : (w.ctx q).leaving = true := by simpa using hq
      exact hok.2.2.2.2 (by simp [Context.creating, hpc]) rfl q hq' (hw.left q hq').1
  | openFresh turn hpc hname =>
    apply hw.openFresh hs' hname
    · simp
    · simp [Context.leaving]
  | truncate turn hpc | attach turn hpc =>
    apply hw.shrink_self hs' rfl
    all_goals simp [Context.live, Context.opening, CreatePc.opening, Context.leaving, hpc]
  | initRead turn i hpc hi | initWrite turn i hpc =>
    rw [hpc] at hwf
    apply hw.shrink_self hs' rfl
    all_goals simp [Context.live, Context.leaving, hwf.2, CreatePc.counts]
  | decrement turn value hpc hv =>
    have hc := hsane.detaching p hpc
    have hpos := attachedTo_pos hc
    have hle := hsane.bounded (w.ctx p).obj
    have hlast (hzero : value = 0) : w.count p = 1 := by
      rw [hsane.count_eq] at hv ⊢
      omega
    apply hw.decrement hcount hs' hc
    · intro hleave
      have hzero : value = 0 := by
        rcases value with _ | value
        · rfl
        · simp [Context.leaving] at hleave
      constructor
      · simp [setMem_mem, hzero, load_store]
      · exact hok.2.2.2.1 (by simp [Context.detaching, hpc]) (hlast hzero)
    · rfl
    · simp [Context.live, Context.opening]
    · simp
  | unlink turn value hpc =>
    rw [hpc] at hwf
    by_cases hv : value = some 0
    · subst hv
      apply hw.unlink hs' (by simp [Context.leaving, hpc])
      all_goals simp [Context.live, Context.opening, Context.leaving, hwf]
    · apply hw.shrink_self hs' (by simp [hv])
      all_goals simp [Context.live, Context.opening, Context.leaving, hwf]
  | transfer turn x x' m' hpc hi hx =>
    rw [hpc] at hwf
    apply hw.shrink_self hs' rfl
    all_goals simp [Context.live, Context.leaving, hwf.2.1]

theorem named_step [Fintype P] {w w' : World P} {l : P × Act}
    (hw : w.Counting ShmCreateInfo.Accepted (2 ^ 32 - 1) ∧ w.Named) (hok : orderly l w) (h : step l w = some w') :
    w'.Counting ShmCreateInfo.Accepted (2 ^ 32 - 1) ∧ w'.Named := by
  obtain ⟨p, act⟩ := l
  have hs := step_cases h
  have hcount : w'.Counting ShmCreateInfo.Accepted (2 ^ 32 - 1) := by
    apply hw.1.step hs (by omega)
    · intro hpc
      exact hok.2.2.1 (by simp [Context.creating, hpc])
    · intro info hi
      exact hi
    · intro info _ hi
      exact hi
    · intro hpc
      exact hok.1 (by simp [Context.creating, hpc])
    · intro hpc
      have hlt := hok.2.1 (by simp [Context.creating, hpc])
      dsimp only at hlt
      omega
  exact ⟨hcount, hw.2.step hw.1 hcount hs (by omega) hok⟩

theorem name_agreement [Fintype P] {w : World P} (h : Reach (system P) orderly w) : w.Agreement := by
  have hinit : ({} : World P).Counting ShmCreateInfo.Accepted (2 ^ 32 - 1) ∧ ({} : World P).Named :=
    ⟨counting_initial, .of_none (fun _ h => by cases h) fun _ => rfl⟩
  have hw : w.Counting ShmCreateInfo.Accepted (2 ^ 32 - 1) ∧ w.Named := by
    apply h.invariant
    · rintro s rfl
      exact hinit
    · intro s t l hs hok hstep
      exact named_step hs hok hstep
  exact hw.2.agreement

theorem name_agreement_again : ∃ w : World (Fin 2),
    (w.ctx 0).counted = true ∧ (w.ctx 1).counted = true ∧ w.next = 2 ∧ w.Agreement := by
  obtain ⟨w, hw, hq⟩ := exists_of_run (system (Fin 2)) orderly (.init rfl)
    ((0, .create (onePage 2)) :: List.replicate 10 (0, .tick .plain) ++ (0, .destroy) ::
      List.replicate 3 (0, .tick .plain) ++ (1, .create (onePage 2)) :: List.replicate 5 (1, .tick .plain) ++
      (0, .create (onePage 2)) :: List.replicate 5 (0, .tick .plain))
    (fun w => (w.ctx 0).counted = true ∧ (w.ctx 1).counted = true ∧ w.next = 2) (by decide +kernel)
  exact ⟨w, hq.1, hq.2.1, hq.2.2, name_agreement hw⟩

/-- The last user has counted down to zero when another process opens the object and attaches; the name
then goes, and the next create gets an object of its own. -/
theorem name_split : ¬ ∀ w : World (Fin 2), Reach (system (Fin 2)) (fun _ _ => True) w → w.Agreement := by
  intro agree
  obtain ⟨w, hw, h0, h1, hne⟩ := exists_of_run (system (Fin 2)) (fun _ _ => True) (.init rfl)
    ((0, .create (onePage 1)) :: List.replicate 8 (0, .tick .plain) ++
      [(0, .destroy), (0, .tick .plain), (1, .create (onePage 1))] ++ List.replicate 5 (1, .tick .plain) ++
      [(0, .tick .plain), (0, .tick .plain), (0, .create (onePage 1))] ++ List.replicate 5 (0, .tick .plain))
    (fun w => (w.ctx 0).live = true ∧ (w.ctx 1).live = true ∧ (w.ctx 0).obj ≠ (w.ctx 1).obj) (by decide +kernel)
  exact hne ((agree w hw).agree 0 1 h0 h1)

end World

end Libcando.Shm
