import Libcando.AttachCount

namespace Libcando.Shm

open ByteMemory Futex Transition

def ShmCreateInfo.entry (info : ShmCreateInfo) (procIndex : ℕ) : Option ShmProc :=
  if procIndex < info.procCount then some (info.procs procIndex) else none

def udoShmGetData (shm : Option (ShmCreateInfo × Mem)) (procIndex : ℕ) : Option (Option ℕ) :=
  match shm with
  | none => none
  | some (info, m) =>
    if pCheckProcIndex m procIndex then none else some ((info.entry procIndex).map ShmProc.data)

def udoShmGetDataSize (shm : Option (ShmCreateInfo × Mem)) (procIndex : ℕ) : Option (Option ℕ) :=
  match shm with
  | none => none
  | some (info, m) =>
    if pCheckProcIndex m procIndex then none else some ((info.entry procIndex).map ShmProc.dataSz)

structure IndicesValid (info : ShmCreateInfo) (m : Mem) : Prop where
  transfer : ∀ (x x' : Transfer) (turn : Turn) (m' : Mem), x.pc = .check →
    x.step turn info.procs m = some (x', m') → x'.pc = .lock .entry → (info.entry x.info.procIndex).isSome
  getData : ∀ procIndex, udoShmGetData (some (info, m)) procIndex ≠ none → (info.entry procIndex).isSome
  getDataSize : ∀ procIndex, udoShmGetDataSize (some (info, m)) procIndex ≠ none → (info.entry procIndex).isSome

variable {info : ShmCreateInfo} {m : Mem} {procIndex : ℕ}

theorem entry_isSome : (info.entry procIndex).isSome ↔ procIndex < info.procCount := by
  unfold ShmCreateInfo.entry
  split_ifs with h
  · exact iff_of_true rfl h
  · exact iff_of_false nofun h

theorem not_refused_iff : pCheckProcIndex m procIndex = false ↔ procIndex ≤ load m 0 4 := by
  simp [pCheckProcIndex]

theorem indicesValid_iff : IndicesValid info m ↔ load m 0 4 < info.procCount := by
  constructor
  · intro h
    have haccepted := not_refused_iff.mpr (Nat.le_refl (load m 0 4))
    exact entry_isSome.mp (h.getData (load m 0 4) (by simp [udoShmGetData, haccepted]))
  · intro hlt
    have hvalid {procIndex : ℕ} (h : pCheckProcIndex m procIndex = false) : (info.entry procIndex).isSome :=
      entry_isSome.mpr (Nat.lt_of_le_of_lt (not_refused_iff.mp h) hlt)
    constructor
    · intro x x' turn m' hpc hs hpc'
      apply hvalid
      by_contra hrefused
      rw [Bool.not_eq_false] at hrefused
      simp only [Transfer.step, hpc, hrefused, Bool.or_true, if_true, Option.some.injEq, Prod.mk.injEq] at hs
      rw [← hs.1] at hpc'
      cases hpc'
    · intro procIndex h
      apply hvalid
      by_contra hrefused
      simp [udoShmGetData, hrefused] at h
    · intro procIndex h
      apply hvalid
      by_contra hrefused
      simp [udoShmGetDataSize, hrefused] at h

def Context.usable (c : Context) : Bool :=
  match c.pc with
  | .create pc => pc.counts
  | .attached | .transfer _ => true
  | _ => false

def Context.created (c : Context) : Bool :=
  match c.pc with
  | .attached | .transfer _ => true
  | _ => false

namespace World

variable {P : Type*}

/-- An increment leaves the count below the process count of each context on the object, the new one among
them, and a decrement that finds no count to take from finds no context on the object either. -/
def spare (l : P × Act) (w : World P) : Prop :=
  ((w.ctx l.1).creating .addCount = true → ∀ q,
    q = l.1 ∨ ((w.ctx q).usable = true ∧ (w.ctx q).obj = (w.ctx l.1).obj) →
      (w.count l.1 + 1) % 2 ^ 32 < (w.ctx q).info.procCount) ∧
  ((w.ctx l.1).detaching = true → w.count l.1 = 0 →
    ∀ q, (w.ctx q).usable = true → (w.ctx q).obj ≠ (w.ctx l.1).obj)

instance [Fintype P] [DecidableEq P] (l : P × Act) (w : World P) : Decidable (spare l w) :=
  inferInstanceAs (Decidable ((_ → ∀ _, _) ∧ (_ → _ → ∀ _, _)))

def Fits (w : World P) : Prop := ∀ q, (w.ctx q).usable = true → w.count q < (w.ctx q).info.procCount

variable [DecidableEq P] {I : ShmCreateInfo → Prop} {w w' : World P} {p : P} {act : Act}

theorem Step.usable (h : w.Step p act w') (ha : (w.ctx p).pc ≠ .create .addCount)
    (hu : (w'.ctx p).usable = true) :
    (w.ctx p).usable = true ∧ (w'.ctx p).obj = (w.ctx p).obj ∧ (w'.ctx p).info = (w.ctx p).info := by
  cases h with
  | move act c hc =>
    simp only [put_ctx, Function.update_self] at hu ⊢
    cases hc with
    | ready i hpc hi => exact ⟨by simp [Context.usable, hpc, CreatePc.counts], rfl, rfl⟩
    | call x hpc hx ht | «return» x ret hpc hx | skip x pc ret hpc hx => exact ⟨by simp [Context.usable, hpc], rfl, rfl⟩
    | _ => cases hu
  | attach turn hpc => exact absurd hpc ha
  | initRead turn i hpc hi | initWrite turn i hpc => simp [Context.usable, hpc, CreatePc.counts]
  | transfer turn x x' m' hpc hi hs => simp [Context.usable, hpc]
  | _ => simp [Context.usable, CreatePc.counts] at hu

omit [DecidableEq P] in
theorem usable_cases (hw : w.Sane I) {q : P} (hu : (w.ctx q).usable = true) :
    I (w.ctx q).info ∧ (w.ctx q).counted = true := by
  have hwf := hw.wf q
  unfold Context.usable at hu
  unfold Context.WF at hwf
  cases hpc : (w.ctx q).pc with
  | create pc =>
    rw [hpc] at hu hwf
    exact ⟨hwf.1, hwf.2.trans hu⟩
  | attached => rw [hpc] at hwf; exact hwf
  | transfer x => rw [hpc] at hwf; exact ⟨hwf.1, hwf.2.1⟩
  | _ => rw [hpc] at hu; cases hu

omit [DecidableEq P] in
theorem usable_bound (hw : w.Sane I) {q : P} (hu : (w.ctx q).usable = true) : (w.ctx q).obj < w.next :=
  hw.bound q (by simp [Context.bound, (usable_cases hw hu).2])

theorem creating_iff {c : Context} {pc : CreatePc} : c.creating pc = true ↔ c.pc = .create pc := by
  unfold Context.creating
  cases c.pc <;> simp

theorem detaching_iff {c : Context} : c.detaching = true ↔ c.pc = .destroy .subCount := by
  unfold Context.detaching
  constructor
  · intro h
    split at h
    · assumption
    · cases h
  · intro h
    rw [h]

theorem Step.attach_usable (h : w.Step p act w') (hpc : (w.ctx p).pc = .create .addCount) :
    (w'.ctx p).usable = true := by
  cases h with
  | attach turn h => simp [Context.usable, CreatePc.counts]
  | move act c h => cases h <;> simp_all
  | _ => simp_all

theorem Step.keeps_info (h : w.Step p act w') (hpc : (w.ctx p).pc ≠ .none) : (w'.ctx p).info = (w.ctx p).info := by
  cases h with
  | accept info hnone hi => exact absurd hnone hpc
  | move act c hc =>
    simp only [put_ctx, Function.update_self]
    cases hc <;> rfl
  | _ => simp

omit [DecidableEq P] in
theorem recount {v : ℕ} (hobjs : w'.objs = (w.setMem p (store (w.mem p) 0 4 v)).objs) (hv : v < 256 ^ 4) {q : P}
    (hq : (w'.ctx q).obj = (w.ctx q).obj) :
    w'.count q = if (w.ctx q).obj = (w.ctx p).obj then v else w.count q := by
  rw [count, mem, hq, hobjs, setMem_mem]
  split_ifs
  · exact load_store_of_lt hv
  · rfl

theorem Fits.attach (hw : w.Fits) (h : w.Step p act w') (hok : spare (p, act) w)
    (hpc : (w.ctx p).pc = .create .addCount) : w'.Fits := by
  have hroom := hok.1 (by simp [Context.creating, hpc])
  obtain ⟨-, hobj, hobjs⟩ := h.at_addCount hpc
  intro q hu
  by_cases hq : q = p
  · subst hq
    rw [recount hobjs (Nat.mod_lt _ (by decide)) hobj, if_pos rfl, h.keeps_info (by simp [hpc])]
    exact hroom q (.inl rfl)
  · have hctx := h.others hq
    rw [hctx] at hu ⊢
    rw [recount hobjs (Nat.mod_lt _ (by decide)) (by rw [hctx])]
    split_ifs with hsame
    · exact hroom q (.inr ⟨hu, hsame⟩)
    · exact hw q hu

theorem Fits.detach (hw : w.Fits) (h : w.Step p act w') (hok : spare (p, act) w)
    (hpc : (w.ctx p).pc = .destroy .subCount) : w'.Fits := by
  have hnone := hok.2 (by simp [Context.detaching, hpc])
  obtain ⟨value, hv, hpc', -, hobjs⟩ := h.at_subCount hpc
  intro q hu
  have hq : q ≠ p := by
    rintro rfl
    simp [Context.usable, hpc'] at hu
  have hctx := h.others hq
  rw [hctx] at hu ⊢
  have hlt : w.count p < 256 ^ 4 := load_lt _ _ _
  rw [recount hobjs (by omega) (by rw [hctx])]
  have hfit := hw q hu
  split_ifs with hsame
  · have hcount : w.count q = w.count p := by rw [count, mem, hsame]; rfl
    have hpos : w.count p ≠ 0 := fun hzero => hnone hzero q hu hsame
    rw [hcount] at hfit
    omega
  · exact hfit

theorem Fits.step (hw : w.Fits) (hsane : w.Sane I) (hI : ∀ info, I info → info.Accepted) (h : w.Step p act w')
    (hok : spare (p, act) w) : w'.Fits := by
  by_cases ha : (w.ctx p).pc = .create .addCount
  · exact hw.attach h hok ha
  by_cases hd : (w.ctx p).pc = .destroy .subCount
  · exact hw.detach h hok hd
  intro q hu
  obtain ⟨hu₀, hobj, hinfo⟩ : (w.ctx q).usable = true ∧ (w'.ctx q).obj = (w.ctx q).obj ∧
      (w'.ctx q).info = (w.ctx q).info := by
    by_cases hq : q = p
    · subst hq
      exact h.usable ha hu
    · rw [h.others hq] at hu ⊢
      exact ⟨hu, rfl, rfl⟩
  have hbound := usable_bound hsane hu₀
  have hfit := hw q hu₀
  have hle : w'.count q ≤ w.count q := by
    rw [count, mem, hobj]
    rcases h.count_cases hsane hI (w.ctx q).obj with hsame | ⟨hfresh, -⟩ | ⟨-, hpc | hpc⟩ | ⟨-, -, -, hcut⟩
    · exact Nat.le_of_eq hsame
    · exact absurd hfresh (Nat.ne_of_lt hbound)
    · exact absurd hpc ha
    · exact absurd hpc hd
    · rw [hcut]
      exact Object.ftruncate_count_le _ _
  rw [hinfo]
  exact Nat.lt_of_le_of_lt hle hfit

theorem fits_reach (h : Reach (system P) spare w) : w.Sane ShmCreateInfo.Accepted ∧ w.Fits := by
  apply h.invariant (I := fun w => w.Sane ShmCreateInfo.Accepted ∧ w.Fits)
  · rintro w rfl
    exact ⟨sane_initial, nofun⟩
  · rintro w w' ⟨p, act⟩ ⟨hsane, hfits⟩ hok hs
    have hstep := step_cases hs
    exact ⟨hsane.step hstep fun _ _ hi => hi, hfits.step hsane (fun _ hi => hi) hstep hok⟩

omit [DecidableEq P] in
theorem usable_of_created {c : Context} (h : c.created = true) : c.usable = true := by
  unfold Context.created at h
  unfold Context.usable
  cases hpc : c.pc <;> simp_all

theorem fits_step_iff {l : P × Act} (h : Reach (system P) spare w) (hs : World.step l w = some w') :
    w'.Fits ↔ spare l w := by
  obtain ⟨p, act⟩ := l
  obtain ⟨hsane, hfits⟩ := fits_reach h
  have hstep := step_cases hs
  constructor
  · intro hfits'
    constructor
    · intro hcreating q hq
      have hpc := creating_iff.mp hcreating
      obtain ⟨-, hobj, hobjs⟩ := hstep.at_addCount hpc
      rcases hq with rfl | ⟨hu, hsame⟩
      · have hlt := hfits' _ (hstep.attach_usable hpc)
        rwa [recount hobjs (Nat.mod_lt _ (by decide)) hobj, if_pos rfl, hstep.keeps_info (by simp [hpc])] at hlt
      · have hq : q ≠ p := by
          rintro rfl
          simp [Context.usable, hpc, CreatePc.counts] at hu
        have hctx := hstep.others hq
        have hlt := hfits' q (hctx ▸ hu)
        rwa [recount hobjs (Nat.mod_lt _ (by decide)) (by rw [hctx]), if_pos hsame, hctx] at hlt
    · intro hdetaching hzero q hu hsame
      have hpc := detaching_iff.mp hdetaching
      obtain ⟨value, hv, -, -, hobjs⟩ := hstep.at_subCount hpc
      have hq : q ≠ p := by
        rintro rfl
        simp [Context.usable, hpc] at hu
      have hctx := hstep.others hq
      have hlt := hfits' q (hctx ▸ hu)
      rw [recount hobjs (by omega) (by rw [hctx]), if_pos hsame, hctx] at hlt
      have hsmall := (usable_cases hsane hu).1.count_lt
      dsimp only at hzero
      omega
  · exact hfits.step hsane (fun _ hi => hi) hstep

theorem accepted_indices_valid (h : Reach (system P) spare w) (hp : (w.ctx p).created = true) :
    IndicesValid (w.ctx p).info (w.mem p) :=
  indicesValid_iff.mpr ((fits_reach h).2 p (usable_of_created hp))

theorem accepted_indices_valid_two : ∃ w : World (Fin 2), (w.ctx 0).created = true ∧ (w.ctx 1).created = true ∧
    w.count 0 = 2 ∧ IndicesValid (w.ctx 0).info (w.mem 0) := by
  obtain ⟨w, hw, hcreated, hcreated', hcount⟩ := exists_of_run (system (Fin 2)) spare (.init rfl)
    ((0, .create (onePage 3)) :: (1, .create (onePage 3)) :: List.replicate 12 (0, .tick .plain) ++
      List.replicate 12 (1, .tick .plain))
    (fun w => (w.ctx 0).created = true ∧ (w.ctx 1).created = true ∧ w.count 0 = 2) (by decide +kernel)
  exact ⟨w, hcreated, hcreated', hcount, accepted_indices_valid hw hcreated⟩

theorem accepted_index_invalid : ¬ ∀ (w : World (Fin 2)) (p : Fin 2), Reach (system (Fin 2)) (fun _ _ => True) w →
    (w.ctx p).created = true → IndicesValid (w.ctx p).info (w.mem p) := by
  intro valid
  obtain ⟨w, hw, hcreated, hcount, hinfo⟩ := exists_of_run (system (Fin 2)) (fun _ _ => True) (.init rfl)
    ((0, .create (onePage 2)) :: (1, .create (onePage 2)) :: List.replicate 10 (0, .tick .plain) ++
      List.replicate 10 (1, .tick .plain))
    (fun w => (w.ctx 0).created = true ∧ w.count 0 = 2 ∧ (w.ctx 0).info.procCount = 2) (by decide +kernel)
  have hlt : w.count 0 < (w.ctx 0).info.procCount := indicesValid_iff.mp (valid w 0 hw hcreated)
  omega

end World

end Libcando.Shm
