import Libcando.ShmSane

namespace Libcando.Shm

open ByteMemory Futex Transition

theorem Transfer.Step.count {info : ShmCreateInfo} (hinfo : info.Accepted) {x x' : Transfer} {m m' : Mem}
    (h : x.Step info.procs m x' m') (hx : x.Indexed info.procCount)
    (hi : ∀ pc, x.pc = .lock pc → x.info.procIndex < info.procCount) : load m' 0 4 = load m 0 4 := by
  unfold Indexed at hx
  have placed (hlt : x.info.procIndex < info.procCount) :
      4 ≤ x.ownFux info.procs ∧ 4 ≤ x.otherFux info.procs ∧ 4 ≤ x.data info.procs := by
    obtain ⟨hrd, hwr, hdata⟩ := ShmCreateInfo.procs_placed hinfo hlt
    unfold ownFux otherFux data
    cases x.dir <;> (dsimp only; omega)
  cases h with
  | acquire pc hpc hw => exact load_store_disjoint (.inl (placed (hi pc hpc)).1)
  | write s hpc hd hs | clear s hpc =>
    rw [hpc] at hx
    exact load_store_disjoint (.inl (by have := (placed hx).2.2; omega))
  | release value hpc => rw [hpc] at hx; exact load_store_disjoint (.inl (placed hx).2.1)
  | _ => rfl

namespace World

variable {P : Type*} [Fintype P]

def Act.ticks : Act → Bool
  | .tick _ => true
  | _ => false

/-- The count fits in the bytes that `ftruncate` leaves of the object. -/
def uncut {P : Type*} (w : World P) (p : P) : Prop :=
  (w.ctx p).info.shmSize = (w.objs (w.ctx p).obj).len ∨
    w.count p < 256 ^ min (w.ctx p).info.shmSize (w.objs (w.ctx p).obj).len

def attachedTo (w : World P) (o : ℕ) : ℕ :=
  (Finset.univ.filter fun q => (w.ctx q).counted = true ∧ (w.ctx q).obj = o).card

structure Counting (I : ShmCreateInfo → Prop) (n : ℕ) (w : World P) : Prop extends w.Sane I where
  exact : ∀ o, load (w.objs o).mem 0 4 = w.attachedTo o
  bounded : ∀ o, w.attachedTo o ≤ n
  detaching : ∀ q, (w.ctx q).pc = .destroy .subCount → (w.ctx q).counted = true

variable {I : ShmCreateInfo → Prop} {n : ℕ} {w w' : World P} {p : P} {act : Act}

theorem attachedTo_pos {q : P} (h : (w.ctx q).counted = true) : 0 < w.attachedTo (w.ctx q).obj :=
  Finset.card_pos.mpr ⟨q, by simp [h]⟩

theorem attachedTo_zero {o : ℕ} (h : w.attachedTo o = 0) {q : P} (hq : (w.ctx q).counted = true) :
    (w.ctx q).obj ≠ o := by
  rintro rfl
  have := attachedTo_pos hq
  omega

theorem Counting.count_eq (hw : w.Counting I n) : w.count p = w.attachedTo (w.ctx p).obj := hw.exact _

theorem Counting.attachedTo_next (hw : w.Counting I n) : w.attachedTo w.next = 0 := by
  apply Finset.card_eq_zero.mpr
  apply Finset.filter_eq_empty_iff.mpr
  rintro q - ⟨hq, hobj⟩
  have := hw.bound q (by simp [Context.bound, hq])
  omega

theorem counting_initial : ({} : World P).Counting I n :=
  ⟨sane_initial, fun _ => by simp [attachedTo, load], fun _ => by simp [attachedTo], nofun⟩

theorem Counting.uncut (hw : w.Counting I n) (hI : ∀ info, I info → info.Accepted) (hn : n < 256)
    (hpc : (w.ctx p).pc = .create .ftruncate) : w.uncut p := by
  have hwf := hw.wf p
  rw [Context.WF, hpc] at hwf
  have hsize := (hI _ hwf.1).size_pos
  have hbound := hw.bounded (w.ctx p).obj
  right
  rw [hw.count_eq]
  rcases Nat.eq_zero_or_pos (w.objs (w.ctx p).obj).len with hlen | hlen
  · have hnone : w.attachedTo (w.ctx p).obj = 0 := by
      apply Finset.card_eq_zero.mpr
      apply Finset.filter_eq_empty_iff.mpr
      rintro q - ⟨hq, hobj⟩
      obtain ⟨info, hi, hl⟩ := hw.sized q (by simp [Context.sized, hq])
      have := (hI info hi).size_pos
      rw [hobj] at hl
      omega
    rw [hnone]
    exact Nat.pow_pos (by omega)
  · calc w.attachedTo (w.ctx p).obj < 256 ^ 1 := by omega
      _ ≤ 256 ^ min (w.ctx p).info.shmSize (w.objs (w.ctx p).obj).len :=
        Nat.pow_le_pow_right (by omega) (by omega)

variable [DecidableEq P]

theorem attachedTo_update {c : Context} (h : w'.ctx = Function.update w.ctx p c) (o : ℕ) :
    w'.attachedTo o + (if (w.ctx p).counted = true ∧ (w.ctx p).obj = o then 1 else 0) =
      w.attachedTo o + (if c.counted = true ∧ c.obj = o then 1 else 0) := by
  simp only [attachedTo, h]
  exact card_update (fun c : Context => c.counted = true ∧ c.obj = o) w.ctx p c

theorem attachedTo_keep {c : Context} (h : w'.ctx = Function.update w.ctx p c)
    (hc : c.counted = (w.ctx p).counted) (ho : c.counted = true → c.obj = (w.ctx p).obj) (o : ℕ) :
    w'.attachedTo o = w.attachedTo o := by
  have hu := attachedTo_update h o
  cases hcount : c.counted with
  | false => simpa [← hc, hcount] using hu
  | true => simpa [← hc, hcount, ho hcount] using hu

omit [Fintype P] in
theorem Step.count_cases (h : w.Step p act w') (hw : w.Sane I) (hI : ∀ info, I info → info.Accepted) (o : ℕ) :
    load (w'.objs o).mem 0 4 = load (w.objs o).mem 0 4 ∨ (o = w.next ∧ load (w'.objs o).mem 0 4 = 0) ∨
      (o = (w.ctx p).obj ∧
        ((w.ctx p).pc = .create .addCount ∨ (w.ctx p).pc = .destroy .subCount)) ∨
      (o = (w.ctx p).obj ∧ (w.ctx p).pc = .create .ftruncate ∧ act.ticks = true ∧
        w'.objs o = (w.objs o).ftruncate (w.ctx p).info.shmSize) := by
  have hwf := hw.wf p
  unfold Context.WF at hwf
  have own {m : Mem} (hm : load m 0 4 = w.count p) :
      load ((w.setMem p m).objs o).mem 0 4 = load (w.objs o).mem 0 4 := by
    rw [setMem_mem]
    split_ifs with ho
    · subst ho; exact hm
    · rfl
  cases h with
  | move act c hc | accept info hpc hi | openBound turn o hpc hn => exact .inl rfl
  | unlink turn value hpc => exact .inl rfl
  | openFresh turn hpc hname =>
    by_cases ho : o = w.next
    · subst ho; exact .inr (.inl ⟨rfl, by simp [load]⟩)
    · simp [ho]
  | truncate turn hpc =>
    by_cases ho : o = (w.ctx p).obj
    · subst ho
      exact .inr (.inr (.inr ⟨rfl, hpc, rfl, by simp only [goto_objs, ftruncate, Function.update_self]⟩))
    · simp only [goto_objs, ftruncate, Function.update_of_ne ho, true_or]
  | attach turn hpc | decrement turn value hpc hv =>
    by_cases ho : o = (w.ctx p).obj
    · exact .inr (.inr (.inl ⟨ho, by simp [hpc]⟩))
    · simp [setMem_mem, ho]
  | initRead turn i hpc hi =>
    rw [hpc] at hwf
    obtain ⟨hrd, -⟩ := ShmCreateInfo.procs_placed (hI _ hwf.1) hi
    exact .inl (own (load_compareExchange (.inl (by omega))))
  | initWrite turn i hpc => exact .inl (own (by rw [compareExchange_same]; rfl))
  | transfer turn x x' m' hpc hi hs =>
    rw [hpc] at hwf
    exact .inl (own (hs.count (hI _ hwf.1) hwf.2.2.2 hi))

theorem Step.counts (h : w.Step p act w') (hw : w.Counting I n) (hI : ∀ info, I info → info.Accepted)
    (hcut : (w.ctx p).pc = .create .ftruncate → act.ticks = true → w.uncut p) (o : ℕ) :
    load (w'.objs o).mem 0 4 = load (w.objs o).mem 0 4 ∨ (o = w.next ∧ load (w'.objs o).mem 0 4 = 0) ∨
      (o = (w.ctx p).obj ∧
        ((w.ctx p).pc = .create .addCount ∨ (w.ctx p).pc = .destroy .subCount)) := by
  rcases h.count_cases hw.toSane hI o with hsame | hfresh | hcount | ⟨rfl, hpc, hticks, hobj⟩
  · exact .inl hsame
  · exact .inr (.inl hfresh)
  · exact .inr (.inr hcount)
  · left
    rw [hobj]
    exact Object.ftruncate_count (hcut hpc hticks)

theorem Counting.attach (hw : w.Counting I n) (h : w.Step p act w') (hn : n < 2 ^ 32)
    (hpc : (w.ctx p).pc = .create .addCount) (hfit : w.count p < n) (o : ℕ) :
    load (w'.objs o).mem 0 4 = w'.attachedTo o ∧ w'.attachedTo o ≤ n := by
  obtain ⟨hc, ho, hobjs⟩ := h.at_addCount hpc
  have hwf := hw.wf p
  rw [Context.WF, hpc] at hwf
  have hu := attachedTo_update h.ctx o
  have hcount := hw.exact o
  have hle := hw.bounded o
  simp only [hwf.2, CreatePc.counts, Bool.false_eq_true, false_and, ite_false, hc, ho, true_and, add_zero] at hu
  rw [hobjs, setMem_mem]
  by_cases hobj : (w.ctx p).obj = o
  · subst hobj
    rw [if_pos rfl] at hu
    rw [if_pos rfl, Nat.mod_eq_of_lt (by omega), load_store_of_lt (by omega), hu]
    rw [hw.count_eq] at hfit ⊢
    omega
  · rw [if_neg hobj] at hu
    rw [if_neg (Ne.symm hobj)]
    omega

theorem Counting.detach (hw : w.Counting I n) (h : w.Step p act w') (hn : n < 2 ^ 32)
    (hpc : (w.ctx p).pc = .destroy .subCount) (o : ℕ) :
    load (w'.objs o).mem 0 4 = w'.attachedTo o ∧ w'.attachedTo o ≤ n := by
  obtain ⟨value, hv, -, hc, hobjs⟩ := h.at_subCount hpc
  have hu := attachedTo_update h.ctx o
  have hcount := hw.exact o
  have hle := hw.bounded o
  simp only [hw.detaching p hpc, hc, true_and, Bool.false_eq_true, false_and, ite_false, add_zero] at hu
  rw [hobjs, setMem_mem]
  by_cases hobj : (w.ctx p).obj = o
  · subst hobj
    rw [if_pos rfl] at hu
    rw [hw.count_eq] at hv
    rw [if_pos rfl, load_store_of_lt (by omega)]
    omega
  · rw [if_neg hobj] at hu
    rw [if_neg (Ne.symm hobj)]
    omega

theorem Counting.step (hw : w.Counting I n) (h : w.Step p act w') (hn : n < 2 ^ 32)
    (hcut : (w.ctx p).pc = .create .ftruncate → act.ticks = true → w.uncut p)
    (hA : ∀ info, I info → info.Accepted)
    (hI : ∀ info, act = .create (some info) → info.Accepted → I info)
    (hroom : (w.ctx p).pc = .create .loadCount → w.count p < (w.ctx p).info.procCount)
    (hfit : (w.ctx p).pc = .create .addCount → w.count p < n) : w'.Counting I n := by
  have hcounts := h.counts hw hA hcut
  have hboth (o : ℕ) : load (w'.objs o).mem 0 4 = w'.attachedTo o ∧ w'.attachedTo o ≤ n := by
    by_cases ha : (w.ctx p).pc = .create .addCount
    · exact hw.attach h hn ha (hfit ha) o
    by_cases hd : (w.ctx p).pc = .destroy .subCount
    · exact hw.detach h hn hd o
    obtain ⟨hc, ho⟩ := h.counted hw.toSane ha hd
    rw [attachedTo_keep h.ctx hc ho]
    refine ⟨?_, hw.bounded o⟩
    rcases hcounts o with hl | ⟨rfl, hl⟩ | ⟨-, hpc | hpc⟩
    · rw [hl]; exact hw.exact o
    · rw [hl, hw.attachedTo_next]
    · exact absurd hpc ha
    · exact absurd hpc hd
  have hdetaching (q : P) (hq : (w'.ctx q).pc = .destroy .subCount) : (w'.ctx q).counted = true := by
    by_cases hqp : q = p
    · subst hqp
      have hwf := hw.wf q
      cases h with
      | move act c hc =>
        simp only [put_ctx, Function.update_self] at hq ⊢
        cases hc with
        | full hpc hfull => have := hroom hpc; omega
        | detach hpc => rw [Context.WF, hpc] at hwf; exact hwf.2
        | _ => cases hq
      | _ => simp at hq
    · rw [h.others hqp] at hq ⊢
      exact hw.detaching q hq
  constructor
  · exact hw.toSane.step h hI
  · intro o
    exact (hboth o).1
  · intro o
    exact (hboth o).2
  · exact hdetaching

end World

end Libcando.Shm
