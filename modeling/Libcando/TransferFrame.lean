import Libcando.ShmPlacement
import Libcando.TransferOutcome

namespace Libcando.Shm

open ByteMemory Futex Tiling

namespace Transfer

def Stores (procs : ℕ → ShmProc) (x : Transfer) (a : ℕ) : Prop :=
  ∃ turn m x' m', x.step turn procs m = some (x', m') ∧ m' a ≠ m a

def Fills (procs : ℕ → ShmProc) (x : Transfer) (i : ℕ) : Prop :=
  ∃ turn m x' m', x.step turn procs m = some (x', m') ∧ x'.buf i ≠ x.buf i

def Uses (procs : ℕ → ShmProc) (x : Transfer) (i : ℕ) : Prop :=
  ∃ turn m b x' m' y' n', x.step turn procs m = some (x', m') ∧
    step turn procs { x with buf := Function.update x.buf i b } m = some (y', n') ∧ (x'.pc, m') ≠ (y'.pc, n')

def Touches (procs : ℕ → ShmProc) (x : Transfer) (i : ℕ) : Prop :=
  match x.dir with
  | .read => x.Fills procs i
  | .write => x.Uses procs i

def futexes (x : Transfer) (procs : ℕ → ShmProc) : List Block := (procs x.info.procIndex).futexes

variable {procs : ℕ → ShmProc} {x x' : Transfer} {m m' : Mem} {turn : Turn} {a i s : ℕ}

theorem other_byte (b : UInt8) : b + 1 ≠ b := by
  intro h
  have hone : b + 1 = b + 0 := by rw [h, UInt8.add_zero]
  exact absurd ((UInt8.add_right_inj b).mp hone) (by decide)

theorem ownFux_mem (x : Transfer) (procs : ℕ → ShmProc) : ⟨x.ownFux procs, 4⟩ ∈ x.futexes procs := by
  unfold ownFux futexes ShmProc.futexes
  cases x.dir <;> simp

theorem otherFux_mem (x : Transfer) (procs : ℕ → ShmProc) : ⟨x.otherFux procs, 4⟩ ∈ x.futexes procs := by
  unfold otherFux futexes ShmProc.futexes
  cases x.dir <;> simp

theorem has_of_store_ne {m : Mem} {a n v b : ℕ} (h : store m a n v b ≠ m b) : (Block.mk a n).Has b := by
  by_contra hout
  simp only [Block.Has, Block.stop] at hout
  exact h (store_outside (by omega))

theorem Stores.cases (h : x.Stores procs a) : (∃ r ∈ x.futexes procs, r.Has a) ∨
    (∃ s, x.pc = .copy s ∧ s < x.info.size ∧ x.dir = .write ∧ (Block.mk (x.data procs + s) 4).Has a) ∨
    ∃ s, x.pc = .clear s ∧ a = x.data procs + s := by
  obtain ⟨turn, m, x', m', hs, hne⟩ := h
  cases step_cases hs with
  | acquire pc hpc hw => exact .inl ⟨_, x.ownFux_mem procs, has_of_store_ne hne⟩
  | release value hpc => exact .inl ⟨_, x.otherFux_mem procs, has_of_store_ne hne⟩
  | write s hpc hdir hlt => exact .inr (.inl ⟨s, hpc, hlt, hdir, has_of_store_ne hne⟩)
  | clear s hpc =>
    have hhas := has_of_store_ne hne
    simp only [Block.Has, Block.stop] at hhas
    exact .inr (.inr ⟨s, hpc, by omega⟩)
  | _ => exact absurd rfl hne

theorem step_read (hpc : x.pc = .copy s) (hlt : s < x.info.size) (hdir : x.dir = .read) :
    x.step turn procs m = some ({ x with pc := .clear s, buf := readWord (x.data procs) s x.buf m }, m) := by
  simp only [step, hpc, if_pos hlt, hdir]

theorem step_write (hpc : x.pc = .copy s) (hlt : s < x.info.size) (hdir : x.dir = .write) :
    x.step turn procs m = some ({ x with pc := .copy (s + 4) }, writeWord (x.data procs) s x.buf m) := by
  simp only [step, hpc, if_pos hlt, hdir]

theorem step_clear (hpc : x.pc = .clear s) :
    x.step turn procs m = some ({ x with pc := .copy (s + 4) }, atomicClear m (x.data procs + s)) := by
  simp only [step, hpc]

theorem stores_copied (hpc : x.pc = .copy s) (hlt : s < x.info.size) (hdir : x.dir = .write)
    (hs : s ≤ i) (hi : i < s + 4) : x.Stores procs (x.data procs + i) := by
  refine ⟨.plain, fun _ => x.buf i + 1, _, _, step_write hpc hlt hdir, ?_⟩
  rw [writeWord_at _ _ _ hs hi]
  exact (other_byte _).symm

theorem stores_cleared (hpc : x.pc = .clear s) : x.Stores procs (x.data procs + s) := by
  refine ⟨.plain, fun _ => 1, _, _, step_clear hpc, ?_⟩
  simp [atomicClear, store]

theorem step_update (hpc : ∀ s, x.pc = .copy s → x.info.size ≤ s) (b : Mem) (hs : x.step turn procs m = some (x', m')) :
    step turn procs { x with buf := b } m = some ({ x' with buf := b }, m') := by
  cases hx : x.pc with
  | check =>
    simp only [step, hx] at hs ⊢
    split_ifs at hs ⊢
    · cases hs; rfl
    · cases hs; rfl
  | lock pc =>
    simp only [step, hx] at hs ⊢
    obtain ⟨⟨out, word, errno⟩, hout, hr⟩ := Option.map_eq_some_iff.mp hs
    change Option.map _ (udoFutexLock turn pc (load m (x.ownFux procs) 4) x.errno) = _
    rw [hout]
    cases out <;> cases hr <;> rfl
  | errnoCheck =>
    simp only [step, hx] at hs ⊢
    split_ifs at hs ⊢
    · cases hs; rfl
    · cases hs; rfl
  | copy s =>
    have hend := Nat.not_lt_of_le (hpc s hx)
    simp only [step, hx, if_neg hend] at hs ⊢
    cases hs
    rfl
  | clear s => simp only [step, hx] at hs ⊢; cases hs; rfl
  | unlock pc => cases pc <;> simp only [step, hx] at hs ⊢ <;> cases hs <;> rfl
  | done ret => simp only [step, hx] at hs; cases hs

theorem fills_iff (hdir : x.dir = .read) :
    x.Fills procs i ↔ ∃ s, x.pc = .copy s ∧ s < x.info.size ∧ (Block.mk s 4).Has i := by
  constructor
  · rintro ⟨turn, m, x', m', hs, hne⟩
    cases step_cases hs with
    | read s hpc hdir hlt => exact ⟨s, hpc, hlt, has_of_store_ne hne⟩
    | _ => exact absurd rfl hne
  · rintro ⟨s, hpc, hlt, hlow, hhigh⟩
    simp only [Block.stop] at hlow hhigh
    refine ⟨.plain, fun _ => x.buf i + 1, _, _, step_read hpc hlt hdir, ?_⟩
    exact ne_of_eq_of_ne (readWord_at _ _ _ hlow hhigh) (other_byte _)

theorem uses_iff (hdir : x.dir = .write) :
    x.Uses procs i ↔ ∃ s, x.pc = .copy s ∧ s < x.info.size ∧ (Block.mk s 4).Has i := by
  constructor
  · rintro ⟨turn, m, b, x', m', y', n', hs, hs', hne⟩
    by_cases hcopy : ∃ s, x.pc = .copy s ∧ s < x.info.size
    · obtain ⟨s, hpc, hlt⟩ := hcopy
      refine ⟨s, hpc, hlt, ?_⟩
      rw [step_write hpc hlt hdir] at hs
      rw [step_write (by exact hpc) (by exact hlt) (by exact hdir)] at hs'
      cases hs
      cases hs'
      by_contra hout
      apply hne
      simp only [Block.Has, Block.stop] at hout
      have hload : load x.buf s 4 = load (Function.update x.buf i b) s 4 := by
        apply load_congr
        intro j hj hj'
        exact (Function.update_of_ne (by omega) _ _).symm
      simp only [writeWord, hload]
      rfl
    · have hpc : ∀ s, x.pc = .copy s → x.info.size ≤ s := by
        intro s hpc
        exact Nat.le_of_not_lt fun hlt => hcopy ⟨s, hpc, hlt⟩
      rw [step_update hpc _ hs] at hs'
      cases hs'
      exact absurd rfl hne
  · rintro ⟨s, hpc, hlt, hlow, hhigh⟩
    simp only [Block.stop] at hlow hhigh
    refine ⟨.plain, fun _ => 0, x.buf i + 1, _, _, _, _, step_write hpc hlt hdir, step_write hpc hlt hdir, ?_⟩
    intro heq
    have hbyte := congrFun (congrArg Prod.snd heq) (x.data procs + i)
    have hkept := writeWord_at (x.data procs) x.buf (fun _ => 0) hlow hhigh
    have hupdated := writeWord_at (x.data procs) (Function.update x.buf i (x.buf i + 1)) (fun _ => 0) hlow hhigh
    rw [Function.update_self] at hupdated
    exact other_byte _ (hupdated.symm.trans (hbyte.symm.trans hkept))

theorem touches_iff : x.Touches procs i ↔ ∃ s, x.pc = .copy s ∧ s < x.info.size ∧ (Block.mk s 4).Has i := by
  unfold Touches
  cases hdir : x.dir with
  | read => exact fills_iff hdir
  | write => exact uses_iff hdir

end Transfer

structure Confined (info : ShmCreateInfo) (x : Transfer) (vs : List Move) : Prop where
  buffer : ∀ i, (∃ v ∈ vs, v.before.Touches info.procs i) ↔ i < x.info.size
  stored : x.dir = .write → ∀ i < x.info.size, ∃ v ∈ vs, v.before.Stores info.procs (x.data info.procs + i)
  inside : ∀ v ∈ vs, ∀ a, v.before.Stores info.procs a → (∃ r ∈ x.futexes info.procs, r.Has a) ∨
    a < x.data info.procs + x.info.size ∧ (info.procs x.info.procIndex).region.Has a
  others : ∀ v ∈ vs, ∀ q < info.procCount, q ≠ x.info.procIndex →
    ∀ r ∈ (info.procs q).parts, ∀ a, r.Has a → v.mem' a = v.mem a
  count : ∀ v ∈ vs, ∀ a < 4, v.mem' a = v.mem a

section Run

variable {procs : ℕ → ShmProc} {x₀ x : Transfer} {vs : List Move} {v : Move} {m : Mem} {s : ℕ}

structure Move.Of (procs : ℕ → ShmProc) (x₀ : Transfer) (v : Move) : Prop where
  dir : v.before.dir = x₀.dir
  info : v.before.info = x₀.info
  step : ∃ turn, v.before.step turn procs v.mem = some (v.after, v.mem')

theorem callRun_of (h₀ : x₀.pc = .check ∧ x₀.took = false) (h : CallRun procs x₀ vs x m) :
    ∀ v ∈ vs, v.Of procs x₀ := by
  induction h with
  | entry m => simp
  | @own vs x x' m m' turn hrun hstep ih =>
    intro v hv
    rcases List.mem_append.mp hv with hv | hv
    · exact ih v hv
    · obtain rfl := List.mem_singleton.mp hv
      have hs := callRun_state h₀ hrun
      exact ⟨hs.dir, hs.info, turn, hstep⟩
  | others m' hrun ih => exact ih

theorem Move.Of.stores (hv : v.Of procs x₀) {a : ℕ} (hne : v.mem' a ≠ v.mem a) : v.before.Stores procs a := by
  obtain ⟨turn, hstep⟩ := hv.step
  exact ⟨turn, _, _, _, hstep, hne⟩

theorem Move.label_iff : (v.label = some (.copied s) ↔ v.before.pc = .copy s ∧ s < v.before.info.size) ∧
    (v.label = some (.cleared s) ↔ v.before.pc = .clear s) := by
  unfold Move.label
  cases hpc : v.before.pc with
  | lock pc => split_ifs <;> simp
  | copy k =>
    by_cases hlt : k < v.before.info.size
    · simp only [if_pos hlt, Option.some.injEq, Effect.copied.injEq, TransferPc.copy.injEq, reduceCtorEq, and_true]
      exact ⟨fun h => ⟨h, h ▸ hlt⟩, fun h => h.1⟩
    · simp only [if_neg hlt, TransferPc.copy.injEq, reduceCtorEq, false_iff, and_true]
      rintro ⟨rfl, h⟩
      exact hlt h
  | clear k => simp
  | unlock pc => cases pc <;> simp
  | _ => simp

theorem mem_copies {dir : Dir} {k : ℕ} : .copied s ∈ copies dir k ↔ ∃ j < k, s = 4 * j := by
  induction k with
  | zero => simp [copies]
  | succ k ih =>
    have hlast : .copied s ∈ copies dir (k + 1) ↔ .copied s ∈ copies dir k ∨ s = 4 * k := by
      cases dir <;> simp [copies]
    rw [hlast, ih]
    constructor
    · rintro (⟨j, hj, rfl⟩ | rfl)
      · exact ⟨j, Nat.lt_succ_of_lt hj, rfl⟩
      · exact ⟨k, Nat.lt_succ_self k, rfl⟩
    · rintro ⟨j, hj, rfl⟩
      rcases Nat.lt_succ_iff_lt_or_eq.mp hj with hlt | rfl
      · exact .inl ⟨j, hlt, rfl⟩
      · exact .inr rfl

theorem mem_copies_cleared {dir : Dir} {k : ℕ} :
    .cleared s ∈ copies dir k ↔ dir = .read ∧ .copied s ∈ copies dir k := by
  induction k with
  | zero => simp [copies]
  | succ k ih =>
    cases dir with
    | read => simp_all [copies]
    | write => simp_all [copies]

theorem copied_complete : .copied s ∈ complete x₀ ↔ 4 ∣ s ∧ s < x₀.info.size := by
  simp only [complete, List.cons_append, List.mem_cons, reduceCtorEq, List.mem_append, mem_copies, List.not_mem_nil,
    or_false, false_or]
  constructor
  · rintro ⟨j, hj, rfl⟩
    exact ⟨Nat.dvd_mul_right 4 j, by omega⟩
  · rintro ⟨⟨j, rfl⟩, hlt⟩
    exact ⟨j, by omega, rfl⟩

theorem cleared_complete : .cleared s ∈ complete x₀ ↔ x₀.dir = .read ∧ .copied s ∈ complete x₀ := by
  simp [complete, mem_copies_cleared]

structure Copies (x₀ : Transfer) (vs : List Move) : Prop where
  copy : ∀ s, (∃ v ∈ vs, v.before.pc = .copy s ∧ s < v.before.info.size) ↔ 4 ∣ s ∧ s < x₀.info.size
  clear : ∀ s, (∃ v ∈ vs, v.before.pc = .clear s) ↔ x₀.dir = .read ∧ 4 ∣ s ∧ s < x₀.info.size

theorem callRun_copies (h₀ : x₀.pc = .check ∧ x₀.took = false) (h : CallRun procs x₀ vs x m)
    (hdone : x.pc = .done 0) : Copies x₀ vs := by
  have hof := callRun_of h₀ h
  have hlabels : labels vs = complete x₀ := by
    have hp := (callRun_state h₀ h).progress
    simp only [Progress, hdone] at hp
    rcases hp with ⟨-, -, hes⟩ | ⟨hneg, -⟩ | ⟨hneg, -⟩
    · exact hes
    · exact absurd hneg (by decide)
    · exact absurd hneg (by decide)
  constructor
  · intro s
    rw [← copied_complete, ← hlabels, labels, List.mem_filterMap]
    exact exists_congr fun v => and_congr_right fun _ => Move.label_iff.1.symm
  · intro s
    rw [← copied_complete, ← cleared_complete, ← hlabels, labels, List.mem_filterMap]
    exact exists_congr fun v => and_congr_right fun _ => Move.label_iff.2.symm

theorem Copies.touches_iff (h : Copies x₀ vs) {i : ℕ} :
    (∃ v ∈ vs, v.before.Touches procs i) ↔ i / 4 * 4 < x₀.info.size := by
  simp only [Transfer.touches_iff]
  constructor
  · rintro ⟨v, hv, s, hpc, hlt, hlow, hhigh⟩
    obtain ⟨⟨k, rfl⟩, hsize⟩ := (h.copy s).mp ⟨v, hv, hpc, hlt⟩
    simp only [Block.stop] at hlow hhigh
    omega
  · intro hlt
    obtain ⟨v, hv, hpc, hsize⟩ := (h.copy (i / 4 * 4)).mpr ⟨Nat.dvd_mul_left 4 _, hlt⟩
    refine ⟨v, hv, _, hpc, hsize, ?_⟩
    simp only [Block.Has, Block.stop]
    omega

theorem Copies.stores (h : Copies x₀ vs) (hof : ∀ v ∈ vs, v.Of procs x₀) (hdir : x₀.dir = .write) {i : ℕ}
    (hi : i < x₀.info.size) : ∃ v ∈ vs, v.before.Stores procs (x₀.data procs + i) := by
  obtain ⟨v, hv, hpc, hsize⟩ := (h.copy (i / 4 * 4)).mpr ⟨Nat.dvd_mul_left 4 _, by omega⟩
  have hstores : v.before.Stores procs (v.before.data procs + i) :=
    Transfer.stores_copied hpc hsize ((hof v hv).dir.trans hdir) (by omega) (by omega)
  rw [Transfer.data, (hof v hv).info] at hstores
  exact ⟨v, hv, hstores⟩

theorem Copies.clears (h : Copies x₀ vs) (hof : ∀ v ∈ vs, v.Of procs x₀) (hdir : x₀.dir = .read) {i : ℕ}
    (hdvd : 4 ∣ i) (hi : i < x₀.info.size) : ∃ v ∈ vs, v.before.Stores procs (x₀.data procs + i) := by
  obtain ⟨v, hv, hpc⟩ := (h.clear i).mpr ⟨hdir, hdvd, hi⟩
  have hstores : v.before.Stores procs (v.before.data procs + i) := Transfer.stores_cleared hpc
  rw [Transfer.data, (hof v hv).info] at hstores
  exact ⟨v, hv, hstores⟩

theorem Copies.stored_inside (h : Copies x₀ vs) (hof : ∀ v ∈ vs, v.Of procs x₀) (hv : v ∈ vs) {a : ℕ}
    (ha : v.before.Stores procs a) : (∃ r ∈ x₀.futexes procs, r.Has a) ∨
      ∃ i, a = x₀.data procs + i ∧ i / 4 * 4 < x₀.info.size ∧ (x₀.dir = .read → 4 ∣ i) := by
  have hinfo := (hof v hv).info
  rcases ha.cases with hfux | ⟨s, hpc, hlt, hdir, hlow, hhigh⟩ | ⟨s, hpc, rfl⟩
  · left
    rwa [Transfer.futexes, hinfo] at hfux
  · right
    obtain ⟨⟨k, rfl⟩, hsize⟩ := (h.copy s).mp ⟨v, hv, hpc, hlt⟩
    rw [Transfer.data, hinfo] at hlow hhigh
    simp only [Block.stop] at hlow hhigh
    refine ⟨a - x₀.data procs, ?_, ?_, ?_⟩
    · rw [Transfer.data]
      omega
    · rw [Transfer.data]
      omega
    · intro hread
      rw [(hof v hv).dir, hread] at hdir
      cases hdir
  · right
    obtain ⟨-, hdvd, hsize⟩ := (h.clear s).mp ⟨v, hv, hpc⟩
    rw [Transfer.data, hinfo]
    exact ⟨s, rfl, by omega, fun _ => hdvd⟩

theorem Copies.confined {info : ShmCreateInfo} (h : Copies x₀ vs) (hof : ∀ v ∈ vs, v.Of info.procs x₀)
    (haccepted : info.Accepted) (hindex : x₀.info.procIndex < info.procCount) (hdvd : 4 ∣ x₀.info.size)
    (hwrite : x₀.dir = .write → x₀.info.size ≤ (info.procs x₀.info.procIndex).dataSz)
    (hread : x₀.dir = .read → x₀.info.size < (info.procs x₀.info.procIndex).dataSz + 4) : Confined info x₀ vs := by
  have hinside : ∀ v ∈ vs, ∀ a, v.before.Stores info.procs a → (∃ r ∈ x₀.futexes info.procs, r.Has a) ∨
      a < x₀.data info.procs + x₀.info.size ∧ (info.procs x₀.info.procIndex).region.Has a := by
    intro v hv a ha
    rcases h.stored_inside hof hv ha with hfux | ⟨i, rfl, hlt, haligned⟩
    · exact .inl hfux
    · right
      have hin : i < (info.procs x₀.info.procIndex).dataSz := by
        cases hdir : x₀.dir with
        | read =>
          have hbound := hread hdir
          have hword := haligned hdir
          omega
        | write =>
          have hbound := hwrite hdir
          omega
      refine ⟨by omega, Nat.le_add_right _ _, Nat.add_lt_add_left hin _⟩
  have hparts : ∀ v ∈ vs, ∀ a, v.mem' a ≠ v.mem a → ∃ r ∈ (info.procs x₀.info.procIndex).parts, r.Has a := by
    intro v hv a hne
    rcases hinside v hv a ((hof v hv).stores hne) with ⟨r, hr, hhas⟩ | ⟨-, hhas⟩
    · exact ⟨r, List.mem_cons_of_mem _ hr, hhas⟩
    · exact ⟨_, List.mem_cons_self, hhas⟩
  constructor
  · intro i
    rw [h.touches_iff]
    omega
  · intro hdir i hi
    exact h.stores hof hdir hi
  · exact hinside
  · intro v hv q hq hne r hr a hhas
    by_contra hchanged
    exact hne (ShmCreateInfo.parts_unique haccepted hq hindex ⟨r, hr, hhas⟩ (hparts v hv a hchanged))
  · intro v hv a ha
    by_contra hchanged
    have hbehind := ShmCreateInfo.parts_behind haccepted hindex (hparts v hv a hchanged)
    omega

theorem Confined.within {info : ShmCreateInfo} (hc : Confined info x₀ vs) (h : info.Accepted)
    (hindex : x₀.info.procIndex < info.procCount) (hv : v ∈ vs) {i : ℕ}
    (hs : v.before.Stores info.procs (x₀.data info.procs + i)) : i < (info.procs x₀.info.procIndex).dataSz := by
  have hnot := ShmCreateInfo.not_futex h hindex (Nat.le_add_right _ i)
  obtain ⟨-, -, hstop⟩ := (hc.inside v hv _ hs).resolve_left hnot
  exact Nat.lt_of_add_lt_add_left hstop

theorem transfer_confined_iff {i : Option ShmCreateInfo} {info : ShmCreateInfo} (hi : pShmCreateCheck i = .ok info)
    {dir : Dir} {data : ShmDataInfo} (hindex : data.procIndex < info.procCount) {buf : Mem} {errno : Errno}
    (h : CallRun info.procs { dir, info := data, pc := .check, buf, errno } vs x m) (hdone : x.pc = .done 0) :
    Confined info { dir, info := data, pc := .check, buf, errno } vs ↔ 4 ∣ data.size ∧
      (dir = .write → data.size ≤ (info.procs data.procIndex).dataSz) ∧
      (dir = .read → data.size < (info.procs data.procIndex).dataSz + 4) := by
  have haccepted := (pShmCreateCheck_ok hi).2
  have hof := callRun_of ⟨rfl, rfl⟩ h
  have hcopies := callRun_copies ⟨rfl, rfl⟩ h hdone
  constructor
  · intro hconfined
    have hdvd : 4 ∣ data.size := by
      by_contra hpart
      have hlast := (hconfined.buffer data.size).mp (hcopies.touches_iff.mpr (by dsimp only; omega))
      exact Nat.lt_irrefl _ hlast
    refine ⟨hdvd, ?_, ?_⟩
    · intro hdir
      by_contra hlarge
      obtain ⟨v, hv, hstores⟩ := hconfined.stored hdir (data.size - 1) (Nat.sub_one_lt (by omega))
      have hwithin := hconfined.within haccepted hindex hv hstores
      dsimp only at hwithin
      omega
    · intro hdir
      by_contra hlarge
      obtain ⟨v, hv, hstores⟩ := hcopies.clears hof hdir (i := data.size - 4) (by omega) (by dsimp only; omega)
      have hwithin := hconfined.within haccepted hindex hv hstores
      dsimp only at hwithin
      omega
  · rintro ⟨hdvd, hwrite, hread⟩
    exact hcopies.confined hof haccepted hindex hdvd hwrite hread

end Run

def twoSegments : ShmCreateInfo := ⟨[0x2F], 28, 2, by decide⟩

def bothAttached : Mem := store (fun _ => 0) 0 4 2

theorem transfer_confined_word :
    ∃ vs : List Move, Confined twoSegments (udoShmDataWrite ⟨false, 4, 1⟩ (fun _ => 7) 0) vs := by
  have hrun : (solo twoSegments.procs (List.replicate 7 .plain)
      ([], udoShmDataWrite ⟨false, 4, 1⟩ (fun _ => 7) 0, bothAttached)).any fun r => r.2.1.pc = .done 0 := by decide
  obtain ⟨⟨vs, x, m⟩, hr, hdone⟩ := (Option.any_eq_true _ _).mp hrun
  exact ⟨vs, (transfer_confined_iff (i := some twoSegments) rfl (by decide) (solo_run (.entry _) hr)
    (of_decide_eq_true hdone)).mpr (by decide)⟩

theorem transfer_unconfined : ¬ ∀ (i : Option ShmCreateInfo) (info : ShmCreateInfo) (dir : Dir) (data : ShmDataInfo)
    (buf : Mem) (errno : Errno) (vs : List Move) (x : Transfer) (m : Mem), pShmCreateCheck i = .ok info →
    info.SegmentsPlaced → data.procIndex < info.procCount →
    CallRun info.procs { dir, info := data, pc := .check, buf, errno } vs x m → x.pc = .done 0 →
      Confined info { dir, info := data, pc := .check, buf, errno } vs := by
  intro confined
  have hrun : (solo twoSegments.procs (List.replicate 7 .plain)
      ([], udoShmDataWrite ⟨false, 1, 1⟩ (fun _ => 7) 0, bothAttached)).any fun r =>
        r.2.1.pc = .done 0 ∧ ∃ v ∈ r.1, v.before.pc = .copy 0 ∧ 0 < v.before.info.size := by decide
  obtain ⟨⟨vs, x, m⟩, hr, hq⟩ := (Option.any_eq_true _ _).mp hrun
  obtain ⟨hdone, v, hv, hpc, hsize⟩ := of_decide_eq_true hq
  have hplaced : twoSegments.SegmentsPlaced :=
    ShmCreateInfo.segments_placed ⟨by decide, by decide, by decide⟩ (by decide) (by decide)
  have hconfined := confined (some twoSegments) _ _ _ _ _ _ _ _ rfl hplaced (by decide) (solo_run (.entry _) hr) hdone
  have hnext := (hconfined.buffer 1).mp ⟨v, hv, Transfer.touches_iff.mpr ⟨0, hpc, hsize, by decide⟩⟩
  exact absurd hnext (by decide)

end Libcando.Shm
