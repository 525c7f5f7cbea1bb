import Libcando.ShmTransfer
import Mathlib.Data.List.ReduceOption

namespace Libcando.Shm

open ByteMemory Futex

inductive Effect
  | took
  | copied (s : ℕ)
  | cleared (s : ℕ)
  | released
  deriving DecidableEq

structure Move where
  before : Transfer
  mem : Mem
  after : Transfer
  mem' : Mem

namespace Move

def Same (v : Move) : Prop := v.mem' = v.mem ∧ v.after.buf = v.before.buf

def Sets (v : Move) (a word : ℕ) : Prop :=
  load v.mem' a 4 = word ∧ (∀ b, b < a ∨ a + 4 ≤ b → v.mem' b = v.mem b) ∧ v.after.buf = v.before.buf

def Does (procs : ℕ → ShmProc) (x₀ : Transfer) (v : Move) : Option Effect → Prop
  | none => v.Same
  | some .took => load v.mem (x₀.ownFux procs) 4 = futexUnlock ∧ v.Sets (x₀.ownFux procs) futexLock
  | some (.copied s) =>
    match x₀.dir with
    | .read => v.mem' = v.mem ∧ ∀ i, v.after.buf i =
        if s ≤ i ∧ i < s + 4 then v.mem (x₀.data procs + i) else v.before.buf i
    | .write => v.after.buf = v.before.buf ∧ ∀ i, v.mem' i =
        if x₀.data procs + s ≤ i ∧ i < x₀.data procs + s + 4 then v.before.buf (i - x₀.data procs) else v.mem i
  | some (.cleared s) =>
    v.after.buf = v.before.buf ∧ ∀ i, v.mem' i = if i = x₀.data procs + s then 0 else v.mem i
  | some .released => v.Sets (x₀.otherFux procs) futexUnlock

def Takes (procs : ℕ → ShmProc) (x₀ : Transfer) (v : Move) : Prop :=
  (∃ pc, v.before.pc = .lock pc) ∧ load v.mem (x₀.ownFux procs) 4 = futexUnlock ∧
    load v.mem' (x₀.ownFux procs) 4 = futexLock

def label (v : Move) : Option Effect :=
  match v.before.pc with
  | .lock _ => if v.after.took then some .took else none
  | .copy s => if s < v.before.info.size then some (.copied s) else none
  | .clear s => some (.cleared s)
  | .unlock (.store _) => some .released
  | _ => none

end Move

/-- A call among others: between its own steps the shared memory may change in any way. -/
inductive CallRun (procs : ℕ → ShmProc) (x₀ : Transfer) : List Move → Transfer → Mem → Prop
  | entry (m : Mem) : CallRun procs x₀ [] x₀ m
  | own {vs : List Move} {x x' : Transfer} {m m' : Mem} {turn : Turn} (h : CallRun procs x₀ vs x m)
    (hs : x.step turn procs m = some (x', m')) : CallRun procs x₀ (vs ++ [⟨x, m, x', m'⟩]) x' m'
  | others {vs : List Move} {x : Transfer} {m : Mem} (m' : Mem) (h : CallRun procs x₀ vs x m) :
    CallRun procs x₀ vs x m'

def labels (vs : List Move) : List Effect := vs.filterMap Move.label

def copies (dir : Dir) : ℕ → List Effect
  | 0 => []
  | k + 1 => copies dir k ++ match dir with
    | .read => [.copied (4 * k), .cleared (4 * k)]
    | .write => [.copied (4 * k)]

def complete (x : Transfer) : List Effect :=
  .took :: copies x.dir ((x.info.size + 3) / 4) ++ [.released]

def Completes (procs : ℕ → ShmProc) (x₀ : Transfer) (vs : List Move) : Prop :=
  ∃ es, List.Forall₂ (Move.Does procs x₀) vs es ∧ es.reduceOption = complete x₀

structure CleanReturn (procs : ℕ → ShmProc) (x₀ : Transfer) (vs : List Move) (ret : ℤ) : Prop where
  success : ret = 0 ↔ Completes procs x₀ vs
  failure : ret < 0 → ∀ v ∈ vs, v.Same

section Run

variable {procs : ℕ → ShmProc} {x₀ x x' : Transfer} {vs : List Move} {v : Move} {m m' : Mem}

def Tainted (procs : ℕ → ShmProc) (x₀ : Transfer) (vs : List Move) : Prop :=
  ∃ v ∈ vs, v.Takes procs x₀ ∧ v.before.errno = eintr

def Progress (x₀ x : Transfer) (es : List Effect) (tainted : Prop) : Prop :=
  match x.pc with
  | .check | .lock _ => es = [] ∧ x.took = false ∧ ¬ tainted
  | .errnoCheck => (es = [] ∧ x.errno = eintr ∧ ¬ tainted) ∨ (es = [.took] ∧ (x.errno = eintr ↔ tainted))
  | .copy s => ¬ tainted ∧ ∃ k, s = 4 * k ∧ k ≤ (x₀.info.size + 3) / 4 ∧ es = .took :: copies x₀.dir k
  | .clear s => ¬ tainted ∧ x₀.dir = .read ∧ ∃ k, s = 4 * k ∧ s < x₀.info.size ∧
      es = .took :: copies x₀.dir k ++ [.copied s]
  | .unlock (.store value) => value = futexUnlock ∧ ¬ tainted ∧ es = .took :: copies x₀.dir ((x₀.info.size + 3) / 4)
  | .unlock .wake => ¬ tainted ∧ es = complete x₀
  | .done ret => (ret = 0 ∧ ¬ tainted ∧ es = complete x₀) ∨ (ret < 0 ∧ ¬ tainted ∧ es = []) ∨
      (ret < 0 ∧ tainted ∧ es = [.took])

structure CallState (procs : ℕ → ShmProc) (x₀ : Transfer) (vs : List Move) (x : Transfer) : Prop where
  dir : x.dir = x₀.dir
  info : x.info = x₀.info
  progress : Progress x₀ x (labels vs) (Tainted procs x₀ vs)
  does : ∀ v ∈ vs, v.Does procs x₀ v.label

theorem labels_snoc : labels (vs ++ [v]) = labels vs ++ v.label.toList := by
  cases h : v.label <;> simp [labels, h]

theorem labels_quiet (h : v.label = none) : labels (vs ++ [v]) = labels vs := by
  simp [labels_snoc, h]

theorem labels_some {e : Effect} (h : v.label = some e) : labels (vs ++ [v]) = labels vs ++ [e] := by
  simp [labels_snoc, h]

theorem tainted_snoc : Tainted procs x₀ (vs ++ [v]) ↔
    Tainted procs x₀ vs ∨ (v.Takes procs x₀ ∧ v.before.errno = eintr) := by
  simp [Tainted, or_and_right, exists_or]

theorem tainted_quiet (h : ¬ v.Takes procs x₀) : Tainted procs x₀ (vs ++ [v]) ↔ Tainted procs x₀ vs := by
  simp [tainted_snoc, h]

theorem not_takes (h : ∀ pc, v.before.pc ≠ .lock pc) : ¬ v.Takes procs x₀ := by
  rintro ⟨⟨pc, hpc⟩, -⟩
  exact h pc hpc

theorem not_takes_of_same (h : v.mem' = v.mem) : ¬ v.Takes procs x₀ := by
  rintro ⟨-, hfree, htaken⟩
  rw [h, hfree] at htaken
  exact absurd htaken (by decide)

theorem CallState.ownFux (h : CallState procs x₀ vs x) : x.ownFux procs = x₀.ownFux procs := by
  rw [Transfer.ownFux, Transfer.ownFux, h.dir, h.info]

theorem CallState.otherFux (h : CallState procs x₀ vs x) : x.otherFux procs = x₀.otherFux procs := by
  rw [Transfer.otherFux, Transfer.otherFux, h.dir, h.info]

theorem CallState.data (h : CallState procs x₀ vs x) : x.data procs = x₀.data procs := by
  rw [Transfer.data, Transfer.data, h.info]

theorem sets_store {a word : ℕ} (hword : word < 256 ^ 4) (hm : v.mem' = store v.mem a 4 word)
    (hb : v.after.buf = v.before.buf) : v.Sets a word := by
  refine ⟨?_, ?_, hb⟩
  · rw [hm, load_store_of_lt hword]
  · intro b hout
    rw [hm, store_outside hout]

theorem readWord_eq (data s i : ℕ) (buf m : Mem) :
    readWord data s buf m i = if s ≤ i ∧ i < s + 4 then m (data + i) else buf i := by
  split_ifs with h
  · exact readWord_at data buf m h.1 h.2
  · exact store_outside (by omega)

theorem writeWord_eq (data s i : ℕ) (buf m : Mem) :
    writeWord data s buf m i = if data + s ≤ i ∧ i < data + s + 4 then buf (i - data) else m i := by
  split_ifs with h
  · obtain ⟨j, rfl⟩ := Nat.exists_eq_add_of_le (Nat.le_trans (Nat.le_add_right data s) h.1)
    rw [Nat.add_sub_cancel_left]
    exact writeWord_at data buf m (by omega) (by omega)
  · exact store_outside (by omega)

theorem atomicClear_eq (m : Mem) (a i : ℕ) : atomicClear m a i = if i = a then 0 else m i := by
  by_cases h : i = a
  · simp [atomicClear, store, h]
  · rw [if_neg h]
    exact store_outside (by omega)

theorem CallState.step_does (h : CallState procs x₀ vs x) (hs : x.Step procs m x' m') :
    Move.Does procs x₀ ⟨x, m, x', m'⟩ (Move.label ⟨x, m, x', m'⟩) := by
  have hp := h.progress
  unfold Progress at hp
  cases hs with
  | acquire pc hpc hw =>
    simp only [Move.label, hpc, if_true]
    rw [h.ownFux] at hw ⊢
    exact ⟨hw, sets_store (by decide) rfl rfl⟩
  | interrupt pc hpc hw | spin pc pc' errno hpc =>
    rw [hpc] at hp
    simp only [Move.label, hpc, hp.2.1]
    exact ⟨rfl, rfl⟩
  | read s hpc hdir hlt =>
    simp only [Move.label, hpc, if_pos hlt, Move.Does, ← h.dir, hdir, ← h.data]
    exact ⟨trivial, fun i => readWord_eq _ s i _ _⟩
  | write s hpc hdir hlt =>
    simp only [Move.label, hpc, if_pos hlt, Move.Does, ← h.dir, hdir, ← h.data]
    exact ⟨trivial, fun i => writeWord_eq _ s i _ _⟩
  | finish s hpc hge =>
    simp only [Move.label, hpc, if_neg (Nat.not_lt_of_le hge)]
    exact ⟨rfl, rfl⟩
  | clear s hpc =>
    simp only [Move.label, hpc, Move.Does, ← h.data]
    exact ⟨trivial, fun i => atomicClear_eq _ _ i⟩
  | release value hpc =>
    rw [hpc] at hp
    simp only [Move.label, hpc, Move.Does]
    rw [h.otherFux, hp.1]
    exact sets_store (by decide) rfl rfl
  | reject hpc | accept hpc | fail hpc he | enter hpc he | wake hpc =>
    simp only [Move.label, hpc]
    exact ⟨rfl, rfl⟩

theorem CallState.acquire (h : CallState procs x₀ vs x) {pc : LockPc} (hpc : x.pc = .lock pc)
    (hw : load m (x.ownFux procs) 4 = futexUnlock) :
    Progress x₀ { x with pc := .errnoCheck, took := true }
      (labels (vs ++ [⟨x, m, { x with pc := .errnoCheck, took := true }, store m (x.ownFux procs) 4 futexLock⟩]))
      (Tainted procs x₀
        (vs ++ [⟨x, m, { x with pc := .errnoCheck, took := true }, store m (x.ownFux procs) 4 futexLock⟩])) := by
  have hp := h.progress
  simp only [Progress, hpc] at hp
  obtain ⟨hes, htook, hclean⟩ := hp
  have htakes : Move.Takes procs x₀
      ⟨x, m, { x with pc := .errnoCheck, took := true }, store m (x.ownFux procs) 4 futexLock⟩ := by
    rw [h.ownFux] at hw ⊢
    exact ⟨⟨pc, hpc⟩, hw, load_store_of_lt (by decide)⟩
  right
  constructor
  · rw [labels_some (e := .took) (by simp [Move.label, hpc]), hes, List.nil_append]
  · rw [tainted_snoc, or_iff_right hclean]
    exact (and_iff_right htakes).symm

theorem progress_quiet (hlabel : v.label = none) (htakes : ¬ v.Takes procs x₀)
    (hp : Progress x₀ x (labels vs) (Tainted procs x₀ vs)) :
    Progress x₀ x (labels (vs ++ [v])) (Tainted procs x₀ (vs ++ [v])) := by
  rw [labels_quiet hlabel, tainted_quiet htakes]
  exact hp

theorem progress_some {e : Effect} (hlabel : v.label = some e) (htakes : ¬ v.Takes procs x₀)
    (hp : Progress x₀ x (labels vs ++ [e]) (Tainted procs x₀ vs)) :
    Progress x₀ x (labels (vs ++ [v])) (Tainted procs x₀ (vs ++ [v])) := by
  rw [labels_some hlabel, tainted_quiet htakes]
  exact hp

theorem CallState.checked (h : CallState procs x₀ vs x) (hpc : x.pc = .errnoCheck) :
    (x.errno = eintr → Progress x₀ { x with pc := .done (-x.errno) } (labels vs) (Tainted procs x₀ vs)) ∧
      (x.errno ≠ eintr → Progress x₀ { x with pc := .copy 0 } (labels vs) (Tainted procs x₀ vs)) := by
  have hp := h.progress
  simp only [Progress, hpc] at hp
  constructor
  · intro he
    rcases hp with ⟨hes, -, ht⟩ | ⟨hes, ht⟩
    · exact .inr (.inl ⟨by simp [he], ht, hes⟩)
    · exact .inr (.inr ⟨by simp [he], ht.mp he, hes⟩)
  · intro he
    rcases hp with ⟨-, hc, -⟩ | ⟨hes, ht⟩
    · exact absurd hc he
    · exact ⟨fun hc => he (ht.mpr hc), 0, rfl, Nat.zero_le _, hes⟩

theorem CallState.written (h : CallState procs x₀ vs x) {s : ℕ} (hpc : x.pc = .copy s) (hdir : x.dir = .write)
    (hlt : s < x.info.size) :
    Progress x₀ { x with pc := .copy (s + 4) } (labels vs ++ [.copied s]) (Tainted procs x₀ vs) := by
  have hp := h.progress
  simp only [Progress, hpc] at hp
  rw [h.dir] at hdir
  rw [h.info] at hlt
  obtain ⟨ht, k, hk, hle, hes⟩ := hp
  refine ⟨ht, k + 1, by omega, by omega, ?_⟩
  simp [hes, copies, hdir, hk]

theorem CallState.finished (h : CallState procs x₀ vs x) {s : ℕ} (hpc : x.pc = .copy s) (hge : x.info.size ≤ s) :
    Progress x₀ { x with pc := .unlock udoFutexUnlock } (labels vs) (Tainted procs x₀ vs) := by
  have hp := h.progress
  simp only [Progress, hpc] at hp
  rw [h.info] at hge
  obtain ⟨ht, k, hk, hle, hes⟩ := hp
  have hall : k = (x₀.info.size + 3) / 4 := by omega
  exact ⟨rfl, ht, hall ▸ hes⟩

theorem CallState.cleared (h : CallState procs x₀ vs x) {s : ℕ} (hpc : x.pc = .clear s) :
    Progress x₀ { x with pc := .copy (s + 4) } (labels vs ++ [.cleared s]) (Tainted procs x₀ vs) := by
  have hp := h.progress
  simp only [Progress, hpc] at hp
  obtain ⟨ht, hdir, k, hk, hlt, hes⟩ := hp
  refine ⟨ht, k + 1, by omega, by omega, ?_⟩
  simp [hes, copies, hdir, hk]

theorem CallState.own (h : CallState procs x₀ vs x) (hs : x.Step procs m x' m') :
    Progress x₀ x' (labels (vs ++ [⟨x, m, x', m'⟩])) (Tainted procs x₀ (vs ++ [⟨x, m, x', m'⟩])) := by
  have hp := h.progress
  unfold Progress at hp
  -- only the compare-exchange that takes the futex decides whether the call goes wrong
  have past (hpc : ∀ pc, x.pc ≠ .lock pc) : ¬ Move.Takes procs x₀ ⟨x, m, x', m'⟩ := not_takes hpc
  cases hs with
  | acquire pc hpc hw => exact h.acquire hpc hw
  | reject hpc =>
    rw [hpc] at hp
    apply progress_quiet (by simp [Move.label, hpc]) (past (by simp [hpc]))
    exact .inr (.inl ⟨by decide, hp.2.2, hp.1⟩)
  | accept hpc =>
    rw [hpc] at hp
    apply progress_quiet (by simp [Move.label, hpc]) (past (by simp [hpc]))
    exact hp
  | interrupt pc hpc hw =>
    rw [hpc] at hp
    apply progress_quiet (by simp [Move.label, hpc, hp.2.1]) (not_takes_of_same rfl)
    exact .inl ⟨hp.1, rfl, hp.2.2⟩
  | spin pc pc' errno hpc =>
    rw [hpc] at hp
    apply progress_quiet (by simp [Move.label, hpc, hp.2.1]) (not_takes_of_same rfl)
    exact hp
  | fail hpc he =>
    exact progress_quiet (by simp [Move.label, hpc]) (past (by simp [hpc])) ((h.checked hpc).1 he)
  | enter hpc he =>
    exact progress_quiet (by simp [Move.label, hpc]) (past (by simp [hpc])) ((h.checked hpc).2 he)
  | read s hpc hdir hlt =>
    rw [hpc] at hp
    apply progress_some (e := .copied s) (by simp [Move.label, hpc, hlt]) (past (by simp [hpc]))
    obtain ⟨ht, k, hk, hle, hes⟩ := hp
    exact ⟨ht, h.dir ▸ hdir, k, hk, h.info ▸ hlt, by rw [hes]⟩
  | write s hpc hdir hlt =>
    exact progress_some (by simp [Move.label, hpc, hlt]) (past (by simp [hpc])) (h.written hpc hdir hlt)
  | finish s hpc hge =>
    apply progress_quiet (by simp [Move.label, hpc, Nat.not_lt_of_le hge]) (past (by simp [hpc]))
    exact h.finished hpc hge
  | clear s hpc => exact progress_some (by simp [Move.label, hpc]) (past (by simp [hpc])) (h.cleared hpc)
  | release value hpc =>
    rw [hpc] at hp
    apply progress_some (e := .released) (by simp [Move.label, hpc]) (past (by simp [hpc]))
    exact ⟨hp.2.1, by rw [hp.2.2, complete]⟩
  | wake hpc =>
    rw [hpc] at hp
    apply progress_quiet (by simp [Move.label, hpc]) (past (by simp [hpc]))
    exact .inl ⟨rfl, hp.1, hp.2⟩

theorem callRun_state (h₀ : x₀.pc = .check ∧ x₀.took = false) (h : CallRun procs x₀ vs x m) :
    CallState procs x₀ vs x := by
  induction h with
  | entry m =>
    constructor
    · rfl
    · rfl
    · simp [Progress, h₀, labels, Tainted]
    · simp
  | @own vs x x' m m' turn hrun hstep ih =>
    have hs := Transfer.step_cases hstep
    have hkeep : x'.dir = x.dir ∧ x'.info = x.info := by cases hs <;> exact ⟨rfl, rfl⟩
    constructor
    · exact hkeep.1.trans ih.dir
    · exact hkeep.2.trans ih.info
    · exact ih.own hs
    · intro v hv
      rcases List.mem_append.mp hv with hv | hv
      · exact ih.does v hv
      · rw [List.mem_singleton.mp hv]
        exact ih.step_does hs
  | others m' hrun ih => exact ih

theorem CallState.completes (h : CallState procs x₀ vs x) (hes : labels vs = complete x₀) :
    Completes procs x₀ vs := by
  refine ⟨vs.map Move.label, ?_, ?_⟩
  · rw [List.forall₂_map_right_iff]
    exact List.forall₂_same.mpr h.does
  · rw [← hes, labels, List.reduceOption, List.filterMap_map]
    rfl

theorem CallState.same (h : CallState procs x₀ vs x) (hes : labels vs = []) : ∀ v ∈ vs, v.Same := by
  intro v hv
  have hlabel := List.filterMap_eq_nil_iff.mp hes v hv
  have hdoes := h.does v hv
  rwa [hlabel] at hdoes

theorem not_completes (h : ∀ v ∈ vs, v.Same) : ¬ Completes procs x₀ vs := by
  rintro ⟨es, hdoes, hes⟩
  have htook : some .took ∈ es := by
    rw [← List.reduceOption_mem_iff, hes]
    exact List.mem_cons_self
  obtain ⟨i, hi, hlabel⟩ := List.mem_iff_getElem.mp htook
  have hi' : i < vs.length := hdoes.length_eq.symm ▸ hi
  -- the step that takes the futex changes its word
  have hdoes := hdoes.get hi' hi
  rw [List.get_eq_getElem, List.get_eq_getElem, hlabel] at hdoes
  obtain ⟨hfree, htaken, -⟩ := hdoes
  rw [(h _ (List.getElem_mem hi')).1, hfree] at htaken
  exact absurd htaken (by decide)

theorem transfer_clean_iff {dir : Dir} {info : ShmDataInfo} {buf : Mem} {errno : Errno} {ret : ℤ}
    (h : CallRun procs { dir, info, pc := .check, buf, errno } vs x m) (hdone : x.pc = .done ret) :
    CleanReturn procs { dir, info, pc := .check, buf, errno } vs ret ↔
      ∀ v ∈ vs, v.Takes procs { dir, info, pc := .check, buf, errno } → v.before.errno ≠ eintr := by
  have hs := callRun_state ⟨rfl, rfl⟩ h
  have hp := hs.progress
  simp only [Progress, hdone] at hp
  have htaint : (∀ v ∈ vs, v.Takes procs { dir, info, pc := .check, buf, errno } → v.before.errno ≠ eintr) ↔
      ¬ Tainted procs { dir, info, pc := .check, buf, errno } vs := by simp [Tainted]
  rw [htaint]
  rcases hp with ⟨hret, ht, hes⟩ | ⟨hret, ht, hes⟩ | ⟨hret, ht, hes⟩
  · apply iff_of_true _ ht
    constructor
    · exact iff_of_true hret (hs.completes hes)
    · intro hneg
      omega
  · have hsame := hs.same hes
    exact iff_of_true ⟨iff_of_false (by omega) (not_completes hsame), fun _ => hsame⟩ ht
  · apply iff_of_false _ (not_not.mpr ht)
    intro hclean
    obtain ⟨v, hv, htakes, -⟩ := ht
    exact not_takes_of_same (hclean.failure hret v hv).1 htakes

end Run

def solo (procs : ℕ → ShmProc) : List Turn → List Move × Transfer × Mem → Option (List Move × Transfer × Mem)
  | [], r => some r
  | turn :: turns, (vs, x, m) =>
    (x.step turn procs m).bind fun (x', m') => solo procs turns (vs ++ [⟨x, m, x', m'⟩], x', m')

theorem solo_run {procs : ℕ → ShmProc} {x₀ : Transfer} {turns : List Turn}
    {r r' : List Move × Transfer × Mem} (h : CallRun procs x₀ r.1 r.2.1 r.2.2)
    (hr : solo procs turns r = some r') : CallRun procs x₀ r'.1 r'.2.1 r'.2.2 := by
  induction turns generalizing r with
  | nil => cases hr; exact h
  | cons turn turns ih =>
    obtain ⟨⟨x', m'⟩, hstep, hrest⟩ := Option.bind_eq_some_iff.mp hr
    exact ih (h.own hstep) hrest

def oneSegment (_ : ℕ) : ShmProc := ⟨4, 8, 12, 4⟩

def fresh : Mem := store (fun _ => 0) 4 4 futexLock

theorem transfer_clean_write : ∃ (vs : List Move) (x : Transfer) (m : Mem),
    CallRun oneSegment (udoShmDataWrite ⟨false, 4, 0⟩ (fun _ => 7) 0) vs x m ∧ x.pc = .done 0 ∧ m 12 = 7 ∧
      CleanReturn oneSegment (udoShmDataWrite ⟨false, 4, 0⟩ (fun _ => 7) 0) vs 0 := by
  have hrun : (solo oneSegment (List.replicate 7 .plain)
      ([], udoShmDataWrite ⟨false, 4, 0⟩ (fun _ => 7) 0, fresh)).any fun r =>
        r.2.1.pc = .done 0 ∧ r.2.2 12 = 7 ∧ ∀ v ∈ r.1, v.before.errno ≠ eintr := by decide
  obtain ⟨⟨vs, x, m⟩, hr, hq⟩ := (Option.any_eq_true _ _).mp hrun
  obtain ⟨hdone, hdata, herrno⟩ := of_decide_eq_true hq
  have hcall := solo_run (.entry fresh) hr
  exact ⟨vs, x, m, hcall, hdone, hdata, (transfer_clean_iff hcall hdone).mpr fun v hv _ => herrno v hv⟩

theorem transfer_unclean : ¬ ∀ (procs : ℕ → ShmProc) (dir : Dir) (info : ShmDataInfo) (buf : Mem)
    (errno : Errno) (vs : List Move) (x : Transfer) (m : Mem) (ret : ℤ),
    CallRun procs { dir, info, pc := .check, buf, errno } vs x m → x.pc = .done ret →
      CleanReturn procs { dir, info, pc := .check, buf, errno } vs ret := by
  intro clean
  have hrun : (solo oneSegment (List.replicate 3 .plain)
      ([], udoShmDataWrite ⟨false, 4, 0⟩ (fun _ => 7) eintr, fresh)).any fun r =>
        r.2.1.pc = .done (-4) ∧ ∃ v ∈ r.1, load v.mem 8 4 = 0 ∧ load v.mem' 8 4 = 1 := by decide
  obtain ⟨⟨vs, x, m⟩, hr, hq⟩ := (Option.any_eq_true _ _).mp hrun
  obtain ⟨hdone, v, hv, hfree, htaken⟩ := of_decide_eq_true hq
  have hclean := clean _ _ _ _ _ _ _ _ _ (solo_run (.entry fresh) hr) hdone
  have hsame := (hclean.failure (by decide) v hv).1
  rw [hsame, hfree] at htaken
  cases htaken

end Libcando.Shm
