import Libcando.ShmSegments

namespace Libcando.Shm

open ByteMemory Futex Transition Baton

namespace Context

def settled (c : Context) : Bool := c.pc matches .attached | .transfer _

def atInitRead (c : Context) : Option ℕ :=
  match c.pc with
  | .create (.initRead i) => some i
  | _ => none

def call (c : Context) : Option Transfer :=
  match c.pc with
  | .transfer x => some x
  | _ => none

def inCreate (c : Context) : Bool := c.pc matches .create _

theorem settled_initialised {c : Context} (h : c.settled = true) (i : ℕ) : c.initialised i = true := by
  unfold settled at h
  cases hpc : c.pc <;> simp_all [initialised]

end Context

namespace World

variable {P : Type*}

def attachedOn (w : World P) (o : ℕ) : Prop := ∃ q, (w.ctx q).settled = true ∧ (w.ctx q).obj = o

def alike (info : ShmCreateInfo) (l : P × Act) (_ : World P) : Prop :=
  match l.2 with
  | .create (some j) => j = info
  | _ => True

instance (info : ShmCreateInfo) : ∀ (l : P × Act) (w : World P), Decidable (alike info l w)
  | (_, .create (some j)), _ => inferInstanceAs (Decidable (j = info))
  | (_, .create none), _ | (_, .transfer _ _ _ _), _ | (_, .destroy), _ | (_, .tick _), _ | (_, .fail), _ =>
    inferInstanceAs (Decidable True)

/-- No call gives up at its `errno` check with its futex in hand. -/
def unfailing (l : P × Act) (w : World P) : Prop :=
  ∀ x ∈ (w.ctx l.1).call, ¬ (x.pc = .errnoCheck ∧ x.errno = eintr ∧ x.busy ≠ none)

def unread (info : ShmCreateInfo) (l : P × Act) (w : World P) : Prop :=
  ∀ i ∈ (w.ctx l.1).atInitRead, i < info.procCount →
    w.words info (w.ctx l.1).obj i .take = 0 → w.words info (w.ctx l.1).obj i .put = 0

def calm (info : ShmCreateInfo) (l : P × Act) (w : World P) : Prop :=
  alike info l w ∧ unfailing l w ∧ unread info l w

instance (l : P × Act) (w : World P) : Decidable (unfailing l w) :=
  inferInstanceAs (Decidable (∀ _ ∈ _, ¬ _))

instance (info : ShmCreateInfo) (l : P × Act) (w : World P) : Decidable (unread info l w) :=
  inferInstanceAs (Decidable (∀ _ ∈ _, _ → _ → _))

instance (info : ShmCreateInfo) (l : P × Act) (w : World P) : Decidable (calm info l w) :=
  inferInstanceAs (Decidable (_ ∧ _ ∧ _))

def Fresh (info : ShmCreateInfo) (w : World P) (o i : ℕ) : Prop :=
  (∀ s, w.words info o i s = 0) ∧ ∀ q, (w.ctx q).obj = o → (w.ctx q).initialised i = false

def Passing (info : ShmCreateInfo) (w : World P) (o i : ℕ) : Prop :=
  ∃ t : Token P, t.Fits (w.words info o i) (w.busyAt o i) ∧ t ≠ .stuck

structure Handing (info : ShmCreateInfo) (w : World P) : Prop extends
    w.Sane fun j => j.Accepted ∧ j = info where
  blank : ∀ o, (w.objs o).len = info.shmSize ∨ (w.objs o).mem = fun _ => 0
  slot : ∀ o < w.next, ∀ i < info.procCount, Fresh info w o i ∨ Passing info w o i

variable {info : ShmCreateInfo} {w w' : World P} {p : P} {act : Act} {o i : ℕ}

theorem Fresh.idle (h : Fresh info w o i) (q : P) : w.busyAt o i q = none := by
  by_contra hb
  obtain ⟨ho, hi⟩ := Context.busyAt_initialised hb
  rw [h.2 q ho] at hi
  cases hi

theorem Handing.passing (hw : w.Handing info) (hi : i < info.procCount) {q : P}
    (hq : (w.ctx q).initialised i = true) (hb : (w.ctx q).bound = true) : Passing info w (w.ctx q).obj i := by
  apply (hw.slot _ (hw.bound q hb) i hi).resolve_left
  intro hf
  rw [hf.2 q rfl] at hq
  cases hq

theorem Sane.settled {I : ShmCreateInfo → Prop} (hw : w.Sane I) {q : P} (hq : (w.ctx q).settled = true) :
    I (w.ctx q).info ∧ (w.ctx q).counted = true := by
  have hwf := hw.wf q
  unfold Context.settled at hq
  unfold Context.WF at hwf
  cases hpc : (w.ctx q).pc with
  | attached => rw [hpc] at hwf; exact hwf
  | transfer x => rw [hpc] at hwf; exact ⟨hwf.1, hwf.2.1⟩
  | _ => simp [hpc] at hq

theorem Handing.passing_on (hw : w.Handing info) (hi : i < info.procCount) (h : w.attachedOn o) :
    Passing info w o i := by
  obtain ⟨q, hq, rfl⟩ := h
  exact hw.passing hi (Context.settled_initialised hq i) (by simp [Context.bound, (hw.settled hq).2])

theorem Quiet.slot (h : Quiet info w w' o i) (hs : Fresh info w o i ∨ Passing info w o i) :
    Fresh info w' o i ∨ Passing info w' o i := by
  rcases hs with hf | ⟨t, ht, hne⟩
  · left
    constructor
    · intro s
      rw [h.words]
      exact hf.1 s
    · intro q ho
      by_contra hi
      obtain ⟨ho', hi'⟩ := h.initialised q ho (by simpa using hi)
      rw [hf.2 q ho'] at hi'
      cases hi'
  · right
    refine ⟨t, ?_, hne⟩
    rw [h.words, h.busy]
    exact ht

theorem Passing.take (h : Passing info w o i)
    (hm : w.words info o i .take = 0 → w.words info o i .put = 0) : w.words info o i .take ≠ 0 := by
  obtain ⟨t, ht, hne⟩ := h
  intro hz
  have hput := hm hz
  cases (ht.of_free hz).symm.trans (ht.of_free hput)

theorem Handing.initRead (hw : w.Handing info) (hinfo : info.Accepted) (hi : i < info.procCount)
    (hmsg : w.words info (w.ctx p).obj i .take = 0 → w.words info (w.ctx p).obj i .put = 0)
    (hobj : (w.ctx p).obj < w.next)
    (hbusy : w'.busyAt (w.ctx p).obj i = w.busyAt (w.ctx p).obj i)
    (hmem : (w'.objs (w.ctx p).obj).mem =
      compareExchange (w.mem p) (info.procs i).rdFux futexUnlock futexLock) :
    Passing info w' (w.ctx p).obj i := by
  rcases hw.slot _ hobj i hi with hf | hpass
  · refine ⟨.free .put, ⟨?_, ?_, fun q => by rw [hbusy]; exact hf.idle q⟩, nofun⟩
    all_goals
      have hrd : load (w.mem p) (info.procs i).rdFux 4 = futexUnlock := hf.1 .take
      rw [words, hmem, compareExchange, if_pos hrd,
        show (info.procs i).rdFux = (info.procs i).fux .take from rfl,
        (placed hinfo hi).words_store _ _ (by decide)]
    · rw [Function.update_of_ne (by decide)]
      exact hf.1 .put
    · rfl
  · have hsame : (w'.objs (w.ctx p).obj).mem = w.mem p :=
      hmem.trans (compareExchange_ne (hpass.take hmsg))
    obtain ⟨t, ht, hne⟩ := hpass
    exact ⟨t, by rw [hbusy, words, hsame]; exact ht, hne⟩

variable [DecidableEq P]

theorem Handing.blank_step (hw : w.Handing info) (h : w.Step p act w') (o : ℕ) :
    (w'.objs o).len = info.shmSize ∨ (w'.objs o).mem = fun _ => 0 := by
  have hwf := hw.wf p
  unfold Context.WF at hwf
  have own {m : Mem} (hs : (w.ctx p).sized = true) :
      ((w.setMem p m).objs o).len = info.shmSize ∨ ((w.setMem p m).objs o).mem = fun _ => 0 := by
    by_cases ho : o = (w.ctx p).obj
    · subst ho
      obtain ⟨_, ⟨-, rfl⟩, hlen⟩ := hw.sized p hs
      exact .inl (by rw [setMem_len]; exact hlen)
    · rw [setMem_len, setMem_mem, if_neg ho]
      exact hw.blank o
  cases h with
  | move act c hc | accept info' hpc hi | openBound turn o' hpc hn => exact hw.blank o
  | unlink turn value hpc => exact hw.blank o
  | openFresh turn hpc hn =>
    by_cases ho : o = w.next
    · subst ho; exact .inr (by simp)
    · simpa [ho] using hw.blank o
  | truncate turn hpc =>
    rw [hpc] at hwf
    by_cases ho : o = (w.ctx p).obj
    · subst ho
      exact .inl (by rw [goto_objs, ftruncate_len, hwf.1.2])
    · simpa [ftruncate, ho] using hw.blank o
  | attach turn hpc => exact own (by simp [Context.sized, hpc, CreatePc.sized])
  | initRead turn j hpc hj | initWrite turn j hpc =>
    rw [hpc] at hwf
    exact own (by simp [Context.sized, hwf.2, CreatePc.counts])
  | decrement turn value hpc hv => exact own (by simp [Context.sized, Context.detaching, hpc])
  | transfer turn x x' m' hpc hi hs =>
    rw [hpc] at hwf
    exact own (by simp [Context.sized, hwf.2.1])

theorem Handing.fresh_next (hw : w.Handing info) (h : w.Step p act w') (hnext : w'.next ≠ w.next) (i : ℕ) :
    Fresh info w' w.next i := by
  cases h with
  | openFresh turn hpc hn =>
    constructor
    · intro s
      simp only [words, Function.update_self]
      exact load_zero fun _ _ _ => rfl
    · apply update_forall (Q := fun _ (c : Context) => c.obj = w.next → c.initialised i = false) (fun _ => rfl)
      intro q _ ho
      by_contra hi
      have hwf := hw.wf q
      have hb : (w.ctx q).bound = true := by
        unfold Context.initialised at hi
        unfold Context.WF at hwf
        unfold Context.bound
        cases hpc : (w.ctx q).pc with
        | create pc => cases pc <;> simp_all [CreatePc.counts]
        | _ => simp_all
      have := hw.bound q hb
      omega
  | _ => exact absurd rfl hnext

theorem busyAt_transfer {x x' : Transfer} {m' : Mem} (hpc : (w.ctx p).pc = .transfer x)
    (hx : x'.info = x.info) : ((w.setMem p m').goto p (.transfer x')).busyAt (w.ctx p).obj x.info.procIndex =
      Function.update (w.busyAt (w.ctx p).obj x.info.procIndex) p x'.busy := by
  funext q
  by_cases hq : q = p
  · subst hq; simp [busyAt, Context.busyAt, hx]
  · simp [busyAt, hq]

theorem words_transfer {x' : Transfer} {m' : Mem} :
    ((w.setMem p m').goto p (.transfer x')).words info (w.ctx p).obj i = (info.procs i).words m' := by
  simp [words, setMem_mem]

theorem Handing.slot_step (hw : w.Handing info) (h : w.Step p act w') (hok : calm info (p, act) w)
    (hinfo : info.Accepted) (ho : o < w'.next) (hi : i < info.procCount) :
    Fresh info w' o i ∨ Passing info w' o i := by
  by_cases hnext : o = w.next
  · subst hnext
    exact .inl (hw.fresh_next h (by omega) i)
  have hold : o < w.next := by
    cases h with
    | openFresh turn hpc hn => exact lt_of_le_of_ne (Nat.le_of_lt_succ ho) hnext
    | _ => exact ho
  have hslot := hw.slot o hold i hi
  by_cases hinit : (w.ctx p).obj = o ∧ (w.ctx p).pc = .create (.initRead i)
  · obtain ⟨rfl, hpc⟩ := hinit
    cases h with
    | move act c hc => exact (Quiet.of_move hc hw.toSane hi).slot hslot
    | initRead turn j hpc' hj =>
      cases hpc.symm.trans hpc'
      have hwf := hw.wf p
      rw [Context.WF, hpc] at hwf
      right
      apply hw.initRead hinfo hi (hok.2.2 i (by simp [Context.atInitRead, hpc]) hi) hold
      · funext q
        by_cases hq : q = p
        · subst hq; simp [busyAt, Context.busyAt, hpc]
        · simp [busyAt, hq]
      · simp [setMem_mem, hwf.1.2]
    | _ => simp_all
  by_cases hx : ∃ x, (w.ctx p).pc = .transfer x ∧ (w.ctx p).obj = o ∧ x.info.procIndex = i
  · obtain ⟨x, hpc, rfl, rfl⟩ := hx
    cases h with
    | move act c hc => exact (Quiet.of_move hc hw.toSane hi).slot hslot
    | transfer turn y x' m' hpc' hlock hs =>
      cases hpc.symm.trans hpc'
      have hwf := hw.wf p
      rw [Context.WF, hpc] at hwf
      obtain ⟨⟨-, hinfo'⟩, -, hxwf, -⟩ := hwf
      rw [hinfo'] at hs
      obtain ⟨t, ht, hne⟩ := hw.passing_on hi ⟨p, by simp [Context.settled, hpc], rfl⟩
      obtain ⟨t', ht', hstuck⟩ := (hs.motion hxwf (placed hinfo hi)).fits (p := p)
        (by simp [busyAt, Context.busyAt, hpc]) ht
      right
      refine ⟨t', ?_, ?_⟩
      · rw [words_transfer, busyAt_transfer hpc hs.info_eq]
        exact ht'
      · intro hst
        exact (hstuck hst).elim hne (hok.2.1 x (by simp [Context.call, hpc]))
    | _ => simp_all
  have hquiet : Quiet info w w' o i := by
    apply h.quiet hw.toSane hinfo hi hnext
    · intro _ _
      exact Object.ftruncate_blank (hw.blank o)
    · intro hobj hpc
      exact hinit ⟨hobj, hpc⟩
    · intro x hpc hobj hidx
      exact hx ⟨x, hpc, hobj, hidx⟩
  exact hquiet.slot hslot

theorem Handing.step (hw : w.Handing info) (h : w.Step p act w') (hok : calm info (p, act) w)
    (hinfo : info.Accepted) : w'.Handing info := by
  constructor
  · apply hw.toSane.step h
    rintro j rfl hj
    exact ⟨hj, hok.1⟩
  · exact hw.blank_step h
  · intro o ho i hi
    exact hw.slot_step h hok hinfo ho hi

end World

end Libcando.Shm
