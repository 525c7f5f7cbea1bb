import Libcando.Transition
import Libcando.TransferMotion

namespace Libcando.Shm

open ByteMemory Futex Transition Baton

structure Channel where
  info : ShmCreateInfo
  index : ℕ
  size : ℕ

/-- `writes` and `reads` are history, in the order in which the transfers release the opposite
futex; so are `given`, the buffer of a caller's last call, and `returned`, the buffers a caller
has got back with a 0. -/
structure HandOff (P : Type*) where
  mem : Mem
  call : P → Option Transfer
  writes : List (P × List UInt8) := []
  reads : List (P × List UInt8) := []
  given : P → Mem := fun _ _ => 0
  returned : P → Dir → List (List UInt8) := fun _ _ => []

inductive HandOff.Act
  | call (dir : Dir) (buf : Mem) (errno : Errno)
  | tick (turn : Turn)
  | finish

def slice (m : Mem) (n : ℕ) : List UInt8 := (List.range n).map m

def Transfer.passed (x : Transfer) (dir : Dir) : List (List UInt8) :=
  match x.pc with
  | .unlock (.store _) => if x.dir = dir then [slice x.buf x.info.size] else []
  | _ => []

def Transfer.gives (x : Transfer) (dir : Dir) : List (List UInt8) :=
  if x.pc = .done 0 ∧ x.dir = dir then [slice x.buf x.info.size] else []

def Transfer.due (dir : Dir) (x : Transfer) : List (List UInt8) :=
  if (x.pc = .unlock .wake ∨ x.pc = .done 0) ∧ x.dir = dir then [slice x.buf x.info.size] else []

def Transfer.Inside (x : Transfer) : Prop :=
  match x.pc with
  | .errnoCheck => x.took = true
  | .copy _ | .clear _ | .unlock (.store _) => True
  | _ => False

theorem Transfer.WF.busy_of_inside {x : Transfer} (h : x.WF) (hx : x.Inside) : x.busy ≠ none := by
  unfold WF at h
  unfold Inside at hx
  cases hpc : x.pc with
  | unlock pc => cases pc <;> simp_all [busy, TransferPc.holding]
  | _ => simp_all [busy, TransferPc.holding]

namespace Channel

variable {P : Type*} (c : Channel)

def proc : ShmProc := c.info.procs c.index

def entry (dir : Dir) (buf : Mem) (errno : Errno) : Transfer :=
  match dir with
  | .read => udoShmDataRead ⟨false, c.size, c.index⟩ buf errno
  | .write => udoShmDataWrite ⟨false, c.size, c.index⟩ buf errno

variable [DecidableEq P]

def step (l : P × HandOff.Act) (s : HandOff P) : Option (HandOff P) :=
  match l.2, s.call l.1 with
  | .call dir buf errno, none =>
    some { s with
      call := Function.update s.call l.1 (some (c.entry dir buf errno))
      given := Function.update s.given l.1 buf }
  | .tick turn, some x =>
    (x.step turn c.info.procs s.mem).map fun (x', m') =>
      { s with
        mem := m'
        call := Function.update s.call l.1 (some x')
        writes := s.writes ++ (x.passed .write).map (l.1, ·)
        reads := s.reads ++ (x.passed .read).map (l.1, ·) }
  | .finish, some x =>
    match x.pc with
    | .done _ =>
      some { s with
        call := Function.update s.call l.1 none
        returned := Function.update s.returned l.1 fun dir => s.returned l.1 dir ++ x.gives dir }
    | _ => none
  | _, _ => none

def system (P : Type*) [DecidableEq P] : System (HandOff P) (P × HandOff.Act) where
  init s := load s.mem c.proc.rdFux 4 = futexLock ∧ load s.mem c.proc.wrFux 4 = futexUnlock ∧
    (∀ p, s.call p = none) ∧ s.writes = [] ∧ s.reads = [] ∧ ∀ p dir, s.returned p dir = []
  step := c.step

end Channel

namespace HandOff

variable {P : Type*}

def busy (s : HandOff P) (p : P) : Option Side := (s.call p).bind Transfer.busy

def sent (s : HandOff P) : List (List UInt8) := s.writes.map Prod.snd

def taken (s : HandOff P) : List (List UInt8) := s.reads.map Prod.snd

def log (s : HandOff P) : Dir → List (P × List UInt8)
  | .read => s.reads
  | .write => s.writes

def logOf [DecidableEq P] (s : HandOff P) (p : P) (dir : Dir) : List (List UInt8) :=
  ((s.log dir).filter (·.1 = p)).map Prod.snd

def due (s : HandOff P) (p : P) (dir : Dir) : List (List UInt8) :=
  ((s.call p).map (Transfer.due dir)).getD []

/-- `returns`: the transfers of the history are just the calls that returned 0 or are about to,
each once. -/
structure InOrder [DecidableEq P] (s : HandOff P) : Prop where
  exclusive : ∀ p q x y, s.call p = some x → s.call q = some y → x.Inside → y.Inside → p = q
  order : s.taken <+: s.sent
  pending : s.sent.length ≤ s.taken.length + 1
  returns : ∀ p dir, s.logOf p dir = s.returned p dir ++ s.due p dir
  given : ∀ p x, s.call p = some x → x.dir = .write → x.buf = s.given p

def Content (c : Channel) (s : HandOff P) : Token P → Prop
  | .free .put => s.sent = s.taken
  | .held .put p => s.sent = s.taken ∧
      ∃ x, s.call p = some x ∧ ∀ i < x.progress, s.mem (c.proc.data + i) = x.buf i
  | .free .take => ∃ msg : Mem, s.sent = s.taken ++ [slice msg c.size] ∧
      ∀ i < c.size, s.mem (c.proc.data + i) = msg i
  | .held .take p => ∃ msg : Mem, s.sent = s.taken ++ [slice msg c.size] ∧
      ∃ x, s.call p = some x ∧ (∀ i < x.progress, i < c.size → x.buf i = msg i) ∧
        ∀ i, x.progress ≤ i → i < c.size → s.mem (c.proc.data + i) = msg i
  | .stuck => ∃ l, l.length ≤ 1 ∧ s.sent = s.taken ++ l

def On (c : Channel) (y : Option Transfer) : Prop :=
  ∀ x, y = some x → x.WF ∧ x.info = ⟨false, c.size, c.index⟩

structure Inv (c : Channel) (s : HandOff P) : Prop where
  calls : ∀ p, On c (s.call p)
  token : ∃ t : Token P, t.Fits (c.proc.words s.mem) s.busy ∧ s.Content c t

theorem slice_congr {m m' : Mem} {n : ℕ} (h : ∀ i < n, m i = m' i) : slice m n = slice m' n :=
  List.map_congr_left fun i hi => h i (List.mem_range.mp hi)

theorem Content.in_turn {c : Channel} {s : HandOff P} {t : Token P} (h : s.Content c t) :
    ∃ l, l.length ≤ 1 ∧ s.sent = s.taken ++ l := by
  cases t with
  | free side =>
    cases side with
    | put => exact ⟨[], by simp, by simpa [Content] using h⟩
    | take => obtain ⟨msg, he, -⟩ := h; exact ⟨_, by simp, he⟩
  | held side p =>
    cases side with
    | put => exact ⟨[], by simp, by simpa using h.1⟩
    | take => obtain ⟨msg, he, -⟩ := h; exact ⟨_, by simp, he⟩
  | stuck => exact h

theorem Content.of_idle {c : Channel} {s s' : HandOff P} {t : Token P} {word : Side → ℕ}
    (hc : s.Content c t) (ht : t.Fits word s.busy) {p : P} (hp : s.busy p = none) (hmem : s'.mem = s.mem)
    (hcall : ∀ q, q ≠ p → s'.call q = s.call q) (hw : s'.sent = s.sent) (hr : s'.taken = s.taken) :
    s'.Content c t := by
  have holder {side : Side} {q : P} (hq : t = .held side q) : q ≠ p := by
    rintro rfl
    subst hq
    rw [ht.2.1] at hp
    cases hp
  cases t with
  | free side => cases side <;> simpa only [Content, hw, hr, hmem] using hc
  | held side q => cases side <;> simpa only [Content, hw, hr, hmem, hcall q (holder rfl)] using hc
  | stuck => simpa only [Content, hw, hr] using hc

variable [DecidableEq P]

theorem busy_update (s : HandOff P) (p : P) (y : Option Transfer) (m : Mem) (ws rs : List (P × List UInt8))
    (given : P → Mem) (returned : P → Dir → List (List UInt8)) :
    (HandOff.mk m (Function.update s.call p y) ws rs given returned).busy =
      Function.update s.busy p (y.bind Transfer.busy) := by
  funext q
  by_cases hq : q = p
  · subst hq; simp [busy]
  · simp [busy, hq]

theorem Inv.replace {c : Channel} {s : HandOff P} (h : s.Inv c) {p : P} {y : Option Transfer}
    (hp : s.busy p = none) (hy : y.bind Transfer.busy = none) (hwf : On c y) (given : P → Mem)
    (returned : P → Dir → List (List UInt8)) :
    Inv c { s with call := Function.update s.call p y, given, returned } := by
  obtain ⟨t, ht, hc⟩ := h.token
  constructor
  · apply update_forall (Q := fun _ => On c) hwf
    intro q _
    exact h.calls q
  · refine ⟨t, ?_, ?_⟩
    · rwa [busy_update, hy, ← hp, Function.update_eq_self]
    · refine hc.of_idle ht hp rfl ?_ rfl rfl
      intro q hq
      exact Function.update_of_ne hq _ _

def moved (s : HandOff P) (p : P) (x x' : Transfer) (m' : Mem) : HandOff P :=
  { s with
    mem := m'
    call := Function.update s.call p (some x')
    writes := s.writes ++ (x.passed .write).map (p, ·)
    reads := s.reads ++ (x.passed .read).map (p, ·) }

@[simp] theorem moved_mem (s : HandOff P) (p : P) (x x' : Transfer) (m' : Mem) : (s.moved p x x' m').mem = m' := rfl

@[simp] theorem moved_call (s : HandOff P) (p : P) (x x' : Transfer) (m' : Mem) :
    (s.moved p x x' m').call = Function.update s.call p (some x') := rfl

@[simp] theorem moved_sent (s : HandOff P) (p : P) (x x' : Transfer) (m' : Mem) :
    (s.moved p x x' m').sent = s.sent ++ x.passed .write := by
  simp [sent, moved, Function.comp_def]

@[simp] theorem moved_taken (s : HandOff P) (p : P) (x x' : Transfer) (m' : Mem) :
    (s.moved p x x' m').taken = s.taken ++ x.passed .read := by
  simp [taken, moved, Function.comp_def]

theorem passed_nil {x : Transfer} (h : ¬ x.Releasing) (dir : Dir) : x.passed dir = [] := by
  unfold Transfer.passed
  split
  · rename_i value hpc; exact absurd ⟨value, hpc⟩ h
  · rfl

variable {c : Channel} {s : HandOff P} {t : Token P} {p : P} {x x' : Transfer} {m' : Mem}

theorem Content.work (hcontent : s.Content c t) (ht : t.Fits (c.proc.words s.mem) s.busy)
    (hx : s.call p = some x) (hb : x.busy = some x.dir.side) (hpassed : ∀ dir, x.passed dir = [])
    (hsize : x.info.size = c.size) (hc : x.Carries c.proc s.mem x' m') : (s.moved p x x' m').Content c t := by
  have hbusy : s.busy p = some x.dir.side := by simp [busy, hx, hb]
  obtain rfl := ht.of_busy hbusy
  cases hd : x.dir with
  | write =>
    simp only [hd, Dir.side] at hcontent ⊢
    obtain ⟨hwr, y, hy, hfill⟩ := hcontent
    cases hx.symm.trans hy
    obtain ⟨hbuf, hmem⟩ := hc.put hd
    constructor
    · simp [hpassed, hwr]
    refine ⟨x', by simp, ?_⟩
    intro i hi
    simp only [moved_mem]
    rw [hmem i hi, hbuf]
    split_ifs with his
    · exact hfill i his
    · rfl
  | read =>
    simp only [hd, Dir.side] at hcontent ⊢
    obtain ⟨msg, hwr, y, hy, hdone, hleft⟩ := hcontent
    cases hx.symm.trans hy
    obtain ⟨hbuf, hmem⟩ := hc.take hd
    have hgrows := hc.grows
    refine ⟨msg, by simp [hpassed, hwr], x', by simp, ?_, ?_⟩
    · intro i hi hlt
      rw [hbuf i hi]
      split_ifs with his
      · exact hdone i his hlt
      · exact hleft i (by omega) hlt
    · intro i hi hlt
      simp only [moved_mem]
      rw [(hmem i hi).resolve_right (by omega)]
      exact hleft i (by omega) hlt

theorem Content.acquire (hcontent : s.Content c t) (ht : t.Fits (c.proc.words s.mem) s.busy)
    (hfree : c.proc.words s.mem x.dir.side = 0) (hpassed : ∀ dir, x.passed dir = [])
    (hprogress : x'.progress = 0) (hd : ∀ a, c.proc.data ≤ a → m' a = s.mem a) :
    (s.moved p x x' m').Content c (.held x.dir.side p) := by
  obtain rfl := ht.of_free hfree
  cases hdir : x.dir with
  | write =>
    simp only [hdir, Dir.side] at hcontent ⊢
    exact ⟨by simpa [Content, hpassed] using hcontent, x', by simp, by simp [hprogress]⟩
  | read =>
    simp only [hdir, Dir.side] at hcontent ⊢
    obtain ⟨msg, hwr, hslot⟩ := hcontent
    refine ⟨msg, by simp [hpassed, hwr], x', by simp, by simp [hprogress], ?_⟩
    intro i _ hlt
    simp only [moved_mem]
    rw [hd _ (by omega)]
    exact hslot i hlt

theorem Content.release (hcontent : s.Content c t) (ht : t.Fits (c.proc.words s.mem) s.busy)
    (hx : s.call p = some x) (hb : x.busy = some x.dir.side) (hpc : x.pc = .unlock udoFutexUnlock)
    (hsize : x.info.size = c.size) (hd : ∀ a, c.proc.data ≤ a → m' a = s.mem a) :
    (s.moved p x x' m').Content c (.free x.dir.side.other) := by
  have hbusy : s.busy p = some x.dir.side := by simp [busy, hx, hb]
  have hprogress : x.progress = c.size := by simp [Transfer.progress, hpc, hsize]
  obtain rfl := ht.of_busy hbusy
  cases hdir : x.dir with
  | write =>
    simp only [hdir, Dir.side, Side.other] at hcontent ⊢
    obtain ⟨hwr, y, hy, hfill⟩ := hcontent
    cases hx.symm.trans hy
    refine ⟨x.buf, by simp [Transfer.passed, hpc, udoFutexUnlock, hdir, hwr, hsize], ?_⟩
    intro i hi
    simp only [moved_mem]
    rw [hd _ (by omega)]
    exact hfill i (by omega)
  | read =>
    simp only [hdir, Dir.side, Side.other] at hcontent ⊢
    obtain ⟨msg, hwr, y, hy, hdone, -⟩ := hcontent
    cases hx.symm.trans hy
    have hmsg : slice x.buf c.size = slice msg c.size := by
      apply slice_congr
      intro i hi
      exact hdone i (by omega) hi
    simp [Content, Transfer.passed, hpc, udoFutexUnlock, hdir, hwr, hsize, hmsg]

theorem Content.drop (hcontent : s.Content c t) (hpassed : ∀ dir, x.passed dir = []) :
    (s.moved p x x' m').Content c .stuck := by
  obtain ⟨l, hl, he⟩ := hcontent.in_turn
  exact ⟨l, hl, by simpa [hpassed] using he⟩

theorem Inv.tick (h : s.Inv c) (hplaced : c.proc.Placed) (hx : s.call p = some x)
    (hs : x.Step c.info.procs s.mem x' m') : (s.moved p x x' m').Inv c := by
  obtain ⟨hwf, hinfo⟩ := h.calls p x hx
  obtain ⟨t, ht, hc⟩ := h.token
  have hinfo' : x'.info = x.info := by cases hs <;> rfl
  have hproc : c.info.procs x.info.procIndex = c.proc := by rw [hinfo]; rfl
  have hsize : x.info.size = c.size := by rw [hinfo]
  have hbusy : s.busy p = x.busy := by simp [busy, hx]
  constructor
  · apply update_forall (Q := fun _ => On c)
    · intro y hy
      cases hy
      exact ⟨hs.wf hwf, hinfo'.trans hinfo⟩
    · intro q _
      exact h.calls q
  have hm := hs.motion hwf (hproc ▸ hplaced)
  rw [hproc] at hm
  rw [moved, busy_update, ← moved]
  cases hm with
  | idle hpc hb hb' hmem =>
    subst hmem
    refine ⟨t, ?_, ?_⟩
    · rw [Option.bind_some, hb', ← hb, ← hbusy, Function.update_eq_self]
      exact ht
    · refine hc.of_idle ht (hbusy.trans hb) rfl ?_ ?_ ?_
      · intro q hq
        exact Function.update_of_ne hq _ _
      all_goals simp [passed_nil hpc]
  | work hpc hb hb' hw hcarry =>
    refine ⟨t, ?_, hc.work ht hx hb (passed_nil hpc) hsize hcarry⟩
    rw [Option.bind_some, hb', ← hb, ← hbusy, Function.update_eq_self]
    exact hw ▸ ht
  | acquire hpc hfree hb hb' hw hprogress hd =>
    refine ⟨_, ?_, hc.acquire ht hfree (passed_nil hpc) hprogress hd⟩
    rw [Option.bind_some, hb']
    exact hw ▸ ht.acquire hfree p
  | release hb hb' hw hpc hd =>
    obtain rfl := ht.of_busy (hbusy.trans hb)
    refine ⟨_, ?_, hc.release ht hx hb hpc hsize hd⟩
    rw [Option.bind_some, hb']
    exact hw ▸ ht.release
  | drop hpc he hb hb' hmem =>
    obtain rfl := ht.of_busy (hbusy.trans hb)
    refine ⟨_, ?_, hc.drop (passed_nil (by simp [Transfer.Releasing, hpc]))⟩
    rw [Option.bind_some, hb']
    exact hmem ▸ ht.drop

theorem inv_step (hplaced : c.proc.Placed) {s s' : HandOff P} {l : P × Act} (h : s.Inv c)
    (hs : c.step l s = some s') : s'.Inv c := by
  obtain ⟨p, act⟩ := l
  unfold Channel.step at hs
  split at hs
  · rename_i dir buf errno hact hnone
    cases hs
    apply h.replace (by simp [busy, hnone])
    · cases dir <;> simp [Channel.entry, Transfer.busy, udoShmDataRead, udoShmDataWrite]
    · rintro x ⟨⟩
      cases dir <;> exact ⟨rfl, rfl⟩
  · rename_i turn x hact hx
    obtain ⟨⟨x', m'⟩, hstep, rfl⟩ := Option.map_eq_some_iff.mp hs
    exact h.tick hplaced hx (Transfer.step_cases hstep)
  · rename_i x hact hx
    split at hs
    · rename_i ret hpc
      cases hs
      apply h.replace _ rfl
      · intro y hy
        cases hy
      · rw [busy, hx]
        simp [Transfer.busy, TransferPc.holding, hpc]
    · cases hs
  · cases hs

theorem inv_init (c : Channel) {s : HandOff P} (h : (c.system P).init s) : s.Inv c := by
  obtain ⟨hrd, hwr, hcall, hw, hr, -⟩ := h
  constructor
  · intro p x hx
    simp [hcall p] at hx
  · refine ⟨.free .put, ⟨hwr, hrd, ?_⟩, ?_⟩
    · intro p
      simp [busy, hcall p]
    · simp [Content, sent, taken, hw, hr]

end HandOff

section Records

variable {procs : ℕ → ShmProc} {x x' : Transfer} {m m' : Mem}

theorem Transfer.Step.due (h : x.Step procs m x' m') (dir : Dir) : x'.due dir = x.due dir ++ x.passed dir := by
  cases h <;> simp_all [Transfer.due, Transfer.passed, eintr, udoFutexUnlock]

theorem Transfer.due_done {ret : ℤ} (h : x.pc = .done ret) (dir : Dir) : x.due dir = x.gives dir := by
  simp [due, gives, h]

theorem Transfer.Step.writes_keep (h : x.Step procs m x' m') (hd : x.dir = .write) :
    x'.dir = .write ∧ x'.buf = x.buf := by
  cases h with
  | read s hpc hdir hs => rw [hd] at hdir; cases hdir
  | _ => exact ⟨hd, rfl⟩

end Records

namespace HandOff

variable {P : Type*} [DecidableEq P]

structure Records (s : HandOff P) : Prop where
  returns : ∀ p dir, s.logOf p dir = s.returned p dir ++ s.due p dir
  given : ∀ p x, s.call p = some x → x.dir = .write → x.buf = s.given p

theorem logOf_moved (s : HandOff P) (p q : P) (x x' : Transfer) (m' : Mem) (dir : Dir) :
    (s.moved p x x' m').logOf q dir = s.logOf q dir ++ if q = p then x.passed dir else [] := by
  have one (l : List (List UInt8)) :
      ((l.map (p, ·)).filter (·.1 = q)).map Prod.snd = if q = p then l else [] := by
    by_cases hq : q = p
    · subst hq; simp [List.filter_map, Function.comp_def]
    · simp [List.filter_map, Function.comp_def, hq, Ne.symm hq]
  cases dir <;> simp only [logOf, log, moved, List.filter_append, List.map_append, one]

theorem Records.tick {c : Channel} {s : HandOff P} (h : s.Records) {p : P} {x x' : Transfer} {m' : Mem}
    (hx : s.call p = some x) (hs : x.Step c.info.procs s.mem x' m') : (s.moved p x x' m').Records := by
  constructor
  · intro q dir
    rw [logOf_moved, h.returns]
    by_cases hq : q = p
    · subst hq
      simp [due, moved, hx, hs.due]
    · simp [due, moved, hq]
  · intro q y hy hd
    by_cases hq : q = p
    · subst hq
      obtain rfl : x' = y := by simpa using hy
      have hdir : x.dir = .write := by cases hs <;> exact hd
      exact (hs.writes_keep hdir).2.trans (h.given q x hx hdir)
    · exact h.given q y (by simpa [hq] using hy) hd

theorem records_step {c : Channel} {s s' : HandOff P} {l : P × Act} (h : s.Records)
    (hs : c.step l s = some s') : s'.Records := by
  obtain ⟨p, act⟩ := l
  unfold Channel.step at hs
  split at hs
  · rename_i dir buf errno hact hnone
    cases hs
    have hdue (dir' : Dir) : (c.entry dir buf errno).due dir' = [] := by
      cases dir <;> simp [Channel.entry, Transfer.due, udoShmDataRead, udoShmDataWrite]
    constructor
    · intro q dir'
      have hq := h.returns q dir'
      by_cases hqp : q = p
      · subst hqp
        simpa [logOf, log, due, hnone, hdue] using hq
      · simpa [logOf, log, due, hqp] using hq
    · intro q y hy hd
      by_cases hqp : q = p
      · subst hqp
        obtain rfl : c.entry dir buf errno = y := by simpa using hy
        cases dir <;> simp [Channel.entry, udoShmDataRead, udoShmDataWrite]
      · simpa [hqp] using h.given q y (by simpa [hqp] using hy) hd
  · rename_i turn x hact hx
    obtain ⟨⟨x', m'⟩, hstep, rfl⟩ := Option.map_eq_some_iff.mp hs
    exact h.tick hx (Transfer.step_cases hstep)
  · rename_i x hact hx
    split at hs
    · rename_i ret hpc
      cases hs
      constructor
      · intro q dir
        have hq := h.returns q dir
        by_cases hqp : q = p
        · subst hqp
          simpa [logOf, log, due, hx, x.due_done hpc] using hq
        · simpa [logOf, log, due, hqp] using hq
      · intro q y hy hd
        by_cases hqp : q = p
        · subst hqp
          simp at hy
        · exact h.given q y (by simpa [hqp] using hy) hd
    · cases hs
  · cases hs

theorem records_init (c : Channel) {s : HandOff P} (h : (c.system P).init s) : s.Records := by
  obtain ⟨-, -, hcall, hw, hr, hreturned⟩ := h
  constructor
  · intro p dir
    cases dir <;> simp [logOf, log, due, hw, hr, hcall, hreturned]
  · intro p x hx
    simp [hcall p] at hx

theorem Inv.inOrder {c : Channel} {s : HandOff P} (h : s.Inv c) (hr : s.Records) : s.InOrder := by
  obtain ⟨t, ht, hc⟩ := h.token
  obtain ⟨l, hl, he⟩ := hc.in_turn
  have inside {p : P} {x : Transfer} (hx : s.call p = some x) (hin : x.Inside) : s.busy p ≠ none := by
    simpa [busy, hx] using (h.calls p x hx).1.busy_of_inside hin
  refine ⟨?_, ?_, ?_, hr.returns, hr.given⟩
  · intro p q x y hx hy hxin hyin
    exact ht.busy_unique (inside hx hxin) (inside hy hyin)
  · rw [he]
    exact List.prefix_append _ _
  · rw [he, List.length_append]
    omega

end HandOff

theorem hand_off_in_order {P : Type*} [DecidableEq P] (c : Channel) (hinfo : c.info.Accepted)
    (hindex : c.index < c.info.procCount) {s : HandOff P} (h : Reach (c.system P) (fun _ _ => True) s) :
    s.InOrder := by
  obtain ⟨hrd, hwr, hdata⟩ := ShmCreateInfo.procs_placed hinfo hindex
  have hplaced : c.proc.Placed := by
    simp only [ShmProc.Placed, Channel.proc]
    omega
  have hinv : s.Inv c := by
    apply h.invariant
    · intro s hs
      exact HandOff.inv_init c hs
    · intro s t l hs _ hstep
      exact HandOff.inv_step hplaced hs hstep
  have hrecords : s.Records := by
    apply h.invariant
    · intro s hs
      exact HandOff.records_init c hs
    · intro s t l hs _ hstep
      exact HandOff.records_step hs hstep
  exact hinv.inOrder hrecords

theorem hand_off_in_order_once : ∃ (c : Channel) (s : HandOff (Fin 2)),
    Reach (c.system (Fin 2)) (fun _ _ => True) s ∧ s.returned 0 .write = [[7, 8, 9, 10]] ∧
      s.returned 1 .read = [[7, 8, 9, 10]] ∧ s.InOrder := by
  let c : Channel := ⟨⟨[0x2F, 0x6B], 4096, 2, by decide⟩, 0, 4⟩
  have hinit : (c.system (Fin 2)).init
      { mem := store (store (fun _ => 0) 0 4 2) c.proc.rdFux 4 futexLock, call := fun _ => none } :=
    ⟨by decide, by decide, fun _ => rfl, rfl, rfl, fun _ _ => rfl⟩
  obtain ⟨s, hs, hq⟩ := exists_of_run _ (fun _ _ => True) (.init hinit)
    ((0, .call .write (fun i => UInt8.ofNat (i + 7)) 0) :: List.replicate 7 (0, .tick .plain) ++
      (0, .finish) :: (1, .call .read (fun _ => 0) 0) :: List.replicate 8 (1, .tick .plain) ++ [(1, .finish)])
    (fun s => s.returned 0 .write = [[7, 8, 9, 10]] ∧ s.returned 1 .read = [[7, 8, 9, 10]]) (by decide)
  exact ⟨c, s, hs, hq.1, hq.2, hand_off_in_order c ⟨by decide, by decide, by decide⟩ (by decide) hs⟩

end Libcando.Shm
