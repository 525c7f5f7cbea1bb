import Libcando.ErrorText
import Libcando.Ledger
import Libcando.Relay
import Libcando.Transition

namespace Libcando.Log

open Transition

abbrev Text := List UInt8

structure Colors where
  success : Text
  error : Text
  info : Text
  warning : Text
  deriving DecidableEq

def udoLogResetColors : Colors :=
  ⟨"\u001b[32;1m".toUTF8.data.toList, "\u001b[31;1m".toUTF8.data.toList, "\u001b[35;1m".toUTF8.data.toList,
    "\u001b[33;1m".toUTF8.data.toList⟩

def udoLogRemoveColors : Colors :=
  ⟨"[SUCCESS] ".toUTF8.data.toList, "[ERROR] ".toUTF8.data.toList, "[INFO] ".toUTF8.data.toList,
    "[WARN] ".toUTF8.data.toList⟩

def udoLogReset : Text := "\u001b[0m".toUTF8.data.toList

/-- The array has a null pointer where the type is no single bit. -/
def Colors.tcolors (c : Colors) : List (Option Text) :=
  [some [], some c.success, some c.error, none, some c.info, none, none, none, some c.warning, none, none, none,
    none, none, none, none, some udoLogReset]

def udoLogGetTcolor (c : Colors) (type : ℕ) : Option (Option Text) := c.tcolors[type]?

/-- What `dprintf` makes of a null pointer. -/
def printed (t : Option Text) : Text := t.getD "(null)".toUTF8.data.toList

inductive Pc
  | idle
  | flockEx (texts : List Text)
  | dprintf (timed : Bool) (texts : List Text)
  | fsync (timed : Bool)
  | flockUn
  deriving DecidableEq

/-- A process of which one thread logs: level, descriptor and colours are statics. `writefd` names the open file
description. `sent` is history: the texts of the calls of `udo_log_time` that passed the level. -/
structure LogProcess (D : Type*) where
  writefd : D
  logLevel : ℕ := 0
  colors : Colors := udoLogResetColors
  pc : Pc := .idle
  sent : List (List Text) := []

inductive Call (D : Type*)
  | time (type : ℕ) (stamp message : Text)
  | notime (type : ℕ) (message : Text)
  | setLevel (level : ℕ)
  | setWriteFd (fd : D)
  | removeColors
  | resetColors

def udoLogTime (type : ℕ) (stamp message : Text) {D : Type*} (x : LogProcess D) : LogProcess D :=
  if type &&& x.logLevel = 0 then x
  else
    let texts := [stamp, message, udoLogReset]
    { x with pc := .flockEx texts, sent := x.sent ++ [texts] }

def udoLogNotime (type : ℕ) (message : Text) {D : Type*} (x : LogProcess D) : Option (LogProcess D) :=
  if type &&& x.logLevel = 0 then some x
  else (udoLogGetTcolor x.colors type).map fun color =>
    { x with pc := .dprintf false [printed color, message, udoLogReset] }

def LogProcess.call {D : Type*} (x : LogProcess D) : Call D → Option (LogProcess D)
  | .time type stamp message => some (udoLogTime type stamp message x)
  | .notime type message => udoLogNotime type message x
  | .setLevel logLevel => some { x with logLevel }
  | .setWriteFd writefd => some { x with writefd }
  | .removeColors => some { x with colors := udoLogRemoveColors }
  | .resetColors => some { x with colors := udoLogResetColors }

inductive Turn
  | plain
  | part (n : ℕ)
  | fail
  deriving DecidableEq

inductive Act (D : Type*)
  | call (c : Call D)
  | tick (turn : Turn)

/-- `book` is history: who wrote which texts between taking the lock and giving it back. -/
structure State (P D : Type*) where
  contents : Text
  offset : D → ℕ
  lock : Option D
  proc : P → LogProcess D
  book : Ledger (P × List Text) UInt8

namespace State

variable {P D : Type*} [DecidableEq P] [DecidableEq D]

def goto (s : State P D) (p : P) (pc : Pc) : State P D :=
  { s with proc := Function.update s.proc p { s.proc p with pc } }

/-- A write at the offset of the description, or at the end of the file if it was opened to append. -/
def write (append : D → Bool) (s : State P D) (d : D) (bytes : Text) : State P D :=
  let pos := if append d then s.contents.length else s.offset d
  let padded := s.contents ++ List.replicate (pos - s.contents.length) 0
  { s with
    contents := Relay.writeAt padded pos bytes
    offset := Function.update s.offset d (pos + bytes.length)
    book := s.book.add bytes }

/-- An open file description that has the lock is given it again. -/
def flockEx (s : State P D) (p : P) (texts : List Text) : Option (State P D) :=
  let d := (s.proc p).writefd
  if s.lock = none ∨ s.lock = some d then
    some { s.goto p (.dprintf true texts) with lock := some d, book := s.book.begin (p, texts) }
  else none

def flockUn (s : State P D) (p : P) : State P D :=
  { s.goto p .idle with
    lock := if s.lock = some (s.proc p).writefd then none else s.lock
    book := s.book.close }

def dprintf (append : D → Bool) (s : State P D) (p : P) (timed : Bool) (turn : Turn) (t : Text) (ts : List Text) :
    Option (State P D) :=
  match turn with
  | .plain => some ((s.write append (s.proc p).writefd t).goto p (.dprintf timed ts))
  | .part n =>
    if n < t.length then
      some ((s.write append (s.proc p).writefd (t.take n)).goto p (.dprintf timed (t.drop n :: ts)))
    else none
  | .fail => some (s.goto p (.dprintf timed ts))

def step (append : D → Bool) (l : P × Act D) (s : State P D) : Option (State P D) :=
  match l.2, (s.proc l.1).pc with
  | .call c, .idle => ((s.proc l.1).call c).map fun x => { s with proc := Function.update s.proc l.1 x }
  | .tick .plain, .flockEx texts => s.flockEx l.1 texts
  | .tick .fail, .flockEx texts => some (s.goto l.1 (.dprintf true texts))
  | .tick turn, .dprintf timed (t :: ts) => s.dprintf append l.1 timed turn t ts
  | .tick .plain, .dprintf timed [] => some (s.goto l.1 (.fsync timed))
  | .tick _, .fsync timed => some (s.goto l.1 (if timed then .flockUn else .idle))
  | .tick .plain, .flockUn => some (s.flockUn l.1)
  | _, _ => none

end State

variable {P D : Type*} [DecidableEq P]

def initial (old : Text) (fd : P → D) : State P D where
  contents := old
  offset _ := 0
  lock := none
  proc p := { writefd := fd p }
  book := {}

def system [DecidableEq D] (append : D → Bool) (old : Text) (fd : P → D) : System (State P D) (P × Act D) where
  init s := s = initial old fd
  step := State.step append

def Pc.mayFail (lossy : Prop) : Pc → Prop
  | .flockEx _ => False
  | .dprintf _ _ => lossy
  | _ => True

/-- Everybody logs with time stamps, to an open file description of its own that appends, and no lock is refused.
Writes may fail only where `lossy` says so. -/
def recorded (append : D → Bool) (lossy : Prop) : P × Act D → State P D → Prop
  | (p, .call (.notime type _)), s => type &&& (s.proc p).logLevel = 0
  | (p, .call (.setWriteFd d)), s => append d = true ∧ ∀ q, q ≠ p → (s.proc q).writefd ≠ d
  | (p, .tick .fail), s => (s.proc p).pc.mayFail lossy
  | _, _ => True

def Pc.left : Pc → Option (List Text)
  | .dprintf true texts => some texts
  | .fsync true | .flockUn => some []
  | _ => none

def Pc.waits : Pc → List (List Text)
  | .flockEx texts => [texts]
  | _ => []

def Pc.untimed : Pc → Bool
  | .dprintf false _ | .fsync false => true
  | _ => false

theorem Pc.left_some {pc : Pc} {rest : List Text} (h : pc.left = some rest) :
    pc.untimed = false ∧ pc.waits = [] := by
  cases pc with
  | dprintf timed texts | fsync timed => cases timed <;> first | exact ⟨rfl, rfl⟩ | cases h
  | flockUn => exact ⟨rfl, rfl⟩
  | _ => cases h

theorem Pc.dprintf_timed {timed : Bool} {texts : List Text} (h : (Pc.dprintf timed texts).untimed = false) :
    timed = true := by
  cases timed <;> first | rfl | cases h

theorem Pc.fsync_timed {timed : Bool} (h : (Pc.fsync timed).untimed = false) : timed = true := by
  cases timed <;> first | rfl | cases h

inductive Holding (lossy : Prop) (s : State P D) : Prop
  | free (hl : s.lock = none) (hb : s.book.opened = none) (hout : ∀ p, (s.proc p).pc.left = none)
  | taken (p : P) (texts : List Text) (wrote : Text) (rest : List Text) (hl : s.lock = some (s.proc p).writefd)
    (hb : s.book.opened = some ((p, texts), wrote)) (hp : (s.proc p).pc.left = some rest)
    (hpass : Passed lossy texts wrote rest) (hout : ∀ q, q ≠ p → (s.proc q).pc.left = none)

structure Inv (append : D → Bool) (old : Text) (lossy : Prop) (s : State P D) : Prop where
  apart : ∀ p q, (s.proc p).writefd = (s.proc q).writefd → p = q
  appends : ∀ p, append (s.proc p).writefd = true
  timed : ∀ p, (s.proc p).pc.untimed = false
  text : s.contents = old ++ s.book.text
  holding : Holding lossy s
  closed : ∀ e ∈ s.book.closed, Passed lossy e.1.2 e.2 []
  sent : ∀ p, (s.proc p).sent =
    (s.book.keys.filter (fun k => k.1 = p)).map Prod.snd ++ (s.proc p).pc.waits

variable {append : D → Bool} {old : Text} {lossy : Prop} {s t : State P D} {p : P}

theorem Inv.holder (hs : Inv append old lossy s) {rest : List Text} (hp : (s.proc p).pc.left = some rest) :
    ∃ texts wrote, s.lock = some (s.proc p).writefd ∧ s.book.opened = some ((p, texts), wrote) ∧
      Passed lossy texts wrote rest ∧ ∀ q, q ≠ p → (s.proc q).pc.left = none := by
  cases hs.holding with
  | free hl hb hout => rw [hout p] at hp; cases hp
  | taken q texts wrote rest' hl hb hq hpass hout =>
    have hqp : q = p := by
      by_contra hne
      rw [hout p (Ne.symm hne)] at hp
      cases hp
    subst hqp
    cases hq.symm.trans hp
    exact ⟨texts, wrote, hl, hb, hpass, hout⟩

theorem Inv.free (hs : Inv append old lossy s) (hp : (s.proc p).pc.left = none)
    (hl : s.lock = none ∨ s.lock = some (s.proc p).writefd) :
    s.book.opened = none ∧ ∀ q, (s.proc q).pc.left = none := by
  cases hs.holding with
  | free _ hb hout => exact ⟨hb, hout⟩
  | taken q texts wrote rest hlock hb hq hpass hout =>
    rw [hlock] at hl
    have hqp : q = p := hs.apart q p (by simpa using hl)
    rw [hqp, hp] at hq
    cases hq

theorem Inv.progress (hs : Inv append old lossy s) {rest rest' : List Text} {bytes : Text} {pc : Pc}
    (hp : (s.proc p).pc.left = some rest) (hpc : pc.left = some rest')
    (hpass : ∀ texts wrote, Passed lossy texts wrote rest → Passed lossy texts (wrote ++ bytes) rest')
    (hcontents : t.contents = s.contents ++ bytes) (hlock : t.lock = s.lock) (hbook : t.book = s.book.add bytes)
    (hproc : t.proc = Function.update s.proc p { s.proc p with pc }) : Inv append old lossy t := by
  obtain ⟨texts, wrote, hl, hb, hpassed, hout⟩ := hs.holder hp
  obtain ⟨huntimed, hwaits⟩ := Pc.left_some hpc
  have hfd (q : P) : (t.proc q).writefd = (s.proc q).writefd := by
    rw [hproc]
    by_cases hq : q = p <;> simp [hq, Function.update_of_ne]
  constructor
  · intro q r hqr
    exact hs.apart q r (by rwa [hfd, hfd] at hqr)
  · intro q
    rw [hfd]
    exact hs.appends q
  · rw [hproc]
    exact update_forall (Q := fun _ (x : LogProcess D) => x.pc.untimed = false) huntimed fun q _ => hs.timed q
  · rw [hcontents, hbook, Ledger.text_add hb, hs.text, List.append_assoc]
  · refine .taken p texts (wrote ++ bytes) rest' ?_ ?_ ?_ (hpass _ _ hpassed) ?_
    · rw [hlock, hl, hfd]
    · simp [hbook, Ledger.add, hb]
    · simpa [hproc] using hpc
    · intro q hq
      simpa [hproc, hq] using hout q hq
  · intro e he
    exact hs.closed e (by simpa [hbook, Ledger.add] using he)
  · rw [hproc, hbook, Ledger.keys_add]
    apply update_forall (Q := fun q (x : LogProcess D) => x.sent =
      (s.book.keys.filter (fun k => k.1 = q)).map Prod.snd ++ x.pc.waits)
    · rw [hwaits, hs.sent p, (Pc.left_some hp).2]
    · intro q _; exact hs.sent q

theorem Inv.write [DecidableEq D] (hs : Inv append old lossy s) {rest rest' : List Text} {bytes : Text} {pc : Pc}
    (hp : (s.proc p).pc.left = some rest) (hpc : pc.left = some rest')
    (hpass : ∀ texts wrote, Passed lossy texts wrote rest → Passed lossy texts (wrote ++ bytes) rest') :
    Inv append old lossy ((s.write append (s.proc p).writefd bytes).goto p pc) := by
  refine hs.progress hp hpc hpass ?_ rfl rfl rfl
  simp [State.write, State.goto, hs.appends p]

theorem Inv.goto (hs : Inv append old lossy s) {rest rest' : List Text} {pc : Pc}
    (hp : (s.proc p).pc.left = some rest) (hpc : pc.left = some rest')
    (hpass : ∀ texts wrote, Passed lossy texts wrote rest → Passed lossy texts wrote rest') :
    Inv append old lossy (s.goto p pc) := by
  have hnone (texts : List Text) (wrote : Text) (h : Passed lossy texts wrote rest) :
      Passed lossy texts (wrote ++ []) rest' := by
    rw [List.append_nil]
    exact hpass texts wrote h
  refine hs.progress hp hpc hnone ?_ rfl ?_ rfl
  · exact (List.append_nil _).symm
  · exact (Ledger.add_nil _).symm

theorem Inv.dprintf [DecidableEq D] (hs : Inv append old lossy s) {turn : Turn} {text : Text} {ts : List Text}
    (hp : (s.proc p).pc = .dprintf true (text :: ts)) (hlossy : turn = .fail → lossy)
    (h : s.dprintf append p true turn text ts = some t) : Inv append old lossy t := by
  have left : (s.proc p).pc.left = some (text :: ts) := by rw [hp]; rfl
  cases turn with
  | plain =>
    cases h
    apply hs.write left rfl
    intro texts wrote hpass
    exact .next (.write (by rwa [List.append_nil]))
  | part n =>
    simp only [State.dprintf] at h
    split_ifs at h
    cases h
    apply hs.write left rfl
    intro texts wrote hpass
    exact .write (by rwa [List.take_append_drop])
  | fail =>
    cases h
    exact hs.goto left rfl fun _ _ hpass => .lose (hlossy rfl) hpass

theorem Inv.flockEx [DecidableEq D] (hs : Inv append old lossy s) {texts : List Text}
    (hp : (s.proc p).pc = .flockEx texts) (h : s.flockEx p texts = some t) : Inv append old lossy t := by
  simp only [State.flockEx] at h
  split_ifs at h with hl
  cases h
  obtain ⟨hb, hout⟩ := hs.free (by rw [hp]; rfl) hl
  have hfd (q : P) : (Function.update s.proc p { s.proc p with pc := .dprintf true texts } q).writefd =
      (s.proc q).writefd := by
    by_cases hq : q = p <;> simp [hq]
  constructor
  · intro q r hqr
    exact hs.apart q r ((hfd q).symm.trans (hqr.trans (hfd r)))
  · intro q
    exact (congrArg append (hfd q)).trans (hs.appends q)
  · exact update_forall (Q := fun _ (x : LogProcess D) => x.pc.untimed = false) rfl fun q _ => hs.timed q
  · exact hs.text.trans (congrArg (old ++ ·) (Ledger.text_begin hb _).symm)
  · refine .taken p texts [] texts ?_ rfl ?_ .start ?_
    · simp [State.goto]
    · simp [State.goto, Pc.left]
    · intro q hq
      simpa [State.goto, hq] using hout q
  · exact hs.closed
  · intro q
    have hkeys : (s.book.begin (p, texts)).keys = s.book.keys ++ [(p, texts)] := Ledger.keys_begin hb _
    by_cases hq : q = p
    · subst hq
      simp [State.goto, hkeys, hs.sent q, hp, Pc.waits]
    · simp [State.goto, hkeys, hs.sent q, hq, Ne.symm hq]

theorem Inv.flockUn [DecidableEq D] (hs : Inv append old lossy s) (hp : (s.proc p).pc = .flockUn) :
    Inv append old lossy (s.flockUn p) := by
  have left : (s.proc p).pc.left = some [] := by rw [hp]; rfl
  obtain ⟨texts, wrote, hl, hb, hpass, hout⟩ := hs.holder left
  have hfd (q : P) : (Function.update s.proc p { s.proc p with pc := .idle } q).writefd = (s.proc q).writefd := by
    by_cases hq : q = p <;> simp [hq]
  constructor
  · intro q r hqr
    exact hs.apart q r ((hfd q).symm.trans (hqr.trans (hfd r)))
  · intro q
    exact (congrArg append (hfd q)).trans (hs.appends q)
  · exact update_forall (Q := fun _ (x : LogProcess D) => x.pc.untimed = false) rfl fun q _ => hs.timed q
  · exact hs.text.trans (congrArg (old ++ ·) (Ledger.text_close _).symm)
  · refine .free (if_pos hl) rfl ?_
    exact update_forall (Q := fun _ (x : LogProcess D) => x.pc.left = none) rfl hout
  · intro e he
    simp only [State.flockUn, Ledger.close, hb, Option.toList_some, List.mem_append, List.mem_singleton] at he
    rcases he with he | rfl
    · exact hs.closed e he
    · exact hpass
  · refine update_forall (Q := fun q (x : LogProcess D) => x.sent =
      (s.book.close.keys.filter (fun k => k.1 = q)).map Prod.snd ++ x.pc.waits) ?_ fun q _ => ?_
    · rw [Ledger.keys_close]
      simpa [hp, Pc.waits] using hs.sent p
    · rw [Ledger.keys_close]
      exact hs.sent q

theorem Inv.call (hs : Inv append old lossy s) {c : Call D} {x : LogProcess D} (hp : (s.proc p).pc = .idle)
    (hok : recorded append lossy (p, .call c) s) (h : (s.proc p).call c = some x) :
    Inv append old lossy { s with proc := Function.update s.proc p x } := by
  -- a call takes no lock, and the texts it is to write wait for one
  have spec : x.pc.left = none ∧ x.pc.untimed = false ∧ x.sent = (s.proc p).sent ++ x.pc.waits ∧
      (x.writefd = (s.proc p).writefd ∨ append x.writefd = true ∧ ∀ q, q ≠ p → (s.proc q).writefd ≠ x.writefd) := by
    cases c with
    | time type stamp message =>
      cases h
      simp only [udoLogTime]
      split_ifs
      · simp [hp, Pc.left, Pc.untimed, Pc.waits]
      · simp [Pc.left, Pc.untimed, Pc.waits]
    | notime type message =>
      have hmask : type &&& (s.proc p).logLevel = 0 := hok
      simp only [LogProcess.call, udoLogNotime, hmask, ↓reduceIte, Option.some.injEq] at h
      subst h
      simp [hp, Pc.left, Pc.untimed, Pc.waits]
    | setWriteFd d =>
      cases h
      have hfd : append d = true ∧ ∀ q, q ≠ p → (s.proc q).writefd ≠ d := hok
      simpa [hp, Pc.left, Pc.untimed, Pc.waits] using .inr hfd
    | setLevel level | removeColors | resetColors =>
      cases h
      simp [hp, Pc.left, Pc.untimed, Pc.waits]
  obtain ⟨hleft, huntimed, hsent, hfd⟩ := spec
  have hother (q : P) (hq : q ≠ p) : (s.proc q).writefd ≠ x.writefd := by
    rcases hfd with hsame | ⟨-, hnew⟩
    · intro h
      exact hq (hs.apart q p (h.trans hsame))
    · exact hnew q hq
  constructor
  · intro q r hqr
    by_cases hq : q = p <;> by_cases hr : r = p
    · rw [hq, hr]
    · subst hq
      simp only [Function.update_self, Function.update_of_ne hr] at hqr
      exact absurd hqr.symm (hother r hr)
    · subst hr
      simp only [Function.update_self, Function.update_of_ne hq] at hqr
      exact absurd hqr (hother q hq)
    · simp only [Function.update_of_ne hq, Function.update_of_ne hr] at hqr
      exact hs.apart q r hqr
  · refine update_forall (Q := fun _ (x : LogProcess D) => append x.writefd = true) ?_ fun q _ => hs.appends q
    rcases hfd with hsame | ⟨happ, -⟩
    · rw [hsame]; exact hs.appends p
    · exact happ
  · exact update_forall (Q := fun _ (x : LogProcess D) => x.pc.untimed = false) huntimed fun q _ => hs.timed q
  · exact hs.text
  · have hout {q : P} (hq : (s.proc q).pc.left = none) : (Function.update s.proc p x q).pc.left = none := by
      by_cases hqp : q = p
      · subst hqp; simpa using hleft
      · simpa [hqp] using hq
    cases hs.holding with
    | free hl hb hfree => exact .free hl hb fun q => hout (hfree q)
    | taken r texts wrote rest hl hb hr hpass hrest =>
      have hrp : r ≠ p := by
        rintro rfl
        rw [hp] at hr
        cases hr
      refine .taken r texts wrote rest ?_ hb ?_ hpass fun q hq => hout (hrest q hq)
      · simpa [hrp] using hl
      · simpa [hrp] using hr
  · exact hs.closed
  · refine update_forall (Q := fun q (x : LogProcess D) => x.sent =
      (s.book.keys.filter (fun k => k.1 = q)).map Prod.snd ++ x.pc.waits) ?_ fun q _ => hs.sent q
    rw [hsent, hs.sent p, hp]
    simp [Pc.waits]

theorem Inv.step [DecidableEq D] (hs : Inv append old lossy s) {l : P × Act D} (hok : recorded append lossy l s)
    (h : s.step append l = some t) : Inv append old lossy t := by
  obtain ⟨p, act⟩ := l
  unfold State.step at h
  split at h
  · obtain ⟨x, hx, rfl⟩ := Option.map_eq_some_iff.mp h
    rename_i c hact hp
    cases hact
    exact hs.call hp hok hx
  · exact hs.flockEx ‹_› h
  · rename_i texts hact hp
    cases hact
    exact (hp ▸ hok : (Pc.flockEx texts).mayFail lossy).elim
  · rename_i turn timed text ts hact hp
    cases hact
    obtain rfl := Pc.dprintf_timed (hp ▸ hs.timed p)
    apply hs.dprintf hp _ h
    rintro rfl
    exact (hp ▸ hok : (Pc.dprintf true (text :: ts)).mayFail lossy)
  · rename_i timed hact hp
    obtain rfl := Pc.dprintf_timed (hp ▸ hs.timed p)
    cases h
    exact hs.goto (by rw [hp]; rfl) rfl fun _ _ hpass => hpass
  · rename_i turn timed hact hp
    obtain rfl := Pc.fsync_timed (hp ▸ hs.timed p)
    cases h
    exact hs.goto (by rw [hp]; rfl) rfl fun _ _ hpass => hpass
  · cases h
    exact hs.flockUn ‹_›
  · cases h

theorem inv_initial {fd : P → D} (hfd : Function.Injective fd) (happ : ∀ p, append (fd p) = true) :
    Inv append old lossy (initial old fd) := by
  constructor
  · intro p q hpq; exact hfd hpq
  · exact happ
  · intro p; rfl
  · simp [initial]
  · exact .free rfl rfl fun _ => rfl
  · intro e he; cases he
  · intro p; rfl

variable [DecidableEq D]

theorem inv_reach {fd : P → D} (hfd : Function.Injective fd) (happ : ∀ p, append (fd p) = true)
    (h : Reach (system append old fd) (recorded append lossy) s) : Inv append old lossy s := by
  apply h.invariant
  · rintro s rfl
    exact inv_initial hfd happ
  · intro s t l hs hok hstep
    exact hs.step hok hstep

theorem log_records_apart {fd : P → D} (hfd : Function.Injective fd) (happ : ∀ p, append (fd p) = true)
    (h : Reach (system append old fd) (recorded append lossy) s) :
    s.contents = old ++ s.book.text ∧
      (∀ e ∈ s.book.closed, Cut e.1.2 e.2 ∧ (¬lossy → e.2 = e.1.2.flatten)) ∧
      (∀ e, s.book.opened = some e → s.lock = some (s.proc e.1.1).writefd ∧ (¬lossy → e.2 <+: e.1.2.flatten)) ∧
      ∀ p, (s.proc p).pc = .idle →
        (s.book.closed.filter (fun e => e.1.1 = p)).map (fun e => e.1.2) = (s.proc p).sent := by
  have inv := inv_reach hfd happ h
  refine ⟨inv.text, ?_, ?_, ?_⟩
  · intro e he
    refine ⟨(inv.closed e he).cut, ?_⟩
    intro hlossy
    simpa using (inv.closed e he).whole hlossy
  · intro e he
    cases inv.holding with
    | free hl hb hout => rw [hb] at he; cases he
    | taken p texts wrote rest hl hb hp hpass hout =>
      cases hb.symm.trans he
      refine ⟨hl, ?_⟩
      intro hlossy
      exact ⟨rest.flatten, hpass.whole hlossy⟩
  · intro p hp
    have hopen : (s.book.opened.map Prod.fst).toList.filter (fun k => k.1 = p) = [] := by
      cases inv.holding with
      | free hl hb hout => simp [hb]
      | taken q texts wrote rest hl hb hq hpass hout =>
        have hqp : q ≠ p := by
          rintro rfl
          rw [hp] at hq
          cases hq
        simp [hb, hqp]
    rw [inv.sent p, hp, Ledger.keys, List.filter_append, hopen]
    simp [Pc.waits, List.filter_map, Function.comp_def]

instance [Decidable lossy] : ∀ pc : Pc, Decidable (pc.mayFail lossy)
  | .flockEx _ => inferInstanceAs (Decidable False)
  | .dprintf _ _ => inferInstanceAs (Decidable lossy)
  | .idle | .fsync _ | .flockUn => inferInstanceAs (Decidable True)

instance [Fintype P] [Decidable lossy] : ∀ (l : P × Act D) (s : State P D), Decidable (recorded append lossy l s)
  | (p, .call (.notime type _)), s => inferInstanceAs (Decidable (type &&& (s.proc p).logLevel = 0))
  | (p, .call (.setWriteFd d)), s =>
    inferInstanceAs (Decidable (append d = true ∧ ∀ q, q ≠ p → (s.proc q).writefd ≠ d))
  | (p, .tick .fail), s => inferInstanceAs (Decidable ((s.proc p).pc.mayFail lossy))
  | (_, .call (.time _ _ _)), _ | (_, .call (.setLevel _)), _ | (_, .call .removeColors), _
  | (_, .call .resetColors), _ | (_, .tick .plain), _ | (_, .tick (.part _)), _ =>
    inferInstanceAs (Decidable True)

theorem log_records_apart_two : ∃ s : State (Fin 2) (Fin 2), (s.proc 0).pc = .idle ∧
    s.book.closed.length = 1 ∧ s.lock = some 1 ∧ s.contents.length = 9 ∧
    s.contents = [65] ++ s.book.text ∧
      (∀ e ∈ s.book.closed, Cut e.1.2 e.2 ∧ (¬False → e.2 = e.1.2.flatten)) ∧
      (∀ e, s.book.opened = some e → s.lock = some (s.proc e.1.1).writefd ∧ (¬False → e.2 <+: e.1.2.flatten)) ∧
      ∀ p, (s.proc p).pc = .idle →
        (s.book.closed.filter (fun e => e.1.1 = p)).map (fun e => e.1.2) = (s.proc p).sent := by
  obtain ⟨s, hs, h0, h1, h2, h3⟩ := exists_of_run (system (fun _ => true) [65] id)
    (recorded (P := Fin 2) (D := Fin 2) (fun _ => true) False) (.init rfl)
    [(0, .call (.setLevel 3)), (1, .call (.setLevel 1)), (0, .call (.time 2 [1] [2, 3])),
      (1, .call (.time 1 [4, 5] [])), (0, .tick .plain), (0, .tick .plain), (0, .tick (.part 1)), (0, .tick .plain),
      (0, .tick .plain), (0, .tick .plain), (0, .tick .plain), (0, .tick .plain), (1, .tick .plain),
      (1, .tick (.part 1))]
    (fun s => (s.proc 0).pc = .idle ∧ s.book.closed.length = 1 ∧ s.lock = some 1 ∧ s.contents.length = 9)
    (by decide)
  exact ⟨s, h0, h1, h2, h3, log_records_apart Function.injective_id (fun _ => rfl) hs⟩

/-- After `fork` both processes write through one description, which is given its own lock again. -/
theorem log_records_mixed : ∃ s : State (Fin 2) (Fin 1),
    Reach (system (fun _ => true) [] fun _ => 0) (recorded (fun _ => true) False) s ∧
      (∀ p, (s.proc p).pc = .idle) ∧ s.contents ≠ ((s.proc 0).sent ++ (s.proc 1).sent).flatten.flatten ∧
      s.contents ≠ ((s.proc 1).sent ++ (s.proc 0).sent).flatten.flatten :=
  exists_of_run (system (fun _ => true) [] fun _ => 0)
    (recorded (P := Fin 2) (D := Fin 1) (fun _ => true) False) (.init rfl)
    [(0, .call (.setLevel 1)), (1, .call (.setLevel 1)), (0, .call (.time 1 [1] [])), (1, .call (.time 1 [2] [])),
      (0, .tick .plain), (1, .tick .plain), (0, .tick .plain), (1, .tick .plain), (0, .tick .plain),
      (0, .tick .plain), (0, .tick .plain), (0, .tick .plain), (0, .tick .plain), (1, .tick .plain),
      (1, .tick .plain), (1, .tick .plain), (1, .tick .plain), (1, .tick .plain)]
    (fun s => (∀ p, (s.proc p).pc = .idle) ∧
      s.contents ≠ ((s.proc 0).sent ++ (s.proc 1).sent).flatten.flatten ∧
      s.contents ≠ ((s.proc 1).sent ++ (s.proc 0).sent).flatten.flatten) (by decide)

end Libcando.Log
